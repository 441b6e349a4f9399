import FkProf.Foundations.System
import FkProf.Foundations.ThreadSum
import FkProf.Foundations.BitSmear
import FkProf.Foundations.Destroy
import FkProf.Foundations.XorShift
import FkProf.Foundations.Reader
import FkProf.Foundations.Holding
import FkProf.Foundations.Strings
import FkProf.Foundations.RunningSums
import FkProf.Foundations.Heap
import FkProf.Foundations.SpinLock
import FkProf.ScopedPtr
import FkProf.Gc
import FkProf.Gc.Invariant
import FkProf.Gc.Reclamation
import FkProf.Gc.Countdown
import FkProf.Gc.Calls
import FkProf.Gc.Generations
import FkProf.CircularQueue
import FkProf.CircularQueue.Protocol
import FkProf.CircularQueue.Records
import FkProf.CircularQueue.Progress
import FkProf.ConcurrentMap.HashTable
import FkProf.ConcurrentMap.InsertOrUpdate
import FkProf.ConcurrentMap.Chain
import FkProf.ConcurrentMap.ChainLock
import FkProf.ConcurrentMap.Migration
import FkProf.ConcurrentMap.Run
import FkProf.ConcurrentMap.Provider
import FkProf.ConcurrentMap.Strict
import FkProf.ConcurrentMap.Accounting
import FkProf.ConcurrentMap.Order
import FkProf.ConcurrentMap.Owner
import FkProf.ConcurrentMap.Register
import FkProf.ConcurrentMap.Teardown
import FkProf.ConcurrentMap.Sequential
import FkProf.ConcurrentMap.Reach
import FkProf.ConcurrentMap.Alone
import FkProf.ConcurrentMap.FiniteMap
import FkProf.ConcurrentMap.Writers
import FkProf.ConcurrentMap.Attended
import FkProf.ConcurrentMap.Ownership
import FkProf.ConcurrentMap.Outline
import FkProf.ConcurrentMap.Coordination
import FkProf.ConcurrentMap.Completion
import FkProf.ConcurrentMap.Cells
import FkProf.ConcurrentMap.Effects
import FkProf.ConcurrentMap.Values
import FkProf.ConcurrentMap.Custody
import FkProf.ConcurrentMap.Lookup
import FkProf.ThreadMap
import FkProf.ThreadMap.Registration
import FkProf.ThreadMap.References
import FkProf.ThreadMap.PointerHasher
import FkProf.Processor
import FkProf.Processor.Handshake
import FkProf.Processor.Status
import FkProf.Processor.Drain
import FkProf.Processor.Disarm
import FkProf.Profiler
import FkProf.Profiler.Handlers
import FkProf.Profiler.Callers
import FkProf.Profiler.Configure
import FkProf.Profiler.Paths
import FkProf.Profiler.Intervals
import FkProf.Agent
import FkProf.Agent.Signals
import FkProf.Agent.Priming
import FkProf.Profiler.Settings
import FkProf.Controller
import FkProf.Controller.Requests
import FkProf.Controller.Session
import FkProf.LogWriter
import FkProf.LogWriter.Lines
import FkProf.LogWriter.LineTable
import FkProf.LogWriter.Traces
import FkProf.LogWriter.Lookups
import FkProf.Profiler.Samples
import FkProf.Profiler.Recording
import FkProf.ProfileWriter
import FkProf.ProfileWriter.Words
import FkProf.ProfileWriter.Corruption
import FkProf.ConcurrentMap.Publication
import FkProf.ConcurrentMap.Fitting
import FkProf.ConcurrentMap.Progress
import FkProf.ConcurrentMap.StepsLeft
import FkProf.ConcurrentMap.Growth
import FkProf.ConcurrentMap.Attempts
import FkProf.ConcurrentMap.Termination
