import FkProf.Foundations.System
import Mathlib.Algebra.Order.Ring.Int
import Mathlib.Data.Nat.Notation

/-!
# Starting and stopping the profiler

The handshake between `Profiler::start` and `Profiler::stop` (`profiler.cpp`),
which run one at a time under the lock `ongoingConf`, and the worker thread in
`Processor::run` (`processor.cpp`), with the `SignalHandler`
(`signal_handler.cpp`, `signal_handler.h`) that both of them use.

A step is one access to a variable shared by the two threads. The fields of the
`SignalHandler` and the `static struct itimerval` of `updateSigprofInterval`
are plain variables, so that every load, store and copy of them is a step of its
own. The outcomes of `pop`, `RunAgentThread` and `setitimer` come with the
label of the step that makes the call.

The `Processor` and the `SignalHandler` are built once: start and stop leave
`reloadConfig` false. The action of the signal is not part of the state.
-/

namespace FkProf.Processor

/-! ## The sampling intervals -/

/-- `NUMBER_OF_INTERVALS`. -/
def NUMBER_OF_INTERVALS : ℕ := 1024

/-- `DEFAULT_SAMPLING_INTERVAL`, in microseconds. -/
def DEFAULT_SAMPLING_INTERVAL : ℤ := 1

/-- `samplingIntervalMin` and `samplingIntervalMax` of a configuration. -/
structure SamplingInterval where
  min : ℤ
  max : ℤ
  pos : 0 < min
  le : min ≤ max

/-- A bound given to `setSamplingInterval`, or the default. -/
def intervalOrDefault (interval : ℤ) : ℤ :=
  if 0 < interval then interval else DEFAULT_SAMPLING_INTERVAL

theorem intervalOrDefault_pos (interval : ℤ) : 0 < intervalOrDefault interval := by
  unfold intervalOrDefault
  split
  · assumption
  · decide

/-- `Profiler::setSamplingInterval`, what it stores. -/
def setSamplingInterval (intervalMin intervalMax : ℤ) : SamplingInterval where
  min := Min.min (intervalOrDefault intervalMin) (intervalOrDefault intervalMax)
  max := Max.max (intervalOrDefault intervalMin) (intervalOrDefault intervalMax)
  pos := lt_min (intervalOrDefault_pos _) (intervalOrDefault_pos _)
  le := min_le_max

/-- `SignalHandler::SignalHandler`: the intervals it draws, `rand i` being what
    `rand()` returns in the loop. -/
def SamplingInterval.timingIntervals (c : SamplingInterval) (rand : ℕ → ℕ) (i : ℕ) : ℤ :=
  c.min + rand i % (c.max - c.min + 1)

theorem SamplingInterval.timingIntervals_pos (c : SamplingInterval) (rand : ℕ → ℕ) (i : ℕ) :
    0 < c.timingIntervals rand i := by
  have hle := c.le
  have hmod := Int.emod_nonneg (rand i) (show c.max - c.min + 1 ≠ 0 by omega)
  have hpos := c.pos
  unfold timingIntervals
  omega

/-! ## The signal handler -/

/-- `struct itimerval`. -/
structure Itimerval where
  intervalSec : ℤ
  intervalUsec : ℤ
  valueSec : ℤ
  valueUsec : ℤ
  deriving DecidableEq

/-- A timer that is running, and starts again each time it expires. -/
def Itimerval.Armed (t : Itimerval) : Prop :=
  (t.valueSec ≠ 0 ∨ t.valueUsec ≠ 0) ∧ (t.intervalSec ≠ 0 ∨ t.intervalUsec ≠ 0)

instance (t : Itimerval) : Decidable t.Armed :=
  inferInstanceAs (Decidable ((_ ∨ _) ∧ (_ ∨ _)))

/-- The variables of the `SignalHandler`, the static `timer`, and the timer
    `ITIMER_PROF` of the process. -/
structure Signals where
  intervalIndex : ℕ
  currentInterval : ℤ
  timer : Itimerval
  itimer : Itimerval
  deriving DecidableEq

/-- Where a thread is in `updateSigprofInterval(timingInterval)`. -/
inductive Update
  | compare
  | storeSec
  | storeUsec
  | copySec
  | copyUsec
  | setitimer
  | storeInterval
  | done (res : Bool)
  deriving DecidableEq

/-- Where a thread is in `updateSigprofInterval()`. -/
inductive Rearm
  | load
  | update (timingInterval : ℤ) (u : Update)
  | loadIndex (res : Bool)
  | storeIndex (res : Bool) (index : ℕ)
  | done (res : Bool)
  deriving DecidableEq

/-- A step of `updateSigprofInterval(timingInterval)`, lines 31-41. -/
def Update.step (timingInterval : ℤ) (ok : Bool) (s : Signals) :
    Update → Option (Update × Signals)
  | .compare => some (if timingInterval = s.currentInterval then .done true else .storeSec, s)
  | .storeSec =>
    some (.storeUsec,
      { s with timer := { s.timer with intervalSec := timingInterval.tdiv 1000000 } })
  | .storeUsec =>
    some (.copySec,
      { s with timer := { s.timer with intervalUsec := timingInterval.tmod 1000000 } })
  | .copySec =>
    some (.copyUsec, { s with timer := { s.timer with valueSec := s.timer.intervalSec } })
  | .copyUsec =>
    some (.setitimer, { s with timer := { s.timer with valueUsec := s.timer.intervalUsec } })
  | .setitimer =>
    some (if ok then (.storeInterval, { s with itimer := s.timer }) else (.done false, s))
  | .storeInterval => some (.done true, { s with currentInterval := timingInterval })
  | .done _ => none

/-- A step of `updateSigprofInterval()`, lines 24-26. -/
def Rearm.step (intervals : ℕ → ℤ) (ok : Bool) (s : Signals) : Rearm → Option (Rearm × Signals)
  | .load => some (.update (intervals s.intervalIndex) .compare, s)
  | .update _ (.done res) => some (.loadIndex res, s)
  | .update timingInterval u =>
    (u.step timingInterval ok s).map fun p => (.update timingInterval p.1, p.2)
  | .loadIndex res => some (.storeIndex res s.intervalIndex, s)
  | .storeIndex res index =>
    some (.done res, { s with intervalIndex := (index + 1) % NUMBER_OF_INTERVALS })
  | .done _ => none

/-! ## The worker and the control thread -/

/-- Where the worker is in `Processor::run`. -/
inductive Run
  | pop (popped : ℕ)
  | test (popped : ℕ)
  | rearm (r : Rearm)
  | loadRunning (popped : ℕ)
  | stopSigprof (u : Update)
  | clear
  deriving DecidableEq

/-- Where the holder of `ongoingConf` is in `Profiler::start` (from `testStart` to
    `started`) or `Profiler::stop` (from `testStop` to `spin`). -/
inductive Control
  | idle
  | testStart
  | storeRunning
  | testAndSet
  | runAgentThread
  | rearm (r : Rearm)
  | started (res : Bool)
  | testStop
  | stopSigprof (u : Update)
  | clearRunning
  | spin
  deriving DecidableEq

/-- The processor, its worker if it has been launched and has not left
    `Processor::run`, and the control thread. -/
structure State where
  isRunning : Bool
  workerDone : Bool
  signals : Signals
  worker : Option Run
  control : Control
  deriving DecidableEq

/-- Who takes a step: a control thread that calls start or stop, or goes on with
    the call, or the worker. `ok` is the outcome of the call of `pop`,
    `RunAgentThread` or `setitimer` that the step makes. -/
inductive Label
  | start
  | stop
  | control (ok : Bool)
  | worker (ok : Bool)
  deriving DecidableEq

/-- A step of the worker in `Processor::run`, lines 32-53. -/
def State.workerStep (intervals : ℕ → ℤ) (σ : State) (ok : Bool) : Option State :=
  match σ.worker with
  | none => none
  | some (.pop popped) =>
    some { σ with worker := some (if ok then .pop (popped + 1) else .test popped) }
  | some (.test popped) =>
    some { σ with worker := some (if 200 < popped then .rearm .load else .loadRunning popped) }
  | some (.rearm (.done res)) =>
    some { σ with worker := some (if res then .loadRunning 0 else .stopSigprof .compare) }
  | some (.rearm r) =>
    (r.step intervals ok σ.signals).map fun p =>
      { σ with worker := some (.rearm p.1), signals := p.2 }
  | some (.loadRunning popped) =>
    some { σ with worker := some (if σ.isRunning then .pop popped else .stopSigprof .compare) }
  | some (.stopSigprof (.done _)) => some { σ with worker := some .clear }
  | some (.stopSigprof u) =>
    (u.step 0 ok σ.signals).map fun p =>
      { σ with worker := some (.stopSigprof p.1), signals := p.2 }
  | some .clear => some { σ with worker := none, workerDone := false }

/-- A step of `Profiler::start`, lines 103-121, and `Processor::start`, or of
    `Profiler::stop`, lines 126-133, and `Processor::stop`. -/
def State.controlStep (intervals : ℕ → ℤ) (σ : State) (ok : Bool) : Option State :=
  match σ.control with
  | .idle => none
  | .testStart =>
    some { σ with control := if σ.isRunning then .started true else .storeRunning }
  | .storeRunning => some { σ with control := .testAndSet, isRunning := true }
  | .testAndSet => some { σ with control := .runAgentThread, workerDone := true }
  | .runAgentThread =>
    -- A failure is logged, and start goes on.
    some { σ with control := .rearm .load, worker := if ok then some (.pop 0) else σ.worker }
  | .rearm (.done res) => some { σ with control := .started res }
  | .rearm r =>
    (r.step intervals ok σ.signals).map fun p => { σ with control := .rearm p.1, signals := p.2 }
  | .started _ => some { σ with control := .idle }
  | .testStop =>
    some { σ with control := if σ.isRunning then .stopSigprof .compare else .idle }
  | .stopSigprof (.done _) => some { σ with control := .clearRunning }
  | .stopSigprof u =>
    (u.step 0 ok σ.signals).map fun p => { σ with control := .stopSigprof p.1, signals := p.2 }
  | .clearRunning => some { σ with control := .spin, isRunning := false }
  | .spin => some (if σ.workerDone then σ else { σ with control := .idle, workerDone := true })

/-- The next state. -/
def State.next (intervals : ℕ → ℤ) (σ : State) : Label → Option State
  | .start => if σ.control = .idle then some { σ with control := .testStart } else none
  | .stop => if σ.control = .idle then some { σ with control := .testStop } else none
  | .control ok => σ.controlStep intervals ok
  | .worker ok => σ.workerStep intervals ok

/-- The signal handler as it is built, with the process's timer unset. -/
def Signals.initial : Signals := ⟨0, -1, ⟨0, 0, 0, 0⟩, ⟨0, 0, 0, 0⟩⟩

/-- The processor as it is built: `workerDone` has no initial value. -/
def State.initial (workerDone : Bool) : State := ⟨false, workerDone, .initial, none, .idle⟩

/-- The profiler as a transition system, configured with the sampling intervals
    `c`, and drawing the random numbers `rand`. -/
def system (c : SamplingInterval) (rand : ℕ → ℕ) : System State Label where
  init := {σ | ∃ b, σ = .initial b}
  next := State.next (c.timingIntervals rand)

end FkProf.Processor
