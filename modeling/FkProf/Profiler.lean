import FkProf.Processor
import Mathlib.Data.Fintype.Basic

/-!
# Signal handlers and the configuration

`Profiler::handle` (`profiler.cpp`) runs in a signal handler on any application
thread; its guard only loads `ongoingConf` and waits for nobody. A control thread
stops the profiler, changes the configuration, and starts it again; the setters
write to `liveConfiguration`, and the next start copies it to `configuration_`
and replaces the queue that the handlers push to (`Profiler::configure`).

A step of a handler is one read of `configuration_->maxFramesToCapture` or of
`buffer`, the call of `AsyncGetCallTrace`, or the return of `push`: a handler is
at `push` from its read of `buffer` on, and has the queue in its hands until
`push` has returned. Queues and path strings are named by their allocation.
-/

namespace FkProf.Profiler

open FkProf.Processor (SamplingInterval setSamplingInterval)

/-! ## The configuration -/

/-- `DEFAULT_MAX_FRAMES_TO_CAPTURE`. -/
def DEFAULT_MAX_FRAMES_TO_CAPTURE : ℤ := 128

/-- `MAX_FRAMES_TO_CAPTURE`. -/
def MAX_FRAMES_TO_CAPTURE : ℤ := 2048

/-- `maxFramesToCapture` of a configuration. -/
structure MaxFrames where
  frames : ℤ
  pos : 0 < frames
  lt : frames < MAX_FRAMES_TO_CAPTURE
  deriving DecidableEq

/-- `Profiler::setMaxFramesToCapture`, what it stores. -/
def setMaxFramesToCapture (maxFramesToCapture : ℤ) : MaxFrames :=
  if h : 0 < maxFramesToCapture ∧ maxFramesToCapture < MAX_FRAMES_TO_CAPTURE then
    ⟨maxFramesToCapture, h.1, h.2⟩
  else ⟨DEFAULT_MAX_FRAMES_TO_CAPTURE, by decide, by decide⟩

/-- `ConfigurationOptions`, what `configure` compares. A path is the name of the
    string, or null. -/
structure ConfigurationOptions where
  logFilePath : Option ℕ
  samplingInterval : SamplingInterval
  maxFramesToCapture : MaxFrames

/-- A queue that has been built: the frames of its slots, and whether it has been
    deleted. -/
structure QueueCell where
  maxFrames : ℤ
  deleted : Bool
  deriving DecidableEq

/-! ## The threads -/

/-- Where a thread is in `Profiler::handle`: before its first read, with the size
    of its array of frames, with the number of frames it asks for, with a trace,
    and from its read of `buffer` to the return of `push`. -/
inductive Handler
  | idle
  | entered
  | sized (size : ℤ)
  | asked (size depth : ℤ)
  | traced (numFrames : ℤ)
  | push (queue : ℕ) (numFrames : ℤ)
  deriving DecidableEq

/-- A call on the control thread; of a new path it matters whether it is null. -/
inductive Op
  | start
  | stop
  | setFilePath (isNull : Bool)
  | setSamplingInterval (intervalMin intervalMax : ℤ)
  | setMaxFramesToCapture (maxFramesToCapture : ℤ)

/-- Where the control thread is: in a setter, in start (with `configure`, from
    `comparePath` to `clearReload`), or in stop. -/
inductive Control
  | idle
  | testSetter (op : Op)
  | testStart
  | comparePath
  | compareFrames (needsUpdate : Bool)
  | deleteBuffer
  | storeMaxFrames
  | newBuffer
  | compareInterval (needsUpdate : Bool)
  | clearReload
  | setAction
  | startProcessor
  | testStop
  | stopProcessor
  | ignoreSignal

/-- Where a call begins. -/
def Op.entry : Op → Control
  | .start => .testStart
  | .stop => .testStop
  | op => .testSetter op

/-- The profiler, the control thread and the handlers. -/
structure State (Tid : Type*) where
  /-- `configuration_`. -/
  configuration : ConfigurationOptions
  liveConfiguration : ConfigurationOptions
  reloadConfig : Bool
  isRunning : Bool
  /-- The action of `SIGPROF` is `bootstrapHandle`. -/
  handled : Bool
  /-- How many path strings have been allocated. -/
  nPaths : ℕ
  queues : List QueueCell
  buffer : ℕ
  control : Control
  handlers : Tid → Handler

/-- Who takes a step: the control thread making a call or going on with it, a
    thread that gets a signal, a handler that reads, one whose thread has no
    `JNIEnv`, one that gets its trace, and one whose `push` returns. -/
inductive Label (Tid : Type*)
  | call (op : Op)
  | control
  | signal (t : Tid)
  | read (t : Tid)
  | noEnv (t : Tid) (gcActive : Bool)
  | trace (t : Tid) (numFrames : ℤ)
  | pushed (t : Tid)

section Steps

variable {Tid : Type*}

/-- The body of a setter, past its test that the profiler does not run. -/
def State.set (σ : State Tid) : Op → State Tid
  | .setFilePath isNull =>
    { σ with
      liveConfiguration := { σ.liveConfiguration with
        logFilePath := if isNull then none else some σ.nPaths }
      nPaths := σ.nPaths + 1
      reloadConfig := true }
  | .setSamplingInterval intervalMin intervalMax =>
    { σ with
      liveConfiguration := { σ.liveConfiguration with
        samplingInterval := setSamplingInterval intervalMin intervalMax }
      reloadConfig := true }
  | .setMaxFramesToCapture maxFramesToCapture =>
    { σ with
      liveConfiguration := { σ.liveConfiguration with
        maxFramesToCapture := setMaxFramesToCapture maxFramesToCapture }
      reloadConfig := true }
  | .start | .stop => σ

/-- `configure`, lines 237-263: the log file is opened under the live path, or
    under a new one, which becomes the live path. -/
def State.openLog (σ : State Tid) : State Tid :=
  let path := σ.liveConfiguration.logFilePath.getD σ.nPaths
  { σ with
    configuration := { σ.configuration with logFilePath := some path }
    liveConfiguration := { σ.liveConfiguration with logFilePath := some path }
    nPaths := if σ.liveConfiguration.logFilePath = none then σ.nPaths + 1 else σ.nPaths }

/-- A step of the control thread. -/
def State.controlStep (σ : State Tid) : Option (State Tid) :=
  match σ.control with
  | .idle => none
  | .testSetter op => some { (if σ.isRunning then σ else σ.set op) with control := .idle }
  | .testStart =>
    some { σ with control :=
      if σ.isRunning then .idle else if σ.reloadConfig then .comparePath else .setAction }
  | .comparePath =>
    some (if σ.configuration.logFilePath ≠ σ.liveConfiguration.logFilePath then
      { σ.openLog with control := .compareFrames true }
    else { σ with control := .compareFrames false })
  | .compareFrames needsUpdate =>
    some { σ with control :=
      if needsUpdate ∨
          σ.configuration.maxFramesToCapture ≠ σ.liveConfiguration.maxFramesToCapture then
        .deleteBuffer
      else .compareInterval false }
  | .deleteBuffer =>
    some { σ with
      control := .storeMaxFrames
      queues := σ.queues.modify σ.buffer fun q => { q with deleted := true } }
  | .storeMaxFrames =>
    some { σ with
      control := .newBuffer
      configuration := { σ.configuration with
        maxFramesToCapture := σ.liveConfiguration.maxFramesToCapture } }
  | .newBuffer =>
    some { σ with
      control := .compareInterval true
      queues := σ.queues ++ [⟨σ.configuration.maxFramesToCapture.frames, false⟩]
      buffer := σ.queues.length }
  | .compareInterval needsUpdate =>
    -- The processor and the signal handler are built again as well.
    some { σ with
      control := .clearReload
      configuration :=
        if needsUpdate ∨
            σ.configuration.samplingInterval.min ≠ σ.liveConfiguration.samplingInterval.min ∨
            σ.configuration.samplingInterval.max ≠ σ.liveConfiguration.samplingInterval.max then
          { σ.configuration with samplingInterval := σ.liveConfiguration.samplingInterval }
        else σ.configuration }
  | .clearReload => some { σ with control := .setAction, reloadConfig := false }
  | .setAction => some { σ with control := .startProcessor, handled := true }
  | .startProcessor => some { σ with control := .idle, isRunning := true }
  | .testStop => some { σ with control := if σ.isRunning then .stopProcessor else .idle }
  | .stopProcessor => some { σ with control := .ignoreSignal, isRunning := false }
  | .ignoreSignal => some { σ with control := .idle, handled := false }

variable [DecidableEq Tid]

/-- A handler moves. -/
def State.setHandler (σ : State Tid) (t : Tid) (pc : Handler) : State Tid :=
  { σ with handlers := Function.update σ.handlers t pc }

/-- A read of `configuration_->maxFramesToCapture`, line 79 or 90, or of `buffer`,
    line 94. -/
def State.readStep (σ : State Tid) (t : Tid) : Option (State Tid) :=
  match σ.handlers t with
  | .entered => some (σ.setHandler t (.sized σ.configuration.maxFramesToCapture.frames))
  | .sized size => some (σ.setHandler t (.asked size σ.configuration.maxFramesToCapture.frames))
  | .traced numFrames => some (σ.setHandler t (.push σ.buffer numFrames))
  | _ => none

/-- The next state. `AsyncGetCallTrace` returns at most the frames it was asked
    for; a negative number is an error code. -/
def State.next (σ : State Tid) : Label Tid → Option (State Tid)
  | .call op =>
    match σ.control with
    | .idle => some { σ with control := op.entry }
    | _ => none
  | .control => σ.controlStep
  | .signal t =>
    if σ.handled ∧ σ.handlers t = .idle then some (σ.setHandler t .entered) else none
  | .read t => σ.readStep t
  | .noEnv t gcActive =>
    match σ.handlers t with
    | .sized _ => some (σ.setHandler t (.traced (if gcActive then -2 else -3)))
    | _ => none
  | .trace t numFrames =>
    match σ.handlers t with
    | .asked _ depth =>
      if numFrames ≤ depth then some (σ.setHandler t (.traced numFrames)) else none
    | _ => none
  | .pushed t =>
    match σ.handlers t with
    | .push _ _ => some (σ.setHandler t .idle)
    | _ => none

omit [DecidableEq Tid] in
/-- `Profiler::Profiler`: the setters check the configuration it is given, and
    `configure` builds everything. -/
def State.new (isNull : Bool) (intervalMin intervalMax maxFramesToCapture : ℤ) : State Tid :=
  let maxFrames := setMaxFramesToCapture maxFramesToCapture
  let conf : ConfigurationOptions :=
    ⟨if isNull then none else some 0, setSamplingInterval intervalMin intervalMax, maxFrames⟩
  let σ : State Tid :=
    ⟨conf, conf, false, false, false, if isNull then 0 else 1, [⟨maxFrames.frames, false⟩], 0,
      .idle, fun _ => .idle⟩
  σ.openLog

variable (Tid) in
/-- The profiler as a transition system. -/
def system : System (State Tid) (Label Tid) where
  init := {σ | ∃ isNull intervalMin intervalMax maxFrames,
    σ = .new isNull intervalMin intervalMax maxFrames}
  next := State.next

end Steps

end FkProf.Profiler
