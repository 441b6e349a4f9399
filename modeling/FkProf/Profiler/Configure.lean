import FkProf.CircularQueue
import FkProf.Foundations.Heap
import FkProf.Foundations.System
import FkProf.Profiler

/-!
# The object graph of the profiler

`Profiler::configure` (`profiler.cpp:233-285`) builds four objects that refer to one
another: the log writer of a file, the queue that it listens to, a signal handler, and
the processor of all three. Each setter stores to `liveConfiguration`, and the next start
compares it with `configuration_`, what the objects were built from, and builds again
what has changed and all that refers to it. A path is compared as a pointer to a string,
which the setter and `configure` allocate and free (`safe_copy_string`,
`safe_free_string`).

The objects are named by the order of their creation; the strings by their addresses,
which may be used again after a string was freed.

* `Graph`: what the objects in use refer to;
* `Owned`: they are allocated, and so are the strings;
* `configure_ensures`: whatever has changed, `configure` leaves a graph behind that is
  built from the live configuration;
* `configured_coherent`: so it is in every run.
-/

namespace FkProf.Configure

open FkProf.Processor (SamplingInterval)

/-- `ConfigurationOptions`; the path is a pointer. -/
@[ext]
structure ConfigurationOptions where
  samplingIntervalMin : ℤ
  samplingIntervalMax : ℤ
  logFilePath : Option ℕ
  maxFramesToCapture : ℤ

/-- `ConfigurationOptions::ConfigurationOptions`. -/
def ConfigurationOptions.new : ConfigurationOptions := ⟨1, 1, none, 128⟩

/-- The objects: a file with the name under which it was opened, and the others with what
    they are built from. -/
inductive Component
  | ofstream (fileName : List Char)
  | logWriter (output : ℕ)
  | circularQueue (listener : ℕ) (maxFrames : ℤ)
  | signalHandler (samplingIntervalMin samplingIntervalMax : ℤ)
  | processor (logWriter buffer handler : ℕ) (interval : ℤ)

/-- The profiler, with the heaps of the strings and of the objects. -/
structure State where
  strings : Heap (List Char)
  components : Heap Component
  /-- How many objects have been created. -/
  nComponents : ℕ
  /-- `configuration_`. -/
  configuration : ConfigurationOptions
  liveConfiguration : ConfigurationOptions
  logFile : Option ℕ
  writer : Option ℕ
  buffer : Option ℕ
  handler : Option ℕ
  processor : Option ℕ
  /-- `isRunning_` of the processor. -/
  processorRuns : Bool
  reloadConfig : Bool

/-- A call. The allocator chooses the address of a string, and the clock the name of a
    file that has none. -/
inductive Op
  | setFilePath (newFilePath : Option (List Char)) (address : ℕ)
  | setSamplingInterval (intervalMin intervalMax : ℤ)
  | setMaxFramesToCapture (maxFramesToCapture : ℤ)
  | start (fileName : List Char) (address : ℕ)
  | stop

/-! ## The code -/

section Code

/-- `__is_running`. -/
def State.isRunning (σ : State) : Bool := σ.processor.isSome && σ.processorRuns

/-- `delete`, of an object or null. -/
def State.delete (σ : State) : Option ℕ → Except Stuck State
  | none => .ok σ
  | some a => do
    let components ← σ.components.free a
    .ok { σ with components := components }

/-- `new`: the object gets the next name. -/
def State.new (σ : State) (c : Component) : State :=
  { σ with
    components := Function.update σ.components σ.nComponents (some c)
    nComponents := σ.nComponents + 1 }

/-- `safe_free_string`, of a string or null. -/
def State.freeString (σ : State) : Option ℕ → Except Stuck State
  | none => .ok σ
  | some a => do
    let strings ← σ.strings.free a
    .ok { σ with strings := strings }

/-- `safe_copy_string`. -/
def State.copyString (σ : State) (s : List Char) (address : ℕ) : Except Stuck State := do
  let strings ← σ.strings.alloc address s
  .ok { σ with strings := strings }

/-- `setFilePath`, lines 160-166. -/
def State.setFilePath (σ : State) (newFilePath : Option (List Char)) (address : ℕ) :
    Except Stuck State := do
  let σ ←
    (if σ.liveConfiguration.logFilePath ≠ σ.configuration.logFilePath then
      σ.freeString σ.liveConfiguration.logFilePath
    else .ok σ)
  match newFilePath with
  | none =>
    .ok { σ with
      liveConfiguration := { σ.liveConfiguration with logFilePath := none }
      reloadConfig := true }
  | some s =>
    let σ ← σ.copyString s address
    .ok { σ with
      liveConfiguration := { σ.liveConfiguration with logFilePath := some address }
      reloadConfig := true }

/-- `setSamplingInterval`, lines 181-185. -/
def State.setSamplingInterval (σ : State) (intervalMin intervalMax : ℤ) : State :=
  let c := Processor.setSamplingInterval intervalMin intervalMax
  { σ with
    liveConfiguration :=
      { σ.liveConfiguration with samplingIntervalMin := c.min, samplingIntervalMax := c.max }
    reloadConfig := true }

/-- `setMaxFramesToCapture`, lines 199-202. -/
def State.setMaxFramesToCapture (σ : State) (maxFramesToCapture : ℤ) : State :=
  { σ with
    liveConfiguration := { σ.liveConfiguration with
      maxFramesToCapture := (Profiler.setMaxFramesToCapture maxFramesToCapture).frames }
    reloadConfig := true }

/-- `configure`, lines 245-257: the path of the log, and the string that it points to. -/
def State.path (σ : State) (fileName : List Char) (address : ℕ) :
    Except Stuck (State × ℕ × List Char) :=
  match σ.liveConfiguration.logFilePath with
  | none => do
    let σ ← σ.copyString fileName address
    .ok (σ, address, fileName)
  | some path => do
    let name ← σ.strings.get path
    .ok (σ, path, name)

/-- `configure`, lines 239-263. -/
def State.openLog (σ : State) (fileName : List Char) (address : ℕ) : Except Stuck State := do
  let σ ← σ.delete σ.logFile
  let σ ← σ.delete σ.writer
  let σ ← σ.freeString σ.configuration.logFilePath
  let (σ, path, name) ← σ.path fileName address
  let σ := { σ with
    configuration := { σ.configuration with logFilePath := some path }
    liveConfiguration := { σ.liveConfiguration with logFilePath := some path } }
  let logFile := σ.nComponents
  let σ := σ.new (.ofstream name)
  let writer := σ.nComponents
  let σ := σ.new (.logWriter logFile)
  .ok { σ with logFile := some logFile, writer := some writer }

/-- What a pointer that is dereferenced points to. -/
def deref : Option ℕ → Except Stuck ℕ
  | none => .error .invalid
  | some a => .ok a

/-- `configure`, lines 266-270. -/
def State.newBuffer (σ : State) : Except Stuck State := do
  let σ ← σ.delete σ.buffer
  let maxFrames := σ.liveConfiguration.maxFramesToCapture
  let writer ← deref σ.writer
  let buffer := σ.nComponents
  let σ := σ.new (.circularQueue writer maxFrames)
  .ok { σ with
    configuration := { σ.configuration with maxFramesToCapture := maxFrames }
    buffer := some buffer }

/-- The interval of a processor, lines 281-282. -/
def processorInterval (samplingIntervalMin : ℤ) : ℤ :=
  let processor_interval := Queue.Size * samplingIntervalMin / 1000 / 2
  if 0 < processor_interval then processor_interval else 1

/-- `configure`, lines 275-283. -/
def State.newProcessor (σ : State) : Except Stuck State := do
  let σ ← σ.delete σ.processor
  let σ ← σ.delete σ.handler
  let min := σ.liveConfiguration.samplingIntervalMin
  let max := σ.liveConfiguration.samplingIntervalMax
  let handler := σ.nComponents
  let σ := σ.new (.signalHandler min max)
  let writer ← deref σ.writer
  let buffer ← deref σ.buffer
  let processor := σ.nComponents
  let σ := σ.new (.processor writer buffer handler (processorInterval min))
  .ok { σ with
    configuration :=
      { σ.configuration with samplingIntervalMin := min, samplingIntervalMax := max }
    handler := some handler
    processor := some processor
    processorRuns := false }

/-- `configure`. -/
def State.configure (σ : State) (fileName : List Char) (address : ℕ) : Except Stuck State := do
  let needsUpdate := decide (σ.processor = none)
  let needsUpdate := needsUpdate ||
    decide (σ.configuration.logFilePath ≠ σ.liveConfiguration.logFilePath)
  let σ ← (if needsUpdate then σ.openLog fileName address else .ok σ)
  let needsUpdate := needsUpdate ||
    decide (σ.configuration.maxFramesToCapture ≠ σ.liveConfiguration.maxFramesToCapture)
  let σ ← (if needsUpdate then σ.newBuffer else .ok σ)
  let needsUpdate := needsUpdate ||
    decide (σ.configuration.samplingIntervalMin ≠ σ.liveConfiguration.samplingIntervalMin) ||
    decide (σ.configuration.samplingIntervalMax ≠ σ.liveConfiguration.samplingIntervalMax)
  let σ ← (if needsUpdate then σ.newProcessor else .ok σ)
  .ok { σ with reloadConfig := false }

/-- `start`, past its test that the profiler does not run. -/
def State.start (σ : State) (fileName : List Char) (address : ℕ) : Except Stuck State := do
  let σ ← (if σ.reloadConfig then σ.configure fileName address else .ok σ)
  let _ ← deref σ.handler
  let _ ← deref σ.processor
  .ok { σ with processorRuns := true }

/-- A call: but for stop, it does nothing while the profiler runs, and stop nothing while
    it does not. -/
def State.call (σ : State) : Op → Except Stuck State
  | .setFilePath newFilePath address =>
    if σ.isRunning then .ok σ else σ.setFilePath newFilePath address
  | .setSamplingInterval intervalMin intervalMax =>
    .ok (if σ.isRunning then σ else σ.setSamplingInterval intervalMin intervalMax)
  | .setMaxFramesToCapture maxFramesToCapture =>
    .ok (if σ.isRunning then σ else σ.setMaxFramesToCapture maxFramesToCapture)
  | .start fileName address => if σ.isRunning then .ok σ else σ.start fileName address
  | .stop => .ok (if σ.isRunning then { σ with processorRuns := false } else σ)

/-- The options of a profiler, with the text of the path. -/
structure Options where
  samplingIntervalMin : ℤ
  samplingIntervalMax : ℤ
  logFilePath : Option (ℕ × List Char)
  maxFramesToCapture : ℤ

/-- `Profiler::Profiler`, before it calls anything: the options are the live
    configuration. -/
def State.initial (o : Options) : State where
  strings := fun a => match o.logFilePath with
    | none => none
    | some (path, name) => if a = path then some name else none
  components := fun _ => none
  nComponents := 0
  configuration := .new
  liveConfiguration :=
    ⟨o.samplingIntervalMin, o.samplingIntervalMax, o.logFilePath.map Prod.fst,
      o.maxFramesToCapture⟩
  logFile := none
  writer := none
  buffer := none
  handler := none
  processor := none
  processorRuns := false
  reloadConfig := false

/-- `Profiler::Profiler`. -/
def construct (o : Options) (fileName : List Char) (address : ℕ) : Except Stuck State :=
  let σ := State.initial o
  let σ := σ.setSamplingInterval σ.liveConfiguration.samplingIntervalMin
    σ.liveConfiguration.samplingIntervalMax
  let σ := σ.setMaxFramesToCapture σ.liveConfiguration.maxFramesToCapture
  σ.configure fileName address

/-- The profiler as a transition system. -/
def system : System State Op where
  init := {σ | ∃ o fileName address, construct o fileName address = .ok σ}
  next σ op := (σ.call op).toOption

end Code

/-! ## The invariant -/

/-- The kinds of objects. -/
inductive Kind
  | ofstream
  | logWriter
  | circularQueue
  | signalHandler
  | processor
  deriving DecidableEq

@[simp] def Component.kind : Component → Kind
  | .ofstream _ => .ofstream
  | .logWriter _ => .logWriter
  | .circularQueue .. => .circularQueue
  | .signalHandler .. => .signalHandler
  | .processor .. => .processor

/-- The pointer is null or points to an object of the kind. -/
def Points (components : Heap Component) (p : Option ℕ) (k : Kind) : Prop :=
  ∀ a, p = some a → ∃ c, components a = some c ∧ c.kind = k

/-- The objects in use are allocated, and the strings are those of the paths. -/
structure Owned (σ : State) : Prop where
  fresh : ∀ a, σ.nComponents ≤ a → σ.components a = none
  logFile : Points σ.components σ.logFile .ofstream
  writer : Points σ.components σ.writer .logWriter
  buffer : Points σ.components σ.buffer .circularQueue
  handler : Points σ.components σ.handler .signalHandler
  processor : Points σ.components σ.processor .processor
  path : σ.strings.Valid σ.configuration.logFilePath
  livePath : σ.strings.Valid σ.liveConfiguration.logFilePath
  referenced : ∀ a s, σ.strings a = some s →
    σ.configuration.logFilePath = some a ∨ σ.liveConfiguration.logFilePath = some a

/-- The log writer in use writes to the file opened for the path. -/
structure LogGraph (σ : State) (path : ℕ) (name : List Char) (logFile writer : ℕ) : Prop where
  path_eq : σ.configuration.logFilePath = some path
  name_eq : σ.strings path = some name
  logFile_eq : σ.logFile = some logFile
  ofstream : σ.components logFile = some (.ofstream name)
  writer_eq : σ.writer = some writer
  logWriter : σ.components writer = some (.logWriter logFile)

/-- The queue in use has the frame limit, and the writer listens to it. -/
structure BufferGraph (σ : State) (writer buffer : ℕ) : Prop where
  buffer_eq : σ.buffer = some buffer
  circularQueue : σ.components buffer =
    some (.circularQueue writer σ.configuration.maxFramesToCapture)

/-- The signal handler in use has the intervals, and the processor in use refers to the
    others. -/
structure ProcessorGraph (σ : State) (writer buffer handler processor : ℕ) : Prop where
  handler_eq : σ.handler = some handler
  signalHandler : σ.components handler = some
    (.signalHandler σ.configuration.samplingIntervalMin σ.configuration.samplingIntervalMax)
  processor_eq : σ.processor = some processor
  processor : σ.components processor = some (.processor writer buffer handler
    (processorInterval σ.configuration.samplingIntervalMin))

/-- The objects in use are built from the active configuration and from one another. -/
def Graph (σ : State) : Prop :=
  ∃ path name logFile writer buffer handler processor,
    LogGraph σ path name logFile writer ∧ BufferGraph σ writer buffer ∧
      ProcessorGraph σ writer buffer handler processor

/-- The profiler is configured: the active configuration is the live one. -/
def Configured (σ : State) : Prop := σ.configuration = σ.liveConfiguration ∧ Graph σ

/-- The intervals are those of another configuration. -/
def ConfigurationOptions.SameInterval (c d : ConfigurationOptions) : Prop :=
  c.samplingIntervalMin = d.samplingIntervalMin ∧ c.samplingIntervalMax = d.samplingIntervalMax

/-- The intervals are in order. -/
def ConfigurationOptions.Ordered (c : ConfigurationOptions) : Prop :=
  0 < c.samplingIntervalMin ∧ c.samplingIntervalMin ≤ c.samplingIntervalMax

/-- What holds between the calls. -/
structure Coherent (σ : State) : Prop where
  owned : Owned σ
  graph : Graph σ
  configured : σ.reloadConfig = false → Configured σ
  ordered : σ.liveConfiguration.Ordered

/-! ## Building objects -/

section Objects

variable {σ : State} {components : Heap Component} {p : Option ℕ} {k k' : Kind} {c : Component}
  {n a : ℕ} {x : Option Component} {P : State → Prop}

/-- An object is not deleted with one of another kind. -/
theorem erase_of_kind (hp : Points components p k) (ha : components a = some c)
    (hk : c.kind ≠ k) : components.erase p a = some c := by
  refine (Heap.erase_of_ne fun he => ?_).trans ha
  obtain ⟨d, hd, hkd⟩ := hp a he
  rw [ha] at hd
  cases hd
  exact hk hkd

/-- An object is not replaced by a new one. -/
theorem update_of_fresh (hn : ∀ a, n ≤ a → components a = none) (ha : components a = some c) :
    Function.update components n x a = some c := by
  refine (Function.update_of_ne (fun he => ?_) ..).trans ha
  rw [he, hn n le_rfl] at ha
  cases ha

theorem fresh_erase (hn : ∀ a, n ≤ a → components a = none) (a : ℕ) (ha : n ≤ a) :
    components.erase p a = none :=
  Heap.erase_eq_none (hn a ha)

theorem fresh_update (hn : ∀ a, n ≤ a → components a = none) (a : ℕ) (ha : n + 1 ≤ a) :
    Function.update components n x a = none := by
  rw [Function.update_of_ne (by omega), hn a (by omega)]

theorem Points.erase {q : Option ℕ} (hq : Points components q k') (hp : Points components p k)
    (hk : k' ≠ k) : Points (components.erase p) q k' := by
  intro a ha
  obtain ⟨c, hc, rfl⟩ := hq a ha
  exact ⟨c, erase_of_kind hp hc hk, rfl⟩

theorem Points.update (hp : Points components p k) (hn : ∀ a, n ≤ a → components a = none) :
    Points (Function.update components n x) p k := by
  intro a ha
  obtain ⟨c, hc, hk⟩ := hp a ha
  exact ⟨c, update_of_fresh hn hc, hk⟩

theorem points_update_self : Points (Function.update components n (some c)) (some n) c.kind := by
  rintro a ha
  cases ha
  exact ⟨c, Function.update_self .., rfl⟩

theorem points_none : Points components none k := fun _ h => nomatch h

theorem delete_ensures (hp : Points σ.components p k)
    (hP : P { σ with components := σ.components.erase p }) : Ensures (σ.delete p) P := by
  cases p with
  | none => exact hP
  | some a =>
    obtain ⟨c, hc, -⟩ := hp a rfl
    rw [Heap.erase_some] at hP
    exact (Ensures.free (P := (· = Function.update σ.components a none)) hc rfl).bind
      fun _ he => he ▸ hP

theorem freeString_ensures (hp : σ.strings.Valid p)
    (hP : P { σ with strings := σ.strings.erase p }) : Ensures (σ.freeString p) P := by
  cases p with
  | none => exact hP
  | some a =>
    obtain ⟨s, hs⟩ := hp a rfl
    rw [Heap.erase_some] at hP
    exact (Ensures.free (P := (· = Function.update σ.strings a none)) hs rfl).bind
      fun _ he => he ▸ hP

theorem copyString_ensures {s : List Char} (hP : σ.strings a = none →
      P { σ with strings := Function.update σ.strings a (some s) }) :
    Ensures (σ.copyString s a) P :=
  (Ensures.alloc (P := fun h => σ.strings a = none ∧ h = Function.update σ.strings a (some s))
    fun hn => ⟨hn, rfl⟩).bind fun _ ⟨hn, he⟩ => he ▸ hP hn

theorem deref_ensures {Q : ℕ → Prop} (hp : p = some a) (hQ : Q a) : Ensures (deref p) Q := by
  rw [hp]
  exact hQ

end Objects

/-! ## Configuring -/

section Configuring

variable {σ : State} {fileName name : List Char} {address path logFile writer buffer : ℕ}

/-- The log is opened under the live path, or the path is made for it. -/
theorem openLog_ensures (h : Owned σ) (hne : ∀ a, σ.liveConfiguration.logFilePath = some a →
      σ.configuration.logFilePath ≠ some a) :
    Ensures (σ.openLog fileName address) fun σ' => Owned σ' ∧
      (∃ path name logFile writer, LogGraph σ' path name logFile writer) ∧
      σ'.configuration.logFilePath = σ'.liveConfiguration.logFilePath ∧
      σ'.liveConfiguration =
        { σ.liveConfiguration with logFilePath := σ'.liveConfiguration.logFilePath } := by
  rw [State.openLog]
  refine (delete_ensures (P := (· = { σ with components := σ.components.erase σ.logFile }))
    h.logFile rfl).bind ?_
  rintro _ rfl
  have hwriter := h.writer.erase h.logFile (by decide)
  refine (delete_ensures (P := (· = { σ with
    components := (σ.components.erase σ.logFile).erase σ.writer })) hwriter rfl).bind ?_
  rintro _ rfl
  refine Ensures.bind (P := (· = { σ with
    components := (σ.components.erase σ.logFile).erase σ.writer
    strings := σ.strings.erase σ.configuration.logFilePath })) (freeString_ensures h.path rfl) ?_
  rintro _ rfl
  have hrest : ∀ a s, σ.strings.erase σ.configuration.logFilePath a = some s →
      σ.liveConfiguration.logFilePath = some a := fun a s hs => by
    rw [Heap.erase] at hs
    split_ifs at hs with hcfg
    exact (h.referenced a s hs).resolve_left hcfg
  -- The path, and the string that it points to, which is the only one.
  refine Ensures.bind (P := fun x : State × ℕ × List Char => ∃ strings : Heap (List Char), x.1 = { σ with
      components := (σ.components.erase σ.logFile).erase σ.writer
      strings := strings } ∧ strings x.2.1 = some x.2.2 ∧ ∀ a s, strings a = some s → a = x.2.1)
    ?_ ?_
  · rw [State.path]
    split
    · rename_i hlive
      refine Ensures.bind (copyString_ensures (P := fun τ => ∃ strings : Heap (List Char),
        τ = { σ with
          components := (σ.components.erase σ.logFile).erase σ.writer
          strings := strings } ∧ strings address = some fileName ∧
        ∀ a s, strings a = some s → a = address) fun _ => ⟨_, rfl, Function.update_self .., ?_⟩)
        fun τ hτ => hτ
      intro a s hs
      by_contra hne
      rw [Function.update_of_ne hne] at hs
      cases (hrest a s hs).symm.trans hlive
    · rename_i p hlive
      obtain ⟨s, hs⟩ := h.livePath p hlive
      have hget : σ.strings.erase σ.configuration.logFilePath p = some s :=
        (Heap.erase_of_ne (hne p hlive)).trans hs
      refine (Ensures.get (P := (· = s)) hget rfl).bind ?_
      rintro _ rfl
      refine ⟨_, rfl, hget, fun a t ht => ?_⟩
      have hpath := hrest a t ht
      rw [show σ.liveConfiguration.logFilePath = some p from hlive] at hpath
      exact (Option.some.inj hpath).symm
  · rintro ⟨_, path, name⟩ ⟨strings, rfl, hname, honly⟩
    have hfresh := fun a ha => fresh_erase (p := σ.writer)
      (fun a ha => fresh_erase (p := σ.logFile) h.fresh a ha) a ha
    have hfresh₁ := fun a ha => fresh_update (x := some (.ofstream name)) hfresh a ha
    have hkeep : ∀ {p k}, Points σ.components p k → k ≠ .ofstream → k ≠ .logWriter →
        Points (Function.update (Function.update ((σ.components.erase σ.logFile).erase σ.writer)
          σ.nComponents (some (.ofstream name))) (σ.nComponents + 1)
          (some (.logWriter σ.nComponents))) p k := fun hp hk hk' =>
      (((hp.erase h.logFile hk).erase hwriter hk').update hfresh).update hfresh₁
    have hfile : Points (Function.update (Function.update
        ((σ.components.erase σ.logFile).erase σ.writer) σ.nComponents (some (.ofstream name)))
        (σ.nComponents + 1) (some (.logWriter σ.nComponents))) (some σ.nComponents) .ofstream :=
      points_update_self.update hfresh₁
    have hvalid : Heap.Valid strings (some path) := fun a ha => by
      cases ha
      exact ⟨name, hname⟩
    refine ⟨⟨fun a ha => fresh_update hfresh₁ a ha, hfile, points_update_self,
      hkeep h.buffer (by decide) (by decide), hkeep h.handler (by decide) (by decide),
      hkeep h.processor (by decide) (by decide), hvalid, hvalid,
      fun a s hs => .inl (congrArg some (honly a s hs).symm)⟩,
      ⟨path, name, σ.nComponents, σ.nComponents + 1, rfl, hname, rfl, ?_, rfl,
        Function.update_self ..⟩, rfl, rfl⟩
    exact update_of_fresh hfresh₁ (Function.update_self ..)

/-- The queue is built for the live frame limit. -/
theorem newBuffer_ensures (h : Owned σ) (hlog : LogGraph σ path name logFile writer) :
    Ensures σ.newBuffer fun σ' => Owned σ' ∧ LogGraph σ' path name logFile writer ∧
      (∃ buffer, BufferGraph σ' writer buffer) ∧
      σ'.configuration = { σ.configuration with
        maxFramesToCapture := σ.liveConfiguration.maxFramesToCapture } ∧
      σ'.liveConfiguration = σ.liveConfiguration := by
  rw [State.newBuffer]
  refine (delete_ensures (P := (· = { σ with components := σ.components.erase σ.buffer }))
    h.buffer rfl).bind ?_
  rintro _ rfl
  refine (deref_ensures (Q := (· = writer)) hlog.writer_eq rfl).bind ?_
  rintro _ rfl
  have hfresh := fun a ha => fresh_erase (p := σ.buffer) h.fresh a ha
  have hkeep : ∀ {p k x}, Points σ.components p k → k ≠ .circularQueue →
      Points (Function.update (σ.components.erase σ.buffer) σ.nComponents x) p k := fun hp hk =>
    (hp.erase h.buffer hk).update hfresh
  have hkept : ∀ {a c x}, σ.components a = some c → c.kind ≠ .circularQueue →
      Function.update (σ.components.erase σ.buffer) σ.nComponents x a = some c := fun hc hk =>
    update_of_fresh hfresh (erase_of_kind h.buffer hc hk)
  refine ⟨⟨fun a ha => fresh_update hfresh a ha, hkeep h.logFile (by decide),
    hkeep h.writer (by decide), points_update_self, hkeep h.handler (by decide),
    hkeep h.processor (by decide), h.path, h.livePath, h.referenced⟩,
    ⟨hlog.path_eq, hlog.name_eq, hlog.logFile_eq, hkept hlog.ofstream (by simp), hlog.writer_eq,
      hkept hlog.logWriter (by simp)⟩,
    ⟨σ.nComponents, rfl, Function.update_self ..⟩, rfl, rfl⟩

/-- The signal handler and the processor are built for the live intervals. -/
theorem newProcessor_ensures (h : Owned σ) (hlog : LogGraph σ path name logFile writer)
    (hbuffer : BufferGraph σ writer buffer) :
    Ensures σ.newProcessor fun σ' => Owned σ' ∧ LogGraph σ' path name logFile writer ∧
      BufferGraph σ' writer buffer ∧
      (∃ handler processor, ProcessorGraph σ' writer buffer handler processor) ∧
      σ'.configuration = { σ.configuration with
        samplingIntervalMin := σ.liveConfiguration.samplingIntervalMin
        samplingIntervalMax := σ.liveConfiguration.samplingIntervalMax } ∧
      σ'.liveConfiguration = σ.liveConfiguration := by
  rw [State.newProcessor]
  refine (delete_ensures (P := (· = { σ with components := σ.components.erase σ.processor }))
    h.processor rfl).bind ?_
  rintro _ rfl
  have hhandler := h.handler.erase h.processor (by decide)
  refine (delete_ensures (P := (· = { σ with
    components := (σ.components.erase σ.processor).erase σ.handler })) hhandler rfl).bind ?_
  rintro _ rfl
  refine (deref_ensures (Q := (· = writer)) hlog.writer_eq rfl).bind ?_
  rintro _ rfl
  refine (deref_ensures (Q := (· = buffer)) hbuffer.buffer_eq rfl).bind ?_
  rintro _ rfl
  have hfresh := fun a ha => fresh_erase (p := σ.handler)
    (fun a ha => fresh_erase (p := σ.processor) h.fresh a ha) a ha
  have hfresh₁ : ∀ x a, σ.nComponents + 1 ≤ a → Function.update
      ((σ.components.erase σ.processor).erase σ.handler) σ.nComponents x a = none := fun x a ha =>
    fresh_update hfresh a ha
  have hkeep : ∀ {p k x y}, Points σ.components p k → k ≠ .processor → k ≠ .signalHandler →
      Points (Function.update (Function.update ((σ.components.erase σ.processor).erase σ.handler)
        σ.nComponents x) (σ.nComponents + 1) y) p k := fun hp hk hk' =>
    (((hp.erase h.processor hk).erase hhandler hk').update hfresh).update (hfresh₁ _)
  have hkept : ∀ {a c x y}, σ.components a = some c → c.kind ≠ .processor →
      c.kind ≠ .signalHandler →
      Function.update (Function.update ((σ.components.erase σ.processor).erase σ.handler)
        σ.nComponents x) (σ.nComponents + 1) y a = some c := fun hc hk hk' =>
    update_of_fresh (hfresh₁ _)
      (update_of_fresh hfresh (erase_of_kind hhandler (erase_of_kind h.processor hc hk) hk'))
  refine ⟨⟨fun a ha => fresh_update (hfresh₁ _) a ha, hkeep h.logFile (by decide) (by decide),
    hkeep h.writer (by decide) (by decide), hkeep h.buffer (by decide) (by decide),
    points_update_self.update (hfresh₁ _), points_update_self, h.path, h.livePath, h.referenced⟩,
    ⟨hlog.path_eq, hlog.name_eq, hlog.logFile_eq, hkept hlog.ofstream (by simp) (by simp),
      hlog.writer_eq, hkept hlog.logWriter (by simp) (by simp)⟩,
    ⟨hbuffer.buffer_eq, hkept hbuffer.circularQueue (by simp) (by simp)⟩,
    ⟨σ.nComponents, σ.nComponents + 1, rfl,
      update_of_fresh (hfresh₁ _) (Function.update_self ..), rfl, Function.update_self ..⟩,
    rfl, rfl⟩

/-- The objects in use depend on no more than this. -/
theorem Graph.congr {σ' : State} (h : Graph σ) (hcomponents : σ'.components = σ.components)
    (hconfiguration : σ'.configuration = σ.configuration) (hlogFile : σ'.logFile = σ.logFile)
    (hwriter : σ'.writer = σ.writer) (hbuffer : σ'.buffer = σ.buffer)
    (hhandler : σ'.handler = σ.handler) (hprocessor : σ'.processor = σ.processor)
    (hstrings : ∀ a, σ.configuration.logFilePath = some a → σ'.strings a = σ.strings a) :
    Graph σ' := by
  obtain ⟨path, name, f, w, b, h, p, hl, hb, hp⟩ := h
  refine ⟨path, name, f, w, b, h, p, ⟨?_, ?_, ?_, ?_, ?_, ?_⟩, ⟨?_, ?_⟩, ⟨?_, ?_, ?_, ?_⟩⟩
  · rw [hconfiguration, hl.path_eq]
  · rw [hstrings path hl.path_eq, hl.name_eq]
  · rw [hlogFile, hl.logFile_eq]
  · rw [hcomponents, hl.ofstream]
  · rw [hwriter, hl.writer_eq]
  · rw [hcomponents, hl.logWriter]
  · rw [hbuffer, hb.buffer_eq]
  · rw [hcomponents, hconfiguration, hb.circularQueue]
  · rw [hhandler, hp.handler_eq]
  · rw [hcomponents, hconfiguration, hp.signalHandler]
  · rw [hprocessor, hp.processor_eq]
  · rw [hcomponents, hconfiguration, hp.processor]

theorem Configured.reload (h : Configured σ) (b : Bool) : Configured { σ with reloadConfig := b } :=
  ⟨h.1, h.2.congr rfl rfl rfl rfl rfl rfl rfl fun _ _ => rfl⟩

theorem Owned.reload (h : Owned σ) (b : Bool) : Owned { σ with reloadConfig := b } :=
  ⟨h.fresh, h.logFile, h.writer, h.buffer, h.handler, h.processor, h.path, h.livePath,
    h.referenced⟩

/-- The end of `configure`, if the processor is built again. -/
theorem configure_processor (h : Owned σ) (hlog : LogGraph σ path name logFile writer)
    (hbuffer : BufferGraph σ writer buffer)
    (hpath : σ.configuration.logFilePath = σ.liveConfiguration.logFilePath)
    (hframes : σ.configuration.maxFramesToCapture = σ.liveConfiguration.maxFramesToCapture) :
    Ensures σ.newProcessor fun σ' => Owned σ' ∧ Configured σ' ∧
      σ'.liveConfiguration = σ.liveConfiguration := by
  refine (newProcessor_ensures h hlog hbuffer).mono ?_
  rintro σ' ⟨ho, hl, hb, ⟨handler, processor, hp⟩, hcfg, hlive⟩
  refine ⟨ho, ⟨?_, path, name, logFile, writer, buffer, handler, processor, hl, hb, hp⟩, hlive⟩
  rw [hcfg, hlive]
  exact ConfigurationOptions.ext rfl rfl hpath hframes

/-- The same, if the queue is built again. -/
theorem configure_buffer (h : Owned σ) (hlog : LogGraph σ path name logFile writer)
    (hpath : σ.configuration.logFilePath = σ.liveConfiguration.logFilePath) :
    Ensures (σ.newBuffer >>= State.newProcessor) fun σ' => Owned σ' ∧ Configured σ' ∧
      σ'.liveConfiguration = σ.liveConfiguration := by
  refine (newBuffer_ensures h hlog).bind ?_
  rintro σ' ⟨ho, hl, ⟨buffer, hb⟩, hcfg, hlive⟩
  rw [← hlive]
  refine configure_processor ho hl hb ?_ ?_
  · rw [hcfg, hlive, hpath]
  · rw [hcfg, hlive]

/-- Whatever has changed, `configure` leaves objects behind that are built from the live
    configuration. -/
theorem configure_ensures (h : Owned σ)
    (hnew : σ.processor = none → ∀ a, σ.liveConfiguration.logFilePath = some a →
      σ.configuration.logFilePath ≠ some a) (hgraph : σ.processor ≠ none → Graph σ) :
    Ensures (σ.configure fileName address) fun σ' =>
      Owned σ' ∧ Configured σ' ∧ σ'.reloadConfig = false ∧
        σ'.liveConfiguration.SameInterval σ.liveConfiguration := by
  have hend : ∀ {x : Except Stuck State} {c : ConfigurationOptions}, Ensures x (fun σ' =>
        Owned σ' ∧ Configured σ' ∧ σ'.liveConfiguration = c) →
      c.SameInterval σ.liveConfiguration →
      Ensures (x >>= fun σ => .ok { σ with reloadConfig := false }) fun σ' =>
        Owned σ' ∧ Configured σ' ∧ σ'.reloadConfig = false ∧
          σ'.liveConfiguration.SameInterval σ.liveConfiguration := fun hx hlive =>
    hx.bind fun σ' ⟨ho, hc, he⟩ => ⟨ho.reload false, hc.reload false, rfl, he ▸ hlive⟩
  rw [State.configure]
  dsimp only
  by_cases h₁ : σ.processor = none ∨ σ.configuration.logFilePath ≠ σ.liveConfiguration.logFilePath
  · have hne : ∀ a, σ.liveConfiguration.logFilePath = some a →
        σ.configuration.logFilePath ≠ some a := fun a ha he =>
      h₁.elim (fun hp => hnew hp a ha he) fun hpath => hpath (he.trans ha.symm)
    have hb : (decide (σ.processor = none) ||
        decide (σ.configuration.logFilePath ≠ σ.liveConfiguration.logFilePath)) = true := by
      simpa using h₁
    simp only [hb, Bool.true_or, if_true]
    refine (openLog_ensures h hne).bind ?_
    rintro σ' ⟨ho, ⟨path, name, f, w, hl⟩, hpath, hlive⟩
    have hrest := hend (configure_buffer ho hl hpath) (by rw [hlive]; exact ⟨rfl, rfl⟩)
    rwa [bind_assoc] at hrest
  · rw [not_or, not_ne_iff] at h₁
    obtain ⟨hprocessor, hpath⟩ := h₁
    obtain ⟨path, name, f, w, b, hd, p, hl, hb, hp⟩ := hgraph hprocessor
    have hno : (decide (σ.processor = none) ||
        decide (σ.configuration.logFilePath ≠ σ.liveConfiguration.logFilePath)) = false := by
      simp [hprocessor, hpath]
    simp only [hno, Bool.false_or, if_false, Bool.false_eq_true]
    rw [show (Except.ok σ : Except Stuck State) = pure σ from rfl, pure_bind]
    by_cases h₂ : σ.configuration.maxFramesToCapture = σ.liveConfiguration.maxFramesToCapture
    · simp only [h₂, ne_eq, not_true, decide_false, Bool.false_or, if_false, Bool.false_eq_true]
      rw [show (Except.ok σ : Except Stuck State) = pure σ from rfl, pure_bind]
      split_ifs with h₃
      · exact hend (configure_processor h hl hb hpath h₂) ⟨rfl, rfl⟩
      · have hmin : σ.configuration.samplingIntervalMin = σ.liveConfiguration.samplingIntervalMin :=
          by_contra fun hne => h₃ (by simp [hne])
        have hmax : σ.configuration.samplingIntervalMax = σ.liveConfiguration.samplingIntervalMax :=
          by_contra fun hne => h₃ (by simp [hne])
        have heq : σ.configuration = σ.liveConfiguration :=
          ConfigurationOptions.ext hmin hmax hpath h₂
        exact hend (Ensures.pure ⟨h, ⟨heq, path, name, f, w, b, hd, p, hl, hb, hp⟩, rfl⟩) ⟨rfl, rfl⟩
    · simp only [h₂, ne_eq, not_false_eq_true, decide_true, Bool.true_or, if_true]
      have hrest := hend (configure_buffer h hl hpath) ⟨rfl, rfl⟩
      rwa [bind_assoc] at hrest

end Configuring

/-! ## Calls -/

section Calls

variable {σ : State} {fileName : List Char} {address : ℕ}

theorem Coherent.processor_ne (h : Coherent σ) : σ.processor ≠ none := by
  obtain ⟨_, _, _, _, _, _, p, _, _, hp⟩ := h.graph
  rw [hp.processor_eq]
  exact Option.some_ne_none p

/-- A new path replaces the live one, which is freed unless it is the active one. -/
theorem Coherent.setFilePath (h : Coherent σ) (newFilePath : Option (List Char)) :
    Ensures (σ.setFilePath newFilePath address) Coherent := by
  have ho := h.owned
  rw [State.setFilePath]
  refine Ensures.bind (P := fun τ => ∃ strings : Heap (List Char), τ = { σ with
      strings := strings } ∧
      (∀ a, σ.configuration.logFilePath = some a → strings a = σ.strings a) ∧
      ∀ a s, strings a = some s → σ.configuration.logFilePath = some a) ?_ ?_
  · split_ifs with hne
    · refine freeString_ensures ho.livePath ⟨_, rfl, fun a ha => ?_, fun a s hs => ?_⟩
      · exact Heap.erase_of_ne fun he => hne (he.trans ha.symm)
      · rw [Heap.erase] at hs
        split_ifs at hs with he
        exact (ho.referenced a s hs).resolve_right he
    · refine ⟨σ.strings, rfl, fun _ _ => rfl, fun a s hs => (ho.referenced a s hs).elim id ?_⟩
      rw [not_not.1 hne]
      exact id
  · rintro _ ⟨strings, rfl, hactive, honly⟩
    have hpath : Heap.Valid strings σ.configuration.logFilePath := fun a ha => by
      rw [hactive a ha]
      exact ho.path a ha
    cases newFilePath with
    | none =>
      refine ⟨⟨ho.fresh, ho.logFile, ho.writer, ho.buffer, ho.handler, ho.processor, hpath,
        fun a ha => (by cases ha), fun a s hs => .inl (honly a s hs)⟩,
        h.graph.congr rfl rfl rfl rfl rfl rfl rfl hactive, fun hr => (by cases hr), h.ordered⟩
    | some s =>
      refine (copyString_ensures (P := fun τ => strings address = none ∧ τ = { σ with
        strings := Function.update strings address (some s) }) fun hn => ⟨hn, rfl⟩).bind ?_
      rintro _ ⟨hnone, rfl⟩
      have hkeep : ∀ a, σ.configuration.logFilePath = some a →
          Function.update strings address (some s) a = strings a := fun a ha => by
        refine Function.update_of_ne ?_ ..
        rintro rfl
        obtain ⟨t, ht⟩ := hpath a ha
        rw [hnone] at ht
        cases ht
      refine ⟨⟨ho.fresh, ho.logFile, ho.writer, ho.buffer, ho.handler, ho.processor,
        fun a ha => ?_, fun a ha => ?_, fun a t ht => ?_⟩,
        h.graph.congr rfl rfl rfl rfl rfl rfl rfl
          fun a ha => (hkeep a ha).trans (hactive a ha), fun hr => (by cases hr), h.ordered⟩
      · obtain ⟨t, ht⟩ := hpath a ha
        exact ⟨t, (hkeep a ha).trans ht⟩
      · cases ha
        exact ⟨s, Function.update_self ..⟩
      · by_cases ha : a = address
        · exact .inr (congrArg some ha.symm)
        · exact .inl (honly a t ((Function.update_of_ne ha ..).symm.trans ht))

theorem ordered_setSamplingInterval (intervalMin intervalMax : ℤ) :
    (Processor.setSamplingInterval intervalMin intervalMax).min > 0 ∧
      (Processor.setSamplingInterval intervalMin intervalMax).min ≤
        (Processor.setSamplingInterval intervalMin intervalMax).max :=
  ⟨SamplingInterval.pos _, SamplingInterval.le _⟩

/-- A change of the numbers of the live configuration. -/
theorem Coherent.setLive (h : Coherent σ) (c : ConfigurationOptions)
    (hc : c.logFilePath = σ.liveConfiguration.logFilePath) (hord : c.Ordered) :
    Coherent { σ with liveConfiguration := c, reloadConfig := true } := by
  have ho := h.owned
  refine ⟨⟨ho.fresh, ho.logFile, ho.writer, ho.buffer, ho.handler, ho.processor, ho.path, ?_, ?_⟩,
    h.graph.congr rfl rfl rfl rfl rfl rfl rfl fun _ _ => rfl, fun hr => (by cases hr), hord⟩
  · exact hc ▸ ho.livePath
  · exact hc ▸ ho.referenced

theorem Coherent.run (h : Coherent σ) (b : Bool) : Coherent { σ with processorRuns := b } := by
  have ho := h.owned
  exact ⟨⟨ho.fresh, ho.logFile, ho.writer, ho.buffer, ho.handler, ho.processor, ho.path,
    ho.livePath, ho.referenced⟩, h.graph.congr rfl rfl rfl rfl rfl rfl rfl fun _ _ => rfl,
    fun hr => ⟨(h.configured hr).1, (h.configured hr).2.congr rfl rfl rfl rfl rfl rfl rfl
      fun _ _ => rfl⟩, h.ordered⟩

theorem ConfigurationOptions.SameInterval.ordered {c d : ConfigurationOptions}
    (h : c.SameInterval d) (hd : d.Ordered) : c.Ordered := by
  rw [Ordered, h.1, h.2]
  exact hd

theorem Coherent.configure (h : Coherent σ) : Ensures (σ.configure fileName address) fun σ' =>
    Coherent σ' ∧ Configured σ' ∧ σ'.reloadConfig = false :=
  (configure_ensures h.owned (fun hp => absurd hp h.processor_ne) fun _ => h.graph).mono
    fun _ ⟨ho, hc, hr, hint⟩ => ⟨⟨ho, hc.2, fun _ => hc, hint.ordered h.ordered⟩, hc, hr⟩

theorem Coherent.start (h : Coherent σ) : Ensures (σ.start fileName address) Coherent := by
  rw [State.start]
  refine Ensures.bind (P := Coherent) ?_ fun σ' h' => ?_
  · split_ifs
    · exact h.configure.mono fun _ h' => h'.1
    · exact h
  · obtain ⟨_, _, _, _, _, hd, p, _, _, hp⟩ := h'.graph
    refine (deref_ensures (Q := fun _ => True) hp.handler_eq trivial).bind fun _ _ => ?_
    refine (deref_ensures (Q := fun _ => True) hp.processor_eq trivial).bind fun _ _ => ?_
    exact h'.run true

/-- Every call keeps the invariant, and does nothing invalid. -/
theorem Coherent.call (h : Coherent σ) (op : Op) : Ensures (σ.call op) Coherent := by
  cases op with
  | setFilePath newFilePath address =>
    rw [State.call]
    split_ifs
    · exact h
    · exact h.setFilePath newFilePath
  | setSamplingInterval intervalMin intervalMax =>
    rw [State.call]
    split_ifs
    · exact h
    · exact h.setLive _ rfl (ordered_setSamplingInterval intervalMin intervalMax)
  | setMaxFramesToCapture maxFramesToCapture =>
    rw [State.call]
    split_ifs
    · exact h
    · exact h.setLive _ rfl h.ordered
  | start fileName address =>
    rw [State.call]
    split_ifs
    · exact h
    · exact h.start
  | stop =>
    rw [State.call]
    split_ifs
    · exact h.run false
    · exact h

/-- A new profiler is configured, with the sampling interval of its options. -/
theorem construct_ensures (o : Options) : Ensures (construct o fileName address) fun σ =>
    Coherent σ ∧ Configured σ ∧ σ.liveConfiguration.samplingIntervalMin =
        (Processor.setSamplingInterval o.samplingIntervalMin o.samplingIntervalMax).min ∧
      σ.liveConfiguration.samplingIntervalMax =
        (Processor.setSamplingInterval o.samplingIntervalMin o.samplingIntervalMax).max := by
  refine (configure_ensures ⟨fun _ _ => rfl, points_none, points_none, points_none, points_none,
    points_none, fun a ha => (by cases ha), fun a ha => ?_, fun a s hs => .inr ?_⟩
    (fun _ a _ he => by cases he) fun hp => absurd rfl hp).mono
    fun _ ⟨ho, hc, _, hint⟩ => ⟨⟨ho, hc.2, fun _ => hc,
      hint.ordered (ordered_setSamplingInterval _ _)⟩, hc, hint⟩
  · obtain ⟨x, hx, rfl⟩ := Option.map_eq_some_iff.1 ha
    refine ⟨x.2, ?_⟩
    show (match o.logFilePath with
      | none => none
      | some (path, name) => if x.1 = path then some name else none) = some x.2
    rw [hx]
    exact if_pos rfl
  · change (match o.logFilePath with
      | none => none
      | some (path, name) => if a = path then some name else none) = some s at hs
    show o.logFilePath.map Prod.fst = some a
    cases hx : o.logFilePath with
    | none =>
      rw [hx] at hs
      cases hs
    | some x =>
      rw [hx] at hs
      dsimp only at hs
      split_ifs at hs with hpath
      rw [hpath]
      rfl

/-- The invariant holds in every run of a profiler. -/
theorem coherent_of_run {σ₀ : State} {tr : List (State × Op)} (h₀ : Coherent σ₀)
    (hrun : system.Run System.anyStep σ₀ tr σ) : Coherent σ :=
  hrun.invariant (fun a op b ha _ hn => by
    have hcall := ha.call op
    change (a.call op).toOption = some b at hn
    rcases he : a.call op with e | b'
    · rw [he] at hn
      cases hn
    · rw [he] at hn
      cases hn
      exact hcall.of_eq he) h₀

/-- The calls that set something. -/
def Op.IsSetter : Op → Prop
  | .setFilePath .. | .setSamplingInterval .. | .setMaxFramesToCapture _ => True
  | _ => False

/-- With any options, and after any calls: nothing invalid is done to the strings and the
    objects; whenever `configure` has been called, by the constructor or a start, the
    active configuration is the live one, and the objects in use are built from it and from
    one another; they stay so until the next one; and a setter changes nothing while the
    profiler runs. -/
theorem configured_coherent (o : Options) (fileName : List Char) (address : ℕ) :
    Ensures (construct o fileName address) fun σ₀ => Configured σ₀ ∧
      ∀ tr σ, system.Run System.anyStep σ₀ tr σ → Graph σ ∧
        (σ.reloadConfig = false → Configured σ) ∧ (∀ op, σ.call op ≠ .error .invalid) ∧
        (∀ fileName address, Ensures (σ.configure fileName address) Configured) ∧
        ∀ op : Op, op.IsSetter → σ.isRunning → σ.call op = .ok σ := by
  refine (construct_ensures o).mono fun σ₀ ⟨h₀, hc₀, _⟩ => ⟨hc₀, fun tr σ hrun => ?_⟩
  have h := coherent_of_run h₀ hrun
  refine ⟨h.graph, h.configured, fun op => (h.call op).not_invalid,
    fun fileName address => h.configure.mono fun _ h' => h'.2.1, fun op hop hr => ?_⟩
  cases op with
  | setFilePath newFilePath address => exact if_pos hr
  | setSamplingInterval intervalMin intervalMax => exact congrArg _ (if_pos hr)
  | setMaxFramesToCapture maxFramesToCapture => exact congrArg _ (if_pos hr)
  | start fileName address => exact hop.elim
  | stop => exact hop.elim

end Calls

end FkProf.Configure
