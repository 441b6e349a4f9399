import FkProf.Profiler.Configure

/-!
# The strings of the log paths

The active and the live configuration have a path each, which may be the same string. The
setter, `configure` and the two destructors compare the pointers, and free a string or
leave it to the other one. `FkProf.Profiler.Configure` has the calls; here are the getter
(`profiler.cpp:204-213`), the end of the profiler (`profiler.cpp:287-298`) and of its options
(`globals.h:53-57`), and what each call does to the strings, event by event.

* `call_replay` and the others: the events are those of the code;
* `Owned.destroyProfiler`: the destructor leaves no more than the live path behind;
* `paths_owned_once`: from the options to their destructor, every string of a path is freed
  once, and is not used after that; and as long as it is there, a configuration refers to it.
-/

namespace FkProf.Configure

/-- What is done to a profiler. -/
inductive Act
  | call (op : Op)
  | getFilePath

/-! ## The code -/

section Code

/-- `getFilePath`. -/
def State.getFilePath (σ : State) : Except Stuck (List Char) :=
  match σ.liveConfiguration.logFilePath with
  | none => .ok []
  | some path => σ.strings.get path

def State.act (σ : State) : Act → Except Stuck State
  | .call op => σ.call op
  | .getFilePath => do
    let _ ← σ.getFilePath
    .ok σ

/-- A profiler as it is used. -/
def lifetime : System State Act where
  init := {σ | ∃ o fileName address, construct o fileName address = .ok σ}
  next σ act := (σ.act act).toOption

/-- `Profiler::~Profiler`, lines 292-297, with the destructor of `configuration_`. -/
def State.deleteAll (σ : State) : Except Stuck State := do
  let σ ← σ.delete σ.processor
  let σ ← σ.delete σ.handler
  let σ ← σ.delete σ.buffer
  let σ ← σ.delete σ.writer
  let σ ← σ.delete σ.logFile
  σ.freeString σ.configuration.logFilePath

/-- `Profiler::~Profiler`: a path of both configurations is left to the live one. -/
def State.destroyProfiler (σ : State) : Except Stuck State :=
  if σ.liveConfiguration.logFilePath = σ.configuration.logFilePath then
    { σ with configuration := { σ.configuration with logFilePath := none } }.deleteAll
  else σ.deleteAll

/-- `ConfigurationOptions::~ConfigurationOptions`, of the live configuration. -/
def State.destroyOptions (σ : State) : Except Stuck State :=
  σ.freeString σ.liveConfiguration.logFilePath

end Code

/-! ## What is done to the strings -/

section Events

/-- What is done to the strings. -/
abbrev PathEvent := HeapEvent (List Char)

def freeEvents (p : Option ℕ) : List PathEvent := (p.map .free).toList

/-- The path of the options has been allocated by `parseArguments`. -/
def Options.events (o : Options) : List PathEvent :=
  (o.logFilePath.map fun (path, name) => .alloc path name).toList

def State.setFilePathEvents (σ : State) (newFilePath : Option (List Char)) (address : ℕ) :
    List PathEvent :=
  (if σ.liveConfiguration.logFilePath ≠ σ.configuration.logFilePath then
      freeEvents σ.liveConfiguration.logFilePath
    else []) ++ (newFilePath.map fun s => .alloc address s).toList

def State.openLogEvents (σ : State) (fileName : List Char) (address : ℕ) : List PathEvent :=
  freeEvents σ.configuration.logFilePath ++
    match σ.liveConfiguration.logFilePath with
    | none => [.alloc address fileName]
    | some path => [.get path]

def State.configureEvents (σ : State) (fileName : List Char) (address : ℕ) : List PathEvent :=
  if σ.processor = none ∨ σ.configuration.logFilePath ≠ σ.liveConfiguration.logFilePath then
    σ.openLogEvents fileName address
  else []

def State.events (σ : State) : Act → List PathEvent
  | .call (.setFilePath newFilePath address) =>
    if σ.isRunning then [] else σ.setFilePathEvents newFilePath address
  | .call (.start fileName address) =>
    if σ.isRunning then [] else if σ.reloadConfig then σ.configureEvents fileName address else []
  | .call _ => []
  | .getFilePath => (σ.liveConfiguration.logFilePath.map .get).toList

def State.destroyProfilerEvents (σ : State) : List PathEvent :=
  if σ.liveConfiguration.logFilePath = σ.configuration.logFilePath then []
  else freeEvents σ.configuration.logFilePath

/-- The profiler before the constructor calls `configure`. -/
def Options.unconfigured (o : Options) : State :=
  let σ := State.initial o
  let σ := σ.setSamplingInterval σ.liveConfiguration.samplingIntervalMin
    σ.liveConfiguration.samplingIntervalMax
  σ.setMaxFramesToCapture σ.liveConfiguration.maxFramesToCapture

/-- All that is done to the strings, from the options to their destructor: the acts are those of
    the trace. -/
def lifetimeEvents (o : Options) (fileName : List Char) (address : ℕ) (tr : List (State × Act))
    (σ : State) : List PathEvent :=
  o.events ++ (o.unconfigured.configureEvents fileName address ++
    (tr.flatMap (fun (σ, act) => σ.events act) ++
      (σ.destroyProfilerEvents ++ freeEvents σ.liveConfiguration.logFilePath)))

end Events

/-! ## The events are those of the code -/

section Replay

variable {σ σ' : State} {p : Option ℕ} {fileName name : List Char} {address path : ℕ}
  {newFilePath : Option (List Char)}

theorem delete_eq_ok (h : σ.delete p = .ok σ') :
    ∃ components, σ' = { σ with components := components } := by
  cases p with
  | none =>
    cases h
    exact ⟨σ.components, rfl⟩
  | some a =>
    obtain ⟨components, -, h⟩ := exists_of_bind_eq_ok h
    cases h
    exact ⟨components, rfl⟩

theorem freeString_eq_ok (h : σ.freeString p = .ok σ') :
    ∃ strings, σ' = { σ with strings := strings } ∧
      σ.strings.replay (freeEvents p) = .ok strings := by
  cases p with
  | none =>
    cases h
    exact ⟨σ.strings, rfl, rfl⟩
  | some a =>
    obtain ⟨strings, hfree, h⟩ := exists_of_bind_eq_ok h
    cases h
    refine ⟨strings, rfl, ?_⟩
    show σ.strings.free a >>= _ = _
    rw [hfree]
    rfl

theorem copyString_eq_ok (h : σ.copyString name address = .ok σ') :
    ∃ strings, σ' = { σ with strings := strings } ∧
      σ.strings.replay [.alloc address name] = .ok strings := by
  obtain ⟨strings, halloc, h⟩ := exists_of_bind_eq_ok h
  cases h
  refine ⟨strings, rfl, ?_⟩
  show σ.strings.alloc address name >>= _ = _
  rw [halloc]
  rfl

theorem setFilePath_replay (h : σ.setFilePath newFilePath address = .ok σ') :
    σ.strings.replay (σ.setFilePathEvents newFilePath address) = .ok σ'.strings := by
  obtain ⟨τ, hfree, h⟩ := exists_of_bind_eq_ok h
  have hτ : σ.strings.replay (if σ.liveConfiguration.logFilePath ≠ σ.configuration.logFilePath then
      freeEvents σ.liveConfiguration.logFilePath else []) = .ok τ.strings := by
    split_ifs at hfree ⊢ with hne
    · obtain ⟨strings, rfl, hstrings⟩ := freeString_eq_ok hfree
      exact hstrings
    · cases hfree
      rfl
  refine Heap.replay_append_ok hτ ?_
  cases newFilePath with
  | none =>
    cases h
    rfl
  | some s =>
    obtain ⟨υ, hcopy, h⟩ := exists_of_bind_eq_ok h
    cases h
    obtain ⟨strings, rfl, hstrings⟩ := copyString_eq_ok hcopy
    exact hstrings

theorem openLog_replay (h : σ.openLog fileName address = .ok σ') :
    σ.strings.replay (σ.openLogEvents fileName address) = .ok σ'.strings := by
  obtain ⟨_, hdelete, h⟩ := exists_of_bind_eq_ok h
  obtain ⟨components, rfl⟩ := delete_eq_ok hdelete
  obtain ⟨_, hdelete, h⟩ := exists_of_bind_eq_ok h
  obtain ⟨components, rfl⟩ := delete_eq_ok hdelete
  obtain ⟨_, hfree, h⟩ := exists_of_bind_eq_ok h
  obtain ⟨strings, rfl, hstrings⟩ := freeString_eq_ok hfree
  obtain ⟨⟨τ, path, name⟩, hpath, h⟩ := exists_of_bind_eq_ok h
  cases h
  refine Heap.replay_append_ok hstrings ?_
  rw [State.path] at hpath
  dsimp only at hpath
  cases hlive : σ.liveConfiguration.logFilePath with
  | none =>
    rw [hlive] at hpath
    obtain ⟨υ, hcopy, hpath⟩ := exists_of_bind_eq_ok hpath
    cases hpath
    obtain ⟨strings, rfl, hstrings⟩ := copyString_eq_ok hcopy
    exact hstrings
  | some path =>
    rw [hlive] at hpath
    obtain ⟨name, hget, hpath⟩ := exists_of_bind_eq_ok hpath
    cases hpath
    exact Heap.replay_get hget

theorem newBuffer_strings (h : σ.newBuffer = .ok σ') : σ'.strings = σ.strings := by
  obtain ⟨_, hdelete, h⟩ := exists_of_bind_eq_ok h
  obtain ⟨components, rfl⟩ := delete_eq_ok hdelete
  obtain ⟨writer, -, h⟩ := exists_of_bind_eq_ok h
  cases h
  rfl

theorem newProcessor_strings (h : σ.newProcessor = .ok σ') : σ'.strings = σ.strings := by
  obtain ⟨_, hdelete, h⟩ := exists_of_bind_eq_ok h
  obtain ⟨components, rfl⟩ := delete_eq_ok hdelete
  obtain ⟨_, hdelete, h⟩ := exists_of_bind_eq_ok h
  obtain ⟨components, rfl⟩ := delete_eq_ok hdelete
  obtain ⟨writer, -, h⟩ := exists_of_bind_eq_ok h
  obtain ⟨buffer, -, h⟩ := exists_of_bind_eq_ok h
  cases h
  rfl

theorem configure_replay (h : σ.configure fileName address = .ok σ') :
    σ.strings.replay (σ.configureEvents fileName address) = .ok σ'.strings := by
  obtain ⟨τ₁, hlog, h⟩ := exists_of_bind_eq_ok h
  obtain ⟨τ₂, hbuffer, h⟩ := exists_of_bind_eq_ok h
  obtain ⟨τ₃, hprocessor, h⟩ := exists_of_bind_eq_ok h
  cases h
  have h₂ : τ₂.strings = τ₁.strings := by
    split_ifs at hbuffer
    · exact newBuffer_strings hbuffer
    · cases hbuffer
      rfl
  have h₃ : τ₃.strings = τ₂.strings := by
    split_ifs at hprocessor
    · exact newProcessor_strings hprocessor
    · cases hprocessor
      rfl
  rw [show ({ τ₃ with reloadConfig := false } : State).strings = τ₁.strings from h₃.trans h₂,
    State.configureEvents]
  simp only [Bool.or_eq_true, decide_eq_true_eq] at hlog
  split_ifs at hlog ⊢
  · exact openLog_replay hlog
  · cases hlog
    rfl

theorem start_replay (h : σ.start fileName address = .ok σ') :
    σ.strings.replay (if σ.reloadConfig then σ.configureEvents fileName address else []) =
      .ok σ'.strings := by
  obtain ⟨τ, hconfigure, h⟩ := exists_of_bind_eq_ok h
  obtain ⟨_, -, h⟩ := exists_of_bind_eq_ok h
  obtain ⟨_, -, h⟩ := exists_of_bind_eq_ok h
  cases h
  show _ = Except.ok τ.strings
  split_ifs at hconfigure ⊢
  · exact configure_replay hconfigure
  · cases hconfigure
    rfl

/-- A call does to the strings what its events say. -/
theorem call_replay {op : Op} (h : σ.call op = .ok σ') :
    σ.strings.replay (σ.events (.call op)) = .ok σ'.strings := by
  cases op with
  | setFilePath newFilePath address =>
    rw [State.call] at h
    rw [State.events]
    split_ifs at h ⊢
    · cases h
      rfl
    · exact setFilePath_replay h
  | setSamplingInterval intervalMin intervalMax =>
    cases h
    show Except.ok σ.strings = _
    split_ifs <;> rfl
  | setMaxFramesToCapture maxFramesToCapture =>
    cases h
    show Except.ok σ.strings = _
    split_ifs <;> rfl
  | start fileName address =>
    rw [State.call] at h
    rw [State.events]
    split_ifs at h ⊢ with hrun hreload
    · cases h
      rfl
    · have hstart := start_replay h
      rwa [if_pos hreload] at hstart
    · have hstart := start_replay h
      rwa [if_neg hreload] at hstart
  | stop =>
    cases h
    show Except.ok σ.strings = _
    split_ifs <;> rfl

theorem act_replay {act : Act} (h : σ.act act = .ok σ') :
    σ.strings.replay (σ.events act) = .ok σ'.strings := by
  cases act with
  | call op => exact call_replay h
  | getFilePath =>
    obtain ⟨name, hget, h⟩ := exists_of_bind_eq_ok h
    cases h
    rw [State.getFilePath] at hget
    rw [State.events]
    cases hlive : σ.liveConfiguration.logFilePath with
    | none => rfl
    | some path =>
      rw [hlive] at hget
      exact Heap.replay_get hget

theorem deleteAll_replay (h : σ.deleteAll = .ok σ') :
    σ.strings.replay (freeEvents σ.configuration.logFilePath) = .ok σ'.strings ∧
      σ'.liveConfiguration = σ.liveConfiguration := by
  obtain ⟨_, hdelete, h⟩ := exists_of_bind_eq_ok h
  obtain ⟨components, rfl⟩ := delete_eq_ok hdelete
  obtain ⟨_, hdelete, h⟩ := exists_of_bind_eq_ok h
  obtain ⟨components, rfl⟩ := delete_eq_ok hdelete
  obtain ⟨_, hdelete, h⟩ := exists_of_bind_eq_ok h
  obtain ⟨components, rfl⟩ := delete_eq_ok hdelete
  obtain ⟨_, hdelete, h⟩ := exists_of_bind_eq_ok h
  obtain ⟨components, rfl⟩ := delete_eq_ok hdelete
  obtain ⟨_, hdelete, h⟩ := exists_of_bind_eq_ok h
  obtain ⟨components, rfl⟩ := delete_eq_ok hdelete
  obtain ⟨strings, rfl, hstrings⟩ := freeString_eq_ok h
  exact ⟨hstrings, rfl⟩

theorem destroyProfiler_replay (h : σ.destroyProfiler = .ok σ') :
    σ.strings.replay σ.destroyProfilerEvents = .ok σ'.strings ∧
      σ'.liveConfiguration = σ.liveConfiguration := by
  rw [State.destroyProfiler] at h
  rw [State.destroyProfilerEvents]
  split_ifs at h ⊢
  · exact deleteAll_replay h
  · exact deleteAll_replay h

end Replay

/-! ## The life of a profiler -/

section Lifetime

variable {σ σ₀ σ₁ σ' : State} {fileName : List Char} {address : ℕ}

theorem Coherent.getFilePath (h : Coherent σ) : Ensures σ.getFilePath fun _ => True := by
  rw [State.getFilePath]
  split
  · trivial
  · rename_i path hlive
    obtain ⟨name, hname⟩ := h.owned.livePath path hlive
    exact Ensures.get hname trivial

theorem Coherent.act (h : Coherent σ) (act : Act) : Ensures (σ.act act) Coherent := by
  cases act with
  | call op => exact h.call op
  | getFilePath => exact h.getFilePath.bind fun _ _ => h

theorem delete_of_points {p : Option ℕ} {k : Kind} (hp : Points σ.components p k) :
    σ.delete p = .ok { σ with components := σ.components.erase p } := by
  cases p with
  | none => rfl
  | some a =>
    obtain ⟨c, hc, -⟩ := hp a rfl
    rw [Heap.erase_some, State.delete, Heap.free, hc]
    rfl

theorem freeString_of_valid {p : Option ℕ} (hp : σ.strings.Valid p) :
    σ.freeString p = .ok { σ with strings := σ.strings.erase p } := by
  cases p with
  | none => rfl
  | some a =>
    obtain ⟨s, hs⟩ := hp a rfl
    rw [Heap.erase_some, State.freeString, Heap.free, hs]
    rfl

/-- The destructor finds all that it deletes. -/
theorem Owned.deleteAll (h : Owned σ) : ∃ σ', σ.deleteAll = .ok σ' ∧
    σ'.strings = σ.strings.erase σ.configuration.logFilePath ∧
      σ'.liveConfiguration = σ.liveConfiguration := by
  have hhandler := h.handler.erase h.processor (by decide)
  have hbuffer := (h.buffer.erase h.processor (by decide)).erase hhandler (by decide)
  have hwriter := ((h.writer.erase h.processor (by decide)).erase hhandler (by decide)).erase
    hbuffer (by decide)
  have hlogFile := (((h.logFile.erase h.processor (by decide)).erase hhandler (by decide)).erase
    hbuffer (by decide)).erase hwriter (by decide)
  refine exists_bind_eq_ok (delete_of_points h.processor) ?_
  refine exists_bind_eq_ok (delete_of_points hhandler) ?_
  refine exists_bind_eq_ok (delete_of_points hbuffer) ?_
  refine exists_bind_eq_ok (delete_of_points hwriter) ?_
  refine exists_bind_eq_ok (delete_of_points hlogFile) ?_
  exact ⟨_, freeString_of_valid h.path, rfl, rfl⟩

/-- It leaves the live path to the destructor of the options, and no other string. -/
theorem Owned.destroyProfiler (h : Owned σ) : ∃ σ', σ.destroyProfiler = .ok σ' ∧
    σ'.strings.Valid σ'.liveConfiguration.logFilePath ∧
      ∀ a s, σ'.strings a = some s → σ'.liveConfiguration.logFilePath = some a := by
  rw [State.destroyProfiler]
  split_ifs with hsame
  · have hlive : ∀ a s, σ.strings a = some s → σ.liveConfiguration.logFilePath = some a :=
      fun a s hs => (h.referenced a s hs).elim hsame.trans id
    have ho : Owned { σ with configuration := { σ.configuration with logFilePath := none } } :=
      ⟨h.fresh, h.logFile, h.writer, h.buffer, h.handler, h.processor, fun a ha => (by cases ha),
        h.livePath, fun a s hs => .inr (hlive a s hs)⟩
    obtain ⟨σ', hdelete, hstrings, hcfg⟩ := ho.deleteAll
    refine ⟨σ', hdelete, ?_⟩
    rw [hstrings, hcfg]
    exact ⟨h.livePath, hlive⟩
  · obtain ⟨σ', hdelete, hstrings, hcfg⟩ := h.deleteAll
    refine ⟨σ', hdelete, ?_⟩
    rw [hstrings, hcfg]
    refine ⟨fun a ha => ?_, fun a s hs => ?_⟩
    · rw [Heap.erase_of_ne fun he => hsame (ha.trans he.symm)]
      exact h.livePath a ha
    · rw [Heap.erase] at hs
      split_ifs at hs with he
      exact (h.referenced a s hs).resolve_left he

/-- The destructor of the options leaves no string behind. -/
theorem exists_destroyOptions (hvalid : σ.strings.Valid σ.liveConfiguration.logFilePath)
    (honly : ∀ a s, σ.strings a = some s → σ.liveConfiguration.logFilePath = some a) :
    ∃ σ', σ.destroyOptions = .ok σ' ∧ ∀ a, σ'.strings a = none := by
  refine ⟨_, freeString_of_valid hvalid, fun a => ?_⟩
  dsimp only
  rw [Heap.erase]
  split_ifs with he
  · rfl
  · cases hs : σ.strings a with
    | none => rfl
    | some s => exact absurd (honly a s hs) he

/-- The string of the options. -/
theorem events_replay (o : Options) :
    Heap.replay (fun _ => none) o.events = .ok o.unconfigured.strings := by
  show _ = Except.ok (State.initial o).strings
  rw [Options.events, State.initial]
  cases hpath : o.logFilePath with
  | none => rfl
  | some x =>
    show Except.ok (Function.update (fun _ => (none : Option (List Char))) x.1 (some x.2)) =
      Except.ok fun a => if a = x.1 then some x.2 else none
    refine congrArg _ (funext fun a => ?_)
    by_cases ha : a = x.1
    · rw [ha, Function.update_self, if_pos rfl]
    · rw [Function.update_of_ne ha, if_neg ha]

/-- A run keeps the invariant, and does to the strings what its events say. -/
theorem coherent_of_lifetime {tr : List (State × Act)} (h₀ : Coherent σ₀)
    (hrun : lifetime.Run System.anyStep σ₀ tr σ) :
    Coherent σ ∧ σ₀.strings.replay (tr.flatMap fun (σ, act) => σ.events act) = .ok σ.strings := by
  refine hrun.traceInvariant (I := fun tr σ => Coherent σ ∧
    σ₀.strings.replay (tr.flatMap fun (σ, act) => σ.events act) = .ok σ.strings) ?_ ⟨h₀, rfl⟩
  rintro tr τ act τ' ⟨hτ, hreplay⟩ - hn
  change (τ.act act).toOption = some τ' at hn
  cases hact : τ.act act with
  | error e =>
    rw [hact] at hn
    cases hn
  | ok υ =>
    rw [hact] at hn
    cases hn
    refine ⟨(hτ.act act).of_eq hact, ?_⟩
    rw [List.flatMap_append, List.flatMap_singleton]
    exact Heap.replay_append_ok hreplay (act_replay hact)

/-- With any options and after any calls: nothing invalid is done, so that no string is read or
    freed that is not allocated, and every string is that of the active or of the live path;
    the destructor of the profiler leaves no more than the live path; that of the options
    leaves nothing; and in all that was done to the strings from the options on, each one was
    freed once, and not used after that. -/
theorem paths_owned_once (o : Options) (fileName : List Char) (address : ℕ) :
    Ensures (construct o fileName address) fun σ₀ => ∀ tr σ,
      lifetime.Run System.anyStep σ₀ tr σ → (∀ act, σ.act act ≠ .error .invalid) ∧
        (∀ a s, σ.strings a = some s →
          σ.configuration.logFilePath = some a ∨ σ.liveConfiguration.logFilePath = some a) ∧
        ∃ σ₁ σ₂, σ.destroyProfiler = .ok σ₁ ∧
          (∀ a s, σ₁.strings a = some s → σ₁.liveConfiguration.logFilePath = some a) ∧
          σ₁.destroyOptions = .ok σ₂ ∧ (∀ a, σ₂.strings a = none) ∧
          OwnedOnce (lifetimeEvents o fileName address tr σ) := by
  rcases hconstruct : construct o fileName address with (_ | _) | σ₀
  · trivial
  · have hnew := @construct_ensures fileName address o
    rw [hconstruct] at hnew
    exact hnew
  · intro tr σ hrun
    have h₀ := (construct_ensures o).of_eq hconstruct
    obtain ⟨h, hreplay⟩ := coherent_of_lifetime h₀.1 hrun
    obtain ⟨σ₁, hprofiler, hvalid, honly⟩ := h.owned.destroyProfiler
    obtain ⟨σ₂, hoptions, hempty⟩ := exists_destroyOptions hvalid honly
    obtain ⟨hreplay₁, hlive⟩ := destroyProfiler_replay hprofiler
    obtain ⟨strings, rfl, hreplay₂⟩ := freeString_eq_ok hoptions
    refine ⟨fun act => (h.act act).not_invalid, h.owned.referenced, σ₁, _, hprofiler, honly, hoptions,
      hempty, owned_once_of_replay ?_ hempty⟩
    refine Heap.replay_append_ok (events_replay o) ?_
    refine Heap.replay_append_ok (configure_replay hconstruct) ?_
    refine Heap.replay_append_ok hreplay (Heap.replay_append_ok hreplay₁ ?_)
    rwa [← hlive]

end Lifetime

end FkProf.Configure
