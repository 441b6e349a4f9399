import FkProf.Profiler.Paths

/-!
# The settings of the profiler

To its callers the profiler has four settings, which a call sets while it does not run: the
bounds of the sampling interval, the number of frames, and the path of the log, which is the
name of the file once it has been opened. Nothing of the pointers, of the two configurations
and of what is built again, and when, is to be seen.

* `Settings.call`: the calls as settings;
* `Shows`: the live configuration holds the settings;
* `Shows.call`: and goes on to hold them, whatever is called (`profiler.cpp:99-285`);
* `Shows.built`: a profiler that runs is built from its settings.
-/

namespace FkProf.Configure

open FkProf.Processor (SamplingInterval)

/-- The settings, and whether the profiler runs. -/
structure Settings where
  interval : SamplingInterval
  maxFrames : Profiler.MaxFrames
  logFilePath : Option (List Char)
  running : Bool

/-- What a call does to the settings. -/
def Settings.call (s : Settings) : Op → Settings
  | .setFilePath newFilePath _ => if s.running then s else { s with logFilePath := newFilePath }
  | .setSamplingInterval intervalMin intervalMax =>
    if s.running then s
    else { s with interval := Processor.setSamplingInterval intervalMin intervalMax }
  | .setMaxFramesToCapture maxFramesToCapture =>
    if s.running then s
    else { s with maxFrames := Profiler.setMaxFramesToCapture maxFramesToCapture }
  | .start fileName _ =>
    if s.running then s
    else { s with logFilePath := some (s.logFilePath.getD fileName), running := true }
  | .stop => { s with running := false }

/-- The settings of a new profiler. -/
def Options.settings (o : Options) (fileName : List Char) : Settings where
  interval := Processor.setSamplingInterval o.samplingIntervalMin o.samplingIntervalMax
  maxFrames := Profiler.setMaxFramesToCapture o.maxFramesToCapture
  logFilePath := some ((o.logFilePath.map Prod.snd).getD fileName)
  running := false

/-- The name that the live path points to. -/
def State.name (σ : State) : Option (List Char) := σ.liveConfiguration.logFilePath.bind σ.strings

/-- The live configuration holds the settings; while the profiler runs, it is the active one. -/
structure Shows (σ : State) (s : Settings) : Prop where
  min : σ.liveConfiguration.samplingIntervalMin = s.interval.min
  max : σ.liveConfiguration.samplingIntervalMax = s.interval.max
  maxFrames : σ.liveConfiguration.maxFramesToCapture = s.maxFrames.frames
  name : σ.name = s.logFilePath
  running : σ.isRunning = s.running
  reload : σ.isRunning = true → σ.reloadConfig = false

/-! ## Configuring -/

section Configuring

variable {σ σ' : State} {p : Option ℕ} {fileName : List Char} {address : ℕ}

/-- What is left of the strings is as it was. -/
theorem freeString_sub (h : σ.freeString p = .ok σ') :
    ∃ strings, σ' = { σ with strings := strings } ∧
    ∀ a s, strings a = some s → σ.strings a = some s := by
  cases p with
  | none =>
    cases h
    exact ⟨σ.strings, rfl, fun _ _ => id⟩
  | some a =>
    obtain ⟨strings, hfree, h⟩ := exists_of_bind_eq_ok h
    cases h
    refine ⟨strings, rfl, fun b s hs => ?_⟩
    rw [Heap.free] at hfree
    split at hfree
    · cases hfree
    · cases hfree
      by_cases hb : b = a
      · rw [hb, Function.update_self] at hs
        cases hs
      · rwa [Function.update_of_ne hb] at hs

/-- The log is opened under the name of the live path, or under the one given to it. -/
theorem openLog_name (h : σ.openLog fileName address = .ok σ') :
    ∃ path, σ'.liveConfiguration = { σ.liveConfiguration with logFilePath := some path } ∧
      σ'.name = some (σ.name.getD fileName) ∧ σ'.processorRuns = σ.processorRuns := by
  obtain ⟨_, hdelete, h⟩ := exists_of_bind_eq_ok h
  obtain ⟨components, rfl⟩ := delete_eq_ok hdelete
  obtain ⟨_, hdelete, h⟩ := exists_of_bind_eq_ok h
  obtain ⟨components, rfl⟩ := delete_eq_ok hdelete
  obtain ⟨_, hfree, h⟩ := exists_of_bind_eq_ok h
  obtain ⟨strings, rfl, hstrings⟩ := freeString_sub hfree
  obtain ⟨⟨τ, path, name⟩, hpath, h⟩ := exists_of_bind_eq_ok h
  cases h
  rw [State.path] at hpath
  dsimp only at hpath
  rw [State.name, State.name]
  cases hlive : σ.liveConfiguration.logFilePath with
  | none =>
    rw [hlive] at hpath
    obtain ⟨υ, hcopy, hpath⟩ := exists_of_bind_eq_ok hpath
    cases hpath
    obtain ⟨strings', halloc, hcopy⟩ := exists_of_bind_eq_ok hcopy
    cases hcopy
    refine ⟨address, rfl, ?_, rfl⟩
    rw [Heap.alloc] at halloc
    split at halloc
    · cases halloc
      exact Function.update_self ..
    · cases halloc
  | some live =>
    rw [hlive] at hpath
    obtain ⟨name', hget, hpath⟩ := exists_of_bind_eq_ok hpath
    cases hpath
    refine ⟨path, rfl, ?_, rfl⟩
    rw [Heap.get] at hget
    split at hget
    · cases hget
    · rename_i hs
      cases hget
      show strings path = _
      rw [hs]
      exact congrArg some (by rw [Option.bind_some, hstrings _ _ hs]; rfl)

theorem newBuffer_live (h : σ.newBuffer = .ok σ') :
    σ'.liveConfiguration = σ.liveConfiguration ∧ σ'.strings = σ.strings ∧
      σ'.processorRuns = σ.processorRuns := by
  obtain ⟨_, hdelete, h⟩ := exists_of_bind_eq_ok h
  obtain ⟨components, rfl⟩ := delete_eq_ok hdelete
  obtain ⟨writer, -, h⟩ := exists_of_bind_eq_ok h
  cases h
  exact ⟨rfl, rfl, rfl⟩

theorem newProcessor_live (h : σ.newProcessor = .ok σ') :
    σ'.liveConfiguration = σ.liveConfiguration ∧ σ'.strings = σ.strings ∧
      σ'.processorRuns = false := by
  obtain ⟨_, hdelete, h⟩ := exists_of_bind_eq_ok h
  obtain ⟨components, rfl⟩ := delete_eq_ok hdelete
  obtain ⟨_, hdelete, h⟩ := exists_of_bind_eq_ok h
  obtain ⟨components, rfl⟩ := delete_eq_ok hdelete
  obtain ⟨writer, -, h⟩ := exists_of_bind_eq_ok h
  obtain ⟨buffer, -, h⟩ := exists_of_bind_eq_ok h
  cases h
  exact ⟨rfl, rfl, rfl⟩

/-- `configure` changes no setting but a path that is null. -/
theorem configure_name (hname : σ.processor ≠ none →
      σ.configuration.logFilePath = σ.liveConfiguration.logFilePath → ∃ name, σ.name = some name)
    (h : σ.configure fileName address = .ok σ') :
    ∃ path, σ'.liveConfiguration = { σ.liveConfiguration with logFilePath := path } ∧
      σ'.name = some (σ.name.getD fileName) ∧ σ'.reloadConfig = false ∧
        (σ.processorRuns = false → σ'.processorRuns = false) := by
  obtain ⟨τ₁, hlog, h⟩ := exists_of_bind_eq_ok h
  obtain ⟨τ₂, hbuffer, h⟩ := exists_of_bind_eq_ok h
  obtain ⟨τ₃, hprocessor, h⟩ := exists_of_bind_eq_ok h
  cases h
  have h₁ : ∃ path, τ₁.liveConfiguration = { σ.liveConfiguration with logFilePath := path } ∧
      τ₁.name = some (σ.name.getD fileName) ∧ τ₁.processorRuns = σ.processorRuns := by
    simp only [Bool.or_eq_true, decide_eq_true_eq] at hlog
    split_ifs at hlog with hupdate
    · obtain ⟨path, hpath⟩ := openLog_name hlog
      exact ⟨some path, hpath⟩
    · cases hlog
      rw [not_or, not_ne_iff] at hupdate
      obtain ⟨name, hn⟩ := hname hupdate.1 hupdate.2
      exact ⟨σ.liveConfiguration.logFilePath, rfl, by rw [hn]; rfl, rfl⟩
  have h₂ : τ₂.liveConfiguration = τ₁.liveConfiguration ∧ τ₂.strings = τ₁.strings ∧
      τ₂.processorRuns = τ₁.processorRuns := by
    split_ifs at hbuffer
    · exact newBuffer_live hbuffer
    · cases hbuffer
      exact ⟨rfl, rfl, rfl⟩
  have h₃ : τ₃.liveConfiguration = τ₂.liveConfiguration ∧ τ₃.strings = τ₂.strings ∧
      (τ₂.processorRuns = false → τ₃.processorRuns = false) := by
    split_ifs at hprocessor
    · obtain ⟨hlive, hstrings, hruns⟩ := newProcessor_live hprocessor
      exact ⟨hlive, hstrings, fun _ => hruns⟩
    · cases hprocessor
      exact ⟨rfl, rfl, id⟩
  obtain ⟨path, hlive, hn, hruns⟩ := h₁
  refine ⟨path, (h₃.1.trans h₂.1).trans hlive, ?_, rfl, fun hr => h₃.2.2 ?_⟩
  · rw [← hn]
    show τ₃.liveConfiguration.logFilePath.bind τ₃.strings = _
    rw [h₃.1, h₃.2.1, h₂.1, h₂.2.1]
    rfl
  · rw [h₂.2.2, hruns, hr]

end Configuring

/-! ## Calls -/

section Calls

variable {σ σ' : State} {s : Settings} {fileName : List Char} {address : ℕ}
  {newFilePath : Option (List Char)}

theorem Coherent.name (h : Coherent σ) (he : σ.configuration.logFilePath =
    σ.liveConfiguration.logFilePath) : ∃ name, σ.name = some name := by
  obtain ⟨path, name, _, _, _, _, _, hl, -⟩ := h.graph
  refine ⟨name, ?_⟩
  rw [State.name, ← he, hl.path_eq]
  exact hl.name_eq

theorem Shows.setFilePath (h : Shows σ s) (hr : σ.isRunning = false)
    (he : σ.setFilePath newFilePath address = .ok σ') :
    Shows σ' { s with logFilePath := newFilePath } := by
  obtain ⟨τ, hfree, he⟩ := exists_of_bind_eq_ok he
  have hτ : ∃ strings, τ = { σ with strings := strings } := by
    split_ifs at hfree
    · obtain ⟨strings, hτ, -⟩ := freeString_sub hfree
      exact ⟨strings, hτ⟩
    · cases hfree
      exact ⟨σ.strings, rfl⟩
  obtain ⟨strings, rfl⟩ := hτ
  cases newFilePath with
  | none =>
    cases he
    exact ⟨h.min, h.max, h.maxFrames, rfl, h.running,
      fun hrun => absurd (hr.symm.trans hrun) (by decide)⟩
  | some name =>
    obtain ⟨υ, hcopy, he⟩ := exists_of_bind_eq_ok he
    cases he
    obtain ⟨strings', halloc, hcopy⟩ := exists_of_bind_eq_ok hcopy
    cases hcopy
    refine ⟨h.min, h.max, h.maxFrames, ?_, h.running,
      fun hrun => absurd (hr.symm.trans hrun) (by decide)⟩
    rw [Heap.alloc] at halloc
    split at halloc
    · cases halloc
      exact Function.update_self ..
    · cases halloc

theorem Shows.start (h : Shows σ s) (hc : Coherent σ) (he : σ.start fileName address = .ok σ') :
    Shows σ' { s with logFilePath := some (s.logFilePath.getD fileName), running := true } := by
  obtain ⟨τ, hconfigure, he⟩ := exists_of_bind_eq_ok he
  obtain ⟨handler, -, he⟩ := exists_of_bind_eq_ok he
  obtain ⟨processor, hprocessor, he⟩ := exists_of_bind_eq_ok he
  cases he
  have hτ : ∃ path, τ.liveConfiguration = { σ.liveConfiguration with logFilePath := path } ∧
      τ.name = some (σ.name.getD fileName) ∧ τ.reloadConfig = false := by
    split_ifs at hconfigure with hreload
    · obtain ⟨path, hlive, hn, hr, -⟩ := configure_name (fun _ => hc.name) hconfigure
      exact ⟨path, hlive, hn, hr⟩
    · cases hconfigure
      have hreload' : σ.reloadConfig = false := Bool.eq_false_iff.2 hreload
      obtain ⟨name, hn⟩ := hc.name (congrArg _ (hc.configured hreload').1)
      exact ⟨_, rfl, by rw [hn]; rfl, hreload'⟩
  obtain ⟨path, hlive, hn, hreload⟩ := hτ
  have hrun : ({ τ with processorRuns := true } : State).isRunning = true := by
    cases hp : τ.processor with
    | none =>
      rw [hp] at hprocessor
      cases hprocessor
    | some _ => simp [State.isRunning]
  refine ⟨?_, ?_, ?_, ?_, hrun, fun _ => hreload⟩
  · exact (congrArg _ hlive).trans h.min
  · exact (congrArg _ hlive).trans h.max
  · exact (congrArg _ hlive).trans h.maxFrames
  · rw [← h.name]
    exact hn

/-- Every call does to the settings what it does to the profiler. -/
theorem Shows.call (h : Shows σ s) (hc : Coherent σ) {op : Op} (he : σ.call op = .ok σ') :
    Shows σ' (s.call op) := by
  have hrun := h.running
  cases hr : σ.isRunning with
  | true =>
    rw [hr] at hrun
    cases op with
    | stop =>
      simp only [State.call, hr, if_true] at he
      cases he
      have hstopped : ({ σ with processorRuns := false } : State).isRunning = false :=
        Bool.and_false _
      exact ⟨h.min, h.max, h.maxFrames, h.name, hstopped,
        fun hrun => absurd (hstopped.symm.trans hrun) (by decide)⟩
    | setFilePath | setSamplingInterval | setMaxFramesToCapture | start =>
      simp only [State.call, hr, if_true] at he
      cases he
      simpa only [Settings.call, ← hrun, if_true] using h
  | false =>
    rw [hr] at hrun
    have hnot : ∀ τ : State, τ.isRunning = σ.isRunning → τ.isRunning = true →
        τ.reloadConfig = false := fun τ hτ hrun =>
      absurd ((hτ.trans hr).symm.trans hrun) (by decide)
    cases op with
    | setFilePath newFilePath address =>
      simp only [State.call, hr, if_false, Bool.false_eq_true] at he
      simpa only [Settings.call, ← hrun, if_false, Bool.false_eq_true] using h.setFilePath hr he
    | setSamplingInterval intervalMin intervalMax =>
      simp only [State.call, hr, if_false, Bool.false_eq_true] at he
      cases he
      simp only [Settings.call, ← hrun, if_false, Bool.false_eq_true]
      exact ⟨rfl, rfl, h.maxFrames, h.name, hr, hnot _ rfl⟩
    | setMaxFramesToCapture maxFramesToCapture =>
      simp only [State.call, hr, if_false, Bool.false_eq_true] at he
      cases he
      simp only [Settings.call, ← hrun, if_false, Bool.false_eq_true]
      exact ⟨h.min, h.max, rfl, h.name, hr, hnot _ rfl⟩
    | start fileName address =>
      simp only [State.call, hr, if_false, Bool.false_eq_true] at he
      simpa only [Settings.call, ← hrun, if_false, Bool.false_eq_true] using h.start hc he
    | stop =>
      simp only [State.call, hr, if_false, Bool.false_eq_true] at he
      cases he
      exact ⟨h.min, h.max, h.maxFrames, h.name, hr, hnot _ rfl⟩

/-- A new profiler has the settings of its options. -/
theorem construct_shows {o : Options} (he : construct o fileName address = .ok σ) :
    Shows σ (o.settings fileName) := by
  obtain ⟨path, hlive, hname, hreload, hruns⟩ :=
    configure_name (σ := o.unconfigured) (fun hp => absurd rfl hp) he
  have hstrings : o.unconfigured.name = o.logFilePath.map Prod.snd := by
    cases hpath : o.logFilePath with
    | none => simp [State.name, Options.unconfigured, State.setMaxFramesToCapture,
        State.setSamplingInterval, State.initial, hpath]
    | some x => simp [State.name, Options.unconfigured, State.setMaxFramesToCapture,
        State.setSamplingInterval, State.initial, hpath]
  have hrun : σ.isRunning = false := by
    rw [State.isRunning, hruns rfl, Bool.and_false]
  refine ⟨congrArg _ hlive, congrArg _ hlive, congrArg _ hlive, ?_, hrun, fun _ => hreload⟩
  rw [hname, hstrings]
  rfl

end Calls

/-! ## A profiler that runs -/

/-- The objects in use are built from the settings: the log is the file with the name, the queue
    has room for the frames, and the signal handler draws from the interval. -/
def Built (σ : State) (s : Settings) : Prop :=
  ∃ name logFile writer buffer handler processor,
    s.logFilePath = some name ∧
    σ.logFile = some logFile ∧ σ.components logFile = some (.ofstream name) ∧
    σ.writer = some writer ∧ σ.components writer = some (.logWriter logFile) ∧
    σ.buffer = some buffer ∧
    σ.components buffer = some (.circularQueue writer s.maxFrames.frames) ∧
    σ.handler = some handler ∧
    σ.components handler = some (.signalHandler s.interval.min s.interval.max) ∧
    σ.processor = some processor ∧
    σ.components processor =
      some (.processor writer buffer handler (processorInterval s.interval.min))

theorem Shows.built {σ : State} {s : Settings} (h : Shows σ s) (hc : Coherent σ)
    (hr : s.running = true) : Built σ s := by
  obtain ⟨he, path, name, logFile, writer, buffer, handler, processor, hl, hb, hp⟩ :=
    hc.configured (h.reload (h.running.trans hr))
  refine ⟨name, logFile, writer, buffer, handler, processor, ?_, hl.logFile_eq, hl.ofstream,
    hl.writer_eq, hl.logWriter, hb.buffer_eq, ?_, hp.handler_eq, ?_, hp.processor_eq, ?_⟩
  · rw [← h.name, State.name, ← he, hl.path_eq]
    exact hl.name_eq
  · rw [hb.circularQueue, he, h.maxFrames]
  · rw [hp.signalHandler, he, h.min, h.max]
  · rw [hp.processor, he, h.min]

end FkProf.Configure
