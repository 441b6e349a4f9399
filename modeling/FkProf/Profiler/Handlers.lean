import FkProf.Profiler

/-!
# Handlers and the replaced queue

Nothing keeps a handler in flight from being overtaken by a whole stop,
reconfigure and start. Four steps are the ones that meet a handler they should
not (`Overtakes`): `configure` deletes the queue that some handler is pushing to;
a handler reads `buffer` after the queue has been deleted and before the new one
has been stored; `configure` stores a smaller `maxFramesToCapture` while a handler
has a longer trace; `AsyncGetCallTrace` returns a trace longer than the
`maxFramesToCapture` that has been stored since it was asked for.

* `safe_of_run`: the invariant of the runs without these steps;
* `handlers_safe`: every push goes to a queue that exists, with a trace that fits;
* `exists_use_after_free`: a run with the first of these steps.
-/

namespace FkProf.Profiler

variable {Tid : Type*}

/-- The handler is at `push` with a queue. -/
def Handler.pushesTo (queue : ℕ) : Handler → Bool
  | .push b _ => b = queue
  | _ => false

/-- The handler has a trace of more frames than this. -/
def Handler.exceeds (frames : ℤ) : Handler → Bool
  | .traced numFrames => frames < numFrames
  | _ => false

/-- The next step of the handler is its read of `buffer`. -/
def Handler.readsBuffer : Handler → Bool
  | .traced _ => true
  | _ => false

/-- `buffer` has been deleted, and the new queue has not been stored. -/
def Control.replacing : Control → Bool
  | .storeMaxFrames | .newBuffer => true
  | _ => false

/-- The steps of `configure` and of the handlers that meet each other. -/
def Overtakes (σ : State Tid) : Label Tid → Prop
  | .control =>
    match σ.control with
    | .deleteBuffer => ∃ t, (σ.handlers t).pushesTo σ.buffer = true
    | .storeMaxFrames =>
      ∃ t, (σ.handlers t).exceeds σ.liveConfiguration.maxFramesToCapture.frames = true
    | _ => False
  | .read t => (σ.handlers t).readsBuffer = true ∧ σ.control.replacing = true
  | .trace _ numFrames => σ.configuration.maxFramesToCapture.frames < numFrames
  | _ => False

/-- The other steps. -/
def Apart (σ : State Tid) (l : Label Tid) : Prop := ¬Overtakes σ l

instance [Fintype Tid] (σ : State Tid) (l : Label Tid) : Decidable (Apart σ l) := by
  cases l <;> simp only [Apart, Overtakes]
  case control => cases σ.control <;> infer_instance
  all_goals infer_instance

/-- The queue exists, and its slots hold that many frames. -/
def State.Accepts (σ : State Tid) (queue : ℕ) (numFrames : ℤ) : Prop :=
  ∃ q, σ.queues[queue]? = some q ∧ q.deleted = false ∧ numFrames ≤ q.maxFrames

/-- What a handler has in its hands. -/
def Handler.Ok (σ : State Tid) : Handler → Prop
  | .traced numFrames => numFrames ≤ σ.configuration.maxFramesToCapture.frames
  | .push b numFrames => σ.Accepts b numFrames
  | _ => True

/-- The invariant of the runs in which `configure` and the handlers stay apart. -/
structure Safe (σ : State Tid) : Prop where
  buffer : σ.control.replacing = false →
    σ.Accepts σ.buffer σ.configuration.maxFramesToCapture.frames
  handler : ∀ t, (σ.handlers t).Ok σ

variable {σ σ' : State Tid}

theorem State.Accepts.mono {b : ℕ} {m : ℤ} (h : σ.Accepts b m)
    (hq : ∀ q, σ.queues[b]? = some q → σ'.queues[b]? = some q) : σ'.Accepts b m := by
  obtain ⟨q, hget, hlive, hle⟩ := h
  exact ⟨q, hq q hget, hlive, hle⟩

theorem Handler.Ok.mono {pc : Handler} (h : pc.Ok σ)
    (hconf : pc.exceeds σ'.configuration.maxFramesToCapture.frames = false)
    (hq : ∀ b, pc.pushesTo b = true → ∀ q, σ.queues[b]? = some q → σ'.queues[b]? = some q) :
    pc.Ok σ' := by
  cases pc with
  | traced m => simpa [Handler.exceeds, Handler.Ok] using hconf
  | push b m => exact State.Accepts.mono h (hq b (by simp [Handler.pushesTo]))
  | _ => trivial

/-- A step that leaves the configuration's frames and the queues as they are. -/
theorem Safe.congr (h : Safe σ) (hctl : σ'.control.replacing = σ.control.replacing)
    (hframes : σ'.configuration.maxFramesToCapture = σ.configuration.maxFramesToCapture)
    (hqueues : σ'.queues = σ.queues) (hbuffer : σ'.buffer = σ.buffer)
    (hhandler : ∀ t, σ'.handlers t = σ.handlers t ∨ (σ'.handlers t).Ok σ') : Safe σ' where
  buffer hc := by
    rw [hbuffer, hframes]
    exact (h.buffer (hctl ▸ hc)).mono (by rw [hqueues]; exact fun _ h => h)
  handler t := by
    rcases hhandler t with heq | hok
    · have hok := h.handler t
      rw [heq]
      refine hok.mono ?_ (by rw [hqueues]; exact fun _ _ _ h => h)
      rw [hframes]
      cases hpc : σ.handlers t <;> simp_all [Handler.exceeds, Handler.Ok]
    · exact hok

theorem Safe.controlStep (h : Safe σ) (hl : Apart σ .control) (hs : σ.controlStep = some σ') :
    Safe σ' := by
  have hkeep : ∀ {k : Control} {conf live : ConfigurationOptions} {reload run handled : Bool}
      {n : ℕ}, k.replacing = σ.control.replacing →
      conf.maxFramesToCapture = σ.configuration.maxFramesToCapture →
      Safe { σ with control := k, configuration := conf, liveConfiguration := live,
                    reloadConfig := reload, isRunning := run, handled := handled,
                    nPaths := n } :=
    fun hk hconf => h.congr hk hconf rfl rfl fun _ => .inl rfl
  unfold State.controlStep at hs
  split at hs <;> rename_i hc <;> simp only [Option.some.injEq, reduceCtorEq] at hs <;> subst hs
  case h_2 op =>
    split
    · exact hkeep (by rw [hc]; rfl) rfl
    · cases op <;> exact hkeep (by rw [hc]; rfl) rfl
  case h_3 =>
    refine hkeep ?_ rfl
    rw [hc]
    split
    · rfl
    · split <;> rfl
  case h_4 => split <;> exact hkeep (by rw [hc]; rfl) rfl
  case h_5 needsUpdate =>
    refine hkeep ?_ rfl
    rw [hc]
    split <;> rfl
  case h_6 =>
    have hl : ∀ t, (σ.handlers t).pushesTo σ.buffer = false := fun t => by
      by_contra hp
      exact hl (by simp only [Overtakes, hc]; exact ⟨t, by simpa using hp⟩)
    refine ⟨by simp [Control.replacing], fun t => (h.handler t).mono ?_ fun b hb q hq => ?_⟩
    · have hok := h.handler t
      cases hpc : σ.handlers t <;> simp_all [Handler.exceeds, Handler.Ok]
    · have hne : σ.buffer ≠ b := by
        rintro rfl
        simp [hl t] at hb
      simpa [hne] using hq
  case h_7 =>
    refine ⟨by simp [Control.replacing], fun t => (h.handler t).mono ?_ fun _ _ _ hq => hq⟩
    by_contra hp
    exact hl (by simp only [Overtakes, hc]; exact ⟨t, by simpa using hp⟩)
  case h_8 =>
    refine ⟨fun _ => ⟨_, List.getElem?_concat_length, rfl, le_rfl⟩,
      fun t => (h.handler t).mono ?_ fun b _ q hq => ?_⟩
    · have hok := h.handler t
      cases hpc : σ.handlers t <;> simp_all [Handler.exceeds, Handler.Ok]
    · simp [List.getElem?_append_left (List.getElem?_eq_some_iff.1 hq).1, hq]
  case h_9 needsUpdate =>
    refine hkeep (by rw [hc]; rfl) ?_
    split <;> rfl
  case h_13 =>
    refine hkeep ?_ rfl
    rw [hc]
    split <;> rfl
  all_goals exact hkeep (by rw [hc]; rfl) rfl

variable [DecidableEq Tid]

/-- A handler moves to where it may be. -/
theorem Safe.setHandler (h : Safe σ) {t : Tid} {pc : Handler} (hpc : pc.Ok σ) :
    Safe (σ.setHandler t pc) := by
  refine h.congr rfl rfl rfl rfl fun u => ?_
  by_cases hu : u = t
  · subst hu
    right
    simp only [State.setHandler, Function.update_self]
    cases pc <;> exact hpc
  · exact .inl (Function.update_of_ne hu _ _)

theorem Safe.next (h : Safe σ) {l : Label Tid} (hl : Apart σ l) (hn : σ.next l = some σ') :
    Safe σ' := by
  cases l <;> simp only [State.next] at hn
  case call op =>
    split at hn <;> rename_i hc <;> cases hn
    exact h.congr (by rw [hc]; cases op <;> rfl) rfl rfl rfl fun _ => .inl rfl
  case control => exact h.controlStep hl hn
  case signal t =>
    split at hn <;> cases hn
    exact h.setHandler trivial
  case read t =>
    unfold State.readStep at hn
    split at hn <;> rename_i hpc <;> cases hn
    · exact h.setHandler trivial
    · exact h.setHandler trivial
    · have hrep : σ.control.replacing = false := by
        by_contra hc
        exact hl ⟨by rw [hpc]; rfl, by simpa using hc⟩
      obtain ⟨q, hget, hlive, hle⟩ := h.buffer hrep
      have hm := h.handler t
      rw [hpc] at hm
      exact h.setHandler ⟨q, hget, hlive, le_trans hm hle⟩
  case noEnv t gcActive =>
    split at hn <;> cases hn
    have hpos := σ.configuration.maxFramesToCapture.pos
    refine h.setHandler ?_
    simp only [Handler.Ok]
    split <;> omega
  case trace t m =>
    split at hn
    · split at hn <;> cases hn
      exact h.setHandler (not_lt.1 hl)
    · cases hn
  case pushed t =>
    split at hn <;> cases hn
    exact h.setHandler trivial

omit [DecidableEq Tid] in
theorem Safe.new (isNull : Bool) (intervalMin intervalMax maxFrames : ℤ) :
    Safe (.new isNull intervalMin intervalMax maxFrames : State Tid) :=
  ⟨fun _ => ⟨_, rfl, rfl, le_rfl⟩, fun _ => trivial⟩

/-- The invariant holds in every run in which `configure` and the handlers stay
    apart. -/
theorem safe_of_run {tr : List (State Tid × Label Tid)} (hr : (system Tid).Run Apart σ tr σ')
    (h : Safe σ) : Safe σ' :=
  hr.invariant (fun _ _ _ ha hl hn => ha.next hl hn) h

/-- In a run in which `configure` and the handlers stay apart, from its read of
    `buffer` to the return of its `push` every handler has a queue that has not
    been deleted, and a trace of at most the frames it was built with. -/
theorem handlers_safe {isNull : Bool} {intervalMin intervalMax maxFrames : ℤ} {σ : State Tid}
    {tr : List (State Tid × Label Tid)}
    (hr : (system Tid).Run Apart (.new isNull intervalMin intervalMax maxFrames) tr σ) {t : Tid}
    {queue : ℕ} {numFrames : ℤ} (hpush : σ.handlers t = .push queue numFrames) :
    ∃ q, σ.queues[queue]? = some q ∧ q.deleted = false ∧ numFrames ≤ q.maxFrames := by
  have hok := (safe_of_run hr (.new isNull intervalMin intervalMax maxFrames)).handler t
  rwa [hpush] at hok

/-- A start, and a handler that gets a trace of one frame and reads `buffer`. -/
def startAndHandle (t : Tid) : List (Label Tid) :=
  .call .start :: List.replicate 3 .control ++ [.signal t, .read t, .read t, .trace t 1, .read t]

/-- A handler is at its `push`, and nothing has been reconfigured. -/
theorem handlers_safe_single : ∃ (σ : State (Fin 1)) (q : QueueCell),
    σ.handlers 0 = .push 0 1 ∧ σ.queues[0]? = some q ∧ q.deleted = false ∧ 1 ≤ q.maxFrames := by
  have hrun : ((system (Fin 1)).exec Apart (.new true 1 1 128) (startAndHandle 0)).any (fun σ =>
      decide (σ.handlers 0 = .push 0 1)) = true := by
    decide +kernel
  obtain ⟨tr, σ, hr, hσ⟩ := System.exists_run_of_exec hrun
  have hpush : σ.handlers 0 = .push 0 1 := of_decide_eq_true hσ
  obtain ⟨q, hq⟩ := handlers_safe hr hpush
  exact ⟨σ, q, hpush, hq⟩

/-- A handler is overtaken at its `push` by a stop, a setter and a start up to
    where it deletes the queue. -/
theorem exists_use_after_free : ¬∀ (σ : State (Fin 1)) (tr : List (State (Fin 1) × Label (Fin 1))),
    (system (Fin 1)).Run System.anyStep (.new true 1 1 128) tr σ →
      ∀ t queue numFrames, σ.handlers t = .push queue numFrames →
        ∃ q, σ.queues[queue]? = some q ∧ q.deleted = false ∧ numFrames ≤ q.maxFrames := by
  intro hall
  have hrun : ((system (Fin 1)).exec System.anyStep (.new true 1 1 128) (startAndHandle 0 ++
      .call .stop :: List.replicate 3 .control ++ .call (.setMaxFramesToCapture 64) :: .control ::
        .call .start :: List.replicate 4 .control)).any (fun σ =>
          decide (σ.handlers 0 = .push 0 1 ∧ σ.queues = [⟨128, true⟩])) = true := by
    decide +kernel
  obtain ⟨tr, σ, hr, hσ⟩ := System.exists_run_of_exec hrun
  obtain ⟨hpush, hqueues⟩ := of_decide_eq_true hσ
  obtain ⟨q, hget, hlive, -⟩ := hall σ tr hr 0 0 1 hpush
  rw [hqueues] at hget
  cases hget
  cases hlive

end FkProf.Profiler
