import FkProf.Processor.Handshake

/-!
# The running status

`isRunning_` is meant to say that a worker has been launched and has not left
`Processor::run`, and a start that returns true that the profiling timer is
armed. Each of the three effects of start can fail on its own, and the worker
leaves by itself when it cannot re-arm the timer.

`Misleads` lists the steps that make the status untrue: `RunAgentThread` fails
and start goes on; the worker fails to re-arm and leaves without a store to
`isRunning_`; start, called again after it has failed to arm the timer, returns
true because the profiler is running; `setitimer` is called with the static
`timer` while the other thread is writing it; the worker fails to unset a timer
that stop has unset, and `currentInterval` keeps the interval of a timer that is
not armed.

* `truth_of_run`: the invariant of the runs without these steps;
* `status_truthful`: the status in these runs;
* `exists_untruthful`: a run with the first of them.
-/

namespace FkProf.Processor

variable {c : SamplingInterval} {rand : ℕ → ℕ} {intervals : ℕ → ℤ} {σ σ' : State} {ok : Bool}

/-- The control thread is stopping the worker. -/
def Control.stopping : Control → Bool
  | .stopSigprof _ | .clearRunning | .spin => true
  | _ => false

/-- The steps that make the status untrue. -/
def Misleads (σ : State) : Label → Prop
  | .control ok =>
    match σ.control with
    -- Start finds the profiler running, with a timer it has not armed.
    | .testStart => σ.isRunning = true ∧ σ.signals.currentInterval ≤ 0
    | .runAgentThread => ok = false
    | .rearm (.update _ .setitimer) => ok = true ∧ ¬σ.signals.timer.Armed
    | _ => False
  | .worker ok =>
    match σ.worker with
    | some (.rearm (.update _ .setitimer)) =>
      ok = true ∧ σ.control.stopping = false ∧ ¬σ.signals.timer.Armed ∨
        ok = false ∧ σ.isRunning = true
    | some (.stopSigprof .setitimer) => ok = false ∧ ¬σ.signals.itimer.Armed
    | _ => False
  | _ => False

/-- The other steps. -/
def Truthful (σ : State) (l : Label) : Prop := ¬Misleads σ l

instance (σ : State) (l : Label) : Decidable (Truthful σ l) := by
  unfold Truthful Misleads
  split
  · split <;> infer_instance
  · split <;> infer_instance
  · infer_instance

/-! ## The worker -/

/-- The worker has not left the loop. -/
def Run.looping : Run → Bool
  | .stopSigprof _ | .clear => false
  | _ => true

/-- `updateSigprofInterval()` returns false, or is about to. -/
def Rearm.failed : Rearm → Bool
  | .update _ (.done false) | .loadIndex false | .storeIndex false _ | .done false => true
  | _ => false

/-- `updateSigprofInterval()` returns false only if `setitimer` fails. -/
theorem Rearm.failed_of_step {s s' : Signals} {r r' : Rearm} (hr : r.step intervals ok s = some (r', s'))
    (hf : r'.failed = true) :
    r.failed = true ∨ ok = false ∧ ∃ t, r = .update t .setitimer := by
  unfold Rearm.step at hr
  split at hr <;> simp only [Option.map_eq_some_iff, Option.some.injEq, reduceCtorEq] at hr
  case h_1 => obtain ⟨rfl, -⟩ := Prod.mk.inj hr; simp [Rearm.failed] at hf
  case h_2 t res => obtain ⟨rfl, -⟩ := Prod.mk.inj hr; cases res <;> simp_all [Rearm.failed]
  case h_3 t u hne =>
    obtain ⟨p, hu, hp⟩ := hr
    obtain ⟨rfl, -⟩ := Prod.mk.inj hp
    cases u <;> simp only [Update.step, Option.some.injEq, reduceCtorEq] at hu <;> subst hu
    case compare => revert hf; simp only; split <;> simp [Rearm.failed]
    case setitimer => cases ok <;> simp_all [Rearm.failed]
    all_goals simp [Rearm.failed] at hf
  case h_4 res => obtain ⟨rfl, -⟩ := Prod.mk.inj hr; cases res <;> simp_all [Rearm.failed]
  case h_5 res i => obtain ⟨rfl, -⟩ := Prod.mk.inj hr; cases res <;> simp_all [Rearm.failed]

/-- The worker of a running profiler exists and is in its loop. -/
structure Obeys (σ : State) : Prop where
  leaving : ∀ w, σ.worker = some w → w.looping = false → σ.isRunning = false
  failed : ∀ r, σ.worker = some (.rearm r) → r.failed = true → σ.isRunning = false
  launched : σ.isRunning = true → σ.control.launching = false → σ.worker.isSome

/-- The worker is not launched, or is about to leave a running profiler. -/
def Deserts (σ : State) : Label → Prop
  | .control ok => σ.control = .runAgentThread ∧ ok = false
  | .worker ok =>
    (∃ t, σ.worker = some (.rearm (.update t .setitimer))) ∧ ok = false ∧ σ.isRunning = true
  | _ => False

theorem Obeys.workerStep (h : Obeys σ) (hl : ¬Deserts σ (.worker ok))
    (hs : σ.workerStep intervals ok = some σ') : Obeys σ' := by
  have hmove : ∀ (w : Run) (s : Signals), (w.looping = false → σ.isRunning = false) →
      (∀ r, w = .rearm r → r.failed = true → σ.isRunning = false) →
      Obeys { σ with worker := some w, signals := s } := fun w s hleave hfailed =>
    ⟨by rintro _ ⟨⟩; exact hleave, by rintro r ⟨⟩; exact hfailed r rfl, fun _ _ => rfl⟩
  unfold State.workerStep at hs
  split at hs <;> rename_i hw <;>
    simp only [Option.map_eq_some_iff, Option.some.injEq, reduceCtorEq] at hs
  case h_2 n =>
    subst hs
    cases ok <;> exact hmove _ _ (by simp [Run.looping]) (by simp)
  case h_3 n =>
    subst hs
    split
    · exact hmove _ _ (by simp [Run.looping]) (by rintro r ⟨⟩ hf; simp [Rearm.failed] at hf)
    · exact hmove _ _ (by simp [Run.looping]) (by simp)
  case h_4 res =>
    subst hs
    cases res
    · exact hmove _ _ (fun _ => h.failed _ hw rfl) (by simp)
    · exact hmove _ _ (by simp [Run.looping]) (by simp)
  case h_5 r hne =>
    obtain ⟨p, hr, rfl⟩ := hs
    refine hmove _ _ (by simp [Run.looping]) ?_
    rintro r' ⟨⟩ hf
    rcases Rearm.failed_of_step hr hf with hf | ⟨hok, t, rfl⟩
    · exact h.failed r hw hf
    · by_contra hrun
      exact hl ⟨⟨t, hw⟩, hok, by simpa using hrun⟩
  case h_6 n =>
    subst hs
    split
    · exact hmove _ _ (by simp [Run.looping]) (by simp)
    · rename_i hrun
      exact hmove _ _ (fun _ => by simpa using hrun) (by simp)
  case h_7 res =>
    subst hs
    exact hmove _ _ (fun _ => h.leaving _ hw rfl) (by simp)
  case h_8 u hne =>
    obtain ⟨p, -, rfl⟩ := hs
    exact hmove _ _ (fun _ => h.leaving _ hw rfl) (by simp)
  case h_9 =>
    subst hs
    exact ⟨by simp, by simp, by simp [h.leaving _ hw rfl]⟩

theorem Obeys.controlStep (h : Obeys σ) (hk : Handshake σ) (hl : ¬Deserts σ (.control ok))
    (hs : σ.controlStep intervals ok = some σ') : Obeys σ' := by
  obtain ⟨hleave, hfailed, hlaunched⟩ := h
  have hknows := hk.control
  unfold State.controlStep at hs
  split at hs <;> rename_i hc <;> rw [hc] at hknows <;>
    simp only [Option.map_eq_some_iff, Option.some.injEq, reduceCtorEq] at hs <;>
    simp only [Control.Knows] at hknows <;>
    simp only [hc, Control.launching, forall_const, reduceCtorEq, false_imp_iff, imp_true_iff]
      at hlaunched
  case h_3 =>
    subst hs
    have hnone := hk.stopped hknows (by simp [hc])
    exact ⟨by simp [hnone], by simp [hnone], by simp [Control.launching]⟩
  case h_4 =>
    subst hs
    exact ⟨by simp [hknows], by simp [hknows], by simp [Control.launching]⟩
  case h_5 =>
    have hok : ok = true := by
      by_contra hok
      exact hl ⟨hc, by simpa using hok⟩
    subst hs hok
    exact ⟨by rintro w ⟨⟩; simp [Run.looping], by simp, fun _ _ => rfl⟩
  case h_7 | h_11 =>
    obtain ⟨p, -, rfl⟩ := hs
    exact ⟨hleave, hfailed, fun hr _ => hlaunched hr⟩
  case h_12 =>
    subst hs
    exact ⟨fun _ _ _ => rfl, fun _ _ _ => rfl, by simp⟩
  case h_13 =>
    subst hs
    split
    · exact ⟨hleave, hfailed, fun hr _ => hlaunched hr⟩
    · exact ⟨hleave, hfailed, fun hr _ => hlaunched hr⟩
  all_goals
    subst hs
    exact ⟨hleave, hfailed, fun hr _ => hlaunched hr⟩

theorem Obeys.next (h : Obeys σ) (hk : Handshake σ) {l : Label} (hl : ¬Deserts σ l)
    (hn : σ.next intervals l = some σ') : Obeys σ' := by
  cases l <;> simp only [State.next] at hn
  case start | stop =>
    split at hn
    · rename_i hc
      cases hn
      exact ⟨h.leaving, h.failed, fun hr _ => h.launched hr (by rw [hc]; rfl)⟩
    · cases hn
  case control => exact h.controlStep hk hl hn
  case worker => exact h.workerStep hl hn

theorem Obeys.initial (b : Bool) : Obeys (.initial b) :=
  ⟨by simp [State.initial], by simp [State.initial], by simp [State.initial]⟩

/-! ## The timer -/

/-- `currentInterval` is positive only if the timer is armed. -/
def Signals.Honest (s : Signals) : Prop := 0 < s.currentInterval → s.itimer.Armed

/-- What a thread knows of the timer that it arms. -/
def Update.Knows (s : Signals) : Update → Prop
  | .storeInterval | .done true => s.itimer.Armed
  | _ => True

/-- What a thread knows in `updateSigprofInterval()`. -/
def Rearm.Knows (s : Signals) : Rearm → Prop
  | .update t u => 0 < t ∧ u.Knows s
  | .loadIndex true | .storeIndex true _ | .done true => s.itimer.Armed
  | _ => True

section Timer

variable {s s' : Signals}

theorem Update.Knows.mono {u : Update} (h : u.Knows s) (harm : s.itimer.Armed → s'.itimer.Armed) :
    u.Knows s' := by
  unfold Update.Knows at h ⊢
  split <;> simp_all

theorem Rearm.Knows.mono {r : Rearm} (h : r.Knows s) (harm : s.itimer.Armed → s'.itimer.Armed) :
    r.Knows s' := by
  unfold Rearm.Knows at h ⊢
  split
  · exact ⟨h.1, h.2.mono harm⟩
  all_goals simp_all

/-- Arming the timer for a positive interval, if the `timer` it is armed with is
    one. -/
theorem Update.Knows.step {u u' : Update} {t : ℤ} (h : u.Knows s) (ht : 0 < t) (hs : s.Honest)
    (harm : u = .setitimer → ok = true → s.timer.Armed) (hu : u.step t ok s = some (u', s')) :
    u'.Knows s' ∧ s'.Honest ∧ (s.itimer.Armed → s'.itimer.Armed) := by
  cases u <;> simp only [Update.step, Option.some.injEq, reduceCtorEq] at hu
  case compare =>
    obtain ⟨rfl, rfl⟩ := Prod.mk.inj hu
    refine ⟨?_, hs, id⟩
    split
    · rename_i heq
      exact hs (heq ▸ ht)
    · trivial
  case setitimer =>
    cases hok : ok <;> simp only [hok, if_true, Bool.false_eq_true, if_false] at hu <;>
      obtain ⟨rfl, rfl⟩ := Prod.mk.inj hu
    · exact ⟨trivial, hs, id⟩
    · have harmed := harm rfl hok
      exact ⟨harmed, fun _ => harmed, fun _ => harmed⟩
  case storeInterval =>
    obtain ⟨rfl, rfl⟩ := Prod.mk.inj hu
    exact ⟨h, fun _ => h, id⟩
  all_goals
    obtain ⟨rfl, rfl⟩ := Prod.mk.inj hu
    exact ⟨trivial, hs, id⟩

/-- The `timer` that a thread arms the profiling timer with is armed. -/
def Rearm.Sound (s : Signals) (ok : Bool) : Rearm → Prop
  | .update _ .setitimer => ok = true → s.timer.Armed
  | _ => True

theorem Rearm.Knows.step {r r' : Rearm} (hpos : ∀ i, 0 < intervals i) (h : r.Knows s)
    (hs : s.Honest) (harm : r.Sound s ok) (hr : r.step intervals ok s = some (r', s')) :
    r'.Knows s' ∧ s'.Honest ∧ (s.itimer.Armed → s'.itimer.Armed) := by
  unfold Rearm.step at hr
  split at hr <;> simp only [Option.map_eq_some_iff, Option.some.injEq, reduceCtorEq] at hr
  case h_1 =>
    obtain ⟨rfl, rfl⟩ := Prod.mk.inj hr
    exact ⟨⟨hpos _, trivial⟩, hs, id⟩
  case h_2 t res =>
    obtain ⟨rfl, rfl⟩ := Prod.mk.inj hr
    cases res <;> exact ⟨h.2, hs, id⟩
  case h_3 t u hne =>
    obtain ⟨p, hu, hp⟩ := hr
    obtain ⟨rfl, rfl⟩ := Prod.mk.inj hp
    obtain ⟨hk, hs', harm'⟩ := h.2.step h.1 hs (by rintro rfl; exact harm) hu
    exact ⟨⟨h.1, hk⟩, hs', harm'⟩
  case h_4 res =>
    obtain ⟨rfl, rfl⟩ := Prod.mk.inj hr
    cases res <;> exact ⟨h, hs, id⟩
  case h_5 res i =>
    obtain ⟨rfl, rfl⟩ := Prod.mk.inj hr
    cases res <;> exact ⟨h, hs, id⟩

end Timer

/-! ## The invariant -/

/-- The worker has made its last access to the signal handler. -/
def Run.settled : Run → Bool
  | .stopSigprof (.done _) | .clear => true
  | _ => false

/-- What start knows of the timer. -/
def Control.Trusts (s : Signals) : Control → Prop
  | .rearm r => r.Knows s
  | .started true => s.itimer.Armed
  | _ => True

/-- The invariant of the runs whose steps do not mislead. -/
structure Truth (σ : State) : Prop where
  handshake : Handshake σ
  obeys : Obeys σ
  honest : σ.control.stopping = false → σ.signals.Honest
  settled : σ.control = .spin → (∀ w, σ.worker = some w → w.settled = true) → σ.signals.Honest
  control : σ.control.Trusts σ.signals
  worker : σ.control.stopping = false → ∀ r, σ.worker = some (.rearm r) → r.Knows σ.signals

theorem Control.Trusts.mono {s s' : Signals} {k : Control} (h : k.Trusts s)
    (harm : s.itimer.Armed → s'.itimer.Armed) : k.Trusts s' := by
  unfold Control.Trusts at h ⊢
  split
  · exact h.mono harm
  all_goals simp_all

theorem Control.Trusts.of_stopping {s : Signals} {k : Control} (h : k.stopping = true) :
    k.Trusts s := by
  cases k <;> simp_all [Control.stopping, Control.Trusts]

/-- A step that does not mislead leaves the worker where it is told to be. -/
theorem Truthful.not_deserts {l : Label} (h : Truthful σ l) : ¬Deserts σ l := by
  rintro hd
  cases l <;> simp only [Deserts] at hd
  case control ok => exact h (by simp only [Misleads, hd.1]; exact hd.2)
  case worker ok =>
    obtain ⟨⟨t, hw⟩, hok, hrun⟩ := hd
    exact h (by simp only [Misleads, hw]; exact .inr ⟨hok, hrun⟩)

/-- The worker goes on, with some effect on the signal handler. -/
theorem Truth.moveWorker (h : Truth σ) {w : Run} {s : Signals}
    (hk : Handshake { σ with worker := some w, signals := s })
    (ho : Obeys { σ with worker := some w, signals := s })
    (hhonest : σ.control.stopping = false → s.Honest ∧ (σ.signals.itimer.Armed → s.itimer.Armed))
    (hsettled : σ.control = .spin → w.settled = true → s.Honest)
    (hknows : σ.control.stopping = false → ∀ r, w = .rearm r → r.Knows s) :
    Truth { σ with worker := some w, signals := s } where
  handshake := hk
  obeys := ho
  honest hc := (hhonest hc).1
  settled hc hw := hsettled hc (hw _ rfl)
  control := by
    cases hc : σ.control.stopping
    · exact h.control.mono (hhonest hc).2
    · exact .of_stopping hc
  worker hc r hw := hknows hc r (Option.some.inj hw)

/-- The worker that unsets the timer has been told to leave: stop waits for it, and
    nobody else uses the signal handler. -/
theorem Truth.alone (h : Truth σ) {w : Run} (hw : σ.worker = some w) (hl : w.looping = false) :
    σ.control = .spin := by
  by_contra hc
  simp [h.handshake.stopped (h.obeys.leaving w hw hl) hc] at hw

/-- Unsetting the timer, if it is not a failure to unset a timer that is not armed. -/
theorem Update.honest_of_unset {s s' : Signals} {u u' : Update}
    (h : ∀ res, u = .done res → s.Honest)
    (hfail : u = .setitimer → ok = false → s.itimer.Armed) (hu : u.step 0 ok s = some (u', s')) :
    ∀ res, u' = .done res → s'.Honest := by
  cases u <;> simp only [Update.step, Option.some.injEq, reduceCtorEq] at hu
  case compare =>
    obtain ⟨rfl, rfl⟩ := Prod.mk.inj hu
    intro res hres
    split at hres
    · rename_i heq
      exact fun hpos => absurd hpos (by rw [← heq]; exact lt_irrefl 0)
    · cases hres
  case setitimer =>
    cases hok : ok <;> simp only [hok, if_true, Bool.false_eq_true, if_false] at hu <;>
      obtain ⟨rfl, rfl⟩ := Prod.mk.inj hu
    · exact fun _ _ _ => hfail rfl hok
    · simp
  case storeInterval =>
    obtain ⟨rfl, rfl⟩ := Prod.mk.inj hu
    exact fun _ _ hpos => absurd hpos (lt_irrefl 0)
  all_goals
    obtain ⟨rfl, rfl⟩ := Prod.mk.inj hu
    simp

theorem Truth.workerStep (hpos : ∀ i, 0 < intervals i) (h : Truth σ)
    (hl : Truthful σ (.worker ok)) (hs : σ.workerStep intervals ok = some σ') : Truth σ' := by
  have hk := h.handshake.workerStep hs
  have ho := h.obeys.workerStep hl.not_deserts hs
  -- The steps within `run` itself leave the signal handler alone.
  have hkeep : ∀ w : Run, (∀ r, w = .rearm r → r = .load) → w.settled = false →
      Handshake { σ with worker := some w, signals := σ.signals } →
      Obeys { σ with worker := some w, signals := σ.signals } →
      Truth { σ with worker := some w, signals := σ.signals } := fun w hr hset hk ho =>
    h.moveWorker hk ho (fun hc => ⟨h.honest hc, id⟩) (fun _ he => by simp [hset] at he)
      (fun _ r he => by rw [hr r he]; trivial)
  unfold State.workerStep at hs
  split at hs <;> rename_i hw <;>
    simp only [Option.map_eq_some_iff, Option.some.injEq, reduceCtorEq] at hs
  case h_2 | h_3 | h_4 | h_6 =>
    subst hs
    revert hk ho
    split <;> intro hk ho <;> exact hkeep _ (by simp) rfl hk ho
  case h_5 r hne =>
    obtain ⟨p, hr, rfl⟩ := hs
    have hsound : σ.control.stopping = false → r.Sound σ.signals ok := by
      intro hc
      unfold Rearm.Sound
      split
      · rename_i t
        intro hok
        by_contra harm
        exact hl (by simp only [Misleads, hw]; exact .inl ⟨hok, hc, harm⟩)
      · trivial
    have hstep := fun hc => (h.worker hc r hw).step hpos (h.honest hc) (hsound hc) hr
    refine h.moveWorker hk ho (fun hc => (hstep hc).2) (by simp [Run.settled]) ?_
    rintro hc r' ⟨⟩
    exact (hstep hc).1
  case h_7 res =>
    have hspin := h.alone hw rfl
    subst hs
    refine h.moveWorker hk ho (fun hc => ⟨h.honest hc, id⟩) (fun _ _ => ?_) (by simp)
    exact h.settled hspin (by rintro w hw'; rw [hw] at hw'; cases hw'; rfl)
  case h_8 u hne =>
    have hspin := h.alone hw rfl
    obtain ⟨p, hu, rfl⟩ := hs
    have hstop : σ.control.stopping = true := by rw [hspin]; rfl
    refine h.moveWorker hk ho (fun hc => by simp [hstop] at hc) (fun _ hset => ?_) (by simp)
    obtain ⟨res, hres⟩ : ∃ res, p.1 = .done res := by
      cases hp : p.1 <;> simp_all [Run.settled]
    refine Update.honest_of_unset (fun res hres => absurd hres (hne res)) ?_ hu res hres
    rintro rfl hok
    by_contra harm
    exact hl (by simp only [Misleads, hw]; exact ⟨hok, harm⟩)
  case h_9 =>
    have hspin := h.alone hw rfl
    have hhonest := h.settled hspin (by rintro w hw'; rw [hw] at hw'; cases hw'; rfl)
    subst hs
    exact ⟨hk, ho, fun _ => hhonest, fun _ _ => hhonest, h.control, by simp⟩

/-- The control thread goes on where it does not stop the worker. -/
theorem Truth.moveControl (h : Truth σ) {k : Control} {s : Signals}
    (hk : Handshake { σ with control := k, signals := s })
    (ho : Obeys { σ with control := k, signals := s }) (hstop : k.stopping = false)
    (hold : σ.control.stopping = false)
    (hs : s.Honest ∧ (σ.signals.itimer.Armed → s.itimer.Armed)) (htrusts : k.Trusts s) :
    Truth { σ with control := k, signals := s } where
  handshake := hk
  obeys := ho
  honest _ := hs.1
  settled hc := by
    change k = .spin at hc
    simp [hc, Control.stopping] at hstop
  control := htrusts
  worker _ r hw := (h.worker hold r hw).mono hs.2

/-- The control thread goes on stopping the worker. -/
theorem Truth.moveStopping {k : Control} {s : Signals}
    (hk : Handshake { σ with control := k, signals := s })
    (ho : Obeys { σ with control := k, signals := s }) (hstop : k.stopping = true)
    (hspin : k ≠ .spin) : Truth { σ with control := k, signals := s } where
  handshake := hk
  obeys := ho
  honest hc := by simp [hstop] at hc
  settled hc := absurd hc hspin
  control := .of_stopping hstop
  worker hc := by simp [hstop] at hc

theorem Truth.controlStep (hpos : ∀ i, 0 < intervals i) (h : Truth σ)
    (hl : Truthful σ (.control ok)) (hs : σ.controlStep intervals ok = some σ') : Truth σ' := by
  have hk := h.handshake.controlStep hs
  have ho := h.obeys.controlStep h.handshake hl.not_deserts hs
  have hknows := h.handshake.control
  have htrusts := h.control
  unfold State.controlStep at hs
  split at hs <;> rename_i hc <;> rw [hc] at hknows htrusts <;>
    simp only [Option.map_eq_some_iff, Option.some.injEq, reduceCtorEq] at hs <;>
    simp only [Control.Knows] at hknows
  case h_2 =>
    subst hs
    have hold : σ.control.stopping = false := by rw [hc]; rfl
    revert hk ho
    split <;> intro hk ho <;> rename_i hrun
    · refine h.moveControl hk ho rfl hold ⟨h.honest hold, id⟩ (h.honest hold ?_)
      by_contra hle
      exact hl (by simp only [Misleads, hc]; exact ⟨hrun, not_lt.1 hle⟩)
    · exact h.moveControl hk ho rfl hold ⟨h.honest hold, id⟩ trivial
  case h_3 =>
    subst hs
    have hnone := h.handshake.stopped hknows (by simp [hc])
    exact ⟨hk, ho, fun _ => h.honest (by rw [hc]; rfl), by simp, trivial, by simp [hnone]⟩
  case h_4 =>
    subst hs
    exact ⟨hk, ho, fun _ => h.honest (by rw [hc]; rfl), by simp, trivial, by simp [hknows]⟩
  case h_5 =>
    subst hs
    refine ⟨hk, ho, fun _ => h.honest (by rw [hc]; rfl), by simp, trivial, fun _ r hw => ?_⟩
    change (if ok = true then some (Run.pop 0) else σ.worker) = some (.rearm r) at hw
    simp [hknows.2.1] at hw
  case h_6 res =>
    subst hs
    have hold : σ.control.stopping = false := by rw [hc]; rfl
    refine h.moveControl hk ho rfl hold ⟨h.honest hold, id⟩ ?_
    cases res
    · trivial
    · exact htrusts
  case h_7 r hne =>
    obtain ⟨p, hr, rfl⟩ := hs
    have hold : σ.control.stopping = false := by rw [hc]; rfl
    have hsound : r.Sound σ.signals ok := by
      unfold Rearm.Sound
      split
      · intro hok
        by_contra harm
        exact hl (by simp only [Misleads, hc]; exact ⟨hok, harm⟩)
      · trivial
    obtain ⟨hr', hs'⟩ := Rearm.Knows.step hpos htrusts (h.honest hold) hsound hr
    exact h.moveControl hk ho rfl hold hs' hr'
  case h_8 res =>
    subst hs
    have hold : σ.control.stopping = false := by rw [hc]; rfl
    exact h.moveControl hk ho rfl hold ⟨h.honest hold, id⟩ trivial
  case h_9 =>
    subst hs
    have hold : σ.control.stopping = false := by rw [hc]; rfl
    revert hk ho
    split <;> intro hk ho
    · exact .moveStopping hk ho rfl (by simp)
    · exact h.moveControl hk ho rfl hold ⟨h.honest hold, id⟩ trivial
  case h_10 res =>
    subst hs
    exact .moveStopping hk ho rfl (by simp)
  case h_11 u hne =>
    obtain ⟨p, hu, rfl⟩ := hs
    exact .moveStopping hk ho rfl (by simp)
  case h_12 =>
    subst hs
    obtain ⟨w, hw⟩ := Option.isSome_iff_exists.1 (h.obeys.launched hknows (by rw [hc]; rfl))
    refine ⟨hk, ho, by simp [Control.stopping], fun _ hset => ?_, trivial,
      by simp [Control.stopping]⟩
    -- The worker is in its loop, and has not unset the timer yet.
    have hloop : w.looping = false := by cases w <;> simp_all [Run.looping, Run.settled]
    simp [h.obeys.leaving w hw hloop] at hknows
  case h_13 =>
    subst hs
    revert hk ho
    split <;> intro hk ho
    · exact h
    · rename_i hdone
      have hnone : σ.worker = none := by
        by_contra hw
        exact hdone (h.handshake.flag (Option.isSome_iff_ne_none.2 hw))
      exact ⟨hk, ho, fun _ => h.settled hc (by simp [hnone]), by simp, trivial, by simp [hnone]⟩

theorem Truth.next (hpos : ∀ i, 0 < intervals i) (h : Truth σ) {l : Label} (hl : Truthful σ l)
    (hn : σ.next intervals l = some σ') : Truth σ' := by
  have hk := h.handshake.next hn
  have ho := h.obeys.next h.handshake hl.not_deserts hn
  cases l <;> simp only [State.next] at hn
  case start | stop =>
    split at hn
    · rename_i hc
      have hold : σ.control.stopping = false := by rw [hc]; rfl
      cases hn
      exact h.moveControl hk ho rfl hold ⟨h.honest hold, id⟩ trivial
    · cases hn
  case control => exact h.controlStep hpos hl hn
  case worker => exact h.workerStep hpos hl hn

theorem Truth.initial (b : Bool) : Truth (.initial b) where
  handshake := .initial b
  obeys := .initial b
  honest _ := by simp [State.initial, Signals.initial, Signals.Honest]
  settled _ _ := by simp [State.initial, Signals.initial, Signals.Honest]
  control := trivial
  worker := by simp [State.initial]

/-- The invariant holds in every run whose steps do not mislead. -/
theorem truth_of_run {tr : List (State × Label)} (hr : (system c rand).Run Truthful σ tr σ')
    (h : Truth σ) : Truth σ' :=
  hr.invariant (fun _ _ _ ha hl hn => ha.next (c.timingIntervals_pos rand) hl hn) h

/-! ## The status -/

/-- In a run whose steps do not mislead, while no start or stop is in progress,
    `isRunning` is true exactly when a worker has been launched and has not left
    `Processor::run`; and the timer is armed when start returns true. -/
theorem status_truthful (c : SamplingInterval) (rand : ℕ → ℕ) {b : Bool} {σ : State}
    {tr : List (State × Label)} (hr : (system c rand).Run Truthful (.initial b) tr σ) :
    (σ.control = .idle → (σ.isRunning = true ↔ σ.worker.isSome)) ∧
      (σ.control = .started true → σ.signals.itimer.Armed) := by
  have h := truth_of_run hr (.initial b)
  refine ⟨fun hc => ⟨fun hrun => h.obeys.launched hrun (by rw [hc]; rfl), fun hsome => ?_⟩, fun hc => ?_⟩
  · by_contra hrun
    have hnone := h.handshake.stopped (by simpa using hrun) (by simp [hc])
    simp [hnone] at hsome
  · have htrusts := h.control
    rwa [hc] at htrusts

/-- A start up to its return, whose `RunAgentThread` gives `launched`. -/
def startUp (launched : Bool) : List Label :=
  .start :: List.replicate 3 (.control true) ++ .control launched ::
    List.replicate 12 (.control true)

/-- A start that returns true, and the timer is armed. -/
theorem status_truthful_started : ∃ σ : State, σ.control = .started true ∧
    σ.isRunning = true ∧ σ.worker.isSome ∧ σ.signals.itimer.Armed := by
  have hrun : ((system (setSamplingInterval 1 1) fun _ => 0).exec Truthful (.initial false)
      (startUp true)).any (fun σ => decide (σ.control = .started true ∧ σ.isRunning = true ∧
        σ.worker.isSome)) = true := by
    decide +kernel
  obtain ⟨tr, σ, hr, hσ⟩ := System.exists_run_of_exec hrun
  obtain ⟨hstarted, hrun, hw⟩ := of_decide_eq_true hσ
  exact ⟨σ, hstarted, hrun, hw, (status_truthful _ _ hr).2 hstarted⟩

/-- `RunAgentThread` fails and start returns: the profiler is running, without a
    worker. -/
theorem exists_untruthful : ¬∀ (σ : State) (tr : List (State × Label)),
    (system (setSamplingInterval 1 1) fun _ => 0).Run System.anyStep (.initial false) tr σ →
      (σ.control = .idle → (σ.isRunning = true ↔ σ.worker.isSome)) ∧
        (σ.control = .started true → σ.signals.itimer.Armed) := by
  intro hall
  have hrun : ((system (setSamplingInterval 1 1) fun _ => 0).exec System.anyStep (.initial false)
      (startUp false ++ [.control true])).any (fun σ => decide (σ.control = .idle ∧
        σ.isRunning = true ∧ σ.worker = none)) = true := by
    decide +kernel
  obtain ⟨tr, σ, hr, hσ⟩ := System.exists_run_of_exec hrun
  obtain ⟨hidle, hrun, hw⟩ := of_decide_eq_true hσ
  simpa [hw] using ((hall σ tr hr).1 hidle).1 hrun

end FkProf.Processor
