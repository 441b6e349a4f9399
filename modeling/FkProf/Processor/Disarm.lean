import FkProf.Processor.Status

/-!
# The timer after stop

Stop unsets the timer, and then the worker once more, when it has seen that the profiler no
longer runs; in between the worker may re-arm the timer. `currentInterval` is meant to tell
whether there is anything to unset: the calls of `setitimer` and the stores to
`currentInterval` are steps of their own, though, and two threads may take them in different
orders.

`Masks` is the one step after which the worker may be misled: stop stores 0 to
`currentInterval` while the timer is armed, and the worker, which has armed it, has made its
own store already.

* `Rearm.step_effect`: what `updateSigprofInterval()` does, when `setitimer` succeeds;
* `disarmable_of_run`: the invariant of the runs without that step;
* `stop_disarms`: when stop returns in these runs, the timer is not armed;
* `exists_armed`: a run with that step, after which it is.
-/

namespace FkProf.Processor

variable {c : SamplingInterval} {rand : ℕ → ℕ} {intervals : ℕ → ℤ} {σ σ' : State} {ok : Bool}

/-- A timer that is not running. -/
def Itimerval.Disarmed (t : Itimerval) : Prop := t.valueSec = 0 ∧ t.valueUsec = 0

instance (t : Itimerval) : Decidable t.Disarmed := inferInstanceAs (Decidable (_ ∧ _))

/-- The interval in force, in microseconds. -/
def Itimerval.inForce (t : Itimerval) : ℤ :=
  if t.Disarmed then 0 else t.intervalSec * 1000000 + t.intervalUsec

/-- `updateSigprofInterval()` is going to store its interval, if `setitimer` succeeds. -/
def Rearm.storing : Rearm → Bool
  | .update _ (.done _) | .update _ .compare => false
  | .update _ _ => true
  | _ => false

/-- The worker is going to store an interval. -/
def State.storing (σ : State) : Prop := ∃ r, σ.worker = some (.rearm r) ∧ r.storing = true

/-- `currentInterval` hides an armed timer, and the worker is not about to change that. -/
def State.Masked (σ : State) : Prop :=
  σ.signals.currentInterval = 0 ∧ ¬σ.signals.itimer.Disarmed ∧ ¬σ.storing

/-- The control thread calls `setitimer`. -/
def Control.Setting : Control → Prop
  | .rearm (.update _ .setitimer) | .stopSigprof .setitimer => True
  | _ => False

/-- The worker does. -/
def Run.Setting : Run → Prop
  | .rearm (.update _ .setitimer) | .stopSigprof .setitimer => True
  | _ => False

/-- A call of `setitimer` fails. -/
def Fails (σ : State) : Label → Prop
  | .control ok => ok = false ∧ σ.control.Setting
  | .worker ok => ok = false ∧ ∃ r ∈ σ.worker, r.Setting
  | _ => False

/-- Stop stores 0 while the timer is armed, and the worker is not about to store its interval. -/
def Masks (σ : State) : Label → Prop
  | .control _ =>
    σ.control = .stopSigprof .storeInterval ∧ ¬σ.signals.itimer.Disarmed ∧
      ∀ r, σ.worker = some (.rearm r) → r.storing = false
  | _ => False

/-- The calls of `setitimer` succeed. -/
def Succeeds (σ : State) (l : Label) : Prop := ¬Fails σ l

/-- They do, and no step hides an armed timer. -/
def Unmasked (σ : State) (l : Label) : Prop := Succeeds σ l ∧ ¬Masks σ l

instance (c : Control) : Decidable c.Setting := by
  unfold Control.Setting
  split <;> infer_instance

instance (r : Run) : Decidable r.Setting := by
  unfold Run.Setting
  split <;> infer_instance

instance (σ : State) : ∀ l, Decidable (Fails σ l)
  | .control ok => inferInstanceAs (Decidable (ok = false ∧ σ.control.Setting))
  | .worker ok => inferInstanceAs (Decidable (ok = false ∧ ∃ r ∈ σ.worker, r.Setting))
  | .start | .stop => .isFalse id

instance (σ : State) (l : Label) : Decidable (Succeeds σ l) :=
  inferInstanceAs (Decidable ¬Fails σ l)

instance (r : Option Run) : Decidable (∀ r', r = some (.rearm r') → r'.storing = false) :=
  match r with
  | some (.rearm r') =>
    decidable_of_iff (r'.storing = false) ⟨fun h _ he => by cases he; exact h, fun h => h r' rfl⟩
  | none => isTrue fun _ he => nomatch he
  | some (.pop _) => isTrue fun _ he => nomatch he
  | some (.test _) => isTrue fun _ he => nomatch he
  | some (.loadRunning _) => isTrue fun _ he => nomatch he
  | some (.stopSigprof _) => isTrue fun _ he => nomatch he
  | some .clear => isTrue fun _ he => nomatch he

instance (σ : State) : ∀ l, Decidable (Masks σ l)
  | .control _ =>
    inferInstanceAs (Decidable (σ.control = .stopSigprof .storeInterval ∧
      ¬σ.signals.itimer.Disarmed ∧ ∀ r, σ.worker = some (.rearm r) → r.storing = false))
  | .worker _ | .start | .stop => .isFalse id

instance (σ : State) (l : Label) : Decidable (Unmasked σ l) :=
  inferInstanceAs (Decidable (Succeeds σ l ∧ ¬Masks σ l))

/-! ## Re-arming -/

/-- The interval is positive. -/
def Rearm.Positive : Rearm → Prop
  | .update t _ => 0 < t
  | _ => True

/-- `updateSigprofInterval(timingInterval)` has returned. -/
def Rearm.updated : Rearm → Bool
  | .update _ (.done _) | .loadIndex _ | .storeIndex _ _ | .done _ => true
  | _ => false

/-- What a step of `updateSigprofInterval()` does to the variables: it stores a positive
    interval, or none; and if it arms the timer, it is going to store one. -/
structure Rearm.Effect (r : Rearm) (s : Signals) (r' : Rearm) (s' : Signals) : Prop where
  positive : r'.Positive
  failed : r.failed = false → r'.failed = false
  current : s'.currentInterval = s.currentInterval ∨ 0 < s'.currentInterval
  itimer : s'.itimer = s.itimer ∨ r'.storing = true
  storing : r.storing = true → r'.storing = true ∨ 0 < s'.currentInterval
  updated : r'.updated = true → r.updated = true ∨ 0 < s'.currentInterval

section Effects

variable {s s' : Signals} {r r' : Rearm}

theorem Rearm.step_effect (hpos : ∀ i, 0 < intervals i) (h : r.Positive)
    (hok : ∀ t, r = .update t .setitimer → ok = true)
    (hr : r.step intervals ok s = some (r', s')) : r.Effect s r' s' := by
  unfold Rearm.step at hr
  split at hr <;> simp only [Option.map_eq_some_iff, Option.some.injEq, reduceCtorEq] at hr
  case h_1 =>
    obtain ⟨rfl, rfl⟩ := Prod.mk.inj hr
    exact ⟨hpos _, fun _ => rfl, .inl rfl, .inl rfl, by simp [storing], by simp [Rearm.updated]⟩
  case h_2 t res =>
    obtain ⟨rfl, rfl⟩ := Prod.mk.inj hr
    exact ⟨trivial, by cases res <;> simp [Rearm.failed], .inl rfl, .inl rfl, by simp [Rearm.storing],
      fun _ => .inl rfl⟩
  case h_3 t u hne =>
    obtain ⟨p, hu, hp⟩ := hr
    obtain ⟨rfl, rfl⟩ := Prod.mk.inj hp
    cases u <;> simp only [Update.step, Option.some.injEq, reduceCtorEq] at hu <;> subst hu
    case compare =>
      refine ⟨h, fun _ => ?_, .inl rfl, .inl rfl, by simp [Rearm.storing], fun hupdated => ?_⟩
      · dsimp only
        split_ifs <;> rfl
      · dsimp only at hupdated ⊢
        split_ifs at hupdated with heq
        · exact .inr (heq ▸ h)
        · cases hupdated
    case setitimer =>
      rw [hok t rfl, if_pos rfl]
      exact ⟨h, fun _ => rfl, .inl rfl, .inr rfl, fun _ => .inl rfl, by simp [Rearm.updated]⟩
    case storeInterval =>
      exact ⟨h, fun _ => rfl, .inr h, .inl rfl, fun _ => .inr h, fun _ => .inr h⟩
    all_goals
      exact ⟨h, fun _ => rfl, .inl rfl, .inl rfl, fun _ => .inl rfl, by simp [Rearm.updated]⟩
  case h_4 res =>
    obtain ⟨rfl, rfl⟩ := Prod.mk.inj hr
    exact ⟨trivial, by cases res <;> simp [Rearm.failed], .inl rfl, .inl rfl, by simp [Rearm.storing],
      fun _ => .inl rfl⟩
  case h_5 res i =>
    obtain ⟨rfl, rfl⟩ := Prod.mk.inj hr
    exact ⟨trivial, by cases res <;> simp [Rearm.failed], .inl rfl, .inl rfl, by simp [Rearm.storing],
      fun _ => .inl rfl⟩

/-- What the worker knows when it unsets the timer, alone. -/
def Update.Unsets (s : Signals) : Update → Prop
  | .storeUsec => s.timer.intervalSec = 0
  | .copySec => s.timer.intervalSec = 0 ∧ s.timer.intervalUsec = 0
  | .copyUsec => s.timer.valueSec = 0 ∧ s.timer.intervalUsec = 0
  | .setitimer => s.timer.Disarmed
  | .storeInterval => s.itimer.Disarmed
  | .done _ => s.itimer.Disarmed ∧ s.currentInterval = 0
  | _ => True

theorem Update.Unsets.step {u u' : Update} (h : u.Unsets s)
    (hmask : s.currentInterval = 0 → s.itimer.Disarmed) (hok : u = .setitimer → ok = true)
    (hu : u.step 0 ok s = some (u', s')) :
    u'.Unsets s' ∧ (s'.currentInterval = 0 → s'.itimer.Disarmed) := by
  cases u <;> simp only [Update.step, Option.some.injEq, reduceCtorEq] at hu
  case compare =>
    obtain ⟨rfl, rfl⟩ := Prod.mk.inj hu
    refine ⟨?_, hmask⟩
    split_ifs with heq
    · exact ⟨hmask heq.symm, heq.symm⟩
    · trivial
  case storeSec =>
    obtain ⟨rfl, rfl⟩ := Prod.mk.inj hu
    exact ⟨rfl, hmask⟩
  case storeUsec =>
    obtain ⟨rfl, rfl⟩ := Prod.mk.inj hu
    exact ⟨⟨h, rfl⟩, hmask⟩
  case copySec =>
    obtain ⟨rfl, rfl⟩ := Prod.mk.inj hu
    exact ⟨h, hmask⟩
  case copyUsec =>
    obtain ⟨rfl, rfl⟩ := Prod.mk.inj hu
    exact ⟨h, hmask⟩
  case setitimer =>
    rw [hok rfl, if_pos rfl] at hu
    obtain ⟨rfl, rfl⟩ := Prod.mk.inj hu
    exact ⟨h, fun _ => h⟩
  case storeInterval =>
    obtain ⟨rfl, rfl⟩ := Prod.mk.inj hu
    exact ⟨⟨h, rfl⟩, fun _ => h⟩

end Effects

/-! ## The invariant -/

/-- What the control thread sees of the timer. -/
def Control.Sees (σ : State) : Control → Prop
  | .idle | .testStart | .testStop | .started _ =>
    σ.isRunning = true → 0 < σ.signals.currentInterval
  | .rearm r =>
    r.Positive ∧ r.failed = false ∧ (r.updated = true → 0 < σ.signals.currentInterval)
  | .stopSigprof .compare => 0 < σ.signals.currentInterval
  | .stopSigprof (.done _) | .clearRunning | .spin => ¬σ.Masked
  | _ => True

/-- What the worker sees of it. -/
def Run.Sees (s : Signals) : Run → Prop
  | .rearm r => r.Positive ∧ r.failed = false
  | .stopSigprof u => u.Unsets s
  | .clear => s.itimer.Disarmed ∧ s.currentInterval = 0
  | _ => True

/-- The invariant of the runs in which no step hides an armed timer. -/
structure Disarmable (σ : State) : Prop where
  handshake : Handshake σ
  flagged : σ.isRunning = true → σ.control ≠ .testAndSet → σ.workerDone = true
  leaving : ∀ w, σ.worker = some w → w.looping = false → σ.isRunning = false
  control : σ.control.Sees σ
  worker : ∀ w, σ.worker = some w → w.Sees σ.signals
  left : σ.control = .spin → σ.worker = none → σ.workerDone = false →
    σ.signals.itimer.Disarmed ∧ σ.signals.currentInterval = 0

theorem Control.Sees.mono {k : Control} (h : k.Sees σ) (hrun : σ'.isRunning = σ.isRunning)
    (hcur : σ'.signals.currentInterval = σ.signals.currentInterval ∨
      0 < σ'.signals.currentInterval) (hmask : ¬σ.Masked → ¬σ'.Masked) : k.Sees σ' := by
  have hpos : 0 < σ.signals.currentInterval → 0 < σ'.signals.currentInterval := fun hpos =>
    hcur.elim (fun he => he ▸ hpos) id
  unfold Control.Sees at h ⊢
  split
  case h_5 => exact ⟨h.1, h.2.1, fun hu => hpos (h.2.2 hu)⟩
  case h_6 => exact hpos h
  case h_7 | h_8 | h_9 => exact hmask h
  case h_10 => trivial
  all_goals exact fun hr => hpos (h (hrun ▸ hr))

section Preservation

/-- The worker that unsets the timer is alone. -/
theorem Disarmable.alone (h : Disarmable σ) {w : Run} (hw : σ.worker = some w)
    (hl : w.looping = false) : σ.control = .spin := by
  by_contra hc
  simp [h.handshake.stopped (h.leaving w hw hl) hc] at hw

/-- While it is not, the worker relies on none of the variables. -/
theorem Disarmable.sees (h : Disarmable σ) (hc : σ.control ≠ .spin) (s : Signals) (w : Run)
    (hw : σ.worker = some w) : w.Sees s := by
  have hsees := h.worker w hw
  cases w with
  | stopSigprof u => exact absurd (h.alone hw rfl) hc
  | clear => exact absurd (h.alone hw rfl) hc
  | rearm r => exact hsees
  | pop n => trivial
  | test n => trivial
  | loadRunning n => trivial

/-- The worker goes on. -/
theorem Disarmable.moveWorker (h : Disarmable σ) {w : Run} {s : Signals}
    (hk : Handshake { σ with worker := some w, signals := s })
    (hleave : w.looping = false → σ.isRunning = false)
    (hcur : s.currentInterval = σ.signals.currentInterval ∨ 0 < s.currentInterval ∨
      σ.control = .spin)
    (hmask : ¬σ.Masked → ¬State.Masked { σ with worker := some w, signals := s })
    (hworker : w.Sees s) : Disarmable { σ with worker := some w, signals := s } where
  handshake := hk
  flagged := h.flagged
  leaving := by
    rintro _ ⟨⟩
    exact hleave
  control := by
    have hcontrol := h.control
    rcases hcur with hcur | hcur | hspin
    · exact hcontrol.mono rfl (.inl hcur) hmask
    · exact hcontrol.mono rfl (.inr hcur) hmask
    · show σ.control.Sees _
      rw [hspin] at hcontrol ⊢
      exact hmask hcontrol
  worker := by
    rintro _ ⟨⟩
    exact hworker
  left := fun _ hnone => (by cases hnone)

theorem Disarmable.workerStep (hpos : ∀ i, 0 < intervals i) (h : Disarmable σ)
    (hl : Succeeds σ (.worker ok)) (hs : σ.workerStep intervals ok = some σ') : Disarmable σ' := by
  have hk := h.handshake.workerStep hs
  -- The steps within `run` itself leave the signal handler alone.
  have hkeep : ∀ w : Run, ¬σ.storing → (w.looping = false → σ.isRunning = false) →
      w.Sees σ.signals → Handshake { σ with worker := some w, signals := σ.signals } →
      Disarmable { σ with worker := some w, signals := σ.signals } := fun w hst hleave hsees hk =>
    h.moveWorker hk hleave (.inl rfl) (fun hm hm' => hm ⟨hm'.1, hm'.2.1, hst⟩) hsees
  have hstoring : ∀ w, σ.worker = some w → (∀ r, w = .rearm r → r.storing = false) →
      ¬σ.storing := by
    rintro w hw hr ⟨r, hw', hst⟩
    rw [hw] at hw'
    cases hw'
    rw [hr r rfl] at hst
    cases hst
  unfold State.workerStep at hs
  split at hs <;> rename_i hw <;>
    simp only [Option.map_eq_some_iff, Option.some.injEq, reduceCtorEq] at hs
  case h_2 n =>
    subst hs
    cases ok <;> exact hkeep _ (hstoring _ hw (by simp)) (by simp [Run.looping]) trivial hk
  case h_3 n =>
    subst hs
    have hst := hstoring _ hw (by simp)
    revert hk
    split_ifs <;> intro hk
    · exact hkeep _ hst (by simp [Run.looping]) ⟨trivial, rfl⟩ hk
    · exact hkeep _ hst (by simp [Run.looping]) trivial hk
  case h_4 res =>
    subst hs
    have hst := hstoring _ hw (by rintro _ ⟨⟩; rfl)
    have hres := (h.worker _ hw).2
    cases res
    · cases hres
    · exact hkeep _ hst (by simp [Run.looping]) trivial hk
  case h_5 r hne =>
    obtain ⟨⟨r', s'⟩, hr, rfl⟩ := hs
    obtain ⟨hp, hf⟩ := h.worker _ hw
    have he := Rearm.step_effect hpos hp (fun t ht => by
      by_contra hok
      exact hl (by simp only [Fails, hw, ht]; exact ⟨by simpa using hok, _, rfl, trivial⟩)) hr
    refine h.moveWorker hk (by simp [Run.looping]) (he.current.imp_right .inl) ?_
      ⟨he.positive, he.failed hf⟩
    rintro hm ⟨hzero, harmed, hst⟩
    have hcur := he.current.resolve_right (fun hlt => absurd hzero hlt.ne')
    have hnot : ¬r'.storing = true := fun hst' => hst ⟨r', rfl, hst'⟩
    refine hm ⟨hcur ▸ hzero, he.itimer.resolve_right hnot ▸ harmed, ?_⟩
    rintro ⟨r₀, hw₀, hst₀⟩
    rw [hw] at hw₀
    cases hw₀
    exact (he.storing hst₀).elim hnot fun hlt => absurd hzero hlt.ne'
  case h_6 n =>
    subst hs
    have hst := hstoring _ hw (by simp)
    revert hk
    split_ifs with hrun <;> intro hk
    · exact hkeep _ hst (by simp [Run.looping]) trivial hk
    · exact hkeep _ hst (fun _ => by simpa using hrun) trivial hk
  case h_7 res =>
    subst hs
    have hsees := h.worker _ hw
    exact hkeep _ (hstoring _ hw (by simp)) (fun _ => h.leaving _ hw rfl) hsees hk
  case h_8 u hne =>
    obtain ⟨⟨u', s'⟩, hu, rfl⟩ := hs
    have hspin := h.alone hw rfl
    have hcontrol := h.control
    rw [hspin] at hcontrol
    have hst := hstoring _ hw (by simp)
    obtain ⟨hunsets, hzero⟩ := Update.Unsets.step (h.worker _ hw)
      (fun hzero => by_contra fun harmed => hcontrol ⟨hzero, harmed, hst⟩) (fun hu' => by
        by_contra hok
        exact hl (by simp only [Fails, hw, hu']; exact ⟨by simpa using hok, _, rfl, trivial⟩)) hu
    exact h.moveWorker hk (fun _ => h.leaving _ hw rfl) (.inr (.inr hspin))
      (fun _ hm => hm.2.1 (hzero hm.1)) hunsets
  case h_9 =>
    subst hs
    have hspin := h.alone hw rfl
    have hsees := h.worker _ hw
    have hrun := h.leaving _ hw rfl
    refine ⟨hk, fun hr => ?_, by simp, ?_, by simp, fun _ _ _ => hsees⟩
    · change σ.isRunning = true at hr
      rw [hrun] at hr
      cases hr
    · show σ.control.Sees _
      rw [hspin]
      exact fun hm => hm.2.1 hsees.1

/-- The control thread goes on, and stop does not wait for the worker yet. -/
theorem Disarmable.moveControl (h : Disarmable σ) {k : Control} {s : Signals}
    (hk : Handshake { σ with control := k, signals := s }) (hold : σ.control ≠ .spin)
    (hset : σ.control ≠ .testAndSet) (hspin : k ≠ .spin)
    (hsees : k.Sees { σ with control := k, signals := s }) :
    Disarmable { σ with control := k, signals := s } where
  handshake := hk
  flagged hr _ := h.flagged hr hset
  leaving := h.leaving
  control := hsees
  worker := h.sees hold s
  left hc := absurd hc hspin

theorem Disarmable.controlStep (hpos : ∀ i, 0 < intervals i) (h : Disarmable σ)
    (hl : Unmasked σ (.control ok)) (hs : σ.controlStep intervals ok = some σ') : Disarmable σ' := by
  have hk := h.handshake.controlStep hs
  have hknows := h.handshake.control
  have hsees := h.control
  unfold State.controlStep at hs
  split at hs <;> rename_i hc <;> rw [hc] at hknows hsees <;>
    simp only [Option.map_eq_some_iff, Option.some.injEq, reduceCtorEq] at hs <;>
    simp only [Control.Knows] at hknows
  case h_2 =>
    subst hs
    revert hk
    split_ifs <;> intro hk
    · exact h.moveControl hk (by simp [hc]) (by simp [hc]) (by simp) hsees
    · exact h.moveControl hk (by simp [hc]) (by simp [hc]) (by simp) trivial
  case h_3 =>
    subst hs
    have hnone := h.handshake.stopped hknows (by simp [hc])
    exact ⟨hk, fun _ hne => absurd rfl hne, by simp [hnone], trivial, by simp [hnone], by simp⟩
  case h_4 =>
    subst hs
    exact ⟨hk, fun _ _ => rfl, by simp [hknows], trivial, by simp [hknows], by simp⟩
  case h_5 =>
    subst hs
    have hflag := h.flagged hknows.1 (by simp [hc])
    refine ⟨hk, fun _ _ => hflag, ?_, ⟨trivial, rfl, by simp [Rearm.updated]⟩, ?_, by simp⟩
    · cases ok <;> simp [hknows, Run.looping]
    · cases ok <;> simp [hknows, Run.Sees]
  case h_6 res =>
    subst hs
    exact h.moveControl hk (by simp [hc]) (by simp [hc]) (by simp) fun _ => hsees.2.2 rfl
  case h_7 r hne =>
    obtain ⟨⟨r', s'⟩, hr, rfl⟩ := hs
    obtain ⟨hp, hf, hu⟩ := hsees
    have he := Rearm.step_effect hpos hp (fun t ht => by
      by_contra hok
      exact hl.1 (by simp only [Fails, hc, ht]; exact ⟨by simpa using hok, trivial⟩)) hr
    refine h.moveControl hk (by simp [hc]) (by simp [hc]) (by simp)
      ⟨he.positive, he.failed hf, fun hu' => ?_⟩
    rcases he.updated hu' with hu' | hlt
    · exact he.current.elim (fun hcur => hcur ▸ hu hu') id
    · exact hlt
  case h_8 res =>
    subst hs
    exact h.moveControl hk (by simp [hc]) (by simp [hc]) (by simp) hsees
  case h_9 =>
    subst hs
    revert hk
    split_ifs with hrun <;> intro hk
    · exact h.moveControl hk (by simp [hc]) (by simp [hc]) (by simp) (hsees hrun)
    · exact h.moveControl hk (by simp [hc]) (by simp [hc]) (by simp) fun hr => absurd hr hrun
  case h_10 res =>
    subst hs
    exact h.moveControl hk (by simp [hc]) (by simp [hc]) (by simp) hsees
  case h_11 u hne =>
    obtain ⟨⟨u', s'⟩, hu, rfl⟩ := hs
    refine h.moveControl hk (by simp [hc]) (by simp [hc]) (by simp) ?_
    cases u <;> simp only [Update.step, Option.some.injEq, reduceCtorEq] at hu
    case compare =>
      obtain ⟨rfl, rfl⟩ := Prod.mk.inj hu
      rw [if_neg (show ¬(0 : ℤ) = σ.signals.currentInterval from (ne_of_lt hsees))]
      trivial
    case setitimer =>
      have hok : ok = true := by
        by_contra hok
        exact hl.1 (by simp only [Fails, hc]; exact ⟨by simpa using hok, trivial⟩)
      rw [hok, if_pos rfl] at hu
      obtain ⟨rfl, rfl⟩ := Prod.mk.inj hu
      trivial
    case storeInterval =>
      obtain ⟨rfl, rfl⟩ := Prod.mk.inj hu
      rintro ⟨-, harmed, hst⟩
      refine hl.2 ⟨hc, harmed, fun r hw => ?_⟩
      by_contra hr
      exact hst ⟨r, hw, by simpa using hr⟩
    all_goals
      obtain ⟨rfl, rfl⟩ := Prod.mk.inj hu
      trivial
  case h_12 =>
    subst hs
    have hflag := h.flagged hknows (by simp [hc])
    exact ⟨hk, by simp, fun _ _ _ => rfl, hsees, h.sees (by simp [hc]) _,
      fun _ _ hdone => by simp [hflag] at hdone⟩
  case h_13 =>
    subst hs
    revert hk
    split_ifs with hdone <;> intro hk
    · exact h
    · have hnone : σ.worker = none := by
        by_contra hw
        exact hdone (h.handshake.flag (Option.isSome_iff_ne_none.2 hw))
      exact ⟨hk, fun _ _ => rfl, by simp [hnone], fun hr => by simp [hknows] at hr, by simp [hnone],
        by simp⟩

theorem Disarmable.next (hpos : ∀ i, 0 < intervals i) (h : Disarmable σ) {l : Label}
    (hl : Unmasked σ l) (hn : σ.next intervals l = some σ') : Disarmable σ' := by
  have hk := h.handshake.next hn
  cases l <;> simp only [State.next] at hn
  case start | stop =>
    split at hn
    · rename_i hc
      cases hn
      have hsees := h.control
      rw [hc] at hsees
      exact h.moveControl hk (by simp [hc]) (by simp [hc]) (by simp) hsees
    · cases hn
  case control => exact h.controlStep hpos hl hn
  case worker => exact h.workerStep hpos hl.1 hn

theorem Disarmable.initial (b : Bool) : Disarmable (.initial b) :=
  ⟨.initial b, by simp [State.initial], by simp [State.initial], by simp [State.initial, Control.Sees],
    by simp [State.initial], by simp [State.initial]⟩

/-- The invariant holds in every run in which no step hides an armed timer. -/
theorem disarmable_of_run {tr : List (State × Label)} (hr : (system c rand).Run Unmasked σ tr σ')
    (h : Disarmable σ) : Disarmable σ' :=
  hr.invariant (fun _ _ _ ha hl hn => ha.next (c.timingIntervals_pos rand) hl hn) h

end Preservation

/-! ## Stop -/

/-- In every run in which the calls of `setitimer` succeed and no step hides an armed timer:
    when stop returns, the timer is not armed, and `currentInterval` is the interval in
    force. -/
theorem stop_disarms (c : SamplingInterval) (rand : ℕ → ℕ) {b ok : Bool} {σ σ' : State}
    {tr : List (State × Label)} (hr : (system c rand).Run Unmasked (.initial b) tr σ)
    (hspin : σ.control = .spin) (hn : (system c rand).next σ (.control ok) = some σ')
    (hret : σ'.control = .idle) :
    σ'.signals.itimer.Disarmed ∧ σ'.signals.currentInterval = σ'.signals.itimer.inForce := by
  have h := disarmable_of_run hr (.initial b)
  change σ.controlStep _ ok = some σ' at hn
  rw [State.controlStep, hspin] at hn
  simp only [Option.some.injEq] at hn
  split_ifs at hn with hdone
  · subst hn
    rw [hspin] at hret
    cases hret
  · subst hn
    have hnone : σ.worker = none := by
      by_contra hw
      exact hdone (h.handshake.flag (Option.isSome_iff_ne_none.2 hw))
    obtain ⟨hdisarmed, hzero⟩ := h.left hspin hnone (by simpa using hdone)
    refine ⟨hdisarmed, ?_⟩
    dsimp only
    rw [hzero, Itimerval.inForce, if_pos hdisarmed]

/-- Stop returns once the worker has left. -/
theorem next_of_left (hspin : σ.control = .spin) (hdone : σ.workerDone = false) :
    (system c rand).next σ (.control ok) = some { σ with control := .idle, workerDone := true } := by
  show σ.controlStep _ ok = _
  rw [State.controlStep, hspin]
  simp [hdone]

/-- A start and its return. -/
def started : List Label := startUp true ++ [.control true]

/-- A stop that runs alone, until it waits for the worker, which leaves. -/
def stopped : List Label :=
  .stop :: List.replicate 10 (.control true) ++ .worker false :: List.replicate 5 (.worker true)

/-- A stop past its call of `setitimer`; the worker, which has popped 201 traces, re-arms the
    timer; then stop goes on, and the worker leaves. -/
def overtaken : List Label :=
  .stop :: List.replicate 7 (.control true) ++
    (List.replicate 201 (.worker true) ++ .worker false :: List.replicate 13 (.worker true)) ++
      (List.replicate 3 (.control true) ++ List.replicate 4 (.worker true))

theorem stop_disarms_once : ∃ σ σ' : State, σ.control = .spin ∧ σ'.control = .idle ∧
    σ'.signals.itimer.Disarmed ∧ σ'.signals.currentInterval = σ'.signals.itimer.inForce := by
  have hrun : ((system (setSamplingInterval 1 1) fun _ => 0).exec Unmasked (.initial false)
      (started ++ stopped)).any (fun σ => decide (σ.control = .spin ∧
        σ.workerDone = false)) = true := by
    decide +kernel
  obtain ⟨tr, σ, hr, hσ⟩ := System.exists_run_of_exec hrun
  obtain ⟨hspin, hdone⟩ := of_decide_eq_true hσ
  exact ⟨σ, _, hspin, rfl, stop_disarms _ _ hr hspin (@next_of_left _ _ σ true hspin hdone) rfl⟩

/-- With intervals of 1 and 2 microseconds: stop returns, `currentInterval` is 0, and the timer
    runs. -/
theorem exists_armed : ¬∀ (σ σ' : State) (tr : List (State × Label)) (ok : Bool),
    (system (setSamplingInterval 1 2) id).Run Succeeds (.initial false) tr σ → σ.control = .spin →
      (system (setSamplingInterval 1 2) id).next σ (.control ok) = some σ' → σ'.control = .idle →
        σ'.signals.itimer.Disarmed ∧
          σ'.signals.currentInterval = σ'.signals.itimer.inForce := by
  intro hall
  have hrun : ((system (setSamplingInterval 1 2) id).exec Succeeds (.initial false)
      (started ++ overtaken)).any (fun σ => decide (σ.control = .spin ∧ σ.workerDone = false ∧
        ¬σ.signals.itimer.Disarmed)) = true := by
    decide +kernel
  obtain ⟨tr, σ, hr, hσ⟩ := System.exists_run_of_exec hrun
  obtain ⟨hspin, hdone, harmed⟩ := of_decide_eq_true hσ
  exact harmed (hall σ _ tr true hr hspin (next_of_left hspin hdone) rfl).1

end FkProf.Processor
