import FkProf.Processor

/-!
# Stop does not hang

`Processor::start` sets `workerDone` and launches the worker, the worker clears
it when it leaves `Processor::run`, and `Processor::stop` spins until it finds it
clear, setting it again. The worker may leave by itself, with `isRunning_` set,
so that stop finds the flag clear at once.

In any run at most one worker exists, and while it does the flag is set
(`Handshake`). The flag may be set without a worker when `RunAgentThread` has
failed: the failure is logged, the profiler counts as running, and the next stop
spins for ever with the lock held. In a run where no `RunAgentThread` fails, the
flag is clear or the worker exists whenever stop spins (`Attended`).

* `handshake_of_run`: the invariant, in any run;
* `stop_returns`: stop can return from every state in which it spins, in a run
  where every worker is launched;
* `exists_hang`: a run in which `RunAgentThread` fails.
-/

namespace FkProf.Processor

variable {c : SamplingInterval} {rand : ℕ → ℕ} {intervals : ℕ → ℤ} {σ σ' : State} {ok : Bool}

/-! ## The worker -/

/-- What a step of the worker does to the handshake: it leaves it alone, or is the
    last one, which clears `workerDone`. -/
theorem State.workerStep_flags (h : σ.workerStep intervals ok = some σ') :
    σ.worker.isSome ∧ σ'.isRunning = σ.isRunning ∧ σ'.control = σ.control ∧
      (σ'.worker.isSome ∧ σ'.workerDone = σ.workerDone ∨
        σ'.worker = none ∧ σ'.workerDone = false) := by
  unfold State.workerStep at h
  split at h <;> simp only [Option.map_eq_some_iff, Option.some.injEq, reduceCtorEq] at h
  case h_2 hw | h_3 hw | h_4 hw | h_6 hw | h_7 hw =>
    subst h
    simp [hw]
  case h_5 hw | h_8 hw =>
    obtain ⟨p, -, rfl⟩ := h
    simp [hw]
  case h_9 hw =>
    subst h
    simp [hw]

/-! ## The handshake -/

/-- What the control thread knows of the flags. -/
def Control.Knows (σ : State) : Control → Prop
  | .idle | .testStart | .testStop => True
  | .storeRunning => σ.isRunning = false
  | .testAndSet => σ.isRunning = true ∧ σ.worker = none
  | .runAgentThread => σ.isRunning = true ∧ σ.worker = none ∧ σ.workerDone = true
  | .rearm _ | .started _ | .stopSigprof _ | .clearRunning => σ.isRunning = true
  | .spin => σ.isRunning = false

/-- The invariant of the handshake. -/
structure Handshake (σ : State) : Prop where
  /-- While the worker exists, the flag is set. -/
  flag : σ.worker.isSome → σ.workerDone = true
  /-- The worker of a profiler that does not run is the one that stop waits for. -/
  stopped : σ.isRunning = false → σ.control ≠ .spin → σ.worker = none
  control : σ.control.Knows σ

theorem Handshake.workerStep (h : Handshake σ) (hs : σ.workerStep intervals ok = some σ') :
    Handshake σ' := by
  obtain ⟨hw, hrun, hctl, hcase⟩ := State.workerStep_flags hs
  have hne : σ.worker ≠ none := fun h => by simp [h] at hw
  refine ⟨fun hw' => ?_, fun hrun' hctl' => ?_, ?_⟩
  · rcases hcase with ⟨-, hdone⟩ | ⟨hnone, -⟩
    · rw [hdone]
      exact h.flag hw
    · simp [hnone] at hw'
  · exact absurd (h.stopped (hrun ▸ hrun') (hctl ▸ hctl')) hne
  · have hk := h.control
    rw [hctl]
    cases hc : σ.control <;> simp only [hc, Control.Knows, hrun] at hk ⊢
    case testAndSet => exact absurd hk.2 hne
    case runAgentThread => exact absurd hk.2.1 hne
    all_goals exact hk

theorem Handshake.controlStep (h : Handshake σ) (hs : σ.controlStep intervals ok = some σ') :
    Handshake σ' := by
  obtain ⟨hflag, hstopped, hk⟩ := h
  unfold State.controlStep at hs
  split at hs <;> rename_i hc <;> rw [hc] at hk <;>
    simp only [Option.map_eq_some_iff, Option.some.injEq, reduceCtorEq] at hs <;>
    simp only [Control.Knows] at hk
  case h_2 =>
    subst hs
    have hst := fun h => hstopped h (by simp [hc])
    refine ⟨hflag, fun hr _ => hst hr, ?_⟩
    cases hr : σ.isRunning <;> simp [Control.Knows]
  case h_3 =>
    subst hs
    exact ⟨hflag, by simp, rfl, hstopped hk (by simp [hc])⟩
  case h_4 =>
    subst hs
    exact ⟨fun _ => rfl, by simp [hk.1], hk.1, hk.2, rfl⟩
  case h_5 =>
    subst hs
    exact ⟨fun _ => hk.2.2, by simp [hk.1], hk.1⟩
  case h_6 | h_10 =>
    subst hs
    exact ⟨hflag, by simp [hk], by simp [Control.Knows, hk]⟩
  case h_7 | h_11 =>
    obtain ⟨p, -, rfl⟩ := hs
    exact ⟨hflag, by simp [hk], by simp [Control.Knows, hk]⟩
  case h_8 =>
    subst hs
    exact ⟨hflag, by simp [hk], trivial⟩
  case h_9 =>
    subst hs
    have hst := fun h => hstopped h (by simp [hc])
    refine ⟨hflag, fun hr _ => hst hr, ?_⟩
    cases hr : σ.isRunning <;> simp [Control.Knows]
  case h_12 =>
    subst hs
    exact ⟨hflag, by simp, rfl⟩
  case h_13 =>
    subst hs
    cases hd : σ.workerDone
    · have hnone : σ.worker = none := by
        cases hw : σ.worker with
        | none => rfl
        | some w => simp [hflag (by simp [hw])] at hd
      exact ⟨by simp, fun _ _ => by simp [hnone], by simp [Control.Knows]⟩
    · exact ⟨by simpa using hflag, by simp [hc], by simpa [hc, Control.Knows] using hk⟩

theorem Handshake.next (h : Handshake σ) {l : Label} (hn : σ.next intervals l = some σ') :
    Handshake σ' := by
  cases l <;> simp only [State.next] at hn
  case start | stop =>
    split at hn
    · rename_i hc
      cases hn
      exact ⟨h.flag, fun hr _ => h.stopped hr (by simp [hc]), trivial⟩
    · cases hn
  case control => exact h.controlStep hn
  case worker => exact h.workerStep hn

theorem Handshake.initial (b : Bool) : Handshake (.initial b) :=
  ⟨by simp [State.initial], by simp [State.initial], trivial⟩

/-- The invariant holds in every run. -/
theorem handshake_of_run {ok : State → Label → Prop} {tr : List (State × Label)}
    (hr : (system c rand).Run ok σ tr σ') (h : Handshake σ) : Handshake σ' :=
  hr.invariant (fun _ _ _ ha _ hn => ha.next hn) h

/-! ## Every worker is launched -/

/-- The call of `RunAgentThread` of this step, if there is one, does not fail. -/
def Launches (σ : State) : Label → Prop
  | .control ok => σ.control = .runAgentThread → ok = true
  | _ => True

instance (σ : State) : ∀ l, Decidable (Launches σ l)
  | .control ok => inferInstanceAs (Decidable (σ.control = .runAgentThread → ok = true))
  | .worker _ | .start | .stop => .isTrue trivial

/-- The flag is clear, or the worker that will clear it exists. -/
def State.Attended (σ : State) : Prop := σ.workerDone = false ∨ σ.worker.isSome

/-- Where the control thread is about to launch the worker. -/
def Control.launching : Control → Bool
  | .testAndSet | .runAgentThread => true
  | _ => false

/-- A profiler that runs is attended, and so is one that stop waits for. -/
def State.Waits (σ : State) : Prop :=
  (σ.isRunning = true ∧ σ.control.launching = false ∨ σ.control = .spin) → σ.Attended

theorem State.Waits.of_workerStep (hs : σ.workerStep intervals ok = some σ') : σ'.Waits := by
  obtain ⟨hw, hrun, hctl, hcase⟩ := State.workerStep_flags hs
  intro _
  rcases hcase with ⟨hsome, -⟩ | ⟨-, hdone⟩
  · exact .inr hsome
  · exact .inl hdone

theorem State.Waits.controlStep (h : σ.Waits) (hk : Handshake σ)
    (hl : Launches σ (.control ok)) (hs : σ.controlStep intervals ok = some σ') : σ'.Waits := by
  have hknows := hk.control
  unfold State.controlStep at hs
  split at hs <;> rename_i hc <;>
    simp only [Option.map_eq_some_iff, Option.some.injEq, reduceCtorEq] at hs <;>
    simp only [State.Waits, State.Attended, hc, Control.launching, Control.Knows, Launches,
      reduceCtorEq, and_true, or_false, and_false, forall_const]
      at h hknows hl ⊢
  case h_2 | h_9 =>
    subst hs
    intro hr
    cases hrun : σ.isRunning <;> simp_all
  case h_3 | h_4 =>
    subst hs
    simp
  case h_5 =>
    subst hs
    simp [hl]
  case h_6 | h_8 | h_10 | h_12 =>
    subst hs
    simpa [hknows] using h
  case h_7 | h_11 =>
    obtain ⟨p, -, rfl⟩ := hs
    simpa [hknows] using h
  case h_13 =>
    subst hs
    cases hd : σ.workerDone
    · simp [hknows]
    · exact fun _ => .inr (by simpa [hd] using h)

theorem State.Waits.next (h : σ.Waits) (hk : Handshake σ) {l : Label} (hl : Launches σ l)
    (hn : σ.next intervals l = some σ') : σ'.Waits := by
  cases l <;> simp only [State.next] at hn
  case start | stop =>
    split at hn
    · rename_i hc
      cases hn
      simpa [State.Waits, State.Attended, hc, Control.launching] using h
    · cases hn
  case control => exact h.controlStep hk hl hn
  case worker => exact .of_workerStep hn

/-! ## The worker leaves -/

/-- How many steps are left of `updateSigprofInterval(timingInterval)`, at most. -/
def Update.rank : Update → ℕ
  | .compare => 7
  | .storeSec => 6
  | .storeUsec => 5
  | .copySec => 4
  | .copyUsec => 3
  | .setitimer => 2
  | .storeInterval => 1
  | .done _ => 0

/-- How many steps are left of `updateSigprofInterval()`, at most. -/
def Rearm.rank : Rearm → ℕ
  | .load => 11
  | .update _ u => u.rank + 3
  | .loadIndex _ => 2
  | .storeIndex _ _ => 1
  | .done _ => 0

/-- How many steps are left of `Processor::run`, at most, if the queue is empty and
    `isRunning_` is false. -/
def Run.rank : Run → ℕ
  | .pop _ => 23
  | .test _ => 22
  | .rearm r => r.rank + 10
  | .loadRunning _ => 9
  | .stopSigprof u => u.rank + 1
  | .clear => 0

theorem Update.exists_step (t : ℤ) (ok : Bool) (s : Signals) {u : Update}
    (hu : ∀ res, u ≠ .done res) :
    ∃ u' s', u.step t ok s = some (u', s') ∧ u'.rank < u.rank := by
  cases u <;> simp only [Update.step]
  case compare =>
    refine ⟨_, _, rfl, ?_⟩
    split <;> simp [Update.rank]
  case setitimer => cases ok <;> exact ⟨_, _, rfl, by simp [Update.rank]⟩
  case done res => exact absurd rfl (hu res)
  all_goals exact ⟨_, _, rfl, by simp [Update.rank]⟩

theorem Rearm.exists_step (intervals : ℕ → ℤ) (ok : Bool) (s : Signals) {r : Rearm}
    (hr : ∀ res, r ≠ .done res) :
    ∃ r' s', r.step intervals ok s = some (r', s') ∧ r'.rank < r.rank := by
  cases r
  case update t u =>
    by_cases hu : ∃ res, u = .done res
    · obtain ⟨res, rfl⟩ := hu
      exact ⟨_, _, rfl, by simp [Rearm.rank]⟩
    · obtain ⟨u', s', hs, hlt⟩ := Update.exists_step t ok s fun res h => hu ⟨res, h⟩
      refine ⟨.update t u', s', ?_, by simpa [Rearm.rank] using hlt⟩
      cases u <;> simp_all [Rearm.step]
  case done res => exact absurd rfl (hr res)
  all_goals exact ⟨_, _, rfl, by simp [Rearm.rank, Update.rank]⟩

/-- While stop waits for it, a worker that finds the queue empty gets closer to
    leaving with every step, whatever `setitimer` does. -/
theorem State.exists_workerStep (intervals : ℕ → ℤ) {w : Run} (hrun : σ.isRunning = false) (hw : σ.worker = some w) :
    ∃ σ', σ.workerStep intervals false = some σ' ∧ σ'.isRunning = false ∧
      σ'.control = σ.control ∧
      (σ'.worker = none ∧ σ'.workerDone = false ∨
        ∃ w', σ'.worker = some w' ∧ w'.rank < w.rank) := by
  suffices h : ∃ σ', σ.workerStep intervals false = some σ' ∧
      ∀ w', σ'.worker = some w' → w'.rank < w.rank by
    obtain ⟨σ', hs, hlt⟩ := h
    obtain ⟨-, hrun', hctl, hcase⟩ := State.workerStep_flags hs
    refine ⟨σ', hs, hrun' ▸ hrun, hctl, ?_⟩
    cases hw' : σ'.worker with
    | none => exact .inl ⟨rfl, by simpa [hw'] using hcase⟩
    | some w' => exact .inr ⟨w', rfl, hlt w' hw'⟩
  cases w
  case pop n => exact ⟨_, by rw [State.workerStep, hw], by simp [Run.rank]⟩
  case test n =>
    refine ⟨_, by rw [State.workerStep, hw], ?_⟩
    split <;> simp [Run.rank, Rearm.rank]
  case loadRunning n =>
    exact ⟨_, by rw [State.workerStep, hw], by simp [hrun, Run.rank, Update.rank]⟩
  case clear => exact ⟨_, by rw [State.workerStep, hw], by simp⟩
  case rearm r =>
    by_cases hr : ∃ res, r = .done res
    · obtain ⟨res, rfl⟩ := hr
      refine ⟨_, by rw [State.workerStep, hw], ?_⟩
      cases res <;> simp [Run.rank, Rearm.rank, Update.rank]
    · obtain ⟨r', s', hs, hlt⟩ := Rearm.exists_step intervals false σ.signals fun res h =>
        hr ⟨res, h⟩
      refine ⟨{ σ with worker := some (.rearm r'), signals := s' }, ?_,
        by simpa [Run.rank] using hlt⟩
      cases r <;> simp_all [State.workerStep]
  case stopSigprof u =>
    by_cases hu : ∃ res, u = .done res
    · obtain ⟨res, rfl⟩ := hu
      exact ⟨_, by rw [State.workerStep, hw], by simp [Run.rank, Update.rank]⟩
    · obtain ⟨u', s', hs, hlt⟩ := Update.exists_step 0 false σ.signals fun res h => hu ⟨res, h⟩
      refine ⟨{ σ with worker := some (.stopSigprof u'), signals := s' }, ?_,
        by simpa [Run.rank] using hlt⟩
      cases u <;> simp_all [State.workerStep]

/-- Stop returns when it finds the flag clear. -/
theorem run_spin (hspin : σ.control = .spin) (hdone : σ.workerDone = false) :
    ∃ tr σ', (system c rand).Run Launches σ tr σ' ∧ σ'.control = .idle :=
  ⟨_, { σ with control := .idle, workerDone := true },
    System.Run.single (show Launches σ (.control true) from fun _ => rfl)
      (by simp [system, State.next, State.controlStep, hspin, hdone]), rfl⟩

/-- The worker that stop waits for leaves, and stop returns. -/
theorem exists_return {w : Run} (hrun : σ.isRunning = false) (hspin : σ.control = .spin)
    (hw : σ.worker = some w) :
    ∃ tr σ', (system c rand).Run Launches σ tr σ' ∧ σ'.control = .idle := by
  induction hn : w.rank using Nat.strong_induction_on generalizing σ w with
  | _ n ih =>
    obtain ⟨σ₁, hs, hrun₁, hctl₁, hcase⟩ :=
      State.exists_workerStep (c.timingIntervals rand) hrun hw
    have hstep : (system c rand).Run Launches σ [(σ, .worker false)] σ₁ :=
      System.Run.single trivial hs
    have hspin₁ : σ₁.control = .spin := hctl₁.trans hspin
    rcases hcase with ⟨-, hdone⟩ | ⟨w', hw', hlt⟩
    · obtain ⟨tr, σ', hr, hidle⟩ := run_spin hspin₁ hdone
      exact ⟨_, σ', hstep.trans hr, hidle⟩
    · obtain ⟨tr, σ', hr, hidle⟩ := ih _ (hn ▸ hlt) hrun₁ hspin₁ hw' rfl
      exact ⟨_, σ', hstep.trans hr, hidle⟩

/-! ## Stop -/

theorem State.Waits.initial (b : Bool) : (State.initial b).Waits := by
  simp [State.Waits, State.initial]

theorem waits_of_run {tr : List (State × Label)} (hr : (system c rand).Run Launches σ tr σ')
    (h : Handshake σ) (hw : σ.Waits) : Handshake σ' ∧ σ'.Waits :=
  hr.invariant (I := fun σ => Handshake σ ∧ σ.Waits)
    (fun _ _ _ ha hl hn => ⟨ha.1.next hn, ha.2.next ha.1 hl hn⟩) ⟨h, hw⟩

/-- In a run in which no `RunAgentThread` fails, whenever `Processor::stop` is
    spinning, `workerDone` is clear or the worker that clears it has not left
    `Processor::run`; and stop can return. -/
theorem stop_returns (c : SamplingInterval) (rand : ℕ → ℕ) {b : Bool} {σ : State}
    {tr : List (State × Label)} (hr : (system c rand).Run Launches (.initial b) tr σ)
    (hspin : σ.control = .spin) :
    (σ.workerDone = false ∨ σ.worker.isSome) ∧
      ∃ tr' σ', (system c rand).Run Launches σ tr' σ' ∧ σ'.control = .idle := by
  obtain ⟨hk, hw⟩ := waits_of_run hr (.initial b) (.initial b)
  have hatt : σ.Attended := hw (.inr hspin)
  refine ⟨hatt, ?_⟩
  rcases hatt with hdone | hsome
  · exact run_spin hspin hdone
  · obtain ⟨w, hw⟩ := Option.isSome_iff_exists.1 hsome
    have hrun := hk.control
    rw [hspin] at hrun
    exact exists_return hrun hspin hw

/-- A start whose `RunAgentThread` gives `launched`, and a stop up to where it
    spins, with nothing else happening. -/
def startStop (launched : Bool) : List Label :=
  .start :: List.replicate 3 (.control true) ++ .control launched ::
    List.replicate 13 (.control true) ++ .stop :: List.replicate 10 (.control true)

/-- Stop waits for the worker that start has launched. -/
theorem stop_returns_once : ∃ σ : State, σ.control = .spin ∧ σ.workerDone = true ∧
    (σ.workerDone = false ∨ σ.worker.isSome) := by
  have hrun : ((system (setSamplingInterval 1 1) fun _ => 0).exec Launches (.initial false)
      (startStop true)).any (fun σ => decide (σ.control = .spin ∧ σ.workerDone = true)) = true := by
    decide +kernel
  obtain ⟨tr, σ, hr, hσ⟩ := System.exists_run_of_exec hrun
  obtain ⟨hspin, hdone⟩ := of_decide_eq_true hσ
  exact ⟨σ, hspin, hdone, (stop_returns _ _ hr hspin).1⟩

/-- `RunAgentThread` fails, start returns true, and the stop spins on a flag that
    nobody will clear. -/
theorem exists_hang : ¬∀ (σ : State) (tr : List (State × Label)),
    (system (setSamplingInterval 1 1) fun _ => 0).Run System.anyStep (.initial false) tr σ →
      σ.control = .spin → σ.workerDone = false ∨ σ.worker.isSome := by
  intro hall
  have hrun : ((system (setSamplingInterval 1 1) fun _ => 0).exec System.anyStep (.initial false)
      (startStop false)).any (fun σ => decide (σ.control = .spin ∧ σ.workerDone = true ∧
        σ.worker = none)) = true := by
    decide +kernel
  obtain ⟨tr, σ, hr, hσ⟩ := System.exists_run_of_exec hrun
  obtain ⟨hspin, hdone, hw⟩ := of_decide_eq_true hσ
  simpa [hdone, hw] using hall σ tr hr hspin

end FkProf.Processor
