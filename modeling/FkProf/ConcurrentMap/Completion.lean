import FkProf.ConcurrentMap.Coordination

/-!
# A migration is completed once

The last worker of a migration completes it: it publishes the destination, or
builds the migration that follows. `run` tests whether the migration has ended
and adds the thread to the workers in two steps. A thread that is paused between
the two may come when the last worker has left: it is then the last worker once
more, and completes the migration a second time. The table that it publishes may
be the one that it passes to `DefaultGC.scheduleDelete`.

* `completed_once`: in every run in which no thread comes so late, a migration is
  completed once, and the current table is never scheduled for deletion;
* `exists_completed_twice`: a run in which the current table is.
-/

namespace FkProf.ConcurrentMap

variable {Tid Key : Type*}

/-! ## Counting steps -/

/-- The number of steps of a trace made by calls of a kind. -/
def steps (q : Shared Tid → Call Key → Bool) (tr : List (State Tid Key × Label Tid Key)) : ℕ :=
  tr.countP fun (σ, l) => match l with
    | .step t => (σ.calls t).any (q σ.shared)
    | .call .. => false

/-- The call passes the last-worker check of the migration, line 440. -/
def lastWorker (j : JobId) (S : Shared Tid) (c : Call Key) : Bool :=
  match c.pc with
  | .run _ i .leave => i = j ∧ (S.jobs j).state ≤ 3
  | _ => false

/-- The call enters `finishMigration` for the migration, line 665. -/
def finishes (j : JobId) (_ : Shared Tid) (c : Call Key) : Bool :=
  match c.pc with
  | .complete _ i .finishLoad => i = j
  | _ => false

/-- A migration is completed at most once. -/
structure CompletedOnce (tr : List (State Tid Key × Label Tid Key)) (σ : State Tid Key) : Prop where
  last : ∀ j, steps (lastWorker j) tr ≤ 1
  finish : ∀ j, steps (finishes j) tr ≤ 1
  current : σ.shared.current ∉ σ.shared.scheduled

/-- The thread is the last worker, and has not yet entered `finishMigration`. -/
def Pc.Due (j : JobId) (pc : Pc) : Prop :=
  pc.Completes j ∧ ∀ root old, pc ≠ .complete root j (.finishStore old) ∧
    pc ≠ .complete root j (.finishDelete old)

section Steps

variable {H : Hasher Key} {signalSafeReaders : Bool} {S S' : Shared Tid} {c c' : Call Key}
  {t : Tid} {j : JobId}

theorem Pc.completes_run {root : TableId} {i : JobId} {pc : RunPc} :
    (Pc.run root i pc).Completes j ↔ i = j ∧ pc = .loadOverflowed := by
  by_cases hij : i = j <;> cases pc <;> simp [Completes, position, hij, Position.completer]

theorem Pc.completes_complete {root : TableId} {i : JobId} {pc : CompletePc} :
    (Pc.complete root i pc).Completes j ↔ i = j := by
  by_cases hij : i = j <;> simp [Completes, position, hij, Position.completer]

theorem Pc.not_completes_migrate {root : TableId} {i : JobId} {s T index last : ℕ}
    {pc : MigratePc} : ¬(Pc.migrate root i s T index last pc).Completes j := by
  by_cases hij : i = j <;> simp [Completes, position, hij, Position.completer]

theorem Pc.not_completes {pc : Pc} (hpos : ∀ i, pc.position i = none) : ¬pc.Completes j := by
  rw [Completes, hpos]
  exact Bool.false_ne_true

theorem Call.not_completes_participate (c : Call Key) (root : TableId)
    (prevJob cjob : JobCoordinator) : ¬(c.participate root prevJob cjob).pc.Completes j := by
  rw [participate.eq_def]
  split_ifs
  · exact Pc.not_completes fun _ => rfl
  · cases cjob with
    | job i => exact fun hc => nomatch (Pc.completes_run.1 hc).2
    | null | ended => exact Pc.not_completes fun _ => rfl

theorem Call.not_completes_insert (c : Call Key) (T : HashTable Tid) (root : TableId)
    (next : InsertNext) : ¬(c.afterInsert T root next).pc.Completes j := by
  rcases next with pc | out | _ | _ <;> exact Pc.not_completes fun _ => rfl

/-- A thread becomes the last worker by passing the check. -/
theorem Call.due_step (hs : c.step H signalSafeReaders S t = some (S', c')) (hd : c'.pc.Due j) :
    c.pc.Due j ∨ lastWorker j S c = true := by
  obtain ⟨hcomp, hne⟩ := hd
  obtain ⟨op, doubleSize, pc⟩ := c
  cases pc with
  | run root i pc =>
    rw [Call.step_run] at hs
    cases hs
    cases hn : ((S.jobs i).runStep S.outline.size pc).2 with
    | goto pc' =>
      simp only [hn, Pc.afterRun, Pc.completes_run] at hcomp
      obtain ⟨rfl, rfl⟩ := hcomp
      obtain ⟨rfl, hle⟩ := leave_of_last hn
      exact .inr (by simpa [lastWorker] using hle)
    | complete overflow =>
      simp only [hn, Pc.afterRun, Pc.completes_complete] at hcomp
      subst hcomp
      refine .inl ⟨Pc.completes_run.2 ⟨rfl, loadOverflowed_of_complete hn⟩, fun _ _ => ?_⟩
      simp
    | migrateRange => simp [hn, Pc.afterRun, Pc.not_completes_migrate] at hcomp
    | done | crash => simp [hn, Pc.afterRun, Pc.Completes, Pc.position] at hcomp
  | complete root i pc =>
    obtain ⟨⟨S₁, next⟩, hstep, he⟩ := Option.map_eq_some_iff.1 hs
    cases he
    cases next with
    | done | crash => exact absurd hcomp (Pc.not_completes fun _ => rfl)
    | goto pc' =>
      obtain rfl := Pc.completes_complete.1 hcomp
      refine .inl ⟨Pc.completes_complete.2 rfl, fun root' old => ⟨?_, ?_⟩⟩
      · rintro ⟨⟩
        cases hstep
        exact (hne root old).2 rfl
      · rintro ⟨⟩
        cases hstep
  | migrate root i s T index last pc =>
    rw [Call.step_migrate] at hs
    cases hs
    cases hn : (migrateStep S (S.jobs i).dest T index last pc).2 with
    | goto => simp [hn, Pc.afterMigrate, Pc.not_completes_migrate] at hcomp
    | done overflow =>
      cases overflow <;> simp [hn, Pc.afterMigrate, Pc.completes_run] at hcomp
  | insert root pc =>
    rw [Call.step_insert] at hs
    cases hs
    exact (Call.not_completes_insert _ _ _ _ hcomp).elim
  | start root pc =>
    obtain ⟨⟨S₁, next⟩, -, he⟩ := Option.map_eq_some_iff.1 hs
    cases he
    cases next <;> exact absurd hcomp (Pc.not_completes fun _ => rfl)
  | participate root prevJob | await root prevJob =>
    cases hs
    exact (Call.not_completes_participate _ _ _ _ hcomp).elim
  | removeCas root i old =>
    simp only [Call.step] at hs
    split_ifs at hs <;> cases hs <;> exact absurd hcomp (Pc.not_completes fun _ => rfl)
  | loadCurrent =>
    cases hs
    refine absurd hcomp (Pc.not_completes fun _ => ?_)
    cases op <;> rfl
  | find root i =>
    cases hs
    refine absurd hcomp (Pc.not_completes fun _ => ?_)
    cases op <;> dsimp only [Call.goto] <;> split_ifs <;> rfl
  | findNext root i | getValue root i | removeLoad root i =>
    cases hs
    refine absurd hcomp (Pc.not_completes fun _ => ?_)
    dsimp only [Call.goto]
    split_ifs <;> rfl
  | ret | crashed => cases hs

end Steps

/-! ## Runs -/

section Runs

variable [Fintype Tid] [DecidableEq Tid] {H : Hasher Key} {signalSafeReaders : Bool}
  {S S' : Shared Tid} {c c' : Call Key} {t : Tid} {j : JobId} {pcs : Tid → Option Pc}
  {σ σ' : State Tid Key} {tr : List (State Tid Key × Label Tid Key)}

omit [DecidableEq Tid] in
/-- A migration that the last worker has left remains closed. -/
theorem Coordination.closed_step (h : Coordination S.outline pcs) (ht : pcs t = some c.pc)
    (hl : c.OnTime S) (hs : c.step H signalSafeReaders S t = some (S', c')) (hj : j < S.nJobs)
    (hclosed : (S.jobs j).state = 1) : j < S'.nJobs ∧ (S'.jobs j).state = 1 := by
  cases Call.step_changes hs with
  | cells x ho =>
    exact ⟨hj.trans_eq (congrArg Outline.nJobs ho).symm, by
      rwa [show S'.jobs = S.jobs from congrArg Outline.jobs ho]⟩
  | run root i pc hpc he =>
    subst he
    refine ⟨hj, ?_⟩
    by_cases hij : j = i
    · subst hij
      have hon : pc.OnTime (S.jobs j) := by
        rw [Call.OnTime, hpc] at hl
        exact hl
      show (Function.update S.jobs j _ j).state = 1
      rw [Function.update_self]
      exact (h.runs j hj).closed_step (t := t) (by simp [runs_eq ht, hpc, Pc.position]) hon hclosed
    · show (Function.update S.jobs i _ j).state = 1
      rwa [Function.update_of_ne hij]
  | begins root n hpc he =>
    subst he
    refine ⟨hj.trans (Nat.lt_succ_self _), ?_⟩
    show (Function.update S.jobs S.nJobs _ j).state = 1
    rwa [Function.update_of_ne hj.ne]
  | ends root i T hpc hT he =>
    subst he
    exact ⟨hj, hclosed⟩
  | restart root i T hpc he =>
    subst he
    refine ⟨hj.trans (Nat.lt_succ_self _), ?_⟩
    show (Function.update (Function.update S.jobs i (S.jobs i).handedOver) S.nJobs _ j).state = 1
    rw [Function.update_of_ne hj.ne]
    by_cases hij : j = i
    · subst hij
      rwa [Function.update_self]
    · rwa [Function.update_of_ne hij]
  | publish root i old hpc he =>
    subst he
    rw [Shared.publish]
    split_ifs <;> exact ⟨hj, hclosed⟩
  | schedule root i old hpc he =>
    subst he
    exact ⟨hj, hclosed⟩

omit [DecidableEq Tid] in
/-- Tables remain retired, and those scheduled for deletion are. -/
theorem Coordination.scheduled_step (h : Coordination S.outline pcs) (ht : pcs t = some c.pc)
    (hs : c.step H signalSafeReaders S t = some (S', c'))
    (hsch : ∀ T ∈ S.scheduled, T ∈ S.retired) : ∀ T ∈ S'.scheduled, T ∈ S'.retired := by
  cases Call.step_changes hs with
  | cells x ho hd =>
    rw [show S'.retired = S.retired from congrArg Outline.retired ho, hd]
    exact hsch
  | begins root n hpc he =>
    subst he
    exact hsch
  | ends root i T hpc hT he =>
    subst he
    exact hsch
  | run root i pc hpc he =>
    subst he
    exact hsch
  | restart root i T hpc he =>
    subst he
    exact hsch
  | publish root i old hpc he =>
    subst he
    rw [Shared.publish]
    split_ifs
    · exact hsch
    · exact fun T hT => List.mem_cons_of_mem _ (hsch T hT)
  | schedule root i old hpc he =>
    subst he
    have hok := h.ok t _ ht
    rw [hpc] at hok
    intro T hT
    rcases List.mem_cons.1 hT with rfl | hT
    · exact hok.2.2
    · exact hsch T hT

/-- What is so of the completions in a run. -/
structure Completion (tr : List (State Tid Key × Label Tid Key)) (σ : State Tid Key) : Prop where
  coordination : Coordination σ.shared.outline σ.pcs
  last : ∀ j, steps (lastWorker j) tr ≤ 1
  closed : ∀ j, 0 < steps (lastWorker j) tr →
    j < σ.shared.nJobs ∧ (σ.shared.jobs j).state = 1
  due : ∀ t c j, σ.calls t = some c → c.pc.Due j → 0 < steps (lastWorker j) tr
  finish : ∀ j, steps (finishes j) tr ≤ 1
  finished : ∀ j, 0 < steps (finishes j) tr →
    0 < steps (lastWorker j) tr ∧ ∀ t c, σ.calls t = some c → ¬c.pc.Due j
  scheduled : ∀ T ∈ σ.shared.scheduled, T ∈ σ.shared.retired

omit [Fintype Tid] [DecidableEq Tid] in
theorem steps_append (q : Shared Tid → Call Key → Bool) (l : Label Tid Key) :
    steps q (tr ++ [(σ, l)]) = steps q tr + steps q [(σ, l)] := List.countP_append

omit [Fintype Tid] [DecidableEq Tid] in
theorem steps_step (q : Shared Tid → Call Key → Bool) (hc : σ.calls t = some c) :
    steps q [(σ, .step t)] = (q σ.shared c).toNat := by
  simp only [steps, List.countP_singleton, hc, Option.any_some]
  cases q σ.shared c <;> rfl

/-- The last worker leaves the migration closed. -/
theorem Coordination.lastWorker_step (h : Coordination S.outline pcs) (ht : pcs t = some c.pc)
    (hs : c.step H signalSafeReaders S t = some (S', c')) (hw : lastWorker j S c = true) :
    j < S.nJobs ∧ (S.jobs j).state ≠ 1 ∧ j < S'.nJobs ∧ (S'.jobs j).state = 1 := by
  obtain ⟨op, doubleSize, pc⟩ := c
  simp only [lastWorker] at hw
  split at hw
  · rename_i root i
    obtain ⟨rfl, hle⟩ := of_decide_eq_true hw
    have hj : i < S.nJobs := (h.ok t _ ht).1.lt
    have h₃ := (h.runs i hj).closed_of_last (t := t) (by simp [runs_eq ht, Pc.position]) hle
    rw [Call.step_run] at hs
    cases hs
    have h₃ : (S.jobs i).state = 3 := h₃
    refine ⟨hj, by omega, hj, ?_⟩
    show (Function.update S.jobs i _ i).state = 1
    rw [Function.update_self]
    show (S.jobs i).state - 2 = 1
    omega
  · cases hw

omit [Fintype Tid] [DecidableEq Tid] in
theorem Call.finishes_step (hs : c.step H signalSafeReaders S t = some (S', c'))
    (hf : finishes j S c = true) : c.pc.Due j ∧ ¬c'.pc.Due j := by
  obtain ⟨op, doubleSize, pc⟩ := c
  simp only [finishes] at hf
  split at hf
  · rename_i root i
    obtain rfl := of_decide_eq_true hf
    cases hs
    exact ⟨⟨Pc.completes_complete.2 rfl, fun _ _ => by simp⟩, fun hd => (hd.2 root _).1 rfl⟩
  · cases hf

/-- A step of a call keeps it. -/
theorem Completion.callStep (h : Completion tr σ) (hc : σ.calls t = some c)
    (hl : c.OnTime σ.shared) (hs : c.step H signalSafeReaders σ.shared t = some (S', c'))
    {hist : List (Op Key × ValueType)}
    (hnext : Coordination S'.outline
      (State.pcs ⟨S', Function.update σ.calls t (some c'), hist⟩)) :
    Completion (tr ++ [(σ, .step t)]) ⟨S', Function.update σ.calls t (some c'), hist⟩ := by
  have ht : σ.pcs t = some c.pc := by simp [State.pcs, hc]
  have hworker := fun {j} => h.coordination.lastWorker_step (j := j) ht hs
  have hdone := fun {j} => Call.finishes_step (j := j) hs
  refine ⟨hnext, fun j => ?_, fun j hj => ?_, fun u d j hd hdue => ?_, fun j => ?_,
    fun j hj => ?_, h.coordination.scheduled_step ht hs h.scheduled⟩
  · rw [steps_append, steps_step _ hc]
    cases hw : lastWorker j σ.shared c with
    | false => exact h.last j
    | true =>
      have hz : ¬0 < steps (lastWorker j) tr := fun hp => (hworker hw).2.1 (h.closed j hp).2
      rw [Bool.toNat_true]
      omega
  · rw [steps_append, steps_step _ hc] at hj
    cases hw : lastWorker j σ.shared c with
    | false =>
      rw [hw] at hj
      obtain ⟨hlt, hs₁⟩ := h.closed j hj
      exact h.coordination.closed_step ht hl hs hlt hs₁
    | true => exact (hworker hw).2.2
  · rw [steps_append, steps_step _ hc]
    rcases ThreadSum.update_eq_some_iff.1 hd with ⟨rfl, he⟩ | ⟨-, hd⟩
    · cases he
      rcases Call.due_step hs hdue with hdue | hw
      · exact Nat.add_pos_left (h.due u c j hc hdue) _
      · rw [hw]
        exact Nat.succ_pos _
    · exact Nat.add_pos_left (h.due u d j hd hdue) _
  · rw [steps_append, steps_step _ hc]
    cases hf : finishes j σ.shared c with
    | false => exact h.finish j
    | true =>
      have hz : ¬0 < steps (finishes j) tr := fun hp => (h.finished j hp).2 t c hc (hdone hf).1
      rw [Bool.toNat_true]
      omega
  · have hlt := fun u d (hd : σ.calls u = some d) => h.due u d j hd
    rw [steps_append, steps_step _ hc] at hj ⊢
    cases hf : finishes j σ.shared c with
    | true =>
      obtain ⟨hdue, hnot⟩ := hdone hf
      refine ⟨Nat.add_pos_left (hlt t c hc hdue) _, fun u d hd hdue' => ?_⟩
      rcases ThreadSum.update_eq_some_iff.1 hd with ⟨rfl, he⟩ | ⟨hu, hd⟩
      · cases he
        exact hnot hdue'
      · exact hu (h.coordination.completer u t d.pc c.pc j (by simp [State.pcs, hd]) ht hdue'.1
          hdue.1)
    | false =>
      rw [hf] at hj
      obtain ⟨hpos, hnone⟩ := h.finished j hj
      refine ⟨Nat.add_pos_left hpos _, fun u d hd hdue => ?_⟩
      rcases ThreadSum.update_eq_some_iff.1 hd with ⟨rfl, he⟩ | ⟨-, hd⟩
      · cases he
        rcases Call.due_step hs hdue with hdue | hw
        · exact hnone u c hc hdue
        · exact (hworker hw).2.1 (h.closed j hpos).2
      · exact hnone u d hd hdue

/-- Every step of the map that is on time keeps it. -/
theorem Completion.next {l : Label Tid Key} (h : Completion tr σ) (hl : OnTime σ l)
    (hn : (provider Tid H signalSafeReaders).next σ l = some σ') :
    Completion (tr ++ [(σ, l)]) σ' := by
  have hnext := h.coordination.next hl hn
  -- The thread calls or returns.
  have hquiet : ∀ {t : Tid} {x : Option (Call Key)} {hist : List (Op Key × ValueType)},
      (∀ q : Shared Tid → Call Key → Bool, (∀ c S result, c.pc = .ret result → q S c = false) →
        steps q [(σ, l)] = 0) →
      (∀ d j, x = some d → ¬d.pc.Due j) →
      Coordination σ.shared.outline (State.pcs ⟨σ.shared, Function.update σ.calls t x, hist⟩) →
      Completion (tr ++ [(σ, l)]) ⟨σ.shared, Function.update σ.calls t x, hist⟩ :=
    fun {t x hist} hz hx hcoord => by
      have hlast : ∀ j, steps (lastWorker j) (tr ++ [(σ, l)]) = steps (lastWorker j) tr := fun j => by
        rw [steps_append, hz _ fun c S result hc => by simp [lastWorker, hc], Nat.add_zero]
      have hfin : ∀ j, steps (finishes j) (tr ++ [(σ, l)]) = steps (finishes j) tr := fun j => by
        rw [steps_append, hz _ fun c S result hc => by simp [finishes, hc], Nat.add_zero]
      refine ⟨hcoord, fun j => ?_, fun j hj => ?_, fun u d j hd hdue => ?_, fun j => ?_,
        fun j hj => ?_, h.scheduled⟩
      · rw [hlast]
        exact h.last j
      · rw [hlast] at hj
        exact h.closed j hj
      · rw [hlast]
        rcases ThreadSum.update_eq_some_iff.1 hd with ⟨-, he⟩ | ⟨-, hd⟩
        · exact absurd hdue (hx d j he)
        · exact h.due u d j hd hdue
      · rw [hfin]
        exact h.finish j
      · rw [hfin] at hj
        rw [hlast]
        refine ⟨(h.finished j hj).1, fun u d hd => ?_⟩
        rcases ThreadSum.update_eq_some_iff.1 hd with ⟨-, he⟩ | ⟨-, hd⟩
        · exact hx d j he
        · exact (h.finished j hj).2 u d hd
  cases State.transition_of_next H signalSafeReaders hn with
  | call t op hc =>
    refine hquiet (fun q _ => rfl) (fun d j hd hdue => ?_) hnext
    cases hd
    exact Pc.not_completes (fun _ => rfl) hdue.1
  | ret t c result hc hret =>
    refine hquiet (fun q hq => ?_) (fun d j hd => nomatch hd) hnext
    rw [steps_step _ hc, hq c _ result hret]
    rfl
  | step t c c' S' hc hs => exact h.callStep hc (hl c hc) hs hnext

omit [DecidableEq Tid] in
theorem Completion.initial (n : BitVec 64) : Completion ([] : List (State Tid Key × Label Tid Key))
    (.new n) where
  coordination := .initial n
  last _ := Nat.zero_le _
  closed _ hj := absurd hj (lt_irrefl _)
  due _ _ _ hc := nomatch hc
  finish _ := Nat.zero_le _
  finished _ hj := absurd hj (lt_irrefl _)
  scheduled _ hT := nomatch hT

/-- In every run in which no thread adds itself to a migration that the last worker
    has left, each migration is completed at most once, and the current table is
    not one of those passed to `DefaultGC.scheduleDelete`. -/
theorem completed_once {n : BitVec 64}
    (hr : (provider Tid H signalSafeReaders).Run OnTime (.new n) tr σ) : CompletedOnce tr σ := by
  have h : Completion tr σ := hr.traceInvariant (fun _ _ _ _ ha hl hn => ha.next hl hn) (.initial n)
  refine ⟨h.last, h.finish, fun hcur => ?_⟩
  have hl := h.coordination.layout
  exact hl.latest_notMem (hl.current ▸ h.scheduled _ hcur)

end Runs

/-! ## Runs with one migration -/

section Examples

instance neZeroEleven : NeZero 11 := ⟨by decide⟩

/-- The first ten of these keys make one chain from cell to cell, which has no room
    for the last one. -/
def chainHasher : Hasher (Fin 11) where
  hash k := BitVec.ofNat 64 (if k.val = 0 then 0 else if k.val = 10 then 64 else 31 + k.val)
  injective := by decide
  hash_ne := by decide

def oneValue : Value := ⟨1, by decide, by decide⟩

/-- Ten threads put a key each, up to the store to its cell. -/
def fillChain : List (Label (Fin 11) (Fin 11)) :=
  (List.finRange 10).flatMap fun k => .call k.castSucc (.put k.castSucc oneValue) ::
    List.replicate (if k.val = 0 then 8 else 9) (.step k.castSucc)

/-- The last key starts a migration, and its thread completes it. -/
theorem completed_once_chain : ∃ (σ : State (Fin 11) (Fin 11))
    (tr : List (State (Fin 11) (Fin 11) × Label (Fin 11) (Fin 11))),
    σ.shared.current = 1 ∧ σ.shared.scheduled = [0] ∧ CompletedOnce tr σ := by
  have hrun : (((provider (Fin 11) chainHasher false).exec OnTime (.new 0)
      (fillChain ++ .call 10 (.put 10 oneValue) :: List.replicate 145 (.step 10))).any fun σ =>
        decide (σ.shared.current = 1 ∧ σ.shared.scheduled = [0])) = true := by decide +kernel
  obtain ⟨tr, σ, hr, hp⟩ := System.exists_run_of_exec hrun
  obtain ⟨hcur, hsch⟩ := of_decide_eq_true hp
  exact ⟨σ, tr, hcur, hsch, completed_once hr⟩

/-- Thread 9 finds its cell moved, and the migration not ended. It adds itself to the
    workers when the migration is over, and completes it again. -/
theorem exists_completed_twice :
    ¬∀ (n : BitVec 64) (σ : State (Fin 11) (Fin 11))
      (tr : List (State (Fin 11) (Fin 11) × Label (Fin 11) (Fin 11))),
      (provider (Fin 11) chainHasher false).Run System.anyStep (.new n) tr σ →
        CompletedOnce tr σ := by
  intro hall
  have hrun : (((provider (Fin 11) chainHasher false).exec System.anyStep (.new 0)
      (fillChain ++ .call 10 (.put 10 oneValue) :: List.replicate 92 (.step 10) ++
        List.replicate 3 (.step 9) ++ List.replicate 53 (.step 10) ++
        List.replicate 10 (.step 9))).any fun σ =>
          decide (σ.shared.current ∈ σ.shared.scheduled)) = true := by decide +kernel
  obtain ⟨tr, σ, hr, hp⟩ := System.exists_run_of_exec hrun
  exact (hall 0 σ tr hr).current (of_decide_eq_true hp)

end Examples

end FkProf.ConcurrentMap
