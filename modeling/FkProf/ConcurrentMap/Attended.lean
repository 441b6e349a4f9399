import FkProf.ConcurrentMap.Lookup

/-!
# A migration is attended

A thread that has started a migration, or found one under way, does not return before the
destination is published. So as long as a migration is under way, a call is in progress.

* `Pc.Attends`, `Pc.Finishes`: where a thread stays with the migration;
* `Attended`: some thread does;
* `Attended.idle`: when no call is in progress, no migration has started.
-/

namespace FkProf.ConcurrentMap

variable {Tid Key : Type*}

/-- The thread does not return before the migration of the table is over. -/
def Pc.Attends (root : TableId) : Pc → Prop
  | .start r .unlock | .participate r _ | .await r _ | .run r .. | .migrate r .. | .complete r .. =>
    r = root
  | .crashed => True
  | _ => False

/-- The thread is about to publish the destination. -/
def Pc.Finishes (root : TableId) : Pc → Prop
  | .complete r _ .finishLoad | .complete r _ (.finishStore _) => r = root
  | _ => False

/-- Somebody attends the migration of the current table, until its destination is published. -/
structure Attended (o : Outline Tid) (calls : Tid → Option (Call Key)) : Prop where
  job : ∀ j, o.coordinator o.latest = .job j → ∃ t c, calls t = some c ∧ c.pc.Attends o.latest
  ended : o.coordinator o.latest = .ended → ∃ t c, calls t = some c ∧ c.pc.Finishes o.latest

section Steps

variable {H : Hasher Key} {signalSafeReaders : Bool} {S S' : Shared Tid} {c c' : Call Key} {t : Tid}
  {root : TableId} {j : JobId} {calls : Tid → Option (Call Key)} {o o' : Outline Tid}

/-- A thread that attends a migration goes on with it. -/
theorem Pc.Attends.step (h : c.pc.Attends root) (hc : (S.tables root).coordinator = .job j)
    (hs : c.step H signalSafeReaders S t = some (S', c')) : c'.pc.Attends root := by
  obtain ⟨op, doubleSize, pc⟩ := c
  cases pc with
  | start r pc =>
    cases pc with
    | unlock =>
      cases hs
      exact h
    | _ => cases h
  | participate r prevJob | await r prevJob =>
    cases h
    cases hs
    simp only [Call.participate, hc]
    split_ifs <;> rfl
  | run r i pc =>
    rw [Call.step_run] at hs
    cases hs
    cases ((S.jobs i).runStep S.outline.size pc).2 <;> first | exact h | trivial
  | migrate r i s T k last pc =>
    rw [Call.step_migrate] at hs
    cases hs
    cases (migrateStep S (S.jobs i).dest T k last pc).2 <;> exact h
  | complete r i pc =>
    obtain ⟨⟨S₁, next⟩, -, he⟩ := Option.map_eq_some_iff.1 hs
    cases he
    cases next <;> first | exact h | trivial
  | ret | crashed => cases hs
  | loadCurrent | insert | find | findNext | getValue | removeLoad | removeCas => cases h

/-- A thread that finishes a migration publishes the destination. -/
theorem Pc.Finishes.step (h : c.pc.Finishes root)
    (hs : c.step H signalSafeReaders S t = some (S', c')) :
    c'.pc.Finishes root ∨ ∃ j old, c.pc = .complete root j (.finishStore old) := by
  obtain ⟨op, doubleSize, pc⟩ := c
  cases pc with
  | complete r i pc =>
    cases pc with
    | finishLoad =>
      cases hs
      exact .inl h
    | finishStore old =>
      cases h
      exact .inr ⟨i, old, rfl⟩
    | _ => cases h
  | _ => cases h

variable [DecidableEq Tid]

/-- The current table and its coordinator remain. -/
theorem Attended.keep (h : Attended S.outline calls) (ht : calls t = some c)
    (hs : c.step H signalSafeReaders S t = some (S', c')) (hl : S'.latest = S.latest)
    (hc : S'.outline.coordinator S.latest = S.outline.coordinator S.latest)
    (hp : ∀ j old, c.pc ≠ .complete S.latest j (.finishStore old)) :
    Attended S'.outline (Function.update calls t (some c')) := by
  have hsome : ∀ {p : Pc → Prop}, (∃ u d, calls u = some d ∧ p d.pc) → (p c.pc → p c'.pc) →
      ∃ u d, Function.update calls t (some c') u = some d ∧ p d.pc := by
    rintro p ⟨u, d, hd, hpd⟩ hstep
    by_cases hu : u = t
    · subst hu
      cases ht.symm.trans hd
      exact ⟨u, c', Function.update_self .., hstep hpd⟩
    · exact ⟨u, d, (Function.update_of_ne hu ..).trans hd, hpd⟩
  constructor
  · intro j hj
    rw [show S'.outline.latest = S.latest from hl, hc] at hj
    rw [show S'.outline.latest = S.latest from hl]
    exact hsome (h.job j hj) fun ha => ha.step hj hs
  · intro he
    rw [show S'.outline.latest = S.latest from hl, hc] at he
    rw [show S'.outline.latest = S.latest from hl]
    refine hsome (h.ended he) fun hf => (hf.step hs).resolve_right ?_
    rintro ⟨j, old, hpc⟩
    exact hp j old hpc

/-- The thread attends the migration itself. -/
theorem Attended.self (ha : c'.pc.Attends S'.latest)
    (hf : S'.outline.coordinator S'.latest = .ended → c'.pc.Finishes S'.latest) :
    Attended S'.outline (Function.update calls t (some c')) :=
  ⟨fun _ _ => ⟨t, c', Function.update_self .., ha⟩,
    fun he => ⟨t, c', Function.update_self .., hf he⟩⟩

variable [Fintype Tid]

omit [DecidableEq Tid] in
/-- The destination is published, and has no migration yet. -/
theorem Attended.publish (hco : Coordination S.outline (pcsOf calls)) (ht : calls t = some c)
    (hs : c.step H signalSafeReaders S t = some (S', c')) {old : TableId}
    (hpc : c.pc = .complete root j (.finishStore old)) :
    S'.outline.coordinator S'.outline.latest = .null := by
  have hok := hco.ok t _ (pcsOf_eq ht rfl)
  obtain ⟨op, doubleSize, pc⟩ := c
  cases hpc
  cases hs
  obtain ⟨-, -, -, -, hopen, -⟩ := hok
  have hdest : ¬S.outline.Published (S.jobs j).dest := hopen.2
  rw [outline_publish hdest]
  exact hco.layout.fresh _ hdest

theorem Attended.callStep (h : Attended S.outline calls)
    (hco : Coordination S.outline (pcsOf calls)) (ht : calls t = some c)
    (hs : c.step H signalSafeReaders S t = some (S', c')) :
    Attended S'.outline (Function.update calls t (some c')) := by
  by_cases hpub : ∃ root j old, c.pc = .complete root j (.finishStore old)
  · obtain ⟨root, j, old, hpc⟩ := hpub
    have hnull : S'.outline.coordinator S'.outline.latest = .null := Attended.publish hco ht hs hpc
    constructor
    · intro j hj
      exact nomatch hnull.symm.trans hj
    · intro he
      exact nomatch hnull.symm.trans he
  have hp : ∀ j old, c.pc ≠ .complete S.latest j (.finishStore old) :=
    fun j old hpc => hpub ⟨_, j, old, hpc⟩
  have hok := hco.ok t _ (pcsOf_eq ht rfl)
  cases Call.step_changes hs with
  | cells x ho =>
    exact h.keep ht hs (congrArg Outline.latest ho) (by rw [ho]) hp
  | run root j pc hpc hS =>
    subst hS
    exact h.keep ht hs rfl rfl hp
  | begins root n hpc hS =>
    rw [hpc] at hok
    obtain ⟨hroot, -, hc⟩ := hok
    obtain rfl := hco.layout.root_eq hroot (by rw [hc]; exact nofun)
    obtain ⟨op, doubleSize, pc⟩ := c
    cases hpc
    cases hs
    refine .self rfl fun he => ?_
    rw [outline_setCoordinator] at he
    exact nomatch (Function.update_self ..).symm.trans he
  | restart root j T hpc hS =>
    rw [hpc] at hok
    obtain ⟨hjoin, -, rfl, hc, -⟩ := hok
    obtain rfl := hco.layout.root_eq hjoin.published (by rw [hc]; exact nofun)
    have ha : c.pc.Attends S.latest := by
      rw [hpc]
      rfl
    subst hS
    refine .self (ha.step hc hs) fun he => ?_
    rw [outline_restart] at he
    exact nomatch (Function.update_self ..).symm.trans he
  | ends root j T hpc hT hS =>
    rw [hpc] at hok
    obtain ⟨hjoin, -, hc⟩ := hok
    obtain rfl := hco.layout.root_eq hjoin.published (by rw [hc]; exact nofun)
    obtain ⟨op, doubleSize, pc⟩ := c
    cases hpc
    simp only [Call.step, completeStep, hT, Option.map_some, Option.some.injEq,
      Prod.mk.injEq] at hs
    obtain ⟨rfl, rfl⟩ := hs
    exact .self rfl fun _ => rfl
  | publish root j old hpc hS => exact absurd ⟨root, j, old, hpc⟩ hpub
  | schedule root j old hpc hS =>
    subst hS
    exact h.keep ht hs rfl rfl hp

end Steps

section Runs

variable [Fintype Tid] [DecidableEq Tid] {H : Hasher Key} {signalSafeReaders : Bool}
  {σ σ' : State Tid Key} {l : Label Tid Key}

theorem Attended.next (h : Attended σ.shared.outline σ.calls) (hs : Sound H σ)
    (hn : (provider Tid H signalSafeReaders).next σ l = some σ') :
    Attended σ'.shared.outline σ'.calls := by
  -- A thread that begins or returns attends no migration.
  have hother : ∀ {p : Pc → Prop} {t x}, (∀ c, σ.calls t = some c → ¬p c.pc) →
      (∃ u d, σ.calls u = some d ∧ p d.pc) →
      ∃ u d, Function.update σ.calls t x u = some d ∧ p d.pc := by
    rintro p t x hn ⟨u, d, hd, hpd⟩
    have hu : u ≠ t := by
      rintro rfl
      exact hn d hd hpd
    exact ⟨u, d, (Function.update_of_ne hu ..).trans hd, hpd⟩
  cases State.transition_of_next H signalSafeReaders hn with
  | call t op hc =>
    exact ⟨fun j hj => hother (fun c hc' => nomatch hc.symm.trans hc') (h.job j hj),
      fun he => hother (fun c hc' => nomatch hc.symm.trans hc') (h.ended he)⟩
  | ret t c result hc hret =>
    have hnot : ∀ {p : Pc → Prop}, ¬p (.ret result) → ∀ d, σ.calls t = some d → ¬p d.pc :=
      fun hp d hd => by
        cases hc.symm.trans hd
        rwa [hret]
    exact ⟨fun j hj => hother (hnot id) (h.job j hj), fun he => hother (hnot id) (h.ended he)⟩
  | step t c c' S' hc hs' => exact h.callStep hs.coordination hc hs'

omit [Fintype Tid] [DecidableEq Tid] in
/-- When no call is in progress, no migration of the current table has started. -/
theorem Attended.idle (h : Attended σ.shared.outline σ.calls) (hidle : ∀ t, σ.calls t = none) :
    σ.shared.outline.coordinator σ.shared.latest = .null := by
  cases hc : σ.shared.outline.coordinator σ.shared.latest with
  | null => rfl
  | job j =>
    obtain ⟨t, c, ht, -⟩ := h.job j hc
    exact nomatch (hidle t).symm.trans ht
  | ended =>
    obtain ⟨t, c, ht, -⟩ := h.ended hc
    exact nomatch (hidle t).symm.trans ht

omit [Fintype Tid] [DecidableEq Tid] in
theorem Attended.initial (n : BitVec 64) :
    Attended (State.new n : State Tid Key).shared.outline (State.new n : State Tid Key).calls :=
  ⟨(fun _ hj => nomatch hj), fun he => nomatch he⟩

/-- A migration is under way only while a call is in progress. -/
theorem attended_of_run {n : BitVec 64} {tr : List (State Tid Key × Label Tid Key)}
    (hr : (provider Tid H signalSafeReaders).Run OnTime (.new n) tr σ) :
    Attended σ.shared.outline σ.calls :=
  (hr.invariant (I := fun σ => Sound H σ ∧ Attended σ.shared.outline σ.calls)
    (fun _ _ _ hI hl hn => ⟨hI.1.next hl hn, hI.2.next hI.1 hn⟩) ⟨.initial n, .initial n⟩).2

end Runs

end FkProf.ConcurrentMap
