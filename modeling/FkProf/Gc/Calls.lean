import FkProf.Gc
import Mathlib.Data.List.Perm.Basic
import Mathlib.Logic.Relation
import Mathlib.Tactic.Ring

/-!
# Calls of the collector that nothing interrupts

The calls as functions on the fields of the collector and the epoch of the
caller's bucket. Each of them is what the steps of a thread compute when no
other thread and no handler takes a step meanwhile (`run_attachThread`,
`run_detachThread`, `run_safepoint`, `run_ssSafepoint`).

The collector tracks the epochs of the attached buckets (`Tracks`): there are
`totalThreads` of them, and `remaining` of them differ from the global epoch.
The calls keep this, except that `detachThread` is not made for an epoch equal
to `kEpochInitial`, which the global epoch reaches before it wraps around.
-/

namespace FkProf.Gc

variable {Tid Table : Type*}

/-! ## The calls -/

/-- `GC::newEpoch`. -/
def GC.newEpoch (gc : GC Tid Table) : GC Tid Table :=
  { gc with
    deleted := gc.oldGarbage.reverse ++ gc.deleted
    globalEpoch := gc.globalEpoch + 1
    remaining := gc.totalThreads
    oldGarbage := gc.recentGarbage
    recentGarbage := [] }

/-- The end of `detachThread` and of `safepoint`. -/
def GC.newEpochIfDone (gc : GC Tid Table) : GC Tid Table :=
  if gc.remaining = 0 then gc.newEpoch else gc

/-- `GC::attachThread`, and the epoch it returns. -/
def GC.attachThread (gc : GC Tid Table) : GC Tid Table × EpochType :=
  ({ gc with totalThreads := gc.totalThreads + 1, remaining := gc.remaining + 1 },
    gc.globalEpoch - 1)

/-- `remaining` after a bucket with this epoch has been counted, if it lags. -/
def GC.countDown (gc : GC Tid Table) (localEpoch : EpochType) : GC Tid Table :=
  if localEpoch < gc.globalEpoch then { gc with remaining := gc.remaining - 1 } else gc

/-- `GC::detachThread`: the epoch of the bucket becomes `kEpochInitial`. -/
def GC.detachThread (gc : GC Tid Table) (localEpoch : EpochType) : GC Tid Table :=
  (({ gc with totalThreads := gc.totalThreads - 1 } : GC Tid Table).countDown
    localEpoch).newEpochIfDone

/-- The epoch of a bucket that has passed the global one. -/
def GC.passed (gc : GC Tid Table) (localEpoch : EpochType) : EpochType :=
  if localEpoch < gc.globalEpoch then gc.globalEpoch else localEpoch

/-- `GC::safepoint`, and the epoch of the bucket after it. -/
def GC.safepoint (gc : GC Tid Table) (localEpoch : EpochType) : GC Tid Table × EpochType :=
  ((gc.countDown localEpoch).newEpochIfDone, gc.passed localEpoch)

/-- `GC::ss_safepoint`, and the epoch of the bucket after it. -/
def GC.ssSafepoint (gc : GC Tid Table) (localEpoch : EpochType) : GC Tid Table × EpochType :=
  (gc.countDown localEpoch, gc.passed localEpoch)

/-- `GC::scheduleDelete`. -/
def GC.scheduleDelete (gc : GC Tid Table) (pointer : Table) : GC Tid Table :=
  { gc with recentGarbage := pointer :: gc.recentGarbage }

/-! ## The epochs of the attached buckets -/

/-- An epoch that a bucket may have: it has passed the global epoch, or lags behind
    it, or the global epoch has wrapped around. -/
def GC.Admits (gc : GC Tid Table) (localEpoch : EpochType) : Prop :=
  localEpoch = gc.globalEpoch ∨ localEpoch < gc.globalEpoch ∨
    gc.globalEpoch = 0 ∧ localEpoch = kEpochInitial

/-- The collector's counters are those of the attached buckets with these epochs. -/
structure Tracks (gc : GC Tid Table) (epochs : List EpochType) : Prop where
  total : gc.totalThreads = epochs.length
  remaining : gc.remaining = epochs.countP fun e => e ≠ gc.globalEpoch
  admits : ∀ e ∈ epochs, gc.Admits e

variable {gc : GC Tid Table} {e : EpochType} {epochs epochs' : List EpochType}

theorem Tracks.perm (h : Tracks gc epochs) (hp : epochs.Perm epochs') : Tracks gc epochs' where
  total := by rw [h.total, hp.length_eq]
  remaining := by rw [h.remaining, hp.countP_eq]
  admits e he := h.admits e (hp.mem_iff.2 he)

theorem Tracks.attachThread (h : Tracks gc epochs) :
    Tracks gc.attachThread.1 (gc.attachThread.2 :: epochs) where
  total := by simp [GC.attachThread, h.total]
  remaining := by
    have hne : gc.globalEpoch - 1#32 ≠ gc.globalEpoch := by bv_omega
    simp [GC.attachThread, h.remaining, hne]
  admits := by
    rintro e (_ | ⟨_, he⟩)
    · simp only [GC.Admits, GC.attachThread, kEpochInitial]
      bv_omega
    · exact h.admits e he

/-- When all attached buckets have passed the global epoch, a new one begins. -/
theorem Tracks.newEpochIfDone (h : Tracks gc epochs) : Tracks gc.newEpochIfDone epochs := by
  unfold GC.newEpochIfDone
  split
  · rename_i hzero
    have hall : ∀ e ∈ epochs, e = gc.globalEpoch := by
      have hcount := h.remaining
      rw [hzero] at hcount
      have hnat : epochs.countP (fun e => e ≠ gc.globalEpoch) = 0 := by exact_mod_cast hcount.symm
      exact fun e he => by simpa using List.countP_eq_zero.1 hnat e he
    refine ⟨h.total, ?_, fun e he => ?_⟩
    · rw [show epochs.countP (fun e => e ≠ gc.newEpoch.globalEpoch) = epochs.length from
        List.countP_eq_length.2 fun e he => by
          simp [GC.newEpoch, hall e he]]
      exact h.total
    · rw [hall e he]
      simp only [GC.Admits, GC.newEpoch, kEpochInitial]
      bv_omega
  · exact h

/-- A bucket is counted down, and has passed the global epoch. -/
theorem Tracks.countDown (h : Tracks gc (e :: epochs)) :
    Tracks (gc.countDown e) (gc.passed e :: epochs) := by
  unfold GC.countDown GC.passed
  split
  · rename_i hlt
    have hne : e ≠ gc.globalEpoch := BitVec.ne_of_lt hlt
    have hrem := h.remaining
    rw [List.countP_cons_of_pos (by simpa using hne)] at hrem
    refine ⟨by simpa using h.total, ?_, ?_⟩
    · rw [List.countP_cons_of_neg (by simp)]
      simp only [hrem]
      push_cast
      ring
    · rintro e' (_ | ⟨_, he⟩)
      · exact .inl rfl
      · exact h.admits e' (List.mem_cons_of_mem _ he)
  · exact h

theorem Tracks.safepoint (h : Tracks gc (e :: epochs)) :
    Tracks (gc.safepoint e).1 ((gc.safepoint e).2 :: epochs) :=
  h.countDown.newEpochIfDone

theorem Tracks.ssSafepoint (h : Tracks gc (e :: epochs)) :
    Tracks (gc.ssSafepoint e).1 ((gc.ssSafepoint e).2 :: epochs) :=
  h.countDown

theorem Tracks.detachThread (h : Tracks gc (e :: epochs)) (he : e ≠ kEpochInitial) :
    Tracks (gc.detachThread e) epochs := by
  refine Tracks.newEpochIfDone ?_
  have hrem := h.remaining
  have htotal := h.total
  have hrest : ∀ e' ∈ epochs, gc.Admits e' := fun e' h' => h.admits e' (List.mem_cons_of_mem _ h')
  rw [List.length_cons] at htotal
  unfold GC.countDown
  split
  · rename_i hlt
    have hne : e ≠ gc.globalEpoch := BitVec.ne_of_lt hlt
    rw [List.countP_cons_of_pos (by simpa using hne)] at hrem
    refine ⟨?_, ?_, hrest⟩
    · simp only [htotal]
      push_cast
      ring
    · simp only [hrem]
      push_cast
      ring
  · rename_i hlt
    have heq : e = gc.globalEpoch := by
      rcases h.admits e List.mem_cons_self with heq | hlt' | ⟨-, hinit⟩
      · exact heq
      · exact absurd hlt' hlt
      · exact absurd hinit he
    rw [List.countP_cons_of_neg (by simp [heq])] at hrem
    refine ⟨?_, hrem, hrest⟩
    simp only [htotal]
    push_cast
    ring

theorem Tracks.scheduleDelete (h : Tracks gc epochs) (pointer : Table) :
    Tracks (gc.scheduleDelete pointer) epochs :=
  ⟨h.total, h.remaining, h.admits⟩

/-! ## The steps of a call -/

/-- Steps of a thread in its call, with nothing else happening. -/
def MainSteps (t : Tid) : GC Tid Table × Thread Table → GC Tid Table × Thread Table → Prop :=
  Relation.ReflTransGen fun p q => mainStep p.1 t p.2 = some q

section Steps

variable {t : Tid} {th : Thread Table}

/-- The steps of `newEpoch`: the tables are deleted one by one. -/
theorem mainSteps_newEpoch (c : Caller) :
    MainSteps t (gc, { th with pc := .epochDelete c }) (gc.newEpoch, { th with pc := c.next }) := by
  induction hold : gc.oldGarbage generalizing gc with
  | nil =>
    refine .head (b := (gc, { th with pc := .epochAdvance c })) (by simp [mainStep, hold]) ?_
    refine .head rfl (.head rfl (.single ?_))
    simp [mainStep, GC.newEpoch, hold]
  | cons x rest ih =>
    refine .head (b := ({ gc with oldGarbage := rest, deleted := x :: gc.deleted },
      { th with pc := .epochDelete c })) (by simp [mainStep, hold]) ?_
    have hrest := @ih { gc with oldGarbage := rest, deleted := x :: gc.deleted } rfl
    have hnew : GC.newEpoch { gc with oldGarbage := rest, deleted := x :: gc.deleted } =
        gc.newEpoch := by
      simp [GC.newEpoch, hold]
    rwa [hnew] at hrest

/-- The end of a call, where a new epoch begins if nobody remains. -/
theorem mainSteps_newEpochIfDone (c : Caller) :
    MainSteps t (gc, { th with pc := if gc.remaining = 0 then .epochDelete c else c.next })
      (gc.newEpochIfDone, { th with pc := c.next }) := by
  unfold GC.newEpochIfDone
  split
  · exact mainSteps_newEpoch c
  · exact .refl

theorem mainSteps_attachThread (hm : gc.mutex = none) :
    MainSteps t (gc, { th with pc := .attachLock })
      (gc.attachThread.1,
        { th with pc := .idle, attached := true, localEpoch := gc.attachThread.2 }) := by
  refine .head (b := ({ gc with mutex := some t }, { th with pc := .attachTotal }))
    (by simp [mainStep, GC.lock, hm]) ?_
  refine .head rfl (.head rfl (.head rfl (.single ?_)))
  simp [mainStep, GC.attachThread, hm]

theorem countDown_mutex (m : Option Tid) (e : EpochType) :
    ({ gc with mutex := m } : GC Tid Table).countDown e = { gc.countDown e with mutex := m } := by
  unfold GC.countDown
  split <;> rfl

theorem newEpochIfDone_mutex (m : Option Tid) :
    ({ gc with mutex := m } : GC Tid Table).newEpochIfDone =
      { gc.newEpochIfDone with mutex := m } := by
  unfold GC.newEpochIfDone
  split <;> rfl

/-- The same while the call holds the mutex. -/
theorem mainSteps_end (gc : GC Tid Table) (th : Thread Table) (c : Caller) :
    MainSteps t (({ gc with mutex := some t } : GC Tid Table),
        { th with pc := if gc.remaining = 0 then .epochDelete c else c.next })
      (({ gc.newEpochIfDone with mutex := some t } : GC Tid Table), { th with pc := c.next }) := by
  rw [← newEpochIfDone_mutex]
  exact mainSteps_newEpochIfDone c

theorem newEpochIfDone_none (hm : gc.mutex = none) : gc.newEpochIfDone.mutex = none := by
  unfold GC.newEpochIfDone
  split
  · exact hm
  · exact hm

theorem countDown_none (hm : gc.mutex = none) (e : EpochType) : (gc.countDown e).mutex = none := by
  unfold GC.countDown
  split <;> exact hm

theorem mainSteps_unlock (th : Thread Table) (hm : gc.mutex = none) :
    MainSteps t (({ gc with mutex := some t } : GC Tid Table), { th with pc := .unlock })
      (gc, { th with pc := .idle }) :=
  .single (by simp [mainStep, ← hm])

theorem mainSteps_detachThread (hm : gc.mutex = none) :
    MainSteps t (gc, { th with pc := .detachLock })
      (gc.detachThread th.localEpoch,
        { th with pc := .idle, attached := false, localEpoch := kEpochInitial }) := by
  refine .head (by simp [mainStep, GC.lock, hm]; rfl) (.head rfl ?_)
  set gc₁ : GC Tid Table := { gc with totalThreads := gc.totalThreads - 1 } with hgc₁
  have hm₁ : gc₁.mutex = none := hm
  have hcount : MainSteps t (({ gc₁ with mutex := some t } : GC Tid Table),
        { th with pc := .detachCompare, attached := false })
      (({ gc₁.countDown th.localEpoch with mutex := some t } : GC Tid Table),
        { th with
          pc := if (gc₁.countDown th.localEpoch).remaining = 0 then .epochDelete .detachThread
                else Caller.detachThread.next
          attached := false }) := by
    unfold GC.countDown
    split
    · rename_i hlt
      refine .head (by simp only [mainStep]; rw [if_pos hlt]) (.single rfl)
    · rename_i hlt
      refine .head (by simp only [mainStep]; rw [if_neg hlt]) (.single rfl)
  refine hcount.trans ((mainSteps_end _ { th with attached := false } .detachThread).trans ?_)
  refine .head rfl ?_
  exact mainSteps_unlock { th with attached := false, localEpoch := kEpochInitial }
    (newEpochIfDone_none (countDown_none hm₁ _))

theorem mainSteps_safepoint (hm : gc.mutex = none) :
    MainSteps t (gc, { th with pc := .safepointLock })
      ((gc.safepoint th.localEpoch).1,
        { th with pc := .idle, localEpoch := (gc.safepoint th.localEpoch).2 }) := by
  refine .head (by simp [mainStep, GC.lock, hm]; rfl) (.head rfl ?_)
  have hcount : MainSteps t (({ gc with mutex := some t } : GC Tid Table),
        { th with pc := .safepointCompare th.localEpoch })
      (({ gc.countDown th.localEpoch with mutex := some t } : GC Tid Table),
        { th with
          pc := if (gc.countDown th.localEpoch).remaining = 0 then .epochDelete .safepoint
                else Caller.safepoint.next
          localEpoch := gc.passed th.localEpoch }) := by
    unfold GC.countDown GC.passed
    split
    · rename_i hlt
      refine .head (by simp only [mainStep]; rw [if_pos hlt]) (.head rfl (.head rfl (.single rfl)))
    · rename_i hlt
      refine .head (by simp only [mainStep]; rw [if_neg hlt]) (.single rfl)
  refine hcount.trans ((mainSteps_end _ { th with localEpoch := _ } .safepoint).trans ?_)
  exact mainSteps_unlock { th with localEpoch := _ } (newEpochIfDone_none (countDown_none hm _))

/-- A thread does not touch its handler. -/
theorem handler_of_mainStep {p q : GC Tid Table × Thread Table}
    (h : mainStep p.1 t p.2 = some q) : q.2.handler = p.2.handler := by
  unfold mainStep at h
  split at h
  case h_1 => cases h
  case h_2 | h_6 | h_12 | h_23 =>
    obtain ⟨_, -, rfl⟩ := Option.map_eq_some_iff.1 h
    rfl
  case h_19 => split at h <;> cases h <;> rfl
  all_goals
    cases h
    rfl

/-- Steps of a thread are steps of the collector, if no handler interrupts them. -/
theorem run_of_mainSteps [DecidableEq Tid] [DecidableEq Table] (σ : State Tid Table)
    {p q : GC Tid Table × Thread Table} (h : MainSteps t p q) (hoff : p.2.handler = .off) :
    ∃ tr, (system Tid Table).Run System.anyStep (σ.set t p) tr (σ.set t q) := by
  induction h using Relation.ReflTransGen.head_induction_on with
  | refl => exact ⟨[], .refl⟩
  | head hstep hrest ih =>
    rename_i p p'
    have hoff' : p'.2.handler = .off := by
      rw [handler_of_mainStep hstep]
      exact hoff
    obtain ⟨tr, hr⟩ := ih hoff'
    have hnext : (system Tid Table).next (σ.set t p) (.main t) = some (σ.set t p') := by
      simp [system, State.next, State.set, hoff, hstep]
    exact ⟨_, (System.Run.single trivial hnext).trans hr⟩

/-- The steps of a whole call, from its first to its return. -/
theorem run_of_call [DecidableEq Tid] [DecidableEq Table] {σ : State Tid Table}
    (l : Label Tid Table) {pc : Pc Table} {q : GC Tid Table × Thread Table}
    (hcall : σ.next l = some (σ.call t pc))
    (h : MainSteps t (σ.gc, { σ.threads t with pc := pc }) q)
    (hoff : (σ.threads t).handler = .off) :
    ∃ tr, (system Tid Table).Run System.anyStep σ tr (σ.set t q) := by
  obtain ⟨tr, hr⟩ := run_of_mainSteps σ h hoff
  exact ⟨_, (System.Run.single trivial hcall).trans hr⟩

variable [DecidableEq Tid] [DecidableEq Table] {σ : State Tid Table}

/-- `attachThread`, when nothing interrupts it. -/
theorem run_attachThread (hm : σ.gc.mutex = none) (hfree : (σ.threads t).Free)
    (hatt : (σ.threads t).attached = false) :
    ∃ tr, (system Tid Table).Run System.anyStep σ tr (σ.set t (σ.gc.attachThread.1,
      { σ.threads t with
        pc := .idle, attached := true, localEpoch := σ.gc.attachThread.2 })) :=
  run_of_call (.attachThread t) (by simp [State.next, hfree, hatt]) (mainSteps_attachThread hm) hfree.2

/-- `detachThread`, when nothing interrupts it. -/
theorem run_detachThread (hm : σ.gc.mutex = none) (hfree : (σ.threads t).Free)
    (hatt : (σ.threads t).attached = true) (he : (σ.threads t).localEpoch ≠ kEpochInitial) :
    ∃ tr, (system Tid Table).Run System.anyStep σ tr
      (σ.set t (σ.gc.detachThread (σ.threads t).localEpoch,
        { σ.threads t with pc := .idle, attached := false, localEpoch := kEpochInitial })) :=
  run_of_call (.detachThread t) (by simp [State.next, hfree, hatt, he])
    (mainSteps_detachThread hm) hfree.2

/-- `safepoint`, when nothing interrupts it. -/
theorem run_safepoint (hm : σ.gc.mutex = none) (hfree : (σ.threads t).Free)
    (hatt : (σ.threads t).attached = true) :
    ∃ tr, (system Tid Table).Run System.anyStep σ tr
      (σ.set t ((σ.gc.safepoint (σ.threads t).localEpoch).1,
        { σ.threads t with
          pc := .idle, localEpoch := (σ.gc.safepoint (σ.threads t).localEpoch).2 })) :=
  run_of_call (.safepoint t) (by simp [State.next, hfree, hatt]) (mainSteps_safepoint hm) hfree.2

/-- `ss_safepoint`, when nothing interrupts it. -/
theorem run_ssSafepoint (hfree : (σ.threads t).Free) (hatt : (σ.threads t).attached = true) :
    ∃ tr, (system Tid Table).Run System.anyStep σ tr
      (σ.set t ((σ.gc.ssSafepoint (σ.threads t).localEpoch).1,
        { σ.threads t with localEpoch := (σ.gc.ssSafepoint (σ.threads t).localEpoch).2 })) := by
  obtain ⟨hpc, hoff⟩ := hfree
  have hpub : (σ.threads t).Published := ⟨hatt, by rw [hpc]; trivial⟩
  by_cases hlt : (σ.threads t).localEpoch < σ.gc.globalEpoch
  · have hexec : (system Tid Table).exec System.anyStep σ (handlerSchedule t) =
        some (σ.set t ((σ.gc.ssSafepoint (σ.threads t).localEpoch).1,
          { σ.threads t with localEpoch := (σ.gc.ssSafepoint (σ.threads t).localEpoch).2 })) := by
      simp [handlerSchedule, System.exec_cons, System.anyStep, system, State.next, hoff, hpub,
        handlerStep, State.set, GC.ssSafepoint, GC.countDown, GC.passed, hlt]
    obtain ⟨tr, hr, -⟩ := System.run_of_exec hexec
    exact ⟨tr, hr⟩
  · have hexec : (system Tid Table).exec System.anyStep σ [.signal t, .handler t] =
        some (σ.set t ((σ.gc.ssSafepoint (σ.threads t).localEpoch).1,
          { σ.threads t with localEpoch := (σ.gc.ssSafepoint (σ.threads t).localEpoch).2 })) := by
      simp [System.exec_cons, System.anyStep, system, State.next, hoff, hpub,
        handlerStep, State.set, GC.ssSafepoint, GC.countDown, GC.passed, hlt]
    obtain ⟨tr, hr, -⟩ := System.run_of_exec hexec
    exact ⟨tr, hr⟩

end Steps

end FkProf.Gc
