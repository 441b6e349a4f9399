import FkProf.Gc.Invariant
import Mathlib.Data.Fintype.Card

/-!
# The countdown is exact

`remaining` is meant to be the number of attached threads that have not passed
the current epoch: were it larger, no epoch would ever end again. It is exactly
the number of threads that owe a decrement (`Exact`), in the runs that avoid
three steps (`Orderly`):

* a handler passing the epoch in the middle of its own thread's `safepoint`
  (`Disturbing`);
* a handler passing the new epoch before `newEpoch` has reset the countdown,
  which overwrites the decrement (`Lost`);
* the epoch wrapping around (`Wraps`), after which no thread is below it.

The other steps of a handler are harmless: between the two stores of `newEpoch`
every attached thread owes the new epoch (`Exact.renewed`), and the countdown is
set to their number.
-/

namespace FkProf.Gc

variable {Tid Table : Type*}

/-- A handler takes its thread off the countdown just before it is reset. -/
def Lost (σ : State Tid Table) : Label Tid Table → Prop
  | .handler t => (σ.threads t).handler.Passing ∧ ∃ u, (σ.threads u).pc.Resetting
  | _ => False

/-- The epoch goes from its largest value to zero. -/
def Wraps (σ : State Tid Table) : Label Tid Table → Prop
  | .main t =>
    ((σ.threads t).pc = .epochAdvance .detachThread ∨
      (σ.threads t).pc = .epochAdvance .safepoint) ∧ σ.gc.globalEpoch = -1
  | _ => False

instance [Fintype Tid] (σ : State Tid Table) : ∀ l : Label Tid Table, Decidable (Lost σ l)
  | .handler t =>
    inferInstanceAs
      (Decidable ((σ.threads t).handler.Passing ∧ ∃ u, (σ.threads u).pc.Resetting))
  | .attachThread _ | .detachThread _ | .safepoint _ | .scheduleDelete _ _ | .main _
  | .signal _ => .isFalse id

instance [DecidableEq Table] (σ : State Tid Table) : ∀ l : Label Tid Table, Decidable (Wraps σ l)
  | .main t =>
    inferInstanceAs (Decidable (((σ.threads t).pc = .epochAdvance .detachThread ∨
      (σ.threads t).pc = .epochAdvance .safepoint) ∧ σ.gc.globalEpoch = -1))
  | .attachThread _ | .detachThread _ | .safepoint _ | .scheduleDelete _ _ | .signal _
  | .handler _ => .isFalse id

/-- The steps other than these and the disturbing one. -/
def Orderly (σ : State Tid Table) (l : Label Tid Table) : Prop :=
  Undisturbed σ l ∧ ¬Lost σ l ∧ ¬Wraps σ l

instance [Fintype Tid] [DecidableEq Table] (σ : State Tid Table) (l : Label Tid Table) :
    Decidable (Orderly σ l) :=
  inferInstanceAs (Decidable (_ ∧ _ ∧ _))

/-- The epochs of the thread are not ahead of the epoch `g`. -/
structure Thread.Behind (th : Thread Table) (g : EpochType) : Prop where
  localEpoch : th.attached = true → th.pc ≠ .attachAdd → th.pc ≠ .attachLoad →
    th.localEpoch.toNat ≤ g.toNat
  store : ∀ g', th.handler = .store g' → g'.toNat ≤ g.toNat

/-- The countdown is exact. -/
structure Exact [Fintype Tid] (σ : State Tid Table) : Prop where
  inv : Inv σ
  started : σ.gc.globalEpoch ≠ 0
  behind : ∀ t, (σ.threads t).Behind σ.gc.globalEpoch
  exact : (∀ t, ¬(σ.threads t).pc.Resetting) →
    σ.gc.remaining = (∑ t, (σ.threads t).owes σ.gc.globalEpoch : ℕ)
  /-- Between the stores of `newEpoch`, all attached threads owe the new epoch. -/
  renewed : ∀ t, (σ.threads t).pc.Resetting →
    ∀ u, (σ.threads u).owes σ.gc.globalEpoch = (σ.threads u).count

/-! ## Single steps -/

section Main

variable {gc gc' : GC Tid Table} {t : Tid} {th th' : Thread Table}

theorem toNat_sub_one_le {g : EpochType} (h : g ≠ 0) : (g - 1).toNat ≤ g.toNat := by
  bv_omega

theorem toNat_le_succ {g : EpochType} (h : g ≠ -1) : g.toNat ≤ (g + 1).toNat := by
  bv_omega

/-- Except in `newEpoch`, a step takes from the countdown what the thread no
    longer owes, and leaves the thread behind the epoch. -/
theorem mainStep_exact (hok : th.Ok gc.globalEpoch) (hoff : th.handler = .off)
    (hb : th.Behind gc.globalEpoch) (hg : gc.globalEpoch ≠ 0)
    (hs : mainStep gc t th = some (gc', th')) (hadv : ∀ c, th.pc ≠ .epochAdvance c)
    (hres : ∀ c, th.pc ≠ .epochReset c) :
    th'.Behind gc.globalEpoch ∧
      gc.remaining + th'.owes gc.globalEpoch = gc'.remaining + th.owes gc.globalEpoch ∧
      ¬th'.pc.Resetting := by
  obtain ⟨l, a, pc, hd⟩ := th
  obtain ⟨hc, hk, -, -, -⟩ := hok
  subst hoff
  have hsub := toNat_sub_one_le hg
  have hlt : l < gc.globalEpoch ↔ l.toNat < gc.globalEpoch.toNat := BitVec.lt_def
  have heq : l = gc.globalEpoch ↔ l.toNat = gc.globalEpoch.toNat := BitVec.toNat_inj.symm
  have hl := hb.localEpoch
  cases pc <;>
    simp only [mainStep, Option.map_eq_some_iff, Option.some.injEq, Prod.mk.injEq,
      reduceCtorEq, Pc.Counts, Pc.Knows] at hs hc hk
  case attachLock | detachLock | safepointLock | scheduleLock =>
    obtain ⟨gc₁, hlk, rfl, rfl⟩ := hs
    obtain ⟨-, rfl⟩ := lock_eq_some hlk
    exact ⟨⟨fun ha _ _ => hl ha (by simp) (by simp), by simp⟩, rfl, by simp⟩
  case epochDelete =>
    split at hs <;> obtain ⟨rfl, rfl⟩ := Prod.mk.inj (Option.some.inj hs) <;>
      exact ⟨⟨fun ha _ _ => hl ha (by simp) (by simp), by simp⟩, rfl, by simp⟩
  case epochMove c =>
    obtain ⟨rfl, rfl⟩ := hs
    cases c <;> exact ⟨⟨fun ha _ _ => hl ha (by simp) (by simp), by simp⟩, rfl, by simp [Caller.next]⟩
  case epochAdvance c => exact absurd rfl (hadv c)
  case epochReset c => exact absurd rfl (hres c)
  all_goals
    obtain ⟨rfl, rfl⟩ := hs
    refine ⟨⟨?_, by simp⟩, ?_, ?_⟩ <;> simp_all [Thread.owes] <;> (try split_ifs) <;> grind

end Main

/-! ## Preservation -/

section Preservation

variable [Fintype Tid] [DecidableEq Tid] {σ : State Tid Table} {t : Tid}

/-- A step that does not change the epoch keeps the countdown exact, if it takes
    from it what the thread no longer owes, and nothing between the stores of
    `newEpoch`. -/
theorem Exact.set (h : Exact σ) {gc : GC Tid Table} {th : Thread Table}
    (hI : Inv (σ.set t (gc, th))) (hg : gc.globalEpoch = σ.gc.globalEpoch)
    (hb : th.Behind σ.gc.globalEpoch)
    (hrem : σ.gc.remaining + th.owes σ.gc.globalEpoch =
      gc.remaining + (σ.threads t).owes σ.gc.globalEpoch)
    (hres : th.pc.Resetting ↔ (σ.threads t).pc.Resetting)
    (hwin : (∀ v, ¬(σ.threads v).pc.Resetting) ∨ th.count = (σ.threads t).count ∧
      th.owes σ.gc.globalEpoch = (σ.threads t).owes σ.gc.globalEpoch) :
    Exact (σ.set t (gc, th)) := by
  have hother : ∀ u ≠ t, (σ.set t (gc, th)).threads u = σ.threads u := fun u hu =>
    σ.set_threads_of_ne _ _ hu
  have hself : (σ.set t (gc, th)).threads t = th := σ.set_threads_self t (gc, th)
  have hgc : (σ.set t (gc, th)).gc.globalEpoch = σ.gc.globalEpoch := hg
  have hres' : ∀ v, ((σ.set t (gc, th)).threads v).pc.Resetting ↔
      (σ.threads v).pc.Resetting := fun v => by
    by_cases hv : v = t
    · rw [hv, hself, hres]
    · rw [hother v hv]
  refine ⟨hI, hgc ▸ h.started, fun u => ?_, fun hr => ?_, fun v hv u => ?_⟩
  · rw [hgc]
    by_cases hu : u = t
    · rwa [hu, hself]
    · rw [hother u hu]; exact h.behind u
  · have hexact := h.exact fun v hv => hr v ((hres' v).2 hv)
    have hsum := ThreadSum.sum_update (fun x : Thread Table => x.owes σ.gc.globalEpoch)
      σ.threads t th
    rw [hgc]
    simp only [State.set] at hsum ⊢
    omega
  · have hv' := (hres' v).1 hv
    rcases hwin with hwin | ⟨hcount, howes⟩
    · exact absurd hv' (hwin v)
    · rw [hgc]
      by_cases hu : u = t
      · rw [hu, hself, howes, hcount]; exact h.renewed v hv' t
      · rw [hother u hu]; exact h.renewed v hv' u

/-- The epoch changes: every attached thread now owes the new one. -/
theorem Exact.advance (h : Exact σ) {c : Caller} (hpc : (σ.threads t).pc = .epochAdvance c)
    (hg : σ.gc.globalEpoch ≠ -1) {p : GC Tid Table × Thread Table}
    (hs : mainStep σ.gc t (σ.threads t) = some p) (hI : Inv (σ.set t p)) :
    Exact (σ.set t p) := by
  have hzero := h.inv.settled t (by simp [hpc])
  have hothers : ∀ u ≠ t, ¬(σ.threads u).pc.Critical := fun u hu => h.inv.alone hs hu
  have hle := toNat_le_succ hg
  have hb : ∀ u, (σ.threads u).Behind (σ.gc.globalEpoch + 1) := fun u =>
    ⟨fun ha h₁ h₂ => ((h.behind u).localEpoch ha h₁ h₂).trans hle,
      fun g' hg' => ((h.behind u).store g' hg').trans hle⟩
  simp only [mainStep, hpc, Option.some.injEq] at hs
  subst hs
  refine ⟨hI, ?_, fun u => ?_, fun hr => ?_, fun _ _ u => ?_⟩
  · simp only [State.set_gc]
    bv_omega
  · by_cases hu : u = t
    · subst hu
      rw [State.set_threads_self]
      exact ⟨fun ha _ _ => (hb u).localEpoch ha (by simp [hpc]) (by simp [hpc]), (hb u).store⟩
    · rw [σ.set_threads_of_ne _ _ hu]
      exact hb u
  · exact absurd (by simp) (hr t)
  · have hok := hI.ok u
    simp only [State.set_gc] at hok ⊢
    have h0 : ((σ.set t ({ σ.gc with globalEpoch := σ.gc.globalEpoch + 1 },
        { σ.threads t with pc := .epochReset c })).threads u).owes σ.gc.globalEpoch = 0 := by
      by_cases hu : u = t
      · subst hu
        rw [State.set_threads_self, ← hzero u]
        simp only [Thread.owes, hpc]
      · rw [σ.set_threads_of_ne _ _ hu]
        exact hzero u
    have hcrit : ((σ.set t ({ σ.gc with globalEpoch := σ.gc.globalEpoch + 1 },
        { σ.threads t with pc := .epochReset c })).threads u).pc = .epochReset c ∨
        ¬((σ.set t ({ σ.gc with globalEpoch := σ.gc.globalEpoch + 1 },
          { σ.threads t with pc := .epochReset c })).threads u).pc.Critical := by
      by_cases hu : u = t
      · subst hu
        exact .inl (by rw [State.set_threads_self])
      · rw [σ.set_threads_of_ne _ _ hu]
        exact .inr (hothers u hu)
    generalize (σ.set t ({ σ.gc with globalEpoch := σ.gc.globalEpoch + 1 },
      { σ.threads t with pc := .epochReset c })).threads u = th at hok h0 hcrit
    exact Thread.owes_succ_eq_count hok h0 (hcrit.imp_left fun hc => ⟨c, hc⟩)

/-- The countdown starts again at the number of attached threads, all of which
    owe the new epoch. -/
theorem Exact.reset (h : Exact σ) {c : Caller} (hpc : (σ.threads t).pc = .epochReset c)
    {p : GC Tid Table × Thread Table} (hs : mainStep σ.gc t (σ.threads t) = some p)
    (hI : Inv (σ.set t p)) : Exact (σ.set t p) := by
  have hothers : ∀ u ≠ t, ¬(σ.threads u).pc.Critical := fun u hu => h.inv.alone hs hu
  have hrenewed := h.renewed t (by simp [hpc])
  have hsum := ThreadSum.sum_update_eq (fun x : Thread Table => x.owes σ.gc.globalEpoch)
    σ.threads t (x := { σ.threads t with pc := .epochMove c }) (by simp only [Thread.owes, hpc])
  simp only [mainStep, hpc, Option.some.injEq] at hs
  subst hs
  refine ⟨hI, h.started, fun u => ?_, fun _ => ?_, fun u hu => ?_⟩
  · by_cases hu : u = t
    · subst hu
      rw [State.set_threads_self]
      exact ⟨fun ha _ _ => (h.behind u).localEpoch ha (by simp [hpc]) (by simp [hpc]),
        (h.behind u).store⟩
    · rw [σ.set_threads_of_ne _ _ hu]
      exact h.behind u
  · simp only [State.set] at hsum ⊢
    rw [hsum, h.inv.total]
    exact congrArg _ (Finset.sum_congr rfl fun u _ => (hrenewed u).symm)
  · by_cases hut : u = t
    · subst hut; simp at hu
    · rw [σ.set_threads_of_ne _ _ hut] at hu
      exact absurd hu.critical (hothers u hut)

theorem Exact.main (h : Exact σ) (hoff : (σ.threads t).handler = .off)
    (hl : ¬Wraps σ (.main t)) {p : GC Tid Table × Thread Table}
    (hs : mainStep σ.gc t (σ.threads t) = some p) (hI : Inv (σ.set t p)) :
    Exact (σ.set t p) := by
  by_cases hadv : ∃ c, (σ.threads t).pc = .epochAdvance c
  · obtain ⟨c, hc⟩ := hadv
    exact h.advance hc (fun hg => hl ⟨by cases c <;> simp [hc], hg⟩) hs hI
  by_cases hres : ∃ c, (σ.threads t).pc = .epochReset c
  · obtain ⟨c, hc⟩ := hres
    exact h.reset hc hs hI
  push Not at hadv hres
  obtain ⟨gc, th⟩ := p
  obtain ⟨hg, -, -⟩ := mainStep_owes (h.inv.ok t) hoff hs hadv hres
  obtain ⟨hb, hrem, hnr⟩ := mainStep_exact (h.inv.ok t) hoff (h.behind t) h.started hs hadv hres
  have hnr' : ∀ v, ¬(σ.threads v).pc.Resetting := fun v hv => by
    by_cases hvt : v = t
    · subst hvt
      cases hpc : (σ.threads v).pc <;> simp_all
    · exact h.inv.alone hs hvt hv.critical
  exact h.set hI hg hb hrem (iff_of_false hnr (hnr' t)) (.inl hnr')

/-- A call begins. -/
theorem Exact.call (h : Exact σ) {pc : Pc Table} (hfree : (σ.threads t).Free)
    (hpc : ¬pc.Critical) (hc : pc.Counts (σ.threads t).attached) : Exact (σ.call t pc) := by
  have hI := h.inv.call hfree hpc hc
  obtain ⟨hidle, hoff⟩ := hfree
  have howes : Thread.owes { σ.threads t with pc := pc } σ.gc.globalEpoch =
      (σ.threads t).owes σ.gc.globalEpoch := by
    cases pc <;> simp_all [Thread.owes]
  refine h.set hI rfl ⟨fun ha _ _ => ?_, (h.behind t).store⟩ (by rw [howes])
    (iff_of_false (fun hr => hpc hr.critical) (by simp [hidle])) (.inr ⟨rfl, howes⟩)
  exact (h.behind t).localEpoch ha (by simp [hidle]) (by simp [hidle])

/-- A handler moves. -/
theorem Exact.handler (h : Exact σ) (hl : Orderly σ (.handler t))
    {p : GC Tid Table × Thread Table} (hs : handlerStep σ.gc (σ.threads t) = some p) :
    Exact (σ.set t p) := by
  have hI := h.inv.handler hl.1 hs
  obtain ⟨gc, th⟩ := p
  obtain ⟨hgc, hpc, ha, hok, -, hrem, hsame⟩ :=
    handlerStep_owes (h.inv.ok t) (fun hh hp => hl.1 ⟨hh, hp⟩) hs
  have hb : th.Behind σ.gc.globalEpoch := by
    obtain ⟨hlocal, hstore⟩ := h.behind t
    cases hd : (σ.threads t).handler <;>
      simp only [handlerStep, hd, Option.some.injEq, Prod.mk.injEq, reduceCtorEq] at hs <;>
      obtain ⟨-, rfl⟩ := hs
    case load => exact ⟨hlocal, by split <;> simp⟩
    case sub g =>
      refine ⟨hlocal, fun g' hg' => ?_⟩
      rw [← HandlerPc.store.inj hg', ((h.inv.ok t).sub g hd).1]
    case store g => exact ⟨fun _ _ _ => hstore g hd, by simp⟩
  have hg : gc.globalEpoch = σ.gc.globalEpoch := by rw [hgc]
  refine h.set hI hg hb hrem (by rw [hpc]) ?_
  by_cases hh : (σ.threads t).handler.Passing
  · exact .inl fun v hv => hl.2.1 ⟨hh, v, hv⟩
  · exact .inr ⟨by simp only [Thread.count, ha], hsame hh⟩

/-- Every orderly step keeps the countdown exact. -/
theorem Exact.next [DecidableEq Table] {σ' : State Tid Table} {l : Label Tid Table}
    (h : Exact σ) (hl : Orderly σ l) (hn : (system Tid Table).next σ l = some σ') : Exact σ' := by
  have hI := h.inv.next hl.1 hn
  cases l <;> simp only [system, State.next, Option.ite_none_right_eq_some, Option.some.injEq,
    Option.map_eq_some_iff] at hn
  case attachThread t =>
    obtain ⟨⟨hf, ha⟩, rfl⟩ := hn
    exact h.call hf (by simp) ha
  case detachThread t =>
    obtain ⟨⟨hf, ha⟩, rfl⟩ := hn
    split
    · exact h.call hf (by simp) ha
    · exact h
  case safepoint t =>
    obtain ⟨⟨hf, ha⟩, rfl⟩ := hn
    exact h.call hf (by simp) ha
  case scheduleDelete t x =>
    obtain ⟨hf, rfl⟩ := hn
    exact h.call hf (by simp) trivial
  case main t =>
    obtain ⟨hoff, p, hs, rfl⟩ := hn
    exact h.main hoff hl.2.2 hs hI
  case signal t =>
    obtain ⟨⟨hoff, hp⟩, rfl⟩ := hn
    have howes : Thread.owes { σ.threads t with handler := .load } σ.gc.globalEpoch =
        (σ.threads t).owes σ.gc.globalEpoch := by
      simp only [Thread.owes, hoff]
    exact h.set hI rfl ⟨(h.behind t).localEpoch, by simp⟩ (by rw [howes]) Iff.rfl
      (.inr ⟨rfl, howes⟩)
  case handler t =>
    obtain ⟨p, hs, rfl⟩ := hn
    exact h.handler hl hs

omit [DecidableEq Tid] in
theorem Exact.initial : Exact (State.initial : State Tid Table) :=
  ⟨.initial, by simp [State.initial], fun _ => ⟨by simp [State.initial], by simp [State.initial]⟩,
    by simp [State.initial, Thread.owes], by simp [State.initial]⟩

/-- The countdown is exact in every orderly run. -/
theorem exact_of_run [DecidableEq Table] {σ' : State Tid Table}
    {tr : List (State Tid Table × Label Tid Table)} (h : Exact σ)
    (hr : (system Tid Table).Run Orderly σ tr σ') : Exact σ' :=
  hr.invariant (fun _ _ _ ha hl hn => ha.next hl hn) h

/-! ## Outside all calls -/

/-- No thread is in a call or in a handler. -/
def State.Quiescent (σ : State Tid Table) : Prop := ∀ t, (σ.threads t).Free

instance [DecidableEq Table] (σ : State Tid Table) : Decidable σ.Quiescent :=
  inferInstanceAs (Decidable (∀ _, _))

/-- The thread is attached and has not passed the epoch `g`. -/
def Thread.Below (th : Thread Table) (g : EpochType) : Prop :=
  th.attached = true ∧ th.localEpoch < g

instance (th : Thread Table) (g : EpochType) : Decidable (th.Below g) :=
  inferInstanceAs (Decidable (_ ∧ _))

theorem Thread.Behind.owes_eq {th : Thread Table} {g : EpochType} (h : th.Behind g)
    (hf : th.Free) : th.owes g = if th.Below g then 1 else 0 := by
  obtain ⟨l, a, pc, hd⟩ := th
  obtain ⟨hidle, hoff⟩ := hf
  simp only at hidle hoff
  subst hidle hoff
  have hl := h.localEpoch
  have hlt : l < g ↔ l.toNat < g.toNat := BitVec.lt_def
  have heq : l = g ↔ l.toNat = g.toNat := BitVec.toNat_inj.symm
  cases a <;> simp_all [Thread.owes, Thread.Below]
  split_ifs <;> omega

omit [DecidableEq Tid] in
/-- With no call in progress, the countdown is the number of attached threads
    that have not passed the epoch. -/
theorem Exact.remaining_eq (h : Exact σ) (hq : σ.Quiescent) :
    σ.gc.remaining = Fintype.card {t // (σ.threads t).Below σ.gc.globalEpoch} := by
  rw [h.exact fun t => by simp [(hq t).1], Fintype.card_subtype, Finset.card_filter]
  exact congrArg _ (Finset.sum_congr rfl fun t _ => (h.behind t).owes_eq (hq t))

end Preservation

/-! ## The next safepoint ends the epoch -/

/-- The thread is in `attachThread`. -/
@[simp] def Pc.Attaching : Pc Table → Prop
  | .attachLock | .attachTotal | .attachAdd | .attachLoad => True
  | _ => False

/-- The thread is in `safepoint` or `detachThread`, and has still to find out
    whether the epoch ends. -/
@[simp] def Pc.Deciding : Pc Table → Prop
  | .safepointLock | .safepointRead | .safepointCompare _ | .safepointReload | .safepointStore _
  | .safepointSub | .safepointRemaining | .detachLock | .detachTotal | .detachCompare
  | .detachSub | .detachRemaining => True
  | _ => False

/-- A call of `safepoint` or `detachThread` begins. -/
@[simp] def Label.Decides : Label Tid Table → Prop
  | .safepoint _ | .detachThread _ => True
  | _ => False

/-- A call of `attachThread` begins. -/
@[simp] def Label.Attaches : Label Tid Table → Prop
  | .attachThread _ => True
  | _ => False

/-- The epoch is the one of `gc`, and no attached thread has still to pass it.
    If `C`, some thread is about to end it. -/
structure Ending [DecidableEq Table] (σ : State Tid Table) (gc : GC Tid Table) (C : Prop) :
    Prop where
  epoch : σ.gc.globalEpoch = gc.globalEpoch
  garbage : ∀ x, σ.gc.oldGarbage.count x + σ.gc.deleted.count x =
    gc.oldGarbage.count x + gc.deleted.count x
  owes : ∀ u, (σ.threads u).owes σ.gc.globalEpoch = 0
  pc : ∀ u, ¬(σ.threads u).pc.Attaching ∧ ¬(σ.threads u).pc.Renewing
  deciding : C → ∃ u, (σ.threads u).pc.Deciding ∨ (σ.threads u).pc.Advancing

/-- The epoch of `gc` has ended, and what was old garbage in it has been deleted. -/
structure Ended [DecidableEq Table] (σ : State Tid Table) (gc : GC Tid Table) : Prop where
  epoch : gc.globalEpoch.toNat < σ.gc.globalEpoch.toNat
  deleted : ∀ x, gc.oldGarbage.count x + gc.deleted.count x ≤ σ.gc.deleted.count x

section Main

variable {gc gc' : GC Tid Table} {t : Tid} {th th' : Thread Table}

/-- A thread that finds the countdown at zero goes on to `newEpoch`. -/
theorem mainStep_deciding (hs : mainStep gc t th = some (gc', th'))
    (hpc : ¬th.pc.Attaching ∧ ¬th.pc.Renewing) :
    ¬th'.pc.Attaching ∧ gc'.remaining ≤ gc.remaining ∧
      (th.pc.Deciding → gc'.remaining = 0 → th'.pc.Deciding ∨ th'.pc.Advancing) ∧
      (th.pc.Advancing → (∀ c, th.pc ≠ .epochAdvance c) → th'.pc.Advancing) := by
  obtain ⟨l, a, pc, hd⟩ := th
  obtain ⟨hna, hnr⟩ := hpc
  cases pc <;>
    simp only [mainStep, Option.map_eq_some_iff, Option.some.injEq, Prod.mk.injEq,
      reduceCtorEq, Pc.Attaching, Pc.Renewing, not_true_eq_false] at hs hna hnr
  case detachLock | safepointLock | scheduleLock =>
    obtain ⟨gc₁, hl, rfl, rfl⟩ := hs
    obtain ⟨-, rfl⟩ := lock_eq_some hl
    simp
  case epochDelete =>
    split at hs <;> obtain ⟨rfl, rfl⟩ := Prod.mk.inj (Option.some.inj hs) <;> simp
  all_goals
    obtain ⟨rfl, rfl⟩ := hs
    simp <;> (try split_ifs) <;> simp_all

/-- The epochs never go back, nor are tables undeleted. -/
theorem mainStep_mono [DecidableEq Table] (hs : mainStep gc t th = some (gc', th'))
    (hg : (∃ c, th.pc = .epochAdvance c) → gc.globalEpoch ≠ -1) :
    gc.globalEpoch.toNat ≤ gc'.globalEpoch.toNat ∧
      ∀ x, gc.deleted.count x ≤ gc'.deleted.count x := by
  obtain ⟨l, a, pc, hd⟩ := th
  cases pc <;>
    simp only [mainStep, Option.map_eq_some_iff, Option.some.injEq, Prod.mk.injEq,
      reduceCtorEq] at hs
  case attachLock | detachLock | safepointLock | scheduleLock =>
    obtain ⟨gc₁, hl, rfl, rfl⟩ := hs
    obtain ⟨-, rfl⟩ := lock_eq_some hl
    simp
  case epochDelete =>
    split at hs <;> obtain ⟨rfl, rfl⟩ := Prod.mk.inj (Option.some.inj hs) <;>
      simp [List.count_cons]
  case epochAdvance c =>
    obtain ⟨rfl, rfl⟩ := hs
    exact ⟨toNat_le_succ (hg ⟨c, rfl⟩), fun _ => le_rfl⟩
  all_goals
    obtain ⟨rfl, rfl⟩ := hs
    exact ⟨le_rfl, fun _ => le_rfl⟩

end Main

variable [Fintype Tid] [DecidableEq Tid] [DecidableEq Table] {σ σ' : State Tid Table} {t : Tid}
  {gc : GC Tid Table} {C C' : Prop}

omit [DecidableEq Tid] in
/-- The countdown is at zero as long as the epoch is ending. -/
theorem Ending.remaining (h : Ending σ gc C) (hE : Exact σ) : σ.gc.remaining = 0 := by
  rw [hE.exact fun u hr => (h.pc u).2 (by cases hp : (σ.threads u).pc <;> simp_all)]
  exact_mod_cast ThreadSum.sum_eq_zero_iff.2 h.owes

omit [Fintype Tid] in
/-- A step that leaves the garbage and the epoch alone. -/
theorem Ending.set (h : Ending σ gc C) {gc' : GC Tid Table} {th : Thread Table}
    (hg : gc'.globalEpoch = σ.gc.globalEpoch)
    (hold : ∀ x, gc'.oldGarbage.count x + gc'.deleted.count x =
      σ.gc.oldGarbage.count x + σ.gc.deleted.count x)
    (ho : th.owes σ.gc.globalEpoch = 0) (hpc : ¬th.pc.Attaching ∧ ¬th.pc.Renewing)
    (hdec : (σ.threads t).pc.Deciding ∨ (σ.threads t).pc.Advancing →
      th.pc.Deciding ∨ th.pc.Advancing)
    (hC : C' → C ∨ th.pc.Deciding) : Ending (σ.set t (gc', th)) gc C' := by
  have hother : ∀ u ≠ t, (σ.set t (gc', th)).threads u = σ.threads u := fun u hu =>
    σ.set_threads_of_ne _ _ hu
  have hself : (σ.set t (gc', th)).threads t = th := σ.set_threads_self t (gc', th)
  refine ⟨hg.trans h.epoch, fun x => (hold x).trans (h.garbage x), fun u => ?_, fun u => ?_,
    fun hc => ?_⟩
  · rw [State.set_gc, hg]
    by_cases hu : u = t
    · rw [hu, hself, ho]
    · rw [hother u hu, h.owes u]
  · by_cases hu : u = t
    · rw [hu, hself]
      exact hpc
    · rw [hother u hu]
      exact h.pc u
  · rcases hC hc with hc | hd
    · obtain ⟨u, hu⟩ := h.deciding hc
      by_cases hut : u = t
      · exact ⟨t, by rw [hself]; exact hdec (hut ▸ hu)⟩
      · exact ⟨u, by rwa [hother u hut]⟩
    · exact ⟨t, by rw [hself]; exact .inl hd⟩

omit [Fintype Tid] in
/-- A call that does not attach begins. -/
theorem Ending.call (h : Ending σ gc C) {pc : Pc Table} (hfree : (σ.threads t).Free)
    (hpc : ¬pc.Critical) (hna : ¬pc.Attaching) (hC : C' → C ∨ pc.Deciding) :
    Ending (σ.call t pc) gc C' := by
  obtain ⟨hidle, hoff⟩ := hfree
  refine h.set rfl (fun _ => rfl) ?_ ⟨hna, fun hr => hpc hr.critical⟩ (by simp [hidle]) hC
  rw [← h.owes t]
  cases pc <;> simp_all [Thread.owes]

/-- A step of a call either ends the epoch, or goes on ending it. -/
theorem Ending.main (h : Ending σ gc C) (hE : Exact σ) (hoff : (σ.threads t).handler = .off)
    (hl : ¬Wraps σ (.main t)) {p : GC Tid Table × Thread Table}
    (hs : mainStep σ.gc t (σ.threads t) = some p) :
    Ended (σ.set t p) gc ∨ Ending (σ.set t p) gc C := by
  obtain ⟨gc', th⟩ := p
  by_cases hadv : ∃ c, (σ.threads t).pc = .epochAdvance c
  · obtain ⟨c, hc⟩ := hadv
    have hold := hE.inv.emptied t c hc
    have hg : σ.gc.globalEpoch ≠ -1 := fun hg => hl ⟨by cases c <;> simp [hc], hg⟩
    simp only [mainStep, hc, Option.some.injEq, Prod.mk.injEq] at hs
    obtain ⟨rfl, rfl⟩ := hs
    refine .inl ⟨?_, fun x => ?_⟩
    · rw [State.set_gc, ← h.epoch]
      bv_omega
    · rw [State.set_gc, ← h.garbage x, hold]
      simp
  · push Not at hadv
    have hres : ∀ c, (σ.threads t).pc ≠ .epochReset c := fun c hc => (h.pc t).2 (by simp [hc])
    obtain ⟨hg, -, -⟩ := mainStep_owes (hE.inv.ok t) hoff hs hadv hres
    obtain ⟨-, hrem, -⟩ := mainStep_exact (hE.inv.ok t) hoff (hE.behind t) hE.started hs hadv hres
    obtain ⟨hna, hle, hdec, hadv'⟩ := mainStep_deciding hs (h.pc t)
    have h0 := h.remaining hE
    rw [h.owes t] at hrem
    have ho : th.owes σ.gc.globalEpoch = 0 := by omega
    refine .inr (h.set hg (fun x => (mainStep_garbage x hs).2 (h.pc t).2) ho ⟨hna, fun hr => ?_⟩
      (fun hd => ?_) .inl)
    · rcases mainStep_renewing hs hr with ⟨c, hc⟩ | hr
      · exact hadv c hc
      · exact (h.pc t).2 hr
    · rcases hd with hd | hd
      · exact hdec hd (by omega)
      · exact .inr (hadv' hd hadv)

omit [Fintype Tid] in
/-- An epoch ended stays ended. -/
theorem Ended.next (h : Ended σ gc) {l : Label Tid Table} (hl : Orderly σ l)
    (hn : (system Tid Table).next σ l = some σ') : Ended σ' gc := by
  have hmono : σ.gc.globalEpoch.toNat ≤ σ'.gc.globalEpoch.toNat ∧
      ∀ x, σ.gc.deleted.count x ≤ σ'.gc.deleted.count x := by
    cases l <;> simp only [system, State.next, Option.ite_none_right_eq_some, Option.some.injEq,
      Option.map_eq_some_iff] at hn
    case attachThread | safepoint | scheduleDelete | signal =>
      obtain ⟨-, rfl⟩ := hn
      exact ⟨le_rfl, fun _ => le_rfl⟩
    case detachThread t =>
      obtain ⟨-, rfl⟩ := hn
      split <;> exact ⟨le_rfl, fun _ => le_rfl⟩
    case main t =>
      obtain ⟨hoff, p, hs, rfl⟩ := hn
      refine mainStep_mono hs fun hex hg => hl.2.2 ⟨?_, hg⟩
      obtain ⟨c, hc⟩ := hex
      cases c <;> simp [hc]
    case handler t =>
      obtain ⟨p, hs, rfl⟩ := hn
      cases hd : (σ.threads t).handler <;>
        simp only [handlerStep, hd, Option.some.injEq, reduceCtorEq] at hs <;> subst hs <;>
        exact ⟨le_rfl, fun _ => le_rfl⟩
  exact ⟨h.epoch.trans_le hmono.1, fun x => (h.deleted x).trans (hmono.2 x)⟩

/-- A step that does not begin an `attachThread` either ends the epoch, or goes on
    ending it; a call of `safepoint` or `detachThread` begins to. -/
theorem Ending.next (h : Ending σ gc C) (hE : Exact σ) (hg : gc.globalEpoch ≠ -1)
    {l : Label Tid Table} (hl : Orderly σ l) (hna : ¬l.Attaches)
    (hn : (system Tid Table).next σ l = some σ') (hC : C' → C ∨ l.Decides) :
    Ended σ' gc ∨ Ending σ' gc C' := by
  cases l <;> simp only [system, State.next, Option.ite_none_right_eq_some, Option.some.injEq,
    Option.map_eq_some_iff, Label.Decides, or_false] at hn hC
  case attachThread t => exact absurd trivial hna
  case detachThread t =>
    obtain ⟨⟨hf, ha⟩, rfl⟩ := hn
    have hlocal : (σ.threads t).localEpoch = σ.gc.globalEpoch := by
      have ho := h.owes t
      rw [Thread.owes, hf.1, hf.2] at ho
      simpa [ha] using ho
    rw [if_pos (by rw [hlocal, h.epoch]; exact hg)]
    exact .inr (h.call hf (by simp) (by simp) fun _ => .inr (by simp))
  case safepoint t =>
    obtain ⟨⟨hf, -⟩, rfl⟩ := hn
    exact .inr (h.call hf (by simp) (by simp) fun _ => .inr (by simp))
  case scheduleDelete t x =>
    obtain ⟨hf, rfl⟩ := hn
    exact .inr (h.call hf (by simp) (by simp) fun hc => .inl (hC hc))
  case main t =>
    obtain ⟨hoff, p, hs, rfl⟩ := hn
    refine (h.main hE hoff hl.2.2 hs).imp_right fun h' => ?_
    exact ⟨h'.epoch, h'.garbage, h'.owes, h'.pc, fun hc => h'.deciding (hC hc)⟩
  case signal t =>
    obtain ⟨⟨hoff, hp⟩, rfl⟩ := hn
    refine .inr (h.set rfl (fun _ => rfl) ?_ (h.pc t) id fun hc => .inl (hC hc))
    rw [← h.owes t]
    simp only [Thread.owes, hoff]
  case handler t =>
    obtain ⟨⟨gc', th⟩, hs, rfl⟩ := hn
    obtain ⟨hgc, hpc, -, -, hle, -, -⟩ :=
      handlerStep_owes (hE.inv.ok t) (fun hh hp => hl.1 ⟨hh, hp⟩) hs
    refine .inr (h.set (by rw [hgc]) (fun x => by rw [hgc]) ?_ (by rw [hpc]; exact h.pc t)
      (by rw [hpc]; exact id) fun hc => .inl (hC hc))
    have := h.owes t
    omega

omit [DecidableEq Tid] in
/-- With no call in progress and no attached thread below the epoch, the epoch is
    ready to end. -/
theorem Exact.ending (h : Exact σ) (hq : σ.Quiescent)
    (hb : ∀ t, ¬(σ.threads t).Below σ.gc.globalEpoch) : Ending σ σ.gc False :=
  ⟨rfl, fun _ => rfl, fun u => by rw [(h.behind u).owes_eq (hq u), if_neg (hb u)],
    fun u => by simp [(hq u).1], False.elim⟩

/-- In every orderly run, with no call in progress, the countdown is the number
    of attached threads that have not passed the epoch. When it is zero, any
    orderly continuation to a state with no call in progress ends the epoch, and
    deletes the old garbage, if it has a call of `safepoint` or `detachThread`
    and none of `attachThread`, until the epochs run out. -/
theorem countdown_exact {tr : List (State Tid Table × Label Tid Table)}
    (h : (system Tid Table).Run Orderly State.initial tr σ) (hq : σ.Quiescent) :
    σ.gc.remaining = Fintype.card {t // (σ.threads t).Below σ.gc.globalEpoch} ∧
      ((∀ t, ¬(σ.threads t).Below σ.gc.globalEpoch) → σ.gc.globalEpoch ≠ -1 →
        ∀ tr' σ', (system Tid Table).Run Orderly σ tr' σ' → σ'.Quiescent →
          (∃ a ∈ tr', a.2.Decides) → (∀ a ∈ tr', ¬a.2.Attaches) → Ended σ' σ.gc) := by
  have hE : Exact σ := exact_of_run .initial h
  refine ⟨hE.remaining_eq hq, fun hb hg tr' σ' hr hq' hd hna => ?_⟩
  have hrun : Exact σ' ∧ ((∃ a ∈ tr', a.2.Attaches) ∨ Ended σ' σ.gc ∨
      Ending σ' σ.gc (∃ a ∈ tr', a.2.Decides)) := by
    refine hr.traceInvariant (I := fun tr σ₁ => Exact σ₁ ∧ ((∃ a ∈ tr, a.2.Attaches) ∨
      Ended σ₁ σ.gc ∨ Ending σ₁ σ.gc (∃ a ∈ tr, a.2.Decides))) ?_ ?_
    · rintro tr a l b ⟨hE, ⟨c, hc, ha⟩ | h | h⟩ hl hn
      · exact ⟨hE.next hl hn, .inl ⟨c, by simp [hc], ha⟩⟩
      · exact ⟨hE.next hl hn, .inr (.inl (h.next hl hn))⟩
      · refine ⟨hE.next hl hn, ?_⟩
        by_cases ha : l.Attaches
        · exact .inl ⟨_, List.mem_append_right _ (List.mem_singleton_self _), ha⟩
        · refine .inr (h.next hE hg hl ha hn ?_)
          rintro ⟨c, hc, hd⟩
          rcases List.mem_append.1 hc with hc | hc
          · exact .inl ⟨c, hc, hd⟩
          · rw [List.mem_singleton.1 hc] at hd
            exact .inr hd
    · exact ⟨hE, .inr (.inr (by simpa using hE.ending hq hb))⟩
  rcases hrun.2 with ⟨a, ha, hc⟩ | h | h
  · exact absurd hc (hna a ha)
  · exact h
  · obtain ⟨u, hu⟩ := h.deciding hd
    simp [(hq' u).1] at hu

/-- A thread attaches, a handler passes the epoch for it, and its `safepoint` ends
    the epoch. -/
theorem countdown_exact_single :
    ∃ σ σ' : State (Fin 1) Unit, σ.gc.remaining = 0 ∧ Ended σ' σ.gc := by
  have hrun : (((system (Fin 1) Unit).exec Orderly State.initial
      (attachSchedule 0 ++ handlerSchedule 0)).any fun σ =>
        decide (σ.gc.remaining = 0 ∧ σ.Quiescent ∧ σ.gc.globalEpoch ≠ -1 ∧
          ∀ t, ¬(σ.threads t).Below σ.gc.globalEpoch) &&
        ((system (Fin 1) Unit).exec Orderly σ (.safepoint 0 :: List.replicate 9 (.main 0))).any
          fun σ' => decide σ'.Quiescent) = true := by decide
  simp only [Option.any_eq_true, Bool.and_eq_true, decide_eq_true_eq] at hrun
  obtain ⟨σ, h₁, ⟨h0, hq, hg, hb⟩, σ', h₂, hq'⟩ := hrun
  obtain ⟨tr, h₁, -⟩ := System.run_of_exec h₁
  obtain ⟨tr', h₂, htr'⟩ := System.run_of_exec h₂
  have hmem : ∀ l, l ∈ tr'.map Prod.snd → ∃ a ∈ tr', a.2 = l := fun l hl => by
    simpa using hl
  refine ⟨σ, σ', h0, (countdown_exact h₁ hq).2 hb hg tr' σ' h₂ hq' ?_ fun a ha hc => ?_⟩
  · obtain ⟨a, ha, hal⟩ := hmem (.safepoint 0) (by rw [htr']; simp)
    exact ⟨a, ha, by rw [hal]; trivial⟩
  · have : a.2 ∈ tr'.map Prod.snd := List.mem_map_of_mem ha
    rw [htr'] at this
    cases hal : a.2 <;> simp [hal] at this hc

/-- Handlers run on threads that are in no call. -/
def OnOthers (σ : State Tid Table) : Label Tid Table → Prop
  | .signal t | .handler t => (σ.threads t).pc = .idle
  | _ => True

instance (σ : State Tid Table) : ∀ l : Label Tid Table, Decidable (OnOthers σ l)
  | .signal t | .handler t => inferInstanceAs (Decidable ((σ.threads t).pc = .idle))
  | .attachThread _ | .detachThread _ | .safepoint _ | .scheduleDelete _ _ | .main _ =>
    .isTrue trivial

/-- The decrement of a handler that passes the new epoch just before `newEpoch`
    resets the countdown is lost. -/
theorem countdown_lost :
    ¬∀ (σ : State (Fin 2) Unit) (tr : List (State (Fin 2) Unit × Label (Fin 2) Unit)),
      (system (Fin 2) Unit).Run OnOthers State.initial tr σ → σ.Quiescent →
      σ.gc.remaining = Fintype.card {t // (σ.threads t).Below σ.gc.globalEpoch} := by
  intro hall
  have hrun : (((system (Fin 2) Unit).exec OnOthers State.initial
      (attachSchedule 0 ++ attachSchedule 1 ++ handlerSchedule 1 ++
        .safepoint 0 :: List.replicate 8 (.main 0) ++ handlerSchedule 1 ++
        List.replicate 3 (.main 0))).any fun σ =>
        decide (σ.Quiescent ∧ σ.gc.remaining = 2 ∧
          ¬(σ.threads 1).Below σ.gc.globalEpoch)) = true := by decide
  simp only [Option.any_eq_true, decide_eq_true_eq] at hrun
  obtain ⟨σ, h, hq, hrem, hb⟩ := hrun
  obtain ⟨tr, h, -⟩ := System.run_of_exec h
  have hlt : Fintype.card {t // (σ.threads t).Below σ.gc.globalEpoch} < Fintype.card (Fin 2) :=
    Fintype.card_subtype_lt hb
  rw [Fintype.card_fin] at hlt
  have := hall σ tr h hq
  omega

end FkProf.Gc
