import FkProf.Foundations.ThreadSum
import FkProf.Gc

/-!
# The countdown covers the threads that owe it a step

A thread *owes* the countdown a decrement (`Thread.owes`) while it is attached
and has not passed the current epoch, from the increment made by its
`attachThread` or the last `newEpoch` on. The invariant (`Inv`) says that
`remaining` is at least the number of threads that owe, except while `newEpoch`
is between its two stores. So when `remaining` is zero nobody owes, and nobody
does until the epoch has changed (`Inv.settled`).

One interleaving breaks it: a signal handler that passes the epoch for its
thread while the thread itself, inside `safepoint`, has already seen that it has
to. The thread then passes the same epoch a second time. The condition
`Undisturbed` excludes this step, and `Inv` holds in every run that meets it
(`inv_of_run`).
-/

namespace FkProf.Gc

variable {Tid Table : Type*}

/-- The thread holds the mutex. -/
@[simp] def Pc.Critical : Pc Table → Prop
  | .idle | .attachLock | .detachLock | .safepointLock | .scheduleLock _ => False
  | _ => True

/-- The thread is in `newEpoch`, before the epoch changes. -/
@[simp] def Pc.Advancing : Pc Table → Prop
  | .epochDelete _ | .epochAdvance _ => True
  | _ => False

/-- The thread is in `newEpoch`, between the stores to `globalEpoch` and to
    `remaining`. -/
@[simp] def Pc.Resetting : Pc Table → Prop
  | .epochReset _ => True
  | _ => False

/-- The thread is in `newEpoch`, after the epoch changed. -/
@[simp] def Pc.Renewing : Pc Table → Prop
  | .epochReset _ | .epochMove _ => True
  | _ => False

/-- The thread is in `safepoint`, between reading `localEpoch` (line 205) and
    storing it (line 206). -/
@[simp] def Pc.Passing : Pc Table → Prop
  | .safepointCompare _ | .safepointReload | .safepointStore _ => True
  | _ => False

instance (pc : Pc Table) : Decidable pc.Resetting := by
  cases pc <;> simp only [Pc.Resetting] <;> infer_instance

instance (pc : Pc Table) : Decidable pc.Passing := by
  cases pc <;> simp only [Pc.Passing] <;> infer_instance

/-- The handler is about to pass the epoch. -/
@[simp] def HandlerPc.Passing : HandlerPc → Prop
  | .sub _ => True
  | _ => False

instance (hd : HandlerPc) : Decidable hd.Passing := by
  cases hd <;> simp only [HandlerPc.Passing] <;> infer_instance

/-- The decrement of the countdown that the thread owes, in the epoch `g`. -/
def Thread.owes (th : Thread Table) (g : EpochType) : ℕ :=
  match th.pc with
  | .attachAdd => 0
  | .attachLoad | .safepointSub | .detachSub => 1
  | .detachCompare => if th.localEpoch < g then 1 else 0
  | _ =>
    if th.attached = true then
      match th.handler with
      | .store g' => if g' = g then 0 else 1
      | _ => if th.localEpoch = g then 0 else 1
    else 0

/-- Whether the collector counts the thread. -/
def Thread.count (th : Thread Table) : ℕ := if th.attached = true then 1 else 0

/-- Whether the collector counts a thread as attached, as far as the thread's call
    tells. -/
@[simp] def Pc.Counts : Pc Table → Bool → Prop
  | .attachLock, a | .attachTotal, a | .detachCompare, a | .detachSub, a
  | .detachRemaining, a | .detachReset, a => a = false
  | .epochDelete c, a | .epochAdvance c, a | .epochReset c, a | .epochMove c, a =>
    a = true ↔ c = .safepoint
  | .attachAdd, a | .attachLoad, a | .detachLock, a | .detachTotal, a | .safepointLock, a
  | .safepointRead, a | .safepointCompare _, a | .safepointReload, a | .safepointStore _, a
  | .safepointSub, a | .safepointRemaining, a => a = true
  | .idle, _ | .scheduleLock _, _ | .schedulePush _, _ | .unlock, _ => True

/-- What the call of a thread has read of its epoch `l` and of the epoch `g`. -/
@[simp] def Pc.Knows : Pc Table → EpochType → EpochType → Prop
  | .safepointCompare l', l, _ => l' = l
  | .safepointReload, l, g => l ≠ g
  | .safepointStore g', l, g => g' = g ∧ l ≠ g
  | .safepointSub, l, g => l = g
  | _, _, _ => True

/-- What holds of a thread, in the epoch `g`. -/
structure Thread.Ok (th : Thread Table) (g : EpochType) : Prop where
  counts : th.pc.Counts th.attached
  knows : th.pc.Knows th.localEpoch g
  published : th.handler ≠ .off → th.Published
  sub : ∀ g', th.handler = .sub g' → g' = g ∧ th.localEpoch ≠ g
  store : ∀ g', th.handler = .store g' → ¬th.pc.Passing ∧ th.pc ≠ .safepointSub

/-- Without a handler, only the call matters. -/
theorem Thread.Ok.of_off {th : Thread Table} {g : EpochType} (hoff : th.handler = .off)
    (hc : th.pc.Counts th.attached) (hk : th.pc.Knows th.localEpoch g) : th.Ok g :=
  ⟨hc, hk, by simp [hoff], by simp [hoff], by simp [hoff]⟩

/-- The invariant of the collector. -/
structure Inv [Fintype Tid] (σ : State Tid Table) : Prop where
  excl : ∀ t, (σ.threads t).pc.Critical → σ.gc.mutex = some t
  total : σ.gc.totalThreads = (∑ t, (σ.threads t).count : ℕ)
  ok : ∀ t, (σ.threads t).Ok σ.gc.globalEpoch
  settled : ∀ t, (σ.threads t).pc.Advancing → ∀ u, (σ.threads u).owes σ.gc.globalEpoch = 0
  emptied : ∀ t c, (σ.threads t).pc = .epochAdvance c → σ.gc.oldGarbage = []
  enough : (∀ t, ¬(σ.threads t).pc.Resetting) →
    ((∑ t, (σ.threads t).owes σ.gc.globalEpoch : ℕ) : ℤ) ≤ σ.gc.remaining

/-! ## Single steps -/

theorem Pc.Advancing.critical {pc : Pc Table} (h : pc.Advancing) : pc.Critical := by
  cases pc <;> simp_all

theorem Pc.Resetting.critical {pc : Pc Table} (h : pc.Resetting) : pc.Critical := by
  cases pc <;> simp_all

theorem Pc.Renewing.critical {pc : Pc Table} (h : pc.Renewing) : pc.Critical := by
  cases pc <;> simp_all

theorem epoch_ne_of_lt {l g : EpochType} (h : l < g) : l ≠ g := by
  rintro rfl
  exact BitVec.lt_irrefl _ h

theorem epoch_ne_succ (g : EpochType) : g ≠ g + 1 := by
  simp

theorem lock_eq_some {gc gc' : GC Tid Table} {t : Tid} (h : gc.lock t = some gc') :
    gc.mutex = none ∧ gc' = { gc with mutex := some t } := by
  unfold GC.lock at h
  split at h
  · exact ⟨Option.isNone_iff_eq_none.1 ‹_›, (Option.some.inj h).symm⟩
  · cases h

/-- Outside its critical sections, a thread owes at most what it counts. -/
theorem Thread.owes_le_count {th : Thread Table} {g : EpochType} (hc : ¬th.pc.Critical) :
    th.owes g ≤ th.count := by
  obtain ⟨l, a, pc, hd⟩ := th
  cases pc <;> simp only [Pc.Critical, not_true_eq_false] at hc <;>
    cases a <;> cases hd <;> simp only [Thread.owes, Thread.count, if_true] <;> grind

/-- A thread whose handler is about to pass the epoch owes it. -/
theorem Thread.Ok.owes_of_sub {th : Thread Table} {g g' : EpochType} (h : th.Ok g)
    (hd : th.handler = .sub g') : th.owes g = 1 := by
  obtain ⟨l, a, pc, hd'⟩ := th
  obtain ⟨-, -, hp, hs, -⟩ := h
  simp only at hd
  subst hd
  have hl := (hs g' rfl).2
  obtain ⟨ha, hp⟩ := hp (by simp)
  simp only at hl ha hp
  subst ha
  cases pc <;> simp_all [Thread.owes]

/-- A thread outside its critical sections, owing nothing, does not notice a
    change of the epoch. -/
theorem Thread.Ok.advance {th : Thread Table} {g g' : EpochType} (h : th.Ok g)
    (hc : ¬th.pc.Critical) (h0 : th.owes g = 0) : th.Ok g' := by
  refine ⟨h.counts, ?_, h.published, fun _ hd => ?_, h.store⟩
  · cases hpc : th.pc <;> simp_all
  · have := h.owes_of_sub hd
    omega

/-- Owing nothing in one epoch, an attached thread owes the next one. -/
theorem Thread.owes_succ {th : Thread Table} {g : EpochType} (hc : th.pc.Counts th.attached)
    (ha : th.attached = true) (hm : th.pc ≠ .attachAdd) (h0 : th.owes g = 0) :
    th.owes (g + 1) = 1 := by
  obtain ⟨l, a, pc, hd⟩ := th
  have := epoch_ne_succ g
  cases pc <;> cases hd <;> simp_all [Thread.owes]

/-- Just after the epoch changed, the threads that owe the new one are the
    attached ones. -/
theorem Thread.owes_succ_eq_count {th : Thread Table} {g : EpochType} (h : th.Ok (g + 1))
    (h0 : th.owes g = 0) (hpc : (∃ c, th.pc = .epochReset c) ∨ ¬th.pc.Critical) :
    th.owes (g + 1) = th.count := by
  have hm : th.pc ≠ .attachAdd := by
    rintro hm
    simp [hm] at hpc
  by_cases ha : th.attached = true
  · rw [Thread.owes_succ h.counts ha hm h0, Thread.count, if_pos ha]
  · have hcount : th.count = 0 := if_neg ha
    rcases hpc with ⟨c, hc⟩ | hc
    · rw [hcount]
      simp only [Thread.owes, hc, if_neg ha]
    · have := th.owes_le_count (g := g + 1) hc
      omega

section Main

variable {gc gc' : GC Tid Table} {t : Tid} {th th' : Thread Table}

theorem mainStep_ok (h : th.Ok gc.globalEpoch) (hoff : th.handler = .off)
    (hs : mainStep gc t th = some (gc', th')) : th'.Ok gc'.globalEpoch := by
  obtain ⟨l, a, pc, hd⟩ := th
  obtain ⟨hc, hk, -, -, -⟩ := h
  subst hoff
  have hlt := @epoch_ne_of_lt l gc.globalEpoch
  cases pc <;>
    simp only [mainStep, Option.map_eq_some_iff, Option.some.injEq, Prod.mk.injEq,
      reduceCtorEq, Pc.Counts, Pc.Knows] at hs hc hk
  case attachLock | detachLock | safepointLock | scheduleLock =>
    obtain ⟨gc₁, hl, rfl, rfl⟩ := hs
    obtain ⟨-, rfl⟩ := lock_eq_some hl
    exact .of_off rfl hc trivial
  case epochDelete =>
    split at hs <;>
      (obtain ⟨rfl, rfl⟩ := Prod.mk.inj (Option.some.inj hs); exact .of_off rfl hc trivial)
  case epochMove c =>
    obtain ⟨rfl, rfl⟩ := hs
    cases c with
    | detachThread => exact .of_off rfl (by simpa [Caller.next] using hc) trivial
    | safepoint => exact .of_off rfl trivial trivial
  all_goals
    obtain ⟨rfl, rfl⟩ := hs
    refine .of_off rfl ?_ ?_ <;> (try split_ifs) <;> simp_all

/-- Except in `newEpoch`, a step takes no more from the countdown than what the
    thread no longer owes. -/
theorem mainStep_owes (h : th.Ok gc.globalEpoch) (hoff : th.handler = .off)
    (hs : mainStep gc t th = some (gc', th')) (hadv : ∀ c, th.pc ≠ .epochAdvance c)
    (hres : ∀ c, th.pc ≠ .epochReset c) :
    gc'.globalEpoch = gc.globalEpoch ∧
      gc'.totalThreads + th.count = gc.totalThreads + th'.count ∧
      gc.remaining + th'.owes gc.globalEpoch ≤ gc'.remaining + th.owes gc.globalEpoch := by
  obtain ⟨l, a, pc, hd⟩ := th
  obtain ⟨hc, hk, -, -, -⟩ := h
  subst hoff
  have hlt := @epoch_ne_of_lt l gc.globalEpoch
  cases pc <;>
    simp only [mainStep, Option.map_eq_some_iff, Option.some.injEq, Prod.mk.injEq,
      reduceCtorEq, Pc.Counts, Pc.Knows] at hs hc hk
  case attachLock | detachLock | safepointLock | scheduleLock =>
    obtain ⟨gc₁, hl, rfl, rfl⟩ := hs
    obtain ⟨-, rfl⟩ := lock_eq_some hl
    exact ⟨rfl, rfl, le_rfl⟩
  case epochDelete =>
    split at hs <;>
      (obtain ⟨rfl, rfl⟩ := Prod.mk.inj (Option.some.inj hs); exact ⟨rfl, rfl, le_rfl⟩)
  case epochMove c =>
    obtain ⟨rfl, rfl⟩ := hs
    cases c <;> exact ⟨rfl, rfl, le_rfl⟩
  case epochAdvance c => exact absurd rfl (hadv c)
  case epochReset c => exact absurd rfl (hres c)
  all_goals
    obtain ⟨rfl, rfl⟩ := hs
    simp_all [Thread.owes, Thread.count] <;> (try split_ifs) <;> simp_all

/-- A thread moves when it holds the mutex, or takes it. -/
theorem mainStep_mutex (hs : mainStep gc t th = some (gc', th')) :
    (th.pc.Critical ∨ gc.mutex = none) ∧
      (th'.pc.Critical → gc'.mutex = some t ∨ th.pc.Critical ∧ gc'.mutex = gc.mutex) := by
  obtain ⟨l, a, pc, hd⟩ := th
  cases pc <;>
    simp only [mainStep, Option.map_eq_some_iff, Option.some.injEq, Prod.mk.injEq,
      reduceCtorEq] at hs
  case attachLock | detachLock | safepointLock | scheduleLock =>
    obtain ⟨gc₁, hl, rfl, rfl⟩ := hs
    obtain ⟨hn, rfl⟩ := lock_eq_some hl
    exact ⟨.inr hn, fun _ => .inl rfl⟩
  case epochDelete =>
    split at hs <;>
      (obtain ⟨rfl, rfl⟩ := Prod.mk.inj (Option.some.inj hs)
       exact ⟨.inl trivial, fun _ => .inr ⟨trivial, rfl⟩⟩)
  case unlock =>
    obtain ⟨rfl, rfl⟩ := hs
    exact ⟨.inl trivial, fun h => absurd h (by simp)⟩
  all_goals
    obtain ⟨rfl, rfl⟩ := hs
    exact ⟨.inl trivial, fun _ => .inr ⟨trivial, rfl⟩⟩

/-- `newEpoch` is entered when the countdown is zero, and changes the epoch when
    nothing is left to delete. -/
theorem mainStep_advancing (hs : mainStep gc t th = some (gc', th')) :
    (th'.pc.Advancing → th.pc.Advancing ∧ gc'.remaining = gc.remaining ∨
      th.pc.Critical ∧ gc'.remaining = 0) ∧
    (∀ c, th'.pc = .epochAdvance c → gc'.oldGarbage = []) := by
  obtain ⟨l, a, pc, hd⟩ := th
  cases pc <;>
    simp only [mainStep, Option.map_eq_some_iff, Option.some.injEq, Prod.mk.injEq,
      reduceCtorEq] at hs
  case attachLock | detachLock | safepointLock | scheduleLock =>
    obtain ⟨gc₁, hl, rfl, rfl⟩ := hs
    simp
  case epochDelete =>
    split at hs <;> obtain ⟨rfl, rfl⟩ := Prod.mk.inj (Option.some.inj hs) <;> simp_all
  case epochMove c =>
    obtain ⟨rfl, rfl⟩ := hs
    cases c <;> simp [Caller.next]
  all_goals
    obtain ⟨rfl, rfl⟩ := hs
    (try split_ifs) <;> simp_all

/-- Only `newEpoch` changes the epoch and deletes tables; it deletes them from
    `oldGarbage`, and refills that after the change of the epoch. -/
theorem mainStep_garbage [DecidableEq Table] (x : Table)
    (hs : mainStep gc t th = some (gc', th')) :
    (¬th.pc.Advancing → gc'.globalEpoch = gc.globalEpoch ∧ gc'.deleted = gc.deleted) ∧
    (¬th.pc.Renewing → gc'.oldGarbage.count x + gc'.deleted.count x =
      gc.oldGarbage.count x + gc.deleted.count x) := by
  obtain ⟨l, a, pc, hd⟩ := th
  cases pc <;>
    simp only [mainStep, Option.map_eq_some_iff, Option.some.injEq, Prod.mk.injEq,
      reduceCtorEq] at hs
  case attachLock | detachLock | safepointLock | scheduleLock =>
    obtain ⟨gc₁, hl, rfl, rfl⟩ := hs
    obtain ⟨-, rfl⟩ := lock_eq_some hl
    simp
  case epochDelete =>
    split at hs <;> obtain ⟨rfl, rfl⟩ := Prod.mk.inj (Option.some.inj hs) <;> simp_all
    rw [List.count_cons, List.count_cons]
    omega
  all_goals
    obtain ⟨rfl, rfl⟩ := hs
    simp

/-- `newEpoch` refills `oldGarbage` once the epoch has changed. -/
theorem mainStep_renewing (hs : mainStep gc t th = some (gc', th')) (hr : th'.pc.Renewing) :
    (∃ c, th.pc = .epochAdvance c) ∨ th.pc.Renewing := by
  obtain ⟨l, a, pc, hd⟩ := th
  cases pc <;>
    simp only [mainStep, Option.map_eq_some_iff, Option.some.injEq, Prod.mk.injEq,
      reduceCtorEq] at hs
  case attachLock | detachLock | safepointLock | scheduleLock =>
    obtain ⟨gc₁, hl, rfl, rfl⟩ := hs
    simp at hr
  case epochDelete =>
    split at hs <;> obtain ⟨rfl, rfl⟩ := Prod.mk.inj (Option.some.inj hs) <;> simp_all
  case epochMove c =>
    obtain ⟨rfl, rfl⟩ := hs
    cases c <;> simp [Caller.next] at hr
  all_goals
    obtain ⟨rfl, rfl⟩ := hs
    simp at hr <;> (try split_ifs at hr) <;> simp_all

end Main

/-! ## Preservation -/

/-- A step of a handler takes from the countdown what its thread no longer owes,
    if the thread is not passing the epoch itself. -/
theorem handlerStep_owes {gc gc' : GC Tid Table} {th th' : Thread Table}
    (h : th.Ok gc.globalEpoch) (hl : th.handler.Passing → ¬th.pc.Passing)
    (hs : handlerStep gc th = some (gc', th')) :
    gc' = { gc with remaining := gc'.remaining } ∧ th'.pc = th.pc ∧
      th'.attached = th.attached ∧ th'.Ok gc.globalEpoch ∧
      th'.owes gc.globalEpoch ≤ th.owes gc.globalEpoch ∧
      gc.remaining + th'.owes gc.globalEpoch = gc'.remaining + th.owes gc.globalEpoch ∧
      (¬th.handler.Passing → th'.owes gc.globalEpoch = th.owes gc.globalEpoch) := by
  obtain ⟨l, a, pc, hd⟩ := th
  obtain ⟨hc, hk, hp, hsub, hstore⟩ := h
  cases hd <;> simp only [handlerStep, Option.some.injEq, Prod.mk.injEq, reduceCtorEq] at hs <;>
    obtain ⟨rfl, rfl⟩ := hs
  case load =>
    have howes : ∀ hd', (∀ g, hd' ≠ .store g) → Thread.owes ⟨l, a, pc, hd'⟩ gc.globalEpoch =
        Thread.owes ⟨l, a, pc, .load⟩ gc.globalEpoch := fun hd' hne => by
      cases hd' <;> simp_all [Thread.owes]
    split
    · rename_i hlt
      have ho := howes (.sub gc.globalEpoch) (by simp)
      refine ⟨rfl, rfl, rfl, ⟨hc, hk, fun _ => hp (by simp), ?_, by simp⟩, ho.le, by rw [ho],
        fun _ => ho⟩
      rintro g' hg'
      exact ⟨(HandlerPc.sub.inj hg').symm, epoch_ne_of_lt hlt⟩
    · have ho := howes .off (by simp)
      exact ⟨rfl, rfl, rfl, .of_off rfl hc hk, ho.le, by rw [ho], fun _ => ho⟩
  case sub g =>
    have hpass := hl (by simp)
    obtain ⟨rfl, hne⟩ := hsub g rfl
    obtain ⟨ha, hpub⟩ := hp (by simp)
    have hnsub : pc ≠ .safepointSub := by
      rintro rfl
      exact hne hk
    have h₁ := Thread.Ok.owes_of_sub ⟨hc, hk, hp, hsub, hstore⟩ rfl
    have h₀ : Thread.owes ⟨l, a, pc, .store gc.globalEpoch⟩ gc.globalEpoch = 0 := by
      cases pc <;> simp_all [Thread.owes]
    refine ⟨rfl, rfl, rfl, ⟨hc, hk, fun _ => hp (by simp), by simp, fun _ _ => ⟨hpass, hnsub⟩⟩,
      h₀.le.trans (Nat.zero_le _), by simp [h₀, h₁], by simp⟩
  case store g =>
    obtain ⟨hpass, hnsub⟩ := hstore g rfl
    obtain ⟨ha, hpub⟩ := hp (by simp)
    have ho : Thread.owes ⟨g, a, pc, .off⟩ gc.globalEpoch =
        Thread.owes ⟨l, a, pc, .store g⟩ gc.globalEpoch := by
      cases pc <;> simp_all [Thread.owes]
    have hk' : pc.Knows g gc.globalEpoch := by
      cases pc <;> simp_all
    exact ⟨rfl, rfl, rfl, .of_off rfl hc hk', ho.le, by rw [ho], fun _ => ho⟩

section Set

variable [DecidableEq Tid] (σ : State Tid Table) (t : Tid) (p : GC Tid Table × Thread Table)

@[simp] theorem State.set_gc : (σ.set t p).gc = p.1 := rfl

@[simp] theorem State.set_threads_self : (σ.set t p).threads t = p.2 :=
  Function.update_self ..

theorem State.set_threads_of_ne {u : Tid} (h : u ≠ t) :
    (σ.set t p).threads u = σ.threads u :=
  Function.update_of_ne h ..

end Set

variable [Fintype Tid] {σ : State Tid Table} {t : Tid}

theorem Inv.unique (h : Inv σ) {u : Tid} (ht : (σ.threads t).pc.Critical)
    (hu : (σ.threads u).pc.Critical) : t = u :=
  Option.some.inj ((h.excl t ht).symm.trans (h.excl u hu))

/-- While a thread moves in a call, no other is in a critical section. -/
theorem Inv.alone (h : Inv σ) {p : GC Tid Table × Thread Table}
    (hs : mainStep σ.gc t (σ.threads t) = some p) {u : Tid} (hu : u ≠ t) :
    ¬(σ.threads u).pc.Critical := by
  intro hc
  rcases (mainStep_mutex hs).1 with ht | hn
  · exact hu (h.unique hc ht)
  · exact absurd ((h.excl u hc).symm.trans hn) (by simp)

variable [DecidableEq Tid]

/-- A step of a thread that does not change the epoch keeps the invariant, if it
    takes from `remaining` no more than what the thread no longer owes, and a new
    epoch only starts with `remaining` at zero. -/
theorem Inv.set (h : Inv σ) {gc : GC Tid Table} {th : Thread Table}
    (hg : gc.globalEpoch = σ.gc.globalEpoch)
    (hmutex : ∀ u ≠ t, (σ.threads u).pc.Critical → gc.mutex = some u ∧
      gc.oldGarbage = σ.gc.oldGarbage ∧ th.owes gc.globalEpoch ≤ (σ.threads t).owes gc.globalEpoch)
    (hcrit : th.pc.Critical → gc.mutex = some t)
    (htotal : gc.totalThreads + (σ.threads t).count = σ.gc.totalThreads + th.count)
    (hok : th.Ok gc.globalEpoch)
    (hadv : th.pc.Advancing → (σ.threads t).pc.Advancing ∧
      th.owes gc.globalEpoch ≤ (σ.threads t).owes gc.globalEpoch ∨
      gc.remaining = 0 ∧ (σ.threads t).pc.Critical)
    (hempty : ∀ c, th.pc = .epochAdvance c → gc.oldGarbage = [])
    (hres : (σ.threads t).pc.Resetting → th.pc.Resetting)
    (hrem : ¬th.pc.Resetting → σ.gc.remaining + th.owes gc.globalEpoch ≤
      gc.remaining + (σ.threads t).owes gc.globalEpoch) :
    Inv (σ.set t (gc, th)) := by
  have hother : ∀ u ≠ t, (σ.set t (gc, th)).threads u = σ.threads u := fun u hu =>
    σ.set_threads_of_ne _ _ hu
  have hsum := ThreadSum.sum_update (fun x : Thread Table => x.owes gc.globalEpoch) σ.threads t th
  have henough : (∀ u, ¬((σ.set t (gc, th)).threads u).pc.Resetting) →
      ((∑ u, ((σ.set t (gc, th)).threads u).owes gc.globalEpoch : ℕ) : ℤ) ≤ gc.remaining := by
    intro hr
    have hrt : ¬th.pc.Resetting := by simpa using hr t
    have hr' : ∀ u, ¬(σ.threads u).pc.Resetting := fun u => by
      by_cases hu : u = t
      · subst hu; exact fun hc => hrt (hres hc)
      · rw [← hother u hu]; exact hr u
    have h₁ := hrem hrt
    have h₂ := h.enough hr'
    rw [← hg] at h₂
    simp only [State.set] at hsum ⊢
    omega
  refine ⟨fun u => ?_, ?_, fun u => ?_, fun u => ?_, fun u c => ?_, henough⟩
  · by_cases hu : u = t
    · subst hu; simpa using hcrit
    · rw [hother u hu]; exact fun hc => (hmutex u hu hc).1
  · have := ThreadSum.sum_update (fun x : Thread Table => x.count) σ.threads t th
    have ht := h.total
    simp only [State.set] at this ⊢
    omega
  · by_cases hu : u = t
    · subst hu; simpa using hok
    · rw [hother u hu, State.set_gc, hg]; exact h.ok u
  · intro hu
    simp only [State.set_gc]
    by_cases hut : u = t
    · subst hut
      rw [State.set_threads_self] at hu
      rcases hadv hu with ⟨ha, hle⟩ | ⟨h0, hc⟩
      · -- The thread was in `newEpoch` already.
        intro v
        by_cases hv : v = u
        · subst hv
          have h0 := h.settled v ha v
          rw [← hg] at h0
          rw [State.set_threads_self]
          show th.owes gc.globalEpoch = 0
          omega
        · rw [hother v hv, hg]; exact h.settled u ha v
      · -- It has just found the countdown at zero.
        have hr : ∀ v, ¬((σ.set u (gc, th)).threads v).pc.Resetting := fun v hv => by
          by_cases hvu : v = u
          · subst hvu
            rw [State.set_threads_self] at hv
            cases hpc : th.pc <;> simp_all
          · rw [hother v hvu] at hv
            exact hvu (h.unique hv.critical hc)
        have := henough hr
        rw [h0] at this
        exact ThreadSum.sum_eq_zero_iff.1 (by omega)
    · rw [hother u hut] at hu
      intro v
      by_cases hv : v = t
      · subst hv
        have h0 := h.settled u hu v
        rw [← hg] at h0
        rw [State.set_threads_self]
        have := (hmutex u hut hu.critical).2.2
        show th.owes gc.globalEpoch = 0
        omega
      · rw [hother v hv, hg]; exact h.settled u hu v
  · intro hu
    by_cases hut : u = t
    · subst hut; exact hempty c (by simpa using hu)
    · rw [hother u hut] at hu
      rw [State.set_gc, (hmutex u hut (by simp [hu])).2.1]
      exact h.emptied u c hu

/-- The epoch changes when nobody owes the old one anything. -/
theorem Inv.advance (h : Inv σ) {c : Caller} (hpc : (σ.threads t).pc = .epochAdvance c)
    (hoff : (σ.threads t).handler = .off) {p : GC Tid Table × Thread Table}
    (hs : mainStep σ.gc t (σ.threads t) = some p) : Inv (σ.set t p) := by
  have hothers : ∀ u ≠ t, ¬(σ.threads u).pc.Critical := fun u hu => h.alone hs hu
  have hok := mainStep_ok (h.ok t) hoff hs
  have hmutex := h.excl t (by simp [hpc])
  have hzero := h.settled t (by simp [hpc])
  simp only [mainStep, hpc, Option.some.injEq] at hs
  subst hs
  refine ⟨fun u hu => ?_, ?_, fun u => ?_, fun u hu => ?_, fun u c' hu => ?_, fun hr => ?_⟩
  · by_cases hut : u = t
    · rw [hut]; exact hmutex
    · rw [σ.set_threads_of_ne _ _ hut] at hu
      exact absurd hu (hothers u hut)
  · rw [State.set_gc, h.total]
    exact congrArg _ (ThreadSum.sum_update_eq Thread.count σ.threads t
      (show Thread.count { σ.threads t with pc := .epochReset c } = _ from rfl)).symm
  · by_cases hut : u = t
    · subst hut; simpa using hok
    · rw [σ.set_threads_of_ne _ _ hut]
      exact (h.ok u).advance (hothers u hut) (hzero u)
  · by_cases hut : u = t
    · subst hut; simp at hu
    · rw [σ.set_threads_of_ne _ _ hut] at hu
      exact absurd hu.critical (hothers u hut)
  · by_cases hut : u = t
    · subst hut; simp at hu
    · rw [σ.set_threads_of_ne _ _ hut] at hu
      exact absurd (by simp [hu]) (hothers u hut)
  · exact absurd (by simp) (hr t)

/-- The countdown starts again at the number of attached threads. -/
theorem Inv.reset (h : Inv σ) {c : Caller} (hpc : (σ.threads t).pc = .epochReset c)
    (hoff : (σ.threads t).handler = .off) {p : GC Tid Table × Thread Table}
    (hs : mainStep σ.gc t (σ.threads t) = some p) : Inv (σ.set t p) := by
  have hothers : ∀ u ≠ t, ¬(σ.threads u).pc.Critical := fun u hu => h.alone hs hu
  have hok := mainStep_ok (h.ok t) hoff hs
  have hmutex := h.excl t (by simp [hpc])
  simp only [mainStep, hpc, Option.some.injEq] at hs
  subst hs
  refine ⟨fun u hu => ?_, ?_, fun u => ?_, fun u hu => ?_, fun u c' hu => ?_, fun _ => ?_⟩
  · by_cases hut : u = t
    · rw [hut]; exact hmutex
    · rw [σ.set_threads_of_ne _ _ hut] at hu
      exact absurd hu (hothers u hut)
  · rw [State.set_gc, h.total]
    exact congrArg _ (ThreadSum.sum_update_eq Thread.count σ.threads t
      (show Thread.count { σ.threads t with pc := .epochMove c } = _ from rfl)).symm
  · by_cases hut : u = t
    · subst hut; simpa using hok
    · rw [σ.set_threads_of_ne _ _ hut]
      exact h.ok u
  · by_cases hut : u = t
    · subst hut; simp at hu
    · rw [σ.set_threads_of_ne _ _ hut] at hu
      exact absurd hu.critical (hothers u hut)
  · by_cases hut : u = t
    · subst hut; simp at hu
    · rw [σ.set_threads_of_ne _ _ hut] at hu
      exact absurd (by simp [hu]) (hothers u hut)
  · have hle : ∀ u, ((σ.set t ({ σ.gc with remaining := σ.gc.totalThreads },
        { σ.threads t with pc := .epochMove c })).threads u).owes σ.gc.globalEpoch ≤
        (σ.threads u).count := fun u => by
      by_cases hut : u = t
      · subst hut
        rw [State.set_threads_self]
        simp only [Thread.owes, Thread.count, hoff]
        split_ifs <;> simp
      · rw [σ.set_threads_of_ne _ _ hut]
        exact Thread.owes_le_count (hothers u hut)
    simp only [State.set_gc, h.total]
    exact_mod_cast Finset.sum_le_sum fun u _ => hle u

theorem Inv.main (h : Inv σ) (hoff : (σ.threads t).handler = .off)
    {p : GC Tid Table × Thread Table} (hs : mainStep σ.gc t (σ.threads t) = some p) :
    Inv (σ.set t p) := by
  by_cases hadv : ∃ c, (σ.threads t).pc = .epochAdvance c
  · obtain ⟨c, hc⟩ := hadv
    exact h.advance hc hoff hs
  by_cases hres : ∃ c, (σ.threads t).pc = .epochReset c
  · obtain ⟨c, hc⟩ := hres
    exact h.reset hc hoff hs
  push Not at hadv hres
  obtain ⟨gc, th⟩ := p
  have hothers : ∀ u ≠ t, ¬(σ.threads u).pc.Critical := fun u hu => h.alone hs hu
  obtain ⟨hg, htotal, howes⟩ := mainStep_owes (h.ok t) hoff hs hadv hres
  have hok := mainStep_ok (h.ok t) hoff hs
  obtain ⟨henter, hempty⟩ := mainStep_advancing hs
  refine h.set hg (fun u hu hc => absurd hc (hothers u hu)) (fun hc => ?_) htotal hok
    (fun ha => ?_) hempty (fun hr => ?_) (fun _ => hg ▸ howes)
  · rcases (mainStep_mutex hs).2 hc with hm | ⟨ht, hm⟩
    · exact hm
    · rw [hm]; exact h.excl t ht
  · rcases henter ha with ⟨ha', hr⟩ | ⟨hc, h0⟩
    · rw [hg]
      exact .inl ⟨ha', by omega⟩
    · exact .inr ⟨h0, hc⟩
  · cases hpc : (σ.threads t).pc <;> simp_all

/-- A step outside `newEpoch` that takes no mutex: a call begins, or a handler
    moves. -/
theorem Inv.lockFree (h : Inv σ) {th : Thread Table} {r : ℤ}
    (hpc : th.pc = (σ.threads t).pc ∨ ¬th.pc.Critical ∧ (σ.threads t).pc = .idle)
    (ha : th.attached = (σ.threads t).attached) (hok : th.Ok σ.gc.globalEpoch)
    (hle : th.owes σ.gc.globalEpoch ≤ (σ.threads t).owes σ.gc.globalEpoch)
    (hrem : σ.gc.remaining + th.owes σ.gc.globalEpoch ≤
      r + (σ.threads t).owes σ.gc.globalEpoch) :
    Inv (σ.set t ({ σ.gc with remaining := r }, th)) := by
  have hcount : th.count = (σ.threads t).count := by simp only [Thread.count, ha]
  refine h.set rfl (fun u _ hc => ⟨h.excl u hc, rfl, hle⟩) (fun hc => ?_) (by simp [hcount]) hok
    (fun had => ?_) (fun c hc => ?_) (fun hr => ?_) (fun _ => hrem)
  · rcases hpc with hpc | ⟨hn, -⟩
    · exact h.excl t (hpc ▸ hc)
    · exact absurd hc hn
  · rcases hpc with hpc | ⟨hn, -⟩
    · exact .inl ⟨hpc ▸ had, hle⟩
    · exact absurd had.critical hn
  · rcases hpc with hpc | ⟨hn, -⟩
    · exact h.emptied t c (hpc ▸ hc)
    · exact absurd (by simp [hc]) hn
  · rcases hpc with hpc | ⟨-, hi⟩
    · rwa [hpc]
    · simp [hi] at hr

/-- A call begins: no epoch and no counter changes. -/
theorem Inv.call (h : Inv σ) {pc : Pc Table} (hfree : (σ.threads t).Free) (hpc : ¬pc.Critical)
    (hc : pc.Counts (σ.threads t).attached) : Inv (σ.call t pc) := by
  obtain ⟨hidle, hoff⟩ := hfree
  have howes : Thread.owes { σ.threads t with pc := pc } σ.gc.globalEpoch =
      (σ.threads t).owes σ.gc.globalEpoch := by
    cases pc <;> simp_all [Thread.owes]
  have hk : pc.Knows (σ.threads t).localEpoch σ.gc.globalEpoch := by
    cases pc <;> simp_all
  exact h.lockFree (.inr ⟨hpc, hidle⟩) rfl (.of_off hoff hc hk) howes.le (by rw [howes])

/-- A handler starts. -/
theorem Inv.signal (h : Inv σ) (hoff : (σ.threads t).handler = .off)
    (hp : (σ.threads t).Published) :
    Inv (σ.set t (σ.gc, { σ.threads t with handler := .load })) := by
  have howes : Thread.owes { σ.threads t with handler := .load } σ.gc.globalEpoch =
      (σ.threads t).owes σ.gc.globalEpoch := by
    simp only [Thread.owes, hoff]
  exact h.lockFree (.inl rfl) rfl ⟨(h.ok t).counts, (h.ok t).knows, fun _ => hp, by simp, by simp⟩
    howes.le (by rw [howes])

/-- A handler passes the epoch while its thread is doing it: the one step that
    takes from the countdown twice. -/
def Disturbing (σ : State Tid Table) : Label Tid Table → Prop
  | .handler t => (σ.threads t).handler.Passing ∧ (σ.threads t).pc.Passing
  | _ => False

instance (σ : State Tid Table) (l : Label Tid Table) : Decidable (Disturbing σ l) := by
  cases l <;> simp only [Disturbing] <;> infer_instance

/-- The steps other than that one. -/
def Undisturbed (σ : State Tid Table) (l : Label Tid Table) : Prop := ¬Disturbing σ l

instance (σ : State Tid Table) (l : Label Tid Table) : Decidable (Undisturbed σ l) :=
  inferInstanceAs (Decidable (¬_))

theorem Inv.handler (h : Inv σ) (hl : Undisturbed σ (.handler t)) {p : GC Tid Table × Thread Table}
    (hs : handlerStep σ.gc (σ.threads t) = some p) : Inv (σ.set t p) := by
  obtain ⟨gc, th⟩ := p
  obtain ⟨hgc, hpc, ha, hok, hle, hrem, -⟩ :=
    handlerStep_owes (h.ok t) (fun hh hp => hl ⟨hh, hp⟩) hs
  rw [hgc]
  exact h.lockFree (.inl hpc) ha hok hle hrem.le

/-- Every step but the disturbing one keeps the invariant. -/
theorem Inv.next [DecidableEq Table] {σ' : State Tid Table} {l : Label Tid Table} (h : Inv σ)
    (hl : Undisturbed σ l) (hn : (system Tid Table).next σ l = some σ') : Inv σ' := by
  cases l <;> simp only [system, State.next, Option.ite_none_right_eq_some, Option.some.injEq,
    Option.map_eq_some_iff] at hn
  case attachThread t =>
    obtain ⟨⟨hf, ha⟩, rfl⟩ := hn
    exact h.call hf (by simp) ha
  case detachThread t =>
    obtain ⟨⟨hf, ha⟩, rfl⟩ := hn
    split
    · exact h.call hf (by simp) ha
    · exact h
  case safepoint t =>
    obtain ⟨⟨hf, ha⟩, rfl⟩ := hn
    exact h.call hf (by simp) ha
  case scheduleDelete t x =>
    obtain ⟨hf, rfl⟩ := hn
    exact h.call hf (by simp) trivial
  case main t =>
    obtain ⟨hoff, p, hs, rfl⟩ := hn
    exact h.main hoff hs
  case signal t =>
    obtain ⟨⟨hoff, hp⟩, rfl⟩ := hn
    exact h.signal hoff hp
  case handler t =>
    obtain ⟨p, hs, rfl⟩ := hn
    exact h.handler hl hs

omit [DecidableEq Tid] in
theorem Inv.initial : Inv (State.initial : State Tid Table) := by
  refine ⟨by simp [State.initial], by simp [State.initial, Thread.count], fun t => ?_,
    by simp [State.initial], by simp [State.initial], by simp [State.initial, Thread.owes]⟩
  exact .of_off rfl trivial trivial

/-- The invariant holds in every run without the disturbing step. -/
theorem inv_of_run [DecidableEq Table] {σ σ' : State Tid Table}
    {tr : List (State Tid Table × Label Tid Table)} (h : Inv σ)
    (hr : (system Tid Table).Run Undisturbed σ tr σ') : Inv σ' :=
  hr.invariant (fun _ _ _ ha hl hn => ha.next hl hn) h

end FkProf.Gc
