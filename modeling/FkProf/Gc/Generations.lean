import FkProf.Gc.Invariant

/-!
# Generations of garbage

A table waits for two calls of `newEpoch`: the first one moves it to `oldGarbage`, and the
second one deletes it, `concurrent_map.h:160-172`. So it is in every run, whatever the threads
and their handlers do, also where the countdown goes wrong: what may go wrong is when the
epochs change, but not what becomes of the tables.

* `generations`: the tables scheduled, by the calls of `newEpoch` in between;
* `mainStep_collects`: what a step does to the garbage;
* `Collected`: the garbage is the last two generations, and the others are deleted;
* `generations_of_run`: so it is in every run.
-/

namespace FkProf.Gc

variable {Tid Table : Type*}

/-- The tables scheduled since `newEpoch` has moved the garbage, and before, by the calls of
    `newEpoch`: the last one first, and in each the last table first. -/
structure Generations (Table : Type*) where
  current : List Table
  past : List (List Table)

/-- A step of a thread. -/
def Generations.step (g : Generations Table) : Pc Table → Generations Table
  | .schedulePush pointer => { g with current := pointer :: g.current }
  | .epochMove _ => ⟨[], g.current :: g.past⟩
  | _ => g

/-- A step of the collector. -/
def Generations.next (g : Generations Table) (σ : State Tid Table) :
    Label Tid Table → Generations Table
  | .main t => g.step (σ.threads t).pc
  | _ => g

/-- The generations after a run. -/
def generations (tr : List (State Tid Table × Label Tid Table)) : Generations Table :=
  tr.foldl (fun g x => g.next x.1 x.2) ⟨[], []⟩

/-- The tables of all generations. -/
def Generations.all (g : Generations Table) : List Table := g.current ++ g.past.flatten

/-- The thread is in `newEpoch`. -/
@[simp] def Pc.Collecting : Pc Table → Prop
  | .epochDelete _ | .epochAdvance _ | .epochReset _ | .epochMove _ => True
  | _ => False

/-- The thread is in `newEpoch`, and has deleted the old garbage. -/
@[simp] def Pc.Emptied : Pc Table → Prop
  | .epochAdvance _ | .epochReset _ | .epochMove _ => True
  | _ => False

/-! ## What a step does to the garbage -/

/-- A step of a thread leaves the garbage, adds a table, deletes one, or moves all. -/
inductive Collects (gc : GC Tid Table) (pc : Pc Table) (gc' : GC Tid Table) (pc' : Pc Table) :
    Prop
  | leave : (∀ g : Generations Table, g.step pc = g) → gc'.recentGarbage = gc.recentGarbage →
      gc'.oldGarbage = gc.oldGarbage → gc'.deleted = gc.deleted →
      (pc.Collecting → pc'.Collecting) → (pc'.Emptied → pc.Emptied ∨ gc.oldGarbage = []) →
      Collects gc pc gc' pc'
  | push (pointer : Table) : pc = .schedulePush pointer →
      gc' = { gc with recentGarbage := pointer :: gc.recentGarbage } → pc' = .unlock →
      Collects gc pc gc' pc'
  | delete (c : Caller) (x : Table) (rest : List Table) : pc = .epochDelete c →
      gc.oldGarbage = x :: rest → gc' = { gc with oldGarbage := rest, deleted := x :: gc.deleted } →
      pc' = pc → Collects gc pc gc' pc'
  | move (c : Caller) : pc = .epochMove c →
      gc' = { gc with oldGarbage := gc.recentGarbage, recentGarbage := [] } → pc' = c.next →
      Collects gc pc gc' pc'

section Steps

variable {gc gc' : GC Tid Table} {th th' : Thread Table} {t : Tid}

theorem mainStep_collects (hs : mainStep gc t th = some (gc', th')) :
    Collects gc th.pc gc' th'.pc := by
  obtain ⟨l, a, pc, hd⟩ := th
  cases pc <;>
    simp only [mainStep, Option.map_eq_some_iff, Option.some.injEq, Prod.mk.injEq,
      reduceCtorEq] at hs
  case attachLock | detachLock | safepointLock | scheduleLock =>
    obtain ⟨gc₁, hl, rfl, rfl⟩ := hs
    obtain ⟨-, rfl⟩ := lock_eq_some hl
    exact .leave (fun _ => rfl) rfl rfl rfl id .inl
  case epochDelete c =>
    split at hs
    · obtain ⟨rfl, rfl⟩ := Prod.mk.inj (Option.some.inj hs)
      exact .leave (fun _ => rfl) rfl rfl rfl id fun _ => .inr ‹_›
    · obtain ⟨rfl, rfl⟩ := Prod.mk.inj (Option.some.inj hs)
      exact .delete c _ _ rfl ‹_› rfl rfl
  case epochMove c =>
    obtain ⟨rfl, rfl⟩ := hs
    exact .move c rfl rfl rfl
  case schedulePush pointer =>
    obtain ⟨rfl, rfl⟩ := hs
    exact .push pointer rfl rfl rfl
  case detachCompare | detachSub | detachRemaining | safepointCompare | safepointSub
      | safepointRemaining =>
    obtain ⟨rfl, rfl⟩ := hs
    refine .leave (fun _ => rfl) rfl rfl rfl False.elim fun he => ?_
    dsimp only at he
    split_ifs at he <;> exact he.elim
  all_goals
    obtain ⟨rfl, rfl⟩ := hs
    exact .leave (fun _ => rfl) rfl rfl rfl id .inl

/-- A handler leaves the garbage, and its thread where it is. -/
theorem handlerStep_garbage (hs : handlerStep gc th = some (gc', th')) :
    th'.pc = th.pc ∧ gc'.mutex = gc.mutex ∧ gc'.recentGarbage = gc.recentGarbage ∧
      gc'.oldGarbage = gc.oldGarbage ∧ gc'.deleted = gc.deleted := by
  obtain ⟨l, a, pc, hd⟩ := th
  cases hd <;> simp only [handlerStep, Option.some.injEq, Prod.mk.injEq, reduceCtorEq] at hs <;>
    obtain ⟨rfl, rfl⟩ := hs <;> exact ⟨rfl, rfl, rfl, rfl, rfl⟩

end Steps

/-! ## The invariant -/

/-- The garbage is the last two generations, the old one as far as it has not been deleted,
    and the tables have been deleted in their order. -/
structure Collected (g : Generations Table) (σ : State Tid Table) : Prop where
  excl : ∀ t, (σ.threads t).pc.Critical → σ.gc.mutex = some t
  recent : σ.gc.recentGarbage = g.current
  deleted : σ.gc.deleted.reverse ++ σ.gc.oldGarbage = g.past.reverse.flatten
  suffix : σ.gc.oldGarbage <:+ g.past.headD []
  whole : (∀ t, ¬(σ.threads t).pc.Collecting) → σ.gc.oldGarbage = g.past.headD []
  emptied : ∀ t, (σ.threads t).pc.Emptied → σ.gc.oldGarbage = []

theorem Pc.Collecting.critical {pc : Pc Table} (h : pc.Collecting) : pc.Critical := by
  cases pc <;> trivial

theorem Pc.Emptied.collecting {pc : Pc Table} (h : pc.Emptied) : pc.Collecting := by
  cases pc <;> trivial

section Invariant

variable [DecidableEq Tid] {g : Generations Table} {σ : State Tid Table} {t u : Tid}

/-- A thread moves, and the garbage stays. -/
theorem Collected.keep (h : Collected g σ) {p : GC Tid Table × Thread Table}
    (hexcl : ∀ u, ((σ.set t p).threads u).pc.Critical → p.1.mutex = some u)
    (hr : p.1.recentGarbage = σ.gc.recentGarbage) (ho : p.1.oldGarbage = σ.gc.oldGarbage)
    (hd : p.1.deleted = σ.gc.deleted)
    (hc : (σ.threads t).pc.Collecting → p.2.pc.Collecting)
    (he : p.2.pc.Emptied → (σ.threads t).pc.Emptied ∨ σ.gc.oldGarbage = []) :
    Collected g (σ.set t p) := by
  refine ⟨hexcl, hr.trans h.recent, ?_, ?_, fun hn => ?_, fun u hu => ?_⟩
  · show p.1.deleted.reverse ++ p.1.oldGarbage = _
    rw [hd, ho]
    exact h.deleted
  · show p.1.oldGarbage <:+ _
    rw [ho]
    exact h.suffix
  · refine ho.trans (h.whole fun u hu => ?_)
    by_cases hut : u = t
    · subst hut
      exact hn u (by rw [State.set_threads_self]; exact hc hu)
    · exact hn u (by rw [State.set_threads_of_ne _ _ _ hut]; exact hu)
  · refine ho.trans ?_
    by_cases hut : u = t
    · subst hut
      rw [State.set_threads_self] at hu
      exact (he hu).elim (h.emptied u) id
    · rw [State.set_threads_of_ne _ _ _ hut] at hu
      exact h.emptied u hu

/-- A thread goes on with its call. -/
theorem Collected.main (h : Collected g σ) {p : GC Tid Table × Thread Table}
    (hs : mainStep σ.gc t (σ.threads t) = some p) :
    Collected (g.step (σ.threads t).pc) (σ.set t p) := by
  obtain ⟨gc, th⟩ := p
  obtain ⟨hfree, henter⟩ := mainStep_mutex hs
  -- While the thread moves in its call, no other one is in a critical section.
  have hothers : ∀ u, u ≠ t → ¬(σ.threads u).pc.Critical := fun u hu hc => by
    have hm := h.excl u hc
    rcases hfree with ht | hn
    · exact hu (Option.some.inj (hm.symm.trans (h.excl t ht)))
    · rw [hn] at hm
      cases hm
  have hexcl : ∀ u, ((σ.set t (gc, th)).threads u).pc.Critical → gc.mutex = some u :=
    fun u hu => by
      by_cases hut : u = t
      · subst hut
        rw [State.set_threads_self] at hu
        rcases henter hu with hm | ⟨hc, hm⟩
        · exact hm
        · rw [hm]
          exact h.excl u hc
      · rw [State.set_threads_of_ne _ _ _ hut] at hu
        exact absurd hu (hothers u hut)
  cases mainStep_collects hs with
  | leave hg hr ho hd hc he =>
    rw [hg]
    exact h.keep hexcl hr ho hd hc he
  | push pointer hpc hgc hpc' =>
    rw [hpc]
    subst hgc
    refine ⟨hexcl, congrArg _ h.recent, h.deleted, h.suffix, fun hn => ?_, fun u hu => ?_⟩
    · refine h.whole fun u hu => ?_
      by_cases hut : u = t
      · subst hut
        rw [hpc] at hu
        exact hu
      · exact hothers u hut hu.critical
    · by_cases hut : u = t
      · subst hut
        rw [State.set_threads_self, hpc'] at hu
        exact hu.elim
      · rw [State.set_threads_of_ne _ _ _ hut] at hu
        exact absurd hu.collecting.critical (hothers u hut)
  | delete c x rest hpc hold hgc hpc' =>
    rw [hpc]
    subst hgc
    refine ⟨hexcl, h.recent, ?_, ?_, fun hn => ?_, fun u hu => ?_⟩
    · show (x :: σ.gc.deleted).reverse ++ rest = _
      rw [List.reverse_cons, List.append_assoc, List.singleton_append, ← hold]
      exact h.deleted
    · have hsuffix := h.suffix
      rw [hold] at hsuffix
      exact (List.suffix_cons x rest).trans hsuffix
    · refine absurd ?_ (hn t)
      rw [State.set_threads_self, hpc', hpc]
      trivial
    · by_cases hut : u = t
      · subst hut
        rw [State.set_threads_self, hpc', hpc] at hu
        exact hu.elim
      · rw [State.set_threads_of_ne _ _ _ hut] at hu
        exact absurd hu.collecting.critical (hothers u hut)
  | move c hpc hgc hpc' =>
    have hempty : σ.gc.oldGarbage = [] := h.emptied t (by rw [hpc]; trivial)
    rw [hpc]
    subst hgc
    refine ⟨hexcl, rfl, ?_, ?_, fun _ => h.recent, fun u hu => ?_⟩
    · have hdeleted := h.deleted
      rw [hempty, List.append_nil] at hdeleted
      show σ.gc.deleted.reverse ++ σ.gc.recentGarbage = (g.current :: g.past).reverse.flatten
      rw [List.reverse_cons, List.flatten_append, List.flatten_singleton, hdeleted, h.recent]
    · show σ.gc.recentGarbage <:+ g.current
      rw [h.recent]
    · by_cases hut : u = t
      · subst hut
        rw [State.set_threads_self, hpc'] at hu
        cases c <;> exact hu.elim
      · rw [State.set_threads_of_ne _ _ _ hut] at hu
        exact absurd hu.collecting.critical (hothers u hut)

/-- A thread that makes a call, or whose handler moves. -/
theorem Collected.lockFree (h : Collected g σ) {gc : GC Tid Table} {th : Thread Table}
    (hpc : th.pc = (σ.threads t).pc ∨ ¬th.pc.Critical ∧ (σ.threads t).pc = .idle)
    (hm : gc.mutex = σ.gc.mutex) (hr : gc.recentGarbage = σ.gc.recentGarbage)
    (ho : gc.oldGarbage = σ.gc.oldGarbage) (hd : gc.deleted = σ.gc.deleted) :
    Collected g (σ.set t (gc, th)) := by
  refine h.keep (fun u hu => ?_) hr ho hd (fun hc => ?_) fun he => ?_
  · show gc.mutex = some u
    rw [hm]
    by_cases hut : u = t
    · subst hut
      rw [State.set_threads_self] at hu
      rcases hpc with hpc | ⟨hn, -⟩
      · exact h.excl u (hpc ▸ hu)
      · exact absurd hu hn
    · rw [State.set_threads_of_ne _ _ _ hut] at hu
      exact h.excl u hu
  · rcases hpc with hpc | ⟨-, hidle⟩
    · rw [hpc]
      exact hc
    · rw [hidle] at hc
      exact hc.elim
  · rcases hpc with hpc | ⟨hn, -⟩
    · exact .inl (hpc ▸ he)
    · exact absurd he.collecting.critical hn

variable [DecidableEq Table]

theorem Collected.next (h : Collected g σ) {l : Label Tid Table} {σ' : State Tid Table}
    (hn : σ.next l = some σ') : Collected (g.next σ l) σ' := by
  cases l with
  | attachThread t | safepoint t | scheduleDelete t x =>
    rw [State.next] at hn
    split_ifs at hn with hfree
    cases hn
    first
    | exact h.lockFree (.inr ⟨id, hfree.1.1⟩) rfl rfl rfl rfl
    | exact h.lockFree (.inr ⟨id, hfree.1⟩) rfl rfl rfl rfl
  | detachThread t =>
    rw [State.next] at hn
    split_ifs at hn with hfree hepoch
    · cases hn
      exact h.lockFree (.inr ⟨id, hfree.1.1⟩) rfl rfl rfl rfl
    · cases hn
      exact h
  | main t =>
    rw [State.next] at hn
    split_ifs at hn
    obtain ⟨p, hp, rfl⟩ := Option.map_eq_some_iff.1 hn
    exact h.main hp
  | signal t =>
    rw [State.next] at hn
    split_ifs at hn
    cases hn
    exact h.lockFree (.inl rfl) rfl rfl rfl rfl
  | handler t =>
    obtain ⟨⟨gc, th⟩, hp, rfl⟩ := Option.map_eq_some_iff.1 hn
    obtain ⟨hpc, hm, hr, ho, hd⟩ := handlerStep_garbage hp
    exact h.lockFree (.inl hpc) hm hr ho hd

omit [DecidableEq Tid] [DecidableEq Table] in
theorem Collected.initial : Collected ⟨[], []⟩ (State.initial : State Tid Table) :=
  ⟨fun _ hc => hc.elim, rfl, rfl, List.suffix_refl _, fun _ => rfl, fun _ _ => rfl⟩

/-- In every run, whatever the threads and their handlers do: the tables are deleted in the
    order in which they were scheduled, by calls of `newEpoch`, the last one scheduled before
    a call first. Those not deleted are the tables scheduled since the last call, and the ones
    scheduled between the last two calls, all of them unless a thread is in `newEpoch`. So a
    table is in one place, as often as it was scheduled, and the second call from there on
    deletes it. -/
theorem generations_of_run {tr : List (State Tid Table × Label Tid Table)}
    (hr : (system Tid Table).Run System.anyStep .initial tr σ) :
    σ.gc.recentGarbage = (generations tr).current ∧
      σ.gc.deleted.reverse ++ σ.gc.oldGarbage = (generations tr).past.reverse.flatten ∧
      σ.gc.oldGarbage <:+ (generations tr).past.headD [] ∧
      ((∀ t, ¬(σ.threads t).pc.Collecting) →
        σ.gc.oldGarbage = (generations tr).past.headD []) ∧
      (σ.gc.recentGarbage ++ σ.gc.oldGarbage ++ σ.gc.deleted).Perm (generations tr).all := by
  have h : Collected (generations tr) σ := hr.traceInvariant
    (I := fun tr σ => Collected (generations tr) σ) (fun tr a l b ha _ hn => by
      rw [generations, List.foldl_append]
      exact ha.next hn) .initial
  refine ⟨h.recent, h.deleted, h.suffix, h.whole, ?_⟩
  rw [Generations.all, h.recent, List.append_assoc]
  refine List.Perm.append_left _ ?_
  have hall : (σ.gc.deleted.reverse ++ σ.gc.oldGarbage).Perm (generations tr).past.flatten := by
    rw [h.deleted]
    exact (List.reverse_perm _).flatten
  exact List.perm_append_comm.trans (((List.reverse_perm _).symm.append_right _).trans hall)

end Invariant

/-- A table is scheduled before the first of two epochs ends, and another one before the
    second: the first table is deleted, and the second one waits. -/
theorem generations_of_run_two :
    ∃ (tr : List (State (Fin 1) Bool × Label (Fin 1) Bool)) (σ : State (Fin 1) Bool),
      (system (Fin 1) Bool).Run System.anyStep .initial tr σ ∧ σ.gc.deleted = [false] ∧
        σ.gc.oldGarbage = [true] ∧ (generations tr).past.reverse.flatten = [false, true] := by
  have hrun : ((system (Fin 1) Bool).exec System.anyStep State.initial
      (attachSchedule 0 ++ (.scheduleDelete 0 false :: List.replicate 3 (.main 0)) ++
        safepointSchedule 0 0 ++ (.scheduleDelete 0 true :: List.replicate 3 (.main 0)) ++
        safepointSchedule 0 1)).any (fun σ =>
          decide (σ.gc.deleted = [false] ∧ σ.gc.oldGarbage = [true])) = true := by decide
  obtain ⟨tr, σ, hr, hσ⟩ := System.exists_run_of_exec hrun
  obtain ⟨hdeleted, hold⟩ := of_decide_eq_true hσ
  obtain ⟨-, hall, -⟩ := generations_of_run hr
  refine ⟨tr, σ, hr, hdeleted, hold, ?_⟩
  rw [← hall, hdeleted, hold]
  rfl

end FkProf.Gc
