import FkProf.Foundations.System
import Mathlib.Logic.Function.Basic

/-!
# Calls under a spin lock

Any number of threads call a component, each call under a lock: a flag that the caller sets
by compare-and-swap, again and again until it succeeds, and clears when the call is done. For
the component there is then one caller, which makes the calls in the order in which the lock
was acquired.

* `Component`: the calls of a component, step by step, and what happens to it otherwise;
* `single`, `system`: one caller, and many under the lock;
* `Excludes`: one thread at most has the lock;
* `serialized`: a run with many callers is one with a single caller.
-/

namespace FkProf.SpinLock

/-- A component: where a call begins, its next step, after which it goes on or returns, and
    the steps of others that take no lock. -/
structure Component (S P Op E : Type*) where
  entry : Op → P
  step : S → P → Option (S × Option P)
  env : S → E → Option S

variable {C S P Op E : Type*}

/-! ## One caller -/

/-- What a single caller, and the others, do. -/
inductive Act (Op E : Type*)
  | call (op : Op)
  | step
  | env (e : E)

/-- The component and where its caller is, if it is in a call. -/
def Component.next (comp : Component S P Op E) (σ : S × Option P) : Act Op E → Option (S × Option P)
  | .call op => if σ.2.isNone then some (σ.1, some (comp.entry op)) else none
  | .step => σ.2.bind fun pc => comp.step σ.1 pc
  | .env e => (comp.env σ.1 e).map fun s => (s, σ.2)

/-- The component with one caller. -/
def single (comp : Component S P Op E) : System (S × Option P) (Act Op E) where
  init := {σ | σ.2 = none}
  next := comp.next

/-! ## Many callers -/

/-- Where a thread is: before its compare-and-swap, in its call, or before it clears the
    flag. -/
inductive Caller (P Op : Type*)
  | idle
  | acquire (op : Op)
  | inside (pc : P)
  | release

/-- The component, the flag and the threads. -/
structure State (C S P Op : Type*) where
  shared : S
  locked : Bool
  callers : C → Caller P Op

/-- Who takes a step: a thread that calls, one that goes on, one whose compare-and-swap fails
    for no reason, or another. -/
inductive Label (C Op E : Type*)
  | call (c : C) (op : Op)
  | step (c : C)
  | fail (c : C)
  | env (e : E)

/-- A call goes on, or is done. -/
def Caller.after : Option P → Caller P Op
  | some pc => .inside pc
  | none => .release

variable [DecidableEq C]

/-- A thread moves. -/
def State.set (σ : State C S P Op) (c : C) (x : Caller P Op) : State C S P Op :=
  { σ with callers := Function.update σ.callers c x }

theorem State.set_self (σ : State C S P Op) (c : C) (x : Caller P Op) :
    (σ.set c x).callers c = x := Function.update_self ..

theorem State.set_of_ne (σ : State C S P Op) {c d : C} (x : Caller P Op) (h : d ≠ c) :
    (σ.set c x).callers d = σ.callers d := Function.update_of_ne h ..

/-- A step of a thread. -/
def State.step (comp : Component S P Op E) (σ : State C S P Op) (c : C) : Option (State C S P Op) :=
  match σ.callers c with
  | .idle => none
  | .acquire op =>
    some (if σ.locked then σ else { σ.set c (.inside (comp.entry op)) with locked := true })
  | .inside pc => (comp.step σ.shared pc).map fun x =>
      { σ.set c (.after x.2) with shared := x.1 }
  | .release => some { σ.set c .idle with locked := false }

/-- The next state. -/
def State.next (comp : Component S P Op E) (σ : State C S P Op) :
    Label C Op E → Option (State C S P Op)
  | .call c op =>
    match σ.callers c with
    | .idle => some (σ.set c (.acquire op))
    | _ => none
  | .step c => σ.step comp c
  | .fail c =>
    match σ.callers c with
    | .acquire _ => some σ
    | _ => none
  | .env e => (comp.env σ.shared e).map fun s => { σ with shared := s }

omit [DecidableEq C] in
/-- Nobody is in a call. -/
def State.new (s : S) : State C S P Op := ⟨s, false, fun _ => .idle⟩

variable (C) in
/-- The component with many callers under the lock. -/
def system (comp : Component S P Op E) : System (State C S P Op) (Label C Op E) where
  init := {σ | ∃ s, σ = .new s}
  next := State.next comp

/-! ## Mutual exclusion -/

omit [DecidableEq C] in
/-- The thread has the lock. -/
@[simp] def Caller.Holds : Caller P Op → Prop
  | .inside _ | .release => True
  | _ => False

/-- One thread has the lock, if it is taken. -/
structure Excludes (σ : State C S P Op) : Prop where
  unique : ∀ c c', (σ.callers c).Holds → (σ.callers c').Holds → c = c'
  locked : σ.locked = true ↔ ∃ c, (σ.callers c).Holds

variable {comp : Component S P Op E} {σ σ' : State C S P Op} {l : Label C Op E} {c : C}
  {x : Caller P Op}

/-- A thread without the lock moves. -/
theorem Excludes.set (h : Excludes σ) (hx : x.Holds ↔ (σ.callers c).Holds) :
    Excludes (σ.set c x) := by
  have hiff : ∀ d, ((σ.set c x).callers d).Holds ↔ (σ.callers d).Holds := fun d => by
    by_cases hd : d = c
    · subst hd
      rw [State.set_self]
      exact hx
    · rw [State.set_of_ne _ _ hd]
  exact ⟨fun d d' hd hd' => h.unique d d' ((hiff d).1 hd) ((hiff d').1 hd'),
    h.locked.trans (exists_congr fun d => (hiff d).symm)⟩

/-- The lock is acquired. -/
theorem Excludes.acquire (h : Excludes σ) (hfree : σ.locked = false) (hx : x.Holds) :
    Excludes { σ.set c x with locked := true } := by
  have hnone : ∀ d, ¬(σ.callers d).Holds := fun d hd => by
    rw [h.locked.2 ⟨d, hd⟩] at hfree
    cases hfree
  have honly : ∀ d, ((σ.set c x).callers d).Holds → d = c := fun d hd => by
    by_contra hne
    rw [State.set_of_ne _ _ hne] at hd
    exact hnone d hd
  refine ⟨fun d d' hd hd' => (honly d hd).trans (honly d' hd').symm, fun _ => ⟨c, ?_⟩, fun _ => rfl⟩
  show ((σ.set c x).callers c).Holds
  rw [State.set_self]
  exact hx

/-- The lock is released. -/
theorem Excludes.release (h : Excludes σ) (hc : (σ.callers c).Holds) :
    Excludes { σ.set c (.idle : Caller P Op) with locked := false } := by
  have hnone : ∀ d, ¬((σ.set c .idle).callers d).Holds := fun d hd => by
    by_cases hdc : d = c
    · subst hdc
      rw [State.set_self] at hd
      exact hd
    · rw [State.set_of_ne _ _ hdc] at hd
      exact hdc (h.unique d c hd hc)
  refine ⟨fun d _ hd => absurd hd (hnone d), fun hl => ?_, fun hl => ?_⟩
  · cases hl
  · obtain ⟨d, hd⟩ := hl
    exact absurd hd (hnone d)

/-! ## One caller for many -/

/-- Where the caller is, to the component. -/
def State.Shows (σ : State C S P Op) : Option P → Prop
  | some pc => ∃ c, σ.callers c = .inside pc
  | none => ∀ c pc, σ.callers c ≠ .inside pc

/-- What a step is to the component: the call begins when the lock is acquired. -/
def State.act (σ : State C S P Op) : Label C Op E → Option (Act Op E)
  | .step c =>
    match σ.callers c with
    | .acquire op => if σ.locked then none else some (.call op)
    | .inside _ => some .step
    | _ => none
  | .env e => some (.env e)
  | _ => none

section Serial

variable {p : Option P}

theorem State.Shows.set (h : σ.Shows p) (hold : ∀ pc, σ.callers c ≠ .inside pc)
    (hx : ∀ pc, x ≠ .inside pc) : (σ.set c x).Shows p := by
  cases p with
  | none =>
    intro d pc
    by_cases hd : d = c
    · subst hd
      rw [State.set_self]
      exact hx pc
    · rw [State.set_of_ne _ _ hd]
      exact h d pc
  | some pc =>
    obtain ⟨d, hd⟩ := h
    refine ⟨d, (Function.update_of_ne ?_ ..).trans hd⟩
    rintro rfl
    exact hold pc hd

omit [DecidableEq C] in
/-- The thread that has the lock is the caller. -/
theorem Excludes.shows_eq (h : Excludes σ) (hp : σ.Shows p) (hc : (σ.callers c).Holds) :
    ∀ pc, p = some pc ↔ σ.callers c = .inside pc := by
  intro pc
  cases p with
  | none => exact ⟨fun he => (by cases he), fun he => absurd he (hp c pc)⟩
  | some pc' =>
    obtain ⟨d, hd⟩ := hp
    obtain rfl : d = c := h.unique d c (by rw [hd]; trivial) hc
    rw [hd]
    constructor
    · rintro he
      cases he
      rfl
    · rintro he
      cases he
      rfl

theorem Excludes.step (h : Excludes σ) (hp : σ.Shows p) (hn : σ.step comp c = some σ') :
    Excludes σ' ∧ ∃ p', σ'.Shows p' ∧
      match σ.act (E := E) (.step c) with
      | none => σ'.shared = σ.shared ∧ p' = p
      | some a => comp.next (σ.shared, p) a = some (σ'.shared, p') := by
  rw [State.step] at hn
  rw [State.act]
  cases hc : σ.callers c with
  | idle =>
    rw [hc] at hn
    cases hn
  | acquire op =>
    rw [hc] at hn
    dsimp only at hn ⊢
    have he := Option.some.inj hn
    cases hl : σ.locked with
    | true =>
      rw [hl, if_pos rfl] at he
      subst he
      exact ⟨h, p, hp, rfl, rfl⟩
    | false =>
      rw [hl, if_neg Bool.false_ne_true] at he
      subst he
      -- Nobody has the lock, so the component has no caller.
      obtain rfl : p = none := by
        cases p with
        | none => rfl
        | some pc =>
          obtain ⟨d, hd⟩ := hp
          have hlock := h.locked.2 ⟨d, by rw [hd]; trivial⟩
          rw [hl] at hlock
          cases hlock
      exact ⟨h.acquire hl trivial, some (comp.entry op), ⟨c, Function.update_self ..⟩, rfl⟩
  | inside pc =>
    rw [hc] at hn
    obtain ⟨⟨s, q⟩, hs, rfl⟩ := Option.map_eq_some_iff.1 hn
    have hholds : (σ.callers c).Holds := by
      rw [hc]
      trivial
    obtain rfl : p = some pc := (h.shows_eq hp hholds pc).2 hc
    have hafter : (Caller.after q : Caller P Op).Holds := by cases q <;> trivial
    have hset : Excludes (σ.set c (.after q)) := h.set (iff_of_true hafter hholds)
    refine ⟨⟨hset.unique, hset.locked⟩, q, ?_, hs⟩
    cases q with
    | some pc' => exact ⟨c, Function.update_self ..⟩
    | none =>
      intro d pc' hd
      by_cases hdc : d = c
      · subst hdc
        cases (Function.update_self ..).symm.trans hd
      · have hd' : σ.callers d = .inside pc' := (Function.update_of_ne hdc ..).symm.trans hd
        exact hdc (h.unique d c (by rw [hd']; trivial) hholds)
  | release =>
    rw [hc] at hn
    cases hn
    have hholds : (σ.callers c).Holds := by
      rw [hc]
      trivial
    refine ⟨h.release hholds, p, ?_, rfl, rfl⟩
    refine hp.set (fun pc he => ?_) fun pc he => ?_
    · rw [hc] at he
      cases he
    · cases he

theorem Excludes.next (h : Excludes σ) (hp : σ.Shows p) (hn : σ.next comp l = some σ') :
    Excludes σ' ∧ ∃ p', σ'.Shows p' ∧
      match σ.act l with
      | none => σ'.shared = σ.shared ∧ p' = p
      | some a => comp.next (σ.shared, p) a = some (σ'.shared, p') := by
  cases l with
  | call c op =>
    rw [State.next] at hn
    cases hc : σ.callers c with
    | idle =>
      rw [hc] at hn
      cases hn
      refine ⟨h.set (iff_of_false id (by rw [hc]; exact id)), p, hp.set (fun pc he => ?_)
        (fun pc he => ?_), rfl, rfl⟩
      · rw [hc] at he
        cases he
      · cases he
    | acquire | inside | release =>
      rw [hc] at hn
      cases hn
  | step c => exact h.step hp hn
  | fail c =>
    rw [State.next] at hn
    cases hc : σ.callers c with
    | acquire op =>
      rw [hc] at hn
      cases hn
      exact ⟨h, p, hp, rfl, rfl⟩
    | idle | inside | release =>
      rw [hc] at hn
      cases hn
  | env e =>
    obtain ⟨s, hs, rfl⟩ := Option.map_eq_some_iff.1 hn
    refine ⟨⟨h.unique, h.locked⟩, p, ?_, ?_⟩
    · cases p <;> exact hp
    · exact Option.map_eq_some_iff.2 ⟨s, hs, rfl⟩

omit [DecidableEq C] in
theorem Excludes.new (s : S) : Excludes (.new s : State C S P Op) := by
  refine ⟨fun _ _ hc => hc.elim, fun hl => ?_, fun hl => ?_⟩
  · cases hl
  · obtain ⟨_, hc⟩ := hl
    exact hc.elim

/-- A run with many callers is one with a single caller, who makes the calls in the order in
    which the lock was acquired. -/
theorem serialized {s : S} {ok : State C S P Op → Label C Op E → Prop}
    {tr : List (State C S P Op × Label C Op E)}
    (hr : (system C comp).Run ok (.new s) tr σ) :
    Excludes σ ∧ ∃ p tr', σ.Shows p ∧
      (single comp).Run System.anyStep (s, none) tr' (σ.shared, p) ∧
      tr'.map Prod.snd = tr.filterMap fun x => x.1.act x.2 := by
  induction hr with
  | refl => exact ⟨.new s, none, [], fun _ _ he => (by cases he), .refl, rfl⟩
  | @snoc tr a b l _ hl hn ih =>
    obtain ⟨hex, p, tr', hp, hr', htr⟩ := ih
    obtain ⟨hex', p', hp', hact⟩ := hex.next hp hn
    refine ⟨hex', p', ?_⟩
    cases ha : a.act l with
    | none =>
      rw [ha] at hact
      obtain ⟨hs, rfl⟩ := hact
      refine ⟨tr', hp', by rwa [hs], ?_⟩
      simp [htr, ha]
    | some e =>
      rw [ha] at hact
      refine ⟨tr' ++ [((a.shared, p), e)], hp', hr'.snoc trivial hact, ?_⟩
      simp [htr, ha]

end Serial

end FkProf.SpinLock
