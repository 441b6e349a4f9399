import Mathlib.Data.List.Induction
import Mathlib.Data.Nat.Notation
import Mathlib.Logic.Function.Basic

/-!
# Programs on a heap

A program allocates at addresses that the allocator chooses, among those that are not
in use: a schedule names the choice, and an address that is in use is none. It must
not free or read what is not allocated.

* `Heap.alloc`, `Heap.free`, `Heap.get`: the operations;
* `Ensures`: the program does nothing invalid, and a condition holds after it;
* `Ensures.bind` and the others: the rules for it;
* `Agrees`: the program does what another one does, which may be something invalid;
* `Heap.replay`: what a program did to the heap, event by event;
* `owned_once_of_replay`: if nothing invalid was done and nothing is left, all that was
  allocated was freed once, and not used after that.
-/

namespace FkProf

universe u

/-- Why a program does not go on: the allocator cannot choose the address, or the program
    frees or reads what is not allocated. -/
inductive Stuck
  | inUse
  | invalid
  deriving DecidableEq

/-- What is allocated at the addresses. -/
abbrev Heap (α : Type*) := ℕ → Option α

namespace Heap

variable {α : Type*}

def alloc (h : Heap α) (a : ℕ) (x : α) : Except Stuck (Heap α) :=
  match h a with
  | none => .ok (Function.update h a (some x))
  | some _ => .error .inUse

def free (h : Heap α) (a : ℕ) : Except Stuck (Heap α) :=
  match h a with
  | none => .error .invalid
  | some _ => .ok (Function.update h a none)

def get (h : Heap α) (a : ℕ) : Except Stuck α :=
  match h a with
  | none => .error .invalid
  | some x => .ok x

/-- The heap without what a pointer points to. -/
def erase (h : Heap α) (p : Option ℕ) : Heap α := fun a => if p = some a then none else h a

/-- The pointer is null or points to what is allocated. -/
def Valid (h : Heap α) (p : Option ℕ) : Prop := ∀ a, p = some a → ∃ x, h a = some x

variable {h : Heap α} {p : Option ℕ} {a : ℕ}

@[simp] theorem erase_none (h : Heap α) : h.erase none = h := rfl

theorem erase_some (h : Heap α) (a : ℕ) : h.erase (some a) = Function.update h a none := by
  funext b
  by_cases hb : b = a
  · simp [erase, hb]
  · rw [erase, if_neg fun he => hb (Option.some.inj he).symm, Function.update_of_ne hb]

theorem erase_of_ne (hp : p ≠ some a) : h.erase p a = h a := if_neg hp

theorem erase_eq_none (ha : h a = none) : h.erase p a = none := by
  rw [erase]
  split
  · rfl
  · exact ha

end Heap

/-- The program does nothing invalid, and the condition holds after it. -/
def Ensures {α : Type*} (program : Except Stuck α) (post : α → Prop) : Prop :=
  match program with
  | .ok a => post a
  | .error .inUse => True
  | .error .invalid => False

namespace Ensures

variable {α β : Type u} {x : Except Stuck α} {f : α → Except Stuck β} {P Q : α → Prop}
  {R : β → Prop} {h : Heap α} {a : ℕ} {v : α}

theorem pure (hv : P v) : Ensures (.ok v) P := hv

theorem of_eq (hx : Ensures x P) (he : x = .ok v) : P v := by
  rw [he] at hx
  exact hx

theorem mono (hx : Ensures x P) (hPQ : ∀ a, P a → Q a) : Ensures x Q := by
  rcases x with (_ | _) | a
  · trivial
  · exact hx
  · exact hPQ a hx

/-- One program after another. -/
theorem bind (hx : Ensures x P) (hf : ∀ a, P a → Ensures (f a) R) : Ensures (x >>= f) R := by
  rcases x with (_ | _) | a
  · trivial
  · exact hx
  · exact hf a hx

/-- What holds after the program whenever it succeeds. -/
theorem and_of_ok {Q : α → Prop} (hx : Ensures x P) (hQ : ∀ a, x = .ok a → Q a) :
    Ensures x fun a => P a ∧ Q a := by
  rcases x with (_ | _) | a
  · trivial
  · exact hx
  · exact ⟨hx, hQ a rfl⟩

theorem not_invalid (hx : Ensures x P) : x ≠ .error .invalid := by
  rintro rfl
  exact hx

theorem alloc {P : Heap α → Prop} (hP : h a = none → P (Function.update h a (some v))) :
    Ensures (h.alloc a v) P := by
  rw [Heap.alloc]
  split
  · exact hP ‹_›
  · trivial

theorem free {P : Heap α → Prop} (hv : h a = some v) (hP : P (Function.update h a none)) :
    Ensures (h.free a) P := by
  rw [Heap.free, hv]
  exact hP

theorem get (hv : h a = some v) (hP : P v) : Ensures (h.get a) P := by
  rw [Heap.get, hv]
  exact hP

end Ensures

/-- The program does what the other one does, unless the allocator cannot choose an address. -/
def Agrees {α : Type*} (program spec : Except Stuck α) : Prop :=
  program = .error .inUse ∨ program = spec

namespace Agrees

variable {α β : Type u} {x y : Except Stuck α} {f g : α → Except Stuck β} {z : Except Stuck β}
  {P : α → Prop}

theorem refl (x : Except Stuck α) : Agrees x x := .inr rfl

theorem trans {x y z : Except Stuck α} (hxy : Agrees x y) (hyz : Agrees y z) : Agrees x z := by
  rcases hxy with rfl | rfl
  · exact .inl rfl
  · exact hyz

theorem bind (hx : Agrees x y) (hf : ∀ a, Agrees (f a) (g a)) : Agrees (x >>= f) (y >>= g) := by
  rcases hx with rfl | rfl
  · exact .inl rfl
  · rcases x with e | a
    · exact .refl _
    · exact hf a

theorem of_ensures_eq {v : α} (hx : Ensures x (· = v)) : Agrees x (.ok v) := by
  rcases x with (_ | _) | a
  · exact .inl rfl
  · exact hx.elim
  · exact .inr (congrArg _ hx)

/-- A program after one that does nothing invalid. -/
theorem of_ensures (hx : Ensures x P) (hf : ∀ a, P a → Agrees (f a) z) : Agrees (x >>= f) z := by
  rcases x with (_ | _) | a
  · exact .inl rfl
  · exact hx.elim
  · exact hf a hx

end Agrees

theorem exists_of_bind_eq_ok {α β : Type u} {x : Except Stuck α} {f : α → Except Stuck β} {b : β}
    (h : x >>= f = .ok b) : ∃ a, x = .ok a ∧ f a = .ok b := by
  cases x with
  | error e => cases h
  | ok a => exact ⟨a, rfl, h⟩

theorem exists_bind_eq_ok {α β : Type u} {x : Except Stuck α} {f : α → Except Stuck β} {a : α}
    {P : β → Prop} (hx : x = .ok a) (hf : ∃ b, f a = .ok b ∧ P b) :
    ∃ b, x >>= f = .ok b ∧ P b := by
  subst hx
  exact hf

/-! ## Histories -/

/-- What a program does to a heap. -/
inductive HeapEvent (α : Type*)
  | alloc (a : ℕ) (x : α)
  | free (a : ℕ)
  | get (a : ℕ)

namespace HeapEvent

variable {α : Type*}

/-- The event allocates or frees at the address. -/
def Changes (a : ℕ) : HeapEvent α → Prop
  | .alloc b _ | .free b => b = a
  | .get _ => False

/-- The event needs what is allocated at the address. -/
def Uses (a : ℕ) : HeapEvent α → Prop
  | .free b | .get b => b = a
  | .alloc .. => False

end HeapEvent

namespace Heap

variable {α : Type u}

def after (h : Heap α) : HeapEvent α → Except Stuck (Heap α)
  | .alloc a x => h.alloc a x
  | .free a => h.free a
  | .get a => do
    let _ ← h.get a
    .ok h

/-- One event after another. -/
def replay (h : Heap α) : List (HeapEvent α) → Except Stuck (Heap α)
  | [] => .ok h
  | e :: es => h.after e >>= fun h => h.replay es

variable {h h' : Heap α} {e : HeapEvent α} {es es' : List (HeapEvent α)} {a : ℕ} {x : α}

theorem alloc_eq_ok (he : h.alloc a x = .ok h') : h a = none ∧ h' = Function.update h a (some x) := by
  rw [alloc] at he
  split at he
  · cases he
    exact ⟨‹_›, rfl⟩
  · cases he

theorem free_eq_ok (he : h.free a = .ok h') : h a ≠ none ∧ h' = Function.update h a none := by
  rw [free] at he
  split at he
  · cases he
  · rename_i hx
    cases he
    exact ⟨by rw [hx]; exact Option.some_ne_none _, rfl⟩

theorem get_eq_ok (he : h.get a = .ok x) : h a = some x := by
  rw [get] at he
  split at he
  · cases he
  · cases he
    exact ‹_›

theorem after_of_not_changes (he : h.after e = .ok h') (hc : ¬e.Changes a) : h' a = h a := by
  cases e with
  | alloc b x =>
    rw [(alloc_eq_ok he).2]
    exact Function.update_of_ne (fun hab => hc hab.symm) ..
  | free b =>
    rw [(free_eq_ok he).2]
    exact Function.update_of_ne (fun hab => hc hab.symm) ..
  | get b =>
    obtain ⟨_, _, hr⟩ := exists_of_bind_eq_ok he
    cases hr
    rfl

/-- What is needed is allocated. -/
theorem ne_none_of_uses (he : h.after e = .ok h') (hu : e.Uses a) : h a ≠ none := by
  cases e with
  | alloc b x => exact hu.elim
  | free b =>
    cases hu
    exact (free_eq_ok he).1
  | get b =>
    cases hu
    obtain ⟨x, hx, _⟩ := exists_of_bind_eq_ok he
    rw [get_eq_ok hx]
    exact Option.some_ne_none x

theorem replay_append : h.replay (es ++ es') = h.replay es >>= fun h => h.replay es' := by
  induction es generalizing h with
  | nil => rfl
  | cons e es ih =>
    rw [List.cons_append, replay, replay, bind_assoc]
    exact congrArg _ (funext fun _ => ih)

theorem replay_append_ok {h₁ h₂ : Heap α} (hes : h.replay es = .ok h₁) (hes' : h₁.replay es' = .ok h₂) :
    h.replay (es ++ es') = .ok h₂ := by
  rw [replay_append, hes]
  exact hes'

theorem replay_get (hx : h.get a = .ok x) : h.replay [.get a] = .ok h := by
  show (h.get a >>= _) >>= _ = _
  rw [hx]
  rfl

/-- What is allocated and not there at the end is freed. -/
theorem exists_free (hr : h.replay es = .ok h') (ha : h a ≠ none) (ha' : h' a = none) :
    ∃ mid rest, es = mid ++ .free a :: rest ∧ ∀ e ∈ mid, ¬e.Changes a := by
  induction es generalizing h with
  | nil =>
    cases hr
    exact absurd ha' ha
  | cons e es ih =>
    obtain ⟨h₁, he, hr⟩ := exists_of_bind_eq_ok hr
    by_cases hc : e.Changes a
    · cases e with
      | alloc b x =>
        cases hc
        exact absurd (alloc_eq_ok he).1 ha
      | free b =>
        cases hc
        exact ⟨[], es, rfl, fun e he => absurd he List.not_mem_nil⟩
      | get b => exact hc.elim
    · obtain ⟨mid, rest, rfl, hmid⟩ := ih hr (by rwa [after_of_not_changes he hc])
      exact ⟨e :: mid, rest, rfl, List.forall_mem_cons.2 ⟨hc, hmid⟩⟩

/-- What is there and was not at the beginning was allocated. -/
theorem exists_alloc (hr : h.replay es = .ok h') (ha : h a = none) (ha' : h' a ≠ none) :
    ∃ pre x mid, es = pre ++ .alloc a x :: mid ∧ ∀ e ∈ mid, ¬e.Changes a := by
  induction es using List.reverseRecOn generalizing h' with
  | nil =>
    cases hr
    exact absurd ha ha'
  | append_singleton es e ih =>
    rw [replay_append] at hr
    obtain ⟨h₁, hr, he⟩ := exists_of_bind_eq_ok hr
    obtain ⟨_, he, hlast⟩ := exists_of_bind_eq_ok he
    cases hlast
    by_cases hc : e.Changes a
    · cases e with
      | alloc b x =>
        cases hc
        exact ⟨es, x, [], rfl, fun e he => absurd he List.not_mem_nil⟩
      | free b =>
        cases hc
        rw [(free_eq_ok he).2, Function.update_self] at ha'
        exact absurd rfl ha'
      | get b => exact hc.elim
    · obtain ⟨pre, x, mid, rfl, hmid⟩ := ih hr (by rwa [← after_of_not_changes he hc])
      refine ⟨pre, x, mid ++ [e], by simp, fun e' he' => ?_⟩
      rcases List.mem_append.1 he' with he' | he'
      · exact hmid e' he'
      · rwa [List.mem_singleton.1 he']

end Heap

/-- All that is allocated is freed once, and what is used has been allocated and not been
    freed since. -/
structure OwnedOnce {α : Type*} (es : List (HeapEvent α)) : Prop where
  freed : ∀ pre a x post, es = pre ++ .alloc a x :: post →
    ∃ mid rest, post = mid ++ .free a :: rest ∧ ∀ e ∈ mid, ¬e.Changes a
  held : ∀ pre e post a, es = pre ++ e :: post → e.Uses a →
    ∃ pre' x mid, pre = pre' ++ .alloc a x :: mid ∧ ∀ e ∈ mid, ¬e.Changes a

/-- So it is if nothing invalid is done, from an empty heap to an empty one. -/
theorem owned_once_of_replay {α : Type u} {es : List (HeapEvent α)} {h : Heap α}
    (hr : Heap.replay (fun _ => none) es = .ok h) (hempty : ∀ a, h a = none) : OwnedOnce es where
  freed pre a x post he := by
    rw [he, Heap.replay_append] at hr
    obtain ⟨h₁, -, hr⟩ := exists_of_bind_eq_ok hr
    obtain ⟨h₂, halloc, hr⟩ := exists_of_bind_eq_ok hr
    refine Heap.exists_free hr ?_ (hempty a)
    rw [(Heap.alloc_eq_ok halloc).2, Function.update_self]
    exact Option.some_ne_none x
  held pre e post a he hu := by
    rw [he, Heap.replay_append] at hr
    obtain ⟨h₁, hpre, hr⟩ := exists_of_bind_eq_ok hr
    obtain ⟨h₂, he, -⟩ := exists_of_bind_eq_ok hr
    exact Heap.exists_alloc hpre rfl (Heap.ne_none_of_uses he hu)

end FkProf
