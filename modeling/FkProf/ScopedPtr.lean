import FkProf.Foundations.Heap

/-!
# The memory of the virtual machine

What the virtual machine is asked for, it gives in memory that it allocates and that whoever asked
deallocates. The pointer to it is held by a `JvmtiScopedPtr` (`globals.h:130-163`): its destructor
deallocates what it points to, unless it is null, as it is after `AbandonBecauseOfError`. After an
error the pointer is whatever it is.

* `Answer.call`: a question;
* `deallocate`: the destructor;
* `call_ensures`, `deallocate_ensures`: what they do to the memory.
-/

namespace FkProf.ScopedPtr

/-- The answer to a question: an error, which leaves the pointer with anything in it, or what
    has been allocated, and where. -/
inductive Answer (α : Type)
  | error (ref : Option ℕ)
  | ok (address : ℕ) (a : α)

def Answer.toOption {α : Type} : Answer α → Option α
  | .error _ => none
  | .ok _ a => some a

section Memory

variable {α Contents : Type} {f : α → Contents} {m : Heap Contents} {address : ℕ} {x : Contents}

/-- The virtual machine answers: the memory, what is in the pointer, and whether there was an
    error. -/
def Answer.call (f : α → Contents) (m : Heap Contents) :
    Answer α → Except Stuck (Heap Contents × Option ℕ × Bool)
  | .error ref => .ok (m, ref, true)
  | .ok address a => do
    let m ← m.alloc address (f a)
    .ok (m, some address, false)

/-- `~JvmtiScopedPtr`. -/
def deallocate (m : Heap Contents) : Option ℕ → Except Stuck (Heap Contents)
  | none => .ok m
  | some a => m.free a

/-- What has been allocated stays, when something else is. -/
theorem update_of_none {b : ℕ} {y : Contents} {z : Option Contents} (hm : m address = none)
    (hb : m b = some y) : Function.update m address z b = some y := by
  refine (Function.update_of_ne (fun he => ?_) ..).trans hb
  rw [he, hm] at hb
  cases hb

/-- What has been allocated last. -/
theorem free_update (hm : m address = none) :
    Heap.free (Function.update m address (some x)) address = .ok m := by
  rw [Heap.free, Function.update_self]
  refine congrArg Except.ok ((Function.update_idem ..).trans ?_)
  rw [← hm, Function.update_eq_self]

theorem call_ensures (m : Heap Contents) (address : ℕ) (v : α) :
    Ensures ((Answer.ok address v).call f m) fun r => m address = none ∧
      r = (Function.update m address (some (f v)), some address, false) :=
  (Ensures.alloc (P := fun h => m address = none ∧ h = Function.update m address (some (f v)))
    fun hm => ⟨hm, rfl⟩).bind fun _ ⟨hm, he⟩ => ⟨hm, by rw [he]⟩

theorem deallocate_ensures (hm : m address = none) :
    Ensures (deallocate (Function.update m address (some x)) (some address)) (· = m) := by
  rw [deallocate, free_update hm]
  exact Ensures.pure rfl

end Memory

end FkProf.ScopedPtr
