import Mathlib.Tactic.TypeStar

/-!
# What is held in one place

A thing that is passed on from place to place is at each time in one place at
most. The places and what is there are a relation, `held p v`.

* `Sole`: there is one place at most;
* `At`: it is in this place, and nowhere else, what the moves of it lead to;
* `Contents`: what is held, wherever it is.
-/

namespace FkProf

variable {ι α : Type*} {held held' : ι → α → Prop} {p q : ι} {v w : α}

/-- Something is held in one place at most. -/
def Sole (held : ι → α → Prop) : Prop :=
  ∀ p q v w, held p v → held q w → p = q ∧ v = w

/-- It is held in this place, and nowhere else. -/
def At (held : ι → α → Prop) (p : ι) (v : α) : Prop := ∀ q w, held q w ↔ q = p ∧ w = v

/-- It is held somewhere. -/
def Contents (held : ι → α → Prop) (v : α) : Prop := ∃ p, held p v

theorem At.holds (h : At held p v) : held p v := (h p v).2 ⟨rfl, rfl⟩

theorem At.sole (h : At held p v) : Sole held := fun _ _ _ _ hq hr => by
  obtain ⟨rfl, rfl⟩ := (h _ _).1 hq
  obtain ⟨rfl, rfl⟩ := (h _ _).1 hr
  exact ⟨rfl, rfl⟩

theorem Sole.at (h : Sole held) (hp : held p v) : At held p v := fun q w =>
  ⟨fun hq => h q p w v hq hp, fun ⟨hq, hw⟩ => hq ▸ hw ▸ hp⟩

theorem At.contents (h : At held p v) : Contents held w ↔ w = v :=
  ⟨fun ⟨q, hq⟩ => ((h q w).1 hq).2, fun hw => ⟨p, (h p w).2 ⟨rfl, hw⟩⟩⟩

theorem Sole.congr (h : Sole held) (he : ∀ p v, held' p v ↔ held p v) : Sole held' :=
  fun p q v w hp hq => h p q v w ((he p v).1 hp) ((he q w).1 hq)

theorem contents_congr (he : ∀ p v, held' p v ↔ held p v) : Contents held' v ↔ Contents held v :=
  exists_congr fun p => he p v

/-- What is passed on from one place to another stays the same. -/
theorem At.contents_eq (h : At held p v) (h' : At held' q v) :
    Contents held' w ↔ Contents held w := by
  rw [h.contents, h'.contents]

end FkProf
