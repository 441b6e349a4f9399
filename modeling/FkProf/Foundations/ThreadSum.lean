import Mathlib.Algebra.BigOperators.Group.Finset.Basic
import Mathlib.Algebra.Order.BigOperators.Group.Finset
import Mathlib.Data.Fintype.BigOperators
import Mathlib.Data.Set.Card

/-!
# Sums over threads

Counters shared by threads are tied to the threads by an equation: the counter
is the sum, over all threads, of what each has contributed to it. A step of one
thread changes one term of the sum (`sum_update`), so such an equation is
preserved when the step changes the counter by the difference.

* `sum_update`: how the sum changes when one thread does;
* `sum_eq_zero_iff`, `sum_pos_of_pos`: what a count of zero, or a positive
  one, says about the single threads;
* `eq_zero_of_sum_eq`: a sum that is one single term leaves nothing to the others;
* `ncard_change`: the same for the number of things with a property.
-/

namespace FkProf.ThreadSum

variable {ι β : Type*} [Fintype ι] [DecidableEq ι]

/-- One thread changing from `θ a` to `x` changes its own term only. -/
theorem sum_update {M : Type*} [AddCommMonoid M] (f : β → M) (θ : ι → β) (a : ι) (x : β) :
    ∑ i, f (Function.update θ a x i) + f (θ a) = ∑ i, f (θ i) + f x := by
  have hrest : ∑ i ∈ Finset.univ.erase a, f (Function.update θ a x i) =
      ∑ i ∈ Finset.univ.erase a, f (θ i) :=
    Finset.sum_congr rfl fun i hi => by rw [Function.update_of_ne (Finset.ne_of_mem_erase hi)]
  rw [← Finset.sum_erase_add _ _ (Finset.mem_univ a), hrest, Function.update_self,
    ← Finset.sum_erase_add _ (fun i => f (θ i)) (Finset.mem_univ a), add_right_comm]

/-- A thread changing without changing its term leaves the sum as it is. -/
theorem sum_update_eq {M : Type*} [AddCommMonoid M] (f : β → M) (θ : ι → β) (a : ι) {x : β}
    (h : f x = f (θ a)) : ∑ i, f (Function.update θ a x i) = ∑ i, f (θ i) := by
  refine Finset.sum_congr rfl fun i _ => ?_
  by_cases hi : i = a
  · rw [hi, Function.update_self, h]
  · rw [Function.update_of_ne hi]

omit [Fintype ι] in
/-- What a thread has after another, or itself, has changed. -/
theorem update_eq_some_iff {α : Type*} {θ : ι → Option α} {a b : ι} {x : Option α} {y : α} :
    Function.update θ a x b = some y ↔ b = a ∧ x = some y ∨ b ≠ a ∧ θ b = some y := by
  by_cases h : b = a
  · subst h
    simp
  · simp [h]

omit [DecidableEq ι] in
theorem sum_eq_zero_iff {f : ι → ℕ} : ∑ i, f i = 0 ↔ ∀ i, f i = 0 := by
  simp [Finset.sum_eq_zero_iff]

omit [DecidableEq ι] in
/-- Each term is at most the sum. -/
theorem le_sum (f : ι → ℕ) (a : ι) : f a ≤ ∑ i, f i :=
  Finset.single_le_sum (fun _ _ => Nat.zero_le _) (Finset.mem_univ a)

omit [DecidableEq ι] in
theorem sum_pos_of_pos {f : ι → ℕ} {a : ι} (h : 0 < f a) : 0 < ∑ i, f i :=
  h.trans_le (le_sum f a)

/-- Two terms together are at most the sum. -/
theorem add_le_sum {f : ι → ℕ} {a b : ι} (hab : a ≠ b) : f a + f b ≤ ∑ i, f i := by
  rw [← Finset.sum_pair hab]
  exact Finset.sum_le_sum_of_subset (Finset.subset_univ _)

/-- If one term makes up the whole sum, the others are zero. -/
theorem eq_zero_of_sum_eq {f : ι → ℕ} {a b : ι} (h : ∑ i, f i = f a) (hab : b ≠ a) :
    f b = 0 := by
  have := add_le_sum (f := f) hab
  omega

omit [Fintype ι] [DecidableEq ι] in
/-- One thing that changes may have the property before, or after. -/
theorem ncard_change [Finite ι] {P Q : ι → Prop} {p q : Prop} [Decidable p] [Decidable q] (a : ι)
    (hp : P a ↔ p) (hq : Q a ↔ q) (h : ∀ b ≠ a, Q b ↔ P b) :
    {b | Q b}.ncard + (if p then 1 else 0) = {b | P b}.ncard + (if q then 1 else 0) := by
  have hrest : {b | Q b} \ {a} = {b | P b} \ {a} := by
    ext b
    exact and_congr_left fun hb => h b hb
  have hcard : ∀ (R : ι → Prop) (r : Prop) [Decidable r], (R a ↔ r) →
      {b | R b}.ncard = ({b | R b} \ {a}).ncard + if r then 1 else 0 := by
    intro R r _ hR
    split_ifs with hr
    · exact (Set.ncard_sdiff_singleton_add_one (hR.2 hr) (Set.toFinite _)).symm
    · rw [Set.sdiff_singleton_eq_self (show a ∉ {b | R b} from fun ha => hr (hR.1 ha)),
        Nat.add_zero]
  rw [hcard P p hp, hcard Q q hq, hrest]
  omega

end FkProf.ThreadSum
