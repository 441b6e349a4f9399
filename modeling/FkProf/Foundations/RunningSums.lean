import Mathlib.Algebra.BigOperators.Group.List.Basic
import Mathlib.Algebra.Field.ZMod
import Mathlib.Tactic.LinearCombination
import Mathlib.Tactic.NormNum.Prime
import Mathlib.Tactic.Ring

/-!
# Two running sums

A checksum of Fletcher's kind has two sums: of what it has read, and of the sums so far. In
the second sum everything is weighted by its distance from the end, so a change at one or two
places, not too far from one another, does not leave both sums as they are.

* `runningSums`: the two sums over a ring;
* `runningSums_eq`: as a sum and a weighted sum;
* `eq_of_runningSums_eq`: the changes at two places that leave both as they are;
* `Altered`: lists that differ at one or two places, at some distance at most.
-/

namespace FkProf

section Sums

variable {R : Type*} [CommRing R]

/-- The sum, and the sum of the sums. -/
def runningSums (s : R × R) (xs : List R) : R × R :=
  xs.foldl (fun s x => (s.1 + x, s.2 + (s.1 + x))) s

/-- The sum with everything weighted by its distance from the end. -/
def weightedSum : List R → R
  | [] => 0
  | x :: xs => (xs.length + 1) * x + weightedSum xs

theorem weightedSum_append (xs ys : List R) :
    weightedSum (xs ++ ys) = weightedSum xs + ys.length * xs.sum + weightedSum ys := by
  induction xs with
  | nil => simp [weightedSum]
  | cons x xs ih =>
    rw [List.cons_append, weightedSum, ih, weightedSum, List.sum_cons, List.length_append]
    push_cast
    ring

theorem runningSums_eq (s : R × R) (xs : List R) :
    runningSums s xs = (s.1 + xs.sum, s.2 + xs.length * s.1 + weightedSum xs) := by
  induction xs generalizing s with
  | nil => simp [runningSums, weightedSum]
  | cons x xs ih =>
    refine (ih (s.1 + x, s.2 + (s.1 + x))).trans ?_
    rw [weightedSum, List.sum_cons, List.length_cons]
    push_cast
    exact Prod.ext (by ring) (by ring)

/-- A change at two places leaves the sums as they are only if what is added to one is taken from
    the other, and vanishes when it is multiplied by their distance. -/
theorem eq_of_runningSums_eq {s : R × R} {u v w : List R} {a a' b b' : R}
    (h : runningSums s (u ++ (a :: v ++ b :: w)) = runningSums s (u ++ (a' :: v ++ b' :: w))) :
    a + b = a' + b' ∧ (v.length + 1 : R) * (a - a') = 0 := by
  simp only [runningSums_eq, weightedSum_append, weightedSum, Prod.mk.injEq, List.sum_append,
    List.sum_cons, List.length_append, List.length_cons, List.cons_append] at h
  push_cast at h
  obtain ⟨h₁, h₂⟩ := h
  have hsum : a + b = a' + b' := by linear_combination h₁
  refine ⟨hsum, ?_⟩
  linear_combination h₂ - (w.length + 1) * hsum

end Sums

/-! ## Altered lists -/

variable {α : Type*} {n : ℕ} {xs ys : List α}

/-- The lists differ at one place, or at two with a distance below `n`. -/
inductive Altered (n : ℕ) : List α → List α → Prop
  | one (u v : List α) {a a' : α} : a ≠ a' → Altered n (u ++ a :: v) (u ++ a' :: v)
  | two (u v w : List α) {a a' b b' : α} : a ≠ a' → b ≠ b' → v.length + 1 < n →
      Altered n (u ++ (a :: v ++ b :: w)) (u ++ (a' :: v ++ b' :: w))

theorem Altered.length_eq (h : Altered n xs ys) : xs.length = ys.length := by
  cases h <;> simp

theorem Altered.append_left (h : Altered n xs ys) (zs : List α) : Altered n (zs ++ xs) (zs ++ ys) := by
  cases h with
  | one u v ha =>
    rw [← List.append_assoc, ← List.append_assoc]
    exact .one _ _ ha
  | two u v w ha hb hn =>
    have htwo := Altered.two (zs ++ u) v w ha hb hn
    rwa [List.append_assoc, List.append_assoc] at htwo

/-- The sums modulo a prime tell them apart. -/
theorem Altered.runningSums_ne {p : ℕ} [Fact p.Prime] {f : α → ZMod p} (hf : Function.Injective f)
    (h : Altered p xs ys) (s : ZMod p × ZMod p) :
    runningSums s (xs.map f) ≠ runningSums s (ys.map f) := by
  intro he
  cases h with
  | one u v ha =>
    simp only [runningSums_eq, List.map_append, List.map_cons, List.sum_append, List.sum_cons,
      Prod.mk.injEq] at he
    exact ha (hf (by linear_combination he.1))
  | two u v w ha hb hn =>
    simp only [List.map_append, List.map_cons, List.cons_append] at he
    obtain ⟨-, hmul⟩ := eq_of_runningSums_eq he
    rcases mul_eq_zero.1 hmul with hlen | hzero
    · rw [List.length_map, ← Nat.cast_succ, ZMod.natCast_eq_zero_iff] at hlen
      exact absurd (Nat.le_of_dvd (Nat.succ_pos _) hlen) (by omega)
    · exact ha (hf (sub_eq_zero.1 hzero))

end FkProf
