import Mathlib.Data.Nat.Bitwise
import Mathlib.Data.Nat.Find

/-!
# Smearing bits

Copying the highest bit of a word into all lower positions gives a word of the
form `2 ^ m - 1`, whatever the word was; adding one then rounds up to a power of
two. The usual loop of shifts by 1, 2, 4, … does this also with arithmetic
shifts, where a negative word gives all ones.

* `toNat_succ_of_downClosed`: a word whose set bits are downward closed is
  `2 ^ m - 1`;
* `Smeared.double`: a shift and an or double the reach of the smearing, which ends
  with such a word (`Smeared.downClosed`).
-/

namespace FkProf

/-- With a bit, all lower ones are set. -/
def DownClosed {w : ℕ} (x : BitVec w) : Prop :=
  ∀ i, x.getLsbD (i + 1) = true → x.getLsbD i = true

/-- A word whose set bits are downward closed is all ones up to some position. -/
theorem toNat_succ_of_downClosed {w : ℕ} {x : BitVec w} (h : DownClosed x) :
    ∃ m ≤ w, x.toNat + 1 = 2 ^ m := by
  have hex : ∃ m, x.getLsbD m = false := ⟨w, BitVec.getLsbD_of_ge _ _ le_rfl⟩
  classical
  let m := Nat.find hex
  have hm : x.getLsbD m = false := Nat.find_spec hex
  have hlow : ∀ i, i < m → x.getLsbD i = true := fun i hi => by
    simpa using Nat.find_min hex hi
  have hhigh : ∀ i, m ≤ i → x.getLsbD i = false := fun i hi => by
    induction i, hi using Nat.le_induction with
    | base => exact hm
    | succ i _ ih =>
      by_contra hc
      have := h i (by simpa using hc)
      simp [ih] at this
  have hval : x.toNat = 2 ^ m - 1 := by
    refine Nat.eq_of_testBit_eq fun i => ?_
    rw [Nat.testBit_two_pow_sub_one, BitVec.testBit_toNat]
    rcases Nat.lt_or_ge i m with hi | hi
    · simp [hlow i hi, hi]
    · simp [hhigh i hi, hi]
  refine ⟨m, Nat.find_min' hex (BitVec.getLsbD_of_ge _ _ le_rfl), ?_⟩
  have := Nat.two_pow_pos m
  omega

/-! ## Sign extension -/

variable {w : ℕ} {x y : BitVec w}

/-- A bit of the word extended by its sign. -/
def signBit (x : BitVec w) (i : ℕ) : Bool := if i < w then x.getLsbD i else x.msb

theorem signBit_of_ge {i : ℕ} (hi : w ≤ i + 1) : signBit x i = x.msb := by
  rw [signBit]
  split
  · rw [BitVec.msb_eq_getLsbD_last, show i = w - 1 by omega]
  · rfl

theorem signBit_or (i : ℕ) : signBit (x ||| y) i = (signBit x i || signBit y i) := by
  simp only [signBit]
  split
  · rw [BitVec.getLsbD_or]
  · rw [BitVec.msb_or]

theorem signBit_sshiftRight (n i : ℕ) : signBit (x.sshiftRight n) i = signBit x (i + n) := by
  simp only [signBit, BitVec.getLsbD_sshiftRight, BitVec.msb_sshiftRight]
  by_cases hi : i < w
  · simp [hi, show ¬w ≤ i by omega, Nat.add_comm]
  · simp [hi, show ¬i + n < w by omega]

/-! ## Smearing -/

/-- A word has the bits of `y` smeared over the next `n` lower positions. -/
def Smeared (x y : BitVec w) (n : ℕ) : Prop :=
  ∀ i, signBit x i = true ↔ ∃ k < n, signBit y (i + k) = true

theorem Smeared.refl : Smeared x x 1 := fun i => by
  simp

/-- A shift and an or double the number of positions. -/
theorem Smeared.double {n : ℕ} (h : Smeared x y n) : Smeared (x ||| x.sshiftRight n) y (n + n) :=
    fun i => by
  rw [signBit_or, Bool.or_eq_true, signBit_sshiftRight, h i, h (i + n)]
  constructor
  · rintro (⟨k, hk, hb⟩ | ⟨k, hk, hb⟩)
    · exact ⟨k, by omega, hb⟩
    · exact ⟨n + k, by omega, by rwa [← Nat.add_assoc]⟩
  · rintro ⟨k, hk, hb⟩
    by_cases hkn : k < n
    · exact .inl ⟨k, hkn, hb⟩
    · exact .inr ⟨k - n, by omega, by rwa [Nat.add_assoc, Nat.add_sub_cancel' (by omega)]⟩

/-- Smeared over all positions, the set bits are downward closed. -/
theorem Smeared.downClosed {n : ℕ} (h : Smeared x y n) (hn : w ≤ n) : DownClosed x := by
  intro i hi
  have hiw : i + 1 < w := BitVec.lt_of_getLsbD hi
  have hbit : ∀ j < w, x.getLsbD j = signBit x j := fun j hj => by rw [signBit, if_pos hj]
  rw [hbit _ hiw, h] at hi
  rw [hbit i (by omega), h]
  obtain ⟨k, hk, hb⟩ := hi
  by_cases hkn : k + 1 < n
  · exact ⟨k + 1, hkn, by rwa [show i + (k + 1) = i + 1 + k by omega]⟩
  · refine ⟨k, hk, ?_⟩
    rw [signBit_of_ge (by omega)] at hb
    rwa [signBit_of_ge (by omega)]

end FkProf
