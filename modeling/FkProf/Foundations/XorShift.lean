import FkProf.Foundations.BitSmear
import Mathlib.Data.BitVec

/-!
# Words mixed with their shifts

The steps of a multiplicative hash are a multiplication by an odd constant and the
exclusive or of a word with one of its shifts. A shift to the left loses nothing, as the
low bits come through unchanged and give the others one after another. A shift to the
right gives the bits from the highest one on, which comes through unchanged only if zeros
are shifted in: an arithmetic shift takes the sign away, and a word and its complement
have the same image.

* `mul_injective`: a constant with an inverse;
* `xor_shiftLeft_injective`;
* `xor_sshiftRight_eq_iff`: the two words with one image;
* `msb_xor_sshiftRight`: the images have no sign;
* `getLsbD_of_xor_shiftLeft_eq_allOnes`: the word whose image is all ones.
-/

namespace FkProf.XorShift

variable {w : ℕ} {x y : BitVec w} {k i : ℕ}

/-- A multiplication by a constant that has an inverse. -/
theorem mul_injective {c d : BitVec w} (hcd : c * d = 1#w) : Function.Injective (· * c) := by
  intro x y h
  have hmul := congrArg (· * d) h
  simpa only [BitVec.mul_assoc, hcd, BitVec.mul_one] using hmul

/-! ## Shifts to the left -/

theorem xor_shiftLeft_injective (hk : 0 < k) :
    Function.Injective fun x : BitVec w => x ^^^ x <<< k := by
  intro x y h
  refine BitVec.eq_of_getLsbD_eq fun i _ => ?_
  -- The bits, from the lowest one up.
  induction i using Nat.strong_induction_on with
  | h i ih =>
    have hi := congrArg (fun z : BitVec w => z.getLsbD i) h
    simp only [BitVec.getLsbD_xor, BitVec.getLsbD_shiftLeft] at hi
    by_cases hik : i < k
    · simpa [hik] using hi
    · have hlow := ih (i - k) (by omega) (by omega)
      rw [hlow] at hi
      exact Bool.xor_left_inj.1 hi

/-- If the image is all ones, `k` ones and `k` zeros alternate from the lowest bit on. -/
theorem getLsbD_of_xor_shiftLeft_eq_allOnes (h : x ^^^ x <<< k = BitVec.allOnes w) (hk : 0 < k)
    (hi : i < w) : x.getLsbD i = decide (i / k % 2 = 0) := by
  induction i using Nat.strong_induction_on with
  | h i ih =>
    have hbit := congrArg (fun z : BitVec w => z.getLsbD i) h
    simp only [BitVec.getLsbD_xor, BitVec.getLsbD_shiftLeft, BitVec.getLsbD_allOnes, hi,
      decide_true, Bool.true_and] at hbit
    by_cases hik : i < k
    · rw [Nat.div_eq_of_lt hik]
      simpa [hik] using hbit
    · have hlow := ih (i - k) (by omega) (by omega)
      have hdiv : i / k = (i - k) / k + 1 := by
        rw [← Nat.add_div_right _ hk, Nat.sub_add_cancel (not_lt.1 hik)]
      simp only [hik, hlow, decide_false, Bool.not_false, Bool.true_and] at hbit
      simp only [hdiv, Nat.succ_mod_two_eq_zero_iff]
      rcases Nat.mod_two_eq_zero_or_one ((i - k) / k) with hm | hm
      · simpa [hm] using hbit
      · simpa [hm] using hbit

/-! ## Arithmetic shifts to the right -/

theorem signBit_xor (x y : BitVec w) (i : ℕ) :
    signBit (x ^^^ y) i = (signBit x i ^^ signBit y i) := by
  simp only [signBit]
  split
  · rw [BitVec.getLsbD_xor]
  · rw [BitVec.msb_xor]

theorem signBit_not (hw : 0 < w) (x : BitVec w) (i : ℕ) : signBit (~~~x) i = !signBit x i := by
  simp only [signBit]
  split
  · rw [BitVec.getLsbD_not, decide_eq_true ‹i < w›, Bool.true_and]
  · rw [BitVec.msb_not, decide_eq_true hw, Bool.true_and]

theorem eq_of_signBit_eq (h : ∀ i, signBit x i = signBit y i) : x = y := by
  refine BitVec.eq_of_getLsbD_eq fun i hi => ?_
  have hbit := h i
  rwa [signBit, signBit, if_pos hi, if_pos hi] at hbit

/-- The sign is taken away. -/
theorem msb_xor_sshiftRight (x : BitVec w) (k : ℕ) : (x ^^^ x.sshiftRight k).msb = false := by
  rw [BitVec.msb_xor, BitVec.msb_sshiftRight, Bool.xor_self]

/-- Words of one sign with one image are equal. -/
theorem eq_of_xor_sshiftRight_eq (hk : 0 < k) (hmsb : x.msb = y.msb)
    (h : x ^^^ x.sshiftRight k = y ^^^ y.sshiftRight k) : x = y := by
  have hbits : ∀ n i, w ≤ i + 1 + n → signBit x i = signBit y i := by
    intro n
    -- The bits, from the sign down.
    induction n using Nat.strong_induction_on with
    | h n ih =>
      intro i hi
      by_cases hw : w ≤ i + 1
      · rw [signBit_of_ge hw, signBit_of_ge hw, hmsb]
      · have hbit := congrArg (fun z : BitVec w => signBit z i) h
        simp only [signBit_xor, signBit_sshiftRight] at hbit
        rw [ih (n - 1) (by omega) (i + k) (by omega)] at hbit
        exact Bool.xor_left_inj.1 hbit
  exact eq_of_signBit_eq fun i => hbits w i (by omega)

/-- A word has the image of its complement. -/
theorem not_xor_sshiftRight (hw : 0 < w) (x : BitVec w) (k : ℕ) :
    ~~~x ^^^ (~~~x).sshiftRight k = x ^^^ x.sshiftRight k := by
  refine eq_of_signBit_eq fun i => ?_
  rw [signBit_xor, signBit_xor, signBit_sshiftRight, signBit_sshiftRight, signBit_not hw,
    signBit_not hw, Bool.not_xor_not]

/-- The words with one image are a word and its complement. -/
theorem xor_sshiftRight_eq_iff (hw : 0 < w) (hk : 0 < k) :
    x ^^^ x.sshiftRight k = y ^^^ y.sshiftRight k ↔ x = y ∨ x = ~~~y := by
  constructor
  · intro h
    by_cases hmsb : x.msb = y.msb
    · exact .inl (eq_of_xor_sshiftRight_eq hk hmsb h)
    · refine .inr (eq_of_xor_sshiftRight_eq hk ?_ (h.trans (not_xor_sshiftRight hw y k).symm))
      rw [BitVec.msb_not, decide_eq_true hw, Bool.true_and]
      exact Bool.eq_not.2 hmsb
  · rintro (rfl | rfl)
    · rfl
    · exact not_xor_sshiftRight hw y k

end FkProf.XorShift
