import Mathlib.Data.List.Basic
import Mathlib.Data.List.TakeWhile
import Mathlib.Tactic.Ring

/-!
# Strings of C

Strings without their terminator, and pointers into a string as the rest of it from
there on: so the difference of two pointers is that of the lengths of the rests.

* `strchr`, `strstr`: searches;
* `atoi`: the number at the front of a string;
* `atoi_toDigits`: it reads decimal numerals;
* `atoi_append`: it reads no farther than a character that is no part of a number.
-/

namespace FkProf

/-- The rest of the string from a character on. -/
def strchr : List Char → Char → Option (List Char)
  | [], _ => none
  | a :: s, c => if a = c then some (a :: s) else strchr s c

/-- The rest of the string from another string on. -/
def strstr : List Char → List Char → Option (List Char)
  | [], needle => if needle = [] then some [] else none
  | a :: s, needle => if needle <+: a :: s then some (a :: s) else strstr s needle

/-- `isspace`. -/
def isspace (c : Char) : Bool :=
  c = ' ' ∨ c = '\t' ∨ c = '\n' ∨ c = '\x0b' ∨ c = '\x0c' ∨ c = '\r'

/-- The number of the digits at the front of a string. -/
def digits (s : List Char) : ℕ := Nat.ofDigitChars 10 (s.takeWhile Char.isDigit) 0

/-- `atoi`, of a number in the range of `int`. -/
def atoi (s : List Char) : ℤ :=
  match s.dropWhile isspace with
  | [] => 0
  | a :: rest =>
    if a = '-' then -digits rest else if a = '+' then digits rest else digits (a :: rest)

section Search

variable {s t needle : List Char} {c : Char}

theorem strchr_length (h : strchr s c = some t) : 0 < t.length ∧ t.length ≤ s.length := by
  induction s with
  | nil => cases h
  | cons a s ih =>
    rw [strchr] at h
    split_ifs at h
    · cases h
      exact ⟨Nat.succ_pos _, le_rfl⟩
    · exact ⟨(ih h).1, Nat.le_succ_of_le (ih h).2⟩

theorem strchr_eq_none (h : c ∉ s) : strchr s c = none := by
  induction s with
  | nil => rfl
  | cons a s ih =>
    rw [List.mem_cons, not_or] at h
    rw [strchr, if_neg (Ne.symm h.1), ih h.2]

/-- The first occurrence of a character. -/
theorem strchr_append_cons (h : c ∉ s) (t : List Char) :
    strchr (s ++ c :: t) c = some (c :: t) := by
  induction s with
  | nil => exact if_pos rfl
  | cons a s ih =>
    rw [List.mem_cons, not_or] at h
    rw [List.cons_append, strchr, if_neg (Ne.symm h.1), ih h.2]

theorem strstr_length (h : strstr s needle = some t) : t.length ≤ s.length := by
  induction s with
  | nil =>
    rw [strstr] at h
    split_ifs at h
    cases h
    exact le_rfl
  | cons a s ih =>
    rw [strstr] at h
    split_ifs at h
    · cases h
      exact le_rfl
    · exact Nat.le_succ_of_le (ih h)

/-- `strstr(s, needle) == s`. -/
theorem strstr_eq_self : strstr s needle = some s ↔ needle <+: s := by
  cases s with
  | nil =>
    rw [strstr, List.prefix_nil]
    split_ifs with h <;> simp [h]
  | cons a s =>
    rw [strstr]
    split_ifs with h
    · exact iff_of_true rfl h
    · refine iff_of_false (fun he => ?_) h
      have hlen := strstr_length he
      rw [List.length_cons] at hlen
      omega

/-- A prefix without the character is before it. -/
theorem prefix_append_cons (h : c ∉ needle) : needle <+: s ++ c :: t ↔ needle <+: s := by
  refine ⟨fun hp => ?_, fun hp => hp.trans (List.prefix_append ..)⟩
  rcases List.prefix_or_prefix_of_prefix hp (List.prefix_append s (c :: t)) with hs | ⟨r, hr⟩
  · exact hs
  · rcases r with _ | ⟨a, r⟩
    · rw [List.append_nil] at hr
      exact hr ▸ List.prefix_rfl
    · rw [← hr, List.prefix_append_right_inj] at hp
      obtain ⟨hac, -⟩ := List.cons_prefix_cons.1 hp
      exact absurd (hr ▸ by simp [hac]) h

/-- Whether a string begins with another one is decided in its own beginning. -/
theorem strstr_append_iff (h : needle.length ≤ s.length) (t : List Char) :
    strstr (s ++ t) needle = some (s ++ t) ↔ needle <+: s := by
  rw [strstr_eq_self]
  exact ⟨fun hp => List.prefix_of_prefix_length_le hp (List.prefix_append s t) h,
    fun hp => hp.trans (List.prefix_append s t)⟩

end Search

section Numbers

variable {c : Char}

theorem dropWhile_append_cons {p : Char → Bool} (h : p c = false) (s t : List Char) :
    (s ++ c :: t).dropWhile p = s.dropWhile p ++ c :: t := by
  induction s with
  | nil => simp [h]
  | cons a s ih => by_cases ha : p a <;> simp [ha, ih]

theorem takeWhile_append_cons {p : Char → Bool} (h : p c = false) (s t : List Char) :
    (s ++ c :: t).takeWhile p = s.takeWhile p := by
  induction s with
  | nil => simp [h]
  | cons a s ih => by_cases ha : p a <;> simp [ha, ih]

theorem digits_append (h : c.isDigit = false) (s t : List Char) :
    digits (s ++ c :: t) = digits s := by
  rw [digits, takeWhile_append_cons h, digits]

/-- A number ends before a character that is no part of it. -/
theorem atoi_append (hd : c.isDigit = false) (hs : isspace c = false) (hm : c ≠ '-') (hp : c ≠ '+')
    (s t : List Char) : atoi (s ++ c :: t) = atoi s := by
  rw [atoi, dropWhile_append_cons hs, atoi]
  cases s.dropWhile isspace with
  | nil => simp [hm, hp, digits, hd]
  | cons a s =>
    rw [List.cons_append]
    dsimp only
    rw [← List.cons_append, digits_append hd, digits_append hd]

theorem digits_toDigits (n : ℕ) : digits (Nat.toDigits 10 n) = n := by
  have hall : ∀ a ∈ Nat.toDigits 10 n, a.isDigit = true := fun a ha =>
    Nat.isDigit_of_mem_toDigits (by decide) (by decide) ha
  rw [digits, List.takeWhile_eq_self_iff.2 hall, Nat.ofDigitChars_ten_toDigits]

theorem not_isspace_of_isDigit (h : c.isDigit = true) : isspace c = false ∧ c ≠ '-' ∧ c ≠ '+' := by
  have hne : ∀ d, Char.isDigit d = false → c ≠ d := fun d hd he => by
    rw [he, hd] at h
    cases h
  refine ⟨?_, hne _ (by decide), hne _ (by decide)⟩
  rw [isspace, decide_eq_false_iff_not]
  rintro (rfl | rfl | rfl | rfl | rfl | rfl) <;> exact absurd h (by decide)

/-- Decimal numerals. -/
theorem atoi_toDigits (n : ℕ) : atoi (Nat.toDigits 10 n) = n := by
  have hn := digits_toDigits n
  rcases hd : Nat.toDigits 10 n with _ | ⟨a, s⟩
  · exact absurd hd Nat.toDigits_ne_nil
  · have ha : a.isDigit = true :=
      Nat.isDigit_of_mem_toDigits (b := 10) (n := n) (by decide) (by decide) (by rw [hd]; simp)
    obtain ⟨hs, hm, hp⟩ := not_isspace_of_isDigit ha
    rw [hd] at hn
    rw [atoi, List.dropWhile_cons_of_neg (by simp [hs])]
    dsimp only
    rw [if_neg hm, if_neg hp, hn]

end Numbers

end FkProf
