import Mathlib.Data.List.Basic
import Mathlib.Tactic.NormNum

/-!
# Reading bytes back

A *reader* takes a value from the front of a list of bytes, if it can. It reads
some bytes as a value if it takes exactly these bytes, whatever follows them
(`Reads`): so what one reader leaves is what the next one finds, and a format
without any framing is read back field by field (`Reads.bind`), and record by
record (`Reader.all_flatMap`).

* `bigEndian`, `Reader.uint`: fixed-width integers, most significant byte first;
* `varint`, `Reader.varint`: integers in groups of seven bits, the last one
  marked, as in protocol buffers.
-/

namespace FkProf

/-- A reader takes a value from the front of the bytes and leaves the others. -/
def Reader (α : Type) := List UInt8 → Option (α × List UInt8)

namespace Reader

variable {α β : Type}

/-- The reader that takes nothing. -/
def pure (a : α) : Reader α := fun bytes => some (a, bytes)

/-- One reader after another. -/
def bind (r : Reader α) (f : α → Reader β) : Reader β := fun bytes =>
  (r bytes).bind fun (a, rest) => f a rest

instance : Monad Reader where
  pure := pure
  bind := bind

/-- The reader that fails. -/
def fail : Reader α := fun _ => none

/-- The next `n` bytes. -/
def take (n : ℕ) : Reader (List UInt8) := fun bytes =>
  if n ≤ bytes.length then some (bytes.take n, bytes.drop n) else none

/-- The next byte. -/
def byte : Reader UInt8
  | [] => none
  | b :: rest => some (b, rest)

/-- One value after another, to the end of the bytes, of at most a number of values. -/
def upTo (r : Reader α) : ℕ → List UInt8 → Option (List α)
  | _, [] => some []
  | 0, _ :: _ => none
  | n + 1, bytes@(_ :: _) => (r bytes).bind fun (a, rest) => (r.upTo n rest).map (a :: ·)

/-- One value after another, to the end of the bytes. -/
def all (r : Reader α) (bytes : List UInt8) : Option (List α) := r.upTo bytes.length bytes

end Reader

/-- The reader takes exactly these bytes, and reads this value, whatever follows. -/
structure Reads {α : Type} (r : Reader α) (bytes : List UInt8) (a : α) : Prop where
  read : ∀ rest, r (bytes ++ rest) = some (a, rest)

namespace Reads

variable {α β : Type} {r : Reader α} {f : α → Reader β} {bytes bytes' : List UInt8} {a : α} {b : β}

theorem pure (a : α) : Reads (Pure.pure a) [] a := ⟨fun _ => rfl⟩

/-- One reader after another reads the bytes of both. -/
theorem bind (h : Reads r bytes a) (h' : Reads (f a) bytes' b) :
    Reads (r >>= f) (bytes ++ bytes') b := by
  refine ⟨fun rest => ?_⟩
  show (r _).bind _ = _
  rw [List.append_assoc, h.read, Option.bind_some]
  exact h'.read rest

theorem of_eq {r' : Reader α} (h : Reads r bytes a) (he : r' = r) : Reads r' bytes a := he ▸ h

/-- A reader followed by a function of what it reads. -/
theorem map (h : Reads r bytes a) (g : α → β) :
    Reads (r >>= fun a => Pure.pure (g a)) bytes (g a) := by
  have := h.bind (f := fun a => Pure.pure (g a)) (Reads.pure (g a))
  rwa [List.append_nil] at this

theorem byte (b : UInt8) : Reads Reader.byte [b] b := ⟨fun _ => rfl⟩

theorem take (bytes : List UInt8) : Reads (Reader.take bytes.length) bytes bytes :=
  ⟨fun rest => by simp [Reader.take]⟩

end Reads

namespace Reader

variable {α : Type} {r : Reader α} {encode : α → List UInt8}

theorem upTo_flatMap {as : List α} (h : ∀ a ∈ as, Reads r (encode a) a)
    (hne : ∀ a ∈ as, encode a ≠ []) {n : ℕ} (hn : as.length ≤ n) :
    r.upTo n (as.flatMap encode) = some as := by
  induction as generalizing n with
  | nil => cases n <;> rfl
  | cons a as ih =>
    obtain ⟨n, rfl⟩ : ∃ k, n = k + 1 := ⟨n - 1, by simp at hn; omega⟩
    have hread := (h a List.mem_cons_self).read (as.flatMap encode)
    obtain ⟨b, bytes, hb⟩ := List.exists_cons_of_ne_nil (hne a List.mem_cons_self)
    rw [List.flatMap_cons]
    rw [hb, List.cons_append] at hread ⊢
    rw [upTo, hread, Option.bind_some]
    dsimp only
    rw [ih (fun a ha => h a (List.mem_cons_of_mem _ ha))
      (fun a ha => hne a (List.mem_cons_of_mem _ ha)) (by simpa using hn), Option.map_some]

/-- A sequence of values, each written in a way that the reader reads, is read back. -/
theorem all_flatMap {as : List α} (h : ∀ a ∈ as, Reads r (encode a) a)
    (hne : ∀ a ∈ as, encode a ≠ []) : r.all (as.flatMap encode) = some as := by
  refine upTo_flatMap h hne ?_
  induction as with
  | nil => simp
  | cons a as ih =>
    have := List.length_pos_of_ne_nil (hne a List.mem_cons_self)
    have := ih (fun a ha => h a (List.mem_cons_of_mem _ ha))
      fun a ha => hne a (List.mem_cons_of_mem _ ha)
    simp only [List.length_cons, List.flatMap_cons, List.length_append]
    omega

/-- If something else follows, which the reader does not take, there is no such sequence. -/
theorem all_eq_none {as : List α} {bytes : List UInt8} (h : ∀ a ∈ as, Reads r (encode a) a)
    (hne : ∀ a ∈ as, encode a ≠ []) (hbytes : bytes ≠ []) (hfail : r bytes = none) :
    r.all (as.flatMap encode ++ bytes) = none := by
  rw [all]
  generalize (as.flatMap encode ++ bytes).length = n
  induction as generalizing n with
  | nil =>
    obtain ⟨b, rest, rfl⟩ := List.exists_cons_of_ne_nil hbytes
    cases n with
    | zero => rfl
    | succ n =>
      rw [List.flatMap_nil, List.nil_append, upTo, hfail]
      rfl
  | cons a as ih =>
    have hread := (h a List.mem_cons_self).read (as.flatMap encode ++ bytes)
    obtain ⟨b, rest, hb⟩ := List.exists_cons_of_ne_nil (hne a List.mem_cons_self)
    rw [List.flatMap_cons, List.append_assoc]
    rw [hb, List.cons_append] at hread ⊢
    cases n with
    | zero => rfl
    | succ n =>
      rw [upTo, hread, Option.bind_some]
      dsimp only
      rw [ih (fun a ha => h a (List.mem_cons_of_mem _ ha))
        (fun a ha => hne a (List.mem_cons_of_mem _ ha)), Option.map_none]

end Reader

/-- The reader takes exactly these bytes, or fails. -/
structure Takes {α : Type} (r : Reader α) (bytes : List UInt8) : Prop where
  read : ∀ rest, r (bytes ++ rest) = none ∨ ∃ a, r (bytes ++ rest) = some (a, rest)

namespace Takes

variable {α β : Type} {r : Reader α} {f : α → Reader β} {bytes bytes' : List UInt8} {a : α}

/-- One reader after another, of which the first one does not fail. -/
theorem bind (h : Reads r bytes a) (h' : Takes (f a) bytes') : Takes (r >>= f) (bytes ++ bytes') := by
  refine ⟨fun rest => ?_⟩
  show (r _).bind _ = none ∨ ∃ b, (r _).bind _ = some (b, rest)
  rw [List.append_assoc, h.read, Option.bind_some]
  exact h'.read rest

/-- A reader followed by a function of what it reads. -/
theorem map (h : Takes r bytes) (g : α → β) : Takes (r >>= fun a => Pure.pure (g a)) bytes := by
  refine ⟨fun rest => ?_⟩
  show (r _).bind _ = none ∨ ∃ b, (r _).bind _ = some (b, rest)
  rcases h.read rest with hn | ⟨a, ha⟩
  · rw [hn]
    exact .inl rfl
  · rw [ha]
    exact .inr ⟨g a, rfl⟩

end Takes

/-! ## Fixed-width integers -/

/-- The bytes of a number, least significant first. -/
def littleEndian : ℕ → ℕ → List UInt8
  | 0, _ => []
  | n + 1, v => UInt8.ofNat v :: littleEndian n (v / 256)

/-- The bytes of a number, most significant first. -/
def bigEndian (n v : ℕ) : List UInt8 := (littleEndian n v).reverse

/-- The number that bytes spell, the most significant first. -/
def ofBigEndian (bytes : List UInt8) : ℕ := bytes.foldl (fun v b => v * 256 + b.toNat) 0

@[simp] theorem littleEndian_length (n v : ℕ) : (littleEndian n v).length = n := by
  induction n generalizing v with
  | zero => rfl
  | succ n ih => simp [littleEndian, ih]

@[simp] theorem bigEndian_length (n v : ℕ) : (bigEndian n v).length = n := by
  simp [bigEndian]

theorem ofBigEndian_append (bytes : List UInt8) (b : UInt8) :
    ofBigEndian (bytes ++ [b]) = ofBigEndian bytes * 256 + b.toNat := by
  simp [ofBigEndian]

theorem ofBigEndian_bigEndian (n v : ℕ) : ofBigEndian (bigEndian n v) = v % 256 ^ n := by
  induction n generalizing v with
  | zero => simp [bigEndian, littleEndian, ofBigEndian, Nat.mod_one]
  | succ n ih =>
    have hb : (UInt8.ofNat v).toNat = v % 256 := by simp
    rw [bigEndian, littleEndian, List.reverse_cons, ofBigEndian_append, ← bigEndian, ih, hb,
      Nat.pow_succ, Nat.mul_comm (256 ^ n) 256, Nat.mod_mul]
    omega

/-- A big-endian integer of `n` bytes. -/
def Reader.uint (n : ℕ) : Reader (BitVec (8 * n)) :=
  take n >>= fun bytes => Pure.pure (BitVec.ofNat _ (ofBigEndian bytes))

theorem Reads.uint {n : ℕ} (v : BitVec (8 * n)) :
    Reads (Reader.uint n) (bigEndian n v.toNat) v := by
  have h := (Reads.take (bigEndian n v.toNat)).map fun bytes => BitVec.ofNat (8 * n) (ofBigEndian bytes)
  have hv : v.toNat < 256 ^ n := by
    have := v.isLt
    rwa [Nat.pow_mul] at this
  rw [ofBigEndian_bigEndian, Nat.mod_eq_of_lt hv, BitVec.ofNat_toNat, BitVec.setWidth_eq,
    bigEndian_length] at h
  exact h

/-! ## Integers of variable width -/

/-- The number in groups of seven bits, the least significant first, all but the last
    one marked. -/
def varint (v : ℕ) : List UInt8 :=
  if v < 128 then [UInt8.ofNat v] else UInt8.ofNat (v % 128 + 128) :: varint (v / 128)
termination_by v
decreasing_by omega

/-- Groups of seven bits, of which there are at most a number. -/
def Reader.groups : ℕ → Reader ℕ
  | 0 => fail
  | n + 1 => byte >>= fun b =>
    if b.toNat < 128 then Pure.pure b.toNat
    else groups n >>= fun v => Pure.pure (v * 128 + (b.toNat - 128))

/-- An integer of at most ten groups. -/
def Reader.varint : Reader ℕ := groups 10

theorem varint_length_pos (v : ℕ) : varint v ≠ [] := by
  rw [varint]
  split_ifs <;> simp

/-- Each group takes seven bits. -/
theorem varint_length_le {v n : ℕ} (h : v < 128 ^ (n + 1)) : (varint v).length ≤ n + 1 := by
  induction n generalizing v with
  | zero =>
    rw [varint, if_pos (by simpa using h)]
    simp
  | succ n ih =>
    rw [varint]
    split_ifs with hv
    · simp
    · have : v / 128 < 128 ^ (n + 1) := by
        rw [Nat.div_lt_iff_lt_mul (by omega), ← Nat.pow_succ]
        exact h
      simpa using ih this

theorem Reads.groups {v n : ℕ} (h : v < 128 ^ (n + 1)) :
    Reads (Reader.groups (n + 1)) (FkProf.varint v) v := by
  induction n generalizing v with
  | zero =>
    have hlt : v < 128 := by simpa using h
    have hb : (UInt8.ofNat v).toNat = v := by
      rw [UInt8.toNat_ofNat']
      omega
    rw [FkProf.varint, if_pos hlt]
    have hp := Reads.pure v
    refine (Reads.byte _).bind (hp.of_eq ?_)
    rw [hb, if_pos hlt]
  | succ n ih =>
    rw [FkProf.varint]
    split_ifs with hlt
    · have hb : (UInt8.ofNat v).toNat = v := by
        rw [UInt8.toNat_ofNat']
        omega
      have hp := Reads.pure v
      refine (Reads.byte _).bind (hp.of_eq ?_)
      rw [hb, if_pos hlt]
    · have hb : (UInt8.ofNat (v % 128 + 128)).toNat = v % 128 + 128 := by
        rw [UInt8.toNat_ofNat']
        have := Nat.mod_lt v (show 0 < 128 by decide)
        exact Nat.mod_eq_of_lt (by omega)
      have hd : v / 128 < 128 ^ (n + 1) := by
        rwa [Nat.div_lt_iff_lt_mul (by decide), ← Nat.pow_succ]
      have hv := (ih hd).map fun w => w * 128 + (v % 128 + 128 - 128)
      rw [Nat.add_sub_cancel, Nat.div_add_mod'] at hv
      refine (Reads.byte _).bind (hv.of_eq ?_)
      rw [hb, if_neg (Nat.not_lt.2 (Nat.le_add_left 128 _)), Nat.add_sub_cancel]

/-- An integer of variable width is read back. -/
theorem Reads.varint {v : ℕ} (h : v < 2 ^ 70) : Reads Reader.varint (FkProf.varint v) v :=
  Reads.groups (n := 9) (h.trans_eq (by norm_num))

end FkProf
