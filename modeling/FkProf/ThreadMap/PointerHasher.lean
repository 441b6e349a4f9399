import FkProf.ConcurrentMap.Cells
import FkProf.ConcurrentMap.Order
import FkProf.Foundations.XorShift

/-!
# The hashes of pointers

The map compares hashes, and never keys: `ConcurrentMapProvider` assumes a hasher without
collisions (`concurrent_map.h:542`), and a cell with the hash `MapHashEmpty` is free.
`PointerHasher::hash` (`thread_map.h:13-32`) mixes the number of an address by
multiplications and shifts of a signed word, whose shifts to the right are arithmetic.

* `hash_ne_iff`: addresses have different hashes exactly if no shift to the right comes to
  a word for one of them and to its complement for the other;
* `exists_collision`: so two addresses of `JNIEnv`s may have the same hash;
* `hash_ne_empty`: no address has the hash of a free cell.
-/

namespace FkProf.PointerHasher

open FkProf.ConcurrentMap

variable (sizeof : BitVec 64)

/-- `hash`, of an address. The division is that of `size_t`. -/
def hash (p : BitVec 64) : HashType :=
  let v := p / sizeof
  let v := v * 3935559000370003845#64 + 2691343689449507681#64
  let v := v ^^^ v.sshiftRight 21
  let v := v ^^^ v <<< 37
  let v := v ^^^ v.sshiftRight 4
  let v := v * 4768777513237032717#64
  let v := v ^^^ v <<< 20
  let v := v ^^^ v.sshiftRight 41
  v ^^^ v <<< 5

/-! ## The shifts to the right -/

/-- `v` at the shift by 21. -/
def atShift21 (p : BitVec 64) : BitVec 64 :=
  p / sizeof * 3935559000370003845#64 + 2691343689449507681#64

/-- `v` at the shift by 4. -/
def atShift4 (p : BitVec 64) : BitVec 64 :=
  let v := atShift21 sizeof p
  let v := v ^^^ v.sshiftRight 21
  v ^^^ v <<< 37

/-- `v` at the shift by 41. -/
def atShift41 (p : BitVec 64) : BitVec 64 :=
  let v := atShift4 sizeof p
  let v := v ^^^ v.sshiftRight 4
  let v := v * 4768777513237032717#64
  v ^^^ v <<< 20

/-- A shift to the right comes to a word for `p` and to its complement for `q`. -/
def Complements (p q : BitVec 64) : Prop :=
  atShift21 sizeof p = ~~~atShift21 sizeof q ∨ atShift4 sizeof p = ~~~atShift4 sizeof q ∨
    atShift41 sizeof p = ~~~atShift41 sizeof q

instance (p q : BitVec 64) : Decidable (Complements sizeof p q) :=
  inferInstanceAs (Decidable (_ ∨ _ ∨ _))

theorem hash_eq (p : BitVec 64) : hash sizeof p =
    (atShift41 sizeof p ^^^ (atShift41 sizeof p).sshiftRight 41) ^^^
      (atShift41 sizeof p ^^^ (atShift41 sizeof p).sshiftRight 41) <<< 5 := rfl

section Collisions

variable {sizeof} {p q : BitVec 64}

/-- Addresses that are multiples of the size are told apart by the division. -/
theorem div_injective (hp : sizeof.toNat ∣ p.toNat) (hq : sizeof.toNat ∣ q.toNat)
    (h : p / sizeof = q / sizeof) : p = q := by
  have hdiv := congrArg BitVec.toNat h
  rw [BitVec.toNat_udiv, BitVec.toNat_udiv] at hdiv
  refine BitVec.eq_of_toNat_eq ?_
  rw [← Nat.div_mul_cancel hp, ← Nat.div_mul_cancel hq, hdiv]

theorem atShift21_eq_iff (hp : sizeof.toNat ∣ p.toNat) (hq : sizeof.toNat ∣ q.toNat) :
    atShift21 sizeof p = atShift21 sizeof q ↔ p = q := by
  refine ⟨fun h => ?_, fun h => h ▸ rfl⟩
  rw [atShift21, atShift21, BitVec.add_left_inj] at h
  -- The inverse of the multiplier.
  exact div_injective hp hq
    (XorShift.mul_injective (d := 13700500150304694605#64) (by decide) h)

theorem atShift4_eq_iff : atShift4 sizeof p = atShift4 sizeof q ↔
    atShift21 sizeof p = atShift21 sizeof q ∨ atShift21 sizeof p = ~~~atShift21 sizeof q :=
  ((XorShift.xor_shiftLeft_injective (by decide)).eq_iff).trans
    (XorShift.xor_sshiftRight_eq_iff (by decide) (by decide))

theorem atShift41_eq_iff : atShift41 sizeof p = atShift41 sizeof q ↔
    atShift4 sizeof p = atShift4 sizeof q ∨ atShift4 sizeof p = ~~~atShift4 sizeof q :=
  ((XorShift.xor_shiftLeft_injective (by decide)).eq_iff).trans
    ((XorShift.mul_injective (d := 1615231051170002885#64) (by decide)).eq_iff.trans
      (XorShift.xor_sshiftRight_eq_iff (by decide) (by decide)))

theorem hash_eq_iff : hash sizeof p = hash sizeof q ↔
    atShift41 sizeof p = atShift41 sizeof q ∨ atShift41 sizeof p = ~~~atShift41 sizeof q := by
  rw [hash_eq, hash_eq]
  exact ((XorShift.xor_shiftLeft_injective (by decide)).eq_iff).trans
    (XorShift.xor_sshiftRight_eq_iff (by decide) (by decide))

/-- Two different addresses, multiples of the size, have different hashes if and only if no
    shift to the right comes to a word for one and to its complement for the other. -/
theorem hash_ne_iff (hp : sizeof.toNat ∣ p.toNat) (hq : sizeof.toNat ∣ q.toNat) (hne : p ≠ q) :
    hash sizeof p ≠ hash sizeof q ↔ ¬Complements sizeof p q := by
  rw [ne_eq, hash_eq_iff, atShift41_eq_iff, atShift4_eq_iff, atShift21_eq_iff hp hq, Complements]
  refine not_congr ⟨?_, ?_⟩
  · rintro (((h | h) | h) | h)
    · exact absurd h hne
    · exact .inl h
    · exact .inr (.inl h)
    · exact .inr (.inr h)
  · rintro (h | h | h)
    · exact .inl (.inl (.inr h))
    · exact .inl (.inr h)
    · exact .inr h

/-- Objects of eight bytes: the first shift never does. -/
theorem atShift21_ne_not (p q : BitVec 64) : atShift21 8 p ≠ ~~~atShift21 8 q := by
  intro h
  have hsum : atShift21 8 p + atShift21 8 q = BitVec.allOnes 64 := by
    rw [h, BitVec.add_comm, BitVec.add_not_self]
  have hmul : (p / 8 + q / 8) * 3935559000370003845#64 =
      BitVec.allOnes 64 - 5382687378899015362#64 := by
    rw [atShift21, atShift21] at hsum
    rw [← hsum, BitVec.add_mul]
    bv_omega
  have hnumbers : p / 8 + q / 8 = 17626373706012083289#64 :=
    XorShift.mul_injective (d := 13700500150304694605#64) (by decide) (hmul.trans (by decide))
  -- The sum of the numbers of two addresses is smaller.
  have hnat : (p.toNat / 8 + q.toNat / 8) % 2 ^ 64 = 17626373706012083289 :=
    congrArg BitVec.toNat hnumbers
  have hp := p.isLt
  have hq := q.isLt
  omega

/-- Two addresses of `JNIEnv`s. -/
theorem hash_ne_iff_aligned : hash 8 0x7f100b73b2b8 ≠ hash 8 0x7f100b73b2c0 ↔
    ¬Complements 8 0x7f100b73b2b8 0x7f100b73b2c0 :=
  hash_ne_iff (by decide) (by decide) (by decide)

/-- Two addresses, multiples of eight, with the same hash. -/
theorem exists_collision : ¬∀ p q : BitVec 64, 8 ∣ p.toNat → 8 ∣ q.toNat → p ≠ q →
    hash 8 p ≠ hash 8 q := by
  intro h
  exact h 0x7f100b73b2b8 0x7ff29d5e8e50 (by decide) (by decide) (by decide) (by decide)

end Collisions

/-! ## The hash of a free cell -/

section Free

variable {Tid : Type*} [DecidableEq Tid]

/-- The steps by which the threads call for the hashes of addresses. -/
def Addressed (_ : TableState Tid) : TableLabel Tid → Prop
  | .call _ h _ => ∃ p, h = hash sizeof p
  | _ => True

/-- No address has the hash of a free cell. -/
theorem hash_ne_mapHashEmpty (p : BitVec 64) : hash sizeof p ≠ mapHashEmpty := by
  intro h
  have hbit := XorShift.getLsbD_of_xor_shiftLeft_eq_allOnes ((hash_eq sizeof p).symm.trans h)
    (by decide) (show 63 < 64 by decide)
  -- The highest bit would be set, but the last shift to the right has cleared it.
  have hmsb := XorShift.msb_xor_sshiftRight (atShift41 sizeof p) 41
  rw [BitVec.msb_eq_getLsbD_last, hbit] at hmsb
  exact absurd hmsb (by decide)

/-- No address has the hash of a free cell; and in every run of calls for addresses, a call
    that is about to store its value does so in a cell of its hash, which is not free. -/
theorem hash_ne_empty : (∀ p, hash sizeof p ≠ mapHashEmpty) ∧
    ∀ (n : BitVec 64) (tr : List (TableState Tid × TableLabel Tid)) (σ : TableState Tid),
      (tableSystem Tid).Run (Addressed sizeof) ⟨.new n, fun _ => none⟩ tr σ →
      ∀ t f i old, σ.calls t = some f → f.pc.cas? = some (i, old) →
        σ.table.hash i = f.hash ∧ σ.table.hash i ≠ mapHashEmpty := by
  refine ⟨hash_ne_mapHashEmpty sizeof, fun n tr σ hrun t f i old hf hcas => ?_⟩
  have hhashed : (tableSystem Tid).Run Hashed ⟨.new n, fun _ => none⟩ tr σ :=
    hrun.mono fun σ l hl => by
      cases l with
      | call t h v =>
        obtain ⟨p, rfl⟩ := hl
        exact hash_ne_mapHashEmpty sizeof p
      | step | store => trivial
  have hI := (hhashed.invariant (fun _ _ _ h hl hn => h.next hl hn) (Ordered.initial n)).chain
  obtain ⟨-, hi, -⟩ := (hI.ok t f hf).cas?_hash hcas
  exact ⟨hi, hi ▸ hI.hash_ne t f hf⟩

/-- The steps by which the threads call for one address. -/
def CallsFor (p : BitVec 64) (_ : TableState Tid) : TableLabel Tid → Prop
  | .call _ h _ => h = hash sizeof p
  | _ => True

instance (p : BitVec 64) (σ : TableState Tid) :
    ∀ l : TableLabel Tid, Decidable (CallsFor sizeof p σ l)
  | .call _ h _ => inferInstanceAs (Decidable (h = hash sizeof p))
  | .step _ | .store _ _ => .isTrue trivial

/-- A call that is about to store its value in an empty table. -/
theorem hash_ne_empty_first : ∃ (σ : TableState (Fin 1)) (f : Insert) (i : ℕ) (old : ValueType),
    σ.calls 0 = some f ∧ f.pc.cas? = some (i, old) ∧ σ.table.hash i ≠ mapHashEmpty := by
  have hrun : (((tableSystem (Fin 1)).exec (CallsFor 8 0x7f100b73b2b8) ⟨.new 0, fun _ => none⟩
      (.call 0 (hash 8 0x7f100b73b2b8) 1 :: List.replicate 8 (.step 0))).any fun σ =>
        ((σ.calls 0).any fun f => f.pc.cas?.isSome)) = true := by decide +kernel
  simp only [Option.any_eq_true, Option.isSome_iff_exists, Prod.exists] at hrun
  obtain ⟨σ, hex, f, hf, i, old, hcas⟩ := hrun
  obtain ⟨tr, hr, -⟩ := System.run_of_exec hex
  have haddressed : (tableSystem (Fin 1)).Run (Addressed 8) ⟨.new 0, fun _ => none⟩ tr σ :=
    hr.mono fun σ l hl => by
      cases l with
      | call t h v => exact ⟨_, hl⟩
      | step | store => trivial
  exact ⟨σ, f, i, old, hf, hcas,
    ((hash_ne_empty 8).2 0 tr σ haddressed 0 f i old hf hcas).2⟩

end Free

end FkProf.PointerHasher
