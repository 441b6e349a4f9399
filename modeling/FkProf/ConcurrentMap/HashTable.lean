import FkProf.Foundations.BitSmear
import Mathlib.Algebra.Order.Ring.Int
import Mathlib.Logic.Function.Basic

/-!
# Hash tables

The open-addressing table of the concurrent map (`concurrent_map.h:27-144`):
an array of cells, each with a hash, a value and the distance to the next cell
of its chain. The number of cells is a power of two and at least `kSizeMin`,
whatever size is asked for, so that the indices wrap around with a mask.

The tables and the migration jobs are named by numbers, in the order of their
creation; nothing is reclaimed in the model (see `FkProf.Gc` for when the code
does it).
-/

namespace FkProf.ConcurrentMap

/-- `HashType`: 64-bit words. -/
abbrev HashType := BitVec 64

/-- `ValueType`: pointers. -/
abbrev ValueType := BitVec 64

/-- `DeltaType`: unsigned 32-bit distances. -/
abbrev DeltaType := ℕ

abbrev TableId := ℕ
abbrev JobId := ℕ

/-- `MapHashEmpty`: the hash of a cell that is not allocated. -/
def mapHashEmpty : HashType := -1

/-- `MapValEmpty`: the null pointer. -/
def mapValEmpty : ValueType := 0

/-- `MapValMove`: the value of a cell that has been migrated. -/
def mapValMove : ValueType := -1

/-- `MapDeltaEmpty`: the chain ends here. -/
def mapDeltaEmpty : DeltaType := 0

/-- `MapDeltaExtend`: the chain ends here and is being extended. -/
def mapDeltaExtend : DeltaType := 2 ^ 32 - 1

def kNeighbourhood : ℕ := 16
def kMaxJumpsAllowed : ℕ := 8
def kMigrationChunkSize : ℕ := 32
def kSizeMin : ℕ := 32
def kMaxSampleSize : ℕ := 256

/-- `nearestPow2`, on 32-bit integers with arithmetic shifts. -/
def nearestPow2 (x : BitVec 32) : BitVec 32 :=
  let x := x - 1
  let x := x ||| x.sshiftRight 1
  let x := x ||| x.sshiftRight 2
  let x := x ||| x.sshiftRight 4
  let x := x ||| x.sshiftRight 8
  let x := x ||| x.sshiftRight 16
  x + 1

/-- The number of cells for a size asked for, of which `nearestPow2` takes the low
    32 bits. -/
def allocatedSize (initialSize : BitVec 64) : ℕ :=
  max (nearestPow2 (initialSize.setWidth 32)).toInt.toNat kSizeMin

/-- Whatever the argument, `nearestPow2` is a power of two, or zero after a wrap. -/
theorem nearestPow2_eq (x : BitVec 32) :
    ∃ m ≤ 32, nearestPow2 x = BitVec.ofNat 32 (2 ^ m) := by
  have h₁ := (Smeared.refl (x := x - 1)).double
  have h₅ := h₁.double.double.double.double
  obtain ⟨m, hm, he⟩ := toNat_succ_of_downClosed (h₅.downClosed le_rfl)
  refine ⟨m, hm, ?_⟩
  rw [← he]
  refine BitVec.eq_of_toNat_eq ?_
  rw [BitVec.toNat_ofNat]
  rfl

theorem toInt_ofNat_two_pow {m : ℕ} (hm : m ≤ 30) :
    (BitVec.ofNat 32 (2 ^ m)).toInt = (2 ^ m : ℕ) := by
  have hlt : 2 ^ m < 2 ^ 31 := Nat.pow_lt_pow_right (by omega) (by omega)
  have hval : (BitVec.ofNat 32 (2 ^ m)).toNat = 2 ^ m := by
    rw [BitVec.toNat_ofNat, Nat.mod_eq_of_lt (by omega)]
  rw [BitVec.toInt_eq_toNat_of_lt (by omega), hval]

/-- The number of cells is a power of two, at least `kSizeMin`. -/
theorem allocatedSize_eq (n : BitVec 64) : ∃ k, 5 ≤ k ∧ allocatedSize n = 2 ^ k := by
  obtain ⟨m, hm, he⟩ := nearestPow2_eq (n.setWidth 32)
  rw [allocatedSize, he, kSizeMin]
  by_cases h : 5 ≤ m ∧ m ≤ 30
  · refine ⟨m, h.1, ?_⟩
    have hle : 2 ^ 5 ≤ 2 ^ m := Nat.pow_le_pow_right (by omega) h.1
    rw [toInt_ofNat_two_pow h.2]
    omega
  · refine ⟨5, le_rfl, ?_⟩
    have hm' : m ≤ 4 ∨ m = 31 ∨ m = 32 := by omega
    rcases hm' with hm' | rfl | rfl
    · have hle : 2 ^ m ≤ 2 ^ 4 := Nat.pow_le_pow_right (by omega) hm'
      rw [toInt_ofNat_two_pow (by omega)]
      omega
    · decide
    · decide

/-- `LockFreeMapEntry`. -/
structure LockFreeMapEntry where
  hash : HashType
  value : ValueType
  deltaNext : DeltaType

/-- `JobCoordinator::job`: null, a job, or the end marker. -/
inductive JobCoordinator
  | null
  | job (j : JobId)
  | ended
  deriving DecidableEq

/-- `HashTable`. The mutex is that of a thread or free. -/
structure HashTable (Tid : Type*) where
  sizeMask : ℕ
  /-- The number of cells is a power of two, at least `kSizeMin`. -/
  size_eq : ∃ k, 5 ≤ k ∧ sizeMask + 1 = 2 ^ k
  array : ℕ → LockFreeMapEntry
  freeBuckets : ℤ
  mutex : Option Tid
  coordinator : JobCoordinator
  victim : Option JobId

namespace HashTable

variable {Tid : Type*}

/-- The constructor of `HashTable`: empty cells, and room for 75% of them. -/
def new (initialSize : BitVec 64) : HashTable Tid where
  sizeMask := allocatedSize initialSize - 1
  size_eq := by
    obtain ⟨k, hk, he⟩ := allocatedSize_eq initialSize
    have := Nat.two_pow_pos k
    exact ⟨k, hk, by omega⟩
  array := fun _ => ⟨mapHashEmpty, mapValEmpty, mapDeltaEmpty⟩
  freeBuckets := (3 * allocatedSize initialSize / 4 : ℕ)
  mutex := none
  coordinator := .null
  victim := none

/-- The number of cells. -/
def size (T : HashTable Tid) : ℕ := T.sizeMask + 1

/-- `getMigrationSize`: the number of chunks. -/
def getMigrationSize (T : HashTable Tid) : ℕ := T.size / kMigrationChunkSize

/-- The index of the first cell of the chains of a hash. -/
def home (T : HashTable Tid) (hash : HashType) : ℕ := hash.toNat &&& T.sizeMask

/-- The index at a distance. -/
def index (T : HashTable Tid) (i delta : ℕ) : ℕ := (i + delta) &&& T.sizeMask

def hash (T : HashTable Tid) (i : ℕ) : HashType := (T.array i).hash
def value (T : HashTable Tid) (i : ℕ) : ValueType := (T.array i).value
def delta (T : HashTable Tid) (i : ℕ) : DeltaType := (T.array i).deltaNext

def setHash (T : HashTable Tid) (i : ℕ) (h : HashType) : HashTable Tid :=
  { T with array := Function.update T.array i { T.array i with hash := h } }

def setValue (T : HashTable Tid) (i : ℕ) (v : ValueType) : HashTable Tid :=
  { T with array := Function.update T.array i { T.array i with value := v } }

def setDelta (T : HashTable Tid) (i : ℕ) (d : DeltaType) : HashTable Tid :=
  { T with array := Function.update T.array i { T.array i with deltaNext := d } }

/-- `freeBuckets.fetch_add`. -/
def addFree (T : HashTable Tid) (n : ℤ) : HashTable Tid :=
  { T with freeBuckets := T.freeBuckets + n }

theorem size_pos (T : HashTable Tid) : 0 < T.size := Nat.succ_pos _

theorem index_lt (T : HashTable Tid) (i d : ℕ) : T.index i d < T.size :=
  Nat.lt_succ_of_le Nat.and_le_right

theorem home_lt (T : HashTable Tid) (h : HashType) : T.home h < T.size :=
  Nat.lt_succ_of_le Nat.and_le_right

theorem index_eq_mod (T : HashTable Tid) (i d : ℕ) : T.index i d = (i + d) % T.size := by
  obtain ⟨k, -, hk⟩ := T.size_eq
  rw [index, size, hk, show T.sizeMask = 2 ^ k - 1 by omega, Nat.and_two_pow_sub_one_eq_mod]

/-- At no distance a cell of the table is itself. -/
theorem index_zero (T : HashTable Tid) {i : ℕ} (hi : i < T.size) : T.index i 0 = i := by
  rw [index_eq_mod, Nat.add_zero, Nat.mod_eq_of_lt hi]

/-- The cells are in whole chunks. -/
theorem chunk_dvd_size (T : HashTable Tid) : kMigrationChunkSize ∣ T.size := by
  obtain ⟨k, hk, he⟩ := T.size_eq
  rw [size, he]
  exact Nat.pow_dvd_pow 2 hk

section Set

variable (T : HashTable Tid) (i j : ℕ) (h : HashType) (v : ValueType) (d : DeltaType) (n : ℤ)

@[simp] theorem setHash_size : (T.setHash i h).size = T.size := rfl
@[simp] theorem setValue_size : (T.setValue i v).size = T.size := rfl
@[simp] theorem setDelta_size : (T.setDelta i d).size = T.size := rfl
@[simp] theorem addFree_size : (T.addFree n).size = T.size := rfl
@[simp] theorem setHash_index : (T.setHash i h).index = T.index := rfl
@[simp] theorem setValue_index : (T.setValue i v).index = T.index := rfl
@[simp] theorem setDelta_index : (T.setDelta i d).index = T.index := rfl
@[simp] theorem addFree_index : (T.addFree n).index = T.index := rfl
@[simp] theorem setHash_home : (T.setHash i h).home = T.home := rfl
@[simp] theorem setValue_home : (T.setValue i v).home = T.home := rfl
@[simp] theorem setDelta_home : (T.setDelta i d).home = T.home := rfl
@[simp] theorem addFree_home : (T.addFree n).home = T.home := rfl
@[simp] theorem addFree_hash : (T.addFree n).hash = T.hash := rfl
@[simp] theorem addFree_value : (T.addFree n).value = T.value := rfl
@[simp] theorem addFree_delta : (T.addFree n).delta = T.delta := rfl

@[simp] theorem setHash_hash : (T.setHash i h).hash = Function.update T.hash i h := by
  funext j
  by_cases hj : j = i
  · subst hj; simp [hash, setHash]
  · simp [hash, setHash, hj]

@[simp] theorem setHash_value : (T.setHash i h).value = T.value := by
  funext j
  by_cases hj : j = i
  · subst hj; simp [value, setHash]
  · simp [value, setHash, hj]

@[simp] theorem setHash_delta : (T.setHash i h).delta = T.delta := by
  funext j
  by_cases hj : j = i
  · subst hj; simp [delta, setHash]
  · simp [delta, setHash, hj]

@[simp] theorem setValue_hash : (T.setValue i v).hash = T.hash := by
  funext j
  by_cases hj : j = i
  · subst hj; simp [hash, setValue]
  · simp [hash, setValue, hj]

@[simp] theorem setValue_value : (T.setValue i v).value = Function.update T.value i v := by
  funext j
  by_cases hj : j = i
  · subst hj; simp [value, setValue]
  · simp [value, setValue, hj]

@[simp] theorem setValue_delta : (T.setValue i v).delta = T.delta := by
  funext j
  by_cases hj : j = i
  · subst hj; simp [delta, setValue]
  · simp [delta, setValue, hj]

@[simp] theorem setDelta_hash : (T.setDelta i d).hash = T.hash := by
  funext j
  by_cases hj : j = i
  · subst hj; simp [hash, setDelta]
  · simp [hash, setDelta, hj]

@[simp] theorem setDelta_value : (T.setDelta i d).value = T.value := by
  funext j
  by_cases hj : j = i
  · subst hj; simp [value, setDelta]
  · simp [value, setDelta, hj]

@[simp] theorem setDelta_delta : (T.setDelta i d).delta = Function.update T.delta i d := by
  funext j
  by_cases hj : j = i
  · subst hj; simp [delta, setDelta]
  · simp [delta, setDelta, hj]

end Set

end HashTable

end FkProf.ConcurrentMap
