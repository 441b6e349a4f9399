import FkProf.Gc.Calls
import Mathlib.Data.List.AList

/-!
# The thread map

`class ThreadMapBase` (`thread_map.h`): the bucket of each thread, under its
`JNIEnv`. A bucket is attached to the garbage collector by its constructor and
detached by `remove`; it counts the references to it, and deletes itself when
the last one is released. The map itself is a finite map from keys to buckets;
its `put` and `remove` may retire tables, which the collector gets.

`put` and `remove` are made of two parts, up to the change of the map and from
the release of the old bucket on.
-/

namespace FkProf.ThreadMap

open FkProf.Gc (GC EpochType kEpochInitial)

/-- `struct ThreadBucket`. -/
structure ThreadBucket where
  tid : ℤ
  name : String
  refs : ℤ
  localEpoch : EpochType
  /-- The collector has attached the bucket, and not detached it. -/
  attached : Bool
  deleted : Bool

/-- The map, the buckets that have been allocated, named by their number, and the
    collector. -/
structure State (Key Table : Type*) where
  map : AList fun _ : Key => ℕ
  buckets : ℕ → ThreadBucket
  nBuckets : ℕ
  gc : GC Unit Table

variable {Key Table : Type*}

/-- The buckets in the map. -/
def State.mapped (σ : State Key Table) : List ℕ := σ.map.entries.map Sigma.snd

/-- A bucket changes. -/
def State.setBucket (σ : State Key Table) (b : ℕ) (tb : ThreadBucket) : State Key Table :=
  { σ with buckets := Function.update σ.buckets b tb }

/-- `ThreadBucket::ThreadBucket`. -/
def State.newBucket (σ : State Key Table) (tid : ℤ) (name : String) : State Key Table :=
  { σ with
    gc := σ.gc.attachThread.1
    buckets := Function.update σ.buckets σ.nBuckets
      ⟨tid, name, 1, σ.gc.attachThread.2, true, false⟩
    nBuckets := σ.nBuckets + 1 }

/-- `ThreadBucket::release`. -/
def State.release (σ : State Key Table) (b : ℕ) : State Key Table :=
  σ.setBucket b { σ.buckets b with
    refs := (σ.buckets b).refs - 1
    deleted := if (σ.buckets b).refs = 1 then true else (σ.buckets b).deleted }

/-- `GCHelper::safepoint`. -/
def State.safepoint (σ : State Key Table) (b : ℕ) : State Key Table :=
  { σ with gc := (σ.gc.safepoint (σ.buckets b).localEpoch).1 }.setBucket b
    { σ.buckets b with localEpoch := (σ.gc.safepoint (σ.buckets b).localEpoch).2 }

/-- `GCHelper::signalSafepoint`. -/
def State.signalSafepoint (σ : State Key Table) (b : ℕ) : State Key Table :=
  { σ with gc := (σ.gc.ssSafepoint (σ.buckets b).localEpoch).1 }.setBucket b
    { σ.buckets b with localEpoch := (σ.gc.ssSafepoint (σ.buckets b).localEpoch).2 }

/-- `GCHelper::detach`. -/
def State.detach (σ : State Key Table) (b : ℕ) : State Key Table :=
  if (σ.buckets b).localEpoch ≠ kEpochInitial then
    { σ with gc := σ.gc.detachThread (σ.buckets b).localEpoch }.setBucket b
      { σ.buckets b with localEpoch := kEpochInitial, attached := false }
  else σ

/-- The tables that the map has retired go to the collector. -/
def State.retire (σ : State Key Table) (retired : List Table) : State Key Table :=
  { σ with gc := retired.foldl GC.scheduleDelete σ.gc }

/-- `acq_bucket`, of what the map has returned. -/
def State.acqBucket (σ : State Key Table) : Option ℕ → State Key Table × Option ℕ
  | some b =>
    if 0 < (σ.buckets b).refs then
      (σ.setBucket b { σ.buckets b with refs := (σ.buckets b).refs + 1 }, some b)
    else (σ, none)
  | none => (σ, none)

variable [DecidableEq Key]

/-- `put`, to the change of the map: a new bucket, and the old one. -/
def State.insert (σ : State Key Table) (key : Key) (name : String) (tid : ℤ)
    (retired : List Table) : State Key Table × Option ℕ :=
  ({ σ.newBucket tid name with map := σ.map.insert key σ.nBuckets }.retire retired,
    σ.map.lookup key)

/-- `ThreadMapBase::put`. -/
def State.put (σ : State Key Table) (key : Key) (name : String) (tid : ℤ)
    (retired : List Table) : State Key Table :=
  (match σ.insert key name tid retired with
    | (σ', some old) => σ'.release old
    | (σ', none) => σ').safepoint σ.nBuckets

/-- `ThreadMapBase::get`. -/
def State.get (σ : State Key Table) (key : Key) : State Key Table × Option ℕ :=
  match σ.acqBucket (σ.map.lookup key) with
  | (σ', some b) => (σ'.signalSafepoint b, some b)
  | (σ', none) => (σ', none)

/-- The map without a key. -/
def State.erase (σ : State Key Table) (key : Key) : State Key Table :=
  { σ with map := σ.map.erase key }

/-- `remove`, to the change of the map, and `GCHelper::detach`. -/
def State.unmap (σ : State Key Table) (key : Key) (retired : List Table) :
    State Key Table × Option ℕ :=
  match σ.map.lookup key with
  | some b => (((σ.erase key).retire retired).detach b, some b)
  | none => (σ.retire retired, none)

/-- `ThreadMapBase::remove`. -/
def State.remove (σ : State Key Table) (key : Key) (retired : List Table) : State Key Table :=
  match σ.unmap key retired with
  | (σ', some b) => σ'.release b
  | (σ', none) => σ'

omit [DecidableEq Key] in
/-- The empty map, and the collector as it is built. -/
def State.initial : State Key Table :=
  ⟨∅, fun _ => ⟨0, "", 0, kEpochInitial, false, false⟩, 0, ⟨none, 0, 1, 0, [], [], []⟩⟩

/-! ## The buckets in the map -/

section Mapped

variable {σ : State Key Table} {key : Key} {b b' : ℕ}

omit [DecidableEq Key] in
theorem mem_mapped : b ∈ σ.mapped ↔ ∃ k, Sigma.mk k b ∈ σ.map.entries := by
  simp only [State.mapped, List.mem_map]
  constructor
  · rintro ⟨⟨k, v⟩, hmem, rfl⟩
    exact ⟨k, hmem⟩
  · rintro ⟨k, hmem⟩
    exact ⟨_, hmem, rfl⟩

theorem mem_mapped_of_lookup (h : σ.map.lookup key = some b) : b ∈ σ.mapped :=
  mem_mapped.2 ⟨key, AList.mem_lookup_iff.1 h⟩

theorem lookup_of_mem_mapped (h : b ∈ σ.mapped) : ∃ k, σ.map.lookup k = some b := by
  obtain ⟨k, hk⟩ := mem_mapped.1 h
  exact ⟨k, AList.mem_lookup_iff.2 hk⟩

theorem entries_erase (key : Key) (map : AList fun _ : Key => ℕ) :
    (map.erase key).entries = map.entries.kerase key := rfl

/-- A key that is mapped is at one place of the map. -/
theorem mapped_perm_of_lookup (h : σ.map.lookup key = some b) :
    σ.mapped.Perm (b :: (σ.erase key).mapped) := by
  have hkey : key ∈ σ.map := AList.lookup_isSome.1 (by rw [h]; rfl)
  obtain ⟨v, l₁, l₂, -, heq, herase⟩ := List.exists_of_kerase hkey
  have hv : v = b := by
    have hmem : Sigma.mk key v ∈ σ.map.entries := by simp [heq]
    rw [AList.mem_lookup_iff.2 hmem] at h
    exact Option.some.inj h
  subst hv
  simp only [State.mapped, State.erase, entries_erase]
  rw [herase, heq, List.map_append, List.map_append, List.map_cons]
  exact List.perm_middle

theorem mapped_insert (σ : State Key Table) (key : Key) (b : ℕ) :
    ({ σ with map := σ.map.insert key b } : State Key Table).mapped =
      b :: (σ.erase key).mapped := by
  simp [State.mapped, State.erase, AList.entries_insert, entries_erase]

theorem mapped_erase_of_lookup_none (h : σ.map.lookup key = none) :
    (σ.erase key).mapped = σ.mapped := by
  have hkey : key ∉ σ.map.keys := AList.lookup_eq_none.1 h
  simp only [State.mapped, State.erase, entries_erase]
  rw [List.kerase_of_notMem_keys hkey]

end Mapped

end FkProf.ThreadMap
