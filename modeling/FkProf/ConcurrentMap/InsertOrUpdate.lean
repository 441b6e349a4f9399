import FkProf.ConcurrentMap.HashTable

/-!
# Inserting into a table

`LockFreeMapPrimitives::insertOrUpdate` (`concurrent_map.h:276-368`), one step
for each access to the table. A call walks the chain of its hash to its end,
locks the last cell of it by setting its `deltaNext` to `mapDeltaExtend`, looks
for a free cell in the neighbourhood, allocates it, and stores its distance,
which unlocks the chain.

* `insertOrUpdateStep`: one step of a call;
* `insertOrUpdateStep_value`: the only values a call writes;
* `insertOrUpdateStep_hash`, `insertOrUpdateStep_delta`: the only hashes and the
  only distances it writes.
-/

namespace FkProf.ConcurrentMap

/-- `InsertOutcome`, with the `oldValue` that a call returns. -/
inductive InsertOutcome
  | ok (oldValue : ValueType)
  | overflow
  | helpMigration
  deriving DecidableEq

/-- Where a call is: the next access it makes. The cells are `prev = array[i]` in
    the walk and the search, and `entr` after it. -/
inductive InsertPc
  | walk (i jumps : ℕ) (delta : DeltaType)
  | updateLoad (i : ℕ)
  | updateCas (i : ℕ) (oldValue : ValueType)
  | next (i jumps : ℕ)
  | lock (i jumps : ℕ)
  | wait (i jumps : ℕ)
  | probe (i d : ℕ)
  | reserve (i d : ℕ)
  | refuse (i : ℕ)
  | allocate (i d : ℕ)
  | link (i d : ℕ)
  | refund (i d : ℕ) (bucketHash : HashType)
  | setLoad (entr : ℕ)
  | setCas (entr : ℕ) (oldValue : ValueType)
  | unlock (i : ℕ)
  deriving DecidableEq

/-- How a call goes on. -/
inductive InsertNext
  | goto (pc : InsertPc)
  | done (outcome : InsertOutcome)
  deriving DecidableEq

variable {Tid : Type*}

/-- The next cell of the neighbourhood, line 320. -/
def searchNext (i d : ℕ) : InsertPc :=
  if d + 1 < kNeighbourhood then .probe i (d + 1) else .unlock i

/-- A call begins, lines 277-279. -/
def InsertPc.start (T : HashTable Tid) (tHash : HashType) : InsertPc :=
  .walk (T.home tHash) 0 0

/-- A step of a call for `tHash` and `value`. -/
def insertOrUpdateStep (T : HashTable Tid) (tHash : HashType) (value : ValueType) :
    InsertPc → HashTable Tid × InsertNext
  -- Lines 284-294.
  | .walk i jumps delta =>
    if kMaxJumpsAllowed < jumps then (T, .done .overflow)
    else if T.hash (T.index i delta) = tHash then (T, .goto (.updateLoad (T.index i delta)))
    else (T, .goto (.next (T.index i delta) (jumps + 1)))
  -- Lines 295-305.
  | .updateLoad i =>
    if T.value i = mapValMove then (T, .done .helpMigration)
    else (T, .goto (.updateCas i (T.value i)))
  | .updateCas i oldValue =>
    if T.value i = oldValue then (T.setValue i value, .done (.ok oldValue))
    else (T, .done (.ok (T.value i)))
  -- Lines 308-309.
  | .next i jumps =>
    if T.delta i ≠ mapDeltaEmpty ∧ T.delta i ≠ mapDeltaExtend then
      (T, .goto (.walk i jumps (T.delta i)))
    else (T, .goto (.lock i jumps))
  -- Lines 311-316.
  | .lock i jumps =>
    if T.delta i = mapDeltaEmpty then (T.setDelta i mapDeltaExtend, .goto (.probe i 0))
    else (T, .goto (.wait i jumps))
  | .wait i jumps =>
    if T.delta i = mapDeltaExtend then (T, .goto (.wait i jumps))
    else (T, .goto (.walk i jumps 0))
  -- Lines 321-324 and 347.
  | .probe i d =>
    if T.hash (T.index i d) = mapHashEmpty then (T, .goto (.reserve i d))
    else if T.hash (T.index i d) = tHash then (T, .goto (.setLoad (T.index i d)))
    else (T, .goto (searchNext i d))
  -- Lines 325-334.
  | .reserve i d =>
    (T.addFree (-1), .goto (if T.freeBuckets ≤ 0 then .refuse i else .allocate i d))
  | .refuse i => (T.addFree 1, .goto (.unlock i))
  -- Lines 336-347.
  | .allocate i d =>
    if T.hash (T.index i d) = mapHashEmpty then
      (T.setHash (T.index i d) tHash, .goto (.link i d))
    else (T, .goto (.refund i d (T.hash (T.index i d))))
  | .link i d =>
    (T.setDelta i (if 0 < d then d else mapDeltaEmpty), .goto (.setLoad (T.index i d)))
  | .refund i d bucketHash =>
    (T.addFree 1, .goto (if bucketHash = tHash then .setLoad (T.index i d) else searchNext i d))
  -- Lines 349-361.
  | .setLoad entr =>
    if T.value entr = mapValMove then (T, .done .helpMigration)
    else (T, .goto (.setCas entr (T.value entr)))
  | .setCas entr oldValue =>
    if T.value entr = oldValue then (T.setValue entr value, .done (.ok oldValue))
    else if T.value entr = mapValMove then (T, .done .helpMigration)
    else (T, .done (.ok (T.value entr)))
  -- Lines 332-333 and 366-367.
  | .unlock i => (T.setDelta i mapDeltaEmpty, .done .overflow)

/-! ## What a step writes -/

section Frame

variable (T : HashTable Tid) (h : HashType) (v : ValueType) (pc : InsertPc)

/-- The cell that the call is about to write its value to, with the value that it
    expects there. -/
@[simp] def InsertPc.cas? : InsertPc → Option (ℕ × ValueType)
  | .updateCas i old | .setCas i old => some (i, old)
  | _ => none

/-- The cell that the call is about to allocate. -/
@[simp] def InsertPc.allocate? (T : HashTable Tid) : InsertPc → Option ℕ
  | .allocate i d => some (T.index i d)
  | _ => none

/-- The cell whose chain the call has locked. -/
@[simp] def InsertPc.locked? : InsertPc → Option ℕ
  | .probe i _ | .reserve i _ | .refuse i | .allocate i _ | .link i _ | .refund i _ _
  | .unlock i => some i
  | _ => none

/-- The cell that the call has allocated and not yet linked. -/
@[simp] def InsertPc.linking? (T : HashTable Tid) : InsertPc → Option ℕ
  | .link i d => some (T.index i d)
  | _ => none

theorem insertOrUpdateStep_size : (insertOrUpdateStep T h v pc).1.size = T.size := by
  cases pc <;> simp only [insertOrUpdateStep] <;> (try split_ifs) <;> rfl

theorem insertOrUpdateStep_sizeMask :
    (insertOrUpdateStep T h v pc).1.sizeMask = T.sizeMask := by
  cases pc <;> simp only [insertOrUpdateStep] <;> (try split_ifs) <;> rfl

theorem insertOrUpdateStep_mutex : (insertOrUpdateStep T h v pc).1.mutex = T.mutex := by
  cases pc <;> simp only [insertOrUpdateStep] <;> (try split_ifs) <;> rfl

theorem insertOrUpdateStep_coordinator :
    (insertOrUpdateStep T h v pc).1.coordinator = T.coordinator := by
  cases pc <;> simp only [insertOrUpdateStep] <;> (try split_ifs) <;> rfl

/-- A call writes its value in place of the one it expects, or nothing. -/
theorem insertOrUpdateStep_value :
    (insertOrUpdateStep T h v pc).1.value = T.value ∨
      ∃ c, pc.cas? = some (c, T.value c) ∧
        (insertOrUpdateStep T h v pc).1.value = Function.update T.value c v ∧
        (insertOrUpdateStep T h v pc).2 = .done (.ok (T.value c)) := by
  cases pc <;> simp only [insertOrUpdateStep] <;> (try split_ifs) <;>
    first
      | exact .inl rfl
      | exact .inl (HashTable.setDelta_value ..)
      | exact .inl (HashTable.setHash_value ..)
      | (rename_i hv; subst hv; exact .inr ⟨_, rfl, HashTable.setValue_value .., rfl⟩)

/-- A call allocates a free cell to its hash, or nothing. -/
theorem insertOrUpdateStep_hash :
    (insertOrUpdateStep T h v pc).1.hash = T.hash ∨
      ∃ c pc', pc.allocate? T = some c ∧ T.hash c = mapHashEmpty ∧
        (insertOrUpdateStep T h v pc).1.hash = Function.update T.hash c h ∧
        (insertOrUpdateStep T h v pc).2 = .goto pc' ∧ pc'.linking? T = some c := by
  cases pc <;> simp only [insertOrUpdateStep] <;> (try split_ifs) <;>
    first
      | exact .inl rfl
      | exact .inl (HashTable.setDelta_hash ..)
      | exact .inl (HashTable.setValue_hash ..)
      | exact .inr ⟨_, _, rfl, ‹_›, HashTable.setHash_hash .., rfl, rfl⟩

/-- A call changes the distance of the cell it has locked, or locks the end of a
    chain; the only links it makes are to the cells it has allocated. -/
theorem insertOrUpdateStep_delta :
    (insertOrUpdateStep T h v pc).1.delta = T.delta ∨
      ∃ i d, (pc.locked? = some i ∨ (∃ jumps, pc = .lock i jumps) ∧ T.delta i = mapDeltaEmpty) ∧
        (d = mapDeltaEmpty ∨ d = mapDeltaExtend ∨ 0 < d ∧ pc = .link i d) ∧
        (insertOrUpdateStep T h v pc).1.delta = Function.update T.delta i d := by
  cases pc <;> simp only [insertOrUpdateStep] <;> (try split_ifs) <;>
    first
      | exact .inl rfl
      | exact .inl (HashTable.setHash_delta ..)
      | exact .inl (HashTable.setValue_delta ..)
      | exact .inr ⟨_, _, .inl rfl, .inl rfl, HashTable.setDelta_delta ..⟩
      | exact .inr ⟨_, _, .inl rfl, .inr (.inr ⟨‹_›, rfl⟩), HashTable.setDelta_delta ..⟩
      | exact .inr ⟨_, _, .inr ⟨⟨_, rfl⟩, ‹_›⟩, .inr (.inl rfl), HashTable.setDelta_delta ..⟩

end Frame

end FkProf.ConcurrentMap
