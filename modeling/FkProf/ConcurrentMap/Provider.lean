import FkProf.ConcurrentMap.InsertOrUpdate
import FkProf.ConcurrentMap.Migration
import FkProf.Foundations.System

/-!
# The concurrent map

`ConcurrentMapProvider` (`concurrent_map.h:544-669`), with the migrations between
its tables (`concurrent_map.h:372-531`) and the coordinators that get the
threads to take part in them (`concurrent_map.h:82-98`). Any number of threads
call `put`, `get` and `remove`; a step is one atomic access to shared memory, or
the taking or releasing of a mutex, with the private computation after it.

A call is where its thread is in the source, in the nesting of the functions it
is in: `put`, `get` and `remove` (`Call.step`), `migrationStart` (`startStep`),
`JobCoordinator::participate`, `Migration::run` (`Migration.runStep` and, after
its decision, `completeStep`) and `migrateRange` (`migrateStep`). Dereferencing
a null pointer crashes.

Two things are kept that the code does not have: the tables published so far
(`latest`, `retired`), and the calls completed so far (`history`). Nothing is
deleted; the tables passed to `DefaultGC.scheduleDelete` are in `scheduled`.
-/

namespace FkProf.ConcurrentMap

/-- `HashFunction`. The hasher is assumed to be collision free, line 542. -/
structure Hasher (Key : Type*) where
  hash : Key → HashType
  injective : Function.Injective hash
  hash_ne : ∀ key, hash key ≠ mapHashEmpty

/-- A value that a client puts: neither null nor `MapValMove`. -/
structure Value where
  ptr : ValueType
  ne_empty : ptr ≠ mapValEmpty
  ne_move : ptr ≠ mapValMove
  deriving DecidableEq

/-- A call of a client. -/
inductive Op (Key : Type*)
  | put (key : Key) (value : Value)
  | get (key : Key)
  | remove (key : Key)
  deriving DecidableEq

/-- Where a thread is in `migrationStart`. -/
inductive StartPc
  | sample (i estimatedSize : ℕ)
  | lock (targetSize : BitVec 64)
  | get (targetSize : BitVec 64)
  | set (targetSize : BitVec 64)
  | unlock
  deriving DecidableEq

/-- Where a thread is in `migrateRange`, in the cell it is moving. -/
inductive MigratePc
  | loadHash
  | casUnused
  | loadValue (srcHash : HashType)
  | casDeleted (srcHash : HashType)
  | casMove (srcHash : HashType) (srcValue : ValueType)
  | insert (srcHash : HashType) (srcValue : ValueType) (pc : InsertPc)
  | restore (srcHash : HashType) (srcValue : ValueType)
  deriving DecidableEq

/-- Where a thread is in the completion of a migration, with `finishMigration`,
    or in its restart after an overflow. -/
inductive CompletePc
  | setVictim
  | endCoordinator
  | finishLoad
  | finishStore (oldRoot : TableId)
  | finishDelete (oldRoot : TableId)
  | restartTable
  | restartLock (origTable : TableId)
  | restartGet (origTable : TableId)
  | restartSet (origTable : TableId)
  | restartUnlock (origTable : TableId)
  deriving DecidableEq

/-- Where a thread is in its call: the next access it makes. The migration is that
    of the table `root`, which the call has loaded from `current`. -/
inductive Pc
  | loadCurrent
  | insert (root : TableId) (pc : InsertPc)
  | find (root : TableId) (i : ℕ)
  | findNext (root : TableId) (i : ℕ)
  | getValue (root : TableId) (entr : ℕ)
  | removeLoad (root : TableId) (entr : ℕ)
  | removeCas (root : TableId) (entr : ℕ) (oldValue : ValueType)
  | start (root : TableId) (pc : StartPc)
  | participate (root : TableId) (prevJob : JobCoordinator)
  | await (root : TableId) (prevJob : JobCoordinator)
  | run (root : TableId) (job : JobId) (pc : RunPc)
  | migrate (root : TableId) (job : JobId) (s : ℕ) (table : TableId) (index last : ℕ)
      (pc : MigratePc)
  | complete (root : TableId) (job : JobId) (pc : CompletePc)
  | ret (result : ValueType)
  | crashed
  deriving DecidableEq

/-- A call in progress. -/
structure Call (Key : Type*) where
  op : Op Key
  doubleSize : Bool
  pc : Pc

/-- The memory that the threads share. -/
structure Shared (Tid : Type*) where
  tables : TableId → HashTable Tid
  /-- The tables that exist are those below this one. -/
  nTables : ℕ
  jobs : JobId → Migration
  nJobs : ℕ
  current : TableId
  /-- The last table to be published for the first time. -/
  latest : TableId
  /-- The tables published before it. -/
  retired : List TableId
  scheduled : List TableId

/-- The map and its clients. -/
structure State (Tid Key : Type*) where
  shared : Shared Tid
  calls : Tid → Option (Call Key)
  /-- The completed calls with their results, the last one first. -/
  history : List (Op Key × ValueType)

/-- A thread calls, or goes on with its call. -/
inductive Label (Tid Key : Type*)
  | call (t : Tid) (op : Op Key)
  | step (t : Tid)

namespace Op

variable {Key : Type*}

def key : Op Key → Key
  | put k _ | get k | remove k => k

/-- The value that the call writes. -/
def value : Op Key → ValueType
  | put _ v => v.ptr
  | get _ | remove _ => mapValEmpty

end Op

variable {Tid Key : Type*}

namespace Shared

variable (S : Shared Tid)

def setTable (T : TableId) (X : HashTable Tid) : Shared Tid :=
  { S with tables := Function.update S.tables T X }

def setJob (j : JobId) (m : Migration) : Shared Tid :=
  { S with jobs := Function.update S.jobs j m }

/-- A store to the value of a cell. -/
def write (T : TableId) (i : ℕ) (v : ValueType) : Shared Tid :=
  S.setTable T ((S.tables T).setValue i v)

/-- Taking the mutex of a table, when it is free. -/
def lock (T : TableId) (t : Tid) : Option (Shared Tid) :=
  if (S.tables T).mutex.isNone then some (S.setTable T { S.tables T with mutex := some t })
  else none

def unlock (T : TableId) : Shared Tid := S.setTable T { S.tables T with mutex := none }

def setCoordinator (T : TableId) (c : JobCoordinator) : Shared Tid :=
  S.setTable T { S.tables T with coordinator := c }

/-- A new table. -/
def newTable (size : BitVec 64) : Shared Tid :=
  { S.setTable S.nTables (.new size) with nTables := S.nTables + 1 }

/-- A new migration. -/
def newJob (m : Migration) : Shared Tid :=
  { S.setJob S.nJobs m with nJobs := S.nJobs + 1 }

/-- `current.store`. -/
def publish (T : TableId) : Shared Tid :=
  if T = S.latest ∨ T ∈ S.retired then { S with current := T }
  else { S with current := T, latest := T, retired := S.latest :: S.retired }

end Shared

/-! ## Starting a migration -/

/-- How `migrationStart` goes on. -/
inductive StartNext
  | goto (pc : StartPc)
  | done

/-- `migrationStart` begins, lines 547-553. -/
def migrationStart (T : HashTable Tid) (doubleSize : Bool) : StartPc :=
  if doubleSize then .lock (BitVec.ofNat 64 (T.size <<< 1)) else .sample 0 0

/-- The size after sampling, lines 566-567: the floating-point computation is exact,
    on powers of two up to `2 ^ 30` and an `estimatedSize` up to `kMaxSampleSize`. -/
def sampledSize (size sampleMax estimatedSize : ℕ) : BitVec 64 :=
  let sizeApprox := size * estimatedSize / sampleMax
  BitVec.ofNat 64 (max kSizeMin (nearestPow2 (BitVec.ofNat 32 (2 * sizeApprox))).toInt.toNat)

/-- A step of `migrationStart` on a table. -/
def startStep (S : Shared Tid) (t : Tid) (table : TableId) :
    StartPc → Option (Shared Tid × StartNext)
  -- Lines 552-568.
  | .sample i estimatedSize =>
    let sampleMax := min kMaxSampleSize (S.tables table).size
    let v := (S.tables table).value i
    let estimatedSize := if v = mapValEmpty then estimatedSize else estimatedSize + 1
    some (S, if v = mapValMove then .done
      else .goto (if i + 1 < sampleMax then .sample (i + 1) estimatedSize
        else .lock (sampledSize (S.tables table).size sampleMax estimatedSize)))
  -- Lines 575-582.
  | .lock targetSize => (S.lock table t).map fun S => (S, .goto (.get targetSize))
  | .get targetSize =>
    some (S, .goto (if (S.tables table).coordinator = .null then .set targetSize else .unlock))
  -- Lines 584-590; the new migration is private until the store to the coordinator.
  | .set targetSize =>
    some (((S.newTable targetSize).newJob
      { dest := S.nTables, sources := [⟨some table, 0⟩], overflowed := false, state := 0
        unitsRemaining := (S.tables table).getMigrationSize, prev := none }).setCoordinator
          table (.job S.nJobs), .goto .unlock)
  | .unlock => some (S.unlock table, .done)

/-! ## Moving a chunk -/

/-- How `migrateRange` goes on. -/
inductive MigrateNext
  | goto (index : ℕ) (pc : MigratePc)
  | done (rangeOverflow : Bool)

/-- The next cell of the chunk, line 483. -/
def nextCell (index last : ℕ) : MigrateNext :=
  if index + 1 < last then .goto (index + 1) .loadHash else .done false

/-- A step of `migrateRange` from a table to another. -/
def migrateStep (S : Shared Tid) (dest table : TableId) (index last : ℕ) :
    MigratePc → Shared Tid × MigrateNext
  -- Line 486.
  | .loadHash =>
    let srcHash := (S.tables table).hash index
    (S, .goto index (if srcHash = mapHashEmpty then .casUnused else .loadValue srcHash))
  -- Lines 489-498.
  | .casUnused =>
    if (S.tables table).value index = mapValEmpty then
      (S.write table index mapValMove, nextCell index last)
    else if (S.tables table).value index = mapValMove then (S, nextCell index last)
    else (S, .goto index .loadHash)
  -- Lines 500-510.
  | .loadValue srcHash =>
    let srcValue := (S.tables table).value index
    (S, if srcValue = mapValEmpty then .goto index (.casDeleted srcHash)
      else if srcValue = mapValMove then nextCell index last
      else .goto index (.casMove srcHash srcValue))
  | .casDeleted srcHash =>
    if (S.tables table).value index = mapValEmpty then
      (S.write table index mapValMove, nextCell index last)
    else (S, .goto index (.casMove srcHash ((S.tables table).value index)))
  -- Lines 512-515.
  | .casMove srcHash srcValue =>
    if (S.tables table).value index = srcValue then
      (S.write table index mapValMove,
        if srcValue = mapValEmpty then nextCell index last
        else .goto index (.insert srcHash srcValue (.start (S.tables dest) srcHash)))
    else (S, .goto index (.casMove srcHash ((S.tables table).value index)))
  -- Lines 517-525.
  | .insert srcHash srcValue pc =>
    let (T, next) := insertOrUpdateStep (S.tables dest) srcHash srcValue pc
    (S.setTable dest T, match next with
      | .goto pc => .goto index (.insert srcHash srcValue pc)
      | .done .overflow => .goto index (.restore srcHash srcValue)
      | .done _ => nextCell index last)
  -- Lines 519-520.
  | .restore _ srcValue => (S.write table index srcValue, .done true)

/-! ## Completing a migration -/

/-- How the completion of a migration goes on. -/
inductive CompleteNext
  | goto (pc : CompletePc)
  | done
  | crash

/-- The migration that follows one that has overflowed, lines 460-473. -/
def Migration.restarted (m : Migration) (sizeOf : TableId → ℕ) (dest : TableId) (j : JobId) :
    Migration where
  dest := dest
  sources := m.sources.map (fun src => { src with index := 0 }) ++ [⟨some m.dest, 0⟩]
  overflowed := false
  state := 0
  unitsRemaining :=
    ((m.sources.map fun src => (src.table.map fun T => sizeOf T / kMigrationChunkSize).getD 0).sum +
      sizeOf m.dest / kMigrationChunkSize : ℕ)
  prev := some j

/-- The migration that has handed its sources over. -/
def Migration.handedOver (m : Migration) : Migration :=
  { m with sources := m.sources.map fun src => { src with table := none } }

/-- Lines 460-475. The plain accesses to the old migration are made together with
    the store to the coordinator: they are under the mutex, and what a thread that
    is not under it does on a null `table` it would do a step later. -/
def Shared.restart (S : Shared Tid) (j : JobId) (origTable : TableId) : Shared Tid :=
  let m := S.jobs j
  let size := BitVec.ofNat 64 ((S.tables m.dest).size <<< 1)
  (((S.setJob j m.handedOver).newTable size).newJob
    (m.restarted (fun T => (S.tables T).size) S.nTables j)).setCoordinator origTable (.job S.nJobs)

/-- A step of the completion of a migration by its last thread. -/
def completeStep (S : Shared Tid) (t : Tid) (j : JobId) :
    CompletePc → Option (Shared Tid × CompleteNext)
  -- Lines 448-450.
  | .setVictim => some (match (S.jobs j).table 0 with
    | some T => (S.setTable T { S.tables T with victim := some j }, .goto .endCoordinator)
    | none => (S, .crash))
  | .endCoordinator => some (match (S.jobs j).table 0 with
    | some T => (S.setCoordinator T .ended, .goto .finishLoad)
    | none => (S, .crash))
  -- Lines 666-668.
  | .finishLoad => some (S, .goto (.finishStore S.current))
  | .finishStore oldRoot => some (S.publish (S.jobs j).dest, .goto (.finishDelete oldRoot))
  | .finishDelete oldRoot => some ({ S with scheduled := oldRoot :: S.scheduled }, .done)
  -- Lines 452-457.
  | .restartTable => some (S, match (S.jobs j).table 0 with
    | some T => .goto (.restartLock T)
    | none => .crash)
  | .restartLock T => (S.lock T t).map fun S => (S, .goto (.restartGet T))
  | .restartGet T =>
    some (S, .goto (if (S.tables T).coordinator = .job j then .restartSet T else .restartUnlock T))
  -- Lines 458-477.
  | .restartSet T => some (
    if (S.jobs j).sources.all fun src => src.table.isSome then
      (S.restart j T, .goto (.restartUnlock T))
    else (S, .crash))
  | .restartUnlock T => some (S.unlock T, .done)

/-! ## Calls -/

namespace Call

/-- A call goes on. -/
def goto (c : Call Key) (pc : Pc) : Call Key := { c with pc := pc }

/-- The dispatch of `participate`, lines 86-96: the job found is the one awaited, or
    the end, or a job to run. After `participate`, a `put` doubles the size. -/
def participate (c : Call Key) (root : TableId) (prevJob cjob : JobCoordinator) : Call Key :=
  if cjob = prevJob then c.goto (.await root prevJob)
  else match cjob with
    | .ended => { c with doubleSize := true, pc := .loadCurrent }
    | .job j => c.goto (.run root j .enter)
    | .null => c.goto .crashed

/-- After `insertOrUpdate`, lines 609-616. -/
def afterInsert (c : Call Key) (T : HashTable Tid) (root : TableId) : InsertNext → Call Key
  | .goto pc => c.goto (.insert root pc)
  | .done (.ok oldValue) => c.goto (.ret oldValue)
  | .done .overflow => c.goto (.start root (migrationStart T c.doubleSize))
  | .done .helpMigration => c.goto (.participate root .null)

/-- After a step of `run`. -/
def afterRun (c : Call Key) (root : TableId) (j : JobId) : RunNext → Call Key
  | .goto pc => c.goto (.run root j pc)
  | .migrateRange s T index last => c.goto (.migrate root j s T index last .loadHash)
  | .complete overflow => c.goto (.complete root j (if overflow then .restartTable else .setVictim))
  | .done => c.goto (.participate root (.job j))
  | .crash => c.goto .crashed

/-- After a step of `migrateRange`, lines 419-427. -/
def afterMigrate (c : Call Key) (root : TableId) (j : JobId) (s : ℕ) (T : TableId) (last : ℕ) :
    MigrateNext → Call Key
  | .goto index pc => c.goto (.migrate root j s T index last pc)
  | .done rangeOverflow =>
    c.goto (.run root j (if rangeOverflow then .setOverflowed else .finished s T))

/-- After a step of the completion. -/
def afterComplete (c : Call Key) (root : TableId) (j : JobId) : CompleteNext → Call Key
  | .goto pc => c.goto (.complete root j pc)
  | .done => c.goto (.participate root (.job j))
  | .crash => c.goto .crashed

variable (H : Hasher Key) (signalSafeReaders : Bool)

/-- `hasher(key)`. -/
def hash (c : Call Key) : HashType := H.hash c.op.key

/-- A step of a call, before it returns. -/
def step (S : Shared Tid) (t : Tid) (c : Call Key) : Option (Shared Tid × Call Key) :=
  match c.pc with
  -- Lines 606, 627 and 642.
  | .loadCurrent =>
    let T := S.tables S.current
    some (S, c.goto (match c.op with
      | .put .. => .insert S.current (.start T (c.hash H))
      | .get _ | .remove _ => .find S.current (T.home (c.hash H))))
  -- Line 608.
  | .insert root pc =>
    let (T, next) := insertOrUpdateStep (S.tables root) (c.hash H) c.op.value pc
    some (S.setTable root T, c.afterInsert T root next)
  -- Lines 249-270.
  | .find root i =>
    let bucketHash := (S.tables root).hash i
    some (S, c.goto (if bucketHash = mapHashEmpty then .ret mapValEmpty
      else if bucketHash = c.hash H then
        match c.op with
        | .get _ => .getValue root i
        | _ => .removeLoad root i
      else .findNext root i))
  | .findNext root i =>
    let delta := (S.tables root).delta i
    some (S, c.goto (if delta = mapDeltaEmpty ∨ delta = mapDeltaExtend then .ret mapValEmpty
      else .find root ((S.tables root).index i delta)))
  -- Lines 630-636.
  | .getValue root i =>
    let res := (S.tables root).value i
    some (S, c.goto (if res ≠ mapValMove then .ret res
      else if signalSafeReaders then .loadCurrent else .participate root .null))
  -- Lines 649-660.
  | .removeLoad root i =>
    let oldValue := (S.tables root).value i
    some (S, c.goto (if oldValue = mapValMove then .participate root .null
      else .removeCas root i oldValue))
  | .removeCas root i oldValue =>
    if (S.tables root).value i = oldValue then
      some (S.write root i mapValEmpty, c.goto (.ret oldValue))
    else some (S, c.goto (.ret mapValEmpty))
  | .start root pc =>
    (startStep S t root pc).map fun (S, next) => (S, c.goto (match next with
      | .goto pc => .start root pc
      | .done => .participate root .null))
  -- Lines 85-89.
  | .participate root prevJob | .await root prevJob =>
    some (S, c.participate root prevJob (S.tables root).coordinator)
  | .run root j pc =>
    let (m, next) := (S.jobs j).runStep (fun T => (S.tables T).size) pc
    some (S.setJob j m, c.afterRun root j next)
  | .migrate root j s T index last pc =>
    let (S', next) := migrateStep S (S.jobs j).dest T index last pc
    some (S', c.afterMigrate root j s T last next)
  | .complete root j pc =>
    (completeStep S t j pc).map fun (S, next) => (S, c.afterComplete root j next)
  | .ret _ | .crashed => none

end Call

section Provider

variable [DecidableEq Tid] (H : Hasher Key) (signalSafeReaders : Bool)

/-- The next state. A call that has its result returns, and enters the history. -/
def State.next (σ : State Tid Key) : Label Tid Key → Option (State Tid Key)
  | .call t op =>
    match σ.calls t with
    | none => some { σ with calls := Function.update σ.calls t (some ⟨op, false, .loadCurrent⟩) }
    | some _ => none
  | .step t => (σ.calls t).bind fun c =>
    match c.pc with
    | .ret result => some { σ with
        calls := Function.update σ.calls t none
        history := (c.op, result) :: σ.history }
    | _ => (c.step H signalSafeReaders σ.shared t).map fun (S, c') => { σ with
        shared := S
        calls := Function.update σ.calls t (some c') }

/-- The constructor of `ConcurrentMapProvider`. -/
def State.new (initialSize : BitVec 64) : State Tid Key where
  shared :=
    { tables := fun _ => .new initialSize, nTables := 1
      jobs := fun _ => ⟨0, [], false, 0, 0, none⟩, nJobs := 0
      current := 0, latest := 0, retired := [], scheduled := [] }
  calls := fun _ => none
  history := []

variable (Tid) in
/-- `ConcurrentMapProvider` as a transition system. -/
def provider : System (State Tid Key) (Label Tid Key) where
  init := {σ | ∃ n, σ = .new n}
  next := State.next H signalSafeReaders

/-- What a step of the map is: a call begins, returns, or goes on. -/
inductive Transition (σ : State Tid Key) : Label Tid Key → State Tid Key → Prop
  | call (t : Tid) (op : Op Key) : σ.calls t = none → Transition σ (.call t op)
      ⟨σ.shared, Function.update σ.calls t (some ⟨op, false, .loadCurrent⟩), σ.history⟩
  | ret (t : Tid) (c : Call Key) (result : ValueType) : σ.calls t = some c → c.pc = .ret result →
      Transition σ (.step t)
        ⟨σ.shared, Function.update σ.calls t none, (c.op, result) :: σ.history⟩
  | step (t : Tid) (c c' : Call Key) (S' : Shared Tid) : σ.calls t = some c →
      c.step H signalSafeReaders σ.shared t = some (S', c') → Transition σ (.step t)
        ⟨S', Function.update σ.calls t (some c'), σ.history⟩

theorem State.transition_of_next {σ σ' : State Tid Key} {l : Label Tid Key}
    (hn : (provider Tid H signalSafeReaders).next σ l = some σ') :
    Transition H signalSafeReaders σ l σ' := by
  cases l with
  | call t op =>
    simp only [provider, State.next] at hn
    cases hc : σ.calls t with
    | some c => simp [hc] at hn
    | none =>
      simp only [hc, Option.some.injEq] at hn
      exact hn ▸ .call t op hc
  | step t =>
    obtain ⟨c, hc, hn⟩ := Option.bind_eq_some_iff.1 hn
    split at hn
    · rename_i result hret
      cases hn
      exact .ret t c result hc hret
    · obtain ⟨⟨S', c'⟩, hs, he⟩ := Option.map_eq_some_iff.1 hn
      cases he
      exact .step t c c' S' hc hs

/-- `unsafeUsed`. -/
def Shared.unsafeUsed (S : Shared Tid) : ℕ :=
  ((List.range (S.tables S.current).size).filter fun i =>
    (S.tables S.current).value i ≠ mapValEmpty ∧ (S.tables S.current).value i ≠ mapValMove).length

end Provider

end FkProf.ConcurrentMap
