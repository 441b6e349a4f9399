import FkProf.ConcurrentMap.HashTable
import FkProf.Foundations.ThreadSum

/-!
# Migrations

A migration (`concurrent_map.h:372-478`) moves the values of its source tables
to its destination. Any number of threads run it: a thread announces itself in
`state`, then claims chunks of the sources, each with a `fetch_add`, and moves
them; the thread that finishes the last chunk, or meets an overflow, ends the
migration by making `state` odd, and the last thread to leave completes it.

Here are the steps of a run on the `Migration` object, one for each access to
it. How a chunk is moved and what completes a migration is in the provider.

* `Migration.runStep`: one step of a run;
* `Position`: where a run is, as far as the other runs of the migration are
  concerned, and `tally`, how many are there.
-/

namespace FkProf.ConcurrentMap

/-- `Migration::Source`. -/
structure Source where
  table : Option TableId
  index : ℕ

/-- `Migration`. -/
structure Migration where
  dest : TableId
  sources : List Source
  overflowed : Bool
  state : ℕ
  unitsRemaining : ℤ
  prev : Option JobId

/-- Where a thread is in `run`, up to its decision on how to complete: the next
    access it makes. -/
inductive RunPc
  | enter
  | increment
  | source (s : ℕ)
  | check (s : ℕ) (table : Option TableId)
  | claim (s : ℕ) (table : Option TableId)
  | finished (s : ℕ) (table : TableId)
  | setOverflowed
  | overflowEnd
  | successEnd
  | leave
  | loadOverflowed
  deriving DecidableEq

/-- How a run goes on: also with `migrateRange`, with the completion, by
    returning, or by dereferencing a null pointer. -/
inductive RunNext
  | goto (pc : RunPc)
  | migrateRange (s : ℕ) (table : TableId) (startIndex last : ℕ)
  | complete (overflow : Bool)
  | done
  | crash

namespace Migration

/-- The migration has ended: its state is odd. -/
def Ended (m : Migration) : Prop := m.state % 2 = 1

instance (m : Migration) : Decidable m.Ended := inferInstanceAs (Decidable (_ = _))

/-- The table of a source, if it has not been handed over. -/
def table (m : Migration) (s : ℕ) : Option TableId := m.sources[s]?.bind Source.table

/-- The index of a source. -/
def index (m : Migration) (s : ℕ) : ℕ := (m.sources[s]?.map Source.index).getD 0

/-- `index.fetch_add(kMigrationChunkSize)`. -/
def fetchAdd (m : Migration) (s : ℕ) : Migration :=
  { m with sources := m.sources.modify s fun src =>
      { src with index := src.index + kMigrationChunkSize } }

/-- `state.fetch_or(1)`. -/
def setEnded (m : Migration) : Migration := { m with state := m.state ||| 1 }

/-- A step of a run. -/
def runStep (sizeOf : TableId → ℕ) (m : Migration) : RunPc → Migration × RunNext
  -- Lines 401-405.
  | .enter => (m, if m.Ended then .done else .goto .increment)
  | .increment => ({ m with state := m.state + 2 }, .goto (.source 0))
  -- Lines 407-408, and 438 when there are no more sources.
  | .source s => (m, .goto (if s < m.sources.length then .check s (m.table s) else .leave))
  -- Lines 411-417.
  | .check s T => (m, .goto (if m.Ended then .leave else .claim s T))
  | .claim s none => (m.fetchAdd s, .crash)
  | .claim s (some T) =>
    (m.fetchAdd s, if sizeOf T ≤ m.index s then .goto (.source (s + 1))
      else .migrateRange s T (m.index s) (min (m.index s + kMigrationChunkSize) (sizeOf T)))
  -- Lines 427-431.
  | .finished s T =>
    ({ m with unitsRemaining := m.unitsRemaining - 1 },
      .goto (if m.unitsRemaining = 1 then .successEnd else .check s (some T)))
  | .successEnd => (m.setEnded, .goto .leave)
  -- Lines 422-424.
  | .setOverflowed => ({ m with overflowed := true }, .goto .overflowEnd)
  | .overflowEnd => (m.setEnded, .goto .leave)
  -- Lines 438-445.
  | .leave => ({ m with state := m.state - 2 }, if 3 < m.state then .done else .goto .loadOverflowed)
  | .loadOverflowed => (m, .complete m.overflowed)

/-! ## Sources -/

section Sources

variable (m : Migration) (s i : ℕ)

@[simp] theorem fetchAdd_state : (m.fetchAdd s).state = m.state := rfl
@[simp] theorem fetchAdd_overflowed : (m.fetchAdd s).overflowed = m.overflowed := rfl
@[simp] theorem fetchAdd_unitsRemaining : (m.fetchAdd s).unitsRemaining = m.unitsRemaining := rfl
@[simp] theorem fetchAdd_dest : (m.fetchAdd s).dest = m.dest := rfl

@[simp] theorem setEnded_sources : m.setEnded.sources = m.sources := rfl
@[simp] theorem setEnded_overflowed : m.setEnded.overflowed = m.overflowed := rfl
@[simp] theorem setEnded_unitsRemaining : m.setEnded.unitsRemaining = m.unitsRemaining := rfl

@[simp] theorem fetchAdd_length : (m.fetchAdd s).sources.length = m.sources.length :=
  List.length_modify ..

@[simp] theorem fetchAdd_table : (m.fetchAdd s).table i = m.table i := by
  rw [table, table, fetchAdd, List.getElem?_modify]
  by_cases h : s = i
  · subst h
    cases m.sources[s]? <;> simp
  · cases m.sources[i]? <;> simp [h]

theorem fetchAdd_index (hs : s < m.sources.length) :
    (m.fetchAdd s).index i = if i = s then m.index s + kMigrationChunkSize else m.index i := by
  rw [index, fetchAdd, List.getElem?_modify]
  by_cases h : i = s
  · subst h
    simp [index, List.getElem?_eq_getElem hs]
  · cases hi : m.sources[i]? <;> simp [index, hi, h, Ne.symm h]

theorem setEnded_ended : m.setEnded.Ended := by
  rw [Ended, setEnded]
  simp

theorem setEnded_div : m.setEnded.state / 2 = m.state / 2 := by
  rw [setEnded, ← Nat.shiftRight_one, ← Nat.shiftRight_one, Nat.shiftRight_or_distrib]
  simp

/-- The chunks of a source not claimed yet. -/
def unclaimed (sizeOf : TableId → ℕ) (src : Source) : ℕ :=
  match src.table with
  | some T => (sizeOf T - src.index) / kMigrationChunkSize
  | none => 0

/-- The chunks not claimed yet. -/
def units (sizeOf : TableId → ℕ) : ℕ := (m.sources.map (unclaimed sizeOf)).sum

/-- A source has no more chunks to claim. -/
def Exhausted (sizeOf : TableId → ℕ) : Prop := ∀ T, m.table s = some T → sizeOf T ≤ m.index s

theorem table_of_getElem? {src : Source} (h : m.sources[s]? = some src) :
    m.table s = src.table := by
  rw [table, h, Option.bind_some]

theorem index_of_getElem? {src : Source} (h : m.sources[s]? = some src) :
    m.index s = src.index := by
  rw [index, h, Option.map_some, Option.getD_some]

variable {m s}

theorem table_lt {T : TableId} (h : m.table s = some T) : s < m.sources.length := by
  by_contra hs
  rw [table, List.getElem?_eq_none (by omega)] at h
  cases h

theorem sum_modify {α : Type*} (f : α → ℕ) (g : α → α) (l : List α) {i : ℕ} (hi : i < l.length) :
    ((l.modify i g).map f).sum + f l[i] = (l.map f).sum + f (g l[i]) := by
  induction l generalizing i with
  | nil => simp at hi
  | cons a l ih =>
    cases i with
    | zero => simp; omega
    | succ i =>
      have := ih (Nat.lt_of_succ_lt_succ hi)
      simp only [List.modify_succ_cons, List.map_cons, List.sum_cons, List.getElem_cons_succ] at this ⊢
      omega

/-- Claiming a chunk. -/
theorem units_fetchAdd {sizeOf : TableId → ℕ} {T : TableId} (ht : m.table s = some T)
    (hd : kMigrationChunkSize ∣ sizeOf T) (hi : kMigrationChunkSize ∣ m.index s) :
    (m.fetchAdd s).units sizeOf + (if sizeOf T ≤ m.index s then 0 else 1) = m.units sizeOf := by
  have hs := table_lt ht
  have he := List.getElem?_eq_getElem hs
  rw [table_of_getElem? m s he] at ht
  rw [index_of_getElem? m s he] at hi ⊢
  have hsum := sum_modify (unclaimed sizeOf)
    (fun src => { src with index := src.index + kMigrationChunkSize }) m.sources hs
  have hold : unclaimed sizeOf m.sources[s] =
      (sizeOf T - m.sources[s].index) / kMigrationChunkSize := by
    rw [unclaimed, ht]
  have hnew : unclaimed sizeOf { m.sources[s] with
      index := m.sources[s].index + kMigrationChunkSize } =
      (sizeOf T - (m.sources[s].index + kMigrationChunkSize)) / kMigrationChunkSize := by
    rw [unclaimed, ht]
  rw [hold, hnew] at hsum
  simp only [units, fetchAdd]
  obtain ⟨a, ha⟩ := hd
  obtain ⟨b, hb⟩ := hi
  rw [ha, hb, ← Nat.mul_succ, ← Nat.mul_sub, ← Nat.mul_sub,
    Nat.mul_div_cancel_left _ (by decide), Nat.mul_div_cancel_left _ (by decide)] at hsum
  simp only [ha, hb, Nat.mul_le_mul_left_iff (show 0 < kMigrationChunkSize by decide)]
  split_ifs <;> omega

/-- When all sources are exhausted no chunk is left. -/
theorem units_eq_zero {sizeOf : TableId → ℕ} (h : ∀ i, m.Exhausted i sizeOf) :
    m.units sizeOf = 0 := by
  refine List.sum_eq_zero fun n hn => ?_
  obtain ⟨src, hsrc, rfl⟩ := List.mem_map.1 hn
  obtain ⟨i, hi, rfl⟩ := List.getElem_of_mem hsrc
  have he := List.getElem?_eq_getElem hi
  cases ht : m.sources[i].table with
  | none => simp [unclaimed, ht]
  | some T =>
    have hle := h i T (by rw [table_of_getElem? m i he, ht])
    rw [index_of_getElem? m i he] at hle
    simp [unclaimed, ht, Nat.sub_eq_zero_of_le hle]

/-- A migration goes on: nothing that a run has found is undone. -/
structure Grows (m m' : Migration) : Prop where
  length : m'.sources.length = m.sources.length
  table : ∀ s, m'.table s = m.table s
  index : ∀ s, m.index s ≤ m'.index s
  ended : m.Ended → m'.Ended
  overflowed : m.overflowed = true → m'.overflowed = true

theorem Grows.refl : m.Grows m := ⟨rfl, fun _ => rfl, fun _ => le_rfl, id, id⟩

/-- A change of the counters. -/
theorem Grows.of_sources {m' : Migration} (hs : m'.sources = m.sources)
    (he : m.Ended → m'.Ended) (ho : m.overflowed = true → m'.overflowed = true) : m.Grows m' :=
  ⟨by rw [hs], fun s => by rw [Migration.table, hs, Migration.table],
    fun s => by rw [Migration.index, Migration.index, hs], he, ho⟩

theorem Grows.fetchAdd : m.Grows (m.fetchAdd s) := by
  refine ⟨fetchAdd_length .., fun i => fetchAdd_table .., fun i => ?_, id, id⟩
  by_cases hs : s < m.sources.length
  · rw [fetchAdd_index m s i hs]
    split_ifs with h
    · rw [h]
      omega
    · exact le_rfl
  · rw [Migration.fetchAdd, List.modify_eq_self (by omega)]

theorem Grows.exhausted {m' : Migration} (g : m.Grows m') {sizeOf : TableId → ℕ} {i : ℕ}
    (h : m.Exhausted i sizeOf) : m'.Exhausted i sizeOf :=
  fun T hT => (h T (g.table i ▸ hT)).trans (g.index i)

end Sources

end Migration

/-! ## The runs of a migration -/

/-- Where a thread is in `run`: before its decision on how to complete, in
    `migrateRange`, or after its decision. -/
inductive Position
  | run (pc : RunPc)
  | migrating (s : ℕ) (table : TableId) (index last : ℕ)
  | completing (overflow : Bool)

namespace Position

/-- The thread counts in `state`. -/
def worker : Position → Bool
  | run .enter | run .increment | run .loadOverflowed | completing _ => false
  | _ => true

/-- The thread has found that the migration had not ended, and has not yet seen
    to what follows. -/
def busy : Position → Bool
  | run (.claim ..) | run (.finished ..) | run .setOverflowed | run .overflowEnd
  | run .successEnd | migrating .. => true
  | _ => false

/-- The thread was the last to leave. -/
def completer : Position → Bool
  | run .loadOverflowed | completing _ => true
  | _ => false

/-- The thread has claimed a chunk that is not yet accounted for. -/
def chunk : Position → Bool
  | run (.finished ..) | migrating .. => true
  | _ => false

def setsOverflowed : Position → Bool
  | run .setOverflowed => true
  | _ => false

def endsOverflow : Position → Bool
  | run .overflowEnd => true
  | _ => false

def endsSuccess : Position → Bool
  | run .successEnd => true
  | _ => false

/-- What a run knows of the migration. -/
def Ok (sizeOf : TableId → ℕ) (m : Migration) : Position → Prop
  | run (.source s) => ∀ i < s, m.Exhausted i sizeOf
  | run (.check s T) =>
    (∀ i < s, m.Exhausted i sizeOf) ∧ s < m.sources.length ∧ (m.Ended ∨ m.table s = T)
  | run (.claim s T) =>
    (∀ i < s, m.Exhausted i sizeOf) ∧ s < m.sources.length ∧ m.table s = T ∧ T ≠ none
  | run (.finished s T) => (∀ i < s, m.Exhausted i sizeOf) ∧ m.table s = some T
  | migrating s T i last =>
    (∀ i < s, m.Exhausted i sizeOf) ∧ m.table s = some T ∧ i < last ∧ last ≤ i + kMigrationChunkSize ∧
      last ≤ m.index s ∧ last ≤ sizeOf T ∧ kMigrationChunkSize ∣ last
  | run .overflowEnd => m.overflowed = true
  | run .successEnd => m.unitsRemaining = 0
  | run .leave => m.Ended ∨ ∀ i, m.Exhausted i sizeOf
  | _ => True

end Position

/-- Where a run is after a step. -/
def RunNext.position : RunNext → Option Position
  | goto pc => some (.run pc)
  | migrateRange s T i last => some (.migrating s T i last)
  | complete overflow => some (.completing overflow)
  | done | crash => none

section Tally

variable {Tid : Type*} [Fintype Tid]

/-- The number of runs at certain positions. -/
def tally (q : Position → Bool) (runs : Tid → Option Position) : ℕ :=
  ∑ t, ((runs t).any q).toNat

variable {q : Position → Bool} {runs : Tid → Option Position} {t : Tid}

theorem tally_update [DecidableEq Tid] (q : Position → Bool) (runs : Tid → Option Position)
    (t : Tid) (p : Option Position) :
    tally q (Function.update runs t p) + ((runs t).any q).toNat = tally q runs + (p.any q).toNat :=
  ThreadSum.sum_update (fun p : Option Position => (p.any q).toNat) runs t p

theorem tally_pos {p : Position} (ht : runs t = some p) (hp : q p = true) : 0 < tally q runs :=
  ThreadSum.sum_pos_of_pos (a := t) (by simp [ht, hp])

theorem tally_eq_zero : tally q runs = 0 ↔ ∀ t p, runs t = some p → q p = false := by
  rw [tally, ThreadSum.sum_eq_zero_iff]
  refine forall_congr' fun t => ?_
  cases runs t <;> simp

/-- Positions of some kind are at most as many as those of a wider kind. -/
theorem tally_le {q' : Position → Bool} (h : ∀ p, q p = true → q' p = true) :
    tally q runs ≤ tally q' runs := by
  refine Finset.sum_le_sum fun t _ => ?_
  cases ht : runs t with
  | none => simp
  | some p =>
    cases hq : q p with
    | false => simp [hq]
    | true => simp [hq, h p hq]

end Tally

end FkProf.ConcurrentMap
