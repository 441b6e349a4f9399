import FkProf.ConcurrentMap.Chain
import FkProf.ConcurrentMap.Coordination

/-!
# The cells of the tables

The calls of `insertOrUpdate` on a table, by clients and by threads that move its
values there, keep the invariant of its chains, and what a reader has found on
its way along a chain remains so.

* `TableChange`: what a step may do to a table;
* `Call.Knows`: what a call knows of the cells it has come to;
* `Cells`: the invariant of the cells, kept by every step that is on time.
-/

namespace FkProf.ConcurrentMap

variable {Tid Key : Type*}

/-- A cell that has never been used. -/
def unusedCell : LockFreeMapEntry := ⟨mapHashEmpty, mapValEmpty, mapDeltaEmpty⟩

theorem Shared.setTable_tables (S : Shared Tid) (T : TableId) (X : HashTable Tid) :
    (S.setTable T X).tables = Function.update S.tables T X := rfl

theorem Shared.write_tables (S : Shared Tid) (T : TableId) (i : ℕ) (v : ValueType) :
    (S.write T i v).tables = Function.update S.tables T ((S.tables T).setValue i v) := rfl

/-- What a thread knows of the cell it is moving. -/
def MigratePc.Knows (X : HashTable Tid) (i : ℕ) : MigratePc → Prop
  | .loadHash | .casUnused => True
  | .loadValue h | .casDeleted h | .casMove h _ | .insert h _ _ | .restore h _ =>
    X.hash i = h ∧ h ≠ mapHashEmpty

/-- The table whose cells the thread is in. -/
def Pc.table? : Pc → Option TableId
  | .insert root _ | .find root _ | .findNext root _ | .getValue root _ | .removeLoad root _
  | .removeCas root .. => some root
  | .migrate _ _ _ T .. => some T
  | _ => none

namespace Call

variable (H : Hasher Key) (S : Shared Tid) (c : Call Key)

/-- The call of `insertOrUpdate` on a table that a call is in. -/
def insertAt (T : TableId) : Option Insert :=
  match c.pc with
  | .insert root pc => if root = T then some ⟨H.hash c.op.key, c.op.value, pc⟩ else none
  | .migrate _ j _ _ _ _ (.insert h v pc) =>
    if (S.jobs j).dest = T then some ⟨h, v, pc⟩ else none
  | _ => none

/-- The call is a put. -/
def IsPut : Prop := ∃ k v, c.op = .put k v

/-- What a call knows of the cells it has come to. -/
def Knows : Prop :=
  match c.pc with
  | .insert .. | .start .. => c.IsPut
  | .find root i => ¬c.IsPut ∧ Walked (S.tables root) (H.hash c.op.key) i
  | .findNext root i => ¬c.IsPut ∧ Walked (S.tables root) (H.hash c.op.key) i ∧
    (S.tables root).hash i ≠ mapHashEmpty ∧ (S.tables root).hash i ≠ H.hash c.op.key
  | .getValue root i => (∃ k, c.op = .get k) ∧
    OnChain (S.tables root) (H.hash c.op.key) i ∧ (S.tables root).hash i = H.hash c.op.key
  | .removeLoad root i => (∃ k, c.op = .remove k) ∧
    OnChain (S.tables root) (H.hash c.op.key) i ∧ (S.tables root).hash i = H.hash c.op.key
  | .removeCas root i old => (∃ k, c.op = .remove k) ∧
    OnChain (S.tables root) (H.hash c.op.key) i ∧ (S.tables root).hash i = H.hash c.op.key ∧
    old ≠ mapValMove
  | .migrate _ _ _ T i _ pc => pc.Knows (S.tables T) i
  | _ => True

end Call

/-- The invariant of the cells. -/
structure Cells (H : Hasher Key) (S : Shared Tid) (calls : Tid → Option (Call Key)) : Prop where
  knows : ∀ t c, calls t = some c → c.Knows H S
  chain : ∀ T, ChainInv (S.tables T) fun t => (calls t).bind fun c => c.insertAt H S T
  /-- Only an allocated cell gets a value. -/
  free : ∀ T c, (S.tables T).hash c = mapHashEmpty →
    (S.tables T).value c = mapValEmpty ∨ (S.tables T).value c = mapValMove
  fresh : ∀ T, S.nTables ≤ T → ∀ i, (S.tables T).array i = unusedCell
  lt : ∀ T i, (S.tables T).hash i ≠ mapHashEmpty → i < (S.tables T).size

/-! ## What a step does to a table -/

section Change

variable {H : Hasher Key} {signalSafeReaders : Bool} {S S' : Shared Tid} {c c' : Call Key}
  {t : Tid} {T : TableId}

/-- What a step may do to a table. -/
inductive TableChange (H : Hasher Key) (S : Shared Tid) (c : Call Key) (S' : Shared Tid)
    (T : TableId) : Prop
  | same : (S'.tables T).sizeMask = (S.tables T).sizeMask →
      (S'.tables T).array = (S.tables T).array → TableChange H S c S' T
  | new : T = S.nTables → (∀ i, (S'.tables T).array i = unusedCell) → TableChange H S c S' T
  | insert (f : Insert) : c.insertAt H S T = some f →
      S'.tables T = (insertOrUpdateStep (S.tables T) f.hash f.value f.pc).1 →
      TableChange H S c S' T
  | write (i : ℕ) (v : ValueType) : c.pc.table? = some T →
      (S.tables T).hash i ≠ mapHashEmpty ∨ v = mapValMove →
      S'.tables T = (S.tables T).setValue i v → TableChange H S c S' T

theorem TableChange.of_tables (h : S'.tables T = S.tables T) : TableChange H S c S' T :=
  .same (by rw [h]) (by rw [h])

theorem TableChange.setTable {U : TableId} {X : HashTable Tid}
    (h : T = U → TableChange H S c (S.setTable U X) T) : TableChange H S c (S.setTable U X) T := by
  by_cases hT : T = U
  · exact h hT
  · exact .of_tables (Function.update_of_ne hT ..)

theorem TableChange.write_table {U : TableId} {i : ℕ} {v : ValueType}
    (hU : c.pc.table? = some U)
    (hv : (S.tables U).hash i ≠ mapHashEmpty ∨ v = mapValMove) :
    TableChange H S c (S.write U i v) T := by
  refine .setTable fun hT => .write i v (hT ▸ hU) (hT ▸ hv) ?_
  subst hT
  exact Function.update_self ..

/-- The mutex, the coordinator and the victim are not among the cells. -/
theorem TableChange.of_array {U : TableId} {X : HashTable Tid}
    (hs : X.sizeMask = (S.tables U).sizeMask) (ha : X.array = (S.tables U).array) :
    TableChange H S c (S.setTable U X) T := by
  refine .setTable fun hT => ?_
  subst hT
  have he : (S.setTable T X).tables T = X := Function.update_self ..
  exact .same (by rw [he, hs]) (by rw [he, ha])

/-- A new table comes with a new migration. -/
theorem TableChange.begin {n : BitVec 64} {m : Migration} {U : TableId} {co : JobCoordinator}
    (S₁ : Shared Tid) (hS : S₁.tables = S.tables) (hn : S₁.nTables = S.nTables) :
    TableChange H S c (((S₁.newTable n).newJob m).setCoordinator U co) T := by
  have htables : ((S₁.newTable n).newJob m).tables =
      Function.update S.tables S.nTables (.new n) := by
    rw [← hS, ← hn]
    rfl
  have harray : ∀ T, ((((S₁.newTable n).newJob m).setCoordinator U co).tables T).array =
      (Function.update S.tables S.nTables (.new n) T).array ∧
      ((((S₁.newTable n).newJob m).setCoordinator U co).tables T).sizeMask =
      (Function.update S.tables S.nTables (.new n) T).sizeMask := fun T => by
    rw [← htables]
    by_cases hT : T = U
    · subst hT
      simp [Shared.setCoordinator, Shared.setTable]
    · simp [Shared.setCoordinator, Shared.setTable, hT]
  by_cases hT : T = S.nTables
  · refine .new hT fun i => ?_
    rw [(harray T).1, hT, Function.update_self]
    rfl
  · exact .same (by rw [(harray T).2, Function.update_of_ne hT])
      (by rw [(harray T).1, Function.update_of_ne hT])

theorem Call.step_table (hk : c.Knows H S) (hs : c.step H signalSafeReaders S t = some (S', c'))
    (T : TableId) : TableChange H S c S' T := by
  obtain ⟨op, doubleSize, pc⟩ := c
  cases pc with
  | insert root pc =>
    rw [Call.step_insert] at hs
    cases hs
    refine .setTable fun hT => ?_
    subst hT
    exact .insert ⟨H.hash op.key, op.value, pc⟩ (if_pos rfl) (Function.update_self ..)
  | migrate root j s U i last pc =>
    rw [Call.step_migrate] at hs
    cases hs
    cases pc with
    | insert h v pc =>
      refine .setTable fun hT => ?_
      subst hT
      exact .insert ⟨h, v, pc⟩ (if_pos rfl) (Function.update_self ..)
    | restore h v => exact .write_table rfl (.inl (by rw [hk.1]; exact hk.2))
    | casUnused | casDeleted | casMove =>
      simp only [migrateStep]
      split_ifs <;> first | exact .of_tables rfl | exact .write_table rfl (.inr rfl)
    | loadHash | loadValue => exact .of_tables rfl
  | removeCas root i old =>
    simp only [Call.step] at hs
    obtain ⟨-, -, hi, -⟩ := hk
    split_ifs at hs <;> cases hs
    · exact .write_table rfl (.inl (by rw [hi]; exact H.hash_ne _))
    · exact .of_tables rfl
  | start root pc =>
    obtain ⟨⟨S₁, next⟩, hstep, he⟩ := Option.map_eq_some_iff.1 hs
    cases he
    cases pc with
    | lock n =>
      obtain ⟨S₂, hl, he⟩ := Option.map_eq_some_iff.1 hstep
      cases he
      rw [Shared.lock] at hl
      split_ifs at hl
      cases hl
      exact .of_array rfl rfl
    | set n =>
      cases hstep
      exact .begin S rfl rfl
    | unlock =>
      cases hstep
      exact .of_array rfl rfl
    | sample | get =>
      cases hstep
      exact .of_tables rfl
  | complete root j pc =>
    obtain ⟨⟨S₁, next⟩, hstep, he⟩ := Option.map_eq_some_iff.1 hs
    cases he
    cases pc with
    | setVictim | endCoordinator =>
      simp only [completeStep, Option.some.injEq] at hstep
      split at hstep <;> cases hstep <;> first | exact .of_array rfl rfl | exact .of_tables rfl
    | restartLock U =>
      obtain ⟨S₂, hl, he⟩ := Option.map_eq_some_iff.1 hstep
      cases he
      rw [Shared.lock] at hl
      split_ifs at hl
      cases hl
      exact .of_array rfl rfl
    | restartSet U =>
      simp only [completeStep, Option.some.injEq] at hstep
      split_ifs at hstep <;> cases hstep
      · exact .begin (S.setJob j (S.jobs j).handedOver) rfl rfl
      · exact .of_tables rfl
    | finishStore old =>
      cases hstep
      refine .of_tables ?_
      rw [Shared.publish]
      split_ifs <;> rfl
    | restartUnlock U =>
      cases hstep
      exact .of_array rfl rfl
    | finishDelete | finishLoad | restartTable | restartGet =>
      cases hstep
      exact .of_tables rfl
  | run root j pc =>
    rw [Call.step_run] at hs
    cases hs
    exact .of_tables rfl
  | ret | crashed => cases hs
  | loadCurrent | find | findNext | getValue | removeLoad | participate | await =>
    cases hs
    exact .of_tables rfl

/-- The tables differ in their values at most. -/
def SameChains (X X' : HashTable Tid) : Prop :=
  X'.sizeMask = X.sizeMask ∧ X'.hash = X.hash ∧ X'.delta = X.delta

theorem SameChains.write {U i : ℕ} {v : ValueType} :
    SameChains (S.tables T) ((S.write U i v).tables T) := by
  rw [SameChains, Shared.write_tables]
  by_cases hT : T = U
  · subst hT
    rw [Function.update_self]
    exact ⟨rfl, HashTable.setValue_hash .., HashTable.setValue_delta ..⟩
  · rw [Function.update_of_ne hT]
    exact ⟨rfl, rfl, rfl⟩

theorem Call.insertAt_nextCell (H : Hasher Key) (S : Shared Tid) (op : Op Key) (doubleSize : Bool)
    (root : TableId) (j : JobId) (s U i last : ℕ) (T : TableId) : insertAt H S
      ⟨op, doubleSize, .afterMigrate root j s U last (nextCell i last)⟩ T = none := by
  rw [nextCell]
  split_ifs <;> rfl

/-- A call of `insertOrUpdate` goes on. -/
theorem Call.step_insertAt (hs : c.step H signalSafeReaders S t = some (S', c')) {f : Insert}
    (hf : c.insertAt H S T = some f) :
    S'.tables T = (insertOrUpdateStep (S.tables T) f.hash f.value f.pc).1 ∧
      c'.insertAt H S' T = f.after (insertOrUpdateStep (S.tables T) f.hash f.value f.pc).2 := by
  obtain ⟨op, doubleSize, pc⟩ := c
  cases pc with
  | insert root pc =>
    simp only [insertAt, Option.ite_none_right_eq_some, Option.some.injEq] at hf
    obtain ⟨rfl, rfl⟩ := hf
    rw [Call.step_insert] at hs
    cases hs
    refine ⟨Function.update_self .., ?_⟩
    cases (insertOrUpdateStep (S.tables root) (H.hash op.key) op.value pc).2 with
    | goto pc => exact if_pos rfl
    | done out => cases out <;> rfl
  | migrate root j s U i last pc =>
    cases pc with
    | insert h v pc =>
      simp only [insertAt, Option.ite_none_right_eq_some, Option.some.injEq] at hf
      obtain ⟨rfl, rfl⟩ := hf
      rw [Call.step_migrate] at hs
      cases hs
      refine ⟨Function.update_self .., ?_⟩
      simp only [migrateStep]
      cases (insertOrUpdateStep (S.tables (S.jobs j).dest) h v pc).2 with
      | goto pc => exact if_pos rfl
      | done out =>
        cases out <;> first | rfl | exact insertAt_nextCell ..
    | _ => simp [insertAt] at hf
  | _ => simp [insertAt] at hf

/-- A call that is in no call of `insertOrUpdate` on a table begins one, or not. -/
theorem Call.step_insertAt_none (hk : c.Knows H S)
    (hs : c.step H signalSafeReaders S t = some (S', c')) (hf : c.insertAt H S T = none) :
    c'.insertAt H S' T = none ∨ (∃ f, c'.insertAt H S' T = some f ∧
      f.pc = .start (S.tables T) f.hash ∧ f.hash ≠ mapHashEmpty) ∧
      SameChains (S.tables T) (S'.tables T) := by
  obtain ⟨op, doubleSize, pc⟩ := c
  cases pc with
  | insert root pc =>
    simp only [insertAt, ite_eq_right_iff, reduceCtorEq, imp_false] at hf
    rw [Call.step_insert] at hs
    cases hs
    left
    cases (insertOrUpdateStep (S.tables root) (H.hash op.key) op.value pc).2 with
    | goto pc => exact if_neg hf
    | done out => cases out <;> rfl
  | migrate root j s U i last pc =>
    rw [Call.step_migrate] at hs
    cases hs
    cases pc with
    | insert h v pc =>
      simp only [insertAt, ite_eq_right_iff, reduceCtorEq, imp_false] at hf
      left
      simp only [migrateStep]
      cases (insertOrUpdateStep (S.tables (S.jobs j).dest) h v pc).2 with
      | goto pc => exact if_neg hf
      | done out => cases out <;> first | rfl | exact insertAt_nextCell ..
    | casMove h v =>
      simp only [migrateStep]
      split_ifs
      · exact .inl (insertAt_nextCell ..)
      · by_cases hT : (S.jobs j).dest = T
        · subst hT
          exact .inr ⟨⟨⟨h, v, .start (S.tables (S.jobs j).dest) h⟩, if_pos rfl, rfl, hk.2⟩,
            .write ..⟩
        · exact .inl (if_neg hT)
      · exact .inl rfl
    | casUnused | casDeleted | loadHash | loadValue =>
      simp only [migrateStep]
      left
      split_ifs <;> first | rfl | exact insertAt_nextCell ..
    | restore => exact .inl rfl
  | loadCurrent =>
    cases hs
    cases op with
    | put k v =>
      by_cases hT : S.current = T
      · subst hT
        exact .inr ⟨⟨⟨H.hash k, v.ptr, .start (S.tables S.current) (H.hash k)⟩, if_pos rfl, rfl,
          H.hash_ne k⟩, rfl, rfl, rfl⟩
      · exact .inl (if_neg hT)
    | get | remove => exact .inl rfl
  | run root j pc =>
    rw [Call.step_run] at hs
    cases hs
    left
    cases ((S.jobs j).runStep S.outline.size pc).2 <;> rfl
  | start root pc =>
    obtain ⟨⟨S₁, next⟩, -, he⟩ := Option.map_eq_some_iff.1 hs
    cases he
    left
    cases next <;> rfl
  | complete root j pc =>
    obtain ⟨⟨S₁, next⟩, -, he⟩ := Option.map_eq_some_iff.1 hs
    cases he
    left
    cases next <;> rfl
  | participate root prevJob | await root prevJob =>
    cases hs
    left
    simp only [participate]
    split_ifs
    · rfl
    · cases (S.tables root).coordinator <;> rfl
  | removeCas root i old =>
    simp only [Call.step] at hs
    split_ifs at hs <;> cases hs <;> exact .inl rfl
  | find root i =>
    cases hs
    left
    cases op <;> dsimp only [goto] <;> split_ifs <;> rfl
  | findNext root i | getValue root i | removeLoad root i =>
    cases hs
    left
    dsimp only [goto]
    split_ifs <;> rfl
  | ret | crashed => cases hs

/-- A call remains among the cells of its table, or comes to those of another one
    without changing any. -/
theorem Call.step_table? (hs : c.step H signalSafeReaders S t = some (S', c'))
    (hT : c'.pc.table? = some T) : c.pc.table? = some T ∨ S'.tables = S.tables := by
  obtain ⟨op, doubleSize, pc⟩ := c
  cases pc with
  | insert root pc =>
    rw [Call.step_insert] at hs
    cases hs
    left
    cases hn : (insertOrUpdateStep (S.tables root) (H.hash op.key) op.value pc).2 with
    | goto pc =>
      rw [hn] at hT
      exact hT
    | done out =>
      rw [hn] at hT
      cases out <;> cases hT
  | migrate root j s U i last pc =>
    rw [Call.step_migrate] at hs
    cases hs
    left
    cases hn : (migrateStep S (S.jobs j).dest U i last pc).2 with
    | goto i' pc =>
      rw [hn] at hT
      exact hT
    | done overflow =>
      rw [hn] at hT
      cases hT
  | removeCas root i old =>
    simp only [Call.step] at hs
    split_ifs at hs <;> cases hs <;> cases hT
  | start root pc =>
    obtain ⟨⟨S₁, next⟩, -, he⟩ := Option.map_eq_some_iff.1 hs
    cases he
    cases next <;> cases hT
  | complete root j pc =>
    obtain ⟨⟨S₁, next⟩, -, he⟩ := Option.map_eq_some_iff.1 hs
    cases he
    cases next <;> cases hT
  | run root j pc =>
    rw [Call.step_run] at hs
    cases hs
    exact .inr rfl
  | ret | crashed => cases hs
  | loadCurrent | find | findNext | getValue | removeLoad | participate | await =>
    cases hs
    exact .inr rfl

/-- A call knows what it has just found. -/
theorem Call.step_knows (hk : c.Knows H S) (hs : c.step H signalSafeReaders S t = some (S', c')) :
    c'.Knows H S := by
  obtain ⟨op, doubleSize, pc⟩ := c
  cases pc with
  | loadCurrent =>
    cases hs
    cases op with
    | put k v => exact ⟨k, v, rfl⟩
    | get k | remove k => exact ⟨(fun ⟨_, _, h⟩ => by cases h), .home⟩
  | insert root pc =>
    rw [Call.step_insert] at hs
    cases hs
    cases (insertOrUpdateStep (S.tables root) (H.hash op.key) op.value pc).2 with
    | goto pc => exact hk
    | done out => cases out <;> first | exact hk | trivial
  | find root i =>
    cases hs
    obtain ⟨hput, hw⟩ := hk
    dsimp only [goto]
    split_ifs with he hh
    · trivial
    · cases op with
      | put k v => exact absurd ⟨k, v, rfl⟩ hput
      | get k => exact ⟨⟨k, rfl⟩, hw.onChain, hh⟩
      | remove k => exact ⟨⟨k, rfl⟩, hw.onChain, hh⟩
    · exact ⟨hput, hw, he, hh⟩
  | findNext root i =>
    cases hs
    obtain ⟨hput, hw, he, hh⟩ := hk
    dsimp only [goto]
    split_ifs with hd
    · trivial
    · rw [not_or] at hd
      exact ⟨hput, hw.step ⟨hd.1, hd.2, rfl⟩ he hh⟩
  | getValue root i =>
    cases hs
    dsimp only [goto]
    split_ifs <;> trivial
  | removeLoad root i =>
    cases hs
    obtain ⟨hr, hc, hh⟩ := hk
    dsimp only [goto]
    split_ifs with hm
    · trivial
    · exact ⟨hr, hc, hh, hm⟩
  | removeCas root i old =>
    simp only [Call.step] at hs
    split_ifs at hs <;> cases hs <;> trivial
  | start root pc =>
    obtain ⟨⟨S₁, next⟩, -, he⟩ := Option.map_eq_some_iff.1 hs
    cases he
    cases next <;> first | exact hk | trivial
  | participate root prevJob | await root prevJob =>
    cases hs
    simp only [participate]
    split_ifs
    · trivial
    · cases (S.tables root).coordinator <;> trivial
  | run root j pc =>
    rw [Call.step_run] at hs
    cases hs
    cases ((S.jobs j).runStep S.outline.size pc).2 <;> trivial
  | complete root j pc =>
    obtain ⟨⟨S₁, next⟩, -, he⟩ := Option.map_eq_some_iff.1 hs
    cases he
    cases next <;> trivial
  | migrate root j s U i last pc =>
    rw [Call.step_migrate] at hs
    cases hs
    have hcell : Call.Knows H S
        ⟨op, doubleSize, .afterMigrate root j s U last (nextCell i last)⟩ := by
      rw [nextCell]
      split_ifs <;> trivial
    cases pc with
    | loadHash =>
      simp only [migrateStep]
      split_ifs with he
      · trivial
      · exact ⟨rfl, he⟩
    | casUnused =>
      simp only [migrateStep]
      split_ifs <;> first | exact hcell | trivial
    | loadValue | casDeleted | casMove =>
      simp only [migrateStep]
      split_ifs <;> first | exact hcell | exact hk
    | insert h v pc =>
      simp only [migrateStep]
      cases (insertOrUpdateStep (S.tables (S.jobs j).dest) h v pc).2 with
      | goto pc => exact hk
      | done out => cases out <;> first | exact hcell | exact hk
    | restore => trivial
  | ret | crashed => cases hs

/-- What a call knows outlasts the growth of its table. -/
theorem Call.Knows.mono (hk : c.Knows H S)
    (he : ∀ T, c.pc.table? = some T → Extends (S.tables T) (S'.tables T)) : c.Knows H S' := by
  obtain ⟨op, doubleSize, pc⟩ := c
  have hhash : ∀ {T i h}, Extends (S.tables T) (S'.tables T) → (S.tables T).hash i = h →
      h ≠ mapHashEmpty → (S'.tables T).hash i = h := fun e hi hne => by
    rw [e.hash _ (by rw [hi]; exact hne), hi]
  cases pc with
  | insert | start => exact hk
  | find root i => exact ⟨hk.1, (he root rfl).walked hk.2⟩
  | findNext root i =>
    obtain ⟨hput, hw, hne, hh⟩ := hk
    have e := he root rfl
    exact ⟨hput, e.walked hw, e.hash_ne hne, by rwa [e.hash i hne]⟩
  | getValue root i | removeLoad root i =>
    exact ⟨hk.1, (he root rfl).onChain hk.2.1, hhash (he root rfl) hk.2.2 (H.hash_ne _)⟩
  | removeCas root i old =>
    obtain ⟨hr, hc, hh, ho⟩ := hk
    exact ⟨hr, (he root rfl).onChain hc, hhash (he root rfl) hh (H.hash_ne _), ho⟩
  | migrate root j s T i last pc =>
    cases pc with
    | loadHash | casUnused => trivial
    | _ => exact ⟨hhash (he T rfl) hk.1 hk.2, hk.2⟩
  | loadCurrent | participate | await | run | complete | ret | crashed => trivial

end Change

/-! ## Steps of the map -/

section Steps

variable [Fintype Tid] [DecidableEq Tid] {H : Hasher Key} {signalSafeReaders : Bool}
  {S S' : Shared Tid} {c c' : Call Key} {t : Tid} {T : TableId}
  {calls : Tid → Option (Call Key)}

/-- Where the calls are. -/
abbrev pcsOf (calls : Tid → Option (Call Key)) (t : Tid) : Option Pc := (calls t).map Call.pc

omit [Fintype Tid] [DecidableEq Tid] in
theorem pcsOf_eq {pc : Pc} (ht : calls t = some c) (hpc : c.pc = pc) :
    pcsOf calls t = some pc := by
  rw [pcsOf, ht, Option.map_some, hpc]

omit [DecidableEq Tid] in
/-- A call is among the cells of a table that exists. -/
theorem Coordination.table_lt {o : Outline Tid} {pcs : Tid → Option Pc} (h : Coordination o pcs)
    {pc : Pc} (ht : pcs t = some pc) (hT : pc.table? = some T) : T < o.nTables := by
  have hok := h.ok t pc ht
  cases pc with
  | insert | find | findNext | getValue | removeLoad | removeCas =>
    cases hT
    exact h.layout.published_lt _ hok
  | migrate root j s U i last pc =>
    cases hT
    refine h.layout.source_lt j hok.lt s _ ?_
    exact ((h.runs j hok.lt).ok t (.migrating s T i last) (by simp [runs_eq ht, Pc.position])).2.1
  | _ => cases hT

omit [DecidableEq Tid] in
/-- A call inserts into a table that exists. -/
theorem Coordination.insertAt_lt (h : Coordination S.outline (pcsOf calls)) (ht : calls t = some c)
    {f : Insert} (hf : c.insertAt H S T = some f) : T < S.nTables := by
  have hpc := pcsOf_eq ht rfl
  obtain ⟨op, doubleSize, pc⟩ := c
  cases pc with
  | insert root pc =>
    simp only [Call.insertAt, Option.ite_none_right_eq_some] at hf
    exact hf.1 ▸ h.table_lt hpc rfl
  | migrate root j s U i last pc =>
    have hj : j < S.nJobs := (h.ok t _ hpc).lt
    cases pc with
    | insert h' v pc =>
      simp only [Call.insertAt, Option.ite_none_right_eq_some] at hf
      exact hf.1 ▸ h.layout.dest_lt j hj
    | _ => simp [Call.insertAt] at hf
  | _ => simp [Call.insertAt] at hf

omit [Fintype Tid] [DecidableEq Tid] in
/-- Tables that exist grow. -/
theorem Cells.extends (h : Cells H S calls) (ht : calls t = some c)
    (hs : c.step H signalSafeReaders S t = some (S', c')) (hT : T < S.nTables) :
    Extends (S.tables T) (S'.tables T) := by
  cases Call.step_table (h.knows t c ht) hs T with
  | same hs ha =>
    refine .of_eq hs ?_ ?_ <;> funext i
    · rw [HashTable.hash, ha, HashTable.hash]
    · rw [HashTable.delta, ha, HashTable.delta]
  | new he => exact absurd hT (by rw [he]; exact lt_irrefl _)
  | insert f hf he =>
    rw [he]
    exact ((h.chain T).ok t f (by rw [ht]; exact hf)).extends f.value
  | write i v _ _ he =>
    rw [he]
    exact .of_eq rfl (HashTable.setValue_hash ..) (HashTable.setValue_delta ..)

omit [Fintype Tid] [DecidableEq Tid] in
/-- The destinations of the migrations that exist remain. -/
theorem Call.step_dest (hs : c.step H signalSafeReaders S t = some (S', c')) {j : JobId}
    (hj : j < S.nJobs) : (S'.jobs j).dest = (S.jobs j).dest := by
  cases Call.step_changes hs with
  | cells x ho => rw [show S'.jobs = S.jobs from congrArg Outline.jobs ho]
  | run root i pc hpc he =>
    subst he
    show (Function.update S.jobs i _ j).dest = _
    by_cases hij : j = i
    · subst hij
      rw [Function.update_self, runStep_dest]
    · rw [Function.update_of_ne hij]
  | begins root n hpc he =>
    subst he
    show (Function.update S.jobs S.nJobs _ j).dest = _
    rw [Function.update_of_ne hj.ne]
  | ends root i T hpc hT he =>
    subst he
    rfl
  | restart root i T hpc he =>
    subst he
    show (Function.update (Function.update S.jobs i (S.jobs i).handedOver) S.nJobs _ j).dest = _
    rw [Function.update_of_ne hj.ne]
    by_cases hij : j = i
    · subst hij
      rw [Function.update_self]
      rfl
    · rw [Function.update_of_ne hij]
  | publish root i old hpc he =>
    subst he
    rw [Shared.publish]
    split_ifs <;> rfl
  | schedule root i old hpc he =>
    subst he
    rfl

omit [Fintype Tid] [DecidableEq Tid] in
theorem Call.step_nTables (hs : c.step H signalSafeReaders S t = some (S', c')) :
    S.nTables ≤ S'.nTables := by
  cases Call.step_changes hs with
  | cells x ho => exact (congrArg Outline.nTables ho).ge
  | publish root i old hpc he =>
    subst he
    rw [Shared.publish]
    split_ifs <;> exact le_rfl
  | run root i pc hpc he | ends root i T hpc hT he | schedule root i old hpc he =>
    subst he
    exact le_rfl
  | begins root n hpc he | restart root i T hpc he =>
    subst he
    exact Nat.le_succ _

omit [DecidableEq Tid] in
/-- The call of `insertOrUpdate` that another thread is in. -/
theorem Coordination.insertAt_of_ne (h : Coordination S.outline (pcsOf calls))
    (hs : c.step H signalSafeReaders S t = some (S', c')) {u : Tid} {d : Call Key}
    (hu : calls u = some d) : d.insertAt H S' T = d.insertAt H S T := by
  have hok := h.ok u d.pc (pcsOf_eq hu rfl)
  obtain ⟨op, doubleSize, pc⟩ := d
  cases pc with
  | migrate root j s U i last pc =>
    have hdest := Call.step_dest hs (hok : S.outline.Joined root j).lt
    cases pc with
    | insert h v pc => simp only [Call.insertAt, hdest]
    | _ => rfl
  | _ => rfl

omit [DecidableEq Tid] in
/-- A table that does not exist is not in use. -/
theorem Coordination.insertAt_none (h : Coordination S.outline (pcsOf calls))
    (hT : S.nTables ≤ T) (u : Tid) : (calls u).bind (fun c => c.insertAt H S T) = none := by
  cases hu : calls u with
  | none => rfl
  | some d =>
    cases hf : d.insertAt H S T with
    | none => exact hf
    | some f => exact absurd (h.insertAt_lt hu hf) (not_lt.2 hT)

/-- The chains of a table, after a step of a call. -/
theorem Cells.chain_step (h : Cells H S calls) (hco : Coordination S.outline (pcsOf calls))
    (ht : calls t = some c) (hs : c.step H signalSafeReaders S t = some (S', c'))
    (T : TableId) : ChainInv (S'.tables T)
      (fun u => (Function.update calls t (some c') u).bind fun c => c.insertAt H S' T) := by
  have hcalls : (fun u => (Function.update calls t (some c') u).bind fun c => c.insertAt H S' T) =
      Function.update (fun u => (calls u).bind fun c => c.insertAt H S T) t
        (c'.insertAt H S' T) := by
    funext u
    by_cases hu : u = t
    · subst hu
      simp
    · rw [Function.update_of_ne hu, Function.update_of_ne hu]
      cases hd : calls u with
      | none => rfl
      | some d => exact hco.insertAt_of_ne hs hd
  have htc : (calls t).bind (fun c => c.insertAt H S T) = c.insertAt H S T := by
    rw [ht, Option.bind_some]
  rw [hcalls]
  cases hf : c.insertAt H S T with
  | some f =>
    obtain ⟨htable, hafter⟩ := Call.step_insertAt hs hf
    rw [htable, hafter]
    exact (h.chain T).step (htc.trans hf)
  | none =>
    rcases Call.step_insertAt_none (h.knows t c ht) hs hf with hnone | ⟨⟨f, hf', hpc, hne⟩, hsame⟩
    · rw [hnone, ← htc.trans hf, Function.update_eq_self]
      cases Call.step_table (h.knows t c ht) hs T with
      | same hsize ha =>
        refine (h.chain T).of_eq hsize ?_ ?_ <;> funext i
        · rw [HashTable.hash, ha, HashTable.hash]
        · rw [HashTable.delta, ha, HashTable.delta]
      | new he ha =>
        refine .of_free (fun i => ?_) (fun i => ?_) (hco.insertAt_none he.ge)
        · rw [HashTable.hash, ha]
          rfl
        · rw [HashTable.delta, ha]
          rfl
      | insert f hf' => cases hf.symm.trans hf'
      | write i v _ _ he =>
        rw [he]
        exact (h.chain T).of_eq rfl (HashTable.setValue_hash ..) (HashTable.setValue_delta ..)
    · rw [hf']
      exact ((h.chain T).start (htc.trans hf) hpc hne).of_eq hsame.1 hsame.2.1 hsame.2.2

omit [Fintype Tid] [DecidableEq Tid] in
theorem InsertPc.allocate?_lt {X : HashTable Tid} {pc : InsertPc} {i : ℕ}
    (hi : pc.allocate? X = some i) : i < X.size := by
  cases pc <;> simp only [InsertPc.allocate?, reduceCtorEq, Option.some.injEq] at hi
  exact hi ▸ X.index_lt ..

omit [Fintype Tid] [DecidableEq Tid] in
theorem InsertPc.Ok.cas?_hash {X : HashTable Tid} {h : HashType} {pc : InsertPc} {i : ℕ}
    {v : ValueType} (hok : pc.Ok X h) (hi : pc.cas? = some (i, v)) :
    OnChain X h i ∧ X.hash i = h ∧ v ≠ mapValMove := by
  cases pc <;> simp only [InsertPc.cas?, reduceCtorEq, Option.some.injEq, Prod.mk.injEq] at hi
  all_goals
    obtain ⟨rfl, rfl⟩ := hi
    exact hok

omit [DecidableEq Tid] in
/-- The tables that do not exist yet, and the one that a step creates, are empty. -/
theorem Cells.fresh_step (h : Cells H S calls) (hco : Coordination S.outline (pcsOf calls))
    (ht : calls t = some c) (hs : c.step H signalSafeReaders S t = some (S', c'))
    (hT : S.nTables ≤ T) (i : ℕ) : (S'.tables T).array i = unusedCell := by
  cases Call.step_table (h.knows t c ht) hs T with
  | same _ ha =>
    rw [ha]
    exact h.fresh T hT i
  | new _ ha => exact ha i
  | insert f hf => exact absurd (hco.insertAt_lt ht hf) (not_lt.2 hT)
  | write k v hk =>
    exact absurd (hco.table_lt (pcsOf_eq ht rfl) hk) (not_lt.2 hT)

/-- A step of a call keeps the invariant. -/
theorem Cells.callStep (h : Cells H S calls) (hco : Coordination S.outline (pcsOf calls))
    (ht : calls t = some c) (hs : c.step H signalSafeReaders S t = some (S', c')) :
    Cells H S' (Function.update calls t (some c')) := by
  have htable := Call.step_table (h.knows t c ht) hs
  have hpc := pcsOf_eq ht rfl
  have hext : ∀ {T}, T < S.nTables → Extends (S.tables T) (S'.tables T) := h.extends ht hs
  have hinsert : ∀ {T f}, c.insertAt H S T = some f →
      f.pc.Ok (S.tables T) f.hash ∧ f.hash ≠ mapHashEmpty := fun {T f} hf => by
    have hft : (calls t).bind (fun c => c.insertAt H S T) = some f := by
      rw [ht, Option.bind_some, hf]
    exact ⟨(h.chain T).ok t f hft, (h.chain T).hash_ne t f hft⟩
  refine ⟨fun u d hd => ?_, h.chain_step hco ht hs, fun T i hi => ?_, fun T hT i => ?_,
    fun T i hi => ?_⟩
  · rcases ThreadSum.update_eq_some_iff.1 hd with ⟨rfl, he⟩ | ⟨-, hd⟩
    · cases he
      refine (Call.step_knows (h.knows u c ht) hs).mono fun T hT => ?_
      rcases Call.step_table? hs hT with hT | he
      · exact hext (hco.table_lt hpc hT)
      · rw [he]
        exact .refl
    · exact (h.knows u d hd).mono fun T hT => hext (hco.table_lt (pcsOf_eq hd rfl) hT)
  · cases htable T with
    | same _ ha =>
      rw [HashTable.hash, ha] at hi
      rw [HashTable.value, ha]
      exact h.free T i hi
    | new _ ha =>
      rw [HashTable.value, ha]
      exact .inl rfl
    | insert f hf he =>
      obtain ⟨hok, hne⟩ := hinsert hf
      rw [he] at hi ⊢
      have hold : (S.tables T).hash i = mapHashEmpty := by
        by_contra hne'
        rw [(hok.extends f.value).hash i hne'] at hi
        exact hne' hi
      rcases insertOrUpdateStep_value (S.tables T) f.hash f.value f.pc with hv | ⟨k, hcas, hv, -⟩
      · rw [hv]
        exact h.free T i hold
      · rw [hv, Function.update_of_ne]
        · exact h.free T i hold
        · rintro rfl
          exact hne ((hok.cas?_hash hcas).2.1 ▸ hold)
    | write k v _ hk he =>
      rw [he, HashTable.setValue_hash] at hi
      rw [he, HashTable.setValue_value]
      by_cases hik : i = k
      · subst hik
        rw [Function.update_self]
        exact .inr (hk.resolve_left (not_not.2 hi))
      · rw [Function.update_of_ne hik]
        exact h.free T i hi
  · exact h.fresh_step hco ht hs ((Call.step_nTables hs).trans hT) i
  · cases htable T with
    | same hsize ha =>
      rw [HashTable.hash, ha] at hi
      rw [HashTable.size, hsize]
      exact h.lt T i hi
    | new _ ha =>
      rw [HashTable.hash, ha] at hi
      exact absurd rfl hi
    | insert f hf he =>
      rw [he] at hi ⊢
      rw [insertOrUpdateStep_size]
      rcases insertOrUpdateStep_hash (S.tables T) f.hash f.value f.pc with hh | ⟨k, _, hk, -, hh, -⟩
      · rw [hh] at hi
        exact h.lt T i hi
      · by_cases hik : i = k
        · exact hik ▸ InsertPc.allocate?_lt hk
        · rw [hh, Function.update_of_ne hik] at hi
          exact h.lt T i hi
    | write k v _ _ he =>
      rw [he, HashTable.setValue_hash] at hi
      rw [he, HashTable.setValue_size]
      exact h.lt T i hi

omit [Fintype Tid] in
/-- A thread that begins or ends its call is not among the cells. -/
theorem Cells.update (h : Cells H S calls) {x : Option (Call Key)} (hx : ∀ d ∈ x, d.Knows H S)
    (hi : ∀ T, x.bind (fun c => c.insertAt H S T) =
      (calls t).bind fun c => c.insertAt H S T) : Cells H S (Function.update calls t x) where
  knows u d hd := by
    rcases ThreadSum.update_eq_some_iff.1 hd with ⟨-, he⟩ | ⟨-, hd⟩
    · exact hx d he
    · exact h.knows u d hd
  chain T := by
    have hcalls : (fun u => (Function.update calls t x u).bind fun c => c.insertAt H S T) =
        fun u => (calls u).bind fun c => c.insertAt H S T := by
      funext u
      by_cases hu : u = t
      · subst hu
        rw [Function.update_self, hi]
      · rw [Function.update_of_ne hu]
    rw [hcalls]
    exact h.chain T
  free := h.free
  fresh := h.fresh
  lt := h.lt

/-- Every step of the map that is on time keeps the invariant. -/
theorem Cells.next {σ σ' : State Tid Key} {l : Label Tid Key} (h : Cells H σ.shared σ.calls)
    (hco : Coordination σ.shared.outline σ.pcs)
    (hn : (provider Tid H signalSafeReaders).next σ l = some σ') :
    Cells H σ'.shared σ'.calls := by
  cases State.transition_of_next H signalSafeReaders hn with
  | call t op hc =>
    refine h.update (fun d hd => ?_) fun T => ?_
    · cases hd
      trivial
    · rw [hc]
      rfl
  | ret t c result hc hret =>
    refine h.update (fun d hd => nomatch hd) fun T => ?_
    rw [hc, Option.bind_some, Call.insertAt, hret]
    rfl
  | step t c c' S' hc hs => exact h.callStep hco hc hs

omit [Fintype Tid] [DecidableEq Tid] in
theorem Cells.initial (n : BitVec 64) :
    Cells H (State.new n : State Tid Key).shared (State.new n : State Tid Key).calls where
  knows _ _ hc := nomatch hc
  chain _ := .of_free (fun _ => rfl) (fun _ => rfl) fun _ => rfl
  free _ _ _ := .inl rfl
  fresh _ _ _ := rfl
  lt _ _ hi := absurd rfl hi

end Steps

end FkProf.ConcurrentMap
