import FkProf.ConcurrentMap.Cells

/-!
# What a step does to the values

The values of a map are in the cells of its tables, and on their way from one
cell to another: a thread that has marked a cell as moved carries its value until
it has inserted it into the destination of the migration, or restored it.

* `InsertEffect`, `MigrateEffect`: what a step of `insertOrUpdate` and of
  `migrateRange` does to the values;
* `Effect`: what a step of a call does to them: a client stores a value, or a
  thread moves one, or the values remain as they are.
-/

namespace FkProf.ConcurrentMap

variable {Tid Key : Type*}

/-! ## Inserting -/

section Insert

variable {T T' : HashTable Tid} {h : HashType} {v : ValueType} {pc : InsertPc}

/-- What a step of `insertOrUpdate` does to the values of a table. -/
inductive InsertEffect (T : HashTable Tid) (v : ValueType) (pc : InsertPc) (T' : HashTable Tid) :
    InsertNext → Prop
  | search (pc' : InsertPc) : T'.value = T.value →
      (∀ k x, pc'.cas? = some (k, x) → T.value k = x ∧ x ≠ mapValMove) →
      InsertEffect T v pc T' (.goto pc')
  | store (k : ℕ) : pc.cas? = some (k, T.value k) → T' = T.setValue k v →
      InsertEffect T v pc T' (.done (.ok (T.value k)))
  | missed (k : ℕ) (old : ValueType) : pc.cas? = some (k, old) → T.value k ≠ old → T' = T →
      (pc = .updateCas k old ∨ T.value k ≠ mapValMove) →
      InsertEffect T v pc T' (.done (.ok (T.value k)))
  | moved (k : ℕ) : T.value k = mapValMove → T' = T →
      (pc = .updateLoad k ∨ pc = .setLoad k ∨ ∃ old, pc = .setCas k old ∧ T.value k ≠ old) →
      InsertEffect T v pc T' (.done .helpMigration)
  | overflow : T'.value = T.value → InsertEffect T v pc T' (.done .overflow)

theorem searchNext_cas? (i d : ℕ) : (searchNext i d).cas? = none := by
  rw [searchNext]
  split_ifs <;> rfl

theorem InsertEffect.search_of_none {pc' : InsertPc} (hv : T'.value = T.value)
    (hn : pc'.cas? = none) : InsertEffect T v pc T' (.goto pc') :=
  .search pc' hv fun _ _ hk => nomatch hn.symm.trans hk

theorem insertOrUpdateStep_effect (T : HashTable Tid) (h : HashType) (v : ValueType)
    (pc : InsertPc) : InsertEffect T v pc (insertOrUpdateStep T h v pc).1
      (insertOrUpdateStep T h v pc).2 := by
  cases pc with
  | updateLoad i =>
    simp only [insertOrUpdateStep]
    split_ifs with hm
    · exact .moved i hm rfl (.inl rfl)
    · exact .search _ rfl fun k x hk => by cases hk; exact ⟨rfl, hm⟩
  | setLoad i =>
    simp only [insertOrUpdateStep]
    split_ifs with hm
    · exact .moved i hm rfl (.inr (.inl rfl))
    · exact .search _ rfl fun k x hk => by cases hk; exact ⟨rfl, hm⟩
  | updateCas i old =>
    simp only [insertOrUpdateStep]
    split_ifs with hv
    · subst hv
      exact .store i rfl rfl
    · exact .missed i old rfl hv rfl (.inl rfl)
  | setCas i old =>
    simp only [insertOrUpdateStep]
    split_ifs with hv hm
    · subst hv
      exact .store i rfl rfl
    · exact .moved i hm rfl (.inr (.inr ⟨old, rfl, hv⟩))
    · exact .missed i old rfl hv rfl (.inr hm)
  | walk | probe =>
    simp only [insertOrUpdateStep]
    split_ifs <;> first
      | exact .overflow rfl
      | exact .search_of_none rfl rfl
      | exact .search_of_none rfl (searchNext_cas? ..)
  | next | wait =>
    simp only [insertOrUpdateStep]
    split_ifs <;> exact .search_of_none rfl rfl
  | lock i jumps =>
    simp only [insertOrUpdateStep]
    split_ifs
    · exact .search_of_none (HashTable.setDelta_value ..) rfl
    · exact .search_of_none rfl rfl
  | reserve =>
    simp only [insertOrUpdateStep]
    split_ifs <;> exact .search_of_none rfl rfl
  | refuse => exact .search_of_none rfl rfl
  | allocate i d =>
    simp only [insertOrUpdateStep]
    split_ifs
    · exact .search_of_none (HashTable.setHash_value ..) rfl
    · exact .search_of_none rfl rfl
  | link i d => exact .search_of_none (HashTable.setDelta_value ..) rfl
  | refund i d b =>
    simp only [insertOrUpdateStep]
    split_ifs
    · exact .search_of_none rfl rfl
    · exact .search_of_none rfl (searchNext_cas? ..)
  | unlock i => exact .overflow (HashTable.setDelta_value ..)

end Insert

/-! ## Moving -/

/-- The value that the thread carries, with its hash. -/
def MigratePc.carried : MigratePc → Option (HashType × ValueType)
  | .insert h v _ | .restore h v => some (h, v)
  | _ => none

/-- What a thread knows of the value of the cell it is moving. -/
def MigratePc.Moves (x : ValueType) : MigratePc → Prop
  | .loadHash | .casUnused | .loadValue _ => True
  | .casDeleted _ => x ≠ mapValMove
  | .casMove _ v => x ≠ mapValMove ∧ v ≠ mapValMove
  | .insert _ v _ | .restore _ v => x = mapValMove ∧ v ≠ mapValEmpty ∧ v ≠ mapValMove

section Migrate

variable {S S' : Shared Tid} {dest T i last : ℕ} {pc : MigratePc}

/-- What a step of `migrateRange` does to the values, at cell `i` of `T`. -/
inductive MigrateEffect (S : Shared Tid) (dest T i last : ℕ) (pc : MigratePc)
    (S' : Shared Tid) : MigrateNext → Prop
  | read (pc' : MigratePc) : pc.carried = none → pc'.carried = none → S' = S →
      (pc.Moves ((S.tables T).value i) → pc'.Moves ((S.tables T).value i)) →
      MigrateEffect S dest T i last pc S' (.goto i pc')
  | skip : pc.carried = none → S' = S → (S.tables T).value i = mapValMove →
      MigrateEffect S dest T i last pc S' (nextCell i last)
  | mark : pc.carried = none → S' = S.write T i mapValMove → (S.tables T).value i = mapValEmpty →
      MigrateEffect S dest T i last pc S' (nextCell i last)
  | take (h : HashType) (v : ValueType) : pc = .casMove h v → S' = S.write T i mapValMove →
      (S.tables T).value i = v → v ≠ mapValEmpty → MigrateEffect S dest T i last pc S'
        (.goto i (.insert h v (.start (S.tables dest) h)))
  | search (h : HashType) (v : ValueType) (p p' : InsertPc) (X : HashTable Tid) :
      pc = .insert h v p → X.value = (S.tables dest).value → S' = S.setTable dest X →
      (∀ k x, p'.cas? = some (k, x) → (S.tables dest).value k = x) →
      MigrateEffect S dest T i last pc S' (.goto i (.insert h v p'))
  | overflow (h : HashType) (v : ValueType) (p : InsertPc) (X : HashTable Tid) :
      pc = .insert h v p → X.value = (S.tables dest).value → S' = S.setTable dest X →
      MigrateEffect S dest T i last pc S' (.goto i (.restore h v))
  | put (h : HashType) (v : ValueType) (p : InsertPc) (k : ℕ) : pc = .insert h v p →
      p.cas? = some (k, (S.tables dest).value k) → S' = S.write dest k v →
      MigrateEffect S dest T i last pc S' (nextCell i last)
  | lose (h : HashType) (v : ValueType) (p : InsertPc) (k : ℕ) : pc = .insert h v p → S' = S →
      (S.tables dest).value k = mapValMove ∨
        (∃ old, p.cas? = some (k, old) ∧ (S.tables dest).value k ≠ old) →
      MigrateEffect S dest T i last pc S' (nextCell i last)
  | restore (h : HashType) (v : ValueType) : pc = .restore h v → S' = S.write T i v →
      MigrateEffect S dest T i last pc S' (.done true)

theorem setTable_self (S : Shared Tid) (T : TableId) : S.setTable T (S.tables T) = S := by
  rw [Shared.setTable, Function.update_eq_self]

theorem migrateStep_effect (S : Shared Tid) (dest T i last : ℕ) (pc : MigratePc) :
    MigrateEffect S dest T i last pc (migrateStep S dest T i last pc).1
      (migrateStep S dest T i last pc).2 := by
  cases pc with
  | loadHash =>
    refine .read _ rfl ?_ rfl fun _ => ?_ <;> split_ifs <;> first | rfl | trivial
  | casUnused =>
    simp only [migrateStep]
    split_ifs with he hm
    · exact .mark rfl rfl he
    · exact .skip rfl rfl hm
    · exact .read _ rfl rfl rfl fun _ => trivial
  | loadValue h =>
    simp only [migrateStep]
    split_ifs with he hm
    · refine .read _ rfl rfl rfl fun _ => ?_
      rw [he]
      exact (by decide : mapValEmpty ≠ mapValMove)
    · exact .skip rfl rfl hm
    · exact .read _ rfl rfl rfl fun _ => ⟨hm, hm⟩
  | casDeleted h =>
    simp only [migrateStep]
    split_ifs with he
    · exact .mark rfl rfl he
    · exact .read _ rfl rfl rfl fun hm => ⟨hm, hm⟩
  | casMove h v =>
    simp only [migrateStep]
    split_ifs with hv he
    · exact .mark rfl rfl (hv.trans he)
    · exact .take h v rfl rfl hv he
    · exact .read _ rfl rfl rfl fun hm => ⟨hm.1, hm.1⟩
  | insert h v p =>
    simp only [migrateStep]
    cases hn : (insertOrUpdateStep (S.tables dest) h v p).2 with
    | goto p' =>
      have he := insertOrUpdateStep_effect (S.tables dest) h v p
      rw [hn] at he
      cases he with
      | search _ hv hk => exact .search h v p p' _ rfl hv rfl fun k x hx => (hk k x hx).1
    | done out =>
      have he := insertOrUpdateStep_effect (S.tables dest) h v p
      rw [hn] at he
      cases he with
      | store k hk hT =>
        rw [hT]
        exact .put h v p k rfl hk rfl
      | missed k old hk hne hT _ =>
        rw [hT, setTable_self]
        exact .lose h v p k rfl rfl (.inr ⟨old, hk, hne⟩)
      | moved k hm hT _ =>
        rw [hT, setTable_self]
        exact .lose h v p k rfl rfl (.inl hm)
      | overflow hv => exact .overflow h v p _ rfl hv rfl
  | restore h v => exact .restore h v rfl rfl

end Migrate

/-! ## Calls -/

/-- The cell that a thread is moving. -/
def Pc.mover? : Pc → Option (TableId × ℕ × MigratePc)
  | .migrate _ _ _ T i _ pc => some (T, i, pc)
  | _ => none

/-- The value that a thread carries, with its hash. -/
def Pc.carried (pc : Pc) : Option (HashType × ValueType) :=
  pc.mover?.bind fun x => x.2.2.carried

/-- The cell that a client is about to write its value to, with the value that it
    expects there. -/
def Pc.client? : Pc → Option (TableId × ℕ × ValueType)
  | .insert root pc => pc.cas?.map fun x => (root, x)
  | .removeCas root i old => some (root, i, old)
  | _ => none

/-- The thread neither runs a migration nor moves a cell. -/
def Pc.Quiet : Pc → Prop
  | .run .. | .migrate .. => False
  | _ => True

section Call

variable {H : Hasher Key} {signalSafeReaders : Bool} {S S' : Shared Tid} {c c' : Call Key}
  {t : Tid}

theorem Op.value_ne_move (op : Op Key) : op.value ≠ mapValMove := by
  cases op with
  | put k v => exact v.ne_move
  | get | remove => exact (by decide : mapValEmpty ≠ mapValMove)

theorem Shared.write_value (S : Shared Tid) (T U : TableId) (i k : ℕ) (v : ValueType) :
    ((S.write T i v).tables U).value k =
      if U = T ∧ k = i then v else (S.tables U).value k := by
  rw [Shared.write_tables]
  by_cases hU : U = T
  · subst hU
    rw [Function.update_self, HashTable.setValue_value, Function.update_apply]
    simp
  · rw [Function.update_of_ne hU, if_neg fun h => hU h.1]

theorem Shared.write_of_ne {S : Shared Tid} {T U : TableId} {i k : ℕ} {v : ValueType}
    (h : U = T → k ≠ i) : ((S.write T i v).tables U).value k = (S.tables U).value k := by
  rw [Shared.write_value, if_neg fun he => h he.1 he.2]

theorem Shared.write_self {S : Shared Tid} {T : TableId} {i : ℕ} {v : ValueType} :
    ((S.write T i v).tables T).value i = v := by
  rw [Shared.write_value, if_pos ⟨rfl, rfl⟩]

/-- What a step of a call does to the values. -/
inductive Effect (S : Shared Tid) (c : Call Key) (S' : Shared Tid) (c' : Call Key) : Prop
  | store (root : TableId) (k : ℕ) : c.pc.client? = some (root, k, (S.tables root).value k) →
      S' = S.write root k c.op.value → c' = c.goto (.ret ((S.tables root).value k)) →
      Effect S c S' c'
  | migrate (root : TableId) (j : JobId) (s : ℕ) (T : TableId) (i last : ℕ) (pc : MigratePc)
      (next : MigrateNext) : c.pc = .migrate root j s T i last pc →
      MigrateEffect S (S.jobs j).dest T i last pc S' next →
      c' = c.goto (.afterMigrate root j s T last next) → S'.outline = S.outline → Effect S c S' c'
  | run (root : TableId) (j : JobId) (pc : RunPc) : c.pc = .run root j pc →
      S' = S.setJob j ((S.jobs j).runStep S.outline.size pc).1 →
      c' = c.goto (.afterRun root j ((S.jobs j).runStep S.outline.size pc).2) → Effect S c S' c'
  | quiet : c.pc.Quiet → c'.pc.mover? = none →
      (∀ T ≠ S.nTables, (S'.tables T).value = (S.tables T).value) → Effect S c S' c'

theorem Effect.of_tables (hq : c.pc.Quiet) (hm : c'.pc.mover? = none) (ht : S'.tables = S.tables) :
    Effect S c S' c' :=
  .quiet hq hm fun T _ => by rw [ht]

/-- The mutex, the coordinator and the victim are no values. -/
theorem value_setTable {U : TableId} {X : HashTable Tid} (hX : X.value = (S.tables U).value)
    (T : TableId) : ((S.setTable U X).tables T).value = (S.tables T).value := by
  rw [Shared.setTable_tables]
  by_cases hT : T = U
  · rw [hT, Function.update_self, hX]
  · rw [Function.update_of_ne hT]

theorem Effect.of_setTable {U : TableId} {X : HashTable Tid} (hq : c.pc.Quiet)
    (hm : c'.pc.mover? = none) (hX : X.value = (S.tables U).value) :
    Effect S c (S.setTable U X) c' :=
  .quiet hq hm fun T _ => value_setTable hX T

/-- The values remain when a migration begins. -/
theorem value_begin {n : BitVec 64} {m : Migration} {U : TableId} {co : JobCoordinator}
    {S₁ : Shared Tid} (hS : S₁.tables = S.tables) (hn : S₁.nTables = S.nTables) {T : TableId}
    (hT : T ≠ S.nTables) :
    ((((S₁.newTable n).newJob m).setCoordinator U co).tables T).value = (S.tables T).value := by
  refine (value_setTable (S := (S₁.newTable n).newJob m)
    (X := { ((S₁.newTable n).newJob m).tables U with coordinator := co }) rfl T).trans ?_
  show (Function.update S₁.tables S₁.nTables (.new n) T).value = _
  rw [hS, hn, Function.update_of_ne hT]

theorem Call.step_effect (hk : c.Knows H S)
    (hs : c.step H signalSafeReaders S t = some (S', c')) : Effect S c S' c' := by
  obtain ⟨op, doubleSize, pc⟩ := c
  cases pc with
  | insert root pc =>
    rw [Call.step_insert] at hs
    cases hs
    have he := insertOrUpdateStep_effect (S.tables root) (H.hash op.key) op.value pc
    revert he
    cases (insertOrUpdateStep (S.tables root) (H.hash op.key) op.value pc).2 with
    | goto pc' =>
      rintro ⟨⟩
      exact .of_setTable trivial rfl ‹_›
    | done out =>
      intro he
      cases he with
      | store k hcas hT =>
        rw [hT]
        exact .store root k (Option.map_eq_some_iff.2 ⟨_, hcas, rfl⟩) rfl rfl
      | missed k old _ _ hT _ => exact .of_setTable trivial rfl (by rw [hT])
      | moved k _ hT _ => exact .of_setTable trivial rfl (by rw [hT])
      | overflow hv => exact .of_setTable trivial rfl hv
  | removeCas root i old =>
    simp only [Call.step] at hs
    split_ifs at hs with hv <;> cases hs
    · subst hv
      obtain ⟨⟨k, rfl⟩, -⟩ := hk
      exact .store root i rfl rfl rfl
    · exact .of_tables trivial rfl rfl
  | migrate root j s T i last pc =>
    rw [Call.step_migrate] at hs
    cases hs
    exact .migrate root j s T i last pc _ rfl (migrateStep_effect ..) rfl (migrateStep_outline ..)
  | run root j pc =>
    rw [Call.step_run] at hs
    cases hs
    exact .run root j pc rfl rfl rfl
  | start root pc =>
    obtain ⟨⟨S₁, next⟩, hstep, he⟩ := Option.map_eq_some_iff.1 hs
    cases he
    have hm : (Pc.afterStart root next).mover? = none := by cases next <;> rfl
    cases pc with
    | lock n =>
      obtain ⟨S₂, hl, he⟩ := Option.map_eq_some_iff.1 hstep
      cases he
      rw [Shared.lock] at hl
      split_ifs at hl
      cases hl
      exact .of_setTable trivial rfl rfl
    | set n =>
      cases hstep
      exact .quiet trivial rfl fun T => value_begin rfl rfl
    | unlock =>
      cases hstep
      exact .of_setTable trivial rfl rfl
    | sample | get =>
      cases hstep
      exact .of_tables trivial (by split_ifs <;> rfl) rfl
  | complete root j pc =>
    obtain ⟨⟨S₁, next⟩, hstep, he⟩ := Option.map_eq_some_iff.1 hs
    cases he
    have hm : ∀ c : Call Key, (c.afterComplete root j next).pc.mover? = none := fun c => by
      cases next <;> rfl
    cases pc with
    | setVictim | endCoordinator =>
      simp only [completeStep, Option.some.injEq] at hstep
      split at hstep <;> cases hstep
      · exact .of_setTable trivial (hm _) rfl
      · exact .of_tables trivial (hm _) rfl
    | restartLock T =>
      obtain ⟨S₂, hl, he⟩ := Option.map_eq_some_iff.1 hstep
      cases he
      rw [Shared.lock] at hl
      split_ifs at hl
      cases hl
      exact .of_setTable trivial (hm _) rfl
    | restartSet T =>
      simp only [completeStep, Option.some.injEq] at hstep
      split_ifs at hstep <;> cases hstep
      · exact .quiet trivial (hm _) fun T => value_begin (show (S.setJob j _).tables = S.tables from rfl) rfl
      · exact .of_tables trivial (hm _) rfl
    | finishStore old =>
      cases hstep
      refine .of_tables trivial (hm _) ?_
      rw [Shared.publish]
      split_ifs <;> rfl
    | restartUnlock T =>
      cases hstep
      exact .of_setTable trivial (hm _) rfl
    | finishLoad | finishDelete | restartTable | restartGet =>
      cases hstep
      exact .of_tables trivial (hm _) rfl
  | participate root prevJob | await root prevJob =>
    cases hs
    refine .of_tables trivial ?_ rfl
    simp only [Call.participate]
    split_ifs
    · rfl
    · cases (S.tables root).coordinator <;> rfl
  | loadCurrent =>
    cases hs
    exact .of_tables trivial (by cases op <;> rfl) rfl
  | find root i =>
    cases hs
    refine .of_tables trivial ?_ rfl
    cases op <;> dsimp only [Call.goto] <;> split_ifs <;> rfl
  | findNext root i | getValue root i | removeLoad root i =>
    cases hs
    refine .of_tables trivial ?_ rfl
    dsimp only [Call.goto]
    split_ifs <;> rfl
  | ret | crashed => cases hs

end Call

end FkProf.ConcurrentMap
