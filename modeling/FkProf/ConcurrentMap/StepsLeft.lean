import FkProf.ConcurrentMap.Progress

/-!
# How far a call is from its end

The steps left at most to a call, before it returns, creates a table or waits for another
thread: every other step makes them fewer, whatever the other threads have done.

* `Pc.left`: how many they are at each place of the source;
* `InsertPc.left_step`, `MigratePc.left_step`, `RunInv.left_step`: in `insertOrUpdate`,
  `migrateRange` and `run` they become fewer, unless the thread waits for a lock;
* `Call.left_step`: so they do with every step of a put that runs alone.
-/

namespace FkProf.ConcurrentMap

variable {Tid Key : Type*}

/-- The accesses left at most to a call of `insertOrUpdate`, which counts its jumps when it
    has waited. -/
def InsertPc.left : InsertPc → ℕ
  | .next _ jumps => 74 + 4 * (kMaxJumpsAllowed + 1 - jumps)
  | .lock _ jumps => 73 + 4 * (kMaxJumpsAllowed + 1 - jumps)
  | .wait _ jumps => 72 + 4 * (kMaxJumpsAllowed + 1 - jumps)
  | .walk _ jumps _ => 71 + 4 * (kMaxJumpsAllowed + 1 - jumps)
  | .probe _ d => 6 + 4 * (kNeighbourhood - d)
  | .reserve _ d => 5 + 4 * (kNeighbourhood - d)
  | .allocate _ d => 4 + 4 * (kNeighbourhood - d)
  | .refund _ d _ => 3 + 4 * (kNeighbourhood - d)
  | .link .. => 3
  | .setLoad _ | .updateLoad _ | .refuse _ => 2
  | .setCas .. | .updateCas .. | .unlock _ => 1

/-- The call waits for the lock of a chain. -/
def InsertPc.Spins (X : HashTable Tid) : InsertPc → Prop
  | .wait i _ => X.delta i = mapDeltaExtend
  | _ => False

/-- The accesses left to the move of a cell, which begins again when a client has been there. -/
def MigratePc.left (X : HashTable Tid) (i : ℕ) : MigratePc → ℕ
  | .loadHash => 117
  | .casUnused => if X.hash i = mapHashEmpty then 116 else 118
  | .loadValue _ => 116
  | .casDeleted _ => 115
  | .casMove _ v => if X.value i = v then 113 else 114
  | .insert _ _ pc => 2 + pc.left
  | .restore .. => 1

/-- The accesses left to the rest of a chunk, with those to its current cell. -/
def chunkLeft (i last n : ℕ) : ℕ := 119 * (last - (i + 1)) + n

def MigrateNext.left (X : HashTable Tid) (last : ℕ) : MigrateNext → ℕ
  | .goto i pc => chunkLeft i last (pc.left X i)
  | .done _ => 0

/-- The same for the sources of a migration from the given one on. -/
def Migration.left (sizeOf : TableId → ℕ) (m : Migration) (s : ℕ) : ℕ :=
  3 * (m.sources.length - s) + 4000 * m.units sizeOf

/-- The steps left at most to a run of a migration, and to what follows it. -/
def RunPc.left (sizeOf : TableId → ℕ) (m : Migration) : RunPc → ℕ
  | .loadOverflowed => 427
  | .leave => 428
  | .overflowEnd | .successEnd => 429
  | .setOverflowed => 430
  | .claim s _ => 429 + m.left sizeOf s
  | .check s _ => 430 + m.left sizeOf s
  | .source s | .finished s _ => 431 + m.left sizeOf s
  | .increment => 432 + m.left sizeOf 0
  | .enter => 433 + m.left sizeOf 0

def RunNext.left (sizeOf : TableId → ℕ) (m : Migration) : RunNext → ℕ
  | .goto pc => pc.left sizeOf m
  | .migrateRange s _ i last => 431 + m.left sizeOf s + chunkLeft i last 117
  | .complete _ => 426
  | .done | .crash => 0

/-- The steps left at most to a call that comes to the coordinator of a table. -/
def Outline.left (o : Outline Tid) (root : TableId) : ℕ :=
  match o.coordinator root with
  | .job j => 434 + (o.jobs j).left o.size 0
  | .ended => 421
  | .null => 0

def StartPc.left (o : Outline Tid) (root : TableId) : StartPc → ℕ
  | .set _ => 1
  | .unlock => 1 + o.left root
  | .get _ => 2 + o.left root
  | .lock _ => 3 + o.left root
  | .sample i _ => 4 + (kMaxSampleSize - i) + o.left root

def CompletePc.left (o : Outline Tid) : CompletePc → ℕ
  | .finishDelete _ => 422
  | .finishStore _ | .restartSet _ => 423
  | .finishLoad | .restartGet _ => 424
  | .endCoordinator | .restartLock _ => 425
  | .setVictim | .restartTable => 426
  | .restartUnlock root => 1 + o.left root

/-- The steps left at most to a call, before it returns, creates a table or waits. -/
def Pc.left (S : Shared Tid) : Pc → ℕ
  | .start root pc => pc.left S.outline root
  | .insert _ pc => 300 + pc.left
  | .loadCurrent => 420
  | .complete _ _ pc => pc.left S.outline
  | .run _ j pc => pc.left S.outline.size (S.jobs j)
  | .migrate _ j s T i last pc =>
    431 + (S.jobs j).left S.outline.size s + chunkLeft i last (pc.left (S.tables T) i)
  | .participate root prevJob | .await root prevJob =>
    if (S.tables root).coordinator = prevJob then 0 else S.outline.left root
  | _ => 0

section Left

variable {H : Hasher Key} {signalSafeReaders : Bool} {S S' : Shared Tid}
  {c c' : Call Key} {t : Tid} {calls : Tid → Option (Call Key)} {X : HashTable Tid}
  {pc pc' : InsertPc} {h : HashType} {v : ValueType}

theorem InsertPc.left_le (pc : InsertPc) : pc.left ≤ 110 := by
  cases pc <;> simp only [InsertPc.left, kMaxJumpsAllowed, kNeighbourhood] <;> omega

theorem searchNext_left (i d : ℕ) : (searchNext i d).left < 3 + 4 * (kNeighbourhood - d) := by
  rw [searchNext]
  split_ifs <;> simp only [InsertPc.left, kNeighbourhood] at * <;> omega

/-- A step of `insertOrUpdate` that does not wait for a lock. -/
theorem InsertPc.left_step (hspin : ¬pc.Spins X)
    (hs : (insertOrUpdateStep X h v pc).2 = .goto pc') : pc'.left < pc.left := by
  cases pc with
  | walk i jumps delta =>
    simp only [insertOrUpdateStep] at hs
    split_ifs at hs with hj <;> cases hs <;>
      simp only [InsertPc.left, kMaxJumpsAllowed] at hj ⊢ <;> omega
  | next i jumps =>
    simp only [insertOrUpdateStep] at hs
    split_ifs at hs <;> cases hs <;> simp only [InsertPc.left] <;> omega
  | lock i jumps =>
    simp only [insertOrUpdateStep] at hs
    split_ifs at hs <;> cases hs <;> simp only [InsertPc.left, kNeighbourhood] <;> omega
  | wait i jumps =>
    have hne : ¬X.delta i = mapDeltaExtend := hspin
    simp only [insertOrUpdateStep, if_neg hne] at hs
    cases hs
    simp only [InsertPc.left]
    omega
  | probe i d =>
    have hpos : 2 < 6 + 4 * (kNeighbourhood - d) := by omega
    simp only [insertOrUpdateStep] at hs
    split_ifs at hs <;> cases hs
    · exact Nat.add_lt_add_right (by decide : 5 < 6) _
    · exact hpos
    · exact (searchNext_left i d).trans (Nat.add_lt_add_right (by decide : 3 < 6) _)
  | reserve i d =>
    cases hs
    split_ifs <;> simp only [InsertPc.left] <;> omega
  | allocate i d =>
    simp only [insertOrUpdateStep] at hs
    split_ifs at hs <;> cases hs <;> simp only [InsertPc.left] <;> omega
  | refund i d bucketHash =>
    have hpos : 2 < 3 + 4 * (kNeighbourhood - d) := by omega
    cases hs
    split_ifs
    · exact hpos
    · exact searchNext_left i d
  | link i d | refuse i =>
    cases hs
    simp only [InsertPc.left]
    omega
  | updateLoad i | setLoad i =>
    simp only [insertOrUpdateStep] at hs
    split_ifs at hs
    cases hs
    simp only [InsertPc.left]
    omega
  | updateCas | setCas =>
    simp only [insertOrUpdateStep] at hs
    split_ifs at hs
  | unlock => cases hs

/-- A call that runs alone does not wait. -/
theorem InsertPc.Counts.not_spins (hc : pc.Counts X h) : ¬pc.Spins X := by
  cases pc with
  | wait => exact hc.elim
  | walk | updateLoad | updateCas | next | lock | probe | reserve | refuse | allocate | link
  | refund | setLoad | setCas | unlock => exact id

theorem nextCell_left {i last n : ℕ} (X : HashTable Tid) :
    (nextCell i last).left X last ≤ chunkLeft i last n := by
  rw [nextCell]
  split_ifs with hi
  · show 119 * (last - (i + 1 + 1)) + 117 ≤ 119 * (last - (i + 1)) + n
    omega
  · exact Nat.zero_le _

theorem MigratePc.left_casUnused {i : ℕ} (he : X.hash i = mapHashEmpty) :
    MigratePc.casUnused.left X i = 116 := if_pos he

theorem MigratePc.left_casMove (X : HashTable Tid) (i : ℕ) (g : HashType) :
    (MigratePc.casMove g (X.value i)).left X i = 113 := if_pos rfl

/-- A step of `migrateRange` that does not wait for a lock. -/
theorem MigratePc.left_step {dest T i last : ℕ} {mpc : MigratePc}
    (hfree : (S.tables T).hash i = mapHashEmpty → (S.tables T).value i = mapValEmpty ∨
      (S.tables T).value i = mapValMove)
    (hspin : ∀ g x p, mpc = .insert g x p → ¬p.Spins (S.tables dest)) :
    (migrateStep S dest T i last mpc).2.left ((migrateStep S dest T i last mpc).1.tables T) last <
      chunkLeft i last (mpc.left (S.tables T) i) := by
  have hnext : ∀ {Y : HashTable Tid}, 0 < mpc.left (S.tables T) i →
      (nextCell i last).left Y last < chunkLeft i last (mpc.left (S.tables T) i) := fun hpos =>
    (nextCell_left _).trans_lt (Nat.add_lt_add_left hpos _)
  have hgoto : ∀ {pc' : MigratePc} {Y : HashTable Tid}, pc'.left Y i < mpc.left (S.tables T) i →
      (MigrateNext.goto i pc').left Y last < chunkLeft i last (mpc.left (S.tables T) i) :=
    fun hlt => Nat.add_lt_add_left hlt _
  cases mpc with
  | loadHash =>
    simp only [migrateStep]
    split_ifs with he
    · exact hgoto ((MigratePc.left_casUnused he).trans_lt (Nat.lt_succ_self 116))
    · exact hgoto (Nat.lt_succ_self 116)
  | casUnused =>
    have hpos : 0 < MigratePc.casUnused.left (S.tables T) i := by
      rw [MigratePc.left]
      split_ifs <;> decide
    simp only [migrateStep]
    split_ifs with he hm
    · exact hnext hpos
    · exact hnext hpos
    · have hstale : MigratePc.casUnused.left (S.tables T) i = 118 :=
        if_neg fun hh => not_or.2 ⟨he, hm⟩ (hfree hh)
      exact hgoto (by rw [hstale]; exact Nat.lt_succ_self 117)
  | loadValue g =>
    simp only [migrateStep]
    split_ifs with he hm
    · exact hgoto (Nat.lt_succ_self 115)
    · exact hnext (by decide : 0 < 116)
    · exact hgoto ((MigratePc.left_casMove ..).trans_lt (by decide : 113 < 116))
  | casDeleted g =>
    simp only [migrateStep]
    split_ifs
    · exact hnext (by decide : 0 < 115)
    · exact hgoto ((MigratePc.left_casMove ..).trans_lt (by decide : 113 < 115))
  | casMove g x =>
    have hle : 113 ≤ (MigratePc.casMove g x).left (S.tables T) i := by
      rw [MigratePc.left]
      split_ifs <;> decide
    simp only [migrateStep]
    split_ifs with hx he
    · exact hnext ((by decide : 0 < 113).trans_le hle)
    · exact hgoto ((Nat.add_le_add_left (InsertPc.left_le _) 2).trans_lt hle)
    · have hstale : (MigratePc.casMove g x).left (S.tables T) i = 114 := if_neg hx
      exact hgoto (by rw [hstale, MigratePc.left_casMove]; exact Nat.lt_succ_self 113)
  | insert g x p =>
    have hpos : 0 < (MigratePc.insert g x p).left (S.tables T) i := Nat.lt_add_right _ two_pos
    simp only [migrateStep]
    split
    · rename_i p' hn
      exact hgoto (Nat.add_lt_add_left (InsertPc.left_step (hspin g x p rfl) hn) 2)
    · exact hgoto (Nat.lt_add_right _ (by decide : 1 < 2))
    · exact hnext hpos
  | restore g x => exact Nat.lt_add_left _ (Nat.zero_lt_one)

/-- A thread leaves a migration that has ended, or that others still run. -/
theorem leaves_of_done {sizeOf : TableId → ℕ} {m : Migration} {rpc : RunPc}
    (hn : (m.runStep sizeOf rpc).2 = .done) :
    rpc = .enter ∧ m.Ended ∨ rpc = .leave ∧ 3 < m.state := by
  cases rpc with
  | enter =>
    simp only [Migration.runStep] at hn
    split_ifs at hn with he
    exact .inl ⟨rfl, he⟩
  | leave =>
    simp only [Migration.runStep] at hn
    split_ifs at hn with hlt
    exact .inr ⟨rfl, hlt⟩
  | claim s T =>
    cases T with
    | none => cases hn
    | some T =>
      simp only [Migration.runStep] at hn
      split_ifs at hn
  | increment | source | check | finished | setOverflowed | overflowEnd | successEnd
  | loadOverflowed => cases hn

theorem RunInv.left_step [Fintype Tid] {sizeOf : TableId → ℕ} {m : Migration}
    {runs : Tid → Option Position} {rpc : RunPc} (h : RunInv sizeOf m runs)
    (hsize : ∀ T, kMigrationChunkSize ∣ sizeOf T) (ht : runs t = some (.run rpc)) :
    (m.runStep sizeOf rpc).2.left sizeOf (m.runStep sizeOf rpc).1 < rpc.left sizeOf m := by
  have hok := h.ok t _ ht
  cases rpc with
  | claim s T =>
    obtain ⟨-, hs, hT, hne⟩ := hok
    cases T with
    | none => exact absurd rfl hne
    | some T =>
      have hunits := Migration.units_fetchAdd hT (hsize T) (h.aligned s)
      simp only [Migration.runStep]
      split_ifs at hunits ⊢ with hle <;>
        simp only [RunNext.left, RunPc.left, Migration.left, chunkLeft, Migration.fetchAdd_length,
          kMigrationChunkSize] <;> omega
  | source s =>
    simp only [Migration.runStep]
    split_ifs <;> simp only [RunNext.left, RunPc.left] <;> omega
  | check s T =>
    simp only [Migration.runStep]
    split_ifs <;> simp only [RunNext.left, RunPc.left] <;> omega
  | enter =>
    simp only [Migration.runStep]
    split_ifs <;> simp only [RunNext.left, RunPc.left] <;> omega
  | finished s T =>
    simp only [Migration.runStep]
    split_ifs <;> simp only [RunNext.left, RunPc.left, Migration.left, Migration.units] <;> omega
  | increment =>
    simp only [Migration.runStep, RunNext.left, RunPc.left, Migration.left, Migration.units]
    omega
  | leave =>
    simp only [Migration.runStep]
    split_ifs <;> simp only [RunNext.left, RunPc.left] <;> omega
  | setOverflowed | overflowEnd | successEnd | loadOverflowed =>
    simp only [Migration.runStep, RunNext.left, RunPc.left]
    omega

/-- A table that is ended leads back to the current one. -/
theorem Outline.left_ended {o : Outline Tid} {root : TableId} (h : o.coordinator root = .ended) :
    o.left root = 421 := by
  rw [Outline.left, h]

theorem Outline.left_job {o : Outline Tid} {root : TableId} {j : JobId}
    (h : o.coordinator root = .job j) : o.left root = 434 + (o.jobs j).left o.size 0 := by
  rw [Outline.left, h]

theorem Outline.left_null {o : Outline Tid} {root : TableId} (h : o.coordinator root = .null) :
    o.left root = 0 := by
  rw [Outline.left, h]

theorem left_unlock (S : Shared Tid) (T root : TableId) :
    (S.unlock T).outline.left root = S.outline.left root := by
  rw [outline_unlock]
  rfl

theorem left_participate (S : Shared Tid) (root : TableId) (prevJob : JobCoordinator) :
    (Pc.participate root prevJob).left S ≤ S.outline.left root := by
  rw [Pc.left]
  split_ifs
  · exact Nat.zero_le _
  · exact le_rfl

variable {root : TableId} {j : JobId}

theorem left_migrationStart {o : Outline Tid} (hnull : o.coordinator root = .null) (b : Bool) :
    (migrationStart X b).left o root < 300 := by
  rw [migrationStart]
  split_ifs
  · rw [StartPc.left, Outline.left_null hnull]
    decide
  · rw [StartPc.left, Outline.left_null hnull]
    decide

/-- A step of `migrationStart` that creates no table. -/
theorem StartPc.left_step {spc : StartPc} {next : StartNext}
    (hs : startStep S t root spc = some (S', next)) (hn : S'.nTables = S.nTables) :
    (Pc.afterStart root next).left S' < spc.left S.outline root := by
  cases spc with
  | sample i n =>
    cases hs
    by_cases hm : (S.tables root).value i = mapValMove
    · rw [if_pos hm]
      exact (left_participate S root .null).trans_lt (Nat.lt_add_of_pos_left (by omega))
    · rw [if_neg hm]
      by_cases hi : i + 1 < min kMaxSampleSize (S.tables root).size
      · rw [if_pos hi]
        have hle : min kMaxSampleSize (S.tables root).size ≤ kMaxSampleSize := Nat.min_le_left ..
        exact Nat.add_lt_add_right (by omega : 4 + (kMaxSampleSize - (i + 1)) < _) _
      · rw [if_neg hi]
        exact Nat.add_lt_add_right (by omega : 3 < 4 + (kMaxSampleSize - i)) _
  | lock n =>
    obtain ⟨S₁, hlock, he⟩ := Option.map_eq_some_iff.1 hs
    cases he
    show 2 + S'.outline.left root < _
    rw [(outline_lock hlock).2]
    exact Nat.add_lt_add_right (Nat.lt_succ_self 2) _
  | get n =>
    cases hs
    split_ifs
    · exact Nat.lt_add_right _ (Nat.lt_succ_self 1)
    · exact Nat.add_lt_add_right (Nat.lt_succ_self 1) _
  | set n =>
    cases hs
    exact absurd hn (Nat.succ_ne_self S.nTables)
  | unlock =>
    cases hs
    refine (left_participate _ root .null).trans_lt ?_
    rw [left_unlock]
    exact Nat.lt_one_add_iff.2 le_rfl

/-- A step at the end of a migration that creates no table. -/
theorem CompletePc.left_step [Fintype Tid] {cpc : CompletePc} {next : CompleteNext}
    (hco : Coordination S.outline (pcsOf calls))
    (ht : pcsOf calls t = some (.complete root j cpc))
    (hended : ∀ old, cpc = .finishDelete old → S.outline.coordinator root = .ended)
    (hs : completeStep S t j cpc = some (S', next)) (hn : S'.nTables = S.nTables) :
    (Pc.afterComplete root j next).left S' < cpc.left S.outline := by
  obtain ⟨hjoin, -, hok⟩ := hco.ok t _ ht
  cases cpc with
  | setVictim | endCoordinator =>
    simp only [completeStep, Option.some.injEq] at hs
    split at hs <;> cases hs
    · exact Nat.lt_succ_self _
    · exact Nat.succ_pos _
  | finishLoad | finishStore =>
    cases hs
    exact Nat.lt_succ_self _
  | finishDelete old =>
    cases hs
    refine (left_participate _ root _).trans_lt ?_
    show S.outline.left root < 422
    rw [Outline.left_ended (hended old rfl)]
    decide
  | restartTable =>
    simp only [completeStep, Option.some.injEq, Prod.mk.injEq] at hs
    obtain ⟨rfl, rfl⟩ := hs
    split
    · exact Nat.lt_succ_self _
    · exact Nat.succ_pos _
  | restartLock T =>
    obtain ⟨S₁, -, he⟩ := Option.map_eq_some_iff.1 hs
    cases he
    exact Nat.lt_succ_self _
  | restartGet T =>
    cases hs
    obtain ⟨rfl, hc, -⟩ := hok
    have hc' : (S.tables T).coordinator = .job j := hc
    rw [if_pos hc']
    exact Nat.lt_succ_self _
  | restartSet T =>
    simp only [completeStep, Option.some.injEq] at hs
    split_ifs at hs <;> cases hs
    · exact absurd hn (Nat.succ_ne_self S.nTables)
    · exact Nat.succ_pos _
  | restartUnlock T =>
    cases hs
    obtain ⟨rfl, -⟩ := hok
    refine (left_participate _ T _).trans_lt ?_
    rw [left_unlock]
    exact Nat.lt_one_add_iff.2 le_rfl

/-- A step of `run` after which the call does not leave. -/
theorem RunPc.left_call [Fintype Tid] (hco : Coordination S.outline (pcsOf calls))
    {rpc : RunPc} (ht : pcsOf calls t = some (.run root j rpc))
    (hdone : ((S.jobs j).runStep S.outline.size rpc).2 ≠ .done) :
    (Pc.afterRun root j ((S.jobs j).runStep S.outline.size rpc).2).left
      (S.setJob j ((S.jobs j).runStep S.outline.size rpc).1) < rpc.left S.outline.size (S.jobs j) := by
  have hjoin := (hco.ok t _ ht).1
  have hR : RunInv S.outline.size (S.jobs j) _ := hco.runs j hjoin.lt
  have hrun : FkProf.ConcurrentMap.runs (pcsOf calls) j t = some (.run rpc) := by
    simp [runs_eq ht, Pc.position]
  have hlt := hR.left_step hco.layout.size hrun
  cases hnext : ((S.jobs j).runStep S.outline.size rpc).2 with
  | goto pc' =>
    rw [hnext] at hlt
    show pc'.left S.outline.size (Function.update S.jobs j _ j) < _
    rwa [Function.update_self]
  | migrateRange s T k last =>
    rw [hnext] at hlt
    show 431 + (Function.update S.jobs j _ j).left S.outline.size s + _ < _
    rwa [Function.update_self]
  | complete overflow =>
    rw [hnext] at hlt
    cases overflow <;> exact hlt
  | done => exact absurd hnext hdone
  | crash => exact (Nat.zero_le _).trans_lt hlt

/-- A step of `migrateRange`, with the chunk and the rest of the migration. -/
theorem MigratePc.left_call {s T k last : ℕ} {mpc : MigratePc}
    (hfree : (S.tables T).hash k = mapHashEmpty → (S.tables T).value k = mapValEmpty ∨
      (S.tables T).value k = mapValMove)
    (hspin : ∀ g x p, mpc = .insert g x p → ¬p.Spins (S.tables (S.jobs j).dest)) :
    (Pc.afterMigrate root j s T last (migrateStep S (S.jobs j).dest T k last mpc).2).left
      (migrateStep S (S.jobs j).dest T k last mpc).1 <
        (Pc.migrate root j s T k last mpc).left S := by
  have ho := migrateStep_outline S (S.jobs j).dest T k last mpc
  have hjobs : (migrateStep S (S.jobs j).dest T k last mpc).1.jobs = S.jobs :=
    congrArg Outline.jobs ho
  have hlt : (migrateStep S (S.jobs j).dest T k last mpc).2.left _ last < _ :=
    MigratePc.left_step hfree hspin
  cases hnext : (migrateStep S (S.jobs j).dest T k last mpc).2 with
  | goto k' pc' =>
    rw [hnext] at hlt
    rw [Pc.afterMigrate, Pc.left, ho, hjobs]
    exact Nat.add_lt_add_left hlt _
  | done rangeOverflow =>
    rw [hnext] at hlt
    cases rangeOverflow with
    | true =>
      show 430 < 431 + _ + _
      omega
    | false =>
      show RunPc.left (Shared.outline _).size (Shared.jobs _ j) (.finished s T) < _
      rw [ho, hjobs]
      exact Nat.lt_add_of_pos_right ((Nat.zero_le _).trans_lt hlt)

/-- Every step of a put that runs alone and creates no table comes nearer to its end. -/
theorem Call.left_step [Fintype Tid] (hput : c.IsPut) (hprompt : c.pc.Prompt S)
    (hphase : c.pc.Phase S.outline) (htidy : ∀ T, Tidy (S.tables T) (c.insertAt H S T))
    (hval : Values S calls) (hcells : Cells H S calls)
    (hco : Coordination S.outline (pcsOf calls)) (ht : calls t = some c)
    (hone : ∀ u, u ≠ t → calls u = none) (hs : c.step H signalSafeReaders S t = some (S', c'))
    (hn : S'.nTables = S.nTables) : c'.pc.left S' < c.pc.left S := by
  have hpc := pcsOf_eq ht rfl
  have hok := hco.ok t _ hpc
  have hknows := hcells.knows t c ht
  obtain ⟨op, doubleSize, pc⟩ := c
  cases pc with
  | loadCurrent =>
    cases hs
    obtain ⟨k, v, rfl⟩ := hput
    exact (by decide : 300 + (71 + 4 * (kMaxJumpsAllowed + 1 - 0)) < 420)
  | insert root pc =>
    rw [Call.step_insert] at hs
    cases hs
    have hcounts := (htidy root).counts ⟨H.hash op.key, op.value, pc⟩ (if_pos rfl)
    have he := insertOrUpdateStep_effect (S.tables root) (H.hash op.key) op.value pc
    have ho := outline_insert (S := S) (T := root) (H.hash op.key) op.value pc
    revert he
    cases hnext : (insertOrUpdateStep (S.tables root) (H.hash op.key) op.value pc).2 with
    | goto pc' =>
      exact fun _ => Nat.add_lt_add_left (InsertPc.left_step hcounts.not_spins hnext) 300
    | done out =>
      intro he
      cases he with
      | store | missed => exact Nat.lt_add_right _ (by decide : 0 < 300)
      | moved k hm => exact absurd hm (hval.ne_move hphase k)
      | overflow =>
        refine (left_migrationStart ?_ _).trans_le (Nat.le_add_right ..)
        rw [ho, hphase.1]
        exact hphase.2
  | find | findNext => exact absurd hput hknows.1
  | getValue | removeLoad | removeCas =>
    obtain ⟨k, v, rfl⟩ := hput
    exact nomatch hknows.1
  | start root pc =>
    obtain ⟨⟨S₁, next⟩, hstep, he⟩ := Option.map_eq_some_iff.1 hs
    cases he
    have hlt := StartPc.left_step hstep hn
    cases next <;> exact hlt
  | participate root prevJob =>
    cases hs
    obtain ⟨hne, hfresh⟩ := hprompt
    simp only [Call.participate, if_neg hne, Pc.left]
    rcases hphase with ⟨rfl, i, hi⟩ | ⟨he, -⟩
    · have hi' : (S.tables S.outline.latest).coordinator = .job i := hi
      rw [hi', Outline.left_job hi]
      exact Nat.add_lt_add_right (Nat.lt_succ_self 433) _
    · have he' : (S.tables root).coordinator = .ended := he
      rw [he', Outline.left_ended he]
      exact Nat.lt_succ_self 420
  | run root i pc =>
    rw [Call.step_run] at hs
    cases hs
    refine RunPc.left_call hco hpc fun hdone => ?_
    rcases leaves_of_done hdone with ⟨rfl, hended⟩ | ⟨rfl, hstate⟩
    · rw [Migration.Ended, show (S.jobs i).state = 0 from hprompt] at hended
      cases hended
    · exact absurd hstate (not_lt.2 (hco.state_le hone hok.1.lt))
  | migrate root i s T k last pc =>
    rw [Call.step_migrate] at hs
    cases hs
    refine MigratePc.left_call (hcells.free T k) fun g x p he => ?_
    subst he
    have hf : Call.insertAt H S ⟨op, doubleSize, .migrate root i s T k last (.insert g x p)⟩
        (S.jobs i).dest = some ⟨g, x, p⟩ := if_pos rfl
    exact ((htidy (S.jobs i).dest).counts _ hf).not_spins
  | complete root i pc =>
    obtain ⟨⟨S₁, next⟩, hstep, he⟩ := Option.map_eq_some_iff.1 hs
    cases he
    have hlt := CompletePc.left_step hco hpc (fun old he => ?_) hstep hn
    · cases next <;> exact hlt
    · subst he
      exact hphase.1
  | ret => cases hs
  | await | crashed => exact hprompt.elim

end Left

end FkProf.ConcurrentMap
