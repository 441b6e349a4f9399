import FkProf.ConcurrentMap.Alone

/-!
# A call that runs alone goes on

Nobody else has a mutex, or is ahead in a migration: a call that runs alone never waits.

* `Pc.holds?`: the mutex that a thread has;
* `Pc.Prompt`: what lets the call go on;
* `Going`: the invariant, and `Going.exists_step`: the call goes on;
* `Unhindered`: the invariant in every run without overlapping calls.
-/

namespace FkProf.ConcurrentMap

variable {Tid Key : Type*}

/-- The table whose mutex the thread has. -/
def Pc.holds? : Pc → Option TableId
  | .start root (.get _) | .start root (.set _) | .start root .unlock => some root
  | .complete _ _ (.restartGet T) | .complete _ _ (.restartSet T)
  | .complete _ _ (.restartUnlock T) => some T
  | _ => none

/-- Nobody has joined the migration of the table yet. -/
def Shared.Fresh (S : Shared Tid) (root : TableId) : Prop :=
  ∀ j, (S.tables root).coordinator = .job j → (S.jobs j).state = 0

/-- What a thread that nobody interferes with has found at the cell it is moving. -/
def MigratePc.Aims (X : HashTable Tid) (i : ℕ) : MigratePc → Prop
  | .casUnused => X.hash i = mapHashEmpty
  | .casDeleted _ => X.value i = mapValEmpty
  | .casMove _ v => X.value i = v
  | _ => True

/-- A call that runs alone finds the migration that it has started, and does not wait. -/
def Pc.Prompt (S : Shared Tid) : Pc → Prop
  | .await .. | .crashed => False
  | .participate root prevJob => (S.tables root).coordinator ≠ prevJob ∧ S.Fresh root
  | .start root .unlock | .complete root _ (.restartUnlock _) => S.Fresh root
  | .run _ j .enter => (S.jobs j).state = 0
  | .migrate _ _ _ T i _ pc => pc.Aims (S.tables T) i
  | _ => True

/-- What lets the call in progress go on, if there is one. -/
structure Going (S : Shared Tid) (x : Option (Call Key)) : Prop where
  mutex : ∀ T, (S.tables T).mutex ≠ none → ∃ c ∈ x, c.pc.holds? = some T
  prompt : ∀ c ∈ x, c.pc.Prompt S

section Steps

variable {H : Hasher Key} {signalSafeReaders : Bool} {S S' : Shared Tid}
  {c c' : Call Key} {t u : Tid} {calls : Tid → Option (Call Key)} {root T : TableId} {j : JobId}

theorem mutex_setTable {U : TableId} {X : HashTable Tid}
    (hT : ((S.setTable U X).tables T).mutex ≠ none)
    (hX : X.mutex ≠ none → (S.tables U).mutex ≠ none) : (S.tables T).mutex ≠ none := by
  rw [Shared.setTable_tables] at hT
  by_cases hU : T = U
  · subst hU
    rw [Function.update_self] at hT
    exact hX hT
  · rwa [Function.update_of_ne hU] at hT

/-- The mutex of a table is taken. -/
theorem mutex_lock (hl : S.lock root t = some S') (hT : (S'.tables T).mutex ≠ none) :
    T = root ∨ (S.tables T).mutex ≠ none := by
  rw [Shared.lock] at hl
  split_ifs at hl
  cases hl
  rw [Shared.setTable_tables] at hT
  by_cases hU : T = root
  · exact .inl hU
  · rw [Function.update_of_ne hU] at hT
    exact .inr hT

theorem mutex_unlock (hT : ((S.unlock root).tables T).mutex ≠ none) :
    T ≠ root ∧ (S.tables T).mutex ≠ none := by
  refine ⟨?_, mutex_setTable hT fun h => absurd rfl h⟩
  rintro rfl
  refine hT ?_
  show (Function.update S.tables T _ T).mutex = none
  rw [Function.update_self]

/-- A new table has a free mutex. -/
theorem mutex_begin {n : BitVec 64} {m : Migration} {co : JobCoordinator} {S₁ : Shared Tid}
    (hS : S₁.tables = S.tables)
    (hT : ((((S₁.newTable n).newJob m).setCoordinator root co).tables T).mutex ≠ none) :
    (S.tables T).mutex ≠ none := by
  have hnew : (((S₁.newTable n).newJob m).tables T).mutex ≠ none :=
    mutex_setTable (S := (S₁.newTable n).newJob m) hT fun h => h
  have htable : (Function.update S₁.tables S₁.nTables (.new n) T).mutex ≠ none := hnew
  by_cases hn : T = S₁.nTables
  · rw [hn, Function.update_self] at htable
    exact absurd rfl htable
  · rwa [Function.update_of_ne hn, hS] at htable

/-- A step takes and releases mutexes as its place in the source says. -/
theorem Call.step_mutex (hm : ∀ T, (S.tables T).mutex ≠ none → c.pc.holds? = some T)
    (hcrash : c'.pc ≠ .crashed) (hs : c.step H signalSafeReaders S t = some (S', c'))
    (hT : (S'.tables T).mutex ≠ none) : c'.pc.holds? = some T := by
  have hnone : ∀ {pc : Pc}, pc.holds? = none → c.pc = pc → (S.tables T).mutex = none :=
    fun {pc} hpc he => by
      by_contra hne
      rw [he] at hm
      exact nomatch hpc.symm.trans (hm T hne)
  obtain ⟨op, doubleSize, pc⟩ := c
  cases pc with
  | insert root pc =>
    rw [Call.step_insert] at hs
    cases hs
    refine absurd (hnone rfl rfl) (mutex_setTable hT fun h => ?_)
    rwa [insertOrUpdateStep_mutex] at h
  | migrate root j s U i last pc =>
    rw [Call.step_migrate] at hs
    cases hs
    have ho := congrArg (fun o => o.mutex T)
      (migrateStep_outline S (S.jobs j).dest U i last pc)
    exact absurd ((show _ = _ from ho).trans (hnone rfl rfl)) hT
  | run root j pc =>
    rw [Call.step_run] at hs
    cases hs
    exact absurd (hnone rfl rfl) hT
  | removeCas root i old =>
    simp only [Call.step] at hs
    split_ifs at hs <;> cases hs
    · exact absurd (hnone rfl rfl) (mutex_setTable hT fun h => h)
    · exact absurd (hnone rfl rfl) hT
  | start root pc =>
    obtain ⟨⟨S₁, next⟩, hstep, he⟩ := Option.map_eq_some_iff.1 hs
    cases he
    cases pc with
    | sample i n =>
      cases hstep
      exact absurd (hnone rfl rfl) hT
    | lock n =>
      obtain ⟨S₂, hl, he⟩ := Option.map_eq_some_iff.1 hstep
      cases he
      obtain rfl := (mutex_lock hl hT).resolve_right fun h => h (hnone rfl rfl)
      rfl
    | get n =>
      cases hstep
      cases hm T hT
      dsimp only [Call.goto]
      split_ifs <;> rfl
    | set n =>
      cases hstep
      cases hm T (mutex_begin rfl hT)
      rfl
    | unlock =>
      cases hstep
      obtain ⟨hne, hT⟩ := mutex_unlock hT
      cases hm T hT
      exact absurd rfl hne
  | complete root j pc =>
    obtain ⟨⟨S₁, next⟩, hstep, he⟩ := Option.map_eq_some_iff.1 hs
    cases he
    cases pc with
    | setVictim | endCoordinator =>
      simp only [completeStep, Option.some.injEq] at hstep
      split at hstep <;> cases hstep
      · exact absurd (hnone rfl rfl) (mutex_setTable hT fun h => h)
      · exact absurd rfl hcrash
    | finishStore old =>
      cases hstep
      refine absurd (hnone rfl rfl) ?_
      rw [Shared.publish] at hT
      split_ifs at hT <;> exact hT
    | finishLoad | finishDelete | restartTable =>
      cases hstep
      exact absurd (hnone rfl rfl) hT
    | restartLock U =>
      obtain ⟨S₂, hl, he⟩ := Option.map_eq_some_iff.1 hstep
      cases he
      obtain rfl := (mutex_lock hl hT).resolve_right fun h => h (hnone rfl rfl)
      rfl
    | restartGet U =>
      cases hstep
      cases hm T hT
      dsimp only [Call.afterComplete, Call.goto]
      split_ifs <;> rfl
    | restartSet U =>
      simp only [completeStep, Option.some.injEq] at hstep
      split_ifs at hstep <;> cases hstep
      · cases hm T (@mutex_begin _ S _ _ _ _ _ (S.setJob j (S.jobs j).handedOver) rfl hT)
        rfl
      · exact absurd rfl hcrash
    | restartUnlock U =>
      cases hstep
      obtain ⟨hne, hT⟩ := mutex_unlock hT
      cases hm T hT
      exact absurd rfl hne
  | ret | crashed => cases hs
  | loadCurrent | find | findNext | getValue | removeLoad | participate | await =>
    cases hs
    exact absurd (hnone rfl rfl) hT

/-! ## A call finds what it has left -/

/-- The migration that `migrationStart` or a restart begins. -/
theorem fresh_begin {n : BitVec 64} {m : Migration} (S₁ : Shared Tid) (hm : m.state = 0)
    (hn : S₁.nJobs = S.nJobs) :
    (((S₁.newTable n).newJob m).setCoordinator root (.job S.nJobs)).Fresh root := by
  intro i hi
  have hc : ((((S₁.newTable n).newJob m).setCoordinator root (.job S.nJobs)).tables root).coordinator =
      .job S.nJobs :=
    (congrFun (congrArg Outline.coordinator (outline_setCoordinator _)) root).trans
      (Function.update_self ..)
  obtain rfl : S.nJobs = i := JobCoordinator.job.inj (hc.symm.trans hi)
  show (Function.update S₁.jobs S₁.nJobs m S.nJobs).state = 0
  rw [hn, Function.update_self, hm]

theorem MigratePc.Aims.step {dest i last i' : ℕ} {pc pc' : MigratePc}
    (hs : (migrateStep S dest T i last pc).2 = .goto i' pc') :
    pc'.Aims ((migrateStep S dest T i last pc).1.tables T) i' := by
  have hnext : ∀ {S₁ : Shared Tid}, nextCell i last = .goto i' pc' → pc'.Aims (S₁.tables T) i' :=
    fun h => by
      rw [(nextCell_goto h).2.2]
      trivial
  cases pc with
  | loadHash =>
    cases hs
    dsimp only [migrateStep]
    split_ifs with he
    · exact he
    · trivial
  | casUnused =>
    simp only [migrateStep] at hs ⊢
    split_ifs at hs ⊢
    · exact hnext hs
    · exact hnext hs
    · cases hs
      trivial
  | loadValue g =>
    simp only [migrateStep] at hs ⊢
    split_ifs at hs with he
    · cases hs
      exact he
    · exact hnext hs
    · cases hs
      rfl
  | casDeleted g =>
    simp only [migrateStep] at hs ⊢
    split_ifs at hs ⊢
    · exact hnext hs
    · cases hs
      rfl
  | casMove g v =>
    simp only [migrateStep] at hs ⊢
    split_ifs at hs ⊢
    · exact hnext hs
    · cases hs
      trivial
    · cases hs
      rfl
  | insert g v p =>
    simp only [migrateStep] at hs
    split at hs
    · cases hs
      trivial
    · cases hs
      trivial
    · exact hnext hs
  | restore g v => cases hs

variable [Fintype Tid]

/-- A thread that runs a migration alone is the last to leave. -/
theorem Coordination.state_le (hco : Coordination S.outline (pcsOf calls))
    (hone : ∀ u, u ≠ t → calls u = none) (hj : j < S.nJobs) : (S.jobs j).state ≤ 3 := by
  classical
  have hworkers := (hco.runs j hj).census.workers
  have hsum : tally Position.worker (FkProf.ConcurrentMap.runs (pcsOf calls) j) =
      ((FkProf.ConcurrentMap.runs (pcsOf calls) j t).any Position.worker).toNat := by
    refine Finset.sum_eq_single t (fun u _ hu => ?_) fun h => absurd (Finset.mem_univ t) h
    rw [FkProf.ConcurrentMap.runs, pcsOf, hone u hu]
    rfl
  have hle : ((FkProf.ConcurrentMap.runs (pcsOf calls) j t).any Position.worker).toNat ≤ 1 :=
    Bool.toNat_le _
  rw [hsum] at hworkers
  have hdiv : (S.jobs j).state / 2 ≤ 1 := hworkers.trans_le hle
  omega

omit [Fintype Tid] in
/-- After a step of `migrationStart` the call finds the migration that it has started. -/
theorem Pc.Prompt.start {spc : StartPc} {next : StartNext}
    (hprompt : (Pc.start root spc).Prompt S) (hphase : (Pc.start root spc).Phase S.outline)
    (hval : Values S calls) (hs : startStep S t root spc = some (S', next)) :
    (Pc.afterStart root next).Prompt S' := by
  cases spc with
  | sample i n =>
    cases hs
    rw [if_neg (hval.ne_move hphase i)]
    split_ifs <;> trivial
  | lock n =>
    obtain ⟨S₂, -, he⟩ := Option.map_eq_some_iff.1 hs
    cases he
    trivial
  | get n =>
    cases hs
    have hnull : (S.tables root).coordinator = .null := hphase.1 ▸ hphase.2
    rw [if_pos hnull]
    trivial
  | set n =>
    cases hs
    exact fresh_begin S rfl rfl
  | unlock =>
    cases hs
    obtain ⟨rfl, i, hi⟩ := hphase
    have hc := coordinator_unlock S S.outline.latest
    refine ⟨fun he => ?_, fun k hk => hprompt k ((congrFun hc _).symm.trans hk)⟩
    have hnull := (congrFun hc S.outline.latest).symm.trans he
    cases hi.symm.trans hnull

/-- After a step of a run the call is still the last to leave. -/
theorem Pc.Prompt.run {rpc : RunPc} (hprompt : (Pc.run root j rpc).Prompt S)
    (hco : Coordination S.outline (pcsOf calls)) (hpc : pcsOf calls t = some (.run root j rpc))
    (hone : ∀ u, u ≠ t → calls u = none) :
    (Pc.afterRun root j ((S.jobs j).runStep S.outline.size rpc).2).Prompt S' := by
  have hjoin := (hco.ok t _ hpc).1
  have hrun : FkProf.ConcurrentMap.runs (pcsOf calls) j t = some (.run rpc) := by
    simp [runs_eq hpc, Pc.position]
  have hpos := (hco.runs j hjoin.lt).ok t _ hrun
  cases rpc with
  | enter =>
    have hstate : (S.jobs j).state = 0 := hprompt
    have hended : ¬(S.jobs j).Ended := by
      rw [Migration.Ended, hstate]
      decide
    simp only [Migration.runStep, if_neg hended]
    trivial
  | claim s T =>
    cases T with
    | none => exact absurd rfl hpos.2.2.2
    | some T =>
      simp only [Migration.runStep]
      split_ifs <;> trivial
  | leave =>
    simp only [Migration.runStep, if_neg (not_lt.2 (hco.state_le hone hjoin.lt))]
    trivial
  | loadOverflowed =>
    show (Pc.complete root j (if (S.jobs j).overflowed then .restartTable else .setVictim)).Prompt _
    split_ifs <;> trivial
  | source | check | finished =>
    simp only [Migration.runStep]
    split_ifs <;> trivial
  | increment | setOverflowed | overflowEnd | successEnd => trivial

/-- After a step of the completion the call finds the migration that follows, or the end. -/
theorem Pc.Prompt.complete {cpc : CompletePc} {next : CompleteNext}
    (hprompt : (Pc.complete root j cpc).Prompt S)
    (hphase : (Pc.complete root j cpc).Phase S.outline)
    (hco : Coordination S.outline (pcsOf calls))
    (hpc : pcsOf calls t = some (.complete root j cpc))
    (hs : completeStep S t j cpc = some (S', next)) : (Pc.afterComplete root j next).Prompt S' := by
  obtain ⟨-, hstate, hok⟩ := hco.ok t _ hpc
  cases cpc with
  | setVictim | endCoordinator =>
    simp only [completeStep, Option.some.injEq] at hs
    split at hs
    · cases hs
      trivial
    · rename_i hT
      have hroot := (hco.layout.sources j (hco.layout.job j hphase.2)).root
      cases hT.symm.trans hroot
  | finishLoad | finishStore =>
    cases hs
    trivial
  | finishDelete old =>
    cases hs
    have he : (S.tables root).coordinator = .ended := hphase.1
    exact ⟨fun hc => JobCoordinator.noConfusion (he.symm.trans hc),
      fun k hk => JobCoordinator.noConfusion (he.symm.trans hk)⟩
  | restartTable =>
    simp only [completeStep, Option.some.injEq, Prod.mk.injEq] at hs
    obtain ⟨rfl, rfl⟩ := hs
    have hT := (hco.layout.sources j (hco.layout.job j hphase.2)).root
    rw [show S.jobs j = S.outline.jobs j from rfl, hT]
    trivial
  | restartLock T =>
    obtain ⟨S₂, -, he⟩ := Option.map_eq_some_iff.1 hs
    cases he
    trivial
  | restartGet T =>
    cases hs
    obtain ⟨rfl, hc, -⟩ := hok
    have hc' : (S.tables T).coordinator = .job j := hc
    rw [if_pos hc']
    trivial
  | restartSet T =>
    simp only [completeStep, Option.some.injEq] at hs
    obtain ⟨rfl, -⟩ := hok
    split_ifs at hs with hall <;> cases hs
    · exact fresh_begin (S.setJob j (S.jobs j).handedOver) rfl rfl
    · have hsources := hco.layout.sources j (hco.layout.job j hphase.2)
      exact absurd hsources.all_isSome hall
  | restartUnlock T =>
    cases hs
    obtain ⟨rfl, -⟩ := hok
    obtain ⟨rfl, k, hk⟩ := hphase
    have hc := coordinator_unlock S S.outline.latest
    refine ⟨fun he => ?_, fun k hk => hprompt k ((congrFun hc _).symm.trans hk)⟩
    -- The migration that follows has not ended.
    have hi := (congrFun hc S.outline.latest).symm.trans he
    have hzero : (S.jobs j).state = 0 := hprompt j hi
    exact absurd (hzero.symm.trans hstate) (by decide)

/-- After a step the call finds what it has left. -/
theorem Pc.Prompt.step (hprompt : c.pc.Prompt S) (hphase : c.pc.Phase S.outline)
    (hval : Values S calls) (hco : Coordination S.outline (pcsOf calls)) (ht : calls t = some c)
    (hone : ∀ u, u ≠ t → calls u = none)
    (hs : c.step H signalSafeReaders S t = some (S', c')) : c'.pc.Prompt S' := by
  have hpc := pcsOf_eq ht rfl
  obtain ⟨op, doubleSize, pc⟩ := c
  cases pc with
  | loadCurrent =>
    cases hs
    cases op <;> trivial
  | insert root pc =>
    rw [Call.step_insert] at hs
    cases hs
    have he := insertOrUpdateStep_effect (S.tables root) (H.hash op.key) op.value pc
    revert he
    cases (insertOrUpdateStep (S.tables root) (H.hash op.key) op.value pc).2 with
    | goto pc' => exact fun _ => trivial
    | done out =>
      intro he
      cases he with
      | store | missed => trivial
      | moved k hm => exact absurd hm (hval.ne_move hphase k)
      | overflow =>
        show (Pc.start root (migrationStart _ doubleSize)).Prompt _
        rw [migrationStart]
        split_ifs <;> trivial
  | find root i =>
    cases hs
    dsimp only [Call.goto]
    split_ifs
    · trivial
    · cases op <;> trivial
    · trivial
  | findNext root i =>
    cases hs
    dsimp only [Call.goto]
    split_ifs <;> trivial
  | getValue root i =>
    cases hs
    dsimp only [Call.goto]
    rw [if_pos (hval.ne_move hphase i)]
    trivial
  | removeLoad root i =>
    cases hs
    dsimp only [Call.goto]
    rw [if_neg (hval.ne_move hphase i)]
    trivial
  | removeCas root i old =>
    simp only [Call.step] at hs
    split_ifs at hs <;> cases hs <;> trivial
  | start root pc =>
    obtain ⟨⟨S₁, next⟩, hstep, he⟩ := Option.map_eq_some_iff.1 hs
    cases he
    have hnext := hprompt.start hphase hval hstep
    cases next <;> exact hnext
  | participate root prevJob =>
    cases hs
    obtain ⟨hne, hfresh⟩ := hprompt
    simp only [Call.participate, if_neg hne]
    rcases hphase with ⟨rfl, i, hi⟩ | ⟨he, -⟩
    · have hi' : (S.tables S.outline.latest).coordinator = .job i := hi
      rw [hi']
      exact hfresh i hi
    · have he' : (S.tables root).coordinator = .ended := he
      rw [he']
      trivial
  | run root i pc =>
    rw [Call.step_run] at hs
    cases hs
    exact hprompt.run hco hpc hone
  | migrate root i s T k last pc =>
    rw [Call.step_migrate] at hs
    cases hs
    cases hn : (migrateStep S (S.jobs i).dest T k last pc).2 with
    | goto k' pc' => exact MigratePc.Aims.step hn
    | done rangeOverflow => cases rangeOverflow <;> trivial
  | complete root i pc =>
    obtain ⟨⟨S₁, next⟩, hstep, he⟩ := Option.map_eq_some_iff.1 hs
    cases he
    have hnext := hprompt.complete hphase hco hpc hstep
    cases next <;> exact hnext
  | ret => cases hs
  | await | crashed => exact hprompt.elim

omit [Fintype Tid] in
/-- A mutex is free for a call that runs alone. -/
theorem Going.exists_lock (hgo : Going S (some c)) (hc : c.pc.holds? = none) (T : TableId) :
    ∃ S', S.lock T t = some S' := by
  have hfree : (S.tables T).mutex = none := by
    by_contra hne
    obtain ⟨d, hd, hT⟩ := hgo.mutex T hne
    cases hd
    exact nomatch hc.symm.trans hT
  exact ⟨_, if_pos (by rw [hfree]; rfl)⟩

omit [Fintype Tid] in
/-- The call goes on. -/
theorem Going.exists_step (hgo : Going S (some c)) (hret : ∀ r, c.pc ≠ .ret r) (t : Tid) :
    ∃ S' c', c.step H signalSafeReaders S t = some (S', c') := by
  have hprompt := hgo.prompt c rfl
  have hlock := fun hc => hgo.exists_lock (t := t) hc
  obtain ⟨op, doubleSize, pc⟩ := c
  cases pc with
  | start root pc =>
    cases pc with
    | lock n =>
      obtain ⟨S', hS⟩ := hlock rfl root
      have hstep : startStep S t root (.lock n) = some (S', .goto (.get n)) := by
        rw [startStep, hS, Option.map_some]
      exact ⟨S', _, congrArg (Option.map _) hstep⟩
    | sample | get | set | unlock => exact ⟨_, _, rfl⟩
  | complete root j pc =>
    cases pc with
    | restartLock T =>
      obtain ⟨S', hS⟩ := hlock rfl T
      have hstep : completeStep S t j (.restartLock T) = some (S', .goto (.restartGet T)) := by
        rw [completeStep, hS, Option.map_some]
      exact ⟨S', _, congrArg (Option.map _) hstep⟩
    | setVictim | endCoordinator | finishLoad | finishStore | finishDelete | restartTable
    | restartGet | restartSet | restartUnlock => exact ⟨_, _, rfl⟩
  | removeCas root i old =>
    simp only [Call.step]
    split_ifs <;> exact ⟨_, _, rfl⟩
  | ret r => exact absurd rfl (hret r)
  | crashed => exact hprompt.elim
  | loadCurrent | insert | find | findNext | getValue | removeLoad | participate | await | run
  | migrate => exact ⟨_, _, rfl⟩

/-- A step leaves the call what it needs to go on. -/
theorem Going.step (hgo : Going S (some c)) (hphase : c.pc.Phase S.outline) (hval : Values S calls)
    (hco : Coordination S.outline (pcsOf calls)) (ht : calls t = some c)
    (hone : ∀ u, u ≠ t → calls u = none)
    (hs : c.step H signalSafeReaders S t = some (S', c')) : Going S' (some c') := by
  have hprompt := (hgo.prompt c rfl).step hphase hval hco ht hone hs
  refine ⟨fun T hT => ⟨c', rfl, Call.step_mutex (fun T hT => ?_) ?_ hs hT⟩, fun d hd => ?_⟩
  · obtain ⟨d, hd, hT⟩ := hgo.mutex T hT
    cases hd
    exact hT
  · intro hc
    rw [hc] at hprompt
    exact hprompt
  · cases hd
    exact hprompt

end Steps

/-! ## Runs -/

section Runs

variable [Fintype Tid] [DecidableEq Tid] {H : Hasher Key} {signalSafeReaders : Bool}
  {σ σ' : State Tid Key} {l : Label Tid Key} {t : Tid} {c : Call Key}

/-- The call in progress goes on, if there is one, and otherwise the next one will. -/
structure Unhindered (σ : State Tid Key) : Prop where
  idle : (∀ t, σ.calls t = none) → Going σ.shared (none : Option (Call Key))
  lone : ∀ t c, σ.calls t = some c → Going σ.shared (some c)

theorem Unhindered.next (h : Unhindered σ) (hsolo : Solo H σ) (hl : Alone σ l)
    (hn : (provider Tid H signalSafeReaders).next σ l = some σ') : Unhindered σ' := by
  have hmain : ∀ t x, (∀ u, u ≠ t → σ.calls u = none) →
      σ'.calls = Function.update σ.calls t x → Going σ'.shared x → Unhindered σ' := by
    intro t x hnone hcalls hgo
    refine ⟨fun hidle => ?_, fun u d hd => ?_⟩
    · have ht := hidle t
      rw [hcalls, Function.update_self] at ht
      rwa [ht] at hgo
    · rw [hcalls] at hd
      rwa [(eq_of_update hnone hd).2] at hgo
  cases State.transition_of_next H signalSafeReaders hn with
  | call t op hc =>
    refine hmain t _ (fun u _ => hl u) rfl ⟨fun T hT => ?_, fun d hd => ?_⟩
    · obtain ⟨_, hd, -⟩ := (h.idle hl).mutex T hT
      cases hd
    · cases hd
      trivial
  | ret t c result hc hret =>
    refine hmain t _ (fun u hu => hsolo.alone hc hu) rfl ⟨fun T hT => ?_, nofun⟩
    obtain ⟨d, hd, hT⟩ := (h.lone t c hc).mutex T hT
    cases hd
    rw [hret] at hT
    cases hT
  | step t c c' S' hc hs =>
    obtain ⟨hco, -, hval⟩ := hsolo.sound
    exact hmain t _ (fun u hu => hsolo.alone hc hu) rfl ((h.lone t c hc).step
      (hsolo.lone t c hc).phase hval hco hc (fun u hu => hsolo.alone hc hu) hs)

omit [Fintype Tid] [DecidableEq Tid] in
theorem Unhindered.initial (n : BitVec 64) : Unhindered (State.new n : State Tid Key) :=
  ⟨fun _ => ⟨fun _ hT => absurd rfl hT, nofun⟩, fun _ _ hc => nomatch hc⟩

end Runs

end FkProf.ConcurrentMap
