import FkProf.ConcurrentMap.Attended
import FkProf.Foundations.Destroy

/-!
# The map is torn down

A table that has been migrated owns the migration (`victim`), a migration owns the one
before it (`prev`), which has overflowed, and the tables that such migrations have filled
(its sources but the first): the destructors delete what is owned so, lines 133-138 and
392-398. The first source is the table in use: it belongs to the map, and when it is
migrated, to the collector.

* `Shared.owns`: what the destructors of a table and of a migration delete;
* `Accounted`: every object is owned once, by another one or by one of the roots;
* `Tree`, `Tree.next`: the invariant of the tables and the migrations;
* `destroyed_once`: when no call is in progress, deleting the tables passed to the collector
  and the current one, in any order, deletes all that was ever allocated, and nothing twice.
-/

namespace FkProf.ConcurrentMap

variable {Tid Key : Type*}

/-- A table or a migration. -/
abbrev Object := TableId ⊕ JobId

/-- What the destructor of an object deletes, in its order. -/
def Shared.owns (S : Shared Tid) : Object → List Object
  -- `~HashTable`, lines 133-138.
  | .inl T => (S.tables T).victim.toList.map .inr
  -- `~Migration`, lines 392-398.
  | .inr j => (S.jobs j).prev.toList.map .inr ++
      ((S.jobs j).sources.tail.filterMap Source.table).map .inl

/-- The objects allocated so far. -/
def Shared.objects (S : Shared Tid) : Finset Object :=
  (Finset.range S.nTables).disjSum (Finset.range S.nJobs)

/-- Every object is owned once, by another object or by the program. -/
def Accounted (S : Shared Tid) (roots : Multiset Object) : Prop :=
  S.objects.val = roots + ownedBy S.owns S.objects.val

section Balance

variable {S S' : Shared Tid} {roots : Multiset Object} {T : TableId} {j : JobId}

@[simp] theorem mem_objects_table : .inl T ∈ S.objects ↔ T < S.nTables := by
  simp [Shared.objects]

@[simp] theorem mem_objects_job : .inr j ∈ S.objects ↔ j < S.nJobs := by
  simp [Shared.objects]

theorem objects_congr (ht : S'.nTables = S.nTables) (hj : S'.nJobs = S.nJobs) :
    S'.objects = S.objects := by
  rw [Shared.objects, ht, hj, Shared.objects]

/-- What is owned is allocated, and not a root. -/
theorem Accounted.count_le (h : Accounted S roots) (x : Object) :
    roots.count x + (ownedBy S.owns S.objects.val).count x ≤ 1 := by
  have hnd := Multiset.nodup_iff_count_le_one.1 S.objects.nodup x
  rwa [h, Multiset.count_add] at hnd

theorem Accounted.mem_of_owns (h : Accounted S roots) {x y : Object} (hx : x ∈ S.objects)
    (hy : y ∈ S.owns x) : y ∈ S.objects ∧ y ∉ roots := by
  have hmem : y ∈ ownedBy S.owns S.objects.val := Multiset.mem_bind.2 ⟨x, hx, hy⟩
  refine ⟨?_, fun hr => ?_⟩
  · rw [← Finset.mem_val, h]
    exact Multiset.mem_add.2 (.inr hmem)
  · have hle := h.count_le y
    have h₁ := Multiset.one_le_count_iff_mem.2 hmem
    have h₂ := Multiset.one_le_count_iff_mem.2 hr
    omega

/-- The objects remain, and what they own. -/
theorem Accounted.congr (h : Accounted S roots) (hobj : S'.objects = S.objects)
    (ho : ∀ x ∈ S.objects, S'.owns x = S.owns x) : Accounted S' roots := by
  rw [Accounted, hobj, show ownedBy S'.owns S.objects.val = ownedBy S.owns S.objects.val from
    Multiset.bind_congr fun x hx => by rw [ho x hx]]
  exact h

/-- Two new objects, of which one takes over what another one has owned, and that one. -/
theorem Accounted.extend {us : List Object} (h : Accounted S roots)
    (ht : S'.nTables = S.nTables + 1) (hj : S'.nJobs = S.nJobs + 1)
    (htable : S'.owns (.inl S.nTables) = [])
    (howned : ownedBy S'.owns S.objects.val + us = ownedBy S.owns S.objects.val)
    {taken : Multiset Object} {roots' : Multiset Object} (hroots : roots = taken + roots')
    (hjob : (S'.owns (.inr S.nJobs) : Multiset Object) = us + taken) :
    Accounted S' (.inl S.nTables ::ₘ .inr S.nJobs ::ₘ roots') := by
  have hobj : S'.objects.val = .inl S.nTables ::ₘ .inr S.nJobs ::ₘ S.objects.val := by
    show (Multiset.range S'.nTables).map Sum.inl + (Multiset.range S'.nJobs).map Sum.inr = _
    rw [ht, hj, Multiset.range_succ, Multiset.range_succ, Multiset.map_cons, Multiset.map_cons,
      Multiset.cons_add, Multiset.add_cons]
    rfl
  have hnew : ownedBy S'.owns S'.objects.val =
      (S'.owns (.inr S.nJobs) : Multiset Object) + ownedBy S'.owns S.objects.val := by
    rw [hobj, ownedBy, Multiset.cons_bind, Multiset.cons_bind, htable, Multiset.coe_nil, zero_add]
  rw [Accounted, hnew, hobj, hjob, Multiset.cons_add, Multiset.cons_add]
  have hold : S.objects.val = taken + roots' + (ownedBy S'.owns S.objects.val + us) := by
    rw [howned, ← hroots]
    exact h
  conv_lhs => rw [hold]
  refine congrArg (fun s => Sum.inl S.nTables ::ₘ Sum.inr S.nJobs ::ₘ s) ?_
  rw [add_comm taken, add_assoc, add_comm _ (us : Multiset Object), ← add_assoc taken,
    add_comm taken]

end Balance

/-! ## What a step does to what is owned -/

section Steps

variable {H : Hasher Key} {signalSafeReaders : Bool} {S S' : Shared Tid} {c c' : Call Key} {t : Tid}
  {T U root : TableId} {j : JobId} {X : HashTable Tid}

theorem victim_setTable (hX : X.victim = (S.tables U).victim) :
    ((S.setTable U X).tables T).victim = (S.tables T).victim := by
  rw [Shared.setTable_tables]
  by_cases hT : T = U
  · rw [hT, Function.update_self, hX]
  · rw [Function.update_of_ne hT]

theorem insertOrUpdateStep_victim (h : HashType) (v : ValueType) (pc : InsertPc) :
    (insertOrUpdateStep X h v pc).1.victim = X.victim := by
  cases pc <;> simp only [insertOrUpdateStep] <;> (try split_ifs) <;> rfl

/-- A new migration comes with a new table. -/
theorem victim_begin {n : BitVec 64} {m : Migration} {co : JobCoordinator} (S₁ : Shared Tid)
    (hS : S₁.tables = S.tables) (hn : S₁.nTables = S.nTables) :
    ((((S₁.newTable n).newJob m).setCoordinator U co).tables T).victim =
      if T = S.nTables then none else (S.tables T).victim := by
  have hco : ((((S₁.newTable n).newJob m).setCoordinator U co).tables T).victim =
      (((S₁.newTable n).newJob m).tables T).victim := by
    rw [Shared.setCoordinator]
    exact victim_setTable rfl
  rw [hco]
  show ((Function.update S₁.tables S₁.nTables (.new n)) T).victim = _
  rw [hS, hn]
  split_ifs with hT
  · rw [hT, Function.update_self]
    rfl
  · rw [Function.update_of_ne hT]

/-- A table gets its migration from the last worker of it. -/
theorem Call.step_victim (hs : c.step H signalSafeReaders S t = some (S', c'))
    (hne : ∀ root j, c.pc ≠ .complete root j .setVictim) (T : TableId) :
    (S'.tables T).victim = (S.tables T).victim ∨
      T = S.nTables ∧ (S'.tables T).victim = none := by
  have hlock : ∀ {U S₁}, S.lock U t = some S₁ → (S₁.tables T).victim = (S.tables T).victim :=
    fun {U S₁} hl => by
      rw [Shared.lock] at hl
      split_ifs at hl
      cases hl
      exact victim_setTable rfl
  have hbegin : ∀ {S₁ : Shared Tid} {n m U co}, S₁.tables = S.tables → S₁.nTables = S.nTables →
      ((((S₁.newTable n).newJob m).setCoordinator U co).tables T).victim = (S.tables T).victim ∨
        T = S.nTables ∧
          ((((S₁.newTable n).newJob m).setCoordinator U co).tables T).victim = none :=
    fun {S₁ n m U co} hS hn => by
      rw [victim_begin S₁ hS hn]
      split_ifs with hT
      · exact .inr ⟨hT, rfl⟩
      · exact .inl rfl
  obtain ⟨op, doubleSize, pc⟩ := c
  cases pc with
  | insert root pc =>
    rw [Call.step_insert] at hs
    cases hs
    exact .inl (victim_setTable (insertOrUpdateStep_victim ..))
  | migrate root j s U i last pc =>
    rw [Call.step_migrate] at hs
    cases hs
    left
    cases pc with
    | insert h v pc => exact victim_setTable (insertOrUpdateStep_victim ..)
    | restore => exact victim_setTable rfl
    | casUnused | casDeleted | casMove =>
      simp only [migrateStep]
      split_ifs <;> first | rfl | exact victim_setTable rfl
    | loadHash | loadValue => rfl
  | removeCas root i old =>
    simp only [Call.step] at hs
    split_ifs at hs <;> cases hs
    · exact .inl (victim_setTable rfl)
    · exact .inl rfl
  | start root pc =>
    obtain ⟨⟨S₁, next⟩, hstep, he⟩ := Option.map_eq_some_iff.1 hs
    cases he
    cases pc with
    | lock n =>
      obtain ⟨S₂, hl, he⟩ := Option.map_eq_some_iff.1 hstep
      cases he
      exact .inl (hlock hl)
    | set n =>
      cases hstep
      exact hbegin rfl rfl
    | unlock =>
      cases hstep
      exact .inl (victim_setTable rfl)
    | sample | get =>
      cases hstep
      exact .inl rfl
  | complete root j pc =>
    obtain ⟨⟨S₁, next⟩, hstep, he⟩ := Option.map_eq_some_iff.1 hs
    cases he
    cases pc with
    | setVictim => exact absurd rfl (hne root j)
    | endCoordinator =>
      simp only [completeStep, Option.some.injEq] at hstep
      split at hstep <;> cases hstep
      · exact .inl (victim_setTable rfl)
      · exact .inl rfl
    | restartLock U =>
      obtain ⟨S₂, hl, he⟩ := Option.map_eq_some_iff.1 hstep
      cases he
      exact .inl (hlock hl)
    | restartSet U =>
      simp only [completeStep, Option.some.injEq] at hstep
      split_ifs at hstep <;> cases hstep
      · exact @hbegin (S.setJob j (S.jobs j).handedOver) _ _ _ _ rfl rfl
      · exact .inl rfl
    | finishStore old =>
      cases hstep
      left
      rw [Shared.publish]
      split_ifs <;> rfl
    | restartUnlock U =>
      cases hstep
      exact .inl (victim_setTable rfl)
    | finishDelete | finishLoad | restartTable | restartGet =>
      cases hstep
      exact .inl rfl
  | run root j pc =>
    rw [Call.step_run] at hs
    cases hs
    exact .inl rfl
  | ret | crashed => cases hs
  | loadCurrent | find | findNext | getValue | removeLoad | participate | await =>
    cases hs
    exact .inl rfl

/-- What comes before a step of the completion. -/
theorem Call.step_complete (hs : c.step H signalSafeReaders S t = some (S', c')) {pc' : CompletePc}
    (hpc : c'.pc = .complete root j pc') :
    pc' = .setVictim ∨ pc' = .restartTable ∨
      ∃ pc, c.pc = .complete root j pc ∧ completeStep S t j pc = some (S', .goto pc') := by
  obtain ⟨op, doubleSize, pc⟩ := c
  cases pc with
  | complete r i pc =>
    obtain ⟨⟨S₁, next⟩, hstep, he⟩ := Option.map_eq_some_iff.1 hs
    cases he
    cases next with
    | done | crash => cases hpc
    | goto pc₁ =>
      cases hpc
      exact .inr (.inr ⟨pc, rfl, hstep⟩)
  | run r i pc =>
    rw [Call.step_run] at hs
    cases hs
    cases hn : ((S.jobs i).runStep S.outline.size pc).2 with
    | complete overflow =>
      rw [hn] at hpc
      cases overflow with
      | false =>
        cases hpc
        exact .inl rfl
      | true =>
        cases hpc
        exact .inr (.inl rfl)
    | _ => rw [hn] at hpc; cases hpc
  | insert r pc =>
    rw [Call.step_insert] at hs
    cases hs
    cases hn : (insertOrUpdateStep (S.tables r) (H.hash op.key) op.value pc).2 with
    | goto pc => rw [hn] at hpc; cases hpc
    | done out => rw [hn] at hpc; cases out <;> cases hpc
  | migrate r i s U n last pc =>
    rw [Call.step_migrate] at hs
    cases hs
    cases hn : (migrateStep S (S.jobs i).dest U n last pc).2 <;> rw [hn] at hpc <;> cases hpc
  | start r pc =>
    obtain ⟨⟨S₁, next⟩, -, he⟩ := Option.map_eq_some_iff.1 hs
    cases he
    cases next <;> cases hpc
  | participate r prevJob | await r prevJob =>
    cases hs
    simp only [participate] at hpc
    split_ifs at hpc
    · cases hpc
    · cases hc : (S.tables r).coordinator <;> rw [hc] at hpc <;> cases hpc
  | removeCas r i old =>
    simp only [Call.step] at hs
    split_ifs at hs <;> cases hs <;> cases hpc
  | find r i =>
    cases hs
    cases op <;> dsimp only [goto] at hpc <;> split_ifs at hpc
  | findNext r i | getValue r i | removeLoad r i =>
    cases hs
    dsimp only [goto] at hpc
    split_ifs at hpc
  | loadCurrent =>
    cases hs
    cases op <;> cases hpc
  | ret | crashed => cases hs

/-- The last worker ends the migration when the table has it. -/
theorem Call.step_endCoordinator (hs : c.step H signalSafeReaders S t = some (S', c'))
    (hpc : c'.pc = .complete root j .endCoordinator) : c.pc = .complete root j .setVictim := by
  obtain he | he | ⟨pc, hc, hstep⟩ := Call.step_complete hs hpc
  · cases he
  · cases he
  · cases pc with
    | setVictim => exact hc
    | restartLock U =>
      obtain ⟨S₂, -, he⟩ := Option.map_eq_some_iff.1 hstep
      cases he
    | endCoordinator | restartTable =>
      simp only [completeStep, Option.some.injEq] at hstep
      split at hstep <;> cases hstep
    | restartGet U | restartSet U =>
      simp only [completeStep, Option.some.injEq] at hstep
      split_ifs at hstep <;> cases hstep
    | finishLoad | finishStore | finishDelete | restartUnlock => cases hstep

/-- A table is passed to the collector when the next one is in use. -/
theorem Call.step_finishDelete (hs : c.step H signalSafeReaders S t = some (S', c'))
    {old : TableId} (hpc : c'.pc = .complete root j (.finishDelete old)) :
    c.pc = .complete root j (.finishStore old) := by
  obtain he | he | ⟨pc, hc, hstep⟩ := Call.step_complete hs hpc
  · cases he
  · cases he
  · cases pc with
    | finishStore old' =>
      cases hstep
      exact hc
    | restartLock U =>
      obtain ⟨S₂, -, he⟩ := Option.map_eq_some_iff.1 hstep
      cases he
    | setVictim | endCoordinator | restartTable =>
      simp only [completeStep, Option.some.injEq] at hstep
      split at hstep <;> cases hstep
    | restartGet U | restartSet U =>
      simp only [completeStep, Option.some.injEq] at hstep
      split_ifs at hstep <;> cases hstep
    | finishLoad | finishDelete | restartUnlock => cases hstep

/-- The tables of the sources but the first. -/
theorem tail_filterMap_table {l l' : List Source} (h : l'.map Source.table = l.map Source.table) :
    l'.tail.filterMap Source.table = l.tail.filterMap Source.table := by
  have hid : ∀ l : List Source, l.tail.filterMap Source.table =
      (l.map Source.table).tail.filterMap id := fun l => by
    cases l with
    | nil => rfl
    | cons src l => exact (List.filterMap_map (f := Source.table) (g := id) (l := l)).symm
  rw [hid, hid, h]

theorem map_table_modify (l : List Source) (s : ℕ) {f : Source → Source}
    (hf : ∀ src, (f src).table = src.table) :
    (l.modify s f).map Source.table = l.map Source.table := by
  induction l generalizing s with
  | nil => rw [List.modify_nil]
  | cons src l ih =>
    cases s with
    | zero => rw [List.modify_zero_cons, List.map_cons, List.map_cons, hf]
    | succ s => rw [List.modify_succ_cons, List.map_cons, List.map_cons, ih]

/-- A run of a migration leaves what the migration owns. -/
theorem runStep_owned (m : Migration) (sizeOf : TableId → ℕ) (pc : RunPc) :
    (m.runStep sizeOf pc).1.prev = m.prev ∧
      (m.runStep sizeOf pc).1.sources.map Source.table = m.sources.map Source.table := by
  cases pc with
  | claim s T => cases T <;> exact ⟨rfl, map_table_modify _ _ fun _ => rfl⟩
  | _ => exact ⟨rfl, rfl⟩

/-- The objects own what they have owned. -/
theorem owns_eq (hv : ∀ T < S.nTables, (S'.tables T).victim = (S.tables T).victim)
    (hj : ∀ j < S.nJobs, (S'.jobs j).prev = (S.jobs j).prev ∧
      (S'.jobs j).sources.map Source.table = (S.jobs j).sources.map Source.table) :
    ∀ x ∈ S.objects, S'.owns x = S.owns x := by
  rintro (T | j) hx
  · rw [Shared.owns, hv T (mem_objects_table.1 hx), Shared.owns]
  · obtain ⟨hp, ht⟩ := hj j (mem_objects_job.1 hx)
    rw [Shared.owns, hp, tail_filterMap_table ht, Shared.owns]

/-- A table gets its migration. -/
theorem Accounted.setVictim {roots : Multiset Object} (h : Accounted S (.inr j ::ₘ roots))
    (hT : T < S.nTables) (hv : (S.tables T).victim = none) :
    Accounted (S.setTable T { S.tables T with victim := some j }) roots := by
  have hset : (S.setTable T { S.tables T with victim := some j }).owns (.inl T) = [.inr j] := by
    rw [Shared.owns, Shared.setTable_tables, Function.update_self]
    rfl
  have hold : S.owns (.inl T) = [] := by
    rw [Shared.owns, hv]
    rfl
  have hupdate : ownedBy (S.setTable T { S.tables T with victim := some j }).owns S.objects.val +
      S.owns (.inl T) = ownedBy S.owns S.objects.val +
        (S.setTable T { S.tables T with victim := some j }).owns (.inl T) :=
    ownedBy_update (mem_objects_table.2 hT) (by
      rintro (U | i) - hne
      · rw [Shared.owns, Shared.setTable_tables, Function.update_of_ne fun he => hne (by rw [he]),
          Shared.owns]
      · rfl)
  rw [hold, hset, Multiset.coe_nil, add_zero, Multiset.coe_singleton] at hupdate
  show S.objects.val = roots + ownedBy _ S.objects.val
  rw [hupdate, ← add_assoc, add_comm, Multiset.singleton_add, ← Multiset.cons_add]
  exact h

end Steps

/-! ## The tables and the migrations -/

section Invariant

variable [Fintype Tid] [DecidableEq Tid] {H : Hasher Key} {signalSafeReaders : Bool}
  {S S' : Shared Tid} {c c' : Call Key} {t : Tid} {j : JobId} {calls : Tid → Option (Call Key)}

/-- The tables that the map and the collector own. -/
def Shared.used (S : Shared Tid) : Multiset Object :=
  .inl S.latest ::ₘ ((S.retired.map .inl : List Object) : Multiset Object)

/-- What belongs to nobody yet: the destination of the migration under way, and the migration
    itself, until the table has it as its victim. -/
inductive Phase (S : Shared Tid) (calls : Tid → Option (Call Key)) : Multiset Object → Prop
  | idle : (∀ j, ¬S.outline.Open j) → (S.tables S.latest).victim = none → Phase S calls 0
  | moving (j : JobId) : S.outline.Open j → S.outline.coordinator S.latest = .job j →
      (S.tables S.latest).victim = none →
      (∀ t c root i, calls t = some c → c.pc ≠ .complete root i .endCoordinator) →
      Phase S calls {.inr j, .inl (S.jobs j).dest}
  | ending (j : JobId) : S.outline.Open j → (S.tables S.latest).victim = some j →
      (S.outline.coordinator S.latest = .ended ∨
        ∃ t c, calls t = some c ∧ c.pc = .complete S.latest j .endCoordinator) →
      Phase S calls {.inl (S.jobs j).dest}

/-- The invariant of the tables and the migrations. -/
structure Tree (S : Shared Tid) (calls : Tid → Option (Call Key)) : Prop where
  /-- A table gets a migration when it has been in use. -/
  unpublished : ∀ T, ¬S.outline.Published T → (S.tables T).victim = none
  prev_lt : ∀ j p, (S.jobs j).prev = some p → p < j
  fresh : ∀ j, S.nJobs ≤ j → (S.jobs j).sources = []
  balance : ∃ pending, Phase S calls pending ∧ Accounted S (S.used + pending)

omit [Fintype Tid] in
/-- A step that changes neither the tables and migrations there are, nor what they own. -/
theorem Tree.keep {x : Option (Call Key)} (h : Tree S calls) (ho : S'.latest = S.latest)
    (hr : S'.retired = S.retired) (ht : S'.nTables = S.nTables) (hj : S'.nJobs = S.nJobs)
    (hc : S'.outline.coordinator S.latest = S.outline.coordinator S.latest)
    (hv : ∀ T, (S'.tables T).victim = (S.tables T).victim ∨
      T = S.nTables ∧ (S'.tables T).victim = none)
    (hlt : S.latest < S.nTables)
    (hjobs : ∀ j, (S'.jobs j).prev = (S.jobs j).prev ∧ (S'.jobs j).dest = (S.jobs j).dest ∧
      (S'.jobs j).sources.map Source.table = (S.jobs j).sources.map Source.table)
    (hx : ∀ d ∈ x, ∀ root i, d.pc ≠ .complete root i .endCoordinator)
    (hold : ∀ d ∈ calls t, ∀ root i, d.pc ≠ .complete root i .endCoordinator) :
    Tree S' (Function.update calls t x) := by
  have hpub : ∀ T, S'.outline.Published T ↔ S.outline.Published T := fun T => by
    simp only [Outline.Published, Shared.outline, ho, hr]
  have hopen : ∀ {i}, S.outline.Open i → S'.outline.Open i := fun {i} hi => by
    refine ⟨hi.1.trans hj.symm, fun hp => hi.2 ?_⟩
    have hd : (S'.outline.jobs i).dest = (S.outline.jobs i).dest := (hjobs i).2.1
    rwa [hpub, hd] at hp
  have hopen' : ∀ {i}, S'.outline.Open i → S.outline.Open i := fun {i} hi => by
    refine ⟨hi.1.trans hj, fun hp => hi.2 ?_⟩
    have hd : (S'.outline.jobs i).dest = (S.outline.jobs i).dest := (hjobs i).2.1
    rwa [hpub, hd]
  have hlatest : (S'.tables S.latest).victim = (S.tables S.latest).victim :=
    (hv S.latest).resolve_right fun hT => absurd hT.1 hlt.ne
  obtain ⟨pending, hphase, hbal⟩ := h.balance
  refine ⟨fun T hT => ?_, fun i p hp => h.prev_lt i p ((hjobs i).1 ▸ hp), fun i hi => ?_, pending,
    ?_, ?_⟩
  · rcases hv T with he | he
    · rw [he]
      exact h.unpublished T fun hT' => hT ((hpub T).2 hT')
    · exact he.2
  · have hs := (hjobs i).2.2
    rw [h.fresh i (hj ▸ hi)] at hs
    exact List.map_eq_nil_iff.1 hs
  · cases hphase with
    | idle hno hvic =>
      exact .idle (fun i hi => hno i (hopen' hi)) (by rw [ho, hlatest, hvic])
    | moving j hj hlead hvic hnone =>
      rw [← (hjobs j).2.1]
      refine .moving j (hopen hj) (by rw [ho, hc, hlead]) (by rw [ho, hlatest, hvic])
        fun u d root i hd => ?_
      rcases ThreadSum.update_eq_some_iff.1 hd with ⟨-, he⟩ | ⟨-, hd⟩
      · exact hx d he root i
      · exact hnone u d root i hd
    | ending j hj hvic hor =>
      rw [← (hjobs j).2.1]
      refine .ending j (hopen hj) (by rw [ho, hlatest, hvic]) ?_
      rw [ho, hc]
      refine hor.imp_right fun hend => ?_
      obtain ⟨u, d, hd, hpc⟩ := hend
      refine ⟨u, d, (Function.update_of_ne ?_ ..).trans hd, hpc⟩
      rintro rfl
      exact hold d hd _ _ hpc
  · have hused : S'.used = S.used := by rw [Shared.used, ho, hr, Shared.used]
    rw [hused]
    refine hbal.congr (objects_congr ht hj) (owns_eq (fun T hT => ?_) fun i _ =>
      ⟨(hjobs i).1, (hjobs i).2.2⟩)
    exact (hv T).resolve_right fun he => absurd he.1 hT.ne

/-- A migration to a new table begins, with what the one before it has owned. -/
theorem Tree.begin {n : BitVec 64} {m : Migration} {pending : Multiset Object} (h : Tree S calls)
    (jobs : JobId → Migration) (us : List Object) (hco : Coordination S.outline (pcsOf calls))
    (hbal : Accounted S (S.used + pending)) (hvic : (S.tables S.latest).victim = none)
    (hprev : ∀ i < S.nJobs, (jobs i).prev = (S.jobs i).prev)
    (hfresh : ∀ i, S.nJobs ≤ i → jobs i = S.jobs i)
    (hd : m.dest = S.nTables) (hm : ∀ p, m.prev = some p → p < S.nJobs)
    (hS : S' = ((({ S with jobs := jobs } : Shared Tid).newTable n).newJob m).setCoordinator
      S.latest (.job S.nJobs))
    (howned : ownedBy S'.owns S.objects.val + us = ownedBy S.owns S.objects.val)
    (hjob : (S'.owns (.inr S.nJobs) : Multiset Object) = us + pending)
    (hnone : ∀ u d root i, Function.update calls t (some c') u = some d →
      d.pc ≠ .complete root i .endCoordinator) : Tree S' (Function.update calls t (some c')) := by
  have hlatest : S.latest < S.nTables := hco.layout.published_lt _ (.inl rfl)
  have ho : S'.outline = (({ S.outline.newTable (allocatedSize n) with jobs := jobs }).newJob
      m).setCoordinator S.latest (.job S.nJobs) := by
    rw [hS, outline_setCoordinator, outline_newJob, outline_newTable]
    rfl
  have hjobs : S'.jobs = Function.update jobs S.nJobs m := congrArg Outline.jobs ho
  have hvictim : ∀ T, (S'.tables T).victim = if T = S.nTables then none else (S.tables T).victim :=
    fun T => by
      rw [hS]
      exact victim_begin { S with jobs := jobs } rfl rfl
  have hn : S'.nTables = S.nTables + 1 := congrArg Outline.nTables ho
  have hnj : S'.nJobs = S.nJobs + 1 := congrArg Outline.nJobs ho
  refine ⟨fun T hT => ?_, fun i p hp => ?_, fun i hi => ?_, _, .moving S.nJobs ?_ ?_ ?_ hnone, ?_⟩
  · rw [hvictim]
    split_ifs
    · rfl
    · refine h.unpublished T fun hT' => hT ?_
      rw [ho]
      exact hT'
  · rw [hjobs] at hp
    by_cases hi : i = S.nJobs
    · rw [hi, Function.update_self] at hp
      exact hi ▸ hm p hp
    · rw [Function.update_of_ne hi] at hp
      refine h.prev_lt i p ?_
      rcases lt_or_ge i S.nJobs with hlt | hge
      · rwa [← hprev i hlt]
      · rwa [← hfresh i hge]
  · rw [hnj] at hi
    have hle : S.nJobs ≤ i := Nat.le_of_succ_le hi
    have hne : i ≠ S.nJobs := (Nat.lt_of_succ_le hi).ne'
    rw [hjobs, Function.update_of_ne hne, hfresh i hle]
    exact h.fresh i hle
  · rw [ho]
    exact Outline.begin_isOpen hco.layout hd
  · rw [show S'.latest = S.latest from congrArg Outline.latest ho, ho]
    exact Function.update_self ..
  · rw [hvictim, show S'.latest = S.latest from congrArg Outline.latest ho, if_neg hlatest.ne, hvic]
  · have hext := hbal.extend hn hnj (by rw [Shared.owns, hvictim, if_pos rfl]; rfl) howned
      (add_comm S.used pending) hjob
    have hdest : (S'.jobs S.nJobs).dest = S.nTables := by rw [hjobs, Function.update_self, hd]
    have hused : S'.used = S.used := by
      rw [Shared.used, show S'.latest = S.latest from congrArg Outline.latest ho,
        show S'.retired = S.retired from congrArg Outline.retired ho, Shared.used]
    rw [hdest, hused, add_comm, Multiset.insert_eq_cons, Multiset.cons_add, Multiset.singleton_add,
      Multiset.cons_swap]
    exact hext

omit [Fintype Tid] [DecidableEq Tid] in
/-- What the tables own, and the migrations but one. -/
theorem owns_begin {jobs : JobId → Migration} {n : BitVec 64} {m : Migration} {x : Object}
    (hx : x ∈ S.objects) (hj : ∀ i, x = .inr i → jobs i = S.jobs i) :
    Shared.owns (((({ S with jobs := jobs } : Shared Tid).newTable n).newJob m).setCoordinator
      S.latest (.job S.nJobs)) x = S.owns x := by
  rcases x with T | i
  · rw [Shared.owns, victim_begin (S := S) { S with jobs := jobs } rfl rfl,
      if_neg (mem_objects_table.1 hx).ne, Shared.owns]
  · have hi : (((({ S with jobs := jobs } : Shared Tid).newTable n).newJob m).setCoordinator
        S.latest (.job S.nJobs)).jobs i = S.jobs i :=
      (Function.update_of_ne (mem_objects_job.1 hx).ne ..).trans (hj i rfl)
    rw [Shared.owns, hi, Shared.owns]

omit [Fintype Tid] [DecidableEq Tid] in
/-- What the table and the migration behind it say. -/
theorem Outline.Layout.lead {o : Outline Tid} (h : o.Layout) {root : TableId}
    (hp : o.Published root) (hc : o.coordinator root = .job j) : root = o.latest ∧ o.Open j := by
  obtain rfl := h.root_eq hp (by rw [hc]; exact JobCoordinator.noConfusion)
  exact ⟨rfl, h.job j hc⟩

omit [DecidableEq Tid] in
/-- The last worker of a migration is alone with it. -/
theorem Coordination.ender_eq (h : Coordination S.outline (pcsOf calls)) (ht : calls t = some c)
    (hpc : c.pc.Completes j) {u : Tid} {d : Call Key} (hd : calls u = some d) {root : TableId}
    (he : d.pc = .complete root j .endCoordinator) : u = t :=
  h.completer u t d.pc c.pc j (pcsOf_eq hd rfl) (pcsOf_eq ht rfl) (by
    rw [he, Pc.Completes, Pc.position, if_pos rfl]
    rfl) hpc

omit [DecidableEq Tid] in
/-- A migration is under way for as long as it has the table. -/
theorem Tree.moving (h : Tree S calls) (hco : Coordination S.outline (pcsOf calls))
    (ht : calls t = some c) (hc : S.outline.coordinator S.latest = .job j)
    (hpc : c.pc.Completes j) (hne : ∀ root, c.pc ≠ .complete root j .endCoordinator) :
    (S.tables S.latest).victim = none ∧
      (∀ u d root i, calls u = some d → d.pc ≠ .complete root i .endCoordinator) ∧
      Accounted S (S.used + {.inr j, .inl (S.jobs j).dest}) := by
  obtain ⟨pending, hphase, hbal⟩ := h.balance
  have hopen : S.outline.Open j := hco.layout.job j hc
  cases hphase with
  | idle hno => exact absurd hopen (hno j)
  | moving i hi hlead hvic hnone =>
    obtain rfl : i = j := by
      rw [hlead] at hc
      cases hc
      rfl
    exact ⟨hvic, hnone, hbal⟩
  | ending i hi hvic hor =>
    obtain rfl : i = j := Nat.succ_injective (hi.1.trans hopen.1.symm)
    rcases hor with he | ⟨u, d, hd, he⟩
    · rw [he] at hc
      cases hc
    · obtain rfl := hco.ender_eq ht hpc hd he
      rw [ht] at hd
      cases hd
      exact absurd he (hne _)

/-- The table gets its migration. -/
theorem Tree.setVictim (h : Tree S calls) (hco : Coordination S.outline (pcsOf calls))
    (ht : calls t = some c) {root : TableId} (hpc : c.pc = .complete root j .setVictim)
    (hs : c.step H signalSafeReaders S t = some (S', c')) :
    Tree S' (Function.update calls t (some c')) := by
  have hok := hco.ok t _ (pcsOf_eq ht hpc)
  obtain ⟨hjoin, -, hc⟩ := hok
  obtain ⟨rfl, hopen⟩ := hco.layout.lead hjoin.published hc
  have hlatest : S.latest < S.nTables := hco.layout.published_lt _ (.inl rfl)
  obtain ⟨hvic, -, hbal⟩ := h.moving hco ht hc (by
    rw [hpc, Pc.Completes, Pc.position, if_pos rfl]
    rfl) fun root he => by
      rw [hpc] at he
      cases he
  obtain ⟨op, doubleSize, pc⟩ := c
  cases hpc
  have hT : (S.jobs j).table 0 = some S.latest := (hco.layout.sources j hopen).root
  simp only [Call.step, completeStep, hT, Option.map_some, Option.some.injEq,
    Prod.mk.injEq] at hs
  obtain ⟨rfl, rfl⟩ := hs
  have ho : (S.setTable S.latest { S.tables S.latest with victim := some j }).outline =
      S.outline := outline_victim _
  refine ⟨fun T hT => ?_, h.prev_lt, h.fresh, _, .ending j ?_ ?_ ?_, ?_⟩
  · rw [ho] at hT
    have hne : T ≠ S.latest := fun he => hT (.inl he)
    rw [Shared.setTable_tables, Function.update_of_ne hne]
    exact h.unpublished T hT
  · rw [ho]
    exact hopen
  · rw [Shared.setTable_tables]
    exact congrArg HashTable.victim (Function.update_self S.latest _ S.tables)
  · exact .inr ⟨t, _, Function.update_self .., rfl⟩
  · refine Accounted.setVictim ?_ hlatest hvic
    rw [← Multiset.add_cons]
    exact hbal

/-- The table has no more coordinator. -/
theorem Tree.endCoordinator (h : Tree S calls) (hco : Coordination S.outline (pcsOf calls))
    (ht : calls t = some c) {root : TableId} (hpc : c.pc = .complete root j .endCoordinator)
    (hs : c.step H signalSafeReaders S t = some (S', c')) :
    Tree S' (Function.update calls t (some c')) := by
  have hok := hco.ok t _ (pcsOf_eq ht hpc)
  obtain ⟨hjoin, -, hc⟩ := hok
  obtain ⟨rfl, hopen⟩ := hco.layout.lead hjoin.published hc
  obtain ⟨pending, hphase, hbal⟩ := h.balance
  have hvic : (S.tables S.latest).victim = some j ∧ pending = {.inl (S.jobs j).dest} := by
    cases hphase with
    | idle hno => exact absurd hopen (hno j)
    | moving i _ _ _ hnone => exact absurd hpc (hnone t c _ j ht)
    | ending i hi hvic =>
      obtain rfl : i = j := Nat.succ_injective (hi.1.trans hopen.1.symm)
      exact ⟨hvic, rfl⟩
  obtain ⟨hvic, rfl⟩ := hvic
  obtain ⟨op, doubleSize, pc⟩ := c
  cases hpc
  have hT : (S.jobs j).table 0 = some S.latest := (hco.layout.sources j hopen).root
  simp only [Call.step, completeStep, hT, Option.map_some, Option.some.injEq,
    Prod.mk.injEq] at hs
  obtain ⟨rfl, rfl⟩ := hs
  have hv : ∀ T, ((S.setCoordinator S.latest .ended).tables T).victim = (S.tables T).victim :=
    fun T => victim_setTable rfl
  have ho := outline_setCoordinator (S := S) (T := S.latest) (c := .ended)
  refine ⟨fun T hT => ?_, h.prev_lt, h.fresh, _, .ending j ?_ ((hv _).trans hvic) (.inl ?_), ?_⟩
  · rw [ho] at hT
    rw [hv]
    exact h.unpublished T hT
  · rw [ho]
    exact hopen
  · rw [ho]
    exact Function.update_self ..
  · exact hbal.congr rfl (owns_eq (fun T _ => hv T) fun i _ => ⟨rfl, rfl⟩)

/-- The destination of a migration comes into use. -/
theorem Tree.publish (h : Tree S calls) (hco : Coordination S.outline (pcsOf calls))
    (ht : calls t = some c) {root old : TableId} (hpc : c.pc = .complete root j (.finishStore old))
    (hS : S' = S.publish (S.jobs j).dest) : Tree S' (Function.update calls t (some c')) := by
  have hok := hco.ok t _ (pcsOf_eq ht hpc)
  obtain ⟨-, -, hended, rfl, hopen, -⟩ := hok
  have hdest : ¬S.outline.Published (S.jobs j).dest := hopen.2
  obtain ⟨pending, hphase, hbal⟩ := h.balance
  obtain rfl : pending = {.inl (S.jobs j).dest} := by
    cases hphase with
    | idle hno => exact absurd hopen (hno j)
    | moving i _ hlead => cases hended.symm.trans hlead
    | ending i hi =>
      obtain rfl : i = j := Nat.succ_injective (hi.1.trans hopen.1.symm)
      rfl
  have ho : S'.outline = S.outline.publish (S.jobs j).dest := hS ▸ outline_publish hdest
  have htables : S'.tables = S.tables := by
    rw [hS, Shared.publish]
    split_ifs <;> rfl
  have hjobs : S'.jobs = S.jobs := congrArg Outline.jobs ho
  have hlatest : S'.latest = (S.jobs j).dest := congrArg Outline.latest ho
  have hretired : S'.retired = S.latest :: S.retired := congrArg Outline.retired ho
  refine ⟨fun T hT => ?_, fun i p hp => h.prev_lt i p (hjobs ▸ hp), fun i hi => ?_, _,
    .idle (fun i hi => ?_) ?_, ?_⟩
  · rw [htables]
    refine h.unpublished T fun hp => hT ?_
    rw [ho]
    exact .inr (List.mem_cons.2 hp)
  · rw [hjobs]
    rw [show S'.nJobs = S.nJobs from congrArg Outline.nJobs ho] at hi
    exact h.fresh i hi
  · rw [ho] at hi
    exact Outline.not_open_publish hopen hi
  · rw [hlatest, htables]
    exact h.unpublished _ hdest
  · have hused : S'.used + 0 = S.used + {.inl (S.jobs j).dest} := by
      rw [add_zero, Shared.used, hlatest, hretired, List.map_cons, ← Multiset.cons_coe, add_comm,
        Multiset.singleton_add, Shared.used]
    rw [hused]
    exact hbal.congr (objects_congr (congrArg Outline.nTables ho) (congrArg Outline.nJobs ho))
      (owns_eq (fun T _ => by rw [htables]) fun i _ => by rw [hjobs]; exact ⟨rfl, rfl⟩)

/-- The first migration of a table begins. -/
theorem Tree.start (h : Tree S calls) (hco : Coordination S.outline (pcsOf calls))
    (ht : calls t = some c) {root : TableId} {n : BitVec 64} (hpc : c.pc = .start root (.set n))
    (hs : c.step H signalSafeReaders S t = some (S', c'))
    (hS : S' = ((S.newTable n).newJob (.first S root)).setCoordinator root (.job S.nJobs)) :
    Tree S' (Function.update calls t (some c')) := by
  have hok := hco.ok t _ (pcsOf_eq ht hpc)
  obtain ⟨hroot, -, hc⟩ := hok
  obtain rfl := hco.layout.root_eq hroot (by rw [hc]; exact JobCoordinator.noConfusion)
  have hno := hco.layout.null hc
  obtain ⟨pending, hphase, hbal⟩ := h.balance
  have hidle : (S.tables S.latest).victim = none ∧ pending = 0 := by
    cases hphase with
    | idle _ hvic => exact ⟨hvic, rfl⟩
    | moving i hi => exact absurd hi (hno i)
    | ending i hi => exact absurd hi (hno i)
  obtain ⟨hvic, rfl⟩ := hidle
  refine h.begin S.jobs [] hco hbal hvic (fun _ _ => rfl) (fun _ _ => rfl)
    (m := .first S S.latest) rfl (fun p hp => ?_) hS ?_ ?_ fun u d root i hd he => ?_
  · cases hp
  · rw [Multiset.coe_nil, add_zero, hS]
    exact Multiset.bind_congr fun x hx => congrArg _ (owns_begin hx fun _ _ => rfl)
  · have hjob : S'.jobs S.nJobs = .first S S.latest := by
      rw [hS]
      exact Function.update_self ..
    rw [Shared.owns, hjob]
    rfl
  · rcases ThreadSum.update_eq_some_iff.1 hd with ⟨-, hd⟩ | ⟨-, hd⟩
    · cases hd
      have hstep := Call.step_endCoordinator hs he
      rw [hpc] at hstep
      cases hstep
    · have hok := hco.ok u _ (pcsOf_eq hd he)
      obtain ⟨hjoin, -, hlead⟩ := hok
      obtain ⟨rfl, -⟩ := hco.layout.lead hjoin.published hlead
      cases hc.symm.trans hlead

/-- A migration begins that follows one that has overflowed. -/
theorem Tree.restart (h : Tree S calls) (hco : Coordination S.outline (pcsOf calls))
    (ht : calls t = some c) {root T : TableId} (hpc : c.pc = .complete root j (.restartSet T))
    (hs : c.step H signalSafeReaders S t = some (S', c')) (hS : S' = S.restart j T) :
    Tree S' (Function.update calls t (some c')) := by
  have hok := hco.ok t _ (pcsOf_eq ht hpc)
  obtain ⟨hjoin, -, rfl, hc, -⟩ := hok
  obtain ⟨rfl, hopen⟩ := hco.layout.lead hjoin.published hc
  have hcompletes : c.pc.Completes j := by
    rw [hpc, Pc.Completes, Pc.position, if_pos rfl]
    rfl
  obtain ⟨hvic, hnone, hbal⟩ := h.moving hco ht hc hcompletes fun root he => by
    rw [hpc] at he
    cases he
  have hlt : j < S.nJobs := hopen.lt
  refine h.begin (Function.update S.jobs j (S.jobs j).handedOver)
    (((S.jobs j).sources.tail.filterMap Source.table).map .inl) hco hbal hvic
    (fun i hi => ?_) (fun i hi => ?_) (m := (S.jobs j).restarted (fun T => (S.tables T).size)
      S.nTables j) rfl (fun p hp => ?_) hS ?_ ?_ fun u d root i hd he => ?_
  · by_cases hij : i = j
    · rw [hij, Function.update_self]
      rfl
    · rw [Function.update_of_ne hij]
  · exact Function.update_of_ne (hlt.trans_le hi).ne' ..
  · cases hp
    exact hlt
  · have hupdate : ownedBy S'.owns S.objects.val + S.owns (.inr j) =
        ownedBy S.owns S.objects.val + S'.owns (.inr j) :=
      ownedBy_update (mem_objects_job.2 hlt) fun x hx hne => by
        rw [hS]
        exact owns_begin hx fun i hi => Function.update_of_ne (fun hij => hne (by rw [hi, hij])) ..
    have hold : S'.owns (.inr j) = (S.jobs j).prev.toList.map .inr := by
      have hj : S'.jobs j = (S.jobs j).handedOver := by
        rw [hS]
        exact (Function.update_of_ne hlt.ne ..).trans (Function.update_self ..)
      have hnil : (S.jobs j).handedOver.sources.tail.filterMap Source.table = [] := by
        rw [Migration.handedOver, ← List.map_tail, List.filterMap_map]
        exact List.filterMap_eq_nil_iff.2 fun _ _ => rfl
      rw [Shared.owns, hj, hnil, List.map_nil, List.append_nil]
      rfl
    rw [hold, Shared.owns, ← Multiset.coe_add, ← add_assoc, add_right_comm] at hupdate
    exact add_right_cancel hupdate
  · have hjob : S'.jobs S.nJobs =
        (S.jobs j).restarted (fun T => (S.tables T).size) S.nTables j := by
      rw [hS]
      exact Function.update_self ..
    have hsources : (S.jobs j).sources ≠ [] := fun hnil => by
      have hroot := (hco.layout.sources j hopen).root
      rw [Migration.table, show (S.outline.jobs j).sources = [] from hnil] at hroot
      cases hroot
    rw [Shared.owns, hjob, Migration.restarted, List.tail_append_of_ne_nil (by simpa using hsources),
      ← List.map_tail, List.filterMap_append, List.filterMap_map, List.map_append]
    show ((.inr j :: (((S.jobs j).sources.tail.filterMap Source.table).map .inl ++
      [.inl (S.jobs j).dest]) : List Object) : Multiset Object) = _
    rw [← Multiset.cons_coe, ← Multiset.coe_add, Multiset.coe_singleton, Multiset.insert_eq_cons,
      Multiset.add_cons]
  · rcases ThreadSum.update_eq_some_iff.1 hd with ⟨-, hd⟩ | ⟨-, hd⟩
    · cases hd
      have hstep := Call.step_endCoordinator hs he
      rw [hpc] at hstep
      cases hstep
    · exact hnone u d root i hd he

theorem Tree.callStep (h : Tree S calls) (hco : Coordination S.outline (pcsOf calls))
    (ht : calls t = some c) (hs : c.step H signalSafeReaders S t = some (S', c')) :
    Tree S' (Function.update calls t (some c')) := by
  by_cases hset : ∃ root j, c.pc = .complete root j .setVictim
  · obtain ⟨root, j, hpc⟩ := hset
    exact h.setVictim hco ht hpc hs
  by_cases hend : ∃ root j, c.pc = .complete root j .endCoordinator
  · obtain ⟨root, j, hpc⟩ := hend
    exact h.endCoordinator hco ht hpc hs
  have hv := Call.step_victim hs fun root j hpc => hset ⟨root, j, hpc⟩
  have hx : ∀ d ∈ some c', ∀ root i, d.pc ≠ .complete root i .endCoordinator := by
    rintro d hd root i hpc
    cases hd
    exact hset ⟨root, i, Call.step_endCoordinator hs hpc⟩
  have hold : ∀ d ∈ calls t, ∀ root i, d.pc ≠ .complete root i .endCoordinator := by
    rintro d hd root i hpc
    cases ht.symm.trans hd
    exact hend ⟨root, i, hpc⟩
  have hlatest : S.latest < S.nTables := hco.layout.published_lt _ (.inl rfl)
  cases Call.step_changes hs with
  | cells x ho hsched =>
    have hjobs : S'.jobs = S.jobs := congrArg Outline.jobs ho
    refine h.keep (congrArg Outline.latest ho) (congrArg Outline.retired ho)
      (congrArg Outline.nTables ho) (congrArg Outline.nJobs ho) (by rw [ho]) hv hlatest
      (fun i => ?_) hx hold
    rw [hjobs]
    exact ⟨rfl, rfl, rfl⟩
  | run root j pc hpc hS =>
    subst hS
    refine h.keep rfl rfl rfl rfl rfl hv hlatest (fun i => ?_) hx hold
    by_cases hi : i = j
    · subst hi
      have hj : (S.setJob i ((S.jobs i).runStep S.outline.size pc).1).jobs i =
          ((S.jobs i).runStep S.outline.size pc).1 := Function.update_self ..
      obtain ⟨hprev, htable⟩ := runStep_owned (S.jobs i) S.outline.size pc
      rw [hj]
      exact ⟨hprev, runStep_dest .., htable⟩
    · have hj : (S.setJob j ((S.jobs j).runStep S.outline.size pc).1).jobs i = S.jobs i :=
        Function.update_of_ne hi ..
      rw [hj]
      exact ⟨rfl, rfl, rfl⟩
  | begins root n hpc hS => exact h.start hco ht hpc hs hS
  | restart root j T hpc hS => exact h.restart hco ht hpc hs hS
  | ends root j T hpc => exact absurd ⟨root, j, hpc⟩ hend
  | publish root j old hpc hS => exact h.publish hco ht hpc hS
  | schedule root j old hpc hS =>
    subst hS
    exact h.keep rfl rfl rfl rfl rfl hv hlatest (fun i => ⟨rfl, rfl, rfl⟩) hx hold

/-! ## The tables passed to the collector -/

/-- The thread is about to pass the table to the collector. -/
def Pc.passes (T : TableId) : Pc → Bool
  | .complete _ _ (.finishDelete old) => decide (old = T)
  | _ => false

/-- How many threads are about to pass the table to the collector. -/
def passing (calls : Tid → Option (Call Key)) (T : TableId) : ℕ :=
  ∑ t, ((calls t).any fun c => c.pc.passes T).toNat

theorem passing_update (calls : Tid → Option (Call Key)) (t : Tid) (x : Option (Call Key))
    (T : TableId) :
    passing (Function.update calls t x) T + ((calls t).any fun c => c.pc.passes T).toNat =
      passing calls T + (x.any fun c => c.pc.passes T).toNat :=
  ThreadSum.sum_update (fun x : Option (Call Key) =>
    (x.any fun c : Call Key => c.pc.passes T).toNat) calls t x

omit [DecidableEq Tid] in
theorem passing_eq_zero (h : ∀ t, calls t = none) (T : TableId) : passing calls T = 0 :=
  Finset.sum_eq_zero fun t _ => by
    rw [h t]
    rfl

/-- The tables that are no longer in use are passed to the collector once. -/
def Passed (S : Shared Tid) (calls : Tid → Option (Call Key)) : Prop :=
  ∀ T, S.retired.count T = S.scheduled.count T + passing calls T

/-- A thread that is not about to pass a table. -/
theorem Passed.keep {x : Option (Call Key)} (h : Passed S calls) (hr : S'.retired = S.retired)
    (hsched : S'.scheduled = S.scheduled) (hx : ∀ d ∈ x, ∀ T, d.pc.passes T = false)
    (hold : ∀ d ∈ calls t, ∀ T, d.pc.passes T = false) :
    Passed S' (Function.update calls t x) := by
  intro T
  have hnot : ∀ {y : Option (Call Key)}, (∀ d ∈ y, ∀ T, d.pc.passes T = false) →
      (y.any fun c => c.pc.passes T).toNat = 0 := fun {y} hy => by
    cases y with
    | none => rfl
    | some d => rw [Option.any_some, hy d rfl T, Bool.toNat_false]
  have hupdate := passing_update calls t x T
  rw [hnot hx, hnot hold] at hupdate
  rw [hr, hsched, h T]
  exact congrArg _ hupdate.symm

theorem Pc.passes_eq_false {pc : Pc} (h : ∀ root j old, pc ≠ .complete root j (.finishDelete old))
    (T : TableId) : pc.passes T = false := by
  cases pc with
  | complete root j pc =>
    cases pc with
    | finishDelete old => exact absurd rfl (h root j old)
    | _ => rfl
  | _ => rfl

theorem Passed.callStep (h : Passed S calls) (hco : Coordination S.outline (pcsOf calls))
    (ht : calls t = some c) (hs : c.step H signalSafeReaders S t = some (S', c')) :
    Passed S' (Function.update calls t (some c')) := by
  by_cases hsched : ∃ root j old, c.pc = .complete root j (.finishDelete old)
  · obtain ⟨root, j, old, hpc⟩ := hsched
    intro T
    have hnot : c'.pc.passes T = false := by
      refine Pc.passes_eq_false (fun r i old' hpc' => ?_) T
      have hbefore := Call.step_finishDelete hs hpc'
      rw [hpc] at hbefore
      cases hbefore
    have hupdate := passing_update calls t (some c') T
    rw [ht, Option.any_some, Option.any_some, hnot, hpc, Pc.passes, Bool.toNat_false,
      add_zero] at hupdate
    obtain ⟨op, doubleSize, pc⟩ := c
    cases hpc
    cases hs
    rw [h T, List.count_cons, ← hupdate]
    by_cases hT : old = T
    · rw [hT]
      simp
      omega
    · simp [hT]
  have hold : ∀ d ∈ calls t, ∀ T, d.pc.passes T = false := by
    rintro d hd T
    cases ht.symm.trans hd
    exact Pc.passes_eq_false (fun root j old hpc => hsched ⟨root, j, old, hpc⟩) T
  by_cases hstore : ∃ root j old, c.pc = .complete root j (.finishStore old)
  · obtain ⟨root, j, old, hpc⟩ := hstore
    have hok := hco.ok t _ (pcsOf_eq ht hpc)
    obtain ⟨-, -, -, rfl, hopen, rfl⟩ := hok
    have hdest : ¬S.outline.Published (S.jobs j).dest := hopen.2
    intro T
    have hupdate := passing_update calls t (some c') T
    rw [ht, Option.any_some, hold c ht, Bool.toNat_false, add_zero, Option.any_some] at hupdate
    obtain ⟨op, doubleSize, pc⟩ := c
    cases hpc
    cases hs
    have ho := outline_publish hdest
    have hretired : (S.publish (S.jobs j).dest).retired = S.latest :: S.retired :=
      congrArg Outline.retired ho
    have hscheduled : (S.publish (S.jobs j).dest).scheduled = S.scheduled := by
      rw [Shared.publish]
      split_ifs <;> rfl
    rw [hretired, hscheduled, List.count_cons, h T, hupdate, add_assoc]
    refine congrArg _ (congrArg _ ?_)
    show _ = (decide (S.latest = T)).toNat
    by_cases hT : S.latest = T
    · simp [hT]
    · simp [hT]
  have hx : ∀ d ∈ some c', ∀ T, d.pc.passes T = false := by
    rintro d hd T
    cases hd
    exact Pc.passes_eq_false
      (fun root j old hpc => hstore ⟨root, j, old, Call.step_finishDelete hs hpc⟩) T
  cases Call.step_changes hs with
  | cells x ho hs => exact h.keep (congrArg Outline.retired ho) hs hx hold
  | run root j pc hpc hS =>
    subst hS
    exact h.keep rfl rfl hx hold
  | begins root n hpc hS =>
    subst hS
    exact h.keep rfl rfl hx hold
  | restart root j T hpc hS =>
    subst hS
    exact h.keep rfl rfl hx hold
  | ends root j T hpc hT hS =>
    subst hS
    exact h.keep rfl rfl hx hold
  | publish root j old hpc => exact absurd ⟨root, j, old, hpc⟩ hstore
  | schedule root j old hpc => exact absurd ⟨root, j, old, hpc⟩ hsched

/-! ## Runs -/

/-- How deep an object is in what it belongs to. -/
def Shared.rank (S : Shared Tid) : Object → ℕ
  | .inl T => match (S.tables T).victim with
    | none => 0
    | some j => j + 2
  | .inr j => j + 1

omit [Fintype Tid] [DecidableEq Tid] in
/-- What an object owns is deeper. -/
theorem Tree.rank_lt (h : Tree S calls) : ∀ x, ∀ y ∈ S.owns x, S.rank y < S.rank x := by
  obtain ⟨pending, -, hbal⟩ := h.balance
  rintro (T | j) y hy
  · obtain ⟨j, hj, rfl⟩ := List.mem_map.1 hy
    have hv : (S.tables T).victim = some j := Option.mem_toList.1 hj
    simp only [Shared.rank, hv]
    exact Nat.lt_succ_self _
  · rcases List.mem_append.1 hy with hp | hU
    · obtain ⟨p, hmem, rfl⟩ := List.mem_map.1 hp
      exact Nat.succ_lt_succ (h.prev_lt j p (Option.mem_toList.1 hmem))
    · obtain ⟨U, hU, rfl⟩ := List.mem_map.1 hU
      have hlt : j < S.nJobs := by
        by_contra hge
        rw [h.fresh j (not_lt.1 hge)] at hU
        cases hU
      obtain ⟨-, hroot⟩ := hbal.mem_of_owns (mem_objects_job.2 hlt) hy
      have hpub : ¬S.outline.Published U := fun hpub => hroot (Multiset.mem_add.2 (.inl (by
        rcases hpub with rfl | hr
        · exact Multiset.mem_cons_self ..
        · exact Multiset.mem_cons_of_mem (Multiset.mem_coe.2 (List.mem_map_of_mem hr)))))
      simp only [Shared.rank, h.unpublished U hpub]
      exact Nat.succ_pos _

end Invariant

section Runs

variable [Fintype Tid] [DecidableEq Tid] {H : Hasher Key} {signalSafeReaders : Bool}
  {σ σ' : State Tid Key} {l : Label Tid Key}

/-- The tables and the migrations are kept. -/
structure Stored (σ : State Tid Key) : Prop where
  coordination : Coordination σ.shared.outline σ.pcs
  tree : Tree σ.shared σ.calls
  passed : Passed σ.shared σ.calls

theorem Stored.next (h : Stored σ) (hl : OnTime σ l)
    (hn : (provider Tid H signalSafeReaders).next σ l = some σ') : Stored σ' := by
  refine ⟨h.coordination.next hl hn, ?_, ?_⟩
  all_goals
    have hlatest : σ.shared.latest < σ.shared.nTables :=
      h.coordination.layout.published_lt _ (.inl rfl)
  · cases State.transition_of_next H signalSafeReaders hn with
    | call t op hc =>
      refine h.tree.keep rfl rfl rfl rfl rfl (fun _ => .inl rfl) hlatest (fun _ => ⟨rfl, rfl, rfl⟩)
        ?_ ?_
      · rintro d hd root i hpc
        cases hd
        cases hpc
      · rintro d hd
        cases hc.symm.trans hd
    | ret t c result hc hret =>
      refine h.tree.keep rfl rfl rfl rfl rfl (fun _ => .inl rfl) hlatest (fun _ => ⟨rfl, rfl, rfl⟩)
        ?_ ?_
      · rintro d hd
        cases hd
      · rintro d hd root i hpc
        cases hc.symm.trans hd
        cases hret.symm.trans hpc
    | step t c c' S' hc hs => exact h.tree.callStep h.coordination hc hs
  · cases State.transition_of_next H signalSafeReaders hn with
    | call t op hc =>
      refine h.passed.keep rfl rfl ?_ ?_
      · rintro d hd T
        cases hd
        rfl
      · rintro d hd
        cases hc.symm.trans hd
    | ret t c result hc hret =>
      refine h.passed.keep rfl rfl ?_ ?_
      · rintro d hd
        cases hd
      · rintro d hd T
        cases hc.symm.trans hd
        rw [hret]
        rfl
    | step t c c' S' hc hs => exact h.passed.callStep h.coordination hc hs

omit [DecidableEq Tid] in
theorem Stored.initial (n : BitVec 64) : Stored (State.new n : State Tid Key) := by
  refine ⟨.initial n, ⟨fun T _ => rfl, fun j p hp => ?_, fun _ _ => rfl, 0,
    .idle (fun j hj => ?_) rfl, rfl⟩, fun T => ?_⟩
  · cases hp
  · cases hj.1
  · have hzero : passing (State.new n : State Tid Key).calls T = 0 :=
      passing_eq_zero (fun _ => rfl) T
    rw [hzero]
    rfl

/-- When no call is in progress, deleting the tables passed to the collector and the current
    one, in any order, deletes every table and every migration ever allocated, each of them
    once. -/
theorem destroyed_once {n : BitVec 64} {tr : List (State Tid Key × Label Tid Key)}
    (hr : (provider Tid H signalSafeReaders).Run OnTime (.new n) tr σ)
    (hidle : ∀ t, σ.calls t = none) {order : List TableId}
    (horder : order.Perm (σ.shared.current :: σ.shared.scheduled)) :
    ∃ depth freed, (order.map .inl).foldlM (destroy σ.shared.owns depth) [] = some freed ∧
      freed.Nodup ∧ (∀ T, .inl T ∈ freed ↔ T < σ.shared.nTables) ∧
      ∀ j, .inr j ∈ freed ↔ j < σ.shared.nJobs := by
  have h : Stored σ := hr.invariant (fun _ _ _ ha hl hn => ha.next hl hn) (.initial n)
  have hnull := (attended_of_run hr).idle hidle
  obtain ⟨pending, hphase, hbal⟩ := h.tree.balance
  obtain rfl : pending = 0 := by
    cases hphase with
    | idle => rfl
    | moving j hj => exact absurd hj (h.coordination.layout.null hnull j)
    | ending j hj => exact absurd hj (h.coordination.layout.null hnull j)
  -- No thread is about to pass a table to the collector.
  have hperm : σ.shared.retired.Perm σ.shared.scheduled := List.perm_iff_count.2 fun T => by
    rw [h.passed T, passing_eq_zero hidle, add_zero]
  have hused : ((order.map .inl : List Object) : Multiset Object) = σ.shared.used := by
    have hp := (horder.trans (hperm.symm.cons _)).map (Sum.inl : TableId → Object)
    rw [Multiset.coe_eq_coe.2 hp, List.map_cons, ← Multiset.cons_coe,
      show σ.shared.current = σ.shared.latest from h.coordination.layout.current, Shared.used]
  have hown : σ.shared.objects.val = ((order.map .inl : List Object) : Multiset Object) +
      ownedBy σ.shared.owns σ.shared.objects.val := by
    rw [hused, ← add_zero σ.shared.used]
    exact hbal
  obtain ⟨depth, freed, he, hfreed⟩ := destroy_all h.tree.rank_lt hown
  have hmem : ∀ x, x ∈ freed ↔ x ∈ σ.shared.objects := fun x => by
    rw [← Multiset.mem_coe, hfreed, Finset.mem_val]
  refine ⟨depth, freed, he, ?_, fun T => ?_, fun j => ?_⟩
  · rw [← Multiset.coe_nodup, hfreed]
    exact σ.shared.objects.nodup
  · rw [hmem, mem_objects_table]
  · rw [hmem, mem_objects_job]

end Runs

section Examples

/-- Ten keys are put, and an eleventh one with two migrations. -/
theorem destroyed_once_chain : ∃ (σ : State (Fin 11) (Fin 11)) (depth : ℕ) (freed : List Object),
    σ.shared.nTables = 3 ∧ σ.shared.nJobs = 2 ∧
      ([.inl 0, .inl 1, .inl 2] : List Object).foldlM (destroy σ.shared.owns depth) [] =
        some freed ∧ freed.Nodup ∧ (∀ T, .inl T ∈ freed ↔ T < 3) ∧ ∀ j, .inr j ∈ freed ↔ j < 2 := by
  have hrun : ((State.new 0).exec chainHasher false OnTime
      (fillReturns ++ callParts 10 (.put 10 oneValue) 46 ++ [[.step 10]])).any (fun σ =>
        decide (σ.shared.nTables = 3 ∧ σ.shared.nJobs = 2 ∧ σ.shared.current = 2 ∧
          σ.shared.scheduled = [1, 0] ∧ ∀ t, (σ.calls t).isNone)) = true := by decide +kernel
  obtain ⟨tr, σ, hr, hp⟩ := exists_run_of_parts hrun
  obtain ⟨ht, hj, hcur, hsched, hnone⟩ := of_decide_eq_true hp
  have horder : [0, 1, 2].Perm (σ.shared.current :: σ.shared.scheduled) := by
    rw [hcur, hsched]
    decide
  obtain ⟨depth, freed, he, hnd, hT, hJ⟩ := destroyed_once hr
    (fun t => Option.isNone_iff_eq_none.1 (hnone t)) horder
  rw [ht] at hT
  rw [hj] at hJ
  exact ⟨σ, depth, freed, ht, hj, he, hnd, hT, hJ⟩

end Examples

end FkProf.ConcurrentMap
