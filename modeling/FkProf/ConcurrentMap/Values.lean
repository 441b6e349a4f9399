import FkProf.ConcurrentMap.Effects

/-!
# The values of the tables

A table is in use when it is the current one, or takes part in the migration
under way. The cells of all other tables are marked as moved, and those of the
destination are not: so a client that has come late stores no value, and a thread
that moves a value finds a place for it, or that the destination is full.

* `Outline.Moving`, `Coordination.mover_ne`: a cell is moved by one thread;
* `Values`: the invariant of the values, kept by every step that is on time.
-/

namespace FkProf.ConcurrentMap

variable {Tid Key : Type*}

namespace Outline

variable (o : Outline Tid)

/-- The table is the current one, or takes part in the migration under way. -/
def InUse (T : TableId) : Prop :=
  T = o.latest ∧ o.coordinator o.latest ≠ .ended ∨
    ∃ j, o.Open j ∧ (T = (o.jobs j).dest ∨
      o.coordinator o.latest = .job j ∧ ∃ s, (o.jobs j).table s = some T)

/-- A thread is moving cell `i` of the source, in a chunk that ends at `last`. -/
structure Moving (root : TableId) (j : JobId) (s T i last : ℕ) : Prop where
  root_eq : root = o.latest
  lead : o.coordinator o.latest = .job j
  isOpen : o.Open j
  table : (o.jobs j).table s = some T
  lt : i < last
  le_chunk : last ≤ i + kMigrationChunkSize
  le_size : last ≤ o.size T
  dvd : kMigrationChunkSize ∣ last

variable {o} {root : TableId} {j : JobId} {s T i last : ℕ}

theorem Open.unique {i : JobId} (hi : o.Open i) (hj : o.Open j) : i = j :=
  Nat.succ_injective (hi.1.trans hj.1.symm)

theorem Moving.inUse (h : o.Moving root j s T i last) : o.InUse T :=
  .inr ⟨j, h.isOpen, .inr ⟨h.lead, s, h.table⟩⟩

theorem Moving.inUse_dest (h : o.Moving root j s T i last) : o.InUse (o.jobs j).dest :=
  .inr ⟨j, h.isOpen, .inl rfl⟩

theorem Moving.ne_dest (h : o.Moving root j s T i last) (hl : o.Layout) :
    T ≠ (o.jobs j).dest := by
  rintro rfl
  exact (hl.sources j h.isOpen).dest_ne s h.table

end Outline

/-- The thread has yet to move the cell of the source, or to say that the destination
    is full. -/
def Position.Covers (s i : ℕ) : Position → Prop
  | migrating s' _ k last => s' = s ∧ k ≤ i ∧ i < last
  | run .setOverflowed => True
  | _ => False

/-- The invariant of the values. -/
structure Values (S : Shared Tid) (calls : Tid → Option (Call Key)) : Prop where
  movers : ∀ t c T i pc, calls t = some c → c.pc.mover? = some (T, i, pc) →
    pc.Moves ((S.tables T).value i)
  /-- The destination has no cell marked as moved. -/
  clean : ∀ j, S.outline.Open j → ∀ i, (S.tables (S.jobs j).dest).value i ≠ mapValMove
  /-- The tables that are not in use have no other cell. -/
  sealed : ∀ T < S.nTables, ¬S.outline.InUse T → ∀ i < (S.tables T).size,
    (S.tables T).value i = mapValMove
  /-- The cells claimed are moved, or will be, unless the destination is full. -/
  progress : ∀ j, S.outline.coordinator S.latest = .job j → ∀ s T i,
    (S.jobs j).table s = some T → i < (S.jobs j).index s → i < (S.tables T).size →
    (S.tables T).value i = mapValMove ∨ (S.jobs j).overflowed = true ∨
      ∃ t p, runs (pcsOf calls) j t = some p ∧ p.Covers s i
  /-- The current table has no cell marked as moved before its migration starts. -/
  unmoved : S.outline.coordinator S.latest = .null →
    ∀ i, (S.tables S.latest).value i ≠ mapValMove

/-! ## Who writes to a cell -/

section Writers

variable [Fintype Tid] {H : Hasher Key} {signalSafeReaders : Bool}
  {S S' : Shared Tid} {c c' : Call Key} {t u : Tid} {T root : TableId} {j : JobId} {s i last : ℕ}
  {calls : Tid → Option (Call Key)} {o : Outline Tid} {pcs : Tid → Option Pc}

/-- A thread moves cells of the sources of the migration under way. -/
theorem Coordination.moving (h : Coordination o pcs) {pc : MigratePc}
    (ht : pcs t = some (.migrate root j s T i last pc)) : o.Moving root j s T i last := by
  have hjoin := h.ok t _ ht
  have hR := h.runs j hjoin.lt
  have hrun : FkProf.ConcurrentMap.runs pcs j t = some (.migrating s T i last) := by
    simp [runs_eq ht, Pc.position]
  have hstate := hR.two_le_state hrun rfl
  have hlead := hjoin.lead.resolve_right (by omega)
  obtain rfl := h.layout.root_eq hjoin.published (by rw [hlead]; simp)
  obtain ⟨-, htable, hlt, hle, -, hsize, hdvd⟩ := hR.ok t _ hrun
  exact ⟨rfl, hlead, h.layout.job j hlead, htable, hlt, hle, hsize, hdvd⟩

/-- A cell is moved by one thread. -/
theorem Coordination.mover_ne (h : Coordination o pcs) {root' : TableId} {j' : JobId}
    {s' last' : ℕ} {pc pc' : MigratePc} (ht : pcs t = some (.migrate root j s T i last pc))
    (hu : pcs u = some (.migrate root' j' s' T i last' pc')) : t = u := by
  have hmt := h.moving ht
  have hmu := h.moving hu
  obtain rfl := hmt.isOpen.unique hmu.isOpen
  obtain rfl := (h.layout.sources j hmt.isOpen).inj s s' T hmt.table hmu.table
  have hlast : last = last' := by
    obtain ⟨a, ha⟩ := hmt.dvd
    obtain ⟨b, hb⟩ := hmu.dvd
    have := hmt.lt
    have := hmt.le_chunk
    have := hmu.lt
    have := hmu.le_chunk
    simp only [kMigrationChunkSize] at *
    omega
  subst hlast
  exact (h.runs j hmt.isOpen.lt).exclusive t u s T T i i last (by simp [runs_eq ht, Pc.position])
    (by simp [runs_eq hu, Pc.position])

/-- A client stores to a cell of its hash, on its chain, that it has not found moved. -/
theorem Cells.client (h : Cells H S calls) (hco : Coordination S.outline (pcsOf calls))
    (ht : calls t = some c) {k : ℕ} {old : ValueType} (hc : c.pc.client? = some (root, k, old)) :
    S.outline.Published root ∧ OnChain (S.tables root) (H.hash c.op.key) k ∧
      (S.tables root).hash k = H.hash c.op.key ∧ old ≠ mapValMove := by
  have hok := hco.ok t c.pc (pcsOf_eq ht rfl)
  have hk := h.knows t c ht
  obtain ⟨op, doubleSize, pc⟩ := c
  cases pc with
  | insert r p =>
    obtain ⟨x, hcas, he⟩ := Option.map_eq_some_iff.1 hc
    cases he
    refine ⟨hok, ?_⟩
    refine InsertPc.Ok.cas?_hash ((h.chain root).ok t ⟨H.hash op.key, op.value, p⟩ ?_) hcas
    rw [ht]
    exact if_pos rfl
  | removeCas r i old =>
    cases hc
    exact ⟨hok, hk.2⟩
  | _ => simp [Pc.client?] at hc

theorem Pc.mover?_eq {pc : Pc} {mpc : MigratePc} (h : pc.mover? = some (T, i, mpc)) :
    ∃ root j s last, pc = .migrate root j s T i last mpc := by
  cases pc <;> simp only [Pc.mover?, reduceCtorEq, Option.some.injEq, Prod.mk.injEq] at h
  obtain ⟨rfl, rfl, rfl⟩ := h
  exact ⟨_, _, _, _, rfl⟩

/-- The table of a mover is a source of the migration under way. -/
theorem Coordination.mover_source (h : Coordination S.outline (pcsOf calls))
    (ht : calls t = some c) {mpc : MigratePc} (hm : c.pc.mover? = some (T, i, mpc)) :
    ∃ root j s last, c.pc = .migrate root j s T i last mpc ∧
      S.outline.Moving root j s T i last := by
  obtain ⟨root, j, s, last, hpc⟩ := Pc.mover?_eq hm
  exact ⟨root, j, s, last, hpc, h.moving (pcsOf_eq ht hpc)⟩

theorem Coordination.lt_of_inUse (h : Coordination S.outline (pcsOf calls))
    (hT : S.outline.InUse T) : T < S.nTables := by
  rcases hT with ⟨rfl, -⟩ | ⟨j, hj, rfl | ⟨-, s, hs⟩⟩
  · exact h.layout.published_lt _ (.inl rfl)
  · exact h.layout.dest_lt j hj.lt
  · exact h.layout.source_lt j hj.lt s T hs

/-- What a step may do to the value of a cell. -/
inductive ValueChange (S : Shared Tid) (c : Call Key) (S' : Shared Tid) (T : TableId) (i : ℕ) : Prop
  | same : (S'.tables T).value i = (S.tables T).value i → ValueChange S c S' T i
  | store : S.outline.Published T → (S.tables T).value i ≠ mapValMove →
      (S'.tables T).value i ≠ mapValMove → c.pc.mover? = none → ValueChange S c S' T i
  | move (pc : MigratePc) : c.pc.mover? = some (T, i, pc) → ValueChange S c S' T i
  | put (root : TableId) (j : JobId) (s U k last : ℕ) (pc : MigratePc) :
      c.pc = .migrate root j s U k last pc → T = (S.jobs j).dest →
      (S'.tables T).value i ≠ mapValMove → ValueChange S c S' T i

theorem Values.value_change (h : Values S calls) (hcells : Cells H S calls)
    (hco : Coordination S.outline (pcsOf calls)) (ht : calls t = some c)
    (hs : c.step H signalSafeReaders S t = some (S', c')) (hT : T < S.nTables) (i : ℕ) :
    ValueChange S c S' T i := by
  cases Call.step_effect (hcells.knows t c ht) hs with
  | store root k hc hS =>
    obtain ⟨hp, -, -, hne⟩ := hcells.client hco ht hc
    subst hS
    by_cases hi : T = root ∧ i = k
    · obtain ⟨rfl, rfl⟩ := hi
      refine .store hp hne ?_ ?_
      · rw [Shared.write_self]
        exact c.op.value_ne_move
      · cases hpc : c.pc <;> simp [hpc, Pc.client?] at hc <;> rfl
    · exact .same (by rw [Shared.write_value, if_neg hi])
  | run root j pc hpc hS =>
    subst hS
    exact .same rfl
  | quiet hq hm hv => exact .same (by rw [hv T hT.ne])
  | migrate root j s U k last pc next hpc he =>
    have hmoves := h.movers t c U k pc ht (by rw [hpc]; rfl)
    have hcell : ∀ v, ValueChange S c (S.write U k v) T i := fun v => by
      by_cases hi : T = U ∧ i = k
      · obtain ⟨rfl, rfl⟩ := hi
        exact .move pc (by rw [hpc]; rfl)
      · exact .same (by rw [Shared.write_value, if_neg hi])
    have hdest : ∀ {X : HashTable Tid}, X.value = (S.tables (S.jobs j).dest).value →
        ValueChange S c (S.setTable (S.jobs j).dest X) T i := fun hX =>
      .same (by rw [value_setTable hX])
    cases he with
    | read _ _ _ hS | skip _ hS | lose _ _ _ _ _ hS =>
      subst hS
      exact .same rfl
    | mark _ hS | take _ _ _ hS | restore _ _ _ hS =>
      subst hS
      exact hcell _
    | search _ _ _ _ X _ hX hS | overflow _ _ _ X _ hX hS =>
      subst hS
      exact hdest hX
    | put g v p n hp _ hS =>
      subst hS hp
      by_cases hi : T = (S.jobs j).dest ∧ i = n
      · obtain ⟨rfl, rfl⟩ := hi
        refine .put root j s U k last _ hpc rfl ?_
        rw [Shared.write_self]
        exact hmoves.2.2
      · exact .same (by rw [Shared.write_value, if_neg hi])

end Writers

/-! ## Tables in use -/

section InUse

variable {o : Outline Tid} {T root : TableId} {j : JobId}

namespace Outline

/-- A migration to a new table begins. -/
def begin (o : Outline Tid) (n : ℕ) (jobs : JobId → Migration) (m : Migration) : Outline Tid :=
  (({ o.newTable n with jobs := jobs }).newJob m).setCoordinator o.latest (.job o.nJobs)

variable {n : ℕ} {jobs : JobId → Migration} {m : Migration}

theorem begin_jobs : (o.begin n jobs m).jobs o.nJobs = m := Function.update_self ..

theorem begin_coordinator : (o.begin n jobs m).coordinator o.latest = .job o.nJobs :=
  Function.update_self ..

theorem begin_open {i : JobId} (hi : (o.begin n jobs m).Open i) : i = o.nJobs :=
  Nat.succ_injective hi.1

theorem begin_isOpen (hl : o.Layout) (hd : m.dest = o.nTables) :
    (o.begin n jobs m).Open o.nJobs := by
  refine ⟨rfl, fun hp => ?_⟩
  rw [begin_jobs, hd] at hp
  exact absurd (hl.published_lt _ hp) (lt_irrefl _)

theorem inUse_begin (hl : o.Layout) (hd : m.dest = o.nTables) :
    (o.begin n jobs m).InUse T ↔
      T = o.latest ∨ T = o.nTables ∨ ∃ s, m.table s = some T := by
  have hopen : (o.begin n jobs m).Open o.nJobs := begin_isOpen hl hd
  constructor
  · rintro (⟨rfl, -⟩ | ⟨i, hi, hT⟩)
    · exact .inl rfl
    · obtain rfl := begin_open hi
      rw [begin_jobs, hd] at hT
      exact hT.elim (fun h => .inr (.inl h)) fun h => .inr (.inr h.2)
  · rintro (rfl | rfl | hs)
    · refine .inl ⟨rfl, ?_⟩
      show (o.begin n jobs m).coordinator o.latest ≠ _
      rw [begin_coordinator]
      exact fun h => nomatch h
    · exact .inr ⟨o.nJobs, hopen, .inl (by rw [begin_jobs, hd])⟩
    · exact .inr ⟨o.nJobs, hopen, .inr ⟨begin_coordinator, by rwa [begin_jobs]⟩⟩

theorem inUse_setJob (hj : Keeps (o.jobs j) m) : (o.setJob j m).InUse T ↔ o.InUse T := by
  have hdest : ∀ i, ((o.setJob j m).jobs i).dest = (o.jobs i).dest := fun i =>
    (keeps_setJob hj i).dest
  have htable : ∀ i s, ((o.setJob j m).jobs i).table s = (o.jobs i).table s := fun i s =>
    (keeps_setJob hj i).grows.table s
  simp only [InUse, open_setJob hj.dest, hdest, htable]
  rfl

/-- Of a table whose migration has ended, only the destination is in use. -/
theorem InUse.eq_dest (h : o.InUse T) (hc : o.coordinator o.latest = .ended) (hj : o.Open j) :
    T = (o.jobs j).dest := by
  rcases h with ⟨-, hne⟩ | ⟨i, hi, rfl | ⟨hl, -⟩⟩
  · exact absurd hc hne
  · rw [hi.unique hj]
  · rw [hc] at hl
    cases hl

theorem inUse_publish (hl : o.Layout) (hj : o.Open j) :
    (o.publish (o.jobs j).dest).InUse (o.jobs j).dest := by
  refine .inl ⟨rfl, ?_⟩
  show o.coordinator (o.jobs j).dest ≠ _
  rw [hl.fresh _ hj.2]
  exact fun h => nomatch h

/-- Before a migration, only the current table is in use. -/
theorem InUse.eq_latest (h : o.InUse T) (hl : o.Layout) (hc : o.coordinator o.latest = .null) :
    T = o.latest :=
  h.elim And.left fun ⟨j, hj, _⟩ => absurd hj (hl.null hc j)

/-- During a migration, its sources and its destination are. -/
theorem InUse.of_job (h : o.InUse T) (hl : o.Layout) (hc : o.coordinator o.latest = .job j) :
    T = (o.jobs j).dest ∨ ∃ s, (o.jobs j).table s = some T := by
  rcases h with ⟨rfl, -⟩ | ⟨i, hi, hT⟩
  · exact .inr ⟨0, (hl.sources j (hl.job j hc)).root⟩
  · obtain rfl := hi.unique (hl.job j hc)
    exact hT.imp_right And.right

end Outline

end InUse

/-! ## Steps -/

section Steps

variable [Fintype Tid] {H : Hasher Key} {signalSafeReaders : Bool} {S S' : Shared Tid}
  {c c' : Call Key} {t u : Tid} {T root : TableId} {j : JobId} {calls : Tid → Option (Call Key)}
  {o o' : Outline Tid} {pcs : Tid → Option Pc} {pc : Pc}

/-- How a step of a thread changes the outline. -/
inductive Advance (o : Outline Tid) (pc : Pc) (o' : Outline Tid) : Prop
  | keep (x : TableId → Option Tid) : o' = { o with mutex := x } → Advance o pc o'
  | run (root : TableId) (j : JobId) (rpc : RunPc) : pc = .run root j rpc →
      Outline.Keeps (o.jobs j) ((o.jobs j).runStep o.size rpc).1 →
      o' = o.setJob j ((o.jobs j).runStep o.size rpc).1 → Advance o pc o'
  | begin (n : ℕ) (jobs : JobId → Migration) (m : Migration) : pc.Quiet →
      m.dest = o.nTables → (∀ s, m.index s = 0) →
      (∀ T, o.InUse T → T = o.latest ∨ ∃ s, m.table s = some T) →
      o.coordinator o.latest ≠ .ended → o' = o.begin n jobs m → Advance o pc o'
  | ends (root : TableId) (j : JobId) : pc = .complete root j .endCoordinator →
      o.coordinator o.latest = .job j → o' = o.setCoordinator o.latest .ended → Advance o pc o'
  | publish (root : TableId) (j : JobId) (old : TableId) :
      pc = .complete root j (.finishStore old) → o.coordinator o.latest = .ended → o.Open j →
      o' = o.publish (o.jobs j).dest → Advance o pc o'

theorem Coordination.advance (h : Coordination S.outline (pcsOf calls)) (ht : calls t = some c)
    (hl : c.OnTime S) (hs : c.step H signalSafeReaders S t = some (S', c')) :
    Advance S.outline c.pc S'.outline := by
  have hpc := pcsOf_eq ht rfl
  have hok := h.ok t _ hpc
  cases Call.step_changes hs with
  | cells x ho => exact .keep x ho
  | run root j rpc he hS =>
    subst hS
    rw [he] at hok hpc
    have hon : rpc.OnTime (S.jobs j) := by
      rw [Call.OnTime, he] at hl
      exact hl
    have hR := h.runs j hok.1.lt
    have hrun : FkProf.ConcurrentMap.runs (pcsOf calls) j t = some (.run rpc) := by
      simp [runs_eq hpc, Pc.position]
    exact .run root j rpc he ⟨hR.grows hrun, runStep_dest .., hR.closed_step hrun hon⟩ rfl
  | begins root n he hS =>
    subst hS
    rw [he] at hok
    obtain ⟨hp, -, hc⟩ := hok
    obtain rfl := h.layout.root_eq hp (by rw [hc]; simp)
    refine .begin (allocatedSize n) S.jobs (.first S S.outline.latest) (by rw [he]; trivial) rfl
      (fun s => ?_) (fun T hT => .inl (hT.eq_latest h.layout hc)) (by rw [hc]; simp) ?_
    · cases s <;> rfl
    · rw [outline_setCoordinator, outline_newJob, outline_newTable]
      rfl
  | restart root j T he hS =>
    subst hS
    rw [he] at hok
    obtain ⟨hjoin, -, rfl, hc, -⟩ := hok
    obtain rfl := h.layout.root_eq hjoin.published (by rw [hc]; simp)
    refine .begin _ _ _ (by rw [he]; trivial) rfl (fun s => Migration.index_restarted ..)
      (fun T hT => .inr ?_) (by rw [hc]; simp) outline_restart
    simp only [Migration.table_restarted]
    rcases hT.of_job h.layout hc with rfl | ⟨s, hs⟩
    · exact ⟨(S.jobs j).sources.length, by simp; rfl⟩
    · have hs : (S.jobs j).table s = some T := hs
      exact ⟨s, by rwa [if_pos (Migration.table_lt hs)]⟩
  | ends root j T he hT hS =>
    subst hS
    rw [he] at hok
    obtain ⟨hjoin, -, hc⟩ := hok
    obtain rfl := h.layout.root_eq hjoin.published (by rw [hc]; simp)
    have hroot := (h.layout.sources j (h.layout.job j hc)).root
    obtain rfl : T = S.outline.latest := Option.some.inj (hT.symm.trans hroot)
    exact .ends _ j he hc (outline_setCoordinator ..)
  | publish root j old he hS =>
    subst hS
    rw [he] at hok
    obtain ⟨-, -, hc, rfl, hopen, -⟩ := hok
    exact .publish _ j old he hc hopen (outline_publish hopen.2)
  | schedule root j old he hS =>
    subst hS
    exact .keep S.outline.mutex rfl

/-- When a migration ends without overflow, all cells of its sources are moved. -/
theorem Values.moved (h : Values S calls) (hco : Coordination S.outline (pcsOf calls))
    (ht : pcsOf calls t = some (.complete root j .endCoordinator)) {s : ℕ}
    (hT : (S.jobs j).table s = some T) {i : ℕ} (hi : i < (S.tables T).size) :
    (S.tables T).value i = mapValMove := by
  obtain ⟨hjoin, -, hc⟩ := hco.ok t _ ht
  obtain rfl := hco.layout.root_eq hjoin.published (by rw [hc]; simp)
  have hR := hco.runs j hjoin.lt
  have hrun : runs (pcsOf calls) j t = some (.completing false) := by
    simp [runs_eq ht, Pc.position, CompletePc.overflow]
  have hover := hR.census.completed (tally_pos hrun rfl)
  have ho : (S.jobs j).overflowed = false := hR.outcome t false hrun
  have hex : (S.tables T).size ≤ (S.jobs j).index s :=
    hR.exhausted hco.layout.size hover.1 ho s T hT
  refine (h.progress j hc s T i hT (hi.trans_le hex) hi).resolve_right ?_
  rintro (ho' | ⟨u, p, hp, hcov⟩)
  · rw [ho] at ho'
    cases ho'
  · have hb := tally_eq_zero.1 hover.2 u p hp
    cases p with
    | run rpc =>
      cases rpc <;> first | exact hcov | cases hb
    | migrating => cases hb
    | completing => exact hcov

/-- Where a step leaves the tables that are not in use. -/
theorem Values.sealed_before (h : Values S calls) (hco : Coordination S.outline (pcsOf calls))
    (ht : calls t = some c) (ha : Advance S.outline c.pc S'.outline) (hT : T < S'.nTables)
    (hu : ¬S'.outline.InUse T) : T < S.nTables ∧
      (∀ i < (S.tables T).size, (S.tables T).value i = mapValMove) ∧
      (¬S.outline.InUse T ∨ c.pc.Quiet) := by
  have hpc := pcsOf_eq ht rfl
  cases ha with
  | keep x ho =>
    have hn : S'.nTables = S.nTables := congrArg Outline.nTables ho
    rw [ho] at hu
    have hu : ¬S.outline.InUse T := hu
    exact ⟨hn ▸ hT, h.sealed T (hn ▸ hT) hu, .inl hu⟩
  | run root j rpc hr hk ho =>
    have hn : S'.nTables = S.nTables := congrArg Outline.nTables ho
    rw [ho, Outline.inUse_setJob hk] at hu
    exact ⟨hn ▸ hT, h.sealed T (hn ▸ hT) hu, .inl hu⟩
  | begin n jobs m hq hd hi hm _ ho =>
    have hn : S'.nTables = S.nTables + 1 := congrArg Outline.nTables ho
    rw [ho, Outline.inUse_begin hco.layout hd, not_or, not_or] at hu
    have hlt : T < S.nTables := 
      (Nat.lt_succ_iff_lt_or_eq.1 (hT.trans_eq hn)).resolve_right hu.2.1
    have hu' : ¬S.outline.InUse T := fun hT' => (hm T hT').elim hu.1 hu.2.2
    exact ⟨hlt, h.sealed T hlt hu', .inl hu'⟩
  | ends root j he hc ho =>
    have hn : S'.nTables = S.nTables := congrArg Outline.nTables ho
    refine ⟨hn ▸ hT, fun i hi => ?_, .inr (by rw [he]; trivial)⟩
    by_cases hu' : S.outline.InUse T
    · rcases hu'.of_job hco.layout hc with rfl | ⟨s, hs⟩
      · refine absurd (.inr ⟨j, ?_, .inl ?_⟩) hu
        · rw [ho]
          exact hco.layout.job j hc
        · rw [ho]
          rfl
      · exact h.moved hco (he ▸ hpc) hs hi
    · exact h.sealed T (hn ▸ hT) hu' i hi
  | publish root j old he hc hj ho =>
    have hn : S'.nTables = S.nTables := congrArg Outline.nTables ho
    have hu' : ¬S.outline.InUse T := fun hT' => by
      rw [hT'.eq_dest hc hj, ho] at hu
      exact hu (Outline.inUse_publish hco.layout hj)
    exact ⟨hn ▸ hT, h.sealed T (hn ▸ hT) hu', .inl hu'⟩

theorem Pc.Quiet.mover? (h : pc.Quiet) : pc.mover? = none := by
  cases pc <;> first | rfl | exact h.elim

/-- Tables that are not in use stay as they are. -/
theorem Values.sealed_step (h : Values S calls) (hcells : Cells H S calls)
    (hco : Coordination S.outline (pcsOf calls)) (ht : calls t = some c) (hl : c.OnTime S)
    (hs : c.step H signalSafeReaders S t = some (S', c')) (hT : T < S'.nTables)
    (hu : ¬S'.outline.InUse T) {i : ℕ} (hi : i < (S'.tables T).size) :
    (S'.tables T).value i = mapValMove := by
  obtain ⟨hlt, hmove, hor⟩ := h.sealed_before hco ht (hco.advance ht hl hs) hT hu
  rw [(hcells.extends ht hs hlt).size] at hi
  cases h.value_change hcells hco ht hs hlt i with
  | same he => rw [he, hmove i hi]
  | store _ hne => exact absurd (hmove i hi) hne
  | move pc hm =>
    rcases hor with hu' | hq
    · obtain ⟨_, _, _, _, -, hmov⟩ := hco.mover_source ht hm
      exact absurd hmov.inUse hu'
    · exact nomatch hq.mover?.symm.trans hm
  | put root j s U k last pc hpc hd =>
    rcases hor with hu' | hq
    · have hmov : S.outline.Moving root j s U k last :=
        hco.moving (pcsOf_eq ht hpc)
      exact absurd (hd ▸ hmov.inUse_dest) hu'
    · rw [hpc] at hq
      exact hq.elim

/-- The destination remains without cells marked as moved. -/
theorem Values.clean_step (h : Values S calls) (hcells : Cells H S calls)
    (hco : Coordination S.outline (pcsOf calls)) (ht : calls t = some c) (hl : c.OnTime S)
    (hs : c.step H signalSafeReaders S t = some (S', c')) (hj : S'.outline.Open j) (i : ℕ) :
    (S'.tables (S'.jobs j).dest).value i ≠ mapValMove := by
  -- Nobody writes the mark to the destination of the migration under way.
  have hsame : S.outline.Open j → (S'.jobs j).dest = (S.jobs j).dest →
      (S'.tables (S'.jobs j).dest).value i ≠ mapValMove := fun hj hd => by
    rw [hd]
    cases h.value_change hcells hco ht hs (hco.layout.dest_lt j hj.lt) i with
    | same he =>
      rw [show (S'.tables (S.jobs j).dest).value i = _ from he]
      exact h.clean j hj i
    | store _ _ hne => exact hne
    | move pc hm =>
      obtain ⟨_, _, _, _, -, hmov⟩ := hco.mover_source ht hm
      obtain rfl := hmov.isOpen.unique hj
      exact absurd rfl (hmov.ne_dest hco.layout)
    | put _ _ _ _ _ _ _ _ _ hne => exact hne
  cases hco.advance ht hl hs with
  | keep x ho =>
    rw [ho] at hj
    exact hsame hj (congrArg (fun o : Outline Tid => (o.jobs j).dest) ho)
  | run root i rpc hr hk ho =>
    rw [ho, Outline.open_setJob hk.dest] at hj
    exact hsame hj ((congrArg (fun o : Outline Tid => (o.jobs j).dest) ho).trans
      (Outline.keeps_setJob hk j).dest)
  | ends root i he hc ho =>
    rw [ho] at hj
    exact hsame hj (congrArg (fun o : Outline Tid => (o.jobs j).dest) ho)
  | begin n jobs m hq hd hi hm _ ho =>
    rw [ho] at hj
    have hdest : (S'.jobs j).dest = S.nTables := by
      rw [show S'.jobs j = (S.outline.begin n jobs m).jobs j from
        congrArg (fun o : Outline Tid => o.jobs j) ho, Outline.begin_open hj, Outline.begin_jobs]
      exact hd
    rw [hdest, HashTable.value, hcells.fresh_step hco ht hs le_rfl]
    exact (by decide : mapValEmpty ≠ mapValMove)
  | publish root i old he hc hopen ho =>
    rw [ho] at hj
    exact absurd hj (Outline.not_open_publish hopen)

/-- The current table remains without cells marked as moved, until its migration starts. -/
theorem Values.unmoved_step (h : Values S calls) (hcells : Cells H S calls)
    (hco : Coordination S.outline (pcsOf calls)) (ht : calls t = some c) (hl : c.OnTime S)
    (hs : c.step H signalSafeReaders S t = some (S', c'))
    (hc : S'.outline.coordinator S'.latest = .null) (i : ℕ) :
    (S'.tables S'.latest).value i ≠ mapValMove := by
  have hlatest : S.latest < S.nTables := hco.layout.published_lt _ (.inl rfl)
  have hsame : S'.latest = S.latest → S.outline.coordinator S.latest = .null →
      (S'.tables S'.latest).value i ≠ mapValMove := fun he hn => by
    rw [he]
    cases h.value_change hcells hco ht hs hlatest i with
    | same hv =>
      rw [hv]
      exact h.unmoved hn i
    | store _ _ hne => exact hne
    | move pc hm =>
      obtain ⟨_, _, _, _, -, hmov⟩ := hco.mover_source ht hm
      exact nomatch hn.symm.trans hmov.lead
    | put _ _ _ _ _ _ _ _ _ hne => exact hne
  cases hco.advance ht hl hs with
  | keep x ho =>
    rw [ho] at hc
    have he : S'.latest = S.latest := congrArg Outline.latest ho
    exact hsame he (he ▸ hc)
  | run root j rpc hr hk ho =>
    rw [ho] at hc
    have he : S'.latest = S.latest := congrArg Outline.latest ho
    exact hsame he (he ▸ hc)
  | begin n jobs m hq hd hi hm _ ho =>
    rw [ho, show S'.latest = S.latest from congrArg Outline.latest ho] at hc
    exact nomatch Outline.begin_coordinator.symm.trans hc
  | ends root j he hlead ho =>
    rw [ho, show S'.latest = S.latest from congrArg Outline.latest ho] at hc
    exact nomatch (Function.update_self ..).symm.trans hc
  | publish root j old he hend hopen ho =>
    rw [show S'.latest = (S.jobs j).dest from congrArg Outline.latest ho]
    cases h.value_change hcells hco ht hs (hco.layout.dest_lt j hopen.lt) i with
    | same hv =>
      rw [show (S'.tables (S.jobs j).dest).value i = _ from hv]
      exact h.clean j hopen i
    | store _ _ hne => exact hne
    | move pc hm =>
      rw [he] at hm
      cases hm
    | put _ _ _ _ _ _ _ _ _ hne => exact hne

/-- What a thread knows of the cell it is moving, while another thread goes on. -/
theorem Values.moves_other (h : Values S calls) (hcells : Cells H S calls)
    (hco : Coordination S.outline (pcsOf calls)) (ht : calls t = some c)
    (hs : c.step H signalSafeReaders S t = some (S', c')) {d : Call Key} (hu : calls u = some d)
    (hne : u ≠ t) {i : ℕ} {pc : MigratePc} (hm : d.pc.mover? = some (T, i, pc)) :
    pc.Moves ((S'.tables T).value i) := by
  have hpc := h.movers u d T i pc hu hm
  obtain ⟨root, j, s, last, hd, hmov⟩ := hco.mover_source hu hm
  have hlt : T < S.nTables := hco.lt_of_inUse hmov.inUse
  cases h.value_change hcells hco ht hs hlt i with
  | same he => rwa [he]
  | store _ hv hv' =>
    cases pc with
    | loadHash | casUnused | loadValue => trivial
    | casDeleted => exact hv'
    | casMove => exact ⟨hv', hpc.2⟩
    | insert | restore => exact absurd hpc.1 hv
  | move pc' hm' =>
    obtain ⟨_, _, _, _, hd', -⟩ := hco.mover_source ht hm'
    exact absurd (hco.mover_ne (pcsOf_eq hu hd) (pcsOf_eq ht hd')) hne
  | put root' j' s' U k last' pc' hpc' he =>
    have hmov' : S.outline.Moving root' j' s' U k last' :=
      hco.moving (pcsOf_eq ht hpc')
    obtain rfl := hmov.isOpen.unique hmov'.isOpen
    exact absurd he (hmov.ne_dest hco.layout)

omit [Fintype Tid] in
theorem nextCell_mover? {s k last : ℕ} {x : TableId × ℕ × MigratePc}
    (h : (Pc.afterMigrate root j s T last (nextCell k last)).mover? = some x) :
    x.2.2 = .loadHash := by
  rw [nextCell] at h
  split_ifs at h <;> cases h
  rfl

/-- What a thread knows of the cell it is moving. -/
theorem Values.moves_self (h : Values S calls) (hcells : Cells H S calls)
    (hco : Coordination S.outline (pcsOf calls)) (ht : calls t = some c)
    (hs : c.step H signalSafeReaders S t = some (S', c')) {i : ℕ} {pc : MigratePc}
    (hm : c'.pc.mover? = some (T, i, pc)) : pc.Moves ((S'.tables T).value i) := by
  cases Call.step_effect (hcells.knows t c ht) hs with
  | store root k _ _ hc =>
    subst hc
    cases hm
  | run root j rpc hpc hS hc =>
    subst hc
    cases hn : ((S.jobs j).runStep S.outline.size rpc).2 <;>
      simp only [hn, Call.goto, Pc.afterRun] at hm <;> cases hm
    trivial
  | quiet _ hm' => cases hm'.symm.trans hm
  | migrate root j s U k last mpc next hpc he hc =>
    subst hc
    have hmoves := h.movers t c U k mpc ht (by rw [hpc]; rfl)
    have hne : U ≠ (S.jobs j).dest := (hco.moving (pcsOf_eq ht hpc)).ne_dest hco.layout
    cases he with
    | read pc' _ _ hS hread =>
      cases hm
      subst hS
      exact hread hmoves
    | skip | mark | put | lose =>
      obtain rfl := nextCell_mover? hm
      trivial
    | take g v hp hS hv hv₀ =>
      cases hm
      subst hS hp
      exact ⟨Shared.write_self, hv₀, hmoves.2⟩
    | search g v p p' X hp hX hS | overflow g v p X hp hX hS =>
      cases hm
      subst hS hp
      rw [MigratePc.Moves, value_setTable hX]
      exact hmoves
    | restore g v hp hS => cases hm

/-! ## The progress of the migration -/

section Progress

variable [DecidableEq Tid]

omit [Fintype Tid] in
theorem pcsOf_update (calls : Tid → Option (Call Key)) (t : Tid) (x : Option (Call Key)) :
    pcsOf (Function.update calls t x) = Function.update (pcsOf calls) t (x.map Call.pc) :=
  Function.comp_update (Option.map Call.pc) calls t x

omit [Fintype Tid] in
/-- Another thread has still to do what it had. -/
theorem covers_of_ne {s i : ℕ} {p : Position} {x : Option (Call Key)}
    (hp : runs (pcsOf calls) j u = some p) (hc : p.Covers s i) (hu : u ≠ t) :
    ∃ u p, runs (pcsOf (Function.update calls t x)) j u = some p ∧ p.Covers s i := by
  refine ⟨u, p, ?_, hc⟩
  rwa [pcsOf_update, runs_update, Function.update_of_ne hu]

omit [Fintype Tid] in
theorem covers_self {s i : ℕ} {p : Position} (hp : c'.pc.position j = some p)
    (hc : p.Covers s i) :
    ∃ u p, runs (pcsOf (Function.update calls t (some c'))) j u = some p ∧ p.Covers s i := by
  refine ⟨t, p, ?_, hc⟩
  rw [pcsOf_update, runs_update, Function.update_self]
  exact hp

omit [Fintype Tid] [DecidableEq Tid] in
theorem Pc.Quiet.not_covers (h : pc.Quiet) {p : Position} (hp : pc.position j = some p)
    (s i : ℕ) : ¬p.Covers s i := by
  cases pc <;> simp only [Pc.position, reduceCtorEq] at hp
  case run | migrate => exact h.elim
  case complete =>
    split_ifs at hp
    cases hp
    exact id

omit [Fintype Tid] [DecidableEq Tid] in
theorem Pc.quiet_of_client {x : TableId × ℕ × ValueType} (h : pc.client? = some x) :
    pc.Quiet := by
  cases pc <;> trivial

/-- The cells claimed of a source are moved, or will be. -/
abbrev Claimed (S : Shared Tid) (calls : Tid → Option (Call Key)) (j : JobId) : Prop :=
  ∀ s T i, (S.jobs j).table s = some T → i < (S.jobs j).index s → i < (S.tables T).size →
    (S.tables T).value i = mapValMove ∨ (S.jobs j).overflowed = true ∨
      ∃ t p, runs (pcsOf calls) j t = some p ∧ p.Covers s i

/-- A thread that is in no migration. -/
theorem Values.progress_quiet (h : Values S calls) (hcells : Cells H S calls)
    (hco : Coordination S.outline (pcsOf calls)) (ht : calls t = some c) (hl : c.OnTime S)
    (hs : c.step H signalSafeReaders S t = some (S', c')) (hq : c.pc.Quiet)
    (hlead : S'.outline.coordinator S'.latest = .job j) :
    Claimed S' (Function.update calls t (some c')) j := by
  intro s T i hT hi hsize
  cases hco.advance ht hl hs with
  | keep x ho =>
    have hjobs : S'.jobs = S.jobs := congrArg Outline.jobs ho
    have hlead' : S.outline.coordinator S.latest = .job j := by
      have hc : S'.outline.coordinator S'.outline.latest = .job j := hlead
      rw [ho] at hc
      exact hc
    rw [hjobs] at hT hi ⊢
    have hlt : T < S.nTables :=
      hco.layout.source_lt j (hco.layout.job j hlead').lt s T hT
    rw [(hcells.extends ht hs hlt).size] at hsize
    refine (h.progress j hlead' s T i hT hi hsize).imp (fun hv => ?_) (Or.imp_right ?_)
    · cases h.value_change hcells hco ht hs hlt i with
      | same he => rw [he, hv]
      | store _ hne => exact absurd hv hne
      | move pc hm => exact nomatch hq.mover?.symm.trans hm
      | put _ _ _ _ _ _ _ hpc =>
        rw [hpc] at hq
        exact hq.elim
    · rintro ⟨u, p, hp, hcov⟩
      refine covers_of_ne hp hcov ?_
      rintro rfl
      rw [runs_eq (pcsOf_eq ht rfl)] at hp
      exact hq.not_covers hp s i hcov
  | run root i rpc hr =>
    rw [hr] at hq
    exact hq.elim
  | begin n jobs m _ _ hidx _ _ ho =>
    have hc : S'.outline.coordinator S'.outline.latest = .job j := hlead
    rw [ho] at hc
    cases Outline.begin_coordinator.symm.trans hc
    rw [show S'.jobs S.outline.nJobs = m from
      (congrArg (fun o : Outline Tid => o.jobs S.nJobs) ho).trans Outline.begin_jobs, hidx] at hi
    exact absurd hi (Nat.not_lt_zero _)
  | ends root i he hc ho =>
    have hc : S'.outline.coordinator S'.outline.latest = .job j := hlead
    rw [ho] at hc
    exact nomatch (Function.update_self ..).symm.trans hc
  | publish root i old he hc hopen ho =>
    have hc : S'.outline.coordinator S'.outline.latest = .job j := hlead
    rw [ho] at hc
    exact nomatch (hco.layout.fresh _ hopen.2).symm.trans hc

/-- A thread that claims chunks. -/
theorem Values.progress_run (h : Values S calls)
    (hco : Coordination S.outline (pcsOf calls)) {rpc : RunPc} {i : JobId}
    (ht : pcsOf calls t = some (.run root i rpc)) (hon : rpc.OnTime (S.jobs i))
    (hc' : c'.pc = .afterRun root i ((S.jobs i).runStep S.outline.size rpc).2)
    (hlead : S.outline.coordinator S.latest = .job j) :
    Claimed (S.setJob i ((S.jobs i).runStep S.outline.size rpc).1)
      (Function.update calls t (some c')) j := by
  intro s T k hT hk hsize
  have hjoin := (hco.ok t _ ht).1
  by_cases hij : j = i
  · subst hij
    have hR := hco.runs j hjoin.lt
    have hrun : runs (pcsOf calls) j t = some (.run rpc) := by simp [runs_eq ht, Pc.position]
    have hg := hR.grows hrun
    have hjob : (S.setJob j ((S.jobs j).runStep S.outline.size rpc).1).jobs j =
        ((S.jobs j).runStep S.outline.size rpc).1 := Function.update_self ..
    rw [hjob] at hT hk ⊢
    have hT' : (S.jobs j).table s = some T := (hg.table s).symm.trans hT
    have hpos : c'.pc.position j = ((S.jobs j).runStep S.outline.size rpc).2.position := by
      rw [hc', position_afterRun]
    by_cases hold : k < (S.jobs j).index s
    · refine (h.progress j hlead s T k hT' hold hsize).imp_right ?_
      rintro (ho | ⟨u, p, hp, hcov⟩)
      · exact .inl (hg.overflowed ho)
      · by_cases hu : u = t
        · subst hu
          cases hrun.symm.trans hp
          cases rpc <;> first | exact hcov.elim | exact .inl rfl
        · exact .inr (covers_of_ne hp hcov hu)
    · -- The cell is in the chunk that has just been claimed.
      right
      right
      cases rpc with
      | claim s' U =>
        cases U with
        | none => exact absurd rfl (hR.ok t _ hrun).2.2.2
        | some U =>
          obtain ⟨-, hlen, hU, -⟩ := hR.ok t _ hrun
          have hidx := (S.jobs j).fetchAdd_index s' s hlen
          simp only [Migration.runStep] at hk hpos
          rw [hidx] at hk
          split_ifs at hk with hss
          · subst hss
            obtain rfl : T = U := Option.some.inj (hT'.symm.trans hU)
            have hsize : k < S.outline.size T := hsize
            rw [if_neg (by omega)] at hpos
            refine covers_self hpos ⟨rfl, by omega, ?_⟩
            exact lt_min hk hsize
          · exact absurd hk hold
      | _ => exact absurd hk hold
  · have hjob : (S.setJob i ((S.jobs i).runStep S.outline.size rpc).1).jobs j = S.jobs j :=
      Function.update_of_ne hij ..
    rw [hjob] at hT hk ⊢
    refine (h.progress j hlead s T k hT hk hsize).imp_right (Or.imp_right ?_)
    rintro ⟨u, p, hp, hcov⟩
    refine covers_of_ne hp hcov ?_
    rintro rfl
    rw [runs_eq ht] at hp
    simp [Pc.position, Ne.symm hij] at hp

omit [Fintype Tid] [DecidableEq Tid] in
/-- How a thread goes on from a cell: it stays there, or has moved it, or has to say that
    the destination is full. -/
theorem MigrateEffect.next {dest U k last : ℕ} {mpc : MigratePc} {next : MigrateNext}
    (he : MigrateEffect S dest U k last mpc S' next) (hne : U ≠ dest)
    (hm : mpc.Moves ((S.tables U).value k)) :
    (∃ mpc', next = .goto k mpc') ∨
      (next = nextCell k last ∧ (S'.tables U).value k = mapValMove) ∨ next = .done true := by
  cases he with
  | read pc' => exact .inl ⟨_, rfl⟩
  | skip _ hS hv =>
    subst hS
    exact .inr (.inl ⟨rfl, hv⟩)
  | mark _ hS =>
    subst hS
    exact .inr (.inl ⟨rfl, Shared.write_self⟩)
  | take | search | overflow => exact .inl ⟨_, rfl⟩
  | put g v p n hp _ hS =>
    subst hS hp
    refine .inr (.inl ⟨rfl, ?_⟩)
    rw [Shared.write_of_ne fun he => absurd he hne]
    exact hm.1
  | lose g v p n hp hS =>
    subst hS hp
    exact .inr (.inl ⟨rfl, hm.1⟩)
  | restore => exact .inr (.inr rfl)

omit [Fintype Tid] [DecidableEq Tid] in
/-- Until it restores a value, a thread leaves the cells of the sources moved. -/
theorem MigrateEffect.stays {dest U k last : ℕ} {mpc : MigratePc} {next : MigrateNext}
    (he : MigrateEffect S dest U k last mpc S' next) (hn : next ≠ .done true) (hT : T ≠ dest)
    {i : ℕ} (hv : (S.tables T).value i = mapValMove) : (S'.tables T).value i = mapValMove := by
  have hmark : ((S.write U k mapValMove).tables T).value i = mapValMove := by
    rw [Shared.write_value]
    split_ifs
    · rfl
    · exact hv
  cases he with
  | read _ _ _ hS | skip _ hS | lose _ _ _ _ _ hS =>
    subst hS
    exact hv
  | mark _ hS | take _ _ _ hS =>
    subst hS
    exact hmark
  | search _ _ _ _ X _ hX hS | overflow _ _ _ X _ hX hS =>
    subst hS
    rwa [value_setTable hX]
  | put g v p n hp _ hS =>
    subst hS
    rwa [Shared.write_of_ne fun he => absurd he hT]
  | restore => exact absurd rfl hn

/-- A thread that moves a cell. -/
theorem Values.progress_migrate (h : Values S calls)
    (hco : Coordination S.outline (pcsOf calls)) {i : JobId} {s U k last : ℕ} {mpc : MigratePc}
    {next : MigrateNext} (ht : calls t = some c) (hpc : c.pc = .migrate root i s U k last mpc)
    (he : MigrateEffect S (S.jobs i).dest U k last mpc S' next)
    (hc' : c'.pc = .afterMigrate root i s U last next) (ho : S'.outline = S.outline)
    (hlead : S.outline.coordinator S.latest = .job j) :
    Claimed S' (Function.update calls t (some c')) j := by
  intro s' T n hT hn hsize
  have hmov := hco.moving (pcsOf_eq ht hpc)
  obtain rfl : i = j := by
    cases hmov.lead.symm.trans hlead
    rfl
  have hjobs : S'.jobs = S.jobs := congrArg Outline.jobs ho
  have hsz : (S'.tables T).size = (S.tables T).size :=
    congrArg (fun o : Outline Tid => o.size T) ho
  rw [hjobs] at hT hn ⊢
  rw [hsz] at hsize
  have hTd : T ≠ (S.jobs i).dest := by
    rintro rfl
    exact (hco.layout.sources i hmov.isOpen).dest_ne s' hT
  have hnext := he.next (hmov.ne_dest hco.layout) (h.movers t c U k mpc ht (by rw [hpc]; rfl))
  by_cases hdone : next = .done true
  · -- The destination is full: the thread has to say so.
    subst hdone
    refine .inr (.inr (covers_self (p := .run .setOverflowed) ?_ trivial))
    rw [hc']
    simp [Pc.afterMigrate, Pc.position]
  rcases h.progress i hlead s' T n hT hn hsize with hv | hover | ⟨u, p, hp, hcov⟩
  · exact .inl (he.stays hdone hTd hv)
  · exact .inr (.inl hover)
  · by_cases hu : u = t
    · subst hu
      rw [runs_eq (pcsOf_eq ht hpc)] at hp
      simp only [Option.bind_some, Pc.position, if_true, Option.some.injEq] at hp
      subst hp
      obtain ⟨rfl, hkn, hnl⟩ := hcov
      have hTU : T = U := Option.some.inj (hT.symm.trans hmov.table)
      rcases hnext with ⟨mpc', rfl⟩ | ⟨rfl, hv⟩ | hd
      · refine .inr (.inr (covers_self (p := .migrating s U k last) ?_ ⟨rfl, hkn, hnl⟩))
        rw [hc']
        simp [Pc.afterMigrate, Pc.position]
      · rcases Nat.eq_or_lt_of_le hkn with rfl | hlt
        · exact .inl (hTU ▸ hv)
        · refine .inr (.inr (covers_self (p := .migrating s U (k + 1) last) ?_ ⟨rfl, hlt, hnl⟩))
          rw [hc', nextCell, if_pos (by omega)]
          simp [Pc.afterMigrate, Pc.position]
      · exact absurd hd hdone
    · exact .inr (.inr (covers_of_ne hp hcov hu))

/-- A step of a call keeps the invariant. -/
theorem Values.callStep (h : Values S calls) (hcells : Cells H S calls)
    (hco : Coordination S.outline (pcsOf calls)) (ht : calls t = some c) (hl : c.OnTime S)
    (hs : c.step H signalSafeReaders S t = some (S', c')) :
    Values S' (Function.update calls t (some c')) where
  movers u d T i pc hd hm := by
    rcases ThreadSum.update_eq_some_iff.1 hd with ⟨rfl, he⟩ | ⟨hu, hd⟩
    · cases he
      exact h.moves_self hcells hco ht hs hm
    · exact h.moves_other hcells hco ht hs hd hu hm
  clean j hj i := h.clean_step hcells hco ht hl hs hj i
  sealed T hT hu i hi := h.sealed_step hcells hco ht hl hs hT hu hi
  progress j hlead := by
    cases Call.step_effect (hcells.knows t c ht) hs with
    | store root k hc =>
      exact h.progress_quiet hcells hco ht hl hs (Pc.quiet_of_client hc) hlead
    | quiet hq => exact h.progress_quiet hcells hco ht hl hs hq hlead
    | run root i rpc hpc hS hc =>
      subst hS hc
      rw [Call.OnTime, hpc] at hl
      exact h.progress_run hco (pcsOf_eq ht hpc) hl rfl hlead
    | migrate root i s U k last mpc next hpc he hc ho =>
      have hlead' : S'.outline.coordinator S'.outline.latest = .job j := hlead
      rw [ho] at hlead'
      exact h.progress_migrate hco ht hpc he (by rw [hc]; rfl) ho hlead'
  unmoved hc i := h.unmoved_step hcells hco ht hl hs hc i

omit [Fintype Tid] in
/-- A thread begins or ends its call. -/
theorem Values.update (h : Values S calls) {x : Option (Call Key)}
    (hx : ∀ d ∈ x, d.pc.mover? = none) (hold : ∀ j, (calls t).bind (fun c => c.pc.position j) = none) :
    Values S (Function.update calls t x) where
  movers u d T i pc hd hm := by
    rcases ThreadSum.update_eq_some_iff.1 hd with ⟨-, he⟩ | ⟨-, hd⟩
    · exact nomatch (hx d he).symm.trans hm
    · exact h.movers u d T i pc hd hm
  clean := h.clean
  sealed := h.sealed
  progress j hlead s T i hT hi hsize := by
    refine (h.progress j hlead s T i hT hi hsize).imp_right (Or.imp_right ?_)
    rintro ⟨u, p, hp, hcov⟩
    refine covers_of_ne hp hcov ?_
    rintro rfl
    obtain ⟨pc, hpc, hp⟩ := Option.bind_eq_some_iff.1 hp
    obtain ⟨d, hd, rfl⟩ := Option.map_eq_some_iff.1 hpc
    have hn := hold j
    rw [hd, Option.bind_some, hp] at hn
    cases hn
  unmoved := h.unmoved

/-- The invariant of the map, for all keys. -/
structure Sound (H : Hasher Key) (σ : State Tid Key) : Prop where
  coordination : Coordination σ.shared.outline σ.pcs
  cells : Cells H σ.shared σ.calls
  values : Values σ.shared σ.calls

/-- Every step of the map that is on time keeps it. -/
theorem Sound.next {σ σ' : State Tid Key} {l : Label Tid Key} (h : Sound H σ) (hl : OnTime σ l)
    (hn : (provider Tid H signalSafeReaders).next σ l = some σ') : Sound H σ' where
  coordination := h.coordination.next hl hn
  cells := h.cells.next h.coordination hn
  values := by
    cases State.transition_of_next H signalSafeReaders hn with
    | call t op hc =>
      refine h.values.update (fun d hd => ?_) fun j => by rw [hc]; rfl
      cases hd
      rfl
    | ret t c result hc hret =>
      refine h.values.update (fun d hd => nomatch hd) fun j => ?_
      rw [hc, Option.bind_some, hret]
      rfl
    | step t c c' S' hc hs => exact h.values.callStep h.cells h.coordination hc (hl c hc) hs

omit [DecidableEq Tid] in
theorem Sound.initial (n : BitVec 64) : Sound H (State.new n : State Tid Key) where
  coordination := .initial n
  cells := .initial n
  values := {
    movers := fun _ _ _ _ _ hc => nomatch hc
    clean := fun j hj => absurd hj.1 (Nat.succ_ne_zero j)
    sealed := fun _ hT hu => absurd (.inl ⟨Nat.lt_one_iff.1 hT, fun hc => nomatch hc⟩) hu
    progress := fun _ hj => nomatch hj
    unmoved := fun _ _ hm => nomatch hm }

end Progress

end Steps

end FkProf.ConcurrentMap
