import FkProf.ConcurrentMap.Fitting
import FkProf.ConcurrentMap.Growth
import FkProf.ConcurrentMap.StepsLeft

/-!
# The attempts of a put

A put that finds no room creates a table, moves the values there, and tries again; when
there is no room for them either, or for its own, it creates another one. What the last
table has then is what insertions of the values, one after another, have made of an empty
one, or else they have found no room in a table of its size.

* `Takes`, `Refuses`: a call of `insertOrUpdate` has room, or not;
* `Pc.Fills`: what is known of the last table at each place of the source;
* `Attempt`: the invariant of a put, and `Attempt.step`.
-/

namespace FkProf.ConcurrentMap

variable {Tid Key : Type*}

/-- A call of `insertOrUpdate` stores its value. -/
def Takes (T : HashTable Tid) (h : HashType) (v : ValueType) : Prop :=
  ∃ fuel T' old, insertOrUpdate T h v fuel = some (T', .ok old)

/-- It finds no room. -/
def Refuses (T : HashTable Tid) (h : HashType) (v : ValueType) : Prop :=
  ∃ fuel T', insertOrUpdate T h v fuel = some (T', .overflow)

/-- Insertions have made the table of an empty one, and it has all the hashes. -/
def Complete (P : HashType → Prop) (T : HashTable Tid) : Prop :=
  Filled P T ∧ ∀ g, P g → ∃ i, T.hash i = g

section Places

variable (P : HashType → Prop) (full : ℕ → Prop) (h : HashType) (v : ValueType)

/-- What is known of the last table in `migrateRange`, when it is the destination. -/
def MigratePc.Fills (L : HashTable Tid) : MigratePc → Prop
  | .insert g x p => P g ∧ ∃ T, Filled P T ∧ (∀ i, T.hash i ≠ g) ∧ Underway T L ⟨g, x, p⟩
  | .restore .. => full L.size
  | _ => Filled P L

def MigrateNext.Fills (L : HashTable Tid) : MigrateNext → Prop
  | .goto _ pc => pc.Fills P full L
  | .done true => full L.size
  | .done false => Filled P L

/-- The same in `run`. -/
def RunPc.Fills (L : HashTable Tid) (overflowed : Bool) : RunPc → Prop
  | .setOverflowed => full L.size
  | .overflowEnd | .leave | .loadOverflowed =>
    (overflowed = true → full L.size) ∧ (overflowed = false → Filled P L)
  | _ => overflowed = false ∧ Filled P L

def RunNext.Fills (L : HashTable Tid) (overflowed : Bool) : RunNext → Prop
  | .goto pc => pc.Fills P full L overflowed
  | .migrateRange .. => overflowed = false ∧ Filled P L
  | .complete true => full L.size
  | .complete false => Filled P L
  | .done | .crash => True

/-- The same in the completion of a migration. -/
def CompletePc.Fills (L : HashTable Tid) : CompletePc → Prop
  | .restartTable | .restartLock _ | .restartGet _ | .restartSet _ => full L.size
  | _ => Filled P L

/-- The same in `migrationStart`, with twice the size of the last table. -/
def StartPc.Fills (L : HashTable Tid) : StartPc → Prop
  | .sample .. => False
  | .lock n | .get n | .set n => n = BitVec.ofNat 64 (L.size <<< 1) ∧ full L.size
  | .unlock => Filled P L

/-- What is known of the last table when the put has created it. -/
def Pc.Fills (S : Shared Tid) (L : HashTable Tid) (doubleSize : Bool) : Pc → Prop
  | .loadCurrent => doubleSize = true ∧ Filled P L
  | .insert _ pc => doubleSize = true ∧ ∃ T, Complete P T ∧ Underway T L ⟨h, v, pc⟩
  | .start _ pc => pc.Fills P full L
  | .participate .. | .await .. => Filled P L
  | .run _ j pc => pc.Fills P full L (S.jobs j).overflowed
  | .migrate _ j _ _ _ _ pc => (S.jobs j).overflowed = false ∧ pc.Fills P full L
  | .complete _ _ pc => pc.Fills P full L
  | .ret _ => ∃ T : HashTable Tid, T.size = L.size ∧ Complete P T ∧ Takes T h v
  | _ => True

/-- What is known before the put has created a table: it is in its first attempt. -/
def Pc.First (T : HashTable Tid) (L : HashTable Tid) (doubleSize : Bool) : Pc → Prop
  | .loadCurrent => doubleSize = false ∧ T = L
  | .insert _ pc => doubleSize = false ∧ Underway T L ⟨h, v, pc⟩
  | .start _ .unlock => False
  | .start .. => Refuses T h v
  | .ret _ => Takes T h v
  | _ => False

end Places

/-- The last table. -/
def Shared.last (S : Shared Tid) : TableId := S.nTables - 1

/-- The invariant of a put that began at a state of `N` tables, the current one being `T`,
    with values for the hashes. -/
structure Attempt (P : HashType → Prop) (h : HashType) (v : ValueType) (T : HashTable Tid) (N : ℕ)
    (S : Shared Tid) (calls : Tid → Option (Call Key)) (c : Call Key) : Prop where
  le : N ≤ S.nTables
  live : (∀ r, c.pc ≠ .ret r) → ∀ g, P g ↔ g ≠ mapHashEmpty ∧ ∃ p x, Held S calls g p x
  first : S.nTables = N → c.pc.First h v T (S.tables S.last) c.doubleSize
  refused : N < S.nTables → Refuses T h v
  later : N < S.nTables →
    c.pc.Fills P (fun n => ¬Fits Tid n P h) h v S (S.tables S.last) c.doubleSize

section Steps

variable {H : Hasher Key} {signalSafeReaders : Bool} {S S' : Shared Tid}
  {c c' : Call Key} {t : Tid} {calls : Tid → Option (Call Key)} {root T : TableId} {j : JobId}
  {P : HashType → Prop} {full : ℕ → Prop} {h g : HashType} {v x : ValueType}
  {L L' X T₀ : HashTable Tid} {N : ℕ}

/-- Without an overflow, the hash is in the table, and with one, the hashes do not fit. -/
theorem Underway.insert {p : InsertPc} {outcome : InsertOutcome} (hu : Underway X L ⟨g, x, p⟩)
    (hfull : ∀ n, ¬Roomy Tid n P → full n) (hX : Filled P X) (hg : P g)
    (hnew : ∀ i, X.hash i ≠ g) (hx : Proper x)
    (hs : insertOrUpdateStep L g x p = (L', .done outcome)) :
    (outcome = .overflow → full L'.size) ∧ (∀ old, outcome = .ok old → Filled P L') := by
  obtain ⟨fuel, hrun⟩ := hu.done hs
  have hsize : L'.size = X.size := insertRun_size hrun
  refine ⟨?_, ?_⟩
  · rintro rfl
    exact hfull _ fun hroom => hroom X hX hsize.symm g hg hnew x fuel L' hrun
  · rintro old rfl
    exact hX.insert hg hnew hx hrun

theorem nextCell_fills {i last : ℕ} (hL : Filled P L) : (nextCell i last).Fills P full L := by
  rw [nextCell]
  split_ifs <;> exact hL

/-- Moving a cell. -/
theorem MigratePc.Fills.step {dest U k last : ℕ} {mpc : MigratePc}
    (hf : mpc.Fills P full (S.tables dest)) (hfull : ∀ n, ¬Roomy Tid n P → full n) (hne : dest ≠ U)
    (hmoves : mpc.Moves ((S.tables U).value k))
    (hclean : ∀ i, (S.tables dest).value i ≠ mapValMove)
    (htake : ∀ g x, mpc = .casMove g x → x ≠ mapValEmpty → (S.tables U).value k = x →
      P g ∧ ∀ i, (S.tables dest).hash i ≠ g) :
    (migrateStep S dest U k last mpc).2.Fills P full
      ((migrateStep S dest U k last mpc).1.tables dest) := by
  have hwrite : ∀ v, (S.write U k v).tables dest = S.tables dest := fun v => by
    rw [Shared.write_tables, Function.update_of_ne hne]
  cases mpc with
  | loadHash =>
    simp only [migrateStep]
    split_ifs <;> exact hf
  | casUnused =>
    simp only [migrateStep]
    split_ifs
    · rw [hwrite]
      exact nextCell_fills hf
    · exact nextCell_fills hf
    · exact hf
  | loadValue g =>
    simp only [migrateStep]
    split_ifs
    · exact hf
    · exact nextCell_fills hf
    · exact hf
  | casDeleted g =>
    simp only [migrateStep]
    split_ifs
    · rw [hwrite]
      exact nextCell_fills hf
    · exact hf
  | casMove g x =>
    simp only [migrateStep]
    split_ifs with hv he
    · rw [hwrite]
      exact nextCell_fills hf
    · rw [hwrite]
      obtain ⟨hg, hnew⟩ := htake g x rfl he hv
      exact ⟨hg, _, hf, hnew, .start rfl⟩
    · exact hf
  | insert g x p =>
    obtain ⟨hg, X, hX, hnew, hu⟩ := hf
    have hset : ∀ Y, (S.setTable dest Y).tables dest = Y := fun Y => by
      rw [Shared.setTable_tables, Function.update_self]
    have he := insertOrUpdateStep_effect (S.tables dest) g x p
    simp only [migrateStep, hset]
    rcases hs : insertOrUpdateStep (S.tables dest) g x p with ⟨Y, p' | out⟩
    · exact ⟨hg, X, hX, hnew, hu.step hs⟩
    · obtain ⟨hover, hok⟩ := hu.insert hfull hX hg hnew hmoves.2 hs
      rw [hs] at he
      cases he with
      | store | missed => exact nextCell_fills (hok _ rfl)
      | moved i hm => exact absurd hm (hclean i)
      | overflow => exact hover rfl
  | restore g x =>
    show full ((S.write U k x).tables dest).size
    rwa [hwrite]

/-- The run of a migration. -/
theorem RunPc.Fills.step {sizeOf : TableId → ℕ} {m : Migration} {rpc : RunPc}
    (hf : rpc.Fills P full L m.overflowed) :
    (m.runStep sizeOf rpc).2.Fills P full L (m.runStep sizeOf rpc).1.overflowed := by
  have hends : m.overflowed = false ∧ Filled P L → RunPc.leave.Fills P full L m.overflowed :=
    fun ⟨ho, hL⟩ => ⟨fun ho' => Bool.noConfusion (ho.symm.trans ho'), fun _ => hL⟩
  cases rpc with
  | claim s T =>
    cases T with
    | none => trivial
    | some T =>
      simp only [Migration.runStep]
      split_ifs <;> exact hf
  | enter | leave =>
    simp only [Migration.runStep]
    split_ifs
    · trivial
    · exact hf
  | source s =>
    simp only [Migration.runStep]
    split_ifs
    · exact hf
    · exact hends hf
  | check s T =>
    simp only [Migration.runStep]
    split_ifs
    · exact hends hf
    · exact hf
  | finished =>
    simp only [Migration.runStep]
    split_ifs <;> exact hf
  | increment | overflowEnd => exact hf
  | successEnd => exact hends hf
  | setOverflowed => exact ⟨fun _ => hf, fun ho => Bool.noConfusion ho⟩
  | loadOverflowed =>
    simp only [Migration.runStep]
    cases ho : m.overflowed with
    | true => exact hf.1 ho
    | false => exact hf.2 ho

/-! ## Which table is the last -/

/-- Before a migration starts, the current table is the last one. -/
theorem Outline.Grown.last_of_null (hg : S.outline.Grown) (hl : S.outline.Layout)
    (hnull : S.outline.coordinator S.outline.latest = .null) : S.last = S.outline.latest := by
  have hlast : S.outline.latest + 1 = S.nTables := hg.latest (hl.null hnull)
  rw [Shared.last, ← hlast]
  rfl

/-- The destination of the migration under way is the last one. -/
theorem Outline.Grown.last_of_open (hg : S.outline.Grown) (hj : S.outline.Open j) :
    S.last = (S.jobs j).dest := by
  have hlast : (S.jobs j).dest + 1 = S.nTables := hg.dest j hj
  rw [Shared.last, ← hlast]
  rfl

theorem Outline.Grown.last_ne (hg : S.outline.Grown) (hj : S.outline.Open j) :
    S.last ≠ S.outline.latest := by
  rw [hg.last_of_open hj]
  exact fun he => hj.2 (.inl he)

theorem tables_last (hroot : S.last = root) :
    (S.setTable root X).tables (S.setTable root X).last = X := by
  rw [show (S.setTable root X).last = root from hroot, Shared.setTable_tables, Function.update_self]

/-- The table that is created. -/
theorem tables_begin {n : BitVec 64} {m : Migration} {co : JobCoordinator} (S : Shared Tid)
    (hroot : root < S.nTables) :
    (((S.newTable n).newJob m).setCoordinator root co).tables
      (((S.newTable n).newJob m).setCoordinator root co).last = .new n := by
  show Function.update (Function.update S.tables S.nTables (.new n)) root _ S.nTables = _
  rw [Function.update_of_ne hroot.ne', Function.update_self]

/-- The start of a migration. -/
theorem StartPc.Fills.step {spc : StartPc} {next : StartNext}
    (hf : spc.Fills P full (S.tables S.last)) (hphase : (Pc.start root spc).Phase S.outline)
    (hg : S.outline.Grown) (hl : S.outline.Layout)
    (hs : startStep S t root spc = some (S', next)) (b : Bool) :
    (Pc.afterStart root next).Fills P full h v S' (S'.tables S'.last) b := by
  cases spc with
  | sample i n => exact hf.elim
  | lock n =>
    obtain ⟨S₁, hlock, he⟩ := Option.map_eq_some_iff.1 hs
    cases he
    have ho := (outline_lock hlock).2
    have hlast : S'.last = S.last := congrArg (fun o => o.nTables - 1) ho
    have hsize : (S'.tables S.last).size = (S.tables S.last).size :=
      congrArg (fun o => o.size S.last) ho
    show n = BitVec.ofNat 64 ((S'.tables S'.last).size <<< 1) ∧ full (S'.tables S'.last).size
    rw [hlast, hsize]
    exact hf
  | get n =>
    cases hs
    have hnull : (S.tables root).coordinator = .null := hphase.1 ▸ hphase.2
    rw [if_pos hnull]
    exact hf
  | set n =>
    cases hs
    have hroot : root < S.nTables := hl.published_lt root (.inl hphase.1)
    show Filled P (Shared.tables _ (Shared.last _))
    rw [tables_begin S hroot]
    exact .new n
  | unlock =>
    cases hs
    obtain ⟨rfl, j, hj⟩ := hphase
    have hne := hg.last_ne (hl.job j hj)
    show Filled P ((S.unlock S.outline.latest).tables S.last)
    rw [Shared.unlock, Shared.setTable_tables, Function.update_of_ne hne]
    exact hf

/-- The end of a migration, or its restart. -/
theorem CompletePc.Fills.step [Fintype Tid] {cpc : CompletePc} {next : CompleteNext}
    (hf : cpc.Fills P full (S.tables S.last)) (hphase : (Pc.complete root j cpc).Phase S.outline)
    (hg : S.outline.Grown) (hco : Coordination S.outline (pcsOf calls))
    (ht : pcsOf calls t = some (.complete root j cpc))
    (hs : completeStep S t j cpc = some (S', next)) (b : Bool) :
    (Pc.afterComplete root j next).Fills P full h v S' (S'.tables S'.last) b := by
  obtain ⟨hjoin, -, hok⟩ := hco.ok t _ ht
  have hl := hco.layout
  -- The current table is not the last one, when a migration of it is under way.
  have hkeep : ∀ {X : HashTable Tid} {i : JobId}, S.outline.coordinator S.outline.latest = .job i →
      (S.setTable S.outline.latest X).tables S.last = S.tables S.last := fun hc => by
    rw [Shared.setTable_tables, Function.update_of_ne (hg.last_ne (hl.job _ hc))]
  have htable : ∀ {T}, S.outline.coordinator S.outline.latest = .job j →
      (S.jobs j).table 0 = some T → T = S.outline.latest := fun hc hT =>
    Option.some.inj (hT.symm.trans (hl.sources j (hl.job j hc)).root)
  cases cpc with
  | setVictim | endCoordinator =>
    simp only [completeStep, Option.some.injEq] at hs
    split at hs <;> cases hs
    · rename_i T hT
      obtain rfl := htable hphase.2 hT
      show Filled P ((S.setTable S.outline.latest _).tables S.last)
      rw [hkeep hphase.2]
      exact hf
    · trivial
  | finishLoad =>
    cases hs
    exact hf
  | finishStore old =>
    cases hs
    have hlast : (S.publish (S.jobs j).dest).last = S.last := by
      rw [Shared.publish]
      split_ifs <;> rfl
    have htables : (S.publish (S.jobs j).dest).tables = S.tables := by
      rw [Shared.publish]
      split_ifs <;> rfl
    show Filled P ((S.publish (S.jobs j).dest).tables (S.publish (S.jobs j).dest).last)
    rw [hlast, htables]
    exact hf
  | finishDelete old =>
    cases hs
    exact hf
  | restartTable =>
    simp only [completeStep, Option.some.injEq, Prod.mk.injEq] at hs
    obtain ⟨rfl, rfl⟩ := hs
    split
    · exact hf
    · trivial
  | restartLock T =>
    obtain ⟨S₁, hlock, he⟩ := Option.map_eq_some_iff.1 hs
    cases he
    have ho := (outline_lock hlock).2
    have hlast : S'.last = S.last := congrArg (fun o => o.nTables - 1) ho
    have hsize : (S'.tables S.last).size = (S.tables S.last).size :=
      congrArg (fun o => o.size S.last) ho
    show full (S'.tables S'.last).size
    rw [hlast, hsize]
    exact hf
  | restartGet T =>
    cases hs
    obtain ⟨rfl, hc, -⟩ := hok
    have hc' : (S.tables T).coordinator = .job j := hc
    rw [if_pos hc']
    exact hf
  | restartSet T =>
    simp only [completeStep, Option.some.injEq] at hs
    obtain ⟨rfl, -⟩ := hok
    split_ifs at hs <;> cases hs
    · have hroot : T < (S.setJob j (S.jobs j).handedOver).nTables :=
        hl.published_lt T hjoin.published
      show Filled P (Shared.tables _ (Shared.last _))
      rw [Shared.restart, tables_begin _ hroot]
      exact .new _
    · trivial
  | restartUnlock T =>
    cases hs
    obtain ⟨rfl, -⟩ := hok
    obtain ⟨rfl, i, hi⟩ := hphase
    show Filled P ((S.setTable S.outline.latest _).tables S.last)
    rw [hkeep hi]
    exact hf

/-- The values that a migration moves are those of the hashes, and the destination has none
    for the one that it is about to move. -/
theorem Custody.take (hcustody : ∀ g, g ≠ mapHashEmpty → Custody S calls g)
    (hlive : ∀ g, P g ↔ g ≠ mapHashEmpty ∧ ∃ p x, Held S calls g p x) (hcells : Cells H S calls)
    (hval : Values S calls) (ht : calls t = some c)
    {s U k last : ℕ} (hpc : c.pc = .migrate root j s U k last (.casMove g x))
    (hne : (S.jobs j).dest ≠ U) (hfill : Filled P (S.tables (S.jobs j).dest))
    (hx : x ≠ mapValEmpty) (hv : (S.tables U).value k = x) :
    P g ∧ ∀ i, (S.tables (S.jobs j).dest).hash i ≠ g := by
  have hknows := hcells.knows t c ht
  rw [Call.Knows, hpc] at hknows
  obtain ⟨hk, hg⟩ := hknows
  have hmoves := hval.movers t c U k _ ht (by rw [hpc]; rfl)
  have hheld : Held S calls g (.cell U k) x := ⟨hk, hv, hx, hmoves.2⟩
  refine ⟨(hlive g).2 ⟨hg, _, _, hheld⟩, fun i hi => ?_⟩
  -- It would have the value twice.
  have hcell : Held S calls g (.cell (S.jobs j).dest i) _ :=
    ⟨hi, rfl, (hfill.allocated (hi ▸ hg)).2⟩
  cases ((hcustody g hg).sole _ _ _ _ hcell hheld).1
  exact hne rfl

/-- A step of the first attempt, before it creates a table. -/
theorem Pc.First.step
    (hf : c.pc.First (H.hash c.op.key) c.op.value T₀ (S.tables S.last) c.doubleSize)
    (hput : c.IsPut) (hphase : c.pc.Phase S.outline) (hval : Values S calls)
    (hl : S.outline.Layout) (hg : S.outline.Grown)
    (hs : c.step H signalSafeReaders S t = some (S', c')) (hn : S'.nTables = S.nTables) :
    c'.pc.First (H.hash c.op.key) c.op.value T₀ (S'.tables S'.last) c'.doubleSize := by
  obtain ⟨op, doubleSize, pc⟩ := c
  cases pc with
  | loadCurrent =>
    cases hs
    obtain ⟨k, v, rfl⟩ := hput
    have hcur : S.current = S.last := hl.current.trans (hg.last_of_null hl hphase).symm
    obtain ⟨hdouble, rfl⟩ := hf
    exact ⟨hdouble, .start (by rw [hcur]; rfl)⟩
  | insert root pc =>
    rw [Call.step_insert] at hs
    cases hs
    obtain ⟨hdouble, hu⟩ := hf
    have hroot : S.last = root := (hg.last_of_null hl hphase.2).trans hphase.1.symm
    rw [hroot] at hu
    rw [tables_last hroot]
    have he := insertOrUpdateStep_effect (S.tables root) (H.hash op.key) op.value pc
    rcases hstep : insertOrUpdateStep (S.tables root) (H.hash op.key) op.value pc with
      ⟨Y, pc' | out⟩
    · exact ⟨hdouble, hu.step hstep⟩
    · obtain ⟨fuel, hrun⟩ := hu.done hstep
      rw [hstep] at he
      cases he with
      | store | missed => exact ⟨fuel, Y, _, hrun⟩
      | moved k hm => exact absurd hm (hval.ne_move hphase k)
      | overflow =>
        have hstart : migrationStart Y doubleSize = .sample 0 0 :=
          if_neg (Bool.eq_false_iff.1 hdouble)
        show (Pc.start root (migrationStart Y doubleSize)).First _ _ _ _ _
        rw [hstart]
        exact ⟨fuel, Y, hrun⟩
  | start root pc =>
    obtain ⟨⟨S₁, next⟩, hstep, he⟩ := Option.map_eq_some_iff.1 hs
    cases he
    cases pc with
    | sample i n =>
      cases hstep
      rw [if_neg (hval.ne_move hphase i)]
      split_ifs <;> exact hf
    | lock n =>
      obtain ⟨S₂, -, he⟩ := Option.map_eq_some_iff.1 hstep
      cases he
      exact hf
    | get n =>
      cases hstep
      have hnull : (S.tables root).coordinator = .null := hphase.1 ▸ hphase.2
      rw [if_pos hnull]
      exact hf
    | set n =>
      cases hstep
      exact absurd hn (Nat.succ_ne_self S.nTables)
    | unlock => exact hf.elim
  | find | findNext | getValue | removeLoad | removeCas | participate | await | run | migrate
  | complete | crashed => exact hf.elim
  | ret => cases hs

/-- The first attempt creates a table. -/
theorem Pc.First.create {y : HashTable Tid} {b : Bool} (hf : c.pc.First h v T₀ y b)
    (hphase : c.pc.Phase S.outline) (hl : S.outline.Layout)
    (hs : c.step H signalSafeReaders S t = some (S', c')) (hn : S'.nTables ≠ S.nTables) :
    Refuses T₀ h v ∧ c'.pc.Fills P full h v S' (S'.tables S'.last) c'.doubleSize := by
  cases Call.step_creates hs with
  | none he => exact absurd he hn
  | table n _ _ hpc =>
    obtain ⟨op, doubleSize, pc⟩ := c
    rcases hpc with ⟨root, rfl⟩ | ⟨root, j, T, rfl, -⟩
    · cases hs
      have hroot : root < S.nTables := hl.published_lt root (.inl hphase.1)
      refine ⟨hf, ?_⟩
      show Filled P (Shared.tables _ (Shared.last _))
      rw [tables_begin S hroot]
      exact .new n
    · exact hf.elim

variable [Fintype Tid]

/-- A migration that nobody has run has not overflowed. -/
theorem Coordination.not_overflowed (hco : Coordination S.outline (pcsOf calls))
    (ht : calls t = some c) (hone : ∀ u, u ≠ t → calls u = none) (hj : j < S.nJobs)
    (hpos : c.pc.position j = none) (hstate : (S.jobs j).state = 0) :
    (S.jobs j).overflowed = false := by
  by_contra ho
  rcases (hco.runs j hj).census.overflow (Bool.not_eq_false _ ▸ ho) with hended | hpos'
  · rw [Migration.Ended, show (S.outline.jobs j).state = 0 from hstate] at hended
    cases hended
  · refine absurd hpos' (Nat.not_lt.2 (tally_eq_zero.2 fun u p hu => ?_).le)
    have hnone : FkProf.ConcurrentMap.runs (pcsOf calls) j u = none := by
      by_cases hut : u = t
      · rw [hut, runs_eq (pcsOf_eq ht rfl)]
        exact hpos
      · rw [FkProf.ConcurrentMap.runs, pcsOf, hone u hut]
        rfl
    cases hnone.symm.trans hu

/-- A step of a put that has created a table. -/
theorem Pc.Fills.step
    (hf : c.pc.Fills P full (H.hash c.op.key) c.op.value S (S.tables S.last) c.doubleSize)
    (hfull : ∀ n, ¬Fits Tid n P (H.hash c.op.key) → full n)
    (hlive : ∀ g, P g ↔ g ≠ mapHashEmpty ∧ ∃ p x, Held S calls g p x)
    (hput : c.IsPut) (hprompt : c.pc.Prompt S) (hphase : c.pc.Phase S.outline)
    (hcustody : ∀ g, g ≠ mapHashEmpty → Custody S calls g) (hval : Values S calls)
    (hcells : Cells H S calls) (hco : Coordination S.outline (pcsOf calls)) (ht : calls t = some c)
    (hone : ∀ u, u ≠ t → calls u = none) (hg : S.outline.Grown)
    (hs : c.step H signalSafeReaders S t = some (S', c')) :
    c'.pc.Fills P full (H.hash c.op.key) c.op.value S' (S'.tables S'.last) c'.doubleSize := by
  have hroom : ∀ n, ¬Roomy Tid n P → full n := fun n hn => hfull n fun hfits => hn hfits.room
  have hpc := pcsOf_eq ht rfl
  have hok := hco.ok t _ hpc
  have hknows := hcells.knows t c ht
  have hl := hco.layout
  obtain ⟨op, doubleSize, pc⟩ := c
  cases pc with
  | loadCurrent =>
    cases hs
    obtain ⟨k, v, rfl⟩ := hput
    have hcur : S.current = S.last := hl.current.trans (hg.last_of_null hl hphase).symm
    refine ⟨hf.1, _, ⟨hf.2, fun g hPg => ?_⟩, .start (by rw [hcur]; rfl)⟩
    obtain ⟨hne, p, x, hp⟩ := (hlive g).1 hPg
    obtain ⟨i, rfl⟩ := (hcustody g hne).held_latest hval hphase hp
    rw [hg.last_of_null hl hphase]
    exact ⟨i, hp.1⟩
  | insert root pc =>
    rw [Call.step_insert] at hs
    cases hs
    obtain ⟨hdouble, X, hX, hu⟩ := hf
    have hroot : S.last = root := (hg.last_of_null hl hphase.2).trans hphase.1.symm
    rw [hroot] at hu
    rw [tables_last hroot]
    have he := insertOrUpdateStep_effect (S.tables root) (H.hash op.key) op.value pc
    rcases hstep : insertOrUpdateStep (S.tables root) (H.hash op.key) op.value pc with
      ⟨Y, pc' | out⟩
    · exact ⟨hdouble, X, hX, hu.step hstep⟩
    · obtain ⟨fuel, hrun⟩ := hu.done hstep
      have hsize : Y.size = X.size := insertRun_size hrun
      rw [hstep] at he
      cases he with
      | store | missed => exact ⟨X, hsize.symm, hX, fuel, Y, _, hrun⟩
      | moved k hm => exact absurd hm (hval.ne_move hphase k)
      | overflow =>
        have hstart : migrationStart Y doubleSize = .lock (BitVec.ofNat 64 (Y.size <<< 1)) :=
          if_pos hdouble
        show (migrationStart Y doubleSize).Fills P full Y
        rw [hstart]
        exact ⟨rfl, hfull _ fun hfits => hfits.key X hX.1 hsize.symm hX.2 op.value fuel Y hrun⟩
  | find | findNext => exact absurd hput hknows.1
  | getValue | removeLoad | removeCas =>
    obtain ⟨k, v, rfl⟩ := hput
    exact nomatch hknows.1
  | start root pc =>
    obtain ⟨⟨S₁, next⟩, hstep, he⟩ := Option.map_eq_some_iff.1 hs
    cases he
    have hnext := StartPc.Fills.step (h := H.hash op.key) (v := op.value) hf hphase hg hl hstep
      doubleSize
    cases next <;> exact hnext
  | participate root prevJob =>
    cases hs
    obtain ⟨hne, hfresh⟩ := hprompt
    simp only [Call.participate, if_neg hne]
    rcases hphase with ⟨rfl, i, hi⟩ | ⟨he, -⟩
    · have hi' : (S.tables S.outline.latest).coordinator = .job i := hi
      rw [hi']
      exact ⟨hco.not_overflowed ht hone (hl.job i hi).lt rfl (hfresh i hi), hf⟩
    · have he' : (S.tables root).coordinator = .ended := he
      rw [he']
      exact ⟨rfl, hf⟩
  | run root i pc =>
    rw [Call.step_run] at hs
    cases hs
    have hnext : ((S.jobs i).runStep S.outline.size pc).2.Fills P full _ _ := RunPc.Fills.step hf
    have hjob : ((S.setJob i ((S.jobs i).runStep S.outline.size pc).1).jobs i) =
        ((S.jobs i).runStep S.outline.size pc).1 := Function.update_self ..
    cases hn : ((S.jobs i).runStep S.outline.size pc).2 with
    | goto pc' =>
      rw [hn] at hnext
      show pc'.Fills P full _ (Shared.jobs _ i).overflowed
      rwa [hjob]
    | migrateRange s T k last =>
      rw [hn] at hnext
      show (Shared.jobs _ i).overflowed = false ∧ _
      rwa [hjob]
    | complete overflow =>
      rw [hn] at hnext
      cases overflow <;> exact hnext
    | done =>
      rcases leaves_of_done hn with ⟨rfl, hended⟩ | ⟨rfl, hstate⟩
      · rw [Migration.Ended, show (S.jobs i).state = 0 from hprompt] at hended
        cases hended
      · exact absurd hstate (not_lt.2 (hco.state_le hone hok.1.lt))
    | crash => trivial
  | migrate root i s T k last pc =>
    rw [Call.step_migrate] at hs
    cases hs
    obtain ⟨ho, hf⟩ := hf
    have hmov := hco.moving hpc
    have hlast := hg.last_of_open hmov.isOpen
    have hne : (S.jobs i).dest ≠ T := fun he => hmov.ne_dest hl he.symm
    have hout := migrateStep_outline S (S.jobs i).dest T k last pc
    rw [hlast] at hf
    have hnext : (migrateStep S (S.jobs i).dest T k last pc).2.Fills P full _ :=
      hf.step hroom hne (hval.movers t _ T k pc ht rfl) (hval.clean i hmov.isOpen) fun g x he hx hv => by
        subst he
        exact Custody.take hcustody hlive hcells hval ht rfl hne hf hx hv
    have hlast' : (migrateStep S (S.jobs i).dest T k last pc).1.last = (S.jobs i).dest :=
      (congrArg (fun o => o.nTables - 1) hout).trans hlast
    have hjobs : (migrateStep S (S.jobs i).dest T k last pc).1.jobs = S.jobs :=
      congrArg Outline.jobs hout
    rw [hlast']
    cases hn : (migrateStep S (S.jobs i).dest T k last pc).2 with
    | goto k' pc' =>
      rw [hn] at hnext
      show (Shared.jobs _ i).overflowed = false ∧ _
      rw [hjobs]
      exact ⟨ho, hnext⟩
    | done rangeOverflow =>
      rw [hn] at hnext
      cases rangeOverflow with
      | true => exact hnext
      | false =>
        show (Shared.jobs _ i).overflowed = false ∧ _
        rw [hjobs]
        exact ⟨ho, hnext⟩
  | complete root i pc =>
    obtain ⟨⟨S₁, next⟩, hstep, he⟩ := Option.map_eq_some_iff.1 hs
    cases he
    have hnext := CompletePc.Fills.step (h := H.hash op.key) (v := op.value) hf hphase hg hco hpc
      hstep doubleSize
    cases next <;> exact hnext
  | ret => cases hs
  | await | crashed => exact hprompt.elim

/-- Until it stores its value, a put leaves those of the hashes. -/
theorem Custody.live_step [DecidableEq Tid] (hC : Custody S calls g) (hval : Values S calls)
    (hcells : Cells H S calls) (hco : Coordination S.outline (pcsOf calls)) (ht : calls t = some c)
    (hg : g ≠ mapHashEmpty) (hs : c.step H signalSafeReaders S t = some (S', c'))
    (hret : ∀ r, c'.pc ≠ .ret r) :
    (∃ p x, Held S' (Function.update calls t (some c')) g p x) ↔ ∃ p x, Held S calls g p x := by
  cases hC.handover hval hcells hco ht hg hs with
  | same hsame => exact exists_congr fun p => exists_congr fun x => hsame p x
  | move p q x hp hat => exact iff_of_true ⟨q, x, hat.holds⟩ ⟨p, x, hp⟩
  | store k _ _ _ _ _ _ hc' => exact absurd (by rw [hc']; rfl) (hret _)

end Steps

/-! ## Runs -/

section Runs

variable [Fintype Tid] [DecidableEq Tid] {H : Hasher Key} {signalSafeReaders : Bool}
  {σ σ' : State Tid Key} {l : Label Tid Key} {t : Tid} {c c' : Call Key} {S' : Shared Tid}
  {P : HashType → Prop} {T₀ : HashTable Tid} {N m : ℕ}

/-- What holds in every run in which no calls overlap. -/
structure Ready (H : Hasher Key) (σ : State Tid Key) : Prop where
  solo : Solo H σ
  unhindered : Unhindered σ
  grown : σ.shared.outline.Grown

theorem Ready.next (h : Ready H σ) (hl : Alone σ l)
    (hn : (provider Tid H signalSafeReaders).next σ l = some σ') : Ready H σ' :=
  ⟨h.solo.next hl hn, h.unhindered.next h.solo hl hn, h.grown.next h.solo hn⟩

/-- A step of a put keeps the invariant. -/
theorem Attempt.step (h : Attempt P (H.hash c.op.key) c.op.value T₀ N σ.shared σ.calls c)
    (hready : Ready H σ) (hput : c.IsPut) (hc : σ.calls t = some c)
    (hs : c.step H signalSafeReaders σ.shared t = some (S', c')) :
    Attempt P (H.hash c'.op.key) c'.op.value T₀ N S' (Function.update σ.calls t (some c')) c' := by
  obtain ⟨hsolo, hun, hg⟩ := hready
  obtain ⟨hco, hcells, hval⟩ := hsolo.sound
  have hphase : c.pc.Phase σ.shared.outline := (hsolo.lone t c hc).phase
  have hle := Call.step_nTables hs
  have hlive := h.live fun r hr => by
    rw [Call.step, hr] at hs
    cases hs
  rw [Call.step_op hs]
  have hcreate : N = σ.shared.nTables → N < S'.nTables →
      Refuses T₀ (H.hash c.op.key) c.op.value ∧
        c'.pc.Fills P (fun n => ¬Fits Tid n P (H.hash c.op.key)) (H.hash c.op.key) c.op.value S'
          (S'.tables S'.last) c'.doubleSize :=
    fun hsame hN => (h.first hsame.symm).create hphase hco.layout hs (hsame ▸ hN.ne')
  refine ⟨h.le.trans hle, fun hret g => ?_, fun hN => ?_, fun hN => ?_, fun hN => ?_⟩
  · rw [hlive g]
    refine and_congr_right fun hne => ?_
    exact ((hsolo.custody g hne).live_step hval hcells hco hc hne hs hret).symm
  · have hsame : σ.shared.nTables = N := Nat.le_antisymm (hN ▸ hle) h.le
    exact (h.first hsame).step hput hphase hval hco.layout hg hs (hN.trans hsame.symm)
  · rcases h.le.eq_or_lt with hsame | hlt
    · exact (hcreate hsame hN).1
    · exact h.refused hlt
  · rcases h.le.eq_or_lt with hsame | hlt
    · exact (hcreate hsame hN).2
    · exact (h.later hlt).step (fun _ hn => hn) hlive hput ((hun.lone t c hc).prompt c rfl) hphase hsolo.custody hval
        hcells hco hc (fun u hu => hsolo.alone hc hu) hg hs

/-- How many tables a put creates at most, before one has `2 ^ m` cells. -/
def Shared.budget (S : Shared Tid) (m N : ℕ) : ℕ :=
  if S.nTables = N then 26 else away m (S.tables S.last).size

omit [DecidableEq Tid] in
/-- Each table that a put creates has room, or brings it nearer to one that has. -/
theorem Attempt.budget_step (h : Attempt P (H.hash c.op.key) c.op.value T₀ N σ.shared σ.calls c)
    (hready : Ready H σ) (hm : IsExponent m) (hroom : ¬Refuses T₀ (H.hash c.op.key) c.op.value ∨
      Fits Tid (2 ^ m) P (H.hash c.op.key)) (hc : σ.calls t = some c)
    (hs : c.step H signalSafeReaders σ.shared t = some (S', c')) :
    S'.nTables = σ.shared.nTables ∧ S'.budget m N = σ.shared.budget m N ∨
      S'.nTables = σ.shared.nTables + 1 ∧ S'.budget m N < σ.shared.budget m N := by
  obtain ⟨hsolo, -, hg⟩ := hready
  obtain ⟨hco, -, -⟩ := hsolo.sound
  have hphase : c.pc.Phase σ.shared.outline := (hsolo.lone t c hc).phase
  cases Call.step_creates hs with
  | none hn hsize =>
    have hlast : (S'.tables S'.last).size = (σ.shared.tables σ.shared.last).size := by
      rw [Shared.last, hn]
      exact congrFun hsize _
    exact .inl ⟨hn, by rw [Shared.budget, Shared.budget, hn, hlast]⟩
  | table n hn hsize hpc =>
    refine .inr ⟨hn, ?_⟩
    have hlast : (S'.tables S'.last).size = allocatedSize n := by
      rw [Shared.last, hn]
      exact (congrFun hsize _).trans (Function.update_self ..)
    have hle := h.le
    rw [Shared.budget, if_neg (by omega), hlast, Shared.budget]
    split_ifs with hN
    · exact away_lt _ _
    · -- The last table has no room, and the new one is twice as large.
      have hfill := h.later (by omega)
      have hdouble : n = BitVec.ofNat 64 ((σ.shared.tables σ.shared.last).size <<< 1) ∧
          ¬Fits Tid (σ.shared.tables σ.shared.last).size P (H.hash c.op.key) := by
        rcases hpc with ⟨root, hpc⟩ | ⟨root, j, T, hpc, hn'⟩
        · rw [hpc] at hfill
          exact hfill
        · rw [hpc] at hfill hphase
          rw [hg.last_of_open (hco.layout.job j hphase.2)] at hfill ⊢
          exact ⟨hn', hfill⟩
      obtain ⟨a, ha, hsa⟩ := hg.size σ.shared.last
      have hsa' : (σ.shared.tables σ.shared.last).size = 2 ^ a := hsa
      rw [hsa'] at hdouble ⊢
      rw [hdouble.1]
      refine away_double hm ha fun he => hdouble.2 ?_
      rw [he]
      exact hroom.resolve_left fun hno => hno (h.refused (by omega))

end Runs

end FkProf.ConcurrentMap
