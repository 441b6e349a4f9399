import FkProf.ConcurrentMap.Completion
import FkProf.ConcurrentMap.Custody
import FkProf.ConcurrentMap.Strict

/-!
# Looking a key up

A thread that looks a key up walks along its chain in the table that it has found
as the current one, which may be migrated meanwhile. It finds the cell of the key,
if that is there, and in it the value of the key, or the mark of a value that has
been moved: then it starts again, after the migration.

* `Call.step_ret`, `Call.step_client`, `Call.step_search`: how a call comes to its
  result, to a store, and to the search of a table;
* `Custody.value_eq`: what a thread finds in the cell of a key;
* `get_reads`: as long as nobody puts or removes the key, a `get` returns its value;
* `exists_get_misses`: a run in which it does not: two threads have allocated a cell
  to the key, and the migration has inserted the one's value over the other's.
-/

namespace FkProf.ConcurrentMap

variable {Tid Key : Type*}

/-- The table that the thread searches. -/
def Pc.search? : Pc → Option TableId
  | .find root _ | .findNext root _ => some root
  | _ => none

/-- The table has a cell for the hash. -/
def HashTable.Allocated (T : HashTable Tid) (h : HashType) : Prop := ∃ i, T.hash i = h

section Steps

variable {H : Hasher Key} {signalSafeReaders : Bool} {S S' : Shared Tid} {c c' : Call Key}
  {t u : Tid} {root : TableId} {i : ℕ} {r x w : ValueType} {h : HashType}

/-- How a call comes to its result. -/
inductive Answer (S : Shared Tid) (c : Call Key) : ValueType → Prop
  | store (root : TableId) (i : ℕ) :
      c.pc.client? = some (root, i, (S.tables root).value i) → Answer S c ((S.tables root).value i)
  | read (root : TableId) (i : ℕ) : c.pc = .getValue root i →
      (S.tables root).value i ≠ mapValMove → Answer S c ((S.tables root).value i)
  | absent (root : TableId) (i : ℕ) : c.pc = .find root i →
      (S.tables root).hash i = mapHashEmpty → Answer S c mapValEmpty
  | last (root : TableId) (i : ℕ) : c.pc = .findNext root i → Last (S.tables root) i →
      Answer S c mapValEmpty
  | refused (root : TableId) (p : InsertPc) (i : ℕ) (old : ValueType) : c.pc = .insert root p →
      p.cas? = some (i, old) → (S.tables root).value i ≠ old →
      (p = .updateCas i old ∨ (S.tables root).value i ≠ mapValMove) →
      Answer S c ((S.tables root).value i)
  | missed (root : TableId) (i : ℕ) (old : ValueType) : c.pc = .removeCas root i old →
      (S.tables root).value i ≠ old → Answer S c mapValEmpty

/-- How a call goes on: it searches a table, or is about to store, or comes to its
    result, or does something else. -/
inductive Course (S : Shared Tid) (c : Call Key) (S' : Shared Tid) (c' : Call Key) : Prop
  | elsewhere : c'.pc.search? = none → c'.pc.client? = none → (∀ r, c'.pc ≠ .ret r) →
      Course S c S' c'
  | search (root : TableId) : S' = S → c'.pc.search? = some root → c'.pc.client? = none →
      (∀ r, c'.pc ≠ .ret r) → c.pc.search? = some root ∨ c.pc = .loadCurrent ∧ root = S.current →
      Course S c S' c'
  | aim (root : TableId) (i : ℕ) : c'.pc.search? = none →
      c'.pc.client? = some (root, i, (S.tables root).value i) →
      (S.tables root).value i ≠ mapValMove → (∀ r, c'.pc ≠ .ret r) → Course S c S' c'
  | answer (r : ValueType) : c'.pc = .ret r → Answer S c r → Course S c S' c'

theorem Call.step_course (hs : c.step H signalSafeReaders S t = some (S', c')) :
    c'.op = c.op ∧ Course S c S' c' := by
  obtain ⟨op, doubleSize, pc⟩ := c
  cases pc with
  | insert root pc =>
    rw [Call.step_insert] at hs
    cases hs
    have he := insertOrUpdateStep_effect (S.tables root) (H.hash op.key) op.value pc
    revert he
    cases (insertOrUpdateStep (S.tables root) (H.hash op.key) op.value pc).2 with
    | goto pc' =>
      intro he
      cases he with
      | search _ _ hcas =>
        refine ⟨rfl, ?_⟩
        cases hc : pc'.cas? with
        | none =>
          exact .elsewhere rfl (by rw [afterInsert, goto, Pc.client?, hc]; rfl)
            fun _ => Pc.noConfusion
        | some x =>
          obtain ⟨k, y⟩ := x
          obtain ⟨rfl, hm⟩ := hcas k y hc
          exact .aim root k rfl (by rw [afterInsert, goto, Pc.client?, hc]; rfl) hm
            fun _ => Pc.noConfusion
    | done out =>
      intro he
      refine ⟨by cases out <;> rfl, ?_⟩
      cases he with
      | store k hk => exact .answer _ rfl (.store root k (Option.map_eq_some_iff.2 ⟨_, hk, rfl⟩))
      | missed k old hk hne _ hor => exact .answer _ rfl (.refused root pc k old rfl hk hne hor)
      | moved | overflow => exact .elsewhere rfl rfl fun _ => Pc.noConfusion
  | loadCurrent =>
    cases hs
    refine ⟨rfl, ?_⟩
    cases op with
    | put => exact .elsewhere rfl rfl fun _ => Pc.noConfusion
    | get | remove =>
      exact .search S.current rfl rfl rfl (fun _ => Pc.noConfusion) (.inr ⟨rfl, rfl⟩)
  | find root i =>
    cases hs
    refine ⟨rfl, ?_⟩
    dsimp only [goto]
    split_ifs with he hh
    · exact .answer _ rfl (.absent root i rfl he)
    · cases op <;> exact .elsewhere rfl rfl fun _ => Pc.noConfusion
    · exact .search root rfl rfl rfl (fun _ => Pc.noConfusion) (.inl rfl)
  | findNext root i =>
    cases hs
    refine ⟨rfl, ?_⟩
    dsimp only [goto]
    split_ifs with hd
    · exact .answer _ rfl (.last root i rfl hd)
    · exact .search root rfl rfl rfl (fun _ => Pc.noConfusion) (.inl rfl)
  | getValue root i =>
    cases hs
    refine ⟨rfl, ?_⟩
    dsimp only [goto]
    split_ifs with hm
    · exact .answer _ rfl (.read root i rfl hm)
    · exact .elsewhere rfl rfl fun _ => Pc.noConfusion
    · exact .elsewhere rfl rfl fun _ => Pc.noConfusion
  | removeLoad root i =>
    cases hs
    refine ⟨rfl, ?_⟩
    dsimp only [goto]
    split_ifs with hm
    · exact .elsewhere rfl rfl fun _ => Pc.noConfusion
    · exact .aim root i rfl rfl hm fun _ => Pc.noConfusion
  | removeCas root i old =>
    simp only [Call.step] at hs
    split_ifs at hs with hv <;> cases hs
    · subst hv
      exact ⟨rfl, .answer _ rfl (.store root i rfl)⟩
    · exact ⟨rfl, .answer _ rfl (.missed root i old rfl hv)⟩
  | migrate root j s T i last pc =>
    rw [Call.step_migrate] at hs
    cases hs
    refine ⟨rfl, ?_⟩
    cases (migrateStep S (S.jobs j).dest T i last pc).2 <;>
      exact .elsewhere rfl rfl fun _ => Pc.noConfusion
  | run root j pc =>
    rw [Call.step_run] at hs
    cases hs
    refine ⟨rfl, ?_⟩
    cases ((S.jobs j).runStep S.outline.size pc).2 <;>
      exact .elsewhere rfl rfl fun _ => Pc.noConfusion
  | start root pc =>
    obtain ⟨⟨S₁, next⟩, -, he⟩ := Option.map_eq_some_iff.1 hs
    cases he
    refine ⟨rfl, ?_⟩
    cases next <;> exact .elsewhere rfl rfl fun _ => Pc.noConfusion
  | complete root j pc =>
    obtain ⟨⟨S₁, next⟩, -, he⟩ := Option.map_eq_some_iff.1 hs
    cases he
    refine ⟨by cases next <;> rfl, ?_⟩
    cases next <;> exact .elsewhere rfl rfl fun _ => Pc.noConfusion
  | participate root prevJob | await root prevJob =>
    cases hs
    simp only [participate]
    split_ifs
    · exact ⟨rfl, .elsewhere rfl rfl fun _ => Pc.noConfusion⟩
    · cases (S.tables root).coordinator <;> exact ⟨rfl, .elsewhere rfl rfl fun _ => Pc.noConfusion⟩
  | ret | crashed => cases hs

theorem Call.step_op (hs : c.step H signalSafeReaders S t = some (S', c')) : c'.op = c.op :=
  (Call.step_course hs).1

theorem Call.step_ret (hs : c.step H signalSafeReaders S t = some (S', c'))
    (hr : c'.pc = .ret r) : Answer S c r := by
  cases (Call.step_course hs).2 with
  | answer r' hr' ha =>
    cases hr'.symm.trans hr
    exact ha
  | elsewhere _ _ hn | search _ _ _ _ hn | aim _ _ _ _ _ hn => exact absurd hr (hn r)

/-- A call that is about to store has read the value that it expects. -/
theorem Call.step_client (hs : c.step H signalSafeReaders S t = some (S', c'))
    (hc : c'.pc.client? = some (root, i, x)) :
    (S.tables root).value i = x ∧ x ≠ mapValMove := by
  cases (Call.step_course hs).2 with
  | aim root' k _ hc' hm =>
    cases hc'.symm.trans hc
    exact ⟨rfl, hm⟩
  | elsewhere _ hn | search _ _ _ hn => exact nomatch hn.symm.trans hc
  | answer r hr =>
    rw [hr] at hc
    cases hc

/-- A thread searches the table that it has found as the current one. -/
theorem Call.step_search (hs : c.step H signalSafeReaders S t = some (S', c'))
    (hc : c'.pc.search? = some root) :
    S' = S ∧ (c.pc.search? = some root ∨ c.pc = .loadCurrent ∧ root = S.current) := by
  cases (Call.step_course hs).2 with
  | search root' hS hc' _ _ hor =>
    cases hc'.symm.trans hc
    exact ⟨hS, hor⟩
  | elsewhere hn | aim _ _ hn => exact nomatch hn.symm.trans hc
  | answer r hr =>
    rw [hr] at hc
    cases hc

end Steps

/-! ## Reading -/

section Reading

variable {H : Hasher Key} {signalSafeReaders : Bool} {S S' : Shared Tid} {c c' : Call Key}
  {t u : Tid} {T : HashTable Tid} {root : TableId} {i n : ℕ} {r v w : ValueType} {h : HashType}
  {calls : Tid → Option (Call Key)} {k : Key}

/-- The walk along the chain of a hash does not end before its cell. -/
theorem Walked.not_empty {x : Tid → Option Insert} (hI : ChainInv T x) (hw : Walked T h i)
    (hc : OnChain T h n) (hn : T.hash n = h) (hh : h ≠ mapHashEmpty) :
    T.hash i ≠ mapHashEmpty := by
  rcases Relation.ReflTransGen.cases_head (hw.reach hc hn) with rfl | ⟨d, hd, -⟩
  · rwa [hn]
  · exact (hI.links i d hd).1

theorem Walked.not_last (hw : Walked T h i) (hc : OnChain T h n) (hn : T.hash n = h)
    (hi : T.hash i ≠ h) : ¬Last T i := by
  rcases Relation.ReflTransGen.cases_head (hw.reach hc hn) with rfl | ⟨d, hd, -⟩
  · exact absurd hn hi
  · exact fun hl => hl.not_link hd

/-- What a call knows of its operation. -/
theorem Call.Knows.put (hk : c.Knows H S) {p : InsertPc} (hc : c.pc = .insert root p) :
    c.IsPut := by
  rw [Call.Knows, hc] at hk
  exact hk

theorem Call.Knows.remove (hk : c.Knows H S) {old : ValueType} (hc : c.pc = .removeCas root i old) :
    ∃ k, c.op = .remove k := by
  rw [Call.Knows, hc] at hk
  exact hk.1

/-- A get stores nothing. -/
theorem Call.Knows.not_client (hk : c.Knows H S) (hc : c.op = .get k) : c.pc.client? = none := by
  cases hpc : c.pc with
  | insert root p =>
    obtain ⟨k', v, hput⟩ := hk.put hpc
    rw [hc] at hput
    cases hput
  | removeCas root i old =>
    obtain ⟨k', hrem⟩ := hk.remove hpc
    rw [hc] at hrem
    cases hrem
  | _ => rfl

/-- A client that finds the value that it expects stores its own. -/
theorem Call.Knows.step_store (hk : c.Knows H S)
    (hc : c.pc.client? = some (root, i, (S.tables root).value i)) :
    c.step H signalSafeReaders S t =
      some (S.write root i c.op.value, c.goto (.ret ((S.tables root).value i))) := by
  obtain ⟨op, doubleSize, pc⟩ := c
  cases pc with
  | insert root' pc =>
    obtain ⟨⟨k, x⟩, hx, he⟩ := Option.map_eq_some_iff.1 hc
    cases he
    rw [Call.step_insert]
    cases pc with
    | updateCas k old | setCas k old =>
      cases hx
      simp only [insertOrUpdateStep, if_true]
      rfl
    | _ => cases hx
  | removeCas root' k old =>
    cases hc
    obtain ⟨⟨key, rfl⟩, -⟩ := hk
    simp only [Call.step, if_true]
    rfl
  | _ => cases hc

theorem Maps.unique (hv : Maps S calls h v) (hw : Maps S calls h w) : v = w := by
  by_cases he : v = mapValEmpty
  · by_contra hne
    have hc := (hw w).2 ⟨rfl, fun hw => hne (he.trans hw.symm)⟩
    exact ((hv w).1 hc).2 he
  · exact ((hw v).1 ((hv v).2 ⟨rfl, he⟩)).1

/-- The tables that the call may be searching have a cell for the hash. -/
def Call.Sees (S : Shared Tid) (h : HashType) (c : Call Key) : Prop :=
  ∀ root, c.pc.search? = some root → (S.tables root).Allocated h

variable [Fintype Tid]

/-- What a thread finds in the cell of a hash is its value, unless it has been moved. -/
theorem Custody.value_eq (hC : Custody S calls h) (hval : Values S calls)
    (hcells : Cells H S calls) (hco : Coordination S.outline (pcsOf calls))
    (hh : h ≠ mapHashEmpty) (hm : Maps S calls h w) (hp : S.outline.Published root)
    (hi : (S.tables root).hash i = h) (hne : (S.tables root).value i ≠ mapValMove) :
    (S.tables root).value i = w := by
  obtain rfl := hval.latest_of_ne hcells hco hp (by rw [hi]; exact hh) hne
  by_cases hv : (S.tables S.latest).value i = mapValEmpty
  · rw [hv]
    by_contra hw
    -- The value is somewhere, but this is its cell.
    obtain ⟨p, hp⟩ := (hm w).2 ⟨rfl, Ne.symm hw⟩
    rcases hC.away p w hp with ⟨n, rfl⟩ | ⟨n, hn, hmove⟩
    · rw [hC.unique _ n i hp.1 hi] at hp
      exact hp.2.2.1 (hp.2.1.symm.trans hv)
    · rw [hC.unique _ n i hn hi] at hmove
      exact hne hmove
  · exact ((hm _).1 ⟨.cell S.latest i, hi, rfl, hv, hne⟩).1

omit [Fintype Tid] in
/-- The current table has a cell for a hash that has a value. -/
theorem Custody.allocated (hC : Custody S calls h) (hm : Maps S calls h w)
    (hw : w ≠ mapValEmpty) : (S.tables S.latest).Allocated h := by
  obtain ⟨p, hp⟩ := (hm w).2 ⟨rfl, hw⟩
  rcases hC.away p w hp with ⟨n, rfl⟩ | ⟨n, hn, -⟩
  · exact ⟨n, hp.1⟩
  · exact ⟨n, hn⟩

/-- The cells of a hash are on its chain, unless a put is about to link them. -/
theorem Cells.onChain (hcells : Cells H S calls) (hco : Coordination S.outline (pcsOf calls))
    (hp : S.outline.Published root) (hh : h ≠ mapHashEmpty)
    (hput : ∀ t c, calls t = some c → H.hash c.op.key = h → ¬c.IsPut)
    (hi : (S.tables root).hash i = h) : OnChain (S.tables root) h i := by
  subst hi
  refine ((hcells.chain root).cells i (hcells.lt root i hh) hh).resolve_right ?_
  rintro ⟨t, f, hf, hfh, -⟩
  obtain ⟨c, hc, hf⟩ := Option.bind_eq_some_iff.1 hf
  have hk := hcells.knows t c hc
  have hok := hco.ok t c.pc (pcsOf_eq hc rfl)
  have hmov : ∀ {r j s U k last pc}, c.pc = .migrate r j s U k last pc →
      S.outline.Moving r j s U k last := fun hpc => hco.moving (pcsOf_eq hc hpc)
  obtain ⟨op, doubleSize, pc⟩ := c
  cases pc with
  | insert r p =>
    simp only [Call.insertAt, Option.ite_none_right_eq_some, Option.some.injEq] at hf
    obtain ⟨rfl, rfl⟩ := hf
    exact hput t _ hc hfh hk
  | migrate r j s U k last pc =>
    cases pc with
    | insert g v p =>
      simp only [Call.insertAt, Option.ite_none_right_eq_some] at hf
      exact (hmov rfl).isOpen.2 (hf.1 ▸ hp)
    | _ => simp [Call.insertAt] at hf
  | _ => simp [Call.insertAt] at hf

/-- A search does not end without a cell of the hash. -/
theorem Cells.not_absent (hcells : Cells H S calls) (hco : Coordination S.outline (pcsOf calls))
    (hh : H.hash c.op.key ≠ mapHashEmpty) (ht : calls t = some c)
    (hput : ∀ t d, calls t = some d → H.hash d.op.key = H.hash c.op.key → ¬d.IsPut)
    (hsees : c.Sees S (H.hash c.op.key)) :
    (∀ root i, c.pc = .find root i → (S.tables root).hash i ≠ mapHashEmpty) ∧
      ∀ root i, c.pc = .findNext root i → ¬Last (S.tables root) i := by
  have hk := hcells.knows t c ht
  have hok := hco.ok t c.pc (pcsOf_eq ht rfl)
  refine ⟨fun root i hpc => ?_, fun root i hpc => ?_⟩
  · rw [hpc] at hok
    rw [Call.Knows, hpc] at hk
    obtain ⟨n, hn⟩ := hsees root (by rw [hpc]; rfl)
    exact hk.2.not_empty (hcells.chain root) (hcells.onChain hco hok hh hput hn) hn hh
  · rw [hpc] at hok
    rw [Call.Knows, hpc] at hk
    obtain ⟨n, hn⟩ := hsees root (by rw [hpc]; rfl)
    exact hk.2.1.not_last (hcells.onChain hco hok hh hput hn) hn hk.2.2.2

/-- The tables that a call searches keep their cells. -/
theorem Cells.sees_step (hcells : Cells H S calls) (hco : Coordination S.outline (pcsOf calls))
    (ht : calls t = some c) (hs : c.step H signalSafeReaders S t = some (S', c'))
    (hh : h ≠ mapHashEmpty) {d : Call Key} (hd : calls u = some d) (hsees : d.Sees S h) :
    d.Sees S' h := by
  intro root hroot
  obtain ⟨i, hi⟩ := hsees root hroot
  have hlt : root < S.nTables := by
    refine hco.table_lt (pcsOf_eq hd rfl) ?_
    cases hpc : d.pc <;> rw [hpc] at hroot <;> first | exact hroot | cases hroot
  exact ⟨i, ((hcells.extends ht hs hlt).hash i (by rw [hi]; exact hh)).trans hi⟩

/-- A call comes to search a table that has a cell for the hash. -/
theorem Custody.sees_self (hC : Custody S calls h)
    (hco : Coordination S.outline (pcsOf calls)) (hm : Maps S calls h w) (hw : w ≠ mapValEmpty)
    (hs : c.step H signalSafeReaders S t = some (S', c')) (hsees : c.Sees S h) :
    c'.Sees S' h := by
  intro root hroot
  obtain ⟨rfl, hor | ⟨-, rfl⟩⟩ := Call.step_search hs hroot
  · exact hsees root hor
  · rw [show S'.current = S'.latest from hco.layout.current]
    exact hC.allocated hm hw

/-- A client that stores finds the value of its key, and leaves its own. -/
theorem Custody.maps_store [DecidableEq Tid] (hC : Custody S calls (H.hash c.op.key))
    (hval : Values S calls) (hcells : Cells H S calls)
    (hco : Coordination S.outline (pcsOf calls)) (ht : calls t = some c)
    (hh : H.hash c.op.key ≠ mapHashEmpty) (hs : c.step H signalSafeReaders S t = some (S', c'))
    (hc : c.pc.client? = some (root, i, (S.tables root).value i)) :
    Maps S calls (H.hash c.op.key) ((S.tables root).value i) ∧
      Maps S' (Function.update calls t (some c')) (H.hash c.op.key) c.op.value := by
  have hne := (hcells.client hco ht hc).2.2.2
  obtain ⟨rfl, rfl⟩ : S.write root i c.op.value = S' ∧ _ = c' :=
    Prod.mk.inj (Option.some.inj (((hcells.knows t c ht).step_store hc).symm.trans hs))
  obtain ⟨-, hi, hold, hnew⟩ := hC.held_store hval hcells hco ht hh hc rfl
    (show (c.goto (.ret ((S.tables root).value i))).pc.carried = none from rfl)
  constructor
  · intro v
    refine ⟨fun ⟨p, hp⟩ => ?_, fun ⟨hv, hv₀⟩ => ⟨.cell root i, hi, hv.symm, hv ▸ hv₀, hv ▸ hne⟩⟩
    obtain rfl := hold p v hp
    exact ⟨hp.2.1.symm, hp.2.1.symm ▸ hp.2.2.1⟩
  · intro v
    refine ⟨fun ⟨p, hp⟩ => ?_, fun ⟨hv, hv₀⟩ => ⟨.cell root i, (hnew _ _).2 ⟨rfl, hv, ?_⟩⟩⟩
    · obtain ⟨rfl, rfl, hp, -⟩ := (hnew p v).1 hp
      exact ⟨rfl, hp⟩
    · exact hv ▸ ⟨hv₀, c.op.value_ne_move⟩

/-! ## What a reader that walks alone finds -/

omit [Fintype Tid] in
/-- Before its migration starts, all values are in the current table. -/
theorem Custody.held_latest (hC : Custody S calls h) (hval : Values S calls)
    (hnull : S.outline.coordinator S.latest = .null) {p : Place Tid} (hp : Held S calls h p v) :
    ∃ i, p = .cell S.latest i :=
  (hC.away p v hp).resolve_right fun ⟨i, _, hm⟩ => hval.unmoved hnull i hm

omit [Fintype Tid] in
theorem Custody.maps_of_held (hC : Custody S calls h) {p : Place Tid} (hp : Held S calls h p v)
    (hv : v ≠ mapValEmpty) : Maps S calls h v := fun w => by
  rw [show Contents (Held S calls h) w ↔ w = v from (hC.sole.at hp).contents]
  exact ⟨fun hw => ⟨hw, hv⟩, And.left⟩

omit [Fintype Tid] in
theorem maps_of_none (hno : ∀ p v, ¬Held S calls h p v) : Maps S calls h mapValEmpty :=
  fun v => ⟨fun ⟨p, hp⟩ => absurd hp (hno p v), fun hv => absurd rfl hv.2⟩

/-- What a reader finds before the migration starts is the value. -/
theorem Custody.maps_of_lookup (hC : Custody S calls h) (hval : Values S calls)
    (hcells : Cells H S calls) (hco : Coordination S.outline (pcsOf calls)) (hh : h ≠ mapHashEmpty)
    (hnull : S.outline.coordinator S.latest = .null)
    (hput : ∀ t c, calls t = some c → H.hash c.op.key = h → ¬c.IsPut)
    (hl : (S.tables S.latest).Lookup h w) : Maps S calls h w := by
  have hchain : ∀ {n}, (S.tables S.latest).hash n = h → OnChain (S.tables S.latest) h n :=
    hcells.onChain hco (.inl rfl) hh hput
  cases hl with
  | found i hw hi =>
    by_cases hv : (S.tables S.latest).value i = mapValEmpty
    · rw [hv]
      refine maps_of_none fun p v hp => ?_
      obtain ⟨n, rfl⟩ := hC.held_latest hval hnull hp
      rw [hC.unique _ n i hp.1 hi] at hp
      exact hp.2.2.1 (hp.2.1.symm.trans hv)
    · have hp : Held S calls h (.cell S.latest i) _ := ⟨hi, rfl, hv, hval.unmoved hnull i⟩
      exact hC.maps_of_held hp hv
  | absent i hw hi =>
    refine maps_of_none fun p v hp => ?_
    obtain ⟨n, rfl⟩ := hC.held_latest hval hnull hp
    exact hw.not_empty (hcells.chain _) (hchain hp.1) hp.1 hh hi
  | last i hw hi hlast =>
    refine maps_of_none fun p v hp => ?_
    obtain ⟨n, rfl⟩ := hC.held_latest hval hnull hp
    exact hw.not_last (hchain hp.1) hp.1 hi hlast

end Reading

/-! ## Runs in which nobody writes to the key -/

/-- The steps by which no thread calls `put` or `remove` for the key. -/
def Leaves (k : Key) : Label Tid Key → Prop
  | .call _ op => op.key = k → op = .get k
  | .step _ => True

instance [DecidableEq Key] (k : Key) (l : Label Tid Key) : Decidable (Leaves k l) :=
  match l with
  | .call _ op => inferInstanceAs (Decidable (op.key = k → op = .get k))
  | .step _ => .isTrue trivial

section Runs

variable [Fintype Tid] [DecidableEq Tid] {H : Hasher Key} {signalSafeReaders : Bool}
  {σ σ' : State Tid Key} {l : Label Tid Key} {t : Tid} {k : Key} {w : ValueType}

/-- The steps that are on time and allocate no second cell to a hash. -/
def Orderly (H : Hasher Key) (q : HashType → Prop) (σ : State Tid Key) (l : Label Tid Key) :
    Prop := OnTime σ l ∧ Once H q σ l

omit [Fintype Tid] [DecidableEq Tid] in
instance (q : HashType → Prop) [DecidablePred q] : Decidable (Orderly H q σ l) :=
  inferInstanceAs (Decidable (_ ∧ _))

omit [Fintype Tid] [DecidableEq Tid] in
theorem Once.of_true {q : HashType → Prop} (h : Once H (fun _ => True) σ l) : Once H q σ l := by
  cases l with
  | call => trivial
  | step t => exact fun c hc x hx _ => h c hc x hx trivial

/-- In a run of such steps, the invariants hold. -/
theorem Custody.of_run {n : BitVec 64} {h : HashType} {tr : List (State Tid Key × Label Tid Key)}
    (hr : (provider Tid H signalSafeReaders).Run (Orderly H (· = h)) (.new n) tr σ)
    (hh : h ≠ mapHashEmpty) : Sound H σ ∧ Custody σ.shared σ.calls h :=
  hr.invariant (I := fun σ => Sound H σ ∧ Custody σ.shared σ.calls h)
    (fun _ _ _ hI ho hn => ⟨hI.1.next ho.1 hn, hI.2.next hI.1 ho.1 ho.2 hh hn⟩)
    ⟨.initial n, .initial n hh⟩

/-- The key has the value, and nobody is about to write to it. -/
structure Reading (H : Hasher Key) (k : Key) (w : ValueType) (σ : State Tid Key) : Prop where
  sound : Sound H σ
  custody : Custody σ.shared σ.calls (H.hash k)
  maps : Maps σ.shared σ.calls (H.hash k) w
  leave : ∀ t c, σ.calls t = some c → c.op.key = k → c.op = .get k

theorem Reading.next (h : Reading H k w σ) (ho : Orderly H (· = H.hash k) σ l) (hl : Leaves k l)
    (hn : (provider Tid H signalSafeReaders).next σ l = some σ') : Reading H k w σ' where
  sound := h.sound.next ho.1 hn
  custody := h.custody.next h.sound ho.1 ho.2 (H.hash_ne k) hn
  maps := h.custody.maps_next h.sound (H.hash_ne k) h.maps (fun t c _ hc hkey =>
    (h.sound.cells.knows t c hc).not_client (h.leave t c hc (H.injective hkey))) hn
  leave := by
    cases State.transition_of_next H signalSafeReaders hn with
    | call t op hc =>
      intro u d hd hk
      rcases ThreadSum.update_eq_some_iff.1 hd with ⟨-, he⟩ | ⟨-, hd⟩
      · cases he
        exact hl hk
      · exact h.leave u d hd hk
    | ret t c result hc hret =>
      intro u d hd hk
      rcases ThreadSum.update_eq_some_iff.1 hd with ⟨-, he⟩ | ⟨-, hd⟩
      · cases he
      · exact h.leave u d hd hk
    | step t c c' S' hc hs =>
      intro u d hd hk
      rcases ThreadSum.update_eq_some_iff.1 hd with ⟨-, he⟩ | ⟨-, hd⟩
      · cases he
        rw [Call.step_op hs] at hk ⊢
        exact h.leave t c hc hk
      · exact h.leave u d hd hk

/-- The thread is not about to miss the key. -/
def Gets (H : Hasher Key) (k : Key) (w : ValueType) (t : Tid) (σ : State Tid Key) : Prop :=
  ∀ c, σ.calls t = some c → c.op = .get k →
    c.Sees σ.shared (H.hash k) ∧ ∀ r, c.pc = .ret r → r = w

omit [DecidableEq Tid] in
/-- What a get comes to. -/
theorem Reading.answer (h : Reading H k w σ) {c : Call Key} {r : ValueType}
    (hc : σ.calls t = some c) (hop : c.op = .get k)
    (hsees : w ≠ mapValEmpty → c.Sees σ.shared (H.hash k)) (ha : Answer σ.shared c r) : r = w := by
  obtain ⟨hco, hcells, hval⟩ := h.sound
  have hok := hco.ok t c.pc (pcsOf_eq hc rfl)
  have hk := hcells.knows t c hc
  have hkey : c.op.key = k := by rw [hop]; rfl
  have hput : ∀ u d, σ.calls u = some d → H.hash d.op.key = H.hash c.op.key → ¬d.IsPut := by
    rintro u d hd he ⟨k', v, hput⟩
    have hget := h.leave u d hd ((H.injective he).trans hkey)
    rw [hput] at hget
    cases hget
  have hnone : ¬(c.Sees σ.shared (H.hash k)) → mapValEmpty = w := fun hn => by
    by_contra hw
    exact hn (hsees (Ne.symm hw))
  have habsent := fun hs : c.Sees σ.shared (H.hash k) =>
    hcells.not_absent hco (H.hash_ne _) hc hput (by rwa [hkey])
  cases ha with
  | store root i hcl => exact nomatch (hk.not_client hop).symm.trans hcl
  | read root i hpc hne =>
    rw [hpc] at hok
    rw [Call.Knows, hpc, hkey] at hk
    exact h.custody.value_eq hval hcells hco (H.hash_ne k) h.maps hok hk.2.2 hne
  | absent root i hpc he => exact hnone fun hs => (habsent hs).1 root i hpc he
  | last root i hpc hl => exact hnone fun hs => (habsent hs).2 root i hpc hl
  | refused root p i old hpc hcas =>
    obtain ⟨k', v, hput⟩ := hk.put hpc
    rw [hop] at hput
    cases hput
  | missed root i old hpc =>
    obtain ⟨k', hrem⟩ := hk.remove hpc
    rw [hop] at hrem
    cases hrem

theorem Gets.next (hg : Gets H k w t σ) (h : Reading H k w σ) (hw : w ≠ mapValEmpty)
    (hn : (provider Tid H signalSafeReaders).next σ l = some σ') : Gets H k w t σ' := by
  cases State.transition_of_next H signalSafeReaders hn with
  | call u op hc =>
    intro d hd hop
    rcases ThreadSum.update_eq_some_iff.1 hd with ⟨-, he⟩ | ⟨-, hd⟩
    · cases he
      exact ⟨nofun, nofun⟩
    · exact hg d hd hop
  | ret u c result hc hret =>
    intro d hd hop
    rcases ThreadSum.update_eq_some_iff.1 hd with ⟨-, he⟩ | ⟨-, hd⟩
    · cases he
    · exact hg d hd hop
  | step u c c' S' hc hs =>
    obtain ⟨hco, hcells, hval⟩ := h.sound
    intro d hd hop
    rcases ThreadSum.update_eq_some_iff.1 hd with ⟨rfl, he⟩ | ⟨-, hd⟩
    · cases he
      rw [Call.step_op hs] at hop
      obtain ⟨hsees, -⟩ := hg c hc hop
      exact ⟨h.custody.sees_self hco h.maps hw hs hsees, fun r hr =>
        h.answer hc hop (fun _ => hsees) (Call.step_ret hs hr)⟩
    · obtain ⟨hsees, hret⟩ := hg d hd hop
      exact ⟨hcells.sees_step hco hc hs (H.hash_ne k) hd hsees, hret⟩

/-- In every run in which no step comes too late to a migration and none allocates a second
    cell to the key, a `get` of a key that has a value, and that nobody puts or removes,
    returns this value, whatever the migrations and the other calls do meanwhile. -/
theorem get_reads {n : BitVec 64} {v : Value} {σ₀ σ₁ : State Tid Key}
    {tr₀ tr₁ tr₂ : List (State Tid Key × Label Tid Key)} {b : Bool} {r : ValueType}
    (h₀ : (provider Tid H signalSafeReaders).Run (Orderly H (· = H.hash k)) (.new n) tr₀ σ₀)
    (hnull : (σ₀.shared.tables σ₀.shared.current).coordinator = .null)
    (hv : (σ₀.shared.tables σ₀.shared.current).Lookup (H.hash k) v.ptr)
    (hleave : ∀ t c, σ₀.calls t = some c → c.op.key = k → c.op = .get k)
    (h₁ : (provider Tid H signalSafeReaders).Run
      (fun σ l => Orderly H (· = H.hash k) σ l ∧ Leaves k l) σ₀ tr₁ σ₁)
    (ht : σ₁.calls t = none)
    (h₂ : (provider Tid H signalSafeReaders).Run
      (fun σ l => Orderly H (· = H.hash k) σ l ∧ Leaves k l) σ₁ tr₂ σ)
    (hr : σ.calls t = some ⟨.get k, b, .ret r⟩) : r = v.ptr := by
  obtain ⟨hs, hC⟩ := Custody.of_run h₀ (H.hash_ne k)
  have hcur : σ₀.shared.current = σ₀.shared.latest := hs.coordination.layout.current
  rw [hcur] at hnull hv
  have hread : Reading H k v.ptr σ₀ := by
    refine ⟨hs, hC, hC.maps_of_lookup hs.values hs.cells hs.coordination (H.hash_ne k) hnull
      ?_ hv, hleave⟩
    rintro u d hd he ⟨k', x, hput⟩
    have hget := hleave u d hd (H.injective he)
    rw [hput] at hget
    cases hget
  have hread₁ : Reading H k v.ptr σ₁ :=
    h₁.invariant (fun _ _ _ h ho hn => h.next ho.1 ho.2 hn) hread
  have hgets : Reading H k v.ptr σ ∧ Gets H k v.ptr t σ :=
    h₂.invariant (I := fun σ => Reading H k v.ptr σ ∧ Gets H k v.ptr t σ)
      (fun _ _ _ hI ho hn => ⟨hI.1.next ho.1 ho.2 hn, hI.2.next hI.1 v.ne_empty hn⟩)
      ⟨hread₁, fun c hc => nomatch ht.symm.trans hc⟩
  exact (hgets.2 _ hr rfl).2 r rfl

end Runs

/-! ## Runs with one migration -/

section Examples

variable {T : HashTable (Fin 11)} {x : ValueType}

/-- The first cell is the home of the first key. -/
theorem lookup_first (hh : T.hash 0 = chainHasher.hash 0) (hv : T.value 0 = x) :
    T.Lookup (chainHasher.hash 0) x := by
  have hw : Walked T (chainHasher.hash 0) 0 := by
    rw [← Nat.zero_and T.sizeMask]
    exact .home
  exact hv ▸ .found 0 hw hh

/-- Ten threads put a key each, and return. -/
def fillReturns : List (List (Label (Fin 11) (Fin 11))) :=
  (List.finRange 10).map fun k =>
    callSteps k.castSucc (.put k.castSucc oneValue) (if k.val = 0 then 11 else 12)

/-- The first key is read while the last one is put, with two migrations, since the first one
    is to a table of the same size. -/
theorem get_reads_chain : ∃ (σ : State (Fin 11) (Fin 11)) (b : Bool) (r : ValueType),
    σ.shared.current = 2 ∧ σ.calls 0 = some ⟨.get 0, b, .ret r⟩ ∧ r = oneValue.ptr := by
  have hrun : (((State.new 0).exec chainHasher false
      (Orderly chainHasher (· = chainHasher.hash 0)) fillReturns).any fun σ₀ =>
        decide ((σ₀.shared.tables σ₀.shared.current).coordinator = .null ∧
          (σ₀.shared.tables σ₀.shared.current).hash 0 = 0 ∧
          (σ₀.shared.tables σ₀.shared.current).value 0 = oneValue.ptr ∧
          ∀ t, (σ₀.calls t).isNone) &&
        (σ₀.exec chainHasher false
          (fun σ l => Orderly chainHasher (· = chainHasher.hash 0) σ l ∧ Leaves 0 l)
          (callSteps 0 (.get 0) 2 :: callParts 10 (.put 10 oneValue) 46 ++
            [List.replicate 5 (.step 0)])).any fun σ =>
              decide (σ.shared.current = 2 ∧ ∃ c ∈ σ.calls 0, c.op = .get 0 ∧ c.pc = .ret 1)) =
      true := by decide +kernel
  obtain ⟨tr₀, σ₀, h₀, hp₀⟩ := exists_run_of_parts hrun
  obtain ⟨hp₀, hrun⟩ := Bool.and_eq_true_iff.1 hp₀
  obtain ⟨tr, σ, h, hp⟩ := exists_run_of_parts hrun
  obtain ⟨hnull, hhash, hval, hnone⟩ := of_decide_eq_true hp₀
  obtain ⟨hcur, ⟨op, b, pc⟩, hc, rfl, rfl⟩ := of_decide_eq_true hp
  have hnone : ∀ t, σ₀.calls t = none := fun t => Option.isNone_iff_eq_none.1 (hnone t)
  exact ⟨σ, b, 1, hcur, hc, get_reads h₀ hnull (lookup_first hhash hval)
    (fun t c ht => nomatch (hnone t).symm.trans ht) .refl (hnone 0) h hc⟩

def twoValue : Value := ⟨2, by decide, by decide⟩

/-- Two threads put the first key. Thread 0 has found the first cell free when thread 2
    allocates it, and goes on along the chain when thread 1 has added to it. The next keys
    make the chain longer. -/
def fillTwice : List (List (Label (Fin 11) (Fin 11))) :=
  [callSteps 0 (.put 0 twoValue) 2, callSteps 2 (.put 0 oneValue) 11,
    callSteps 1 (.put 1 oneValue) 9, List.replicate 12 (.step 0)] ++
    [3, 4, 5, 6, 7, 8, 9].map fun k => callSteps k (.put k oneValue) 9

/-- The last key starts a migration. It moves the value of the second cell to where it has
    moved that of the first one. -/
theorem exists_get_misses :
    ¬∀ (n : BitVec 64) (k : Fin 11) (v : Value) (t : Fin 11) (σ₀ σ₁ σ : State (Fin 11) (Fin 11))
      (tr₀ tr₁ tr₂ : List (State (Fin 11) (Fin 11) × Label (Fin 11) (Fin 11))) (b : Bool)
      (r : ValueType),
      (provider (Fin 11) chainHasher false).Run System.anyStep (.new n) tr₀ σ₀ →
        (σ₀.shared.tables σ₀.shared.current).coordinator = .null →
        (σ₀.shared.tables σ₀.shared.current).Lookup (chainHasher.hash k) v.ptr →
        (∀ t c, σ₀.calls t = some c → c.op.key = k → c.op = .get k) →
        (provider (Fin 11) chainHasher false).Run (fun _ l => Leaves k l) σ₀ tr₁ σ₁ →
        σ₁.calls t = none →
        (provider (Fin 11) chainHasher false).Run (fun _ l => Leaves k l) σ₁ tr₂ σ →
        σ.calls t = some ⟨.get k, b, .ret r⟩ → r = v.ptr := by
  intro hall
  have hrun : (((State.new 0).exec chainHasher false System.anyStep fillTwice).any fun σ₀ =>
        decide ((σ₀.shared.tables σ₀.shared.current).coordinator = .null ∧
          (σ₀.shared.tables σ₀.shared.current).hash 0 = 0 ∧
          (σ₀.shared.tables σ₀.shared.current).value 0 = oneValue.ptr ∧
          (∀ t, ∀ c ∈ σ₀.calls t, c.op.key = 0 → c.op = .get 0) ∧ (σ₀.calls 0).isNone) &&
        (σ₀.exec chainHasher false (fun _ l => Leaves 0 l)
          (callParts 10 (.put 10 oneValue) 16 ++ [callSteps 0 (.get 0) 3])).any fun σ =>
            decide (∃ c ∈ σ.calls 0, c.op = .get 0 ∧ c.pc = .ret 2)) = true := by decide +kernel
  obtain ⟨tr₀, σ₀, h₀, hp₀⟩ := exists_run_of_parts hrun
  obtain ⟨hp₀, hrun⟩ := Bool.and_eq_true_iff.1 hp₀
  obtain ⟨tr, σ, h, hp⟩ := exists_run_of_parts hrun
  obtain ⟨hnull, hhash, hval, hleave, hnone⟩ := of_decide_eq_true hp₀
  obtain ⟨⟨op, b, pc⟩, hc, rfl, rfl⟩ := of_decide_eq_true hp
  exact absurd (hall 0 0 oneValue 0 σ₀ σ₀ σ tr₀ [] tr b 2 h₀ hnull (lookup_first hhash hval)
    hleave .refl (Option.isNone_iff_eq_none.1 hnone) h hc) (by decide)

end Examples

end FkProf.ConcurrentMap
