import FkProf.ConcurrentMap.Values
import FkProf.Foundations.Holding

/-!
# The value of a key

The value of a key is in one place: in a cell of a table, or with a thread that
moves it to another. So a step of the map either leaves the value of the key, or
is the store of a client, which finds the value there and puts its own in its
place. This needs that no table has two cells for the hash of the key
(`Once`): of two threads that put the key at the same time, one may walk past
the cell that the other is about to allocate.

* `Held`, `Maps`: where the value of a hash is, and which it is;
* `Custody`: the invariant of a hash;
* `Custody.step`: what a step does to its value.
-/

namespace FkProf.ConcurrentMap

variable {Tid Key : Type*}

/-- A value that a client may have put. -/
def Proper (v : ValueType) : Prop := v ≠ mapValEmpty ∧ v ≠ mapValMove

/-- Where a value may be. -/
inductive Place (Tid : Type*)
  | cell (T : TableId) (i : ℕ)
  | mover (t : Tid)

/-- The values of a hash and where they are. -/
def Held (S : Shared Tid) (calls : Tid → Option (Call Key)) (h : HashType) :
    Place Tid → ValueType → Prop
  | .cell T i, v => (S.tables T).hash i = h ∧ (S.tables T).value i = v ∧ Proper v
  | .mover t, v => ∃ c, calls t = some c ∧ c.pc.carried = some (h, v)

/-- The value of a hash, null for none. -/
def Maps (S : Shared Tid) (calls : Tid → Option (Call Key)) (h : HashType) (w : ValueType) :
    Prop :=
  ∀ v, Contents (Held S calls h) v ↔ v = w ∧ w ≠ mapValEmpty

/-- The table has a cell for the hash, marked as moved. -/
def HashTable.Moved (T : HashTable Tid) (h : HashType) : Prop :=
  ∃ i, T.hash i = h ∧ T.value i = mapValMove

/-- The invariant of a hash. -/
structure Custody (S : Shared Tid) (calls : Tid → Option (Call Key)) (h : HashType) : Prop where
  unique : ∀ T i i', (S.tables T).hash i = h → (S.tables T).hash i' = h → i = i'
  sole : Sole (Held S calls h)
  /-- The value has left the current table when it is elsewhere. -/
  away : ∀ p v, Held S calls h p v → (∃ i, p = .cell S.latest i) ∨ (S.tables S.latest).Moved h
  /-- A thread that moves a value expects to find none. -/
  expects : ∀ t c T i v p k x, calls t = some c → c.pc.mover? = some (T, i, .insert h v p) →
    p.cas? = some (k, x) → x = mapValEmpty

/-! ## Cells allocated once -/

/-- The cell that the call is about to allocate, with its table and the hash. -/
def Call.allocation? (H : Hasher Key) (S : Shared Tid) (c : Call Key) :
    Option (TableId × HashType × ℕ) :=
  match c.pc with
  | .insert root pc =>
    (pc.allocate? (S.tables root)).map fun k => (root, H.hash c.op.key, k)
  | .migrate _ j _ _ _ _ (.insert h _ pc) =>
    (pc.allocate? (S.tables (S.jobs j).dest)).map fun k => ((S.jobs j).dest, h, k)
  | _ => none

/-- The step does not allocate, line 336, a second cell of a table to a hash. -/
def Call.Once (H : Hasher Key) (q : HashType → Prop) (S : Shared Tid) (c : Call Key) : Prop :=
  ∀ x ∈ c.allocation? H S, q x.2.1 → (S.tables x.1).hash x.2.2 = mapHashEmpty →
    ∀ n < (S.tables x.1).size, (S.tables x.1).hash n ≠ x.2.1

/-- The steps that do not. -/
def Once (H : Hasher Key) (q : HashType → Prop) (σ : State Tid Key) : Label Tid Key → Prop
  | .step t => ∀ c ∈ σ.calls t, c.Once H q σ.shared
  | .call .. => True

instance (H : Hasher Key) (q : HashType → Prop) [DecidablePred q] (σ : State Tid Key)
    (l : Label Tid Key) : Decidable (Once H q σ l) :=
  match l with
  | .step t => inferInstanceAs (Decidable (∀ c ∈ σ.calls t, ∀ x ∈ c.allocation? H σ.shared,
      q x.2.1 → (σ.shared.tables x.1).hash x.2.2 = mapHashEmpty →
        ∀ n < (σ.shared.tables x.1).size, (σ.shared.tables x.1).hash n ≠ x.2.1))
  | .call .. => .isTrue trivial

section Steps

variable {H : Hasher Key} {signalSafeReaders : Bool} {S S' : Shared Tid} {c c' : Call Key} {t u : Tid} {T root : TableId} {j : JobId} {h : HashType}
  {calls : Tid → Option (Call Key)} {i : ℕ} {v : ValueType} {q : HashType → Prop}

theorem Call.Once.of_insertAt (ho : c.Once H q S) {f : Insert} {k : ℕ}
    (hf : c.insertAt H S T = some f) (hk : f.pc.allocate? (S.tables T) = some k) (hq : q f.hash)
    (he : (S.tables T).hash k = mapHashEmpty) :
    ∀ n < (S.tables T).size, (S.tables T).hash n ≠ f.hash := by
  refine ho (T, f.hash, k) ?_ hq he
  obtain ⟨op, doubleSize, pc⟩ := c
  cases pc with
  | insert root pc =>
    simp only [Call.insertAt, Option.ite_none_right_eq_some, Option.some.injEq] at hf
    obtain ⟨rfl, rfl⟩ := hf
    exact Option.map_eq_some_iff.2 ⟨k, hk, rfl⟩
  | migrate root j s U i last pc =>
    cases pc with
    | insert h v pc =>
      simp only [Call.insertAt, Option.ite_none_right_eq_some, Option.some.injEq] at hf
      obtain ⟨rfl, rfl⟩ := hf
      exact Option.map_eq_some_iff.2 ⟨k, hk, rfl⟩
    | _ => simp [Call.insertAt] at hf
  | _ => simp [Call.insertAt] at hf

/-- A table has one cell for the hash. -/
theorem Custody.unique_step (hC : Custody S calls h) (hcells : Cells H S calls)
    (ht : calls t = some c) (ho : c.Once H (· = h) S) (hh : h ≠ mapHashEmpty)
    (hs : c.step H signalSafeReaders S t = some (S', c')) {k n : ℕ}
    (hk : (S'.tables T).hash k = h) (hn : (S'.tables T).hash n = h) : k = n := by
  cases Call.step_table (hcells.knows t c ht) hs T with
  | same _ ha =>
    rw [HashTable.hash, ha] at hk hn
    exact hC.unique T k n hk hn
  | new _ ha =>
    rw [HashTable.hash, ha] at hk
    exact absurd hk.symm hh
  | write m v _ _ he =>
    rw [he, HashTable.setValue_hash] at hk hn
    exact hC.unique T k n hk hn
  | insert f hf he =>
    rw [he] at hk hn
    rcases insertOrUpdateStep_hash (S.tables T) f.hash f.value f.pc with hsame |
      ⟨m, _, hm, hempty, hset, -⟩
    · rw [hsame] at hk hn
      exact hC.unique T k n hk hn
    · rw [hset] at hk hn
      by_cases hfh : f.hash = h
      · -- This is the only cell of the hash.
        have hnone : ∀ n ≠ m, Function.update (S.tables T).hash m f.hash n ≠ h := fun n hne hn' => by
          rw [Function.update_of_ne hne] at hn'
          have hlt := hcells.lt T n (by rw [hn']; exact hh)
          exact ho.of_insertAt hf hm hfh hempty n hlt (hn'.trans hfh.symm)
        have hkm : k = m := by
          by_contra hne
          exact hnone k hne hk
        have hnm : n = m := by
          by_contra hne
          exact hnone n hne hn
        rw [hkm, hnm]
      · have hne : ∀ {n}, Function.update (S.tables T).hash m f.hash n = h → n ≠ m :=
          fun hn' he => hfh (by rw [he, Function.update_self] at hn'; exact hn')
        rw [Function.update_of_ne (hne hk)] at hk
        rw [Function.update_of_ne (hne hn)] at hn
        exact hC.unique T k n hk hn

variable [Fintype Tid]

/-- A cell that gets its hash has no value yet. -/
theorem Cells.hash_of_proper (hcells : Cells H S calls)
    (hco : Coordination S.outline (pcsOf calls)) (ht : calls t = some c)
    (hs : c.step H signalSafeReaders S t = some (S', c')) (hh : h ≠ mapHashEmpty)
    (hv : Proper ((S'.tables T).value i)) :
    (S'.tables T).hash i = h ↔ (S.tables T).hash i = h := by
  by_cases hT : T < S.nTables
  · refine ⟨fun hi => ?_, fun hi => ?_⟩
    · cases Call.step_table (hcells.knows t c ht) hs T with
      | same _ ha => rwa [HashTable.hash, ha] at hi
      | new he => exact absurd hT (by rw [he]; exact lt_irrefl _)
      | write m v _ _ he => rwa [he, HashTable.setValue_hash] at hi
      | insert f hf he =>
        rw [he] at hi hv
        rcases insertOrUpdateStep_hash (S.tables T) f.hash f.value f.pc with hsame |
          ⟨m, pc', _, hempty, hset, hnext, _⟩
        · rwa [hsame] at hi
        · rw [hset] at hi
          by_cases him : i = m
          · subst him
            rcases insertOrUpdateStep_value (S.tables T) f.hash f.value f.pc with hval |
              ⟨_, _, _, hdone⟩
            · rw [hval] at hv
              exact absurd (hcells.free T i hempty) (not_or.2 ⟨hv.1, hv.2⟩)
            · rw [hnext] at hdone
              cases hdone
          · rwa [Function.update_of_ne him] at hi
    · have e := hcells.extends ht hs hT
      rw [e.hash i (by rw [hi]; exact hh), hi]
  · have hnew := hcells.fresh_step hco ht hs (not_lt.1 hT) i
    rw [HashTable.value, hnew] at hv
    exact absurd rfl hv.1

theorem Cells.held_cell (hcells : Cells H S calls)
    (hco : Coordination S.outline (pcsOf calls)) (ht : calls t = some c)
    (hs : c.step H signalSafeReaders S t = some (S', c')) (hh : h ≠ mapHashEmpty)
    {x : Tid → Option (Call Key)} : Held S' x h (.cell T i) v ↔
      (S.tables T).hash i = h ∧ (S'.tables T).value i = v ∧ Proper v := by
  refine ⟨fun ⟨hi, hv, hp⟩ => ⟨?_, hv, hp⟩, fun ⟨hi, hv, hp⟩ => ⟨?_, hv, hp⟩⟩
  · exact (hcells.hash_of_proper hco ht hs hh (by rwa [hv])).1 hi
  · exact (hcells.hash_of_proper hco ht hs hh (by rwa [hv])).2 hi

/-! ## Where the value goes -/

omit [Fintype Tid] in
theorem held_write {U : TableId} {k : ℕ} {x v : ValueType} {calls' : Tid → Option (Call Key)} :
    Held (S.write U k x) calls' h (.cell T i) v ↔
      if T = U ∧ i = k then (S.tables T).hash i = h ∧ v = x ∧ Proper v
      else Held S calls h (.cell T i) v := by
  have hhash : ((S.write U k x).tables T).hash = (S.tables T).hash := SameChains.write.2.1
  rw [Held, hhash, Shared.write_value]
  split_ifs with he
  · rw [eq_comm (a := x)]
  · rfl

omit [Fintype Tid] in
theorem held_mover (ht : calls t = some c) :
    Held S calls h (.mover t) v ↔ c.pc.carried = some (h, v) := by
  rw [Held, ht]
  exact ⟨fun ⟨_, hd, hc⟩ => by cases hd; exact hc, fun hc => ⟨c, rfl, hc⟩⟩

variable [DecidableEq Tid]

omit [Fintype Tid] in
theorem held_mover_self :
    Held S (Function.update calls t (some c)) h (.mover t) v ↔ c.pc.carried = some (h, v) :=
  held_mover (Function.update_self ..)

omit [Fintype Tid] in
theorem held_mover_other {x : Option (Call Key)} (hu : u ≠ t) :
    Held S' (Function.update calls t x) h (.mover u) v ↔ Held S calls h (.mover u) v := by
  rw [Held, Held, Function.update_of_ne hu]

/-- What a step does to the value of a hash: it stays where it is, or is passed on, or a
    client stores its own in its place. -/
inductive Handover (H : Hasher Key) (S : Shared Tid) (calls : Tid → Option (Call Key))
    (S' : Shared Tid) (calls' : Tid → Option (Call Key)) (c c' : Call Key) (h : HashType) : Prop
  | same : (∀ p v, Held S' calls' h p v ↔ Held S calls h p v) →
      (∀ T i v, c.pc.mover? ≠ some (T, i, .restore h v)) → Handover H S calls S' calls' c c' h
  | move (p q : Place Tid) (v : ValueType) : Held S calls h p v → At (Held S' calls' h) q v →
      ¬c.pc.Quiet → (∃ i, q = .cell S.latest i) ∨ (S'.tables S.latest).Moved h →
      Handover H S calls S' calls' c c' h
  | store (k : ℕ) : H.hash c.op.key = h →
      c.pc.client? = some (S.latest, k, (S.tables S.latest).value k) →
      (S.tables S.latest).hash k = h → (S.tables S.latest).value k ≠ mapValMove →
      (∀ p v, Held S calls h p v → p = .cell S.latest k) →
      (∀ p v, Held S' calls' h p v ↔ p = .cell S.latest k ∧ v = c.op.value ∧ Proper v) →
      c' = c.goto (.ret ((S.tables S.latest).value k)) → Handover H S calls S' calls' c c' h

/-- A step that does not touch the cells of the hash. -/
theorem Handover.of_value (hcells : Cells H S calls)
    (hco : Coordination S.outline (pcsOf calls)) (ht : calls t = some c)
    (hs : c.step H signalSafeReaders S t = some (S', c')) (hh : h ≠ mapHashEmpty)
    (hv : ∀ T i, T < S.nTables → (S.tables T).hash i = h → ∀ v, Proper v →
      ((S'.tables T).value i = v ↔ (S.tables T).value i = v))
    (hr : ∀ T i v, c.pc.mover? ≠ some (T, i, .restore h v))
    (hc : ∀ v, c'.pc.carried = some (h, v) ↔ c.pc.carried = some (h, v)) :
    Handover H S calls S' (Function.update calls t (some c')) c c' h := by
  refine .same (fun p v => ?_) hr
  cases p with
  | cell T i =>
    rw [hcells.held_cell hco ht hs hh, Held]
    refine and_congr_right fun hi => and_congr_left fun hp => ?_
    refine hv T i ?_ hi v hp
    by_contra hT
    rw [HashTable.hash, hcells.fresh T (not_lt.1 hT)] at hi
    exact hh hi.symm
  | mover u =>
    by_cases hu : u = t
    · subst hu
      rw [held_mover_self, held_mover ht, hc]
    · exact held_mover_other hu

omit [Fintype Tid] [DecidableEq Tid] in
/-- A table that is not used any more is not in use. -/
theorem Outline.Layout.not_inUse {o : Outline Tid} (hl : o.Layout) (hT : T ∈ o.retired) :
    ¬o.InUse T := by
  rintro (⟨rfl, -⟩ | ⟨j, hj, rfl | ⟨-, s, hs⟩⟩)
  · exact hl.latest_notMem hT
  · exact hj.2 (.inr hT)
  · rcases Nat.eq_zero_or_pos s with rfl | hpos
    · obtain rfl := Option.some.inj ((hl.sources j hj).root.symm.trans hs)
      exact hl.latest_notMem hT
    · exact (hl.sources j hj).unpublished s T hs hpos.ne' (.inr hT)

omit [DecidableEq Tid] in
/-- A client that does not find its cell moved is at the current table. -/
theorem Values.latest_of_ne (hval : Values S calls) (hcells : Cells H S calls)
    (hco : Coordination S.outline (pcsOf calls)) (hp : S.outline.Published root)
    (hi : (S.tables root).hash i ≠ mapHashEmpty) (hne : (S.tables root).value i ≠ mapValMove) :
    root = S.latest := by
  refine hp.resolve_right fun hr => hne ?_
  exact hval.sealed root (hco.layout.published_lt root hp) (hco.layout.not_inUse hr) i
    (hcells.lt root i hi)

omit [Fintype Tid] in
theorem carried_nextCell {c : Call Key} {s k last : ℕ} :
    (c.goto (.afterMigrate root j s T last (nextCell k last))).pc.carried = none := by
  rw [nextCell]
  split_ifs <;> rfl

/-- A client stores to the cell of its hash, where the value is, if there is one. -/
theorem Custody.held_store (hC : Custody S calls h) (hval : Values S calls)
    (hcells : Cells H S calls) (hco : Coordination S.outline (pcsOf calls))
    (ht : calls t = some c) (hh : h ≠ mapHashEmpty) {k : ℕ}
    (hc : c.pc.client? = some (root, k, (S.tables root).value k)) (hkey : H.hash c.op.key = h)
    (hcar : c'.pc.carried = none) : root = S.latest ∧ (S.tables root).hash k = h ∧
      (∀ p v, Held S calls h p v → p = .cell root k) ∧
      ∀ p v, Held (S.write root k c.op.value) (Function.update calls t (some c')) h p v ↔
        p = .cell root k ∧ v = c.op.value ∧ Proper v := by
  subst hkey
  obtain ⟨hp, -, hk, hne⟩ := hcells.client hco ht hc
  obtain rfl := hval.latest_of_ne hcells hco hp (by rw [hk]; exact hh) hne
  have hold : ∀ p v, Held S calls (H.hash c.op.key) p v → p = .cell S.latest k := fun p v hv => by
    rcases hC.away p v hv with ⟨i, rfl⟩ | ⟨i, hi, hm⟩
    · rw [hC.unique _ i k hv.1 hk]
    · rw [hC.unique _ i k hi hk] at hm
      exact absurd hm hne
  refine ⟨rfl, hk, hold, fun p v => ?_⟩
  cases p with
  | cell T i =>
    rw [held_write]
    split_ifs with he
    · obtain ⟨rfl, rfl⟩ := he
      simp [hk]
    · constructor
      · intro hv
        cases hold _ _ hv
        exact absurd ⟨rfl, rfl⟩ he
      · rintro ⟨hcell, -⟩
        cases hcell
        exact absurd ⟨rfl, rfl⟩ he
  | mover u =>
    have hnone : ∀ u v, ¬Held S calls (H.hash c.op.key) (.mover u) v := fun u v hv =>
      nomatch hold _ _ hv
    refine ⟨fun hv => ?_, fun hv => nomatch hv.1⟩
    by_cases hu : u = t
    · subst hu
      exact nomatch hcar.symm.trans (held_mover_self.1 hv)
    · exact absurd ((held_mover_other hu).1 hv) (hnone u v)

/-- A client stores its value. -/
theorem Custody.handover_store (hC : Custody S calls h) (hval : Values S calls)
    (hcells : Cells H S calls) (hco : Coordination S.outline (pcsOf calls))
    (ht : calls t = some c) (hh : h ≠ mapHashEmpty) {k : ℕ}
    (hc : c.pc.client? = some (root, k, (S.tables root).value k))
    (hs : c.step H signalSafeReaders S t =
      some (S.write root k c.op.value, c.goto (.ret ((S.tables root).value k)))) :
    Handover H S calls (S.write root k c.op.value)
      (Function.update calls t (some (c.goto (.ret ((S.tables root).value k))))) c
      (c.goto (.ret ((S.tables root).value k))) h := by
  obtain ⟨-, -, hk, hne⟩ := hcells.client hco ht hc
  have hcar : c.pc.carried = none := by
    rw [Pc.carried, (Pc.quiet_of_client hc).mover?]
    rfl
  by_cases hkey : H.hash c.op.key = h
  · obtain ⟨rfl, hk, hold, hnew⟩ := hC.held_store hval hcells hco ht hh hc hkey
      (show (c.goto (.ret ((S.tables root).value k))).pc.carried = none from rfl)
    exact .store k hkey hc hk hne hold hnew rfl
  · refine .of_value hcells hco ht hs hh (fun T i _ hi v _ => ?_) (fun T i v hm => ?_) fun v => ?_
    · rw [Shared.write_of_ne]
      rintro rfl rfl
      exact hkey (hk.symm.trans hi)
    · exact nomatch (Pc.quiet_of_client hc).mover?.symm.trans hm
    · rw [hcar]
      exact ⟨nofun, nofun⟩

omit [Fintype Tid] in
/-- A thread puts the value that it carries into a cell. -/
theorem at_write (hat : At (Held S calls h) (.mover t) v) {k : ℕ}
    (hk : (S.tables T).hash k = h) (hp : Proper v) (hc : c'.pc.carried = none) :
    At (Held (S.write T k v) (Function.update calls t (some c')) h) (.cell T k) v := by
  intro r w
  cases r with
  | cell U i =>
    rw [held_write]
    split_ifs with he
    · obtain ⟨rfl, rfl⟩ := he
      refine ⟨fun hw => ⟨rfl, hw.2.1⟩, fun hw => ⟨hk, hw.2, ?_⟩⟩
      rw [hw.2]
      exact hp
    · rw [hat]
      refine ⟨(fun hw => nomatch hw.1), fun ⟨hcell, _⟩ => ?_⟩
      cases hcell
      exact absurd ⟨rfl, rfl⟩ he
  | mover u =>
    refine ⟨fun hw => ?_, fun hw => nomatch hw.1⟩
    by_cases hu : u = t
    · subst hu
      exact nomatch hc.symm.trans (held_mover_self.1 hw)
    · cases ((hat _ _).1 ((held_mover_other hu).1 hw)).1
      exact absurd rfl hu

omit [Fintype Tid] in
/-- A thread takes the value out of a cell. -/
theorem at_take {k : ℕ} (hat : At (Held S calls h) (.cell T k) v)
    (hc : c'.pc.carried = some (h, v)) :
    At (Held (S.write T k mapValMove) (Function.update calls t (some c')) h) (.mover t) v := by
  intro r w
  cases r with
  | cell U i =>
    refine ⟨fun hw => ?_, fun hw => nomatch hw.1⟩
    rw [held_write] at hw
    split_ifs at hw with he
    · exact absurd hw.2.1 hw.2.2.2
    · cases ((hat _ _).1 hw).1
      exact absurd ⟨rfl, rfl⟩ he
  | mover u =>
    by_cases hu : u = t
    · subst hu
      rw [held_mover_self, hc]
      simp [eq_comm]
    · rw [held_mover_other hu, hat]
      refine ⟨(fun hw => nomatch hw.1), fun ⟨hu', _⟩ => ?_⟩
      cases hu'
      exact absurd rfl hu

omit [DecidableEq Tid] in
/-- Where a thread that moves a value finds its cell in the destination, it finds no
    value there. -/
theorem Custody.dest_cell (hC : Custody S calls h) (hval : Values S calls)
    (hco : Coordination S.outline (pcsOf calls)) (ht : calls t = some c) {s U last k n : ℕ}
    {p : InsertPc} (hpc : c.pc = .migrate root j s U k last (.insert h v p))
    (hn : (S.tables (S.jobs j).dest).hash n = h) :
    (S.tables (S.jobs j).dest).value n = mapValEmpty := by
  have hmov := hco.moving (pcsOf_eq ht hpc)
  by_contra hne
  have hcell : Held S calls h (.cell (S.jobs j).dest n) _ :=
    ⟨hn, rfl, hne, hval.clean j hmov.isOpen n⟩
  have hmover : Held S calls h (.mover t) v := ⟨c, ht, by rw [hpc]; rfl⟩
  exact nomatch (hC.sole _ _ _ _ hcell hmover).1

omit [Fintype Tid] [DecidableEq Tid] in
theorem Cells.insert_cas (hcells : Cells H S calls) (ht : calls t = some c) {s U last k n : ℕ}
    {p : InsertPc} {x : ValueType} (hpc : c.pc = .migrate root j s U k last (.insert h v p))
    (hcas : p.cas? = some (n, x)) : (S.tables (S.jobs j).dest).hash n = h := by
  refine (InsertPc.Ok.cas?_hash ((hcells.chain (S.jobs j).dest).ok t ⟨h, v, p⟩ ?_) hcas).2.1
  rw [ht, Option.bind_some, Call.insertAt, hpc]
  exact if_pos rfl

omit [Fintype Tid] [DecidableEq Tid] in
theorem MigrateEffect.restores {dest U k last : ℕ} {mpc : MigratePc} {next : MigrateNext}
    (he : MigrateEffect S dest U k last mpc S' next) (hn : next = .done true) :
    ∃ g v, mpc = .restore g v := by
  have hcell : nextCell k last ≠ .done true := by
    rw [nextCell]
    split_ifs <;> simp
  cases he with
  | restore g v hp => exact ⟨g, v, hp⟩
  | skip | mark | put | lose => exact absurd hn hcell
  | read | take | search | overflow => cases hn

omit [DecidableEq Tid] in
/-- A cell remains moved until its value is restored. -/
theorem Values.moved_stays (hval : Values S calls) (hcells : Cells H S calls)
    (hco : Coordination S.outline (pcsOf calls)) (ht : calls t = some c)
    (hs : c.step H signalSafeReaders S t = some (S', c')) (hh : h ≠ mapHashEmpty)
    (hT : T < S.nTables) (hm : (S.tables T).Moved h)
    (hr : ∀ i v, c.pc.mover? ≠ some (T, i, .restore h v)) : (S'.tables T).Moved h := by
  obtain ⟨i, hi, hv⟩ := hm
  refine ⟨i, ((hcells.extends ht hs hT).hash i (by rw [hi]; exact hh)).trans hi, ?_⟩
  cases hval.value_change hcells hco ht hs hT i with
  | same he => rw [he, hv]
  | store _ hne => exact absurd hv hne
  | put root j s U k last mpc hpc hd =>
    subst hd
    exact absurd hv (hval.clean j (hco.moving (pcsOf_eq ht hpc)).isOpen i)
  | move mpc hm =>
    obtain ⟨root, j, s, last, hpc, hmov⟩ := hco.mover_source ht hm
    cases Call.step_effect (hcells.knows t c ht) hs with
    | store _ _ hc => exact nomatch (Pc.quiet_of_client hc).mover?.symm.trans hm
    | run _ _ _ he => rw [he] at hpc; cases hpc
    | quiet hq => exact nomatch hq.mover?.symm.trans hm
    | migrate root' j' s' U k last' mpc' next he hme =>
      cases he.symm.trans hpc
      refine hme.stays (fun hn => ?_) (hmov.ne_dest hco.layout) hv
      obtain ⟨g, v, rfl⟩ := hme.restores hn
      have hk := hcells.knows t c ht
      rw [Call.Knows, hpc] at hk
      rw [show g = h from hk.1.symm.trans hi] at hm
      exact hr i v hm

/-- A thread moves a value. -/
theorem Custody.handover_migrate (hC : Custody S calls h) (hval : Values S calls)
    (hcells : Cells H S calls) (hco : Coordination S.outline (pcsOf calls))
    (ht : calls t = some c) (hh : h ≠ mapHashEmpty) {s U k last : ℕ} {mpc : MigratePc}
    {next : MigrateNext} (hpc : c.pc = .migrate root j s U k last mpc)
    (he : MigrateEffect S (S.jobs j).dest U k last mpc S' next)
    (hs : c.step H signalSafeReaders S t =
      some (S', c.goto (.afterMigrate root j s U last next))) :
    Handover H S calls S' (Function.update calls t (some (c.goto (.afterMigrate root j s U last next))))
      c (c.goto (.afterMigrate root j s U last next)) h := by
  have hmov := hco.moving (pcsOf_eq ht hpc)
  have hmoves := hval.movers t c U k mpc ht (by rw [hpc]; rfl)
  have hknows : mpc.Knows (S.tables U) k := by
    have hk := hcells.knows t c ht
    rw [Call.Knows, hpc] at hk
    exact hk
  have hcar : c.pc.carried = mpc.carried := by
    rw [hpc]
    rfl
  have hquiet : ¬c.pc.Quiet := by
    rw [hpc]
    exact id
  have hlatest : S.latest < S.nTables := hco.layout.published_lt _ (.inl rfl)
  have hother : ∀ {g x}, mpc.carried = some (g, x) → g ≠ h → ∀ v, mpc.carried ≠ some (h, v) :=
    fun hx hne v hv => hne (congrArg Prod.fst (Option.some.inj (hx.symm.trans hv)))
  have hnone : ∀ {o : Option (HashType × ValueType)}, o = none → ∀ v, o ≠ some (h, v) :=
    fun ho v hv => nomatch ho.symm.trans hv
  -- The value that the thread restores is the one it carries.
  have hrestore : ∀ {T i v}, c.pc.mover? = some (T, i, .restore h v) →
      T = U ∧ mpc = .restore h v := fun hm => by
    rw [hpc] at hm
    cases hm
    exact ⟨rfl, rfl⟩
  have hkeep : (∀ v, mpc.carried ≠ some (h, v)) → ∀ T i v, c.pc.mover? ≠ some (T, i, .restore h v) :=
    fun hn T i v hm => hn v (by rw [(hrestore hm).2]; rfl)
  cases he with
  | read pc' hn hn' hS =>
    subst hS
    refine .of_value hcells hco ht hs hh (fun _ _ _ _ _ _ => Iff.rfl) (hkeep (hnone hn)) fun v => ?_
    rw [hcar]
    exact iff_of_false (hnone hn' v) (hnone hn v)
  | skip hn hS =>
    subst hS
    refine .of_value hcells hco ht hs hh (fun _ _ _ _ _ _ => Iff.rfl) (hkeep (hnone hn)) fun v => ?_
    rw [hcar]
    exact iff_of_false (hnone carried_nextCell v) (hnone hn v)
  | mark hn hS hv =>
    subst hS
    refine .of_value hcells hco ht hs hh (fun T i _ _ v hp => ?_) (hkeep (hnone hn)) fun v => ?_
    · rw [Shared.write_value]
      split_ifs with hi
      · obtain ⟨rfl, rfl⟩ := hi
        rw [hv]
        exact iff_of_false (Ne.symm hp.2) (Ne.symm hp.1)
      · rfl
    · rw [hcar]
      exact iff_of_false (hnone carried_nextCell v) (hnone hn v)
  | take g x hp hS hv hx =>
    subst hS hp
    by_cases hg : g = h
    · subst hg
      have hheld : Held S calls g (.cell U k) x := ⟨hknows.1, hv, hx, hmoves.2⟩
      refine .move _ _ x hheld (at_take (hC.sole.at hheld) rfl) hquiet (.inr ?_)
      by_cases hU : U = S.latest
      · subst hU
        exact ⟨k, ((hcells.extends ht hs hlatest).hash k (by rw [hknows.1]; exact hh)).trans
          hknows.1, Shared.write_self⟩
      · refine hval.moved_stays hcells hco ht hs hh hlatest ((hC.away _ x hheld).resolve_left ?_)
          fun i v hm => nomatch (hrestore hm).2
        rintro ⟨i, hi⟩
        cases hi
        exact hU rfl
    · refine .of_value hcells hco ht hs hh (fun T i _ hi v _ => ?_) (hkeep (hnone rfl)) fun v => ?_
      · rw [Shared.write_of_ne]
        rintro rfl rfl
        exact hg (hknows.1.symm.trans hi)
      · rw [hcar]
        exact iff_of_false (fun hv' => hg (congrArg Prod.fst (Option.some.inj hv'))) (hnone rfl v)
  | search g x p p' X hp hX hS | overflow g x p X hp hX hS =>
    subst hS hp
    refine .of_value hcells hco ht hs hh (fun T i _ _ v _ => ?_)
      (fun T i v hm => nomatch (hrestore hm).2) fun v => ?_
    · rw [value_setTable hX]
    · rw [hcar]
      rfl
  | put g x p n hp hcas hS =>
    subst hS hp
    have hn := hcells.insert_cas ht hpc hcas
    by_cases hg : g = h
    · subst hg
      have hheld : Held S calls g (.mover t) x := ⟨c, ht, hcar⟩
      refine .move _ _ x hheld (at_write (hC.sole.at hheld) hn ⟨hmoves.2.1, hmoves.2.2⟩
        carried_nextCell) hquiet (.inr ?_)
      exact hval.moved_stays hcells hco ht hs hh hlatest ((hC.away _ x hheld).resolve_left nofun)
        fun i v hm => nomatch (hrestore hm).2
    · refine .of_value hcells hco ht hs hh (fun T i _ hi v _ => ?_) (hkeep (hother rfl hg))
        fun v => ?_
      · rw [Shared.write_of_ne]
        rintro rfl rfl
        exact hg (hn.symm.trans hi)
      · rw [hcar]
        exact iff_of_false (hnone carried_nextCell v) (hother rfl hg v)
  | lose g x p n hp hS hor =>
    subst hS hp
    by_cases hg : g = h
    · subst hg
      rcases hor with hm | ⟨old, hcas, hne⟩
      · exact absurd hm (hval.clean j hmov.isOpen n)
      · have hn := hcells.insert_cas ht hpc hcas
        have hold := hC.expects t c U k x p n old ht (by rw [hpc]; rfl) hcas
        exact absurd ((hC.dest_cell hval hco ht hpc hn).trans hold.symm) hne
    · refine .of_value hcells hco ht hs hh (fun _ _ _ _ _ _ => Iff.rfl) (hkeep (hother rfl hg))
        fun v => ?_
      rw [hcar]
      exact iff_of_false (hnone carried_nextCell v) (hother rfl hg v)
  | restore g x hp hS =>
    subst hS hp
    by_cases hg : g = h
    · subst hg
      have hheld : Held S calls g (.mover t) x := ⟨c, ht, hcar⟩
      refine .move _ _ x hheld (at_write (hC.sole.at hheld) hknows.1 ⟨hmoves.2.1, hmoves.2.2⟩ rfl)
        hquiet ?_
      by_cases hU : U = S.latest
      · exact .inl ⟨k, by rw [hU]⟩
      · exact .inr (hval.moved_stays hcells hco ht hs hh hlatest
          ((hC.away _ x hheld).resolve_left nofun) fun i v hm => hU (hrestore hm).1.symm)
    · refine .of_value hcells hco ht hs hh (fun T i _ hi v _ => ?_) (hkeep (hother rfl hg))
        fun v => ?_
      · rw [Shared.write_of_ne]
        rintro rfl rfl
        exact hg (hknows.1.symm.trans hi)
      · rw [hcar]
        exact iff_of_false (hnone rfl v) (hother rfl hg v)

/-- What a step does to the value of a hash. -/
theorem Custody.handover (hC : Custody S calls h) (hval : Values S calls)
    (hcells : Cells H S calls) (hco : Coordination S.outline (pcsOf calls))
    (ht : calls t = some c) (hh : h ≠ mapHashEmpty)
    (hs : c.step H signalSafeReaders S t = some (S', c')) :
    Handover H S calls S' (Function.update calls t (some c')) c c' h := by
  cases Call.step_effect (hcells.knows t c ht) hs with
  | store root k hc hS hc' =>
    subst hS hc'
    exact hC.handover_store hval hcells hco ht hh hc hs
  | migrate root j s U k last mpc next hpc he hc' =>
    subst hc'
    exact hC.handover_migrate hval hcells hco ht hh hpc he hs
  | run root j rpc hpc hS hc' =>
    subst hS hc'
    refine .of_value hcells hco ht hs hh (fun _ _ _ _ _ _ => Iff.rfl)
      (fun T i v hm => by rw [hpc] at hm; cases hm) fun v => ?_
    rw [hpc]
    refine iff_of_false ?_ (fun hv => nomatch hv)
    cases ((S.jobs j).runStep S.outline.size rpc).2 <;> exact nofun
  | quiet hq hm hv =>
    refine .of_value hcells hco ht hs hh (fun T i hT _ v _ => ?_)
      (fun T i v hm' => nomatch hq.mover?.symm.trans hm') fun v => ?_
    · rw [hv T hT.ne]
    · rw [Pc.carried, Pc.carried, hq.mover?, hm]

/-- The value has left the current table when it is elsewhere. -/
theorem Custody.away_step (hC : Custody S calls h) (hval : Values S calls)
    (hcells : Cells H S calls) (hco : Coordination S.outline (pcsOf calls))
    (ht : calls t = some c) (hl : c.OnTime S) (hh : h ≠ mapHashEmpty)
    (hs : c.step H signalSafeReaders S t = some (S', c')) {p : Place Tid}
    (hp : Held S' (Function.update calls t (some c')) h p v) :
    (∃ i, p = .cell S'.latest i) ∨ (S'.tables S'.latest).Moved h := by
  have hhand := hC.handover hval hcells hco ht hh hs
  have hlatest : S.latest < S.nTables := hco.layout.published_lt _ (.inl rfl)
  -- No other table comes into use.
  have hkeep : S'.latest = S.latest →
      (∃ i, p = .cell S'.latest i) ∨ (S'.tables S'.latest).Moved h := fun he => by
    rw [he]
    cases hhand with
    | same hsame hr =>
      exact (hC.away p v ((hsame p v).1 hp)).imp_right fun hm =>
        hval.moved_stays hcells hco ht hs hh hlatest hm (hr S.latest)
    | move r q w _ hat _ hor => rwa [((hat p v).1 hp).1]
    | store k _ _ _ _ _ hnew => exact .inl ⟨k, ((hnew p v).1 hp).1⟩
  cases hco.advance ht hl hs with
  | keep x ho => exact hkeep (congrArg Outline.latest ho)
  | run _ _ _ _ _ ho => exact hkeep (congrArg Outline.latest ho)
  | begin _ _ _ _ _ _ _ _ ho => exact hkeep (congrArg Outline.latest ho)
  | ends _ _ _ _ ho => exact hkeep (congrArg Outline.latest ho)
  | publish root j old hpc hc hj ho =>
    have hold : Held S calls h p v := by
      cases hhand with
      | same hsame => exact (hsame p v).1 hp
      | move _ _ _ _ _ hq => exact absurd (by rw [hpc]; trivial) hq
      | store _ _ hcl =>
        rw [hpc] at hcl
        cases hcl
    left
    cases p with
    | mover u =>
      obtain ⟨d, hd, hcar⟩ := hold
      obtain ⟨⟨T, i, mpc⟩, hm, -⟩ := Option.bind_eq_some_iff.1 hcar
      obtain ⟨_, _, _, _, -, hmov⟩ := hco.mover_source hd hm
      rw [hmov.lead] at hc
      cases hc
    | cell T i =>
      obtain ⟨hi, hv, hprop⟩ := hold
      refine ⟨i, ?_⟩
      rw [show S'.latest = (S.jobs j).dest from congrArg Outline.latest ho]
      by_cases hu : S.outline.InUse T
      · rw [hu.eq_dest hc hj]
        rfl
      · have hT : T < S.nTables := by
          by_contra hT
          rw [HashTable.hash, hcells.fresh T (not_lt.1 hT)] at hi
          exact hh hi.symm
        have hm := hval.sealed T hT hu i (hcells.lt T i (by rw [hi]; exact hh))
        exact absurd (hv.symm.trans hm) hprop.2

/-- The value of a hash is in one place at most. -/
theorem Custody.sole_step (hC : Custody S calls h) (hval : Values S calls)
    (hcells : Cells H S calls) (hco : Coordination S.outline (pcsOf calls))
    (ht : calls t = some c) (hh : h ≠ mapHashEmpty)
    (hs : c.step H signalSafeReaders S t = some (S', c')) :
    Sole (Held S' (Function.update calls t (some c')) h) := by
  cases hC.handover hval hcells hco ht hh hs with
  | same hsame => exact hC.sole.congr hsame
  | move p q w _ hat => exact hat.sole
  | store k _ _ _ _ _ hnew =>
    intro p q v w hp hq
    obtain ⟨rfl, rfl, -⟩ := (hnew p v).1 hp
    obtain ⟨rfl, rfl, -⟩ := (hnew q w).1 hq
    exact ⟨rfl, rfl⟩

/-- A thread that moves a value expects to find none. -/
theorem Custody.expects_step (hC : Custody S calls h) (hval : Values S calls)
    (hcells : Cells H S calls) (hco : Coordination S.outline (pcsOf calls))
    (ht : calls t = some c) (hh : h ≠ mapHashEmpty)
    (hs : c.step H signalSafeReaders S t = some (S', c')) {p : InsertPc} {k : ℕ} {x : ValueType}
    (hm : c'.pc.mover? = some (T, i, .insert h v p)) (hcas : p.cas? = some (k, x)) :
    x = mapValEmpty := by
  have hcells' := hcells.callStep hco ht hs
  cases Call.step_effect (hcells.knows t c ht) hs with
  | store root n _ _ hc =>
    subst hc
    cases hm
  | run root j rpc _ _ hc =>
    subst hc
    cases hn : ((S.jobs j).runStep S.outline.size rpc).2 <;>
      simp only [hn, Call.goto, Pc.afterRun] at hm <;> cases hm
  | quiet _ hn => cases hn.symm.trans hm
  | migrate root j s U n last mpc next hpc he hc ho =>
    subst hc
    cases he with
    | read pc' _ hn =>
      cases hm
      cases hn
    | skip | mark | put | lose =>
      cases nextCell_mover? hm
    | take =>
      cases hm
      cases hcas
    | overflow | restore => cases hm
    | search g y p₀ p' X hp hX hS hread =>
      cases hm
      subst hS hp
      have hxk := hread k x hcas
      by_contra hx
      -- The thread would have found a value, besides the one that it carries.
      have hcell : Held (S.setTable (S.jobs j).dest X)
          (Function.update calls t (some (c.goto (.migrate root j s T i last (.insert h v p))))) h
          (.cell (S.jobs j).dest k) x :=
        ⟨hcells'.insert_cas (Function.update_self ..) rfl hcas, by rw [value_setTable hX, hxk], hx,
          fun hxm => hval.clean j (hco.moving (pcsOf_eq ht hpc)).isOpen k (hxk.trans hxm)⟩
      have hmover : Held (S.setTable (S.jobs j).dest X)
          (Function.update calls t (some (c.goto (.migrate root j s T i last (.insert h v p))))) h
          (.mover t) v := held_mover_self.2 rfl
      have hsame := (hC.sole_step hval hcells hco ht hh hs _ _ _ _ hcell hmover).1
      cases hsame

/-- A step of a call that allocates no second cell keeps the invariant. -/
theorem Custody.callStep (hC : Custody S calls h) (hval : Values S calls)
    (hcells : Cells H S calls) (hco : Coordination S.outline (pcsOf calls))
    (ht : calls t = some c) (hl : c.OnTime S) (ho : c.Once H (· = h) S) (hh : h ≠ mapHashEmpty)
    (hs : c.step H signalSafeReaders S t = some (S', c')) :
    Custody S' (Function.update calls t (some c')) h where
  unique _ _ _ := hC.unique_step hcells ht ho hh hs
  sole := hC.sole_step hval hcells hco ht hh hs
  away _ _ := hC.away_step hval hcells hco ht hl hh hs
  expects u d T i v p k x hd hm hcas := by
    rcases ThreadSum.update_eq_some_iff.1 hd with ⟨rfl, he⟩ | ⟨-, hd⟩
    · cases he
      exact hC.expects_step hval hcells hco ht hh hs hm hcas
    · exact hC.expects u d T i v p k x hd hm hcas

omit [Fintype Tid] in
/-- A thread that begins or ends its call has no value. -/
theorem held_update {x : Option (Call Key)} (hold : ∀ d ∈ calls t, d.pc.carried = none)
    (hx : ∀ d ∈ x, d.pc.carried = none) (p : Place Tid) :
    Held S (Function.update calls t x) h p v ↔ Held S calls h p v := by
  cases p with
  | cell T i => rfl
  | mover u =>
    by_cases hu : u = t
    · subst hu
      refine iff_of_false ?_ ?_
      · rintro ⟨d, hd, hc⟩
        rw [Function.update_self] at hd
        exact nomatch (hx d hd).symm.trans hc
      · rintro ⟨d, hd, hc⟩
        exact nomatch (hold d hd).symm.trans hc
    · exact held_mover_other hu

omit [Fintype Tid] in
theorem maps_update {x : Option (Call Key)} {w : ValueType}
    (hold : ∀ d ∈ calls t, d.pc.carried = none) (hx : ∀ d ∈ x, d.pc.carried = none) :
    Maps S (Function.update calls t x) h w ↔ Maps S calls h w :=
  forall_congr' fun _ =>
    iff_congr (contents_congr fun p _ => held_update hold hx p) Iff.rfl

omit [Fintype Tid] in
theorem Custody.update (hC : Custody S calls h) {x : Option (Call Key)}
    (hold : ∀ d ∈ calls t, d.pc.carried = none) (hx : ∀ d ∈ x, d.pc.mover? = none) :
    Custody S (Function.update calls t x) h where
  unique := hC.unique
  sole := hC.sole.congr fun p v => held_update hold (fun d hd => by rw [Pc.carried, hx d hd]; rfl) p
  away p v hp :=
    hC.away p v ((held_update hold (fun d hd => by rw [Pc.carried, hx d hd]; rfl) p).1 hp)
  expects u d T i v p k x hd hm hcas := by
    rcases ThreadSum.update_eq_some_iff.1 hd with ⟨-, he⟩ | ⟨-, hd⟩
    · exact nomatch (hx d he).symm.trans hm
    · exact hC.expects u d T i v p k x hd hm hcas

/-- Every step of the map that is on time, and allocates no second cell, keeps the invariant. -/
theorem Custody.next {σ σ' : State Tid Key} {l : Label Tid Key}
    (hC : Custody σ.shared σ.calls h) (hσ : Sound H σ) (hl : OnTime σ l)
    (ho : Once H (· = h) σ l) (hh : h ≠ mapHashEmpty)
    (hn : (provider Tid H signalSafeReaders).next σ l = some σ') :
    Custody σ'.shared σ'.calls h := by
  cases State.transition_of_next H signalSafeReaders hn with
  | call t op hc =>
    refine hC.update (fun d hd => ?_) fun d hd => ?_
    · exact nomatch hc.symm.trans hd
    · cases hd
      rfl
  | ret t c result hc hret =>
    refine hC.update (fun d hd => ?_) fun d hd => nomatch hd
    cases hc.symm.trans hd
    rw [hret]
    rfl
  | step t c c' S' hc hs =>
    exact hC.callStep hσ.values hσ.cells hσ.coordination hc (hl c hc) (ho c hc) hh hs

omit [Fintype Tid] [DecidableEq Tid] in
/-- At first there are no values. -/
theorem not_held_new (n : BitVec 64) (hh : h ≠ mapHashEmpty) (p : Place Tid) (v : ValueType) :
    ¬Held (State.new n : State Tid Key).shared (State.new n : State Tid Key).calls h p v :=
  fun hp => by
    cases p with
    | cell T i => exact hh hp.1.symm
    | mover t =>
      obtain ⟨c, hc, -⟩ := hp
      cases hc

omit [Fintype Tid] [DecidableEq Tid] in
theorem Custody.initial (n : BitVec 64) (hh : h ≠ mapHashEmpty) :
    Custody (State.new n : State Tid Key).shared (State.new n : State Tid Key).calls h :=
  ⟨fun _ _ _ hi => absurd hi.symm hh, fun p _ v _ hp => absurd hp (not_held_new n hh p v),
    fun p v hp => absurd hp (not_held_new n hh p v), fun _ _ _ _ _ _ _ _ hc => nomatch hc⟩

/-! ## What a step does to the value -/

/-- A step of a call either keeps the value of a hash, or stores another one, which its call
    writes, and finds there what its call returns. -/
theorem Custody.maps_step (hC : Custody S calls h) (hval : Values S calls)
    (hcells : Cells H S calls) (hco : Coordination S.outline (pcsOf calls))
    (ht : calls t = some c) (hh : h ≠ mapHashEmpty)
    (hs : c.step H signalSafeReaders S t = some (S', c')) :
    (∀ w, Maps S' (Function.update calls t (some c')) h w ↔ Maps S calls h w) ∨
      ∃ k old, H.hash c.op.key = h ∧ c.pc.client? = some (S.latest, k, old) ∧
        Maps S calls h old ∧ Maps S' (Function.update calls t (some c')) h c.op.value ∧
        c' = c.goto (.ret old) := by
  cases hC.handover hval hcells hco ht hh hs with
  | same hsame =>
    exact .inl fun w => forall_congr' fun v => iff_congr (contents_congr hsame) Iff.rfl
  | move p q w hp hat =>
    exact .inl fun w => forall_congr' fun v =>
      iff_congr ((hC.sole.at hp).contents_eq hat) Iff.rfl
  | store k hkey hc hk hne hold hnew hc' =>
    refine .inr ⟨k, _, hkey, hc, fun v => ⟨?_, ?_⟩, fun v => ⟨?_, ?_⟩, hc'⟩
    · rintro ⟨p, hp⟩
      obtain rfl := hold p v hp
      exact ⟨hp.2.1.symm, hp.2.1.symm ▸ hp.2.2.1⟩
    · rintro ⟨rfl, hv⟩
      exact ⟨.cell S.latest k, hk, rfl, hv, hne⟩
    · rintro ⟨p, hp⟩
      obtain ⟨rfl, rfl, hv⟩ := (hnew p v).1 hp
      exact ⟨rfl, hv.1⟩
    · rintro ⟨rfl, hv⟩
      exact ⟨.cell S.latest k, (hnew _ _).2 ⟨rfl, rfl, hv, c.op.value_ne_move⟩⟩

/-- As long as no client stores to the cell of a hash, its value remains. -/
theorem Custody.maps_next {σ σ' : State Tid Key} {l : Label Tid Key} {w : ValueType}
    (hC : Custody σ.shared σ.calls h) (hσ : Sound H σ) (hh : h ≠ mapHashEmpty)
    (hm : Maps σ.shared σ.calls h w)
    (hq : ∀ t c, l = .step t → σ.calls t = some c → H.hash c.op.key = h → c.pc.client? = none)
    (hn : (provider Tid H signalSafeReaders).next σ l = some σ') :
    Maps σ'.shared σ'.calls h w := by
  cases State.transition_of_next H signalSafeReaders hn with
  | call t op hc =>
    refine (maps_update (fun d hd => ?_) fun d hd => ?_).2 hm
    · exact nomatch hc.symm.trans hd
    · cases hd
      rfl
  | ret t c result hc hret =>
    refine (maps_update (fun d hd => ?_) fun d hd => ?_).2 hm
    · cases hc.symm.trans hd
      rw [hret]
      rfl
    · cases hd
  | step t c c' S' hc hs =>
    rcases hC.maps_step hσ.values hσ.cells hσ.coordination hc hh hs with
      hkeep | ⟨k, old, hkey, hcl, -⟩
    · exact (hkeep w).2 hm
    · exact nomatch (hq t c rfl hc hkey).symm.trans hcl

end Steps

end FkProf.ConcurrentMap
