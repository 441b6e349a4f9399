import FkProf.ConcurrentMap.Lookup

/-!
# A table is published complete

When the last thread to leave a migration publishes the destination, all cells of the
sources are marked as moved, and the destination has the values that the cells of the
current table held when they were marked, each of which has been inserted there once.

* `lastHeld`: the value of a cell when it was marked for the last time;
* `Marked`: the value of a hash is the one that its cell held then, wherever it is;
* `Inserted`: the destination has got each value that it has once;
* `published_complete`: what holds when `finishMigration` is called, and from then on;
* `exists_published_incomplete`: a hash with two cells, one of whose values is lost.
-/

namespace FkProf.ConcurrentMap

variable {Tid Key : Type*}

/-- The value that the cell held when it was marked as moved, for the last time. -/
def lastHeld (T : TableId) (i : ℕ) (tr : List (State Tid Key × Label Tid Key)) : ValueType :=
  tr.foldl (fun v x => if (x.1.shared.tables T).value i = mapValMove then v
    else (x.1.shared.tables T).value i) mapValEmpty

theorem lastHeld_snoc (T : TableId) (i : ℕ) (tr : List (State Tid Key × Label Tid Key))
    (σ : State Tid Key) (l : Label Tid Key) : lastHeld T i (tr ++ [(σ, l)]) =
      if (σ.shared.tables T).value i = mapValMove then lastHeld T i tr
      else (σ.shared.tables T).value i := by
  rw [lastHeld, List.foldl_append]
  rfl

/-- The value of a hash is the one that its cell in the current table held when it was marked. -/
structure Marked (tr : List (State Tid Key × Label Tid Key)) (σ : State Tid Key) : Prop where
  cell : ∀ i, (σ.shared.tables σ.shared.latest).hash i ≠ mapHashEmpty →
    (σ.shared.tables σ.shared.latest).value i = mapValMove →
    Maps σ.shared σ.calls ((σ.shared.tables σ.shared.latest).hash i)
      (lastHeld σ.shared.latest i tr)
  free : ∀ i, (σ.shared.tables σ.shared.latest).hash i = mapHashEmpty →
    (σ.shared.tables σ.shared.latest).value i = mapValMove →
    lastHeld σ.shared.latest i tr = mapValEmpty

section Marks

variable {H : Hasher Key} {signalSafeReaders : Bool} {S S' : Shared Tid} {c c' : Call Key} {t : Tid}
  {T : TableId} {h : HashType} {calls : Tid → Option (Call Key)} {i : ℕ} {v w : ValueType}
  {σ σ' : State Tid Key} {l : Label Tid Key} {tr : List (State Tid Key × Label Tid Key)}

/-- Null is held nowhere. -/
theorem Values.held_ne_empty (hval : Values S calls) {p : Place Tid} (hp : Held S calls h p v) :
    v ≠ mapValEmpty := by
  cases p with
  | cell T i => exact hp.2.2.1
  | mover u =>
    obtain ⟨d, hd, hcar⟩ := hp
    obtain ⟨⟨T, i, mpc⟩, hmover, hcar⟩ := Option.bind_eq_some_iff.1 hcar
    have hmoves := hval.movers u d T i mpc hd hmover
    cases mpc <;> cases hcar <;> exact hmoves.2.1

/-- A hash has a value, null for none. -/
theorem Custody.exists_maps (hC : Custody S calls h) (hval : Values S calls) :
    ∃ w, Maps S calls h w := by
  by_cases hex : ∃ p v, Held S calls h p v
  · obtain ⟨p, v, hp⟩ := hex
    exact ⟨v, hC.maps_of_held hp (hval.held_ne_empty hp)⟩
  · exact ⟨mapValEmpty, maps_of_none fun p v hp => hex ⟨p, v, hp⟩⟩

variable [Fintype Tid] [DecidableEq Tid]

/-- The value of a hash remains, unless a client stores to its cell in the current table. -/
theorem Custody.maps_of_moved (hC : Custody S calls h) (hval : Values S calls)
    (hcells : Cells H S calls) (hco : Coordination S.outline (pcsOf calls)) (ht : calls t = some c)
    (hh : h ≠ mapHashEmpty) (hs : c.step H signalSafeReaders S t = some (S', c'))
    (hm : ∀ k, (S.tables S.latest).hash k = h → (S.tables S.latest).value k ≠ mapValMove →
      (S'.tables S.latest).value k = mapValMove) (hw : Maps S calls h w) :
    Maps S' (Function.update calls t (some c')) h w := by
  cases hC.handover hval hcells hco ht hh hs with
  | same hsame => exact fun v => (contents_congr hsame).trans (hw v)
  | move p q v hp hat => exact fun x => ((hC.sole.at hp).contents_eq hat).trans (hw x)
  | store k hkey hc hk hne =>
    obtain ⟨rfl, -⟩ : S.write S.latest k c.op.value = S' ∧ _ = c' :=
      Prod.mk.inj (Option.some.inj (((hcells.knows t c ht).step_store hc).symm.trans hs))
    have hmove := hm k hk hne
    rw [Shared.write_self] at hmove
    exact absurd hmove c.op.value_ne_move

omit [Fintype Tid] [DecidableEq Tid] in
/-- A cell that gets its hash keeps its value. -/
theorem Cells.value_of_allocated (hcells : Cells H S calls) (ht : calls t = some c)
    (hs : c.step H signalSafeReaders S t = some (S', c')) (hT : T < S.nTables)
    (hi : (S'.tables T).hash i ≠ (S.tables T).hash i) :
    (S'.tables T).value i = (S.tables T).value i := by
  cases Call.step_table (hcells.knows t c ht) hs T with
  | same _ ha => exact absurd (by rw [HashTable.hash, ha]; rfl) hi
  | new he => exact absurd hT (by rw [he]; exact lt_irrefl _)
  | write m v _ _ he => exact absurd (by rw [he, HashTable.setValue_hash]) hi
  | insert f hf he =>
    rw [he] at hi ⊢
    rcases insertOrUpdateStep_hash (S.tables T) f.hash f.value f.pc with hsame |
      ⟨m, pc', _, _, _, hnext, -⟩
    · exact absurd (congrFun hsame i) hi
    · rcases insertOrUpdateStep_value (S.tables T) f.hash f.value f.pc with hv | ⟨_, _, _, hdone⟩
      · rw [hv]
      · cases hnext.symm.trans hdone

omit [DecidableEq Tid] in
/-- Another table comes into use only when it is published, which has no mark yet. -/
theorem Values.unmarked_of_published (hval : Values S calls)
    (hco : Coordination S.outline (pcsOf calls)) (ht : calls t = some c)
    (hs : c.step H signalSafeReaders S t = some (S', c')) (hne : S'.latest ≠ S.latest) (i : ℕ) :
    (S'.tables S'.latest).value i ≠ mapValMove := by
  cases Call.step_changes hs with
  | publish root j old hpc hS =>
    have hok := hco.ok t _ (pcsOf_eq ht rfl)
    rw [hpc] at hok
    obtain ⟨-, -, -, -, hopen, -⟩ := hok
    subst hS
    rw [show (S.publish (S.jobs j).dest).latest = (S.jobs j).dest from
      congrArg Outline.latest (outline_publish hopen.2)]
    have htables : (S.publish (S.jobs j).dest).tables = S.tables := by
      rw [Shared.publish]
      split_ifs <;> rfl
    rw [htables]
    exact hval.clean j hopen i
  | cells x ho => exact absurd (congrArg Outline.latest ho) hne
  | run root j pc hpc hS => exact absurd (congrArg Shared.latest hS) hne
  | begins root n hpc hS => exact absurd (congrArg Shared.latest hS) hne
  | restart root j T hpc hS => exact absurd (congrArg Shared.latest hS) hne
  | ends root j T hpc hT hS => exact absurd (congrArg Shared.latest hS) hne
  | schedule root j old hpc hS => exact absurd (congrArg Shared.latest hS) hne

/-- The mark of a cell of the current table says which value its hash has. -/
theorem Marked.cell_step (h : Marked tr σ) (hsound : Sound H σ)
    (hC : ∀ g, g ≠ mapHashEmpty → Custody σ.shared σ.calls g)
    (hC' : ∀ g, g ≠ mapHashEmpty → Custody S' (Function.update σ.calls t (some c')) g)
    (ht : σ.calls t = some c) (hs : c.step H signalSafeReaders σ.shared t = some (S', c'))
    (hi : (S'.tables σ.shared.latest).hash i ≠ mapHashEmpty)
    (hm : (S'.tables σ.shared.latest).value i = mapValMove) :
    Maps S' (Function.update σ.calls t (some c')) ((S'.tables σ.shared.latest).hash i)
      (lastHeld σ.shared.latest i (tr ++ [(σ, .step t)])) := by
  obtain ⟨hco, hcells, hval⟩ := hsound
  have hlatest : σ.shared.latest < σ.shared.nTables := hco.layout.published_lt _ (.inl rfl)
  have e := hcells.extends ht hs hlatest
  set T := σ.shared.latest with hT
  have hkeep := fun {w} => (hC _ hi).maps_of_moved (w := w) hval hcells hco ht hi hs
  rw [lastHeld_snoc]
  by_cases hhash : (S'.tables T).hash i = (σ.shared.tables T).hash i
  · have hi₀ : (σ.shared.tables T).hash i ≠ mapHashEmpty := by rwa [← hhash]
    have hself : ∀ k, (σ.shared.tables T).hash k = (S'.tables T).hash i → k = i := fun k hk =>
      (hC _ hi).unique T k i hk hhash.symm
    by_cases hv : (σ.shared.tables T).value i = mapValMove
    · -- It was marked before.
      rw [if_pos hv]
      refine hkeep (fun k hk hne => ?_) ?_
      · rw [hself k hk] at hne
        exact absurd hv hne
      · rw [hhash]
        exact h.cell i hi₀ hv
    · -- It is marked now.
      rw [if_neg hv]
      obtain ⟨w, hw⟩ := (hC _ hi).exists_maps hval
      have hvw : (σ.shared.tables T).value i = w :=
        (hC _ hi).value_eq hval hcells hco hi hw (.inl rfl) hhash.symm hv
      rw [hvw]
      exact hkeep (fun k hk _ => (hself k hk).symm ▸ hm) hw
  · -- The cell was marked before it is allocated to its hash, which has no value yet.
    have hi₀ : (σ.shared.tables T).hash i = mapHashEmpty := by
      by_contra hne
      exact hhash (e.hash i hne)
    have hv : (σ.shared.tables T).value i = mapValMove :=
      (hcells.value_of_allocated ht hs hlatest hhash).symm.trans hm
    have hnone : ∀ k, (σ.shared.tables T).hash k ≠ (S'.tables T).hash i := fun k hk => by
      have hk' : (S'.tables T).hash k = (S'.tables T).hash i := by
        rw [e.hash k (by rw [hk]; exact hi), hk]
      rw [(hC' _ hi).unique T k i hk' rfl, hi₀] at hk
      exact hi hk.symm
    rw [if_pos hv, h.free i hi₀ hv]
    obtain ⟨w, hw⟩ := (hC _ hi).exists_maps hval
    obtain rfl : w = mapValEmpty := by
      by_contra hne
      obtain ⟨k, hk⟩ := (hC _ hi).allocated hw hne
      exact hnone k hk
    exact hkeep (fun k hk => absurd hk (hnone k)) hw

theorem Marked.callStep (h : Marked tr σ) (hsound : Sound H σ)
    (hC : ∀ g, g ≠ mapHashEmpty → Custody σ.shared σ.calls g)
    (hC' : ∀ g, g ≠ mapHashEmpty → Custody S' (Function.update σ.calls t (some c')) g)
    (ht : σ.calls t = some c) (hs : c.step H signalSafeReaders σ.shared t = some (S', c')) :
    Marked (tr ++ [(σ, .step t)]) ⟨S', Function.update σ.calls t (some c'), σ.history⟩ := by
  obtain ⟨hco, hcells, hval⟩ := hsound
  have hlatest : σ.shared.latest < σ.shared.nTables := hco.layout.published_lt _ (.inl rfl)
  by_cases hsame : S'.latest = σ.shared.latest
  · constructor
    · show ∀ i, (S'.tables S'.latest).hash i ≠ mapHashEmpty → _ = _ → _
      rw [hsame]
      exact fun i hi hm => h.cell_step ⟨hco, hcells, hval⟩ hC hC' ht hs hi hm
    · show ∀ i, (S'.tables S'.latest).hash i = mapHashEmpty → _ = _ → lastHeld S'.latest i _ = _
      rw [hsame]
      intro i hi hm
      have hi₀ : (σ.shared.tables σ.shared.latest).hash i = mapHashEmpty := by
        by_contra hne
        exact hne (((hcells.extends ht hs hlatest).hash i hne).symm.trans hi)
      rw [lastHeld_snoc]
      split_ifs with hv
      · exact h.free i hi₀ hv
      · exact (hcells.free _ i hi₀).resolve_right hv
  · have hun := hval.unmarked_of_published hco ht hs hsame
    exact ⟨fun i _ hm => absurd hm (hun i), fun i _ hm => absurd hm (hun i)⟩

end Marks

/-! ## Insertions -/

/-- The table and the hash of the value that the thread is about to store in the destination. -/
def Call.insertion? (S : Shared Tid) (c : Call Key) : Option (TableId × HashType) :=
  match c.pc with
  | .migrate _ j _ _ _ _ (.insert h _ pc) => pc.cas?.bind fun x =>
    if (S.tables (S.jobs j).dest).value x.1 = x.2 then some ((S.jobs j).dest, h) else none
  | _ => none

/-- The step inserts a value for the hash into the table, lines 298 and 353 of a call of
    line 518. -/
def Inserts (T : TableId) (h : HashType) (x : State Tid Key × Label Tid Key) : Bool :=
  match x.2 with
  | .step t => (x.1.calls t).bind (Call.insertion? x.1.shared) = some (T, h)
  | .call .. => false

/-- The table has a value for the hash. -/
def HashTable.HasValue (T : HashTable Tid) (h : HashType) : Prop :=
  ∃ i, T.hash i = h ∧ Proper (T.value i)

/-- The destination of the migration under way has got each value that it has once. -/
structure Inserted (tr : List (State Tid Key × Label Tid Key)) (σ : State Tid Key) : Prop where
  once : ∀ j, σ.shared.outline.Open j → ∀ h, h ≠ mapHashEmpty →
    (σ.shared.tables (σ.shared.jobs j).dest).HasValue h →
    tr.countP (Inserts (σ.shared.jobs j).dest h) = 1
  none : ∀ j, σ.shared.outline.Open j → ∀ h, h ≠ mapHashEmpty →
    ¬(σ.shared.tables (σ.shared.jobs j).dest).HasValue h →
    tr.countP (Inserts (σ.shared.jobs j).dest h) = 0
  fresh : ∀ T, σ.shared.nTables ≤ T → ∀ h, tr.countP (Inserts T h) = 0

section Insertions

variable {H : Hasher Key} {signalSafeReaders : Bool} {S S' : Shared Tid} {c c' : Call Key} {t : Tid}
  {T : TableId} {h : HashType} {j : JobId} {calls : Tid → Option (Call Key)} {i : ℕ}
  {σ σ' : State Tid Key} {l : Label Tid Key} {tr : List (State Tid Key × Label Tid Key)}

theorem Call.exists_of_insertion (hi : c.insertion? S = some (T, h)) :
    ∃ root j s U k last v p n, c.pc = .migrate root j s U k last (.insert h v p) ∧
      T = (S.jobs j).dest ∧ p.cas? = some (n, (S.tables T).value n) := by
  obtain ⟨op, doubleSize, pc⟩ := c
  cases pc with
  | migrate root j s U k last mpc =>
    cases mpc with
    | insert g v p =>
      obtain ⟨⟨n, x⟩, hcas, hx⟩ := Option.bind_eq_some_iff.1 hi
      rw [Option.ite_none_right_eq_some] at hx
      obtain ⟨hv, he⟩ := hx
      cases he
      exact ⟨root, j, s, U, k, last, v, p, n, rfl, rfl, hv ▸ hcas⟩
    | _ => cases hi
  | _ => cases hi

variable [Fintype Tid]

/-- No value of the destination changes but by an insertion. -/
theorem Cells.dest_value (hcells : Cells H S calls) (hco : Coordination S.outline (pcsOf calls))
    (ht : calls t = some c) (hs : c.step H signalSafeReaders S t = some (S', c'))
    (hj : S.outline.Open j) (hn : c.insertion? S ≠ some ((S.jobs j).dest, h))
    (hi : (S.tables (S.jobs j).dest).hash i = h) :
    (S'.tables (S.jobs j).dest).value i = (S.tables (S.jobs j).dest).value i := by
  have hlt : (S.jobs j).dest < S.nTables := hco.layout.dest_lt j hj.lt
  cases Call.step_effect (hcells.knows t c ht) hs with
  | store root k hc hS =>
    subst hS
    have hp := (hcells.client hco ht hc).1
    exact Shared.write_of_ne fun he => absurd (he ▸ hp) hj.2
  | run root i rpc _ hS =>
    subst hS
    rfl
  | quiet _ _ hv => rw [hv _ hlt.ne]
  | migrate root j' s U k last mpc next hpc he =>
    have hmov := hco.moving (pcsOf_eq ht hpc)
    obtain rfl := hmov.isOpen.unique hj
    have hne := hmov.ne_dest hco.layout
    cases he with
    | read _ _ _ hS | skip _ hS | lose _ _ _ _ _ hS => rw [hS]
    | mark _ hS | take _ _ _ hS | restore _ _ _ hS =>
      subst hS
      exact Shared.write_of_ne fun he => absurd he.symm hne
    | search g x p p' X _ hX hS | overflow g x p X _ hX hS =>
      subst hS
      rw [value_setTable hX]
    | put g x p n hp hcas hS =>
      subst hS hp
      refine Shared.write_of_ne fun _ hin => hn ?_
      subst hin
      rw [Call.insertion?, hpc]
      simp only [hcas, Option.bind_some, if_true]
      rw [← hi, hcells.insert_cas ht hpc hcas]

theorem Cells.hasValue_step (hcells : Cells H S calls)
    (hco : Coordination S.outline (pcsOf calls)) (ht : calls t = some c)
    (hs : c.step H signalSafeReaders S t = some (S', c')) (hh : h ≠ mapHashEmpty)
    (hj : S.outline.Open j) (hn : c.insertion? S ≠ some ((S.jobs j).dest, h)) :
    (S'.tables (S.jobs j).dest).HasValue h ↔ (S.tables (S.jobs j).dest).HasValue h := by
  refine exists_congr fun i => ⟨fun ⟨hi, hv⟩ => ?_, fun ⟨hi, hv⟩ => ?_⟩
  · have hi₀ := (hcells.hash_of_proper hco ht hs hh hv).1 hi
    rw [hcells.dest_value hco ht hs hj hn hi₀] at hv
    exact ⟨hi₀, hv⟩
  · rw [← hcells.dest_value hco ht hs hj hn hi] at hv
    exact ⟨(hcells.hash_of_proper hco ht hs hh hv).2 hi, hv⟩

omit [Fintype Tid] in
/-- An insertion brings the value of its hash to the destination, which had none. -/
theorem Custody.insertion (hC : Custody S calls h) (hval : Values S calls) (hcells : Cells H S calls)
    (ht : calls t = some c) (hs : c.step H signalSafeReaders S t = some (S', c'))
    (hi : c.insertion? S = some (T, h)) :
    ¬(S.tables T).HasValue h ∧ (S'.tables T).HasValue h := by
  obtain ⟨root, j, s, U, k, last, v, p, n, hpc, rfl, hcas⟩ := Call.exists_of_insertion hi
  have hmoves : (MigratePc.insert h v p).Moves ((S.tables U).value k) :=
    hval.movers t c U k _ ht (by rw [hpc]; rfl)
  have hn := hcells.insert_cas ht hpc hcas
  constructor
  · rintro ⟨m, hm, hv⟩
    have hcell : Held S calls h (.cell (S.jobs j).dest m) _ := ⟨hm, rfl, hv⟩
    have hmover : Held S calls h (.mover t) v := ⟨c, ht, by rw [hpc]; rfl⟩
    exact nomatch (hC.sole _ _ _ _ hcell hmover).1
  · obtain ⟨op, doubleSize, pc⟩ := c
    cases hpc
    rw [Call.step_migrate] at hs
    -- The exchange finds the value that it expects.
    obtain rfl : S.write (S.jobs j).dest n v = S' := by
      refine Eq.trans ?_ (Prod.mk.inj (Option.some.inj hs)).1
      cases p with
      | updateCas m x | setCas m x =>
        cases hcas
        simp only [migrateStep, insertOrUpdateStep, if_true]
        rfl
      | _ => cases hcas
    refine ⟨n, ?_, ?_⟩
    · rwa [show ((S.write (S.jobs j).dest n v).tables (S.jobs j).dest).hash =
        (S.tables (S.jobs j).dest).hash from SameChains.write.2.1]
    · rw [Shared.write_self]
      exact ⟨hmoves.2.1, hmoves.2.2⟩

omit [Fintype Tid] in
/-- The migration under way is the one before, or has a new destination. -/
theorem Advance.open_dest {o o' : Outline Tid} {pc : Pc} (ha : Advance o pc o') (hj : o'.Open j) :
    o.Open j ∧ (o'.jobs j).dest = (o.jobs j).dest ∨ (o'.jobs j).dest = o.nTables := by
  cases ha with
  | keep x ho =>
    subst ho
    exact .inl ⟨hj, rfl⟩
  | run root i rpc _ hkeep ho =>
    subst ho
    exact .inl ⟨(Outline.open_setJob hkeep.dest).1 hj, (Outline.keeps_setJob hkeep j).dest⟩
  | begin n jobs m _ hd _ _ _ ho =>
    subst ho
    obtain rfl := Outline.begin_open hj
    rw [Outline.begin_jobs]
    exact .inr hd
  | ends root i _ _ ho =>
    subst ho
    exact .inl ⟨hj, rfl⟩
  | publish root i old _ _ hi ho =>
    subst ho
    exact absurd hj (Outline.not_open_publish hi)

omit [Fintype Tid] in
theorem countP_inserts (ht : σ.calls t = some c) :
    (tr ++ [(σ, Label.step t)]).countP (Inserts T h) =
      tr.countP (Inserts T h) + if c.insertion? σ.shared = some (T, h) then 1 else 0 := by
  rw [List.countP_append, List.countP_singleton]
  simp only [Inserts, ht, Option.bind_some, decide_eq_true_eq]

theorem Inserted.callStep (h : Inserted tr σ) (hsound : Sound H σ)
    (hC : ∀ g, g ≠ mapHashEmpty → Custody σ.shared σ.calls g) (ht : σ.calls t = some c)
    (hl : OnTime σ (.step t)) (hs : c.step H signalSafeReaders σ.shared t = some (S', c'))
    (calls' : Tid → Option (Call Key)) (history : List (Op Key × ValueType)) :
    Inserted (tr ++ [(σ, .step t)]) ⟨S', calls', history⟩ := by
  obtain ⟨hco, hcells, hval⟩ := hsound
  -- Nothing is inserted into a table that does not exist.
  have hnew : ∀ T, σ.shared.nTables ≤ T → ∀ g, c.insertion? σ.shared ≠ some (T, g) := by
    intro T hT g hi
    obtain ⟨root, j, s, U, k, last, v, p, n, hpc, rfl, -⟩ := Call.exists_of_insertion hi
    have hmov := hco.moving (pcsOf_eq ht hpc)
    exact absurd (hco.layout.dest_lt j hmov.isOpen.lt) (not_lt.2 hT)
  have hfresh : ∀ T, σ.shared.nTables ≤ T → ∀ g,
      (tr ++ [(σ, Label.step t)]).countP (Inserts T g) = 0 := fun T hT g => by
    rw [countP_inserts ht, if_neg (hnew T hT g), h.fresh T hT g]
  constructor
  · intro j hj g hg hv
    rcases (hco.advance ht (hl c ht) hs).open_dest hj with ⟨hj₀, hd⟩ | hd
    · rw [show (S'.jobs j).dest = (σ.shared.jobs j).dest from hd] at hv ⊢
      rw [countP_inserts ht]
      split_ifs with hi
      · rw [h.none j hj₀ g hg ((hC g hg).insertion hval hcells ht hs hi).1]
      · rw [h.once j hj₀ g hg ((hcells.hasValue_step hco ht hs hg hj₀ hi).1 hv)]
    · -- A new destination has no values.
      obtain ⟨i, -, hp, -⟩ := hv
      have hfree := hcells.fresh_step hco ht hs
        (show σ.shared.nTables ≤ (S'.jobs j).dest from (show _ = _ from hd).ge) i
      exact absurd (congrArg LockFreeMapEntry.value hfree) hp
  · intro j hj g hg hv
    rcases (hco.advance ht (hl c ht) hs).open_dest hj with ⟨hj₀, hd⟩ | hd
    · rw [show (S'.jobs j).dest = (σ.shared.jobs j).dest from hd] at hv ⊢
      rw [countP_inserts ht]
      split_ifs with hi
      · exact absurd ((hC g hg).insertion hval hcells ht hs hi).2 hv
      · rw [h.none j hj₀ g hg fun hv' => hv ((hcells.hasValue_step hco ht hs hg hj₀ hi).2 hv')]
    · exact hfresh _ (show _ = _ from hd).ge g
  · exact fun T hT => hfresh T ((Call.step_nTables hs).trans hT)

end Insertions

/-! ## The published table -/

/-- The table is not the current one any more, or is about to be replaced. -/
def Outline.Over (o : Outline Tid) (T : TableId) : Prop :=
  T ∈ o.retired ∨ T = o.latest ∧ o.coordinator o.latest = .ended

/-- The table maps the hash to the value, null for none. -/
structure HashTable.MapsTo (T : HashTable Tid) (h : HashType) (w : ValueType) : Prop where
  lookup : w ≠ mapValEmpty → T.Lookup h w
  eq : ∀ x, T.Lookup h x → x = w

/-- The value that the cell of the hash held when it was marked, null if there is no cell. -/
def HeldBefore (tr : List (State Tid Key × Label Tid Key)) (σ : State Tid Key) (T : TableId)
    (h : HashType) (w : ValueType) : Prop :=
  (∃ i, (σ.shared.tables T).hash i = h ∧ lastHeld T i tr = w) ∨
    (∀ i, (σ.shared.tables T).hash i ≠ h) ∧ w = mapValEmpty

section Published

variable {H : Hasher Key} {signalSafeReaders : Bool} {S S' : Shared Tid} {c c' : Call Key} {t : Tid}
  {T root : TableId} {h : HashType} {j : JobId} {calls : Tid → Option (Call Key)} {i : ℕ}
  {v w : ValueType} {σ σ' : State Tid Key} {l : Label Tid Key}
  {tr : List (State Tid Key × Label Tid Key)} {o o' : Outline Tid}

theorem Outline.Over.not_inUse (h : o.Over T) (hl : o.Layout) : ¬o.InUse T := by
  rcases h with hT | ⟨rfl, hc⟩
  · exact hl.not_inUse hT
  · rintro (⟨-, hne⟩ | ⟨j, hj, he | ⟨hj', -⟩⟩)
    · exact hne hc
    · exact hj.2 (.inl he.symm)
    · exact nomatch hc.symm.trans hj'

theorem Outline.Over.step {pc : Pc} (h : o.Over T) (ha : Advance o pc o') : o'.Over T := by
  cases ha with
  | keep x ho | run root i rpc _ hkeep ho =>
    subst ho
    exact h
  | begin n jobs m _ _ _ _ hne ho =>
    subst ho
    exact .inl (h.resolve_right fun ⟨_, hc⟩ => hne hc)
  | ends root i _ hc ho =>
    subst ho
    exact .inl (h.resolve_right fun ⟨_, he⟩ => nomatch hc.symm.trans he)
  | publish root i old _ _ _ ho =>
    subst ho
    exact .inl (h.elim (List.mem_cons_of_mem _) fun ⟨he, _⟩ => he ▸ List.mem_cons_self)

variable [Fintype Tid]

/-- When the migration has ended, all values are in the destination. -/
theorem Values.held_dest (hval : Values S calls) (hcells : Cells H S calls)
    (hco : Coordination S.outline (pcsOf calls)) (hh : h ≠ mapHashEmpty)
    (hc : S.outline.coordinator S.outline.latest = .ended) (hj : S.outline.Open j) {p : Place Tid}
    (hp : Held S calls h p v) : ∃ i, p = .cell (S.jobs j).dest i := by
  cases p with
  | mover u =>
    obtain ⟨d, hd, hcar⟩ := hp
    obtain ⟨⟨T, i, mpc⟩, hm, -⟩ := Option.bind_eq_some_iff.1 hcar
    obtain ⟨_, _, _, _, -, hmov⟩ := hco.mover_source hd hm
    exact nomatch hc.symm.trans hmov.lead
  | cell T i =>
    obtain ⟨hi, hv, hprop⟩ := hp
    have hne : (S.tables T).hash i ≠ mapHashEmpty := by rwa [hi]
    by_cases hu : S.outline.InUse T
    · exact ⟨i, by rw [hu.eq_dest hc hj]; rfl⟩
    · have hT : T < S.nTables := by
        by_contra hT
        rw [HashTable.hash, hcells.fresh T (not_lt.1 hT)] at hi
        exact hh hi.symm
      exact absurd (hv.symm.trans (hval.sealed T hT hu i (hcells.lt T i hne))) hprop.2

/-- The cells of the destination are on the chains of their hashes, when nobody moves values. -/
theorem Cells.onChain_dest (hcells : Cells H S calls) (hco : Coordination S.outline (pcsOf calls))
    (hh : h ≠ mapHashEmpty) (hc : S.outline.coordinator S.outline.latest = .ended)
    (hj : S.outline.Open j) (hi : (S.tables (S.jobs j).dest).hash i = h) :
    OnChain (S.tables (S.jobs j).dest) h i := by
  subst hi
  refine ((hcells.chain _).cells i (hcells.lt _ i hh) hh).resolve_right ?_
  rintro ⟨t, f, hf, -⟩
  obtain ⟨c, ht, hf⟩ := Option.bind_eq_some_iff.1 hf
  have hok := hco.ok t c.pc (pcsOf_eq ht rfl)
  have hmov : ∀ {r i s U k last pc}, c.pc = .migrate r i s U k last pc →
      S.outline.Moving r i s U k last := fun hpc => hco.moving (pcsOf_eq ht hpc)
  obtain ⟨op, doubleSize, pc⟩ := c
  cases pc with
  | insert r p =>
    simp only [Call.insertAt, Option.ite_none_right_eq_some] at hf
    exact hj.2 (hf.1 ▸ hok)
  | migrate r i s U k last pc => cases hc.symm.trans (hmov rfl).lead
  | _ => simp [Call.insertAt] at hf

/-- The destination maps the hash to its value. -/
theorem Custody.mapsTo_dest (hC : Custody S calls h) (hval : Values S calls)
    (hcells : Cells H S calls) (hco : Coordination S.outline (pcsOf calls)) (hh : h ≠ mapHashEmpty)
    (hc : S.outline.coordinator S.outline.latest = .ended) (hj : S.outline.Open j)
    (hm : Maps S calls h w) : (S.tables (S.jobs j).dest).MapsTo h w := by
  have hchain : ∀ {n}, (S.tables (S.jobs j).dest).hash n = h →
      OnChain (S.tables (S.jobs j).dest) h n := hcells.onChain_dest hco hh hc hj
  have hcell : w ≠ mapValEmpty → ∃ i, (S.tables (S.jobs j).dest).hash i = h ∧
      (S.tables (S.jobs j).dest).value i = w := fun hw => by
    obtain ⟨p, hp⟩ := (hm w).2 ⟨rfl, hw⟩
    obtain ⟨i, rfl⟩ := hval.held_dest hcells hco hh hc hj hp
    exact ⟨i, hp.1, hp.2.1⟩
  have hfound : ∀ i, (S.tables (S.jobs j).dest).hash i = h →
      (S.tables (S.jobs j).dest).value i = w := fun i hi => by
    by_cases hw : w = mapValEmpty
    · by_contra hne
      have hheld : Held S calls h (.cell (S.jobs j).dest i) _ :=
        ⟨hi, rfl, fun he => hne (he.trans hw.symm), hval.clean j hj i⟩
      exact ((hm _).1 ⟨_, hheld⟩).2 hw
    · obtain ⟨k, hk, hv⟩ := hcell hw
      rwa [hC.unique _ i k hi hk]
  constructor
  · intro hw
    obtain ⟨i, hi, hv⟩ := hcell hw
    obtain ⟨m, hwalk, hm'⟩ := (hchain hi).exists_walked (hcells.chain _) hi
    rw [← hfound m hm']
    exact .found m hwalk hm'
  · intro x hx
    cases hx with
    | found i _ hi => exact hfound i hi
    | absent i hwalk he =>
      by_contra hw
      obtain ⟨k, hk, -⟩ := hcell (Ne.symm hw)
      exact hwalk.not_empty (hcells.chain _) (hchain hk) hk hh he
    | last i hwalk hi hl =>
      by_contra hw
      obtain ⟨k, hk, -⟩ := hcell (Ne.symm hw)
      exact hwalk.not_last (hchain hk) hk hi hl

end Published

/-! ## Runs -/

section Runs

variable [Fintype Tid] [DecidableEq Tid] {H : Hasher Key} {signalSafeReaders : Bool}
  {σ σ' : State Tid Key} {l : Label Tid Key} {tr : List (State Tid Key × Label Tid Key)}
  {t : Tid} {c : Call Key} {root : TableId} {j : JobId}

/-- The invariants of a run and its trace. -/
structure Traced (H : Hasher Key) (tr : List (State Tid Key × Label Tid Key)) (σ : State Tid Key) :
    Prop where
  sound : Sound H σ
  custody : ∀ h, h ≠ mapHashEmpty → Custody σ.shared σ.calls h
  marked : Marked tr σ
  inserted : Inserted tr σ

omit [Fintype Tid] in
/-- A call that begins or returns changes nothing. -/
theorem Marked.update (h : Marked tr σ) {x : Option (Call Key)}
    {history : List (Op Key × ValueType)} (hold : ∀ d ∈ σ.calls t, d.pc.carried = none)
    (hx : ∀ d ∈ x, d.pc.carried = none) :
    Marked (tr ++ [(σ, l)]) ⟨σ.shared, Function.update σ.calls t x, history⟩ where
  cell i hi hm := by
    rw [lastHeld_snoc, if_pos (show _ = _ from hm)]
    exact (maps_update hold hx).2 (h.cell i hi hm)
  free i hi hm := by
    rw [lastHeld_snoc, if_pos (show _ = _ from hm)]
    exact h.free i hi hm

omit [Fintype Tid] [DecidableEq Tid] in
theorem Inserted.update (h : Inserted tr σ) (hn : ∀ T g, Inserts T g (σ, l) = false)
    (calls : Tid → Option (Call Key)) (history : List (Op Key × ValueType)) :
    Inserted (tr ++ [(σ, l)]) ⟨σ.shared, calls, history⟩ := by
  have hcount : ∀ T g, (tr ++ [(σ, l)]).countP (Inserts T g) = tr.countP (Inserts T g) :=
    fun T g => by rw [List.countP_append, List.countP_singleton, hn]; rfl
  constructor
  · intro j hj g hg hv
    rw [hcount]
    exact h.once j hj g hg hv
  · intro j hj g hg hv
    rw [hcount]
    exact h.none j hj g hg hv
  · intro T hT g
    rw [hcount]
    exact h.fresh T hT g

theorem Traced.next (h : Traced H tr σ) (ho : Orderly H (fun _ => True) σ l)
    (hn : (provider Tid H signalSafeReaders).next σ l = some σ') :
    Traced H (tr ++ [(σ, l)]) σ' := by
  have hsound := h.sound.next ho.1 hn
  have hcustody : ∀ g, g ≠ mapHashEmpty → Custody σ'.shared σ'.calls g := fun g hg =>
    (h.custody g hg).next h.sound ho.1 ho.2.of_true hg hn
  refine ⟨hsound, hcustody, ?_, ?_⟩
  · cases State.transition_of_next H signalSafeReaders hn with
    | call t op hc =>
      refine h.marked.update (fun d hd => ?_) fun d hd => ?_
      · exact nomatch hc.symm.trans hd
      · cases hd
        rfl
    | ret t c result hc hret =>
      refine h.marked.update (fun d hd => ?_) fun d hd => ?_
      · cases hc.symm.trans hd
        rw [hret]
        rfl
      · cases hd
    | step t c c' S' hc hs => exact h.marked.callStep h.sound h.custody hcustody hc hs
  · cases State.transition_of_next H signalSafeReaders hn with
    | call t op hc => exact h.inserted.update (fun _ _ => rfl) _ _
    | ret t c result hc hret =>
      have hnone : ∀ T g, Inserts T g (σ, .step t) = false := fun T g => decide_eq_false fun hi => by
        rw [hc, Option.bind_some, Call.insertion?, hret] at hi
        cases hi
      exact h.inserted.update hnone _ _
    | step t c c' S' hc hs => exact h.inserted.callStep h.sound h.custody hc ho.1 hs _ _

omit [DecidableEq Tid] in
theorem Traced.initial (n : BitVec 64) : Traced H [] (State.new n : State Tid Key) where
  sound := .initial n
  custody _ hg := .initial n hg
  marked := ⟨fun _ hi => absurd rfl hi, fun _ _ _ => rfl⟩
  inserted := ⟨fun _ hj => absurd hj.1 (Nat.succ_ne_zero _), fun _ _ _ _ _ => rfl, fun _ _ _ => rfl⟩

omit [DecidableEq Tid] in
/-- When the migration has ended, a hash has the value that its cell held when it was marked. -/
theorem Traced.maps {h : HashType} {w : ValueType} (htr : Traced H tr σ) (hh : h ≠ mapHashEmpty)
    (hc : σ.shared.outline.coordinator σ.shared.latest = .ended)
    (hw : HeldBefore tr σ σ.shared.latest h w) : Maps σ.shared σ.calls h w := by
  obtain ⟨hco, hcells, hval⟩ := htr.sound
  rcases hw with ⟨i, rfl, rfl⟩ | ⟨hnone, rfl⟩
  · have hlt : σ.shared.latest < σ.shared.nTables := hco.layout.published_lt _ (.inl rfl)
    have hnot : ¬σ.shared.outline.InUse σ.shared.latest :=
      Outline.Over.not_inUse (.inr ⟨rfl, hc⟩) hco.layout
    exact htr.marked.cell i hh (hval.sealed _ hlt hnot i (hcells.lt _ i hh))
  · obtain ⟨w, hw⟩ := (htr.custody h hh).exists_maps hval
    obtain rfl : w = mapValEmpty := by
      by_contra hne
      obtain ⟨i, hi⟩ := (htr.custody h hh).allocated hw hne
      exact hnone i hi
    exact hw

omit [DecidableEq Tid] in
/-- The number of insertions of the value of a hash into the destination. -/
theorem Traced.once {h : HashType} {w : ValueType} (htr : Traced H tr σ) (hh : h ≠ mapHashEmpty)
    (hc : σ.shared.outline.coordinator σ.shared.latest = .ended) (hj : σ.shared.outline.Open j)
    (hm : Maps σ.shared σ.calls h w) :
    tr.countP (Inserts (σ.shared.jobs j).dest h) = if w = mapValEmpty then 0 else 1 := by
  obtain ⟨hco, hcells, hval⟩ := htr.sound
  split_ifs with hw
  · refine htr.inserted.none j hj h hh fun ⟨i, hi, hv⟩ => ?_
    have hheld : Held σ.shared σ.calls h (.cell (σ.shared.jobs j).dest i) _ := ⟨hi, rfl, hv⟩
    exact ((hm _).1 ⟨_, hheld⟩).2 hw
  · obtain ⟨p, hp⟩ := (hm w).2 ⟨rfl, hw⟩
    obtain ⟨i, rfl⟩ := hval.held_dest hcells hco hh hc hj hp
    exact htr.inserted.once j hj h hh ⟨i, hp.1, hp.2.1 ▸ hp.2.2⟩

/-- A table that is over stays without values. -/
theorem Sound.sealed_of_over {q : HashType → Prop} {T : TableId} (hs : Sound H σ)
    (hT : σ.shared.outline.Over T) (hlt : T < σ.shared.nTables)
    (hr : (provider Tid H signalSafeReaders).Run (Orderly H q) σ tr σ') :
    ∀ i < (σ'.shared.tables T).size, (σ'.shared.tables T).value i = mapValMove := by
  obtain ⟨hs', hT', hlt'⟩ := hr.invariant
    (I := fun σ => Sound H σ ∧ σ.shared.outline.Over T ∧ T < σ.shared.nTables)
    (fun a l b ⟨ha, hover, hlt⟩ ho hn => by
      refine ⟨ha.next ho.1 hn, ?_⟩
      cases State.transition_of_next H signalSafeReaders hn with
      | call | ret => exact ⟨hover, hlt⟩
      | step t c c' S' hc hstep =>
        exact ⟨hover.step (ha.coordination.advance hc (ho.1 c hc) hstep),
          hlt.trans_le (Call.step_nTables hstep)⟩)
    ⟨hs, hT, hlt⟩
  exact hs'.values.sealed T hlt' (hT'.not_inUse hs'.coordination.layout)

/-- What holds when `finishMigration` is called for a migration of `root`. -/
structure PublishedComplete (H : Hasher Key) (signalSafeReaders : Bool)
    (ok : State Tid Key → Label Tid Key → Prop) (tr : List (State Tid Key × Label Tid Key)) (σ : State Tid Key) (root : TableId) (j : JobId) :
    Prop where
  source : (σ.shared.jobs j).table 0 = some root
  moved : ∀ s T, (σ.shared.jobs j).table s = some T →
    ∀ i < (σ.shared.tables T).size, (σ.shared.tables T).value i = mapValMove
  maps : ∀ h w, h ≠ mapHashEmpty → HeldBefore tr σ root h w →
    (σ.shared.tables (σ.shared.jobs j).dest).MapsTo h w
  once : ∀ h w, h ≠ mapHashEmpty → HeldBefore tr σ root h w →
    tr.countP (Inserts (σ.shared.jobs j).dest h) = if w = mapValEmpty then 0 else 1
  /-- From then on, nobody stores a value in the table. -/
  sealed : ∀ {tr' : List (State Tid Key × Label Tid Key)} {σ' : State Tid Key},
    (provider Tid H signalSafeReaders).Run ok σ tr' σ' →
    ∀ i < (σ'.shared.tables root).size, (σ'.shared.tables root).value i = mapValMove

/-- In every run in which no step comes too late to a migration and none allocates a second
    cell to a hash: when the last thread to leave a migration calls `finishMigration`, the
    destination is complete. -/
theorem published_complete {n : BitVec 64}
    (hr : (provider Tid H signalSafeReaders).Run (Orderly H fun _ => True) (.new n) tr σ)
    (hc : σ.calls t = some c) (hpc : c.pc = .complete root j .finishLoad) :
    PublishedComplete H signalSafeReaders (Orderly H fun _ => True) tr σ root j := by
  have htr : Traced H tr σ := hr.traceInvariant (fun _ _ _ _ h ho hn => h.next ho hn) (.initial n)
  obtain ⟨hco, hcells, hval⟩ := htr.sound
  have hok := hco.ok t c.pc (pcsOf_eq hc rfl)
  rw [hpc] at hok
  obtain ⟨-, -, hended, rfl, hopen⟩ := hok
  have hsources := hco.layout.sources j hopen
  constructor
  · exact hsources.root
  · intro s T hs
    have hlt : T < σ.shared.nTables := hco.layout.source_lt j hopen.lt s T hs
    refine hval.sealed T hlt fun hu => ?_
    rw [hu.eq_dest hended hopen] at hs
    exact hsources.dest_ne s hs
  · exact fun h w hh hw => (htr.custody h hh).mapsTo_dest hval hcells hco hh hended hopen
      (htr.maps hh hended hw)
  · exact fun h w hh hw => htr.once hh hended hopen (htr.maps hh hended hw)
  · exact htr.sound.sealed_of_over (.inr ⟨rfl, hended⟩) (hco.layout.published_lt _ (.inl rfl))

omit [Fintype Tid] in
/-- A cell that holds a value, or is marked, until it is marked. -/
theorem lastHeld_of_run {T : TableId} {i : ℕ} {v : ValueType}
    {ok : State Tid Key → Label Tid Key → Prop} (tr₀ : List (State Tid Key × Label Tid Key))
    (hr : (provider Tid H signalSafeReaders).Run ok σ tr σ')
    (hok : ∀ a l, ok a l → (a.shared.tables T).value i = v ∨
      (a.shared.tables T).value i = mapValMove)
    (hv : v ≠ mapValMove) (hσ : (σ.shared.tables T).value i = v)
    (hσ' : (σ'.shared.tables T).value i = mapValMove) : lastHeld T i (tr₀ ++ tr) = v := by
  refine (hr.traceInvariant (I := fun tr a => (a.shared.tables T).value i = v ∨
    lastHeld T i (tr₀ ++ tr) = v) (fun tr a l b hI hl _ => .inr ?_) (.inl hσ)).resolve_left
      fun he => hv (he.symm.trans hσ')
  rw [← List.append_assoc, lastHeld_snoc]
  split_ifs with hm
  · exact hI.resolve_left fun he => hv (he.symm.trans hm)
  · exact (hok a l hl).resolve_right hm

end Runs

section Examples

/-- Ten keys, and the first migration that the eleventh one starts. -/
theorem published_complete_chain : ∃ (σ : State (Fin 11) (Fin 11))
    (tr : List (State (Fin 11) (Fin 11) × Label (Fin 11) (Fin 11))),
    (∃ c, σ.calls 10 = some c ∧ c.pc = .complete 0 0 .finishLoad) ∧
      PublishedComplete chainHasher false (Orderly chainHasher fun _ => True) tr σ 0 0 := by
  have hrun : ((State.new 0).exec chainHasher false (Orderly chainHasher fun _ => True)
      (fillReturns ++ callParts 10 (.put 10 oneValue) 24 ++ [[.step 10]])).any (fun σ =>
        decide (∃ c ∈ σ.calls 10, c.pc = .complete 0 0 .finishLoad)) = true := by decide +kernel
  obtain ⟨tr, σ, hr, hp⟩ := exists_run_of_parts hrun
  obtain ⟨c, hc, hpc⟩ := of_decide_eq_true hp
  exact ⟨σ, tr, ⟨c, hc, hpc⟩, published_complete hr hc hpc⟩

/-- Two cells of a table have the hash of the first key. The value of the one that readers find
    is not in the table that is published. -/
theorem exists_published_incomplete :
    ¬∀ (n : BitVec 64) (tr : List (State (Fin 11) (Fin 11) × Label (Fin 11) (Fin 11)))
      (σ : State (Fin 11) (Fin 11)) (t : Fin 11) (c : Call (Fin 11)) (root : TableId) (j : JobId),
      (provider (Fin 11) chainHasher false).Run System.anyStep (.new n) tr σ →
        σ.calls t = some c → c.pc = .complete root j .finishLoad →
        PublishedComplete chainHasher false System.anyStep tr σ root j := by
  intro hall
  have hrun : (((State.new 0).exec chainHasher false System.anyStep fillTwice).any fun σ₀ =>
        decide ((σ₀.shared.tables 0).value 0 = oneValue.ptr) &&
        (σ₀.exec chainHasher false (fun σ _ => (σ.shared.tables 0).value 0 = oneValue.ptr ∨
            (σ.shared.tables 0).value 0 = mapValMove)
          (callParts 10 (.put 10 oneValue) 15 ++ [List.replicate 4 (.step 10)])).any fun σ =>
            decide ((∃ c ∈ σ.calls 10, c.pc = .complete 0 0 .finishLoad) ∧
              (σ.shared.tables 0).hash 0 = chainHasher.hash 0 ∧
              (σ.shared.tables 0).value 0 = mapValMove ∧
              (σ.shared.tables (σ.shared.jobs 0).dest).hash 0 = chainHasher.hash 0 ∧
              (σ.shared.tables (σ.shared.jobs 0).dest).value 0 = twoValue.ptr)) = true := by
    decide +kernel
  obtain ⟨tr₀, σ₀, h₀, hp₀⟩ := exists_run_of_parts hrun
  obtain ⟨hv, hrun⟩ := Bool.and_eq_true_iff.1 hp₀
  obtain ⟨tr, σ, h, hp⟩ := exists_run_of_parts hrun
  obtain ⟨⟨c, hc, hpc⟩, hhash, hmove, hdest, hvalue⟩ := of_decide_eq_true hp
  have hlast : lastHeld 0 0 (tr₀ ++ tr) = oneValue.ptr :=
    lastHeld_of_run tr₀ h (fun _ _ h => h) oneValue.ne_move (of_decide_eq_true hv) hmove
  have hcomplete := hall 0 (tr₀ ++ tr) σ 10 c 0 0 (h₀.trans (h.mono fun _ _ _ => trivial)) hc hpc
  have hmaps := hcomplete.maps (chainHasher.hash 0) oneValue.ptr (by decide)
    (.inl ⟨0, hhash, hlast⟩)
  exact absurd (hmaps.eq twoValue.ptr (lookup_first hdest hvalue)) (by decide)

end Examples

end FkProf.ConcurrentMap
