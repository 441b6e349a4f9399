import FkProf.ConcurrentMap.ChainLock
import FkProf.Foundations.ThreadSum

/-!
# The free buckets of a table

A call of `insertOrUpdate` takes one of the free buckets before it allocates a cell,
line 325, and gives it back when it does not. So the free buckets, the cells
allocated and the buckets taken by calls in progress make up 75% of the table. A
call that has found no bucket left holds one that does not exist, until it gives it
back: then the counter is negative.

A call for `mapHashEmpty` allocates a cell that looks free; there are none of these
(`Hashed`).

* `insertOrUpdateStep_balance`: what a step does to the three numbers;
* `buckets_exact`: they add up in every state.
-/

namespace FkProf.ConcurrentMap

variable {Tid : Type*}

/-- The cells that are allocated. -/
def HashTable.allocatedCells (T : HashTable Tid) : Finset ℕ :=
  (Finset.range T.size).filter fun i => T.hash i ≠ mapHashEmpty

/-- The buckets that the call has taken and neither used nor given back. -/
def InsertPc.reserved : InsertPc → ℕ
  | .refuse _ | .allocate .. | .refund .. => 1
  | _ => 0

/-- Those of them that there were not. -/
def InsertPc.refused : InsertPc → ℕ
  | .refuse _ => 1
  | _ => 0

/-- The buckets that a call holds after a step. -/
def InsertNext.reserved : InsertNext → ℕ
  | .goto pc => pc.reserved
  | .done _ => 0

def InsertNext.refused : InsertNext → ℕ
  | .goto pc => pc.refused
  | .done _ => 0

/-- The buckets taken by the calls in progress. -/
def TableState.reserved [Fintype Tid] (σ : TableState Tid) : ℕ :=
  ∑ t, ((σ.calls t).map fun f => f.pc.reserved).getD 0

def TableState.refused [Fintype Tid] (σ : TableState Tid) : ℕ :=
  ∑ t, ((σ.calls t).map fun f => f.pc.refused).getD 0

/-- The steps by which no thread calls for `mapHashEmpty`. -/
def Hashed (_ : TableState Tid) : TableLabel Tid → Prop
  | .call _ h _ => h ≠ mapHashEmpty
  | _ => True

instance (σ : TableState Tid) : ∀ l : TableLabel Tid, Decidable (Hashed σ l)
  | .call _ h _ => inferInstanceAs (Decidable (h ≠ mapHashEmpty))
  | .step _ | .store _ _ => .isTrue trivial

section Step

variable {T : HashTable Tid} {h : HashType} {v : ValueType} {i : ℕ}

theorem HashTable.allocatedCells_congr {T' : HashTable Tid} (hs : T'.size = T.size)
    (hh : T'.hash = T.hash) : T'.allocatedCells = T.allocatedCells := by
  rw [allocatedCells, allocatedCells, hs, hh]

theorem HashTable.new_allocatedCells (n : BitVec 64) :
    (HashTable.new n : HashTable Tid).allocatedCells = ∅ :=
  Finset.filter_eq_empty_iff.2 fun _ _ => not_not.2 rfl

/-- The constructor leaves room for 75% of the cells. -/
theorem HashTable.new_freeBuckets (n : BitVec 64) :
    (HashTable.new n : HashTable Tid).freeBuckets =
      (3 * (HashTable.new n : HashTable Tid).size / 4 : ℕ) := by
  obtain ⟨k, -, he⟩ := allocatedSize_eq n
  have hpos := Nat.two_pow_pos k
  rw [size, new, Nat.sub_add_cancel (by omega)]

/-- Allocating a cell. -/
theorem HashTable.card_allocatedCells_setHash (hi : i < T.size) (he : T.hash i = mapHashEmpty)
    (hh : h ≠ mapHashEmpty) :
    (T.setHash i h).allocatedCells.card = T.allocatedCells.card + 1 := by
  have hins : (T.setHash i h).allocatedCells = insert i T.allocatedCells := by
    ext j
    simp only [allocatedCells, Finset.mem_filter, Finset.mem_range, Finset.mem_insert,
      setHash_size, setHash_hash]
    by_cases hj : j = i
    · subst hj
      simp [hi, hh]
    · simp [hj]
  rw [hins, Finset.card_insert_of_notMem]
  simp [allocatedCells, he]

theorem searchNext_reserved (i d : ℕ) : (searchNext i d).reserved = 0 := by
  rw [searchNext]
  split_ifs <;> rfl

theorem searchNext_refused (i d : ℕ) : (searchNext i d).refused = 0 := by
  rw [searchNext]
  split_ifs <;> rfl

theorem Insert.after_reserved (f : Insert) (n : InsertNext) :
    ((f.after n).map fun g => g.pc.reserved).getD 0 = n.reserved := by
  cases n <;> rfl

theorem Insert.after_refused (f : Insert) (n : InsertNext) :
    ((f.after n).map fun g => g.pc.refused).getD 0 = n.refused := by
  cases n <;> rfl

/-- A step moves a bucket between the counter, the cells and the call. -/
theorem insertOrUpdateStep_balance (hh : h ≠ mapHashEmpty) (pc : InsertPc) :
    (insertOrUpdateStep T h v pc).1.freeBuckets +
        (insertOrUpdateStep T h v pc).1.allocatedCells.card +
        (insertOrUpdateStep T h v pc).2.reserved =
      T.freeBuckets + T.allocatedCells.card + pc.reserved := by
  cases pc <;> simp only [insertOrUpdateStep]
  case reserve j d =>
    rw [HashTable.allocatedCells_congr (T.addFree_size _) (T.addFree_hash _)]
    simp only [HashTable.addFree]
    split_ifs <;> simp only [InsertNext.reserved, InsertPc.reserved] <;> omega
  case refuse j =>
    rw [HashTable.allocatedCells_congr (T.addFree_size _) (T.addFree_hash _)]
    simp only [HashTable.addFree, InsertNext.reserved, InsertPc.reserved]
    omega
  case allocate j d =>
    split_ifs with he
    · rw [HashTable.card_allocatedCells_setHash (T.index_lt j d) he hh]
      simp only [HashTable.setHash, InsertNext.reserved, InsertPc.reserved]
      omega
    · rfl
  case refund j d b =>
    rw [HashTable.allocatedCells_congr (T.addFree_size _) (T.addFree_hash _)]
    simp only [HashTable.addFree]
    split_ifs <;> simp only [InsertNext.reserved, ↓searchNext_reserved, InsertPc.reserved] <;> omega
  case probe j d =>
    split_ifs <;> simp only [InsertNext.reserved, ↓searchNext_reserved, InsertPc.reserved]
  case link | unlock =>
    rw [HashTable.allocatedCells_congr (T.setDelta_size ..) (T.setDelta_hash ..)]
    rfl
  case lock =>
    split_ifs
    · rw [HashTable.allocatedCells_congr (T.setDelta_size ..) (T.setDelta_hash ..)]
      rfl
    · rfl
  case updateCas | setCas =>
    split_ifs
    · rw [HashTable.allocatedCells_congr (T.setValue_size ..) (T.setValue_hash ..)]
      rfl
    all_goals rfl
  all_goals
    (try split_ifs) <;> rfl

/-- A step takes a bucket that there is, or none, or counts it as refused. -/
theorem insertOrUpdateStep_refused (pc : InsertPc) :
    0 ≤ (insertOrUpdateStep T h v pc).1.freeBuckets ∨
      T.freeBuckets + pc.refused ≤ (insertOrUpdateStep T h v pc).1.freeBuckets +
        (insertOrUpdateStep T h v pc).2.refused := by
  cases pc <;> simp only [insertOrUpdateStep]
  case reserve j d =>
    simp only [HashTable.addFree]
    split_ifs <;> simp only [InsertNext.refused, InsertPc.refused] <;> omega
  case refuse j =>
    simp only [HashTable.addFree, InsertNext.refused, InsertPc.refused]
    omega
  case refund j d b =>
    right
    simp only [HashTable.addFree]
    split_ifs <;> simp only [InsertNext.refused, ↓searchNext_refused, InsertPc.refused] <;> omega
  case probe j d =>
    right
    split_ifs <;> simp only [InsertNext.refused, ↓searchNext_refused, InsertPc.refused, le_refl]
  all_goals
    right
    (try split_ifs) <;> exact le_rfl

end Step

/-! ## Runs -/

section Runs

variable [Fintype Tid] [DecidableEq Tid] {σ σ' : TableState Tid} {l : TableLabel Tid}

/-- The invariant of the free buckets. -/
structure Buckets (σ : TableState Tid) : Prop where
  hash_ne : ∀ t f, σ.calls t = some f → f.hash ≠ mapHashEmpty
  balance : σ.table.freeBuckets + σ.table.allocatedCells.card + σ.reserved =
    (3 * σ.table.size / 4 : ℕ)
  /-- The counter is negative only by what has been refused. -/
  bound : 0 ≤ σ.table.freeBuckets + σ.refused

theorem Insert.after_hash {f g : Insert} {n : InsertNext} (hg : f.after n = some g) :
    g.hash = f.hash := by
  cases n <;> cases hg
  rfl

theorem Buckets.next (h : Buckets σ) (hl : Hashed σ l)
    (hn : (tableSystem Tid).next σ l = some σ') : Buckets σ' := by
  cases l <;> simp only [tableSystem, TableState.next] at hn
  case call t hash v =>
    cases hc : σ.calls t with
    | some f => simp [hc] at hn
    | none =>
      simp only [hc, Option.some.injEq] at hn
      subst hn
      refine ⟨fun u f hf => ?_, ?_, ?_⟩
      · rcases ThreadSum.update_eq_some_iff.1 hf with ⟨-, he⟩ | ⟨-, hf⟩
        · cases he
          exact hl
        · exact h.hash_ne u f hf
      · have hsame := ThreadSum.sum_update_eq (fun o : Option Insert =>
          (o.map fun f => f.pc.reserved).getD 0) σ.calls t
          (x := some ⟨hash, v, .start σ.table hash⟩) (by rw [hc]; rfl)
        have hb := h.balance
        simp only [TableState.reserved] at hb ⊢
        rw [hsame]
        exact hb
      · have hsame := ThreadSum.sum_update_eq (fun o : Option Insert =>
          (o.map fun f => f.pc.refused).getD 0) σ.calls t
          (x := some ⟨hash, v, .start σ.table hash⟩) (by rw [hc]; rfl)
        have hb := h.bound
        simp only [TableState.refused] at hb ⊢
        rw [hsame]
        exact hb
  case step t =>
    obtain ⟨⟨hash, v, pc⟩, hf, rfl⟩ := Option.map_eq_some_iff.1 hn
    have hne := h.hash_ne t _ hf
    refine ⟨fun u g hg => ?_, ?_, ?_⟩
    · rcases ThreadSum.update_eq_some_iff.1 hg with ⟨-, he⟩ | ⟨-, hg⟩
      · rw [Insert.after_hash he]
        exact hne
      · exact h.hash_ne u g hg
    · have hstep := insertOrUpdateStep_balance (T := σ.table) (v := v) hne pc
      have hsum := ThreadSum.sum_update (fun o : Option Insert =>
        (o.map fun f => f.pc.reserved).getD 0) σ.calls t
        (Insert.after ⟨hash, v, pc⟩ (insertOrUpdateStep σ.table hash v pc).2)
      have hb := h.balance
      rw [hf] at hsum
      simp only [TableState.reserved, insertOrUpdateStep_size, Option.map_some, Option.getD_some,
        Insert.after_reserved] at hb hsum hstep ⊢
      omega
    · have hstep := insertOrUpdateStep_refused (T := σ.table) (h := hash) (v := v) pc
      have hsum := ThreadSum.sum_update (fun o : Option Insert =>
        (o.map fun f => f.pc.refused).getD 0) σ.calls t
        (Insert.after ⟨hash, v, pc⟩ (insertOrUpdateStep σ.table hash v pc).2)
      have hb := h.bound
      rw [hf] at hsum
      simp only [TableState.refused, Option.map_some, Option.getD_some,
        Insert.after_refused] at hb hsum hstep ⊢
      omega
  case store i v =>
    cases hn
    refine ⟨h.hash_ne, ?_, h.bound⟩
    have hsame : (σ.table.setValue i v).allocatedCells = σ.table.allocatedCells :=
      HashTable.allocatedCells_congr rfl (HashTable.setValue_hash ..)
    rw [hsame]
    exact h.balance

/-- In every run of calls for hashes other than `mapHashEmpty`: the free buckets, the
    allocated cells and the buckets taken by calls in progress make up 75% of the
    table, no more cells than these are ever allocated, and without calls in progress
    the free buckets are exactly the cells that are left. -/
theorem buckets_exact {n : BitVec 64} {tr : List (TableState Tid × TableLabel Tid)}
    (hr : (tableSystem Tid).Run Hashed ⟨.new n, fun _ => none⟩ tr σ) :
    σ.table.freeBuckets + σ.table.allocatedCells.card + σ.reserved = (3 * σ.table.size / 4 : ℕ) ∧
      σ.table.allocatedCells.card ≤ 3 * σ.table.size / 4 ∧
      ((∀ t, σ.calls t = none) →
        σ.table.freeBuckets = (3 * σ.table.size / 4 - σ.table.allocatedCells.card : ℕ)) := by
  have h : Buckets σ := by
    refine hr.invariant (fun _ _ _ ha hl hn => ha.next hl hn) ⟨nofun, ?_, ?_⟩
    · simp [HashTable.new_allocatedCells, HashTable.new_freeBuckets, TableState.reserved]
    · rw [HashTable.new_freeBuckets]
      omega
  have hb := h.balance
  have hbound := h.bound
  have hle : σ.refused ≤ σ.reserved := by
    refine Finset.sum_le_sum fun t _ => ?_
    cases σ.calls t with
    | none => exact le_rfl
    | some f => cases hpc : f.pc <;> simp [hpc, InsertPc.refused, InsertPc.reserved]
  refine ⟨hb, by omega, fun hnone => ?_⟩
  have hz : σ.reserved = 0 := by simp [TableState.reserved, hnone]
  have hz' : σ.refused = 0 := by simp [TableState.refused, hnone]
  omega

/-- One call has taken a bucket, and another has allocated its cell. -/
theorem buckets_exact_pair : ∃ σ : TableState (Fin 2), σ.reserved = 1 ∧
    σ.table.freeBuckets + σ.table.allocatedCells.card + 1 = (3 * σ.table.size / 4 : ℕ) := by
  have hrun : (((tableSystem (Fin 2)).exec Hashed ⟨.new 0, fun _ => none⟩
      (.call 0 0 1 :: List.replicate 5 (.step 0) ++
        .call 1 1 1 :: List.replicate 6 (.step 1))).any fun σ =>
          decide (σ.reserved = 1)) = true := by decide +kernel
  simp only [Option.any_eq_true, decide_eq_true_eq] at hrun
  obtain ⟨σ, hex, hone⟩ := hrun
  obtain ⟨tr, hr, -⟩ := System.run_of_exec hex
  have hb := (buckets_exact hr).1
  rw [hone] at hb
  exact ⟨σ, hone, hb⟩

/-- A call for `mapHashEmpty` allocates a cell and leaves it free. -/
theorem bucket_lost :
    ¬∀ (n : BitVec 64) (σ : TableState (Fin 1)) (tr : List (TableState (Fin 1) × TableLabel (Fin 1))),
      (tableSystem (Fin 1)).Run System.anyStep ⟨.new n, fun _ => none⟩ tr σ →
        σ.table.freeBuckets + σ.table.allocatedCells.card + σ.reserved =
          (3 * σ.table.size / 4 : ℕ) := by
  intro hall
  have hrun : (((tableSystem (Fin 1)).exec System.anyStep ⟨.new 0, fun _ => none⟩
      (.call 0 31 1 :: List.replicate 9 (.step 0) ++
        .call 0 mapHashEmpty 1 :: List.replicate 10 (.step 0))).any fun σ =>
          decide (σ.table.freeBuckets + σ.table.allocatedCells.card + σ.reserved ≠
            ((3 * σ.table.size / 4 : ℕ) : ℤ))) = true := by decide +kernel
  simp only [Option.any_eq_true, decide_eq_true_eq] at hrun
  obtain ⟨σ, hex, hne⟩ := hrun
  obtain ⟨tr, hr, -⟩ := System.run_of_exec hex
  exact hne (hall 0 σ tr hr)

end Runs

end FkProf.ConcurrentMap
