import FkProf.ConcurrentMap.Chain
import FkProf.Foundations.System

/-!
# The chain lock is released

Any number of threads run `insertOrUpdate` on one table, for equal or different
hashes, while the rest of the program changes the values of the cells. The lock
of a chain is `mapDeltaExtend` in its last cell. It is released by every return
but one: a search that finds the hash it is looking for, in a cell that another
call has allocated since this one walked past it, returns through line 361 or
351 without a store to `deltaNext`. `Leaks` is the step that finds it, by the load
of line 322 or by the failing compare-and-swap of line 336.

* `lock_released`: without that step, a locked cell is locked by a call in
  progress;
* `lock_leaked`: a run with that step leaves a chain locked for ever.
-/

namespace FkProf.ConcurrentMap

variable {Tid : Type*}

/-- A table, and the calls of `insertOrUpdate` on it. -/
structure TableState (Tid : Type*) where
  table : HashTable Tid
  calls : Tid → Option Insert

/-- A thread calls `insertOrUpdate`, or goes on with its call, or the rest of the
    program stores a value. -/
inductive TableLabel (Tid : Type*)
  | call (t : Tid) (tHash : HashType) (value : ValueType)
  | step (t : Tid)
  | store (i : ℕ) (value : ValueType)

/-- A search finds its own hash while it holds the lock. -/
def InsertPc.Leaks (T : HashTable Tid) (h : HashType) : InsertPc → Prop
  | .probe i d | .allocate i d =>
    T.hash (T.index i d) ≠ mapHashEmpty ∧ T.hash (T.index i d) = h
  | _ => False

instance (T : HashTable Tid) (h : HashType) (pc : InsertPc) : Decidable (pc.Leaks T h) := by
  cases pc <;> simp only [InsertPc.Leaks] <;> infer_instance

/-- The step of a call that does. -/
def Leaks (σ : TableState Tid) : TableLabel Tid → Prop
  | .step t => ∃ f ∈ σ.calls t, f.pc.Leaks σ.table f.hash
  | _ => False

/-- The other steps. -/
def Releases (σ : TableState Tid) (l : TableLabel Tid) : Prop := ¬Leaks σ l

instance (σ : TableState Tid) (l : TableLabel Tid) : Decidable (Releases σ l) := by
  cases l <;> simp only [Releases, Leaks] <;> infer_instance

section Steps

variable [DecidableEq Tid]

/-- The next state. -/
def TableState.next (σ : TableState Tid) : TableLabel Tid → Option (TableState Tid)
  | .call t h v =>
    match σ.calls t with
    | none => some { σ with calls := Function.update σ.calls t (some ⟨h, v, .start σ.table h⟩) }
    | some _ => none
  | .step t =>
    (σ.calls t).map fun f =>
      let (T, n) := insertOrUpdateStep σ.table f.hash f.value f.pc
      ⟨T, Function.update σ.calls t (f.after n)⟩
  | .store i v => some { σ with table := σ.table.setValue i v }

variable (Tid) in
/-- A table and its calls as a transition system; it begins empty, of any size. -/
def tableSystem : System (TableState Tid) (TableLabel Tid) where
  init := {σ | ∃ n, σ = ⟨.new n, fun _ => none⟩}
  next := TableState.next

end Steps

/-! ## The lock and its holder -/

/-- A call looks in the neighbourhood, and for a cell that is not of its hash. -/
def Insert.Searches (f : Insert) : Prop :=
  match f.pc with
  | .probe _ d | .reserve _ d | .allocate _ d | .link _ d => d < kNeighbourhood
  | .refund _ d bucketHash => d < kNeighbourhood ∧ bucketHash ≠ f.hash
  | _ => True

/-- A locked cell is locked by a call in progress. -/
structure LockInv (σ : TableState Tid) : Prop where
  searches : ∀ t f, σ.calls t = some f → f.Searches
  holder : ∀ i, σ.table.delta i = mapDeltaExtend →
    ∃ t f, σ.calls t = some f ∧ f.pc.locked? = some i

section Step

variable {T : HashTable Tid} {h : HashType} {v : ValueType} {pc pc' : InsertPc} {i : ℕ}

theorem searchNext_locked (i d : ℕ) : (searchNext i d).locked? = some i := by
  rw [searchNext]
  split_ifs <;> rfl

theorem searchNext_searches {i d : ℕ} : Insert.Searches ⟨h, v, searchNext i d⟩ := by
  rw [searchNext]
  split_ifs with hlt
  · exact hlt
  · trivial

/-- After a step that leaks nothing, a call goes on searching. -/
theorem Insert.Searches.step (hf : Insert.Searches ⟨h, v, pc⟩) (hl : ¬pc.Leaks T h)
    (hs : (insertOrUpdateStep T h v pc).2 = .goto pc') : Insert.Searches ⟨h, v, pc'⟩ := by
  cases pc <;> simp only [insertOrUpdateStep, Insert.Searches, InsertPc.Leaks, not_and] at hs hf hl
  case probe i d =>
    split_ifs at hs <;> cases hs
    · exact hf
    · trivial
    · exact searchNext_searches
  case lock i jumps =>
    split_ifs at hs <;> cases hs
    · exact Nat.succ_pos _
    · trivial
  case reserve i d =>
    cases hs
    split_ifs
    · trivial
    · exact hf
  case allocate i d =>
    split_ifs at hs with he <;> cases hs
    · exact hf
    · exact ⟨hf, hl he⟩
  case refund i d b =>
    cases hs
    split_ifs
    · trivial
    · exact searchNext_searches
  all_goals
    (try split_ifs at hs) <;> cases hs <;> trivial

/-- After a step that leaks nothing, the locks are those that the call holds and
    those of the others. -/
theorem insertOrUpdateStep_locks (hf : Insert.Searches ⟨h, v, pc⟩) (hl : ¬pc.Leaks T h)
    (hi : (insertOrUpdateStep T h v pc).1.delta i = mapDeltaExtend) :
    (∃ pc', (insertOrUpdateStep T h v pc).2 = .goto pc' ∧ pc'.locked? = some i) ∨
      T.delta i = mapDeltaExtend ∧ pc.locked? ≠ some i := by
  have hextend : mapDeltaEmpty ≠ mapDeltaExtend := by decide
  -- The call keeps its lock.
  have hkeep : ∀ (T' : HashTable Tid) (j : ℕ) (pc' : InsertPc), T'.delta = T.delta →
      pc'.locked? = some j → T'.delta i = mapDeltaExtend →
      (∃ pc₁, InsertNext.goto pc' = .goto pc₁ ∧ pc₁.locked? = some i) ∨
        T.delta i = mapDeltaExtend ∧ some j ≠ some i := fun T' j pc' hd hj he => by
    by_cases hji : j = i
    · exact .inl ⟨pc', rfl, hji ▸ hj⟩
    · exact .inr ⟨hd ▸ he, by simpa using hji⟩
  -- It releases it.
  have hrelease : ∀ (j : ℕ) (d : DeltaType), d ≠ mapDeltaExtend →
      (T.setDelta j d).delta i = mapDeltaExtend →
      T.delta i = mapDeltaExtend ∧ some j ≠ some i := fun j d hd he => by
    rw [HashTable.setDelta_delta] at he
    by_cases hji : i = j
    · subst hji
      rw [Function.update_self] at he
      exact absurd he hd
    · rw [Function.update_of_ne hji] at he
      exact ⟨he, by simpa using Ne.symm hji⟩
  cases pc <;> simp only [insertOrUpdateStep, Insert.Searches, InsertPc.Leaks, not_and,
    InsertPc.locked?] at hi hf hl ⊢
  case lock j jumps =>
    split_ifs at hi ⊢ with hd
    · rw [HashTable.setDelta_delta] at hi
      by_cases hji : i = j
      · exact .inl ⟨_, rfl, by rw [hji]⟩
      · rw [Function.update_of_ne hji] at hi
        exact .inr ⟨hi, by simp⟩
    · exact .inr ⟨hi, by simp⟩
  case probe j d =>
    split_ifs at hi ⊢ with he ht
    · exact hkeep T j _ rfl rfl hi
    · exact absurd ht (hl he)
    · exact hkeep T j _ rfl (searchNext_locked j d) hi
  case reserve j d => exact hkeep _ j _ rfl (by split_ifs <;> rfl) hi
  case refuse j => exact hkeep _ j _ rfl rfl hi
  case allocate j d =>
    split_ifs at hi ⊢ with he
    · exact hkeep _ j _ (HashTable.setHash_delta ..) rfl hi
    · exact hkeep T j _ rfl rfl hi
  case link j d =>
    refine .inr (hrelease j _ ?_ hi)
    split_ifs
    · exact neighbourhood_ne_extend hf
    · exact hextend
  case refund j d b =>
    rw [if_neg hf.2]
    exact hkeep _ j _ rfl (searchNext_locked j d) hi
  case unlock j => exact .inr (hrelease j _ hextend hi)
  case updateCas | setCas =>
    split_ifs at hi ⊢ <;> exact .inr ⟨by simpa using hi, by simp⟩
  all_goals
    (try split_ifs at hi ⊢) <;> exact .inr ⟨hi, by simp⟩

end Step

/-! ## Runs -/

variable [DecidableEq Tid] {σ σ' : TableState Tid}

/-- A step that leaks no lock leaves no cell locked without a holder. -/
theorem LockInv.next (h : LockInv σ) {l : TableLabel Tid} (hl : Releases σ l)
    (hn : (tableSystem Tid).next σ l = some σ') : LockInv σ' := by
  cases l <;> simp only [tableSystem, TableState.next] at hn
  case call t hash v =>
    cases hc : σ.calls t with
    | some f => simp [hc] at hn
    | none =>
      simp only [hc, Option.some.injEq] at hn
      subst hn
      refine ⟨fun u f hf => ?_, fun i hi => ?_⟩
      · dsimp only at hf
        by_cases hu : u = t
        · subst hu
          rw [Function.update_self] at hf
          cases hf
          trivial
        · rw [Function.update_of_ne hu] at hf
          exact h.searches u f hf
      · obtain ⟨u, f, hf, hlk⟩ := h.holder i hi
        refine ⟨u, f, ?_, hlk⟩
        dsimp only
        rw [Function.update_of_ne, hf]
        rintro rfl
        rw [hc] at hf
        cases hf
  case step t =>
    obtain ⟨⟨hash, v, pc⟩, hf, rfl⟩ := Option.map_eq_some_iff.1 hn
    have hs := h.searches t _ hf
    have hleak : ¬pc.Leaks σ.table hash := fun hp => hl ⟨_, hf, hp⟩
    have hafter : ∀ g, Insert.after ⟨hash, v, pc⟩ (insertOrUpdateStep σ.table hash v pc).2 =
        some g → g.Searches := fun g hg => by
      cases hn : (insertOrUpdateStep σ.table hash v pc).2 <;>
        simp only [hn, Insert.after, Option.some.injEq, reduceCtorEq] at hg
      subst hg
      exact hs.step hleak hn
    refine ⟨fun u g hg => ?_, fun i hi => ?_⟩
    · by_cases hu : u = t
      · subst hu
        simp only [Function.update_self] at hg
        exact hafter g hg
      · simp only [Function.update_of_ne hu] at hg
        exact h.searches u g hg
    · rcases insertOrUpdateStep_locks hs hleak hi with ⟨pc', hgo, hlk⟩ | ⟨hd, hne⟩
      · exact ⟨t, ⟨hash, v, pc'⟩, by simp only [Function.update_self, hgo, Insert.after], hlk⟩
      · obtain ⟨u, g, hg, hlk⟩ := h.holder i hd
        refine ⟨u, g, ?_, hlk⟩
        dsimp only
        rw [Function.update_of_ne, hg]
        rintro rfl
        rw [hf] at hg
        cases hg
        exact hne hlk
  case store i v =>
    cases hn
    exact ⟨h.searches, fun j hj => h.holder j (by simpa using hj)⟩

/-- In every run in which no search finds its own hash while it holds the lock:
    when no call is in progress no chain is locked, and a call that waits for a
    chain waits for another call, which holds its lock. -/
theorem lock_released {n : BitVec 64} {tr : List (TableState Tid × TableLabel Tid)}
    (hr : (tableSystem Tid).Run Releases ⟨.new n, fun _ => none⟩ tr σ) :
    ((∀ t, σ.calls t = none) → ∀ i, σ.table.delta i ≠ mapDeltaExtend) ∧
      ∀ t f i jumps, σ.calls t = some f → f.pc = .wait i jumps →
        σ.table.delta i = mapDeltaExtend →
          ∃ u g, u ≠ t ∧ σ.calls u = some g ∧ g.pc.locked? = some i := by
  have h : LockInv σ := by
    refine hr.invariant (fun _ _ _ ha hl hn => ha.next hl hn) ⟨by simp, fun i hi => ?_⟩
    exact absurd hi (by decide : mapDeltaEmpty ≠ mapDeltaExtend)
  refine ⟨fun hnone i hi => ?_, fun t f i jumps hf hpc hi => ?_⟩
  · obtain ⟨t, f, hf, -⟩ := h.holder i hi
    rw [hnone t] at hf
    cases hf
  · obtain ⟨u, g, hg, hlk⟩ := h.holder i hi
    refine ⟨u, g, ?_, hg, hlk⟩
    rintro rfl
    rw [hf] at hg
    cases hg
    simp [hpc] at hlk

/-- A whole call that allocates the first cell of a chain. -/
theorem lock_released_single :
    ∃ σ : TableState (Fin 1), σ.table.hash 0 = 0 ∧ ∀ i, σ.table.delta i ≠ mapDeltaExtend := by
  have hrun : (((tableSystem (Fin 1)).exec Releases ⟨.new 0, fun _ => none⟩
      (.call 0 0 1 :: List.replicate 9 (.step 0))).any fun σ =>
        decide ((∀ t, (σ.calls t).isNone) ∧ σ.table.hash 0 = 0)) = true := by decide
  simp only [Option.any_eq_true, decide_eq_true_eq, Option.isNone_iff_eq_none] at hrun
  obtain ⟨σ, hex, hnone, hh⟩ := hrun
  obtain ⟨tr, hr, -⟩ := System.run_of_exec hex
  exact ⟨σ, hh, (lock_released hr).1 hnone⟩

/-- Two calls for one hash find its chain empty. The second one to lock it finds
    the cell of the first, and returns without unlocking. -/
theorem lock_leaked :
    ¬∀ (n : BitVec 64) (σ : TableState (Fin 2)) (tr : List (TableState (Fin 2) × TableLabel (Fin 2))),
      (tableSystem (Fin 2)).Run System.anyStep ⟨.new n, fun _ => none⟩ tr σ →
      (∀ t, σ.calls t = none) → ∀ i, σ.table.delta i ≠ mapDeltaExtend := by
  intro hall
  have hrun : (((tableSystem (Fin 2)).exec System.anyStep ⟨.new 0, fun _ => none⟩
      ([.call 0 0 1, .step 0] ++ .call 1 0 2 :: List.replicate 9 (.step 1) ++
        List.replicate 5 (.step 0))).any fun σ =>
        decide ((∀ t, (σ.calls t).isNone) ∧ σ.table.delta 0 = mapDeltaExtend)) = true := by decide
  simp only [Option.any_eq_true, decide_eq_true_eq, Option.isNone_iff_eq_none] at hrun
  obtain ⟨σ, hex, hnone, hd⟩ := hrun
  obtain ⟨tr, hr, -⟩ := System.run_of_exec hex
  exact hall 0 σ tr hr hnone 0 hd

end FkProf.ConcurrentMap
