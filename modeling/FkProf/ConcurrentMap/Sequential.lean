import FkProf.ConcurrentMap.Chain
import FkProf.ConcurrentMap.Strict

/-!
# Calls one after another

A call of `insertOrUpdate` that runs alone, from its first access to its return, and
the tables that such calls make of an empty one. A call gives up after nine cells of
the chain, line 284, and an insertion adds the tenth: so there are keys in a table
that a later call does not find, although `find` does.

* `insertOrUpdate`: the whole call, with its accesses counted;
* `Hops`: how far `find` walks to the cell of a hash;
* `update_iff`: a key is updated in its place exactly when it is at most eight hops
  from its home;
* `exists_refused`: a table in which one is farther.
-/

namespace FkProf.ConcurrentMap

variable {Tid : Type*}

/-- The rest of a call, of so many accesses at most. -/
def insertRun (h : HashType) (v : ValueType) :
    ℕ → HashTable Tid → InsertPc → Option (HashTable Tid × InsertOutcome)
  | 0, _, _ => none
  | fuel + 1, T, pc =>
    match insertOrUpdateStep T h v pc with
    | (T', .goto pc') => insertRun h v fuel T' pc'
    | (T', .done outcome) => some (T', outcome)

/-- A call that runs alone. -/
def insertOrUpdate (T : HashTable Tid) (tHash : HashType) (value : ValueType) (fuel : ℕ) :
    Option (HashTable Tid × InsertOutcome) :=
  insertRun tHash value fuel T (.start T tHash)

/-- The tables that calls make of an empty one, one after another, with no migration. -/
inductive Built : HashTable Tid → Prop
  | new (n : BitVec 64) : Built (.new n)
  | call {T T' : HashTable Tid} {tHash : HashType} {value : ValueType} {fuel : ℕ}
      {outcome : InsertOutcome} : Built T → value ≠ mapValMove →
      insertOrUpdate T tHash value fuel = some (T', outcome) → Built T'

/-- The cell is so many hops behind the home of the hash, and no cell before it has the
    hash. -/
inductive Hops (T : HashTable Tid) (h : HashType) : ℕ → ℕ → Prop
  | home : Hops T h 0 (T.home h)
  | step {n a b : ℕ} : Hops T h n a → Link T a b → T.hash a ≠ mapHashEmpty → T.hash a ≠ h →
      Hops T h (n + 1) b

section Run

variable {T T' : HashTable Tid} {h : HashType} {v : ValueType} {pc pc' : InsertPc}
  {outcome : InsertOutcome} {n m c fuel fuel' : ℕ} {x y : HashTable Tid × InsertOutcome}

theorem insertRun_goto (hs : insertOrUpdateStep T h v pc = (T', .goto pc')) :
    insertRun h v (fuel + 1) T pc = insertRun h v fuel T' pc' := by
  rw [insertRun, hs]

theorem insertRun_done (hs : insertOrUpdateStep T h v pc = (T', .done outcome)) :
    insertRun h v (fuel + 1) T pc = some (T', outcome) := by
  rw [insertRun, hs]

theorem insertRun_add (hx : insertRun h v fuel T pc = some x) :
    insertRun h v (fuel + m) T pc = some x := by
  induction fuel generalizing T pc with
  | zero => cases hx
  | succ fuel ih =>
    rw [Nat.add_right_comm]
    rcases hs : insertOrUpdateStep T h v pc with ⟨T', pc' | outcome⟩
    · rw [insertRun_goto hs] at hx ⊢
      exact ih hx
    · rw [insertRun_done hs] at hx ⊢
      exact hx

/-- A call returns one result. -/
theorem insertRun_eq (hx : insertRun h v fuel T pc = some x)
    (hy : insertRun h v fuel' T pc = some y) : x = y := by
  have hx' := insertRun_add (m := fuel') hx
  have hy' := insertRun_add (m := fuel) hy
  rw [Nat.add_comm] at hy'
  exact Option.some.inj (hx'.symm.trans hy')

theorem insertRun_size (hrun : insertRun h v fuel T pc = some (T', outcome)) :
    T'.size = T.size := by
  induction fuel generalizing T pc with
  | zero => cases hrun
  | succ fuel ih =>
    have hsize := insertOrUpdateStep_size T h v pc
    rcases hs : insertOrUpdateStep T h v pc with ⟨T₁, pc' | o⟩
    · rw [insertRun_goto hs] at hrun
      rw [hs] at hsize
      exact (ih hrun).trans hsize
    · rw [insertRun_done hs] at hrun
      cases hrun
      rw [hs] at hsize
      exact hsize

/-- No call marks a value as moved. -/
theorem insertRun_value_ne_move {i : ℕ} (hT : T.value i ≠ mapValMove) (hv : v ≠ mapValMove)
    (hrun : insertRun h v fuel T pc = some (T', outcome)) : T'.value i ≠ mapValMove := by
  induction fuel generalizing T pc with
  | zero => cases hrun
  | succ fuel ih =>
    have hstep : (insertOrUpdateStep T h v pc).1.value i ≠ mapValMove := by
      rcases insertOrUpdateStep_value T h v pc with he | ⟨c, -, he, -⟩
      · rwa [he]
      · rw [he]
        by_cases hi : i = c
        · rwa [hi, Function.update_self]
        · rwa [Function.update_of_ne hi]
    rcases hs : insertOrUpdateStep T h v pc with ⟨T₁, pc' | o⟩
    · rw [insertRun_goto hs] at hrun
      rw [hs] at hstep
      exact ih hstep hrun
    · rw [insertRun_done hs] at hrun
      cases hrun
      rwa [hs] at hstep

theorem Built.value_ne_move (hT : Built T) (i : ℕ) : T.value i ≠ mapValMove := by
  induction hT with
  | new n => exact (by decide : mapValEmpty ≠ mapValMove)
  | call _ hv hrun ih => exact insertRun_value_ne_move ih hv hrun

/-! ## Walking to a cell -/

theorem Walked.exists_hops (hw : Walked T h c) : ∃ n, Hops T h n c := by
  induction hw with
  | home => exact ⟨0, .home⟩
  | step _ hl he hne ih =>
    obtain ⟨n, hn⟩ := ih
    exact ⟨n + 1, hn.step hl he hne⟩

theorem Hops.exists_of_le (hw : Hops T h n c) (hm : m ≤ n) : ∃ a, Hops T h m a := by
  induction hw with
  | home =>
    obtain rfl := Nat.le_zero.1 hm
    exact ⟨_, Hops.home⟩
  | @step n a b hw hl he hne ih =>
    rcases Nat.lt_or_ge n m with hlt | hle
    · obtain rfl : m = n + 1 := by omega
      exact ⟨b, hw.step hl he hne⟩
    · exact ih hle

theorem Hops.lt_size (hw : Hops T h n c) : c < T.size := by
  cases hw with
  | home => exact T.home_lt h
  | step _ hl => exact hl.lt

/-- A call walks the same way, as far as the ninth hop. -/
theorem Hops.insertRun_walk (hw : Hops T h n c) (hn : n ≤ kMaxJumpsAllowed + 1) :
    ∃ i d, T.index i d = c ∧ ∀ fuel,
      insertOrUpdate T h v (2 * n + fuel) = insertRun h v fuel T (.walk i n d) := by
  induction hw with
  | home => exact ⟨T.home h, 0, T.index_zero (T.home_lt h), fun fuel => by
      rw [Nat.mul_zero, Nat.zero_add]
      rfl⟩
  | @step n a b hw hl he hne ih =>
    obtain ⟨i, d, rfl, hrun⟩ := ih (by omega)
    refine ⟨T.index i d, T.delta (T.index i d), hl.2.2.symm, fun fuel => ?_⟩
    have hwalk : insertOrUpdateStep T h v (.walk i n d) = (T, .goto (.next (T.index i d) (n + 1))) := by
      rw [insertOrUpdateStep, if_neg (by omega), if_neg hne]
    have hnext : insertOrUpdateStep T h v (.next (T.index i d) (n + 1)) =
        (T, .goto (.walk (T.index i d) (n + 1) (T.delta (T.index i d)))) := by
      rw [insertOrUpdateStep, if_pos ⟨hl.1, hl.2.1⟩]
    rw [show 2 * (n + 1) + fuel = 2 * n + (fuel + 1 + 1) by omega, hrun, insertRun_goto hwalk,
      insertRun_goto hnext]

/-- A key in reach is updated in its cell. -/
theorem Hops.update (hw : Hops T h n c) (hc : T.hash c = h) (hm : T.value c ≠ mapValMove)
    (hn : n ≤ kMaxJumpsAllowed) :
    insertOrUpdate T h v (2 * n + 3) = some (T.setValue c v, .ok (T.value c)) := by
  obtain ⟨i, d, rfl, hrun⟩ := hw.insertRun_walk (v := v) (by omega)
  have hwalk : insertOrUpdateStep T h v (.walk i n d) = (T, .goto (.updateLoad (T.index i d))) := by
    rw [insertOrUpdateStep, if_neg (by omega), if_pos hc]
  have hload : insertOrUpdateStep T h v (.updateLoad (T.index i d)) =
      (T, .goto (.updateCas (T.index i d) (T.value (T.index i d)))) := by
    rw [insertOrUpdateStep, if_neg hm]
  have hcas : insertOrUpdateStep T h v (.updateCas (T.index i d) (T.value (T.index i d))) =
      (T.setValue (T.index i d) v, .done (.ok (T.value (T.index i d)))) := by
    rw [insertOrUpdateStep, if_pos rfl]
  rw [hrun, insertRun_goto hwalk, insertRun_goto hload, insertRun_done hcas]

/-- A key out of reach is taken for one that has no room. -/
theorem Hops.overflow (hw : Hops T h n c) (hn : kMaxJumpsAllowed < n) :
    insertOrUpdate T h v (2 * (kMaxJumpsAllowed + 1) + 1) = some (T, .overflow) := by
  obtain ⟨a, ha⟩ := hw.exists_of_le (Nat.succ_le_of_lt hn)
  obtain ⟨i, d, -, hrun⟩ := ha.insertRun_walk (v := v) le_rfl
  have hwalk : insertOrUpdateStep T h v (.walk i (kMaxJumpsAllowed + 1) d) = (T, .done .overflow) := by
    rw [insertOrUpdateStep, if_pos (Nat.lt_succ_self _)]
  rw [hrun, insertRun_done hwalk]

/-- The call returns `INSERT_OK`, has put its value into the cell, and has changed nothing
    else. -/
def Updates (T : HashTable Tid) (h : HashType) (v : ValueType) (c : ℕ) : Prop :=
  ∃ fuel, insertOrUpdate T h v fuel = some (T.setValue c v, .ok (T.value c))

theorem Hops.not_updates (hw : Hops T h n c) (hn : kMaxJumpsAllowed < n) :
    ¬ Updates T h v c := by
  rintro ⟨fuel, hrun⟩
  have he := congrArg Prod.snd (insertRun_eq hrun (hw.overflow hn))
  cases he

/-- In every table that calls have made of an empty one, a call for a hash that `find`
    locates updates its cell, and nothing else, if and only if the cell is at most eight
    hops from its home. -/
theorem update_iff (hT : Built T) (hw : Hops T h n c) (hc : T.hash c = h) :
    Updates T h v c ↔ n ≤ kMaxJumpsAllowed :=
  ⟨fun hu => not_lt.1 fun hn => hw.not_updates hn hu,
    fun hn => ⟨_, hw.update hc (hT.value_ne_move c) hn⟩⟩

theorem update_iff_first : ∃ T : HashTable Unit, Built T ∧ T.hash 0 = 0 ∧
    (Updates T 0 5 0 ↔ 0 ≤ kMaxJumpsAllowed) := by
  have hrun : ((insertOrUpdate (.new 32 : HashTable Unit) 0 1 9).any fun x => x.1.hash 0 = 0) := by
    decide +kernel
  obtain ⟨⟨T, o⟩, hT, hc⟩ := (Option.any_eq_true ..).1 hrun
  have hc : T.hash 0 = 0 := of_decide_eq_true hc
  have hB : Built T := (Built.new 32).call (by decide) hT
  have hw : Hops T 0 0 (T.home 0) := .home
  have hhome : T.home 0 = 0 := Nat.zero_and _
  rw [hhome] at hw
  exact ⟨T, hB, hc, update_iff hB hw hc⟩

end Run

/-! ## A long chain -/

/-- Calls one after another, each with the value 1. -/
def insertAll (fuel : ℕ) : HashTable Tid → List HashType → Option (HashTable Tid)
  | T, [] => some T
  | T, h :: hs =>
    match insertOrUpdate T h 1 fuel with
    | some (T', _) => T'.strict fun T' => insertAll fuel T' hs
    | none => none

theorem Built.insertAll {fuel : ℕ} {T T' : HashTable Tid} {hs : List HashType} (hT : Built T)
    (he : insertAll fuel T hs = some T') : Built T' := by
  induction hs generalizing T with
  | nil => exact Option.some.inj he ▸ hT
  | cons h hs ih =>
    rw [ConcurrentMap.insertAll] at he
    split at he
    · rename_i hrun
      rw [HashTable.strict_eq] at he
      exact ih (hT.call (by decide) hrun) he
    · cases he

/-- Each hash but the first has the cell of the one before as its home. -/
def longChain : List HashType := [0, 32, 33, 34, 35, 36, 37, 38, 39, 64]

/-- The cells of a table of 32 make one chain up to the tenth, which has the hash. -/
def OneChain (T : HashTable Tid) (h : HashType) : Prop :=
  T.sizeMask = 31 ∧ T.home h = 0 ∧ T.hash 9 = h ∧
    ∀ i < 9, T.delta i = 1 ∧ T.hash i ≠ mapHashEmpty ∧ T.hash i ≠ h

instance (T : HashTable Tid) (h : HashType) : Decidable (OneChain T h) :=
  inferInstanceAs (Decidable (_ ∧ _ ∧ _ ∧ ∀ i < 9, _ ∧ _ ∧ _))

theorem OneChain.hops {T : HashTable Tid} {h : HashType} {n : ℕ} (hT : OneChain T h)
    (hn : n ≤ 9) : Hops T h n n := by
  obtain ⟨hsize, hhome, -, hlinks⟩ := hT
  induction n with
  | zero =>
    have hw : Hops T h 0 (T.home h) := .home
    rwa [hhome] at hw
  | succ n ih =>
    obtain ⟨hd, he, hne⟩ := hlinks n (by omega)
    refine (ih (by omega)).step ⟨?_, ?_, ?_⟩ he hne
    · rw [hd]; decide
    · rw [hd]; decide
    · rw [hd, HashTable.index_eq_mod, HashTable.size, hsize, Nat.mod_eq_of_lt (by omega)]

theorem longChain_run :
    (insertAll 40 (.new 32 : HashTable Unit) longChain).any fun T => OneChain T 64 := by
  decide +kernel

/-- Ten calls, all of which return `INSERT_OK`, make a table in which an eleventh, for the
    hash of the tenth, overflows. -/
theorem exists_refused : ∃ T : HashTable Unit, Built T ∧ ∃ h n c, Hops T h n c ∧ T.hash c = h ∧
    (∃ fuel, insertOrUpdate T h 2 fuel = some (T, .overflow)) ∧ ¬ Updates T h 2 c := by
  obtain ⟨T, hT, hp⟩ := (Option.any_eq_true ..).1 longChain_run
  have hone : OneChain T 64 := of_decide_eq_true hp
  have hw := hone.hops le_rfl
  exact ⟨T, (Built.new 32).insertAll hT, 64, 9, 9, hw, hone.2.2.1,
    ⟨_, hw.overflow (by decide)⟩, hw.not_updates (by decide)⟩

end FkProf.ConcurrentMap
