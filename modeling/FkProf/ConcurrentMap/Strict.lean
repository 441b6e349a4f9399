import FkProf.ConcurrentMap.Provider

/-!
# Evaluating long runs

The tables of a state are functions that each step updates, so the evaluation of a
long schedule keeps comparing the indices of all the updates before. It is made in
parts (`System.execParts`), between which the cells of the tables are read out into
lists of numerals.

* `strictNat`: a number is evaluated before it is passed on;
* `State.strict`: the same for the cells of all tables;
* `exists_run_of_parts`: an evaluation in parts gives a run.
-/

namespace FkProf.ConcurrentMap

variable {Tid Key : Type*} {α : Type*}

/-- Evaluates a number before passing it on. -/
def strictNat (n : ℕ) (k : ℕ → α) : α :=
  match n with
  | 0 => k 0
  | m + 1 => k (m + 1)

@[simp] theorem strictNat_eq (n : ℕ) (k : ℕ → α) : strictNat n k = k n := by
  cases n <;> rfl

/-- Evaluates a cell before passing it on. -/
def LockFreeMapEntry.strict (e : LockFreeMapEntry) (k : LockFreeMapEntry → α) : α :=
  strictNat e.hash.toNat fun h => strictNat e.value.toNat fun v => strictNat e.deltaNext fun d =>
    k ⟨BitVec.ofNat 64 h, BitVec.ofNat 64 v, d⟩

@[simp] theorem LockFreeMapEntry.strict_eq (e : LockFreeMapEntry) (k : LockFreeMapEntry → α) :
    e.strict k = k e := by
  simp [strict]

/-- Reads the first values of a function out into a list, before those already read. -/
def strictList {β : Type*} (strict : β → (β → α) → α) (f : ℕ → β) :
    ℕ → List β → (List β → α) → α
  | 0, l, k => k l
  | n + 1, l, k => strict (f n) fun b => strictList strict f n (b :: l) k

theorem strictList_eq {β : Type*} {strict : β → (β → α) → α} (hst : ∀ b k, strict b k = k b)
    (f : ℕ → β) (n : ℕ) (l : List β) (k : List β → α) :
    strictList strict f n l k = k ((List.range n).map f ++ l) := by
  induction n generalizing l with
  | zero => rfl
  | succ n ih =>
    rw [strictList, hst, ih, List.range_succ, List.map_append, List.append_assoc]
    rfl

/-- A function is not changed where it is read from the list of its values. -/
theorem getD_range_map {β : Type*} (f : ℕ → β) (n : ℕ) :
    (fun i => ((List.range n).map f ++ []).getD i (f i)) = f := by
  funext i
  rw [List.append_nil, List.getD_eq_getElem?_getD]
  by_cases hi : i < n
  · simp [hi]
  · simp [not_lt.1 hi]

def HashTable.strict (T : HashTable Tid) (k : HashTable Tid → α) : α :=
  strictList LockFreeMapEntry.strict T.array T.size [] fun l =>
    k { T with array := fun i => l.getD i (T.array i) }

theorem HashTable.strict_eq (T : HashTable Tid) (k : HashTable Tid → α) : T.strict k = k T := by
  rw [strict, strictList_eq fun _ _ => LockFreeMapEntry.strict_eq .., getD_range_map]

/-- Evaluates the cells of all tables. -/
def State.strict (σ : State Tid Key) (k : State Tid Key → α) : α :=
  strictList HashTable.strict σ.shared.tables σ.shared.nTables [] fun l =>
    k { σ with shared := { σ.shared with tables := fun T => l.getD T (σ.shared.tables T) } }

theorem State.strict_eq (σ : State Tid Key) (k : State Tid Key → α) : σ.strict k = k σ := by
  rw [strict, strictList_eq fun _ _ => HashTable.strict_eq .., getD_range_map]

section Runs

variable [DecidableEq Tid] {H : Hasher Key} {signalSafeReaders : Bool}
  {ok : State Tid Key → Label Tid Key → Prop} [∀ σ l, Decidable (ok σ l)]

variable (H signalSafeReaders ok) in
/-- The execution of a schedule in parts, after each of which the cells are evaluated. -/
def State.exec (σ : State Tid Key) (lss : List (List (Label Tid Key))) : Option (State Tid Key) :=
  (provider Tid H signalSafeReaders).execParts ok State.strict σ lss

theorem exists_run_of_parts {σ : State Tid Key} {lss : List (List (Label Tid Key))}
    {p : State Tid Key → Bool} (h : (σ.exec H signalSafeReaders ok lss).any p = true) :
    ∃ tr σ', (provider Tid H signalSafeReaders).Run ok σ tr σ' ∧ p σ' = true :=
  System.exists_run_of_execParts State.strict_eq h

/-- A call and so many steps of its thread. -/
def callSteps (t : Tid) (op : Op Key) (steps : ℕ) : List (Label Tid Key) :=
  .call t op :: List.replicate steps (.step t)

/-- A long call, in parts of ten steps. -/
def callParts (t : Tid) (op : Op Key) (parts : ℕ) : List (List (Label Tid Key)) :=
  [.call t op] :: List.replicate parts (List.replicate 10 (.step t))

end Runs

end FkProf.ConcurrentMap
