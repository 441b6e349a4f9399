import FkProf.ConcurrentMap.Alone

/-!
# How the tables grow

A table has `2 ^ a` cells, with `a` from 5 to 30. A migration after the first one of a put,
and one that is restarted, asks for twice the cells of the table before: one more in the
exponent, but from `2 ^ 30` cells on the size wraps around, and the next table is one of
`kSizeMin` again. So the sizes go round, and come to every power of two.

* `allocatedSize_double`: the size of the next table;
* `away`: how many tables it takes to come to a certain size;
* `Creates`: where tables are created;
* `Outline.Grown`: the last table is the destination of the migration under way, or else the
  current table, in every run without overlapping calls.
-/

namespace FkProf.ConcurrentMap

variable {Tid Key : Type*}

/-- The exponents of the sizes of tables. -/
def IsExponent (a : ℕ) : Prop := 5 ≤ a ∧ a ≤ 30

/-- The exponent after `a` when the size is doubled, in 32-bit integers. -/
def nextExponent (a : ℕ) : ℕ := if a = 30 then 5 else a + 1

theorem allocatedSize_lt (n : BitVec 64) : allocatedSize n < 2 ^ 31 := by
  have hlt := (nearestPow2 (n.setWidth 32)).toInt_lt
  rw [allocatedSize, kSizeMin]
  omega

/-- The number of cells is one of 26 powers of two. -/
theorem allocatedSize_eq_two_pow (n : BitVec 64) : ∃ a, IsExponent a ∧ allocatedSize n = 2 ^ a := by
  obtain ⟨a, ha, he⟩ := allocatedSize_eq n
  have hlt : 2 ^ a < 2 ^ 31 := he ▸ allocatedSize_lt n
  exact ⟨a, ⟨ha, Nat.le_of_lt_succ ((Nat.pow_lt_pow_iff_right (by decide)).1 hlt)⟩, he⟩

/-- Twice the number of cells, lines 459 and 552. -/
theorem allocatedSize_double {a : ℕ} (ha : IsExponent a) :
    allocatedSize (BitVec.ofNat 64 (2 ^ a <<< 1)) = 2 ^ nextExponent a := by
  have hall : ∀ a < 31, 5 ≤ a →
      allocatedSize (BitVec.ofNat 64 (2 ^ a <<< 1)) = 2 ^ nextExponent a := by decide +kernel
  exact hall a (Nat.lt_succ_of_le ha.2) ha.1

/-- How often the size is doubled, from `size` on, before it is `2 ^ m`. -/
def away (m size : ℕ) : ℕ := (m + 26 - Nat.log2 size) % 26

theorem away_two_pow (m a : ℕ) : away m (2 ^ a) = (m + 26 - a) % 26 := by
  rw [away, Nat.log2_two_pow]

theorem away_lt (m size : ℕ) : away m size < 26 := Nat.mod_lt _ (by decide)

/-- Each table that has not the size wanted is followed by one that is nearer to it. -/
theorem away_double {m a : ℕ} (hm : IsExponent m) (ha : IsExponent a) (hne : 2 ^ a ≠ 2 ^ m) :
    away m (allocatedSize (BitVec.ofNat 64 (2 ^ a <<< 1))) < away m (2 ^ a) := by
  have hne' : a ≠ m := fun he => hne (congrArg _ he)
  obtain ⟨hm₁, hm₂⟩ := hm
  obtain ⟨ha₁, ha₂⟩ := ha
  rw [allocatedSize_double ⟨ha₁, ha₂⟩, away_two_pow, away_two_pow, nextExponent]
  split_ifs <;> omega

/-! ## The last table -/

/-- The sizes of the tables, and which of them is the last. -/
structure Outline.Grown (o : Outline Tid) : Prop where
  size : ∀ T, ∃ a, IsExponent a ∧ o.size T = 2 ^ a
  dest : ∀ j, o.Open j → (o.jobs j).dest + 1 = o.nTables
  latest : (∀ j, ¬o.Open j) → o.latest + 1 = o.nTables

section Steps

variable {H : Hasher Key} {signalSafeReaders : Bool} {S S' : Shared Tid}
  {c c' : Call Key} {t : Tid} {calls : Tid → Option (Call Key)} {o o' : Outline Tid} {pc : Pc}

/-- What a step may do to the number of tables and their sizes: a table is created in
    `migrationStart`, line 585, or for a migration that is restarted, line 459. -/
inductive Creates (S : Shared Tid) (c : Call Key) (S' : Shared Tid) : Prop
  | none : S'.nTables = S.nTables → S'.outline.size = S.outline.size → Creates S c S'
  | table (n : BitVec 64) : S'.nTables = S.nTables + 1 →
      S'.outline.size = Function.update S.outline.size S.nTables (allocatedSize n) →
      ((∃ root, c.pc = .start root (.set n)) ∨ ∃ root j T, c.pc = .complete root j (.restartSet T) ∧
        n = BitVec.ofNat 64 ((S.tables (S.jobs j).dest).size <<< 1)) → Creates S c S'

theorem Call.step_creates (hs : c.step H signalSafeReaders S t = some (S', c')) :
    Creates S c S' := by
  cases Call.step_changes hs with
  | cells x ho => exact .none (congrArg Outline.nTables ho) (by rw [ho])
  | run root j rpc _ hS | schedule root j old _ hS =>
    subst hS
    exact .none rfl rfl
  | begins root n hpc hS =>
    subst hS
    refine .table n rfl ?_ (.inl ⟨root, hpc⟩)
    rw [outline_setCoordinator, outline_newJob, outline_newTable]
    rfl
  | restart root j T hpc hS =>
    subst hS
    refine .table _ rfl ?_ (.inr ⟨root, j, T, hpc, rfl⟩)
    rw [outline_restart]
    rfl
  | ends root j T _ _ hS =>
    subst hS
    exact .none rfl (by rw [outline_setCoordinator]; rfl)
  | publish root j old _ hS =>
    subst hS
    rw [Shared.publish]
    split_ifs <;> exact .none rfl rfl

/-- The last table remains the destination of the migration under way, or else the current
    table. -/
theorem Outline.Grown.advance (h : o.Grown) (hl : o.Layout) (ha : Advance o pc o') :
    (∀ j, o'.Open j → (o'.jobs j).dest + 1 = o'.nTables) ∧
      ((∀ j, ¬o'.Open j) → o'.latest + 1 = o'.nTables) := by
  cases ha with
  | keep x ho =>
    subst ho
    exact ⟨h.dest, h.latest⟩
  | run root j rpc _ hk ho =>
    subst ho
    refine ⟨fun i hi => ?_, fun hno => h.latest fun i hi => ?_⟩
    · rw [(keeps_setJob hk i).dest]
      exact h.dest i ((open_setJob hk.dest).1 hi)
    · exact hno i ((open_setJob hk.dest).2 hi)
  | begin n jobs m _ hd _ _ _ ho =>
    subst ho
    refine ⟨fun i hi => ?_, fun hno => absurd (begin_isOpen hl hd) (hno _)⟩
    rw [begin_open hi, begin_jobs, hd]
    rfl
  | ends root j _ _ ho =>
    subst ho
    exact ⟨h.dest, h.latest⟩
  | publish root j old _ _ hj ho =>
    subst ho
    exact ⟨fun i hi => absurd hi (not_open_publish hj), fun _ => h.dest j hj⟩

theorem Outline.Grown.callStep [Fintype Tid] (h : S.outline.Grown)
    (hco : Coordination S.outline (pcsOf calls)) (ht : calls t = some c) (hl : c.OnTime S)
    (hs : c.step H signalSafeReaders S t = some (S', c')) : S'.outline.Grown := by
  obtain ⟨hdest, hlatest⟩ := h.advance hco.layout (hco.advance ht hl hs)
  refine ⟨fun T => ?_, hdest, hlatest⟩
  cases Call.step_creates hs with
  | none _ hsize =>
    rw [hsize]
    exact h.size T
  | table n _ hsize =>
    rw [hsize]
    by_cases hT : T = S.nTables
    · rw [hT, Function.update_self]
      exact allocatedSize_eq_two_pow n
    · rw [Function.update_of_ne hT]
      exact h.size T

end Steps

/-! ## Runs -/

section Runs

variable [Fintype Tid] [DecidableEq Tid] {H : Hasher Key} {signalSafeReaders : Bool}
  {σ σ' : State Tid Key} {l : Label Tid Key}

theorem Outline.Grown.next (h : σ.shared.outline.Grown) (hsolo : Solo H σ)
    (hn : (provider Tid H signalSafeReaders).next σ l = some σ') : σ'.shared.outline.Grown := by
  have ho : Orderly H (fun _ => True) σ l := hsolo.orderly _
  cases State.transition_of_next H signalSafeReaders hn with
  | call | ret => exact h
  | step t c c' S' hc hs => exact h.callStep hsolo.sound.coordination hc (ho.1 c hc) hs

omit [Fintype Tid] [DecidableEq Tid] in
theorem Outline.Grown.initial (n : BitVec 64) :
    (State.new n : State Tid Key).shared.outline.Grown := by
  refine ⟨fun T => ?_, fun j hj => absurd hj.1 (Nat.succ_ne_zero j), fun _ => rfl⟩
  obtain ⟨a, ha, he⟩ := allocatedSize_eq_two_pow n
  exact ⟨a, ha, (size_new n).trans he⟩

end Runs

end FkProf.ConcurrentMap
