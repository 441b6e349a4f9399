import FkProf.ConcurrentMap.Migration
import Mathlib.Tactic.Ring

/-!
# Running a migration

Whatever the order in which any number of threads run a migration, the chunks
are accounted for: each is unclaimed, or claimed by one thread that has not
finished it, or finished, or aborted by an overflow. So the migration cannot
end too early, and a thread that leaves it last leaves an ended one.

* `RunInv`: the invariant of a migration and the runs of it;
* `RunInv.step`: every step of a run keeps it, whatever the other runs do;
* `RunInv.ended_of_last`: the last thread to leave leaves an ended migration;
* `RunInv.exhausted`: a migration that ended without overflow has no chunk left.
-/

namespace FkProf.ConcurrentMap

variable {Tid : Type*} [Fintype Tid]

open Position

/-- The migration has ended, and nobody has anything left to do for it. -/
def Over (m : Migration) (runs : Tid → Option Position) : Prop :=
  m.Ended ∧ tally busy runs = 0

/-- The numbers of runs at the positions that matter, against the counters of the
    migration. -/
structure Census (sizeOf : TableId → ℕ) (m : Migration) (runs : Tid → Option Position) :
    Prop where
  workers : m.state / 2 = tally worker runs
  /-- A thread was the last to leave only when nobody had anything left to do. -/
  completed : 0 < tally completer runs → Over m runs
  units_le : (m.units sizeOf + tally chunk runs : ℕ) ≤ m.unitsRemaining
  units_lt : (m.units sizeOf + tally chunk runs : ℕ) < m.unitsRemaining →
    m.overflowed = true ∨ 0 < tally setsOverflowed runs
  units_zero : m.unitsRemaining = 0 → m.Ended ∨ 0 < tally endsSuccess runs
  ended : m.Ended → m.overflowed = true ∨ m.unitsRemaining = 0
  overflow : m.overflowed = true → m.Ended ∨ 0 < tally endsOverflow runs

/-- The invariant of a migration and the runs of it. -/
structure RunInv (sizeOf : TableId → ℕ) (m : Migration) (runs : Tid → Option Position) :
    Prop where
  census : Census sizeOf m runs
  ok : ∀ t p, runs t = some p → p.Ok sizeOf m
  outcome : ∀ t o, runs t = some (.completing o) → m.overflowed = o
  aligned : ∀ s, kMigrationChunkSize ∣ m.index s
  /-- A chunk is moved by one thread. -/
  exclusive : ∀ t u s T T' i i' last, runs t = some (.migrating s T i last) →
    runs u = some (.migrating s T' i' last) → t = u
  /-- The sources are handed over to the next migration after an overflow, when
      nobody needs them any more. -/
  handed : (∃ s < m.sources.length, m.table s = none) →
    Over m runs ∧ m.overflowed = true

variable {sizeOf : TableId → ℕ} {m m' : Migration} {runs : Tid → Option Position} {t : Tid}
  {p : Position}

/-! ## Consequences -/

section Consequences

theorem Position.worker_of_busy (hp : p.busy = true) : p.worker = true := by
  cases p with
  | run pc => cases pc <;> first | rfl | cases hp
  | migrating => rfl
  | completing => cases hp

theorem Position.busy_of (hp : (p.chunk || p.setsOverflowed || p.endsOverflow || p.endsSuccess) = true) :
    p.busy = true := by
  cases p with
  | run pc => cases pc <;> first | rfl | cases hp
  | migrating => rfl
  | completing => cases hp

/-- Nobody has anything left to do, in particular. -/
theorem tally_of_not_busy (h : tally busy runs = 0) :
    tally chunk runs = 0 ∧ tally setsOverflowed runs = 0 ∧ tally endsOverflow runs = 0 ∧
      tally endsSuccess runs = 0 := by
  have hle : ∀ q : Position → Bool, (∀ p, q p = true → p.busy = true) → tally q runs = 0 :=
    fun q hq => Nat.le_zero.1 (h ▸ tally_le hq)
  exact ⟨hle _ fun p hp => busy_of (by simp [hp]), hle _ fun p hp => busy_of (by simp [hp]),
    hle _ fun p hp => busy_of (by simp [hp]), hle _ fun p hp => busy_of (by simp [hp])⟩

/-- The last thread to leave leaves an ended migration, and nobody busy. -/
theorem RunInv.ended_of_last [DecidableEq Tid] (h : RunInv sizeOf m runs) (ht : runs t = some (.run .leave))
    (hs : m.state ≤ 3) : Over m runs := by
  have hw := h.census.workers
  have hpos : 0 < tally worker runs := tally_pos ht rfl
  have hsum : tally worker runs = ((runs t).any worker).toNat := by
    rw [ht]
    simp only [Option.any_some, worker, Bool.toNat_true]
    omega
  have hb : tally busy runs = 0 := by
    rw [tally_eq_zero]
    intro u p hu
    by_cases hut : u = t
    · subst hut
      rw [ht] at hu
      cases hu
      rfl
    · have h₀ := ThreadSum.eq_zero_of_sum_eq hsum hut
      rw [hu, Option.any_some, Bool.toNat_eq_zero] at h₀
      by_contra hp
      exact absurd (worker_of_busy (by simpa using hp)) (by simp [h₀])
  refine ⟨?_, hb⟩
  -- The migration has not ended by chance: this thread would have found no chunk left.
  by_contra he
  obtain ⟨hc, hso, hov, hsu⟩ := tally_of_not_busy hb
  have hex := (h.ok t _ ht).resolve_left he
  have hle := h.census.units_le
  have hlt := h.census.units_lt
  have hzero := h.census.units_zero
  have hover := h.census.overflow
  have hunits := Migration.units_eq_zero hex
  grind

/-- Once the migration has ended without overflow, no chunk is left. -/
theorem RunInv.exhausted (h : RunInv sizeOf m runs) (hsize : ∀ T, kMigrationChunkSize ∣ sizeOf T)
    (he : m.Ended) (ho : m.overflowed = false) (s : ℕ) :
    m.Exhausted s sizeOf := by
  intro T hT
  have hz := (h.census.ended he).resolve_left (by simp [ho])
  have hle := h.census.units_le
  have hs := Migration.table_lt hT
  have he := List.getElem?_eq_getElem hs
  have hmem : Migration.unclaimed sizeOf m.sources[s] ≤ m.units sizeOf :=
    List.le_sum_of_mem (List.mem_map_of_mem (List.getElem_mem hs))
  have hu : Migration.unclaimed sizeOf m.sources[s] = 0 := by omega
  rw [Migration.table_of_getElem? m s he] at hT
  rw [Migration.index_of_getElem? m s he]
  have hal := h.aligned s
  rw [Migration.index_of_getElem? m s he] at hal
  simp only [Migration.unclaimed, hT] at hu
  obtain ⟨a, ha⟩ := hsize T
  obtain ⟨b, hb⟩ := hal
  rw [ha, hb, ← Nat.mul_sub, Nat.mul_div_cancel_left _ (by decide)] at hu
  rw [ha, hb]
  exact Nat.mul_le_mul_left _ (by omega)

end Consequences

/-! ## Steps of a run -/

section Step

variable {pc : RunPc}

/-- A migration goes on with every step of a run. -/
theorem runStep_grows (hs : pc = .leave → 2 ≤ m.state) : m.Grows (m.runStep sizeOf pc).1 := by
  cases pc <;> simp only [Migration.runStep]
  case claim s T => cases T <;> exact .fetchAdd
  case increment => exact .of_sources rfl (fun h => by simpa [Migration.Ended] using h) id
  case successEnd | overflowEnd => exact .of_sources rfl (fun _ => m.setEnded_ended) id
  case setOverflowed => exact .of_sources rfl id fun _ => rfl
  case finished => exact .of_sources rfl id id
  case leave =>
    refine .of_sources rfl (fun h : m.state % 2 = 1 => ?_) id
    show (m.state - 2) % 2 = 1
    have := hs rfl
    omega
  all_goals exact .refl

/-- What a run knows outlasts the steps of the others. -/
theorem Position.Ok.mono (hok : p.Ok sizeOf m) (g : m.Grows m')
    (hz : p.endsSuccess = true → m.unitsRemaining = 0 → m'.unitsRemaining = 0) :
    p.Ok sizeOf m' := by
  have hex : ∀ {s}, (∀ i < s, m.Exhausted i sizeOf) → ∀ i < s, m'.Exhausted i sizeOf :=
    fun h i hi => g.exhausted (h i hi)
  cases p with
  | run pc =>
    cases pc <;> simp only [Position.Ok, g.length, g.table] at hok ⊢
    case source => exact hex hok
    case check => exact ⟨hex hok.1, hok.2.1, hok.2.2.imp_left g.ended⟩
    case claim => exact ⟨hex hok.1, hok.2⟩
    case finished => exact ⟨hex hok.1, hok.2⟩
    case overflowEnd => exact g.overflowed hok
    case successEnd => exact hz rfl hok
    case leave => exact hok.imp g.ended fun h i => g.exhausted (h i)
  | migrating s T i last =>
    obtain ⟨h₁, h₂, h₃, h₄, h₅, h₆⟩ := hok
    exact ⟨hex h₁, (g.table s).trans h₂, h₃, h₄, h₅.trans (g.index s), h₆⟩
  | completing => trivial

/-- A worker counts in the state. -/
theorem RunInv.two_le_state (h : RunInv sizeOf m runs) (ht : runs t = some p)
    (hp : p.worker = true) : 2 ≤ m.state := by
  have := h.census.workers
  have := tally_pos ht hp
  omega

theorem RunInv.grows (h : RunInv sizeOf m runs) (ht : runs t = some (.run pc)) :
    m.Grows (m.runStep sizeOf pc).1 :=
  runStep_grows fun hpc => h.two_le_state ht (by rw [hpc]; rfl)

/-- A run goes on knowing what it has found. -/
theorem RunInv.ok_step (h : RunInv sizeOf m runs) (hsize : ∀ T, kMigrationChunkSize ∣ sizeOf T)
    (ht : runs t = some (.run pc)) (hp : (m.runStep sizeOf pc).2.position = some p) :
    p.Ok sizeOf (m.runStep sizeOf pc).1 := by
  have hok := h.ok t _ ht
  have g := h.grows ht
  cases pc <;> simp only [Migration.runStep] at hp g ⊢
  case enter =>
    split_ifs at hp <;> cases hp
    trivial
  case increment =>
    cases hp
    exact fun i hi => absurd hi (Nat.not_lt_zero _)
  case source s =>
    cases hp
    split_ifs with hs
    · exact ⟨hok, hs, .inr rfl⟩
    · refine .inr fun i => ?_
      by_cases hi : i < s
      · exact hok i hi
      · intro T hT
        exact absurd (Migration.table_lt hT) (by omega)
  case check s T =>
    obtain ⟨hex, hs, hT⟩ := hok
    cases hp
    split_ifs with he
    · exact .inl he
    · have hT := hT.resolve_left he
      refine ⟨hex, hs, hT, fun hn => he ?_⟩
      exact (h.handed ⟨s, hs, hT.trans hn⟩).1.1
  case claim s T =>
    obtain ⟨hex, hs, hT, -⟩ := hok
    cases T with
    | none => cases hp
    | some T =>
      dsimp only at hp g ⊢
      have hidx := m.fetchAdd_index s s hs
      rw [if_pos rfl] at hidx
      split_ifs at hp with hle <;> cases hp
      · intro i hi
        rcases Nat.lt_succ_iff_lt_or_eq.1 hi with hi | rfl
        · exact g.exhausted (hex i hi)
        · exact g.exhausted fun T' hT' => by
            rw [hT] at hT'
            cases hT'
            exact hle
      · obtain ⟨a, ha⟩ := hsize T
        obtain ⟨b, hb⟩ := h.aligned s
        have hmin : min (m.index s + kMigrationChunkSize) (sizeOf T) =
            m.index s + kMigrationChunkSize := by
          rw [ha, hb] at hle ⊢
          rw [← Nat.mul_succ]
          exact min_eq_left (Nat.mul_le_mul_left _ (by
            by_contra hc
            exact hle (Nat.mul_le_mul_left _ (by omega))))
        rw [hmin]
        refine ⟨fun i hi => g.exhausted (hex i hi), (g.table s).trans hT, ?_, le_rfl, hidx.ge, ?_, ?_⟩
        · simp [kMigrationChunkSize]
        · rw [← hmin]
          exact min_le_right _ _
        · exact Nat.dvd_add (h.aligned s) dvd_rfl
  case finished s T =>
    obtain ⟨hex, hT⟩ := hok
    cases hp
    split_ifs with hu
    · show m.unitsRemaining - 1 = 0
      omega
    · exact ⟨hex, Migration.table_lt hT, .inr hT⟩
  case setOverflowed =>
    cases hp
    rfl
  case successEnd | overflowEnd =>
    cases hp
    exact .inl m.setEnded_ended
  case leave =>
    split_ifs at hp <;> cases hp
    trivial
  case loadOverflowed =>
    cases hp
    trivial

variable [DecidableEq Tid]

/-- A thread moves from one position to another. -/
theorem tallies_update (runs : Tid → Option Position) (t : Tid) (p' : Option Position) :
    tally worker (Function.update runs t p') + ((runs t).any worker).toNat =
        tally worker runs + (p'.any worker).toNat ∧
      tally completer (Function.update runs t p') + ((runs t).any completer).toNat =
        tally completer runs + (p'.any completer).toNat ∧
      tally busy (Function.update runs t p') + ((runs t).any busy).toNat =
        tally busy runs + (p'.any busy).toNat ∧
      tally chunk (Function.update runs t p') + ((runs t).any chunk).toNat =
        tally chunk runs + (p'.any chunk).toNat ∧
      tally setsOverflowed (Function.update runs t p') + ((runs t).any setsOverflowed).toNat =
        tally setsOverflowed runs + (p'.any setsOverflowed).toNat ∧
      tally endsOverflow (Function.update runs t p') + ((runs t).any endsOverflow).toNat =
        tally endsOverflow runs + (p'.any endsOverflow).toNat ∧
      tally endsSuccess (Function.update runs t p') + ((runs t).any endsSuccess).toNat =
        tally endsSuccess runs + (p'.any endsSuccess).toNat :=
  ⟨tally_update .., tally_update .., tally_update .., tally_update .., tally_update .., tally_update .., tally_update ..⟩

/-- The counters when a run claims a chunk. -/
theorem RunInv.census_claim (h : RunInv sizeOf m runs)
    (hsize : ∀ T, kMigrationChunkSize ∣ sizeOf T) {s : ℕ} {T : TableId}
    (ht : runs t = some (.run (.claim s (some T)))) :
    Census sizeOf (m.runStep sizeOf (.claim s (some T))).1
      (Function.update runs t (m.runStep sizeOf (.claim s (some T))).2.position) := by
  have hT := (h.ok t _ ht).2.2.1
  obtain ⟨hw, hc, hle, hlt, hz, he, ho⟩ := h.census
  have e := tallies_update runs t (m.runStep sizeOf (.claim s (some T))).2.position
  have hu := Migration.units_fetchAdd hT (hsize T) (h.aligned s)
  simp only [ht, Option.any_some] at e
  simp only [Migration.runStep] at e ⊢
  split_ifs at e hu ⊢ <;>
    simp [RunNext.position, worker, completer, busy, chunk, setsOverflowed, endsOverflow,
      endsSuccess] at e ⊢ <;>
    simp only [Over, Migration.Ended] at * <;>
    constructor <;> (try simp only [Over, Migration.Ended, Migration.fetchAdd_state,
      Migration.fetchAdd_overflowed, Migration.fetchAdd_unitsRemaining]) <;> grind

/-- The counters when a run ends the migration. -/
theorem RunInv.census_setEnded (h : RunInv sizeOf m runs)
    (ht : runs t = some (.run pc)) (hpc : pc = .successEnd ∨ pc = .overflowEnd) :
    Census sizeOf (m.runStep sizeOf pc).1
      (Function.update runs t (m.runStep sizeOf pc).2.position) := by
  have hok := h.ok t _ ht
  obtain ⟨hw, hc, hle, hlt, hz, he, ho⟩ := h.census
  have e := tallies_update runs t (m.runStep sizeOf pc).2.position
  have hend := m.setEnded_ended
  have hdiv := m.setEnded_div
  simp only [ht, Option.any_some] at e
  rcases hpc with rfl | rfl <;> simp only [Migration.runStep] at e ⊢ <;>
    simp [RunNext.position, worker, completer, busy, chunk, setsOverflowed, endsOverflow,
      endsSuccess] at e ⊢ <;>
    simp only [Position.Ok, Over, Migration.units] at * <;>
    constructor <;> (try simp only [Over, Migration.units, Migration.setEnded_sources,
      Migration.setEnded_overflowed, Migration.setEnded_unitsRemaining]) <;> grind

/-- The counters when a run only reads. -/
theorem RunInv.census_read (h : RunInv sizeOf m runs) (ht : runs t = some (.run pc))
    (hpc : pc = .enter ∨ (∃ s, pc = .source s) ∨ (∃ s T, pc = .check s T) ∨
      pc = .loadOverflowed) :
    Census sizeOf (m.runStep sizeOf pc).1
      (Function.update runs t (m.runStep sizeOf pc).2.position) := by
  obtain ⟨hw, hc, hle, hlt, hz, he, ho⟩ := h.census
  have e := tallies_update runs t (m.runStep sizeOf pc).2.position
  simp only [ht, Option.any_some] at e
  rcases hpc with rfl | ⟨s, rfl⟩ | ⟨s, T, rfl⟩ | rfl <;>
    simp only [Migration.runStep] at e ⊢ <;>
    (try split_ifs at e ⊢) <;>
    simp only [RunNext.position, worker, completer, busy, chunk, setsOverflowed, endsOverflow,
      endsSuccess, Option.any_some, Option.any_none, Bool.toNat_false, Bool.toNat_true] at e ⊢ <;>
    obtain ⟨ew, ec, eb, ek, es, eo, ez⟩ := e <;>
    simp only [Over] at hc <;>
    refine ⟨by omega, fun hpos => ⟨?_, ?_⟩, by omega, fun hn => ?_, fun hn => ?_, he, fun hn => ?_⟩
  all_goals grind

/-- The counters when a run joins the migration or leaves it. -/
theorem RunInv.census_state (h : RunInv sizeOf m runs) (ht : runs t = some (.run pc))
    (hpc : pc = .increment ∨ pc = .leave) :
    Census sizeOf (m.runStep sizeOf pc).1
      (Function.update runs t (m.runStep sizeOf pc).2.position) := by
  have hlast := fun hs : m.state ≤ 3 => fun hpc : pc = .leave =>
    h.ended_of_last (hpc ▸ ht) hs
  have hstate := fun hp : worker (.run pc) = true => h.two_le_state ht hp
  obtain ⟨hw, hc, hle, hlt, hz, he, ho⟩ := h.census
  have e := tallies_update runs t (m.runStep sizeOf pc).2.position
  simp only [ht, Option.any_some] at e
  rcases hpc with rfl | rfl <;> simp only [Migration.runStep] at e ⊢ <;>
    (try split_ifs at e ⊢) <;>
    simp [RunNext.position, worker, completer, busy, chunk, setsOverflowed, endsOverflow,
      endsSuccess] at e hstate ⊢ <;>
    simp only [Over, Migration.Ended, Migration.units] at * <;>
    constructor <;> (try simp only [Over, Migration.Ended, Migration.units]) <;> grind

/-- The counters when a run is done with a chunk. -/
theorem RunInv.census_done (h : RunInv sizeOf m runs) (ht : runs t = some (.run pc))
    (hpc : (∃ s T, pc = .finished s T) ∨ pc = .setOverflowed) :
    Census sizeOf (m.runStep sizeOf pc).1
      (Function.update runs t (m.runStep sizeOf pc).2.position) := by
  obtain ⟨hw, hc, hle, hlt, hz, he, ho⟩ := h.census
  have e := tallies_update runs t (m.runStep sizeOf pc).2.position
  simp only [ht, Option.any_some] at e
  rcases hpc with ⟨s, T, rfl⟩ | rfl <;> simp only [Migration.runStep] at e ⊢ <;>
    (try split_ifs at e ⊢) <;>
    simp [RunNext.position, worker, completer, busy, chunk, setsOverflowed, endsOverflow,
      endsSuccess] at e ⊢ <;>
    simp only [Over, Migration.Ended, Migration.units] at * <;>
    constructor <;> (try simp only [Over, Migration.Ended, Migration.units]) <;> grind

/-- The counters go with the runs. -/
theorem RunInv.census_step (h : RunInv sizeOf m runs)
    (hsize : ∀ T, kMigrationChunkSize ∣ sizeOf T) (ht : runs t = some (.run pc)) :
    Census sizeOf (m.runStep sizeOf pc).1
      (Function.update runs t (m.runStep sizeOf pc).2.position) := by
  cases pc with
  | enter => exact h.census_read ht (.inl rfl)
  | increment => exact h.census_state ht (.inl rfl)
  | source s => exact h.census_read ht (.inr (.inl ⟨s, rfl⟩))
  | check s T => exact h.census_read ht (.inr (.inr (.inl ⟨s, T, rfl⟩)))
  | claim s T =>
    cases T with
    | none => exact absurd rfl (h.ok t _ ht).2.2.2
    | some T => exact h.census_claim hsize ht
  | finished s T => exact h.census_done ht (.inl ⟨s, T, rfl⟩)
  | setOverflowed => exact h.census_done ht (.inr rfl)
  | overflowEnd => exact h.census_setEnded ht (.inr rfl)
  | successEnd => exact h.census_setEnded ht (.inl rfl)
  | leave => exact h.census_state ht (.inr rfl)
  | loadOverflowed => exact h.census_read ht (.inr (.inr (.inr rfl)))

/-- A thread becomes busy only before the migration has ended. -/
theorem busy_of_step (hp : (m.runStep sizeOf pc).2.position = some p) (hb : p.busy = true) :
    (run pc).busy = true ∨ ¬m.Ended := by
  cases pc <;> simp only [Migration.runStep] at hp
  case enter | leave =>
    split_ifs at hp <;> cases hp
    cases hb
  case source =>
    split_ifs at hp
    all_goals
      cases hp
      cases hb
  case check s T =>
    split_ifs at hp with he <;> cases hp
    · cases hb
    · exact .inr he
  case claim | finished | setOverflowed | successEnd | overflowEnd => exact .inl rfl
  case increment | loadOverflowed => cases hp; cases hb

/-- A chunk begins where the source was. -/
theorem index_of_step {s i last : ℕ} {T : TableId}
    (hp : (m.runStep sizeOf pc).2.position = some (.migrating s T i last)) : i = m.index s := by
  cases pc <;> simp only [Migration.runStep] at hp
  case claim s T =>
    cases T <;> dsimp only at hp
    · cases hp
    · split_ifs at hp <;> cases hp
      rfl
  all_goals (try split_ifs at hp) <;> cases hp

/-- What is over remains so. -/
theorem Over.step (h : Over m runs) (g : m.Grows (m.runStep sizeOf pc).1)
    (ht : runs t = some (.run pc)) :
    Over (m.runStep sizeOf pc).1
      (Function.update runs t (m.runStep sizeOf pc).2.position) := by
  refine ⟨g.ended h.1, tally_eq_zero.2 fun u p hu => ?_⟩
  rcases ThreadSum.update_eq_some_iff.1 hu with ⟨rfl, hp⟩ | ⟨-, hu⟩
  · by_contra hb
    rcases busy_of_step hp (by simpa using hb) with hb | he
    · exact absurd (tally_pos ht hb) (by rw [h.2]; exact Nat.lt_irrefl 0)
    · exact he h.1
  · exact tally_eq_zero.1 h.2 u p hu

/-- Every step of a run keeps the invariant. -/
theorem RunInv.step (h : RunInv sizeOf m runs) (hsize : ∀ T, kMigrationChunkSize ∣ sizeOf T)
    (ht : runs t = some (.run pc)) :
    RunInv sizeOf (m.runStep sizeOf pc).1
      (Function.update runs t (m.runStep sizeOf pc).2.position) := by
  have g := h.grows ht
  have hover : ∀ {n}, tally busy runs = 0 → (run pc).busy = true → n := fun h₀ hb =>
    absurd (tally_pos ht hb) (by rw [h₀]; exact Nat.lt_irrefl 0)
  refine ⟨h.census_step hsize ht, fun u p hu => ?_, fun u o hu => ?_, fun i => ?_,
    fun u w s T T' i i' last hu hw => ?_, fun ⟨s, hs, hT⟩ => ?_⟩
  · rcases ThreadSum.update_eq_some_iff.1 hu with ⟨rfl, hp⟩ | ⟨-, hu⟩
    · exact h.ok_step hsize ht hp
    · refine (h.ok u p hu).mono g fun hp hz => ?_
      cases pc <;> simp only [Migration.runStep] <;> (try exact hz)
      case claim s T => cases T <;> exact hz
      case finished s T =>
        -- A chunk that is being finished is not the last one already.
        have := h.census.units_le
        have : 0 < tally chunk runs := tally_pos ht rfl
        omega
  · rcases ThreadSum.update_eq_some_iff.1 hu with ⟨rfl, hp⟩ | ⟨-, hu₀⟩
    · cases pc <;> simp only [Migration.runStep] at hp ⊢
      case claim s T => cases T <;> dsimp only at hp <;> (try split_ifs at hp) <;> cases hp
      case loadOverflowed => cases hp; rfl
      all_goals (try split_ifs at hp) <;> cases hp
    · rw [← h.outcome u o hu₀]
      cases pc <;> simp only [Migration.runStep]
      case claim s T => cases T <;> rfl
      case setOverflowed =>
        exact hover (h.census.completed (tally_pos hu₀ rfl)).2 rfl
      all_goals rfl
  · cases pc <;> simp only [Migration.runStep] <;> (try exact h.aligned i)
    case claim s T =>
      have hal : kMigrationChunkSize ∣ (m.fetchAdd s).index i := by
        rw [m.fetchAdd_index s i (h.ok t _ ht).2.1]
        split_ifs with hi
        · exact Nat.dvd_add (h.aligned s) dvd_rfl
        · exact h.aligned i
      cases T <;> exact hal
  · -- A chunk claimed now is beyond those claimed before.
    have hnew : ∀ {u T i T' i'}, runs u = some (.migrating s T i last) →
        (m.runStep sizeOf pc).2.position = some (.migrating s T' i' last) → False :=
      fun hu hp => by
        have hle := (h.ok _ _ hu).2.2.2.2.1
        have hlt := (h.ok_step hsize ht hp).2.2.1
        rw [index_of_step hp] at hlt
        omega
    rcases ThreadSum.update_eq_some_iff.1 hu with ⟨rfl, hp⟩ | ⟨-, hu₀⟩ <;>
      rcases ThreadSum.update_eq_some_iff.1 hw with ⟨rfl, hq⟩ | ⟨-, hw₀⟩
    · rfl
    · exact (hnew hw₀ hp).elim
    · exact (hnew hu₀ hq).elim
    · exact h.exclusive u w s T T' i i' last hu₀ hw₀
  · rw [g.length] at hs
    rw [g.table] at hT
    obtain ⟨hover, ho⟩ := h.handed ⟨s, hs, hT⟩
    exact ⟨hover.step g ht, g.overflowed ho⟩

end Step

/-! ## Before and after -/

section Ends

/-- The last thread hands the sources over to the next migration. -/
theorem RunInv.handOver (h : RunInv sizeOf m runs) (ht : runs t = some (.completing true)) :
    RunInv sizeOf { m with sources := m.sources.map fun src => { src with table := none } }
      runs := by
  have hover := h.census.completed (tally_pos ht rfl)
  have ho := h.outcome t _ ht
  have htable : ∀ s, Migration.table
      { m with sources := m.sources.map fun src => { src with table := none } } s = none :=
    fun s => by
      simp only [Migration.table, List.getElem?_map]
      cases m.sources[s]? <;> rfl
  have hindex : ∀ s, Migration.index
      { m with sources := m.sources.map fun src => { src with table := none } } s = m.index s :=
    fun s => by
      simp only [Migration.index, List.getElem?_map]
      cases m.sources[s]? <;> rfl
  have hex : ∀ s, Migration.Exhausted
      { m with sources := m.sources.map fun src => { src with table := none } } s sizeOf :=
    fun s T hT => by
      rw [htable] at hT
      cases hT
  have hunits := Migration.units_eq_zero hex
  obtain ⟨cw, -, cle, -, cz, -, -⟩ := h.census
  have hbusy := tally_eq_zero.1 hover.2
  refine ⟨⟨cw, fun _ => hover, ?_, fun _ => .inl ho, fun _ => .inl hover.1, fun _ => .inl ho,
    fun _ => .inl hover.1⟩, fun u p hu => ?_, h.outcome, fun s => ?_, h.exclusive,
    fun _ => ⟨hover, ho⟩⟩
  · rw [hunits]
    dsimp only
    omega
  · have hp := h.ok u p hu
    have hb := hbusy u p hu
    cases p with
    | run pc =>
      cases pc <;> first | trivial | exact Bool.noConfusion hb | skip
      case source => exact fun i _ => hex i
      case check s T =>
        exact ⟨fun i _ => hex i, by simpa using hp.2.1, .inl hover.1⟩
      case leave => exact .inl hover.1
    | migrating => cases hb
    | completing => trivial
  · rw [hindex]
    exact h.aligned s

/-- A migration that nobody runs yet. -/
theorem RunInv.new (hs : m.state = 0) (ho : m.overflowed = false)
    (hu : m.unitsRemaining = m.units sizeOf) (hpos : 0 < m.units sizeOf)
    (hi : ∀ s, m.index s = 0) (ht : ∀ s < m.sources.length, m.table s ≠ none)
    (hr : ∀ t, runs t = none) : RunInv sizeOf m runs := by
  have hz : ∀ q, tally q runs = 0 := fun q => tally_eq_zero.2 fun t p hp => by
    rw [hr] at hp
    cases hp
  refine ⟨⟨?_, ?_, ?_, ?_, ?_, ?_, ?_⟩, fun t p hp => ?_, fun t o hp => ?_, fun s => ?_,
    fun t _ _ _ _ _ _ _ hp => ?_, fun ⟨s, hs, hn⟩ => absurd hn (ht s hs)⟩
  · rw [hs, hz]
  · simp [hz]
  · rw [hz, hu, Nat.add_zero]
  · rw [hz, hu, Nat.add_zero]
    exact fun h => absurd h (lt_irrefl _)
  · intro h
    omega
  · intro h
    rw [Migration.Ended, hs] at h
    cases h
  · simp [ho]
  · rw [hr] at hp
    cases hp
  · rw [hr] at hp
    cases hp
  · rw [hi]
    exact dvd_zero _
  · rw [hr] at hp
    cases hp

/-- Only the sizes of the sources matter. -/
theorem RunInv.congr {sizeOf' : TableId → ℕ} (h : RunInv sizeOf m runs)
    (hs : ∀ s T, m.table s = some T → sizeOf' T = sizeOf T) : RunInv sizeOf' m runs := by
  have hex : ∀ {s}, m.Exhausted s sizeOf → m.Exhausted s sizeOf' := fun he T hT =>
    (hs _ T hT).trans_le (he T hT)
  have hunits : m.units sizeOf' = m.units sizeOf := by
    refine congrArg List.sum (List.map_congr_left fun src hsrc => ?_)
    obtain ⟨i, hi, rfl⟩ := List.getElem_of_mem hsrc
    have he := List.getElem?_eq_getElem hi
    cases ht : m.sources[i].table with
    | none => simp only [Migration.unclaimed, ht]
    | some T =>
      simp only [Migration.unclaimed, ht]
      rw [hs i T (by rw [Migration.table_of_getElem? m i he, ht])]
  obtain ⟨cw, cc, cle, clt, cz, ce, co⟩ := h.census
  refine ⟨⟨cw, cc, hunits ▸ cle, hunits ▸ clt, cz, ce, co⟩, fun t p hp => ?_, h.outcome,
    h.aligned, h.exclusive, h.handed⟩
  have hok := h.ok t p hp
  cases p with
  | run pc =>
    cases pc <;> simp only [Position.Ok] at hok ⊢
    case source => exact fun i hi => hex (hok i hi)
    case check | claim | finished => exact ⟨fun i hi => hex (hok.1 i hi), hok.2⟩
    case overflowEnd | successEnd => exact hok
    case leave => exact hok.imp_right fun he i => hex (he i)
  | migrating s T i last =>
    obtain ⟨h₁, h₂, h₃, h₄, h₅, h₆, h₇⟩ := hok
    exact ⟨fun i hi => hex (h₁ i hi), h₂, h₃, h₄, h₅, hs s T h₂ ▸ h₆, h₇⟩
  | completing => trivial

end Ends

/-! ## Other moves -/

section Move

variable [DecidableEq Tid] {p p' : Option Position}

/-- A thread moves without touching the migration: it begins or ends its run, or
    goes on in `migrateRange`. -/
theorem RunInv.move (h : RunInv sizeOf m runs) (ht : runs t = p)
    (hw : p'.any worker = p.any worker) (hb : p'.any busy = true → p.any busy = true)
    (hc : p'.any completer = true → p.any completer = true)
    (hk : p'.any chunk = p.any chunk ∧ p'.any setsOverflowed = p.any setsOverflowed ∨
      p.any setsOverflowed = false ∧ p'.any setsOverflowed = true ∧ p'.any chunk = false)
    (he : p'.any endsOverflow = p.any endsOverflow ∧ p'.any endsSuccess = p.any endsSuccess)
    (hok : ∀ x, p' = some x → x.Ok sizeOf m)
    (ho : ∀ o, p' = some (.completing o) → m.overflowed = o)
    (hx : ∀ s T i last, p' = some (.migrating s T i last) →
      ∃ T i, p = some (.migrating s T i last)) :
    RunInv sizeOf m (Function.update runs t p') := by
  have e := tallies_update runs t p'
  rw [ht] at e
  obtain ⟨ew, ec, eb, ek, es, eo, ez⟩ := e
  have hover : Over m runs → Over m (Function.update runs t p') := fun ⟨h₁, h₀⟩ => by
    refine ⟨h₁, ?_⟩
    have hp : p.any busy = false := by
      rw [← ht]
      cases hr : runs t with
      | none => rfl
      | some x => exact tally_eq_zero.1 h₀ t x hr
    have hp' : p'.any busy = false := by
      cases hq : p'.any busy
      · rfl
      · exact absurd (hb hq) (by simp [hp])
    rw [hp, hp'] at eb
    exact eb.trans h₀
  obtain ⟨cw, cc, cle, clt, cz, ce, co⟩ := h.census
  refine ⟨⟨?_, fun hpos => ?_, ?_, ?_, ?_, ce, ?_⟩, fun u x hu => ?_, fun u o hu => ?_, h.aligned,
    fun u w s T T' i i' last hu hv => ?_, fun hn => ⟨hover (h.handed hn).1, (h.handed hn).2⟩⟩
  · rw [hw] at ew
    omega
  · refine hover (cc ?_)
    cases hq : p'.any completer with
    | false =>
      rw [hq] at ec
      simp only [Bool.toNat_false] at ec
      omega
    | true =>
      have := hc hq
      rw [← ht] at this
      obtain ⟨x, hx, hcx⟩ := (Option.any_eq_true _ _).1 this
      exact tally_pos hx hcx
  · rcases hk with ⟨hk, -⟩ | ⟨-, -, hk⟩
    · rw [hk] at ek
      omega
    · rw [hk, Bool.toNat_false] at ek
      omega
  · intro hlt
    rcases hk with ⟨hk, hs⟩ | ⟨hs, hs', hk⟩
    · rw [hk] at ek
      rw [hs] at es
      exact (clt (by omega)).imp_right fun hp => by omega
    · rw [hs, hs'] at es
      simp only [Bool.toNat_false, Bool.toNat_true] at es
      exact .inr (by omega)
  · rw [he.2] at ez
    exact fun hu => (cz hu).imp_right fun hp => by omega
  · rw [he.1] at eo
    exact fun hu => (co hu).imp_right fun hp => by omega
  · rcases ThreadSum.update_eq_some_iff.1 hu with ⟨-, hp⟩ | ⟨-, hu⟩
    · exact hok x hp
    · exact h.ok u x hu
  · rcases ThreadSum.update_eq_some_iff.1 hu with ⟨-, hp⟩ | ⟨-, hu⟩
    · exact ho o hp
    · exact h.outcome u o hu
  · -- A thread in `migrateRange` stays in its chunk.
    have hold : ∀ {u T i}, Function.update runs t p' u = some (.migrating s T i last) →
        ∃ T i, runs u = some (.migrating s T i last) := fun hu => by
      rcases ThreadSum.update_eq_some_iff.1 hu with ⟨rfl, hp⟩ | ⟨-, hu⟩
      · rw [ht]
        exact hx _ _ _ _ hp
      · exact ⟨_, _, hu⟩
    obtain ⟨_, _, hu⟩ := hold hu
    obtain ⟨_, _, hv⟩ := hold hv
    exact h.exclusive u w s _ _ _ _ last hu hv

/-- A run begins. -/
theorem RunInv.enter (h : RunInv sizeOf m runs) (ht : runs t = none) :
    RunInv sizeOf m (Function.update runs t (some (.run .enter))) :=
  h.move ht rfl id id (.inl ⟨rfl, rfl⟩) ⟨rfl, rfl⟩
    (fun _ hx => by cases hx; trivial) (fun _ hx => by cases hx) fun _ _ _ _ hx => by cases hx

/-- A completion ends. -/
theorem RunInv.complete (h : RunInv sizeOf m runs) {o : Bool} (ht : runs t = some (.completing o)) :
    RunInv sizeOf m (Function.update runs t none) :=
  h.move ht rfl id (fun hx => by cases hx) (.inl ⟨rfl, rfl⟩) ⟨rfl, rfl⟩
    (fun _ hx => by cases hx) (fun _ hx => by cases hx) fun _ _ _ _ hx => by cases hx

end Move

end FkProf.ConcurrentMap
