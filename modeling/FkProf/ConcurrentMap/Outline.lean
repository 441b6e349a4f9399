import FkProf.ConcurrentMap.Provider
import FkProf.ConcurrentMap.Run

/-!
# Tables and the migrations between them

The outline of the map: its tables and migrations, without the cells. At any
time there is one table to use, the last to be published, and at most one
migration under way, the last one: its sources are that table and the tables
left over by migrations that have overflowed, its destination is yet to be
published. The coordinator of the table leads to the migration, and a thread
that is in another one finds it ended and leaves it.

This is so as long as no thread comes too late to a migration (`Outline.OnTime`):
a thread that has found the migration going on adds itself to its workers,
line 405, before the last of them has left.

* `Layout`: what is so of the outline alone;
* `Pc.Ok`: what a thread knows of the outline;
* `Coordination`: the invariant of the outline and the threads.
-/

namespace FkProf.ConcurrentMap

variable {Tid Key : Type*}

/-- The tables and the migrations between them, without the cells. -/
structure Outline (Tid : Type*) where
  size : TableId → ℕ
  mutex : TableId → Option Tid
  coordinator : TableId → JobCoordinator
  nTables : ℕ
  jobs : JobId → Migration
  nJobs : ℕ
  current : TableId
  latest : TableId
  retired : List TableId

/-- The outline of the shared memory. -/
def Shared.outline (S : Shared Tid) : Outline Tid where
  size T := (S.tables T).size
  mutex T := (S.tables T).mutex
  coordinator T := (S.tables T).coordinator
  nTables := S.nTables
  jobs := S.jobs
  nJobs := S.nJobs
  current := S.current
  latest := S.latest
  retired := S.retired

namespace Outline

variable (o : Outline Tid)

/-- The table is in use, or has been. -/
def Published (T : TableId) : Prop := T = o.latest ∨ T ∈ o.retired

/-- The migration under way: the last one, until its destination is published. -/
def Open (j : JobId) : Prop := j + 1 = o.nJobs ∧ ¬o.Published (o.jobs j).dest

/-- The sources and the destination of the migration under way. -/
structure Sources (j : JobId) : Prop where
  root : (o.jobs j).table 0 = some o.latest
  table : ∀ s < (o.jobs j).sources.length, ∃ T, (o.jobs j).table s = some T
  unpublished : ∀ s T, (o.jobs j).table s = some T → s ≠ 0 → ¬o.Published T
  inj : ∀ s s' T, (o.jobs j).table s = some T → (o.jobs j).table s' = some T → s = s'
  dest_ne : ∀ s, (o.jobs j).table s ≠ some (o.jobs j).dest

/-- The invariant of the outline. -/
structure Layout : Prop where
  current : o.current = o.latest
  published_lt : ∀ T, o.Published T → T < o.nTables
  latest_notMem : o.latest ∉ o.retired
  fresh : ∀ T, ¬o.Published T → o.coordinator T = .null
  retired : ∀ T ∈ o.retired, o.coordinator T = .ended
  null : o.coordinator o.latest = .null → ∀ j, ¬o.Open j
  job : ∀ j, o.coordinator o.latest = .job j → o.Open j
  closed : ∀ j < o.nJobs, o.coordinator o.latest = .job j ∨ (o.jobs j).state = 1
  dest_lt : ∀ j < o.nJobs, (o.jobs j).dest < o.nTables
  source_lt : ∀ j < o.nJobs, ∀ s T, (o.jobs j).table s = some T → T < o.nTables
  sources : ∀ j, o.Open j → o.Sources j
  size : ∀ T, kMigrationChunkSize ∣ o.size T
  size_pos : ∀ T, 0 < o.size T

/-- A thread has come to the migration through the coordinator of the table. -/
structure Joined (root : TableId) (j : JobId) : Prop where
  published : o.Published root
  lt : j < o.nJobs
  lead : o.coordinator root = .job j ∨ (o.jobs j).state = 1

end Outline

/-! ## The threads -/

/-- The completion, after an overflow or not. -/
def CompletePc.overflow : CompletePc → Bool
  | .setVictim | .endCoordinator | .finishLoad | .finishStore _ | .finishDelete _ => false
  | .restartTable | .restartLock _ | .restartGet _ | .restartSet _ | .restartUnlock _ => true

/-- Where a thread is in the run of a migration. -/
def Pc.position (j : JobId) : Pc → Option Position
  | .run _ i pc => if i = j then some (.run pc) else none
  | .migrate _ i s T index last _ => if i = j then some (.migrating s T index last) else none
  | .complete _ i pc => if i = j then some (.completing pc.overflow) else none
  | _ => none

/-- The thread was the last to leave the migration. -/
def Pc.Completes (j : JobId) (pc : Pc) : Prop := (pc.position j).any Position.completer = true

/-- What a thread knows in `migrationStart`. -/
def StartPc.Ok (o : Outline Tid) (t : Tid) (root : TableId) : StartPc → Prop
  | .sample .. | .lock _ => True
  | .get _ | .unlock => o.mutex root = some t
  | .set _ => o.mutex root = some t ∧ o.coordinator root = .null

/-- What a thread knows in the completion of a migration. -/
def CompletePc.Ok (o : Outline Tid) (t : Tid) (root : TableId) (j : JobId) : CompletePc → Prop
  | .setVictim | .endCoordinator | .restartTable => o.coordinator root = .job j
  | .restartLock T => T = root ∧ o.coordinator root = .job j
  | .restartGet T | .restartSet T =>
    T = root ∧ o.coordinator root = .job j ∧ o.mutex root = some t
  | .restartUnlock T => T = root ∧ o.mutex root = some t
  | .finishLoad => o.coordinator root = .ended ∧ root = o.latest ∧ o.Open j
  | .finishStore old => o.coordinator root = .ended ∧ root = o.latest ∧ o.Open j ∧ old = root
  | .finishDelete old => old ∈ o.retired

/-- What a thread knows of the outline. -/
def Pc.Ok (o : Outline Tid) (t : Tid) : Pc → Prop
  | .loadCurrent | .ret _ | .crashed => True
  | .insert root _ | .find root _ | .findNext root _ | .getValue root _ | .removeLoad root _
  | .removeCas root .. | .participate root _ | .await root _ => o.Published root
  | .start root pc => o.Published root ∧ pc.Ok o t root
  | .run root j pc => o.Joined root j ∧
      (pc = .loadOverflowed → o.coordinator root = .job j ∧ (o.jobs j).state = 1)
  | .migrate root j .. => o.Joined root j
  | .complete root j pc => o.Joined root j ∧ (o.jobs j).state = 1 ∧ pc.Ok o t root j

/-- Where the threads are in the runs of a migration. -/
def runs (pcs : Tid → Option Pc) (j : JobId) (t : Tid) : Option Position :=
  (pcs t).bind (Pc.position j)

/-- Where the threads are. -/
def State.pcs (σ : State Tid Key) (t : Tid) : Option Pc := (σ.calls t).map Call.pc

/-- The invariant of the outline and the threads. -/
structure Coordination [Fintype Tid] (o : Outline Tid) (pcs : Tid → Option Pc) : Prop where
  layout : o.Layout
  ok : ∀ t pc, pcs t = some pc → pc.Ok o t
  runs : ∀ j < o.nJobs, RunInv o.size (o.jobs j) (runs pcs j)
  /-- One thread is the last to leave. -/
  completer : ∀ t u pc pc' j, pcs t = some pc → pcs u = some pc' → pc.Completes j →
    pc'.Completes j → t = u

/-! ## What a thread knows outlasts the steps of the others -/

section Mono

variable {o o' : Outline Tid} {t u : Tid} {pc pc' : Pc} {j : JobId} {root : TableId}

theorem Outline.Joined.mono (h : o.Joined root j) (hp : o'.Published root)
    (hn : o.nJobs ≤ o'.nJobs) (hs : (o.jobs j).state = 1 → (o'.jobs j).state = 1)
    (hc : o.coordinator root = .job j → o'.coordinator root = .job j ∨ (o.jobs j).state = 1) :
    o'.Joined root j where
  published := hp
  lt := h.lt.trans_le hn
  lead := h.lead.elim (fun hl => (hc hl).imp_right hs) fun hl => .inr (hs hl)

/-- The coordinator of a table changes: it leads to another migration than the one
    that the thread completes, or the thread does not have the mutex. -/
def Outline.Redirects (o : Outline Tid) (u : Tid) (pc : Pc) (root : TableId) : Prop :=
  (∃ j, o.coordinator root = .job j ∧ (o.jobs j).state = 1 ∧ ¬pc.Completes j) ∨
    o.coordinator root = .null ∧ o.mutex root ≠ some u

theorem Pc.Ok.mono (hok : pc.Ok o u) (hp : ∀ T, o.Published T → o'.Published T)
    (hn : o.nJobs ≤ o'.nJobs)
    (hs : ∀ j < o.nJobs, (o.jobs j).state = 1 → (o'.jobs j).state = 1)
    (hm : ∀ T, o.Published T → o.mutex T = some u → o'.mutex T = some u)
    (hc : ∀ T, o.Published T → o'.coordinator T = o.coordinator T ∨ o.Redirects u pc T)
    (hr : ∀ T ∈ o.retired, T ∈ o'.retired)
    (hf : ∀ j, pc.Completes j → o.coordinator o.latest = .ended → o.Open j →
      o'.latest = o.latest ∧ o'.Open j) : pc.Ok o' u := by
  have hjoin : ∀ {root j}, o.Joined root j → o'.Joined root j := fun {root j} h =>
    h.mono (hp _ h.published) hn (hs _ h.lt) fun hl => by
      rcases hc root h.published with he | ⟨i, hi, h₁, -⟩ | ⟨hi, -⟩
      · exact .inl (he.trans hl)
      · rw [hl] at hi
        cases hi
        exact .inr h₁
      · rw [hl] at hi
        cases hi
  have hlead : ∀ {root j}, o.Published root → pc.Completes j → o.coordinator root = .job j →
      o'.coordinator root = .job j := fun {root j} hroot hcomp hl => by
    rcases hc root hroot with he | ⟨i, hi, -, h₁⟩ | ⟨hi, -⟩
    · exact he.trans hl
    · rw [hl] at hi
      cases hi
      exact absurd hcomp h₁
    · rw [hl] at hi
      cases hi
  cases pc with
  | loadCurrent | ret | crashed => trivial
  | insert | find | findNext | getValue | removeLoad | removeCas | participate | await =>
    exact hp _ hok
  | start root pc =>
    refine ⟨hp _ hok.1, ?_⟩
    have h₂ := hok.2
    cases pc with
    | sample | lock => trivial
    | get | unlock => exact hm _ hok.1 h₂
    | set =>
      refine ⟨hm _ hok.1 h₂.1, ?_⟩
      rcases hc root hok.1 with he | ⟨i, hi, -⟩ | ⟨-, hi⟩
      · exact he.trans h₂.2
      · rw [h₂.2] at hi
        cases hi
      · exact absurd h₂.1 hi
  | run root j pc =>
    refine ⟨hjoin hok.1, fun hpc => ?_⟩
    obtain ⟨hl, h₁⟩ := hok.2 hpc
    subst hpc
    exact ⟨hlead hok.1.published (by simp [Completes, position, Position.completer]) hl,
      hs _ hok.1.lt h₁⟩
  | migrate root j => exact hjoin hok
  | complete root j pc =>
    obtain ⟨hj, h₁, h₂⟩ := hok
    have hcomp : (Pc.complete root j pc).Completes j := by
      simp [Completes, position, Position.completer]
    refine ⟨hjoin hj, hs _ hj.lt h₁, ?_⟩
    have hend : o.coordinator root = .ended → o'.coordinator root = .ended := fun he => by
      rcases hc root hj.published with h | ⟨i, hi, -⟩ | ⟨hi, -⟩
      · exact h.trans he
      · rw [he] at hi
        cases hi
      · rw [he] at hi
        cases hi
    cases pc with
    | setVictim | endCoordinator | restartTable => exact hlead hj.published hcomp h₂
    | restartLock => exact ⟨h₂.1, hlead hj.published hcomp h₂.2⟩
    | restartGet | restartSet =>
      exact ⟨h₂.1, hlead hj.published hcomp h₂.2.1, hm _ hj.published h₂.2.2⟩
    | restartUnlock => exact ⟨h₂.1, hm _ hj.published h₂.2⟩
    | finishLoad =>
      obtain ⟨he, hl, ho⟩ := h₂
      obtain ⟨hl', ho'⟩ := hf j hcomp (hl ▸ he) ho
      exact ⟨hend he, hl.trans hl'.symm, ho'⟩
    | finishStore =>
      obtain ⟨he, hl, ho, hold⟩ := h₂
      obtain ⟨hl', ho'⟩ := hf j hcomp (hl ▸ he) ho
      exact ⟨hend he, hl.trans hl'.symm, ho', hold⟩
    | finishDelete => exact hr _ h₂

end Mono

/-! ## Changes of the outline -/

section Change

namespace Outline

variable {o : Outline Tid} (T : TableId) (x : Option Tid) {j : JobId} {m : Migration}

def setMutex (o : Outline Tid) (T : TableId) (x : Option Tid) : Outline Tid :=
  { o with mutex := Function.update o.mutex T x }

def setCoordinator (o : Outline Tid) (T : TableId) (c : JobCoordinator) : Outline Tid :=
  { o with coordinator := Function.update o.coordinator T c }

def setJob (o : Outline Tid) (j : JobId) (m : Migration) : Outline Tid :=
  { o with jobs := Function.update o.jobs j m }

/-- A new table. -/
def newTable (o : Outline Tid) (n : ℕ) : Outline Tid where
  size := Function.update o.size o.nTables n
  mutex := Function.update o.mutex o.nTables none
  coordinator := Function.update o.coordinator o.nTables .null
  nTables := o.nTables + 1
  jobs := o.jobs
  nJobs := o.nJobs
  current := o.current
  latest := o.latest
  retired := o.retired

def newJob (o : Outline Tid) (m : Migration) : Outline Tid :=
  { o.setJob o.nJobs m with nJobs := o.nJobs + 1 }

/-- The table comes into use. -/
def publish (o : Outline Tid) (T : TableId) : Outline Tid :=
  { o with current := T, latest := T, retired := o.latest :: o.retired }

/-- The migration goes on. -/
structure Keeps (m m' : Migration) : Prop where
  grows : m.Grows m'
  dest : m'.dest = m.dest
  closed : m.state = 1 → m'.state = 1

theorem Sources.of_eq {o' : Outline Tid} (h : o.Sources j) (hl : o'.latest = o.latest)
    (hr : o'.retired = o.retired) (hj : Keeps (o.jobs j) (o'.jobs j)) : o'.Sources j where
  root := by rw [hj.grows.table, hl, h.root]
  table s hs := by
    rw [hj.grows.table]
    exact h.table s (hj.grows.length ▸ hs)
  unpublished s U hs := by
    rw [hj.grows.table] at hs
    rw [Published, hl, hr]
    exact h.unpublished s U hs
  inj s s' U hs hs' := by
    rw [hj.grows.table] at hs hs'
    exact h.inj s s' U hs hs'
  dest_ne s := by
    rw [hj.grows.table, hj.dest]
    exact h.dest_ne s

theorem Layout.setMutex (h : o.Layout) : (o.setMutex T x).Layout where
  current := h.current
  published_lt := h.published_lt
  latest_notMem := h.latest_notMem
  fresh := h.fresh
  retired := h.retired
  null := h.null
  job := h.job
  closed := h.closed
  dest_lt := h.dest_lt
  source_lt := h.source_lt
  sources i hi := (h.sources i hi).of_eq rfl rfl ⟨.refl, rfl, id⟩
  size := h.size
  size_pos := h.size_pos

theorem Open.lt (h : o.Open j) : j < o.nJobs := Nat.lt_of_succ_le h.1.le

@[simp] theorem setJob_jobs : (o.setJob j m).jobs = Function.update o.jobs j m := rfl

@[simp] theorem newTable_size (n : ℕ) :
    (o.newTable n).size = Function.update o.size o.nTables n := rfl

theorem open_setJob {i : JobId} (hd : m.dest = (o.jobs j).dest) :
    (o.setJob j m).Open i ↔ o.Open i := by
  by_cases hi : i = j
  · subst hi
    simp only [Open, setJob, Function.update_self, hd]
    rfl
  · simp only [Open, setJob, Function.update_of_ne hi]
    rfl

theorem keeps_setJob (hj : Keeps (o.jobs j) m) (i : JobId) :
    Keeps (o.jobs i) ((o.setJob j m).jobs i) := by
  by_cases hi : i = j
  · subst hi
    rwa [setJob_jobs, Function.update_self]
  · rw [setJob_jobs, Function.update_of_ne hi]
    exact ⟨.refl, rfl, id⟩

theorem Layout.setJob (h : o.Layout) (hj : Keeps (o.jobs j) m) : (o.setJob j m).Layout where
  current := h.current
  published_lt := h.published_lt
  latest_notMem := h.latest_notMem
  fresh := h.fresh
  retired := h.retired
  null hc i hi := h.null hc i ((open_setJob hj.dest).1 hi)
  job i hi := (open_setJob hj.dest).2 (h.job i hi)
  closed i hi := (h.closed i hi).imp_right (keeps_setJob hj i).closed
  dest_lt i hi := (keeps_setJob hj i).dest ▸ h.dest_lt i hi
  source_lt i hi s U hs := h.source_lt i hi s U ((keeps_setJob hj i).grows.table s ▸ hs)
  sources i hi := (h.sources i ((open_setJob hj.dest).1 hi)).of_eq rfl rfl (keeps_setJob hj i)
  size := h.size
  size_pos := h.size_pos

/-- The migration of a table that has a coordinator. -/
theorem Layout.root_eq (h : o.Layout) {root : TableId} (hp : o.Published root)
    (hc : o.coordinator root ≠ .ended) : root = o.latest :=
  hp.resolve_right fun hr => hc (h.retired root hr)

/-- A migration begins or ends. -/
theorem Layout.setCoordinator (h : o.Layout) {c : JobCoordinator} (hnull : c ≠ .null)
    (hjob : ∀ i, c = .job i → o.Open i)
    (hclosed : ∀ i < o.nJobs, c = .job i ∨ (o.jobs i).state = 1) :
    (o.setCoordinator o.latest c).Layout := by
  have hc : (o.setCoordinator o.latest c).coordinator o.latest = c := Function.update_self ..
  have hne : ∀ T ≠ o.latest,
      (o.setCoordinator o.latest c).coordinator T = o.coordinator T := fun T hT =>
    Function.update_of_ne hT ..
  exact {
    current := h.current
    published_lt := h.published_lt
    latest_notMem := h.latest_notMem
    fresh := fun T hT => by
      rw [hne T fun he => hT (.inl he)]
      exact h.fresh T hT
    retired := fun T hT => by
      rw [hne T fun he => h.latest_notMem (he ▸ hT)]
      exact h.retired T hT
    null := fun he => absurd (hc.symm.trans he) hnull
    job := fun i hi => hjob i (hc.symm.trans hi)
    closed := fun i hi => (hclosed i hi).imp_left fun hl => hc.trans hl
    dest_lt := h.dest_lt
    source_lt := h.source_lt
    sources := fun i hi => (h.sources i hi).of_eq rfl rfl ⟨.refl, rfl, id⟩
    size := h.size
    size_pos := h.size_pos }

theorem Layout.newTable (h : o.Layout) {n : ℕ} (hn : kMigrationChunkSize ∣ n)
    (hpos : 0 < n) : (o.newTable n).Layout := by
  have hne : ∀ T, o.Published T → (o.newTable n).coordinator T = o.coordinator T := fun T hT =>
    Function.update_of_ne (h.published_lt T hT).ne ..
  exact {
    current := h.current
    published_lt := fun T hT => (h.published_lt T hT).trans (Nat.lt_succ_self _)
    latest_notMem := h.latest_notMem
    fresh := fun T hT => by
      by_cases he : T = o.nTables
      · rw [he]
        exact Function.update_self ..
      · exact (Function.update_of_ne he ..).trans (h.fresh T hT)
    retired := fun T hT => by
      rw [hne T (.inr hT)]
      exact h.retired T hT
    null := fun he => h.null ((hne o.latest (.inl rfl)).symm.trans he)
    job := fun i hi => h.job i ((hne o.latest (.inl rfl)).symm.trans hi)
    closed := fun i hi => (h.closed i hi).imp_left fun hl => (hne o.latest (.inl rfl)).trans hl
    dest_lt := fun i hi => (h.dest_lt i hi).trans (Nat.lt_succ_self _)
    source_lt := fun i hi s T hs => (h.source_lt i hi s T hs).trans (Nat.lt_succ_self _)
    sources := fun i hi => (h.sources i hi).of_eq rfl rfl ⟨.refl, rfl, id⟩
    size := fun T => by
      by_cases he : T = o.nTables
      · rw [he, newTable_size, Function.update_self]
        exact hn
      · rw [newTable_size, Function.update_of_ne he]
        exact h.size T
    size_pos := fun T => by
      by_cases he : T = o.nTables
      · rw [he, newTable_size, Function.update_self]
        exact hpos
      · rw [newTable_size, Function.update_of_ne he]
        exact h.size_pos T }

/-- A migration begins, and the others are closed, whatever has been done to them. -/
theorem Layout.newJob (h : o.Layout) {jobs : JobId → Migration}
    (hm : ({ o with jobs := jobs }.newJob m).Open o.nJobs)
    (hs : ({ o with jobs := jobs }.newJob m).Sources o.nJobs)
    (hd : m.dest < o.nTables) (hlt : ∀ s T, m.table s = some T → T < o.nTables)
    (hdest : ∀ i < o.nJobs, (jobs i).dest < o.nTables)
    (htable : ∀ i < o.nJobs, ∀ s T, (jobs i).table s = some T → T < o.nTables)
    (hclosed : ∀ i < o.nJobs, (jobs i).state = 1) :
    (({ o with jobs := jobs }.newJob m).setCoordinator o.latest (.job o.nJobs)).Layout := by
  have hc : (({ o with jobs := jobs }.newJob m).setCoordinator o.latest
      (.job o.nJobs)).coordinator o.latest = .job o.nJobs := Function.update_self ..
  have hne : ∀ T ≠ o.latest, (({ o with jobs := jobs }.newJob m).setCoordinator o.latest
      (.job o.nJobs)).coordinator T = o.coordinator T := fun T hT => Function.update_of_ne hT ..
  have hnew : ({ o with jobs := jobs }.newJob m).jobs o.nJobs = m := Function.update_self ..
  have hold : ∀ i < o.nJobs, ({ o with jobs := jobs }.newJob m).jobs i = jobs i := fun i hi =>
    Function.update_of_ne hi.ne ..
  exact {
    current := h.current
    published_lt := h.published_lt
    latest_notMem := h.latest_notMem
    fresh := fun T hT => by
      rw [hne T fun he => hT (.inl he)]
      exact h.fresh T hT
    retired := fun T hT => by
      rw [hne T fun he => h.latest_notMem (he ▸ hT)]
      exact h.retired T hT
    null := fun he => nomatch hc.symm.trans he
    job := fun i hi => by
      cases hc.symm.trans hi
      exact hm
    closed := fun i hi => by
      rcases Nat.lt_succ_iff_lt_or_eq.1 hi with hi | rfl
      · exact .inr ((congrArg Migration.state (hold i hi)).trans (hclosed i hi))
      · exact .inl hc
    dest_lt := fun i hi => by
      rcases Nat.lt_succ_iff_lt_or_eq.1 hi with hi | rfl
      · exact (congrArg Migration.dest (hold i hi)).trans_lt (hdest i hi)
      · exact (congrArg Migration.dest hnew).trans_lt hd
    source_lt := fun i hi s T hT => by
      rcases Nat.lt_succ_iff_lt_or_eq.1 hi with hi | rfl
      · exact htable i hi s T ((congrArg (Migration.table · s) (hold i hi)).symm.trans hT)
      · exact hlt s T ((congrArg (Migration.table · s) hnew).symm.trans hT)
    sources := fun i hi => by
      have hij : i = o.nJobs := Nat.succ_injective hi.1
      rw [hij]
      exact hs.of_eq rfl rfl ⟨.refl, rfl, id⟩
    size := h.size
    size_pos := h.size_pos }

/-- The migration to a table that has come into use is over. -/
theorem not_open_publish {i : JobId} (hj : o.Open j) : ¬(o.publish (o.jobs j).dest).Open i :=
  fun hi => by
    have hij : i = j := Nat.succ_injective (hi.1.trans hj.1.symm)
    exact hi.2 (.inl (by rw [hij]; rfl))

/-- A table comes into use, after the migration to it. -/
theorem Layout.publish (h : o.Layout) (hc : o.coordinator o.latest = .ended) (hj : o.Open j) :
    (o.publish (o.jobs j).dest).Layout := by
  have hp : ∀ T, (o.publish (o.jobs j).dest).Published T ↔ T = (o.jobs j).dest ∨ o.Published T :=
    fun T => by simp only [Published, Outline.publish, List.mem_cons]
  exact {
    current := rfl
    published_lt := fun T hT => by
      rcases (hp T).1 hT with rfl | hT
      · exact h.dest_lt j hj.lt
      · exact h.published_lt T hT
    latest_notMem := fun hm => hj.2 ((List.mem_cons.1 hm).imp id id)
    fresh := fun T hT => h.fresh T fun hT' => hT ((hp T).2 (.inr hT'))
    retired := fun T hT => by
      rcases List.mem_cons.1 hT with rfl | hT
      · exact hc
      · exact h.retired T hT
    null := fun _ _ => not_open_publish hj
    job := fun i hi => by
      rw [Outline.publish, h.fresh _ hj.2] at hi
      cases hi
    closed := fun i hi => .inr ((h.closed i hi).resolve_left (by simp [hc]))
    dest_lt := h.dest_lt
    source_lt := h.source_lt
    sources := fun i hi => absurd hi (not_open_publish hj)
    size := h.size
    size_pos := h.size_pos }

end Outline

end Change

end FkProf.ConcurrentMap
