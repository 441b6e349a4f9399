import FkProf.ConcurrentMap.Outline

/-!
# Migrations follow one another

In every run in which no thread comes too late to a migration, there is one
migration at a time, and what the threads know of the outline remains true.

* `OnTime`: the steps that do not add a thread to a migration that the last
  worker has left;
* `Coordination.step`: what a step of one thread has to keep;
* `Coordination.next`: every step of the map that is on time keeps the invariant.
-/

namespace FkProf.ConcurrentMap

variable {Tid Key : Type*} [Fintype Tid] [DecidableEq Tid] {o o' : Outline Tid}
  {pcs : Tid → Option Pc} {t : Tid} {p p' : Option Pc} {pc pc' : Pc} {j : JobId}
  {root : TableId}

/-! ## Moves of one thread -/

section Moves

omit [Fintype Tid] in
theorem runs_update (pcs : Tid → Option Pc) (t : Tid) (p : Option Pc) (j : JobId) :
    runs (Function.update pcs t p) j =
      Function.update (runs pcs j) t (p.bind (Pc.position j)) := by
  funext u
  by_cases hu : u = t
  · subst hu
    simp [runs]
  · simp [runs, hu]

omit [Fintype Tid] [DecidableEq Tid] in
/-- The last thread to leave a migration leaves it closed. -/
theorem Pc.Ok.closed (hok : pc.Ok o t) (hc : pc.Completes j) : (o.jobs j).state = 1 := by
  cases pc <;> simp only [Completes, position, Option.any_none, Bool.false_eq_true] at hc
  case run root i pc =>
    split_ifs at hc with hij
    · subst hij
      cases pc <;> simp [Position.completer] at hc
      exact (hok.2 rfl).2
    · simp at hc
  case migrate =>
    split_ifs at hc <;> simp [Position.completer] at hc
  case complete root i pc =>
    split_ifs at hc with hij
    · exact hij ▸ hok.2.1
    · simp at hc

/-- What a step of one thread has to keep. -/
theorem Coordination.step (h : Coordination o pcs) (ht : pcs t = p) (hl : o'.Layout)
    (hok : ∀ pc', p' = some pc' → pc'.Ok o' t)
    (hother : ∀ u pc, u ≠ t → pcs u = some pc → pc.Ok o' u)
    (hruns : ∀ j < o'.nJobs, RunInv o'.size (o'.jobs j)
      (Function.update (FkProf.ConcurrentMap.runs pcs j) t (p'.bind (Pc.position j))))
    (hcomp : ∀ j pc', p' = some pc' → pc'.Completes j →
      (∃ pc, p = some pc ∧ pc.Completes j) ∨ (o.jobs j).state ≠ 1) :
    Coordination o' (Function.update pcs t p') where
  layout := hl
  ok u pc hu := by
    rcases ThreadSum.update_eq_some_iff.1 hu with ⟨rfl, hp⟩ | ⟨hne, hu⟩
    · exact hok pc hp
    · exact hother u pc hne hu
  runs j hj := by
    rw [runs_update]
    exact hruns j hj
  completer := by
    -- Whoever becomes the last one finds nobody else there.
    have hnew : ∀ {u pc pc' j}, p' = some pc' → pc'.Completes j → u ≠ t → pcs u = some pc →
        ¬pc.Completes j := fun {u pc pc' j} hp hc hu hpc hc' => by
      rcases hcomp j pc' hp hc with ⟨q, hq, hqc⟩ | hs
      · exact hu (h.completer u t pc q j hpc (ht.trans hq) hc' hqc)
      · exact hs ((h.ok u pc hpc).closed hc')
    intro u v pc pc' j hu hv hc hc'
    rcases ThreadSum.update_eq_some_iff.1 hu with ⟨rfl, hp⟩ | ⟨hu, hpu⟩ <;>
      rcases ThreadSum.update_eq_some_iff.1 hv with ⟨rfl, hq⟩ | ⟨hv, hpv⟩
    · rfl
    · exact absurd hc' (hnew hp hc hv hpv)
    · exact absurd hc (hnew hq hc' hu hpu)
    · exact h.completer u v pc pc' j hpu hpv hc hc'

/-- A thread moves without touching the outline. -/
theorem Coordination.move (h : Coordination o pcs) (ht : pcs t = p)
    (hok : ∀ pc', p' = some pc' → pc'.Ok o t)
    (hruns : ∀ j < o.nJobs, RunInv o.size (o.jobs j)
      (Function.update (FkProf.ConcurrentMap.runs pcs j) t (p'.bind (Pc.position j))))
    (hcomp : ∀ j pc', p' = some pc' → pc'.Completes j → ∃ pc, p = some pc ∧ pc.Completes j) :
    Coordination o (Function.update pcs t p') :=
  h.step ht h.layout hok (fun u pc _ hu => h.ok u pc hu) hruns
    fun j pc' hp hc => .inl (hcomp j pc' hp hc)

omit [Fintype Tid] [DecidableEq Tid] in
theorem runs_eq (ht : pcs t = p) (j : JobId) :
    FkProf.ConcurrentMap.runs pcs j t = p.bind (Pc.position j) := by
  rw [runs, ht]

/-- A thread that stays where it is in the runs. -/
theorem Coordination.runs_same (h : Coordination o pcs) (ht : pcs t = p)
    (hp : ∀ j, p'.bind (Pc.position j) = p.bind (Pc.position j)) (hj : j < o.nJobs) :
    RunInv o.size (o.jobs j)
      (Function.update (FkProf.ConcurrentMap.runs pcs j) t (p'.bind (Pc.position j))) := by
  rw [hp, ← runs_eq ht, Function.update_eq_self]
  exact h.runs j hj

/-- A thread goes on elsewhere. -/
theorem Coordination.quiet (h : Coordination o pcs) (ht : pcs t = p)
    (hok : ∀ pc', p' = some pc' → pc'.Ok o t)
    (hp : ∀ j, p'.bind (Pc.position j) = p.bind (Pc.position j)) :
    Coordination o (Function.update pcs t p') := by
  refine h.move ht hok (fun j hj => h.runs_same ht hp hj) fun j pc' hpc hc => ?_
  have hj := hp j
  rw [hpc] at hj
  rw [Pc.Completes, show pc'.position j = _ from hj] at hc
  cases p with
  | none => cases hc
  | some pc => exact ⟨pc, rfl, hc⟩

/-- A thread that is in the run of one migration at most. -/
theorem Coordination.runs_one (h : Coordination o pcs) (ht : pcs t = p) {i : JobId}
    (hp : ∀ j ≠ i, p.bind (Pc.position j) = none) (hp' : ∀ j ≠ i, p'.bind (Pc.position j) = none)
    (hi : RunInv o.size (o.jobs i)
      (Function.update (FkProf.ConcurrentMap.runs pcs i) t (p'.bind (Pc.position i))))
    (hj : j < o.nJobs) :
    RunInv o.size (o.jobs j)
      (Function.update (FkProf.ConcurrentMap.runs pcs j) t (p'.bind (Pc.position j))) := by
  by_cases hij : j = i
  · exact hij ▸ hi
  · rw [hp' j hij, ← hp j hij, ← runs_eq ht, Function.update_eq_self]
    exact h.runs j hj

end Moves

/-! ## Runs of a migration -/

section Runs

/-- After a step of `run`. -/
def Pc.afterRun (root : TableId) (j : JobId) : RunNext → Pc
  | .goto pc => .run root j pc
  | .migrateRange s T index last => .migrate root j s T index last .loadHash
  | .complete overflow => .complete root j (if overflow then .restartTable else .setVictim)
  | .done => .participate root (.job j)
  | .crash => .crashed

theorem position_afterRun (root : TableId) (j : JobId) (n : RunNext) :
    (Pc.afterRun root j n).position j = n.position := by
  cases n with
  | complete overflow => cases overflow <;> simp [Pc.afterRun, Pc.position, RunNext.position,
      CompletePc.overflow]
  | _ => simp [Pc.afterRun, Pc.position, RunNext.position]

theorem position_afterRun_of_ne {i : JobId} (hij : i ≠ j) (n : RunNext) :
    (Pc.afterRun root j n).position i = none := by
  cases n <;> simp [Pc.afterRun, Pc.position, Ne.symm hij]

theorem runStep_dest (sizeOf : TableId → ℕ) (m : Migration) (pc : RunPc) :
    (m.runStep sizeOf pc).1.dest = m.dest := by
  cases pc with
  | claim s T => cases T <;> rfl
  | _ => rfl

/-- The step does not add the thread to a migration that the last worker has left. -/
def RunPc.OnTime (m : Migration) (pc : RunPc) : Prop := pc = .increment → m.state ≠ 1

omit [DecidableEq Tid] in
/-- A closed migration remains closed. -/
theorem RunInv.closed_step {m : Migration} {sizeOf : TableId → ℕ} {runs : Tid → Option Position}
    {pc : RunPc} (h : RunInv sizeOf m runs) (ht : runs t = some (.run pc)) (hon : pc.OnTime m)
    (hs : m.state = 1) : (m.runStep sizeOf pc).1.state = 1 := by
  have hworker : (Position.run pc).worker = true → False := fun hw => by
    have := h.two_le_state ht hw
    omega
  cases pc with
  | enter | source | check | loadOverflowed => exact hs
  | claim s T => cases T <;> exact hs
  | finished | setOverflowed => exact hs
  | increment => exact absurd hs (hon rfl)
  | successEnd | overflowEnd | leave => exact (hworker rfl).elim

/-- The last worker to leave closes the migration. -/
theorem RunInv.closed_of_last {m : Migration} {sizeOf : TableId → ℕ}
    {runs : Tid → Option Position} (h : RunInv sizeOf m runs) (ht : runs t = some (.run .leave))
    (hs : m.state ≤ 3) : m.state = 3 := by
  have h₁ := (h.ended_of_last ht hs).1
  have h₂ := h.two_le_state ht rfl
  simp only [Migration.Ended] at h₁
  omega

theorem leave_of_last {m : Migration} {sizeOf : TableId → ℕ} {pc : RunPc}
    (hn : (m.runStep sizeOf pc).2 = .goto .loadOverflowed) : pc = .leave ∧ m.state ≤ 3 := by
  cases pc with
  | leave =>
    simp only [Migration.runStep] at hn
    split_ifs at hn with hs
    exact ⟨rfl, by omega⟩
  | claim s T =>
    cases T with
    | none => cases hn
    | some T =>
      simp only [Migration.runStep] at hn
      split_ifs at hn
      cases hn
  | enter =>
    simp only [Migration.runStep] at hn
    split_ifs at hn
    cases hn
  | source | check | finished =>
    simp only [Migration.runStep] at hn
    split_ifs at hn
    all_goals cases hn
  | increment | setOverflowed | overflowEnd | successEnd | loadOverflowed => cases hn

theorem loadOverflowed_of_complete {m : Migration} {sizeOf : TableId → ℕ} {pc : RunPc}
    {overflow : Bool} (hn : (m.runStep sizeOf pc).2 = .complete overflow) :
    pc = .loadOverflowed := by
  cases pc with
  | loadOverflowed => rfl
  | claim s T =>
    cases T with
    | none => cases hn
    | some T =>
      simp only [Migration.runStep] at hn
      split_ifs at hn
  | enter | leave =>
    simp only [Migration.runStep] at hn
    split_ifs at hn
  | source | check | finished | increment | setOverflowed | overflowEnd | successEnd => cases hn

/-- A step of a run. -/
theorem Coordination.run {pc : RunPc} (h : Coordination o pcs) (ht : pcs t = some (.run root j pc))
    (hon : pc.OnTime (o.jobs j)) :
    Coordination (o.setJob j ((o.jobs j).runStep o.size pc).1)
      (Function.update pcs t (some (.afterRun root j ((o.jobs j).runStep o.size pc).2))) := by
  obtain ⟨hjoin, hlast⟩ := h.ok t _ ht
  have hR := h.runs j hjoin.lt
  have hrun : FkProf.ConcurrentMap.runs pcs j t = some (.run pc) := by
    simp [FkProf.ConcurrentMap.runs, ht, Pc.position]
  have hkeep : Outline.Keeps (o.jobs j) ((o.jobs j).runStep o.size pc).1 :=
    ⟨hR.grows hrun, runStep_dest .., hR.closed_step hrun hon⟩
  have hstate : ∀ i, (o.jobs i).state = 1 →
      ((o.setJob j ((o.jobs j).runStep o.size pc).1).jobs i).state = 1 := fun i =>
    (Outline.keeps_setJob hkeep i).closed
  have hjoin' : (o.setJob j ((o.jobs j).runStep o.size pc).1).Joined root j :=
    hjoin.mono hjoin.published le_rfl (hstate j) .inl
  refine h.step ht (h.layout.setJob hkeep) (fun pc' hpc' => ?_) (fun u q hu hq => ?_)
    (fun i hi => ?_) (fun i pc' hpc' hc => ?_)
  · cases hpc'
    cases hn : ((o.jobs j).runStep o.size pc).2 with
    | goto pc' =>
      refine ⟨hjoin', fun hpc' => ?_⟩
      subst hpc'
      obtain ⟨rfl, hs⟩ := leave_of_last hn
      have h₃ := hR.closed_of_last hrun hs
      refine ⟨hjoin.lead.resolve_right (by omega), ?_⟩
      rw [Outline.setJob_jobs, Function.update_self]
      show (o.jobs j).state - 2 = 1
      omega
    | migrateRange => exact hjoin'
    | complete overflow =>
      obtain ⟨hl, h₁⟩ := hlast (loadOverflowed_of_complete hn)
      refine ⟨hjoin', hstate j h₁, ?_⟩
      cases overflow <;> exact hl
    | done => exact hjoin.published
    | crash => trivial
  · refine (h.ok u q hq).mono (fun _ => id) le_rfl (fun i _ => hstate i) (fun _ _ => id)
      (fun _ _ => .inl rfl) (fun _ => id) fun i _ _ ho => ⟨rfl, ?_⟩
    exact (Outline.open_setJob hkeep.dest).2 ho
  · by_cases hij : i = j
    · subst hij
      rw [Outline.setJob_jobs, Function.update_self, Option.bind_some, position_afterRun]
      exact hR.step h.layout.size hrun
    · rw [Outline.setJob_jobs, Function.update_of_ne hij, Option.bind_some,
        position_afterRun_of_ne hij]
      have hnone : FkProf.ConcurrentMap.runs pcs i t = none := by
        simp [FkProf.ConcurrentMap.runs, ht, Pc.position, Ne.symm hij]
      rw [← hnone, Function.update_eq_self]
      exact h.runs i hi
  · cases hpc'
    by_cases hij : i = j
    · subst hij
      rw [Pc.Completes, position_afterRun] at hc
      cases hn : ((o.jobs i).runStep o.size pc).2 with
      | goto pc' =>
        rw [hn] at hc
        cases pc' <;> simp [RunNext.position, Position.completer] at hc
        obtain ⟨rfl, hs⟩ := leave_of_last hn
        have := hR.closed_of_last hrun hs
        exact .inr (by omega)
      | complete overflow =>
        refine .inl ⟨_, rfl, ?_⟩
        rw [loadOverflowed_of_complete hn]
        simp [Pc.Completes, Pc.position, Position.completer]
      | migrateRange | done | crash =>
        rw [hn] at hc
        simp [RunNext.position, Position.completer] at hc
    · rw [Pc.Completes, position_afterRun_of_ne hij] at hc
      cases hc

/-- A thread begins to run the migration that it has found in the coordinator. -/
theorem Coordination.enter (h : Coordination o pcs) (ht : pcs t = some pc)
    (hp : o.Published root) (hc : o.coordinator root = .job j)
    (hpos : ∀ i, pc.position i = none) :
    Coordination o (Function.update pcs t (some (.run root j .enter))) := by
  have hj : j < o.nJobs :=
    (h.layout.job j (h.layout.root_eq hp (by simp [hc]) ▸ hc)).lt
  have hnone : FkProf.ConcurrentMap.runs pcs j t = none := by
    rw [runs_eq ht]
    exact hpos j
  refine h.move ht (fun pc' hpc' => ?_) (fun i hi => h.runs_one ht (i := j) ?_ ?_ ?_ hi)
    fun i pc' hpc' hcomp => ?_
  · cases hpc'
    exact ⟨⟨hp, hj, .inl hc⟩, fun hpc => nomatch hpc⟩
  · exact fun i _ => hpos i
  · exact fun i hi => by simp [Pc.position, Ne.symm hi]
  · have hrun := (h.runs j hj).enter hnone
    simpa [Pc.position] using hrun
  · cases hpc'
    by_cases hij : j = i <;> simp [Pc.Completes, Pc.position, hij, Position.completer] at hcomp

variable {s T i i' last : ℕ} {mpc mpc' : MigratePc}

/-- A step in `migrateRange`, at the same cell or the next one. -/
theorem Coordination.migrate (h : Coordination o pcs)
    (ht : pcs t = some (.migrate root j s T i last mpc)) (hi : i ≤ i') (hlt : i' < last) :
    Coordination o (Function.update pcs t (some (.migrate root j s T i' last mpc'))) := by
  have hjoin := h.ok t _ ht
  have hR := h.runs j hjoin.lt
  have hrun : FkProf.ConcurrentMap.runs pcs j t = some (.migrating s T i last) := by
    simp [FkProf.ConcurrentMap.runs, ht, Pc.position]
  refine h.move ht (fun pc' hpc' => ?_) (fun i hi => h.runs_one ht (i := j) ?_ ?_ ?_ hi)
    fun i pc' hpc' hcomp => ?_
  · cases hpc'
    exact hjoin
  · exact fun i hi => by simp [Pc.position, Ne.symm hi]
  · exact fun i hi => by simp [Pc.position, Ne.symm hi]
  · have hmove : RunInv _ _ (Function.update _ t (some (.migrating s T i' last))) :=
      hR.move hrun rfl (fun _ => rfl) (fun hx => by cases hx) (.inl ⟨rfl, rfl⟩) ⟨rfl, rfl⟩ (fun x hx => ?_) (fun _ hx => by cases hx)
      fun _ _ _ _ hx => by cases hx; exact ⟨_, _, rfl⟩
    · simpa [Pc.position] using hmove
    · cases hx
      obtain ⟨h₁, h₂, -, h₄, h₅⟩ := hR.ok t _ hrun
      exact ⟨h₁, h₂, hlt, h₄.trans (by omega), h₅⟩
  · cases hpc'
    by_cases hij : j = i <;> simp [Pc.Completes, Pc.position, hij, Position.completer] at hcomp

/-- A chunk is done with, or the destination has overflowed. -/
theorem Coordination.migrated (h : Coordination o pcs)
    (ht : pcs t = some (.migrate root j s T i last mpc)) (overflow : Bool) :
    Coordination o (Function.update pcs t
      (some (.run root j (if overflow then .setOverflowed else .finished s T)))) := by
  have hjoin := h.ok t _ ht
  have hR := h.runs j hjoin.lt
  have hrun : FkProf.ConcurrentMap.runs pcs j t = some (.migrating s T i last) := by
    simp [FkProf.ConcurrentMap.runs, ht, Pc.position]
  refine h.move ht (fun pc' hpc' => ?_) (fun i hi => h.runs_one ht (i := j) ?_ ?_ ?_ hi)
    fun i pc' hpc' hcomp => ?_
  · cases hpc'
    refine ⟨hjoin, fun hpc => ?_⟩
    cases overflow <;> cases hpc
  · exact fun i hi => by simp [Pc.position, Ne.symm hi]
  · exact fun i hi => by simp [Pc.position, Ne.symm hi]
  · have hok := hR.ok t _ hrun
    have hmove : RunInv _ _ (Function.update _ t
        (some (.run (if overflow then .setOverflowed else .finished s T)))) := hR.move hrun
      (by cases overflow <;> rfl) (by cases overflow <;> simp [Position.busy])
      (by cases overflow <;> simp [Position.completer])
      (by cases overflow <;> simp [Position.chunk, Position.setsOverflowed])
      (by cases overflow <;> simp [Position.endsOverflow, Position.endsSuccess])
      (fun x hx => ?_) (fun _ hx => by cases overflow <;> cases hx)
      fun _ _ _ _ hx => by cases overflow <;> cases hx
    · simpa [Pc.position] using hmove
    · cases overflow <;> cases hx
      · exact ⟨hok.1, hok.2.1⟩
      · trivial
  · cases hpc'
    cases overflow <;> by_cases hij : j = i <;>
      simp [Pc.Completes, Pc.position, hij, Position.completer] at hcomp

end Runs

/-! ## Beginning and completing a migration -/

section Ends

omit [Fintype Tid] [DecidableEq Tid] in
/-- A thread is in the run of a migration that exists. -/
theorem Pc.Ok.position_lt (hok : pc.Ok o t) {x : Position} (hx : pc.position j = some x) :
    j < o.nJobs := by
  cases pc <;> simp only [Pc.position, reduceCtorEq] at hx
  case run => split_ifs at hx with hij; exact hij ▸ hok.1.lt
  case migrate => split_ifs at hx with hij; exact hij ▸ hok.lt
  case complete => split_ifs at hx with hij; exact hij ▸ hok.1.lt

/-- A mutex is taken or released. -/
theorem Coordination.setMutex (h : Coordination o pcs) (ht : pcs t = some pc) {T : TableId}
    {x : Option Tid} (hm : ∀ u ≠ t, o.mutex T ≠ some u) (hok : pc'.Ok (o.setMutex T x) t)
    (hruns : ∀ j < o.nJobs, RunInv o.size (o.jobs j)
      (Function.update (FkProf.ConcurrentMap.runs pcs j) t (pc'.position j)))
    (hcomp : ∀ j, pc'.Completes j → pc.Completes j) :
    Coordination (o.setMutex T x) (Function.update pcs t (some pc')) := by
  refine h.step ht (h.layout.setMutex T x) (fun q hq => ?_) (fun u q hu hq => ?_) hruns
    fun j q hq hc => .inl ⟨pc, rfl, hcomp j ?_⟩
  · cases hq
    exact hok
  · refine (h.ok u q hq).mono (fun _ => id) le_rfl (fun _ _ => id) (fun U _ hU => ?_)
      (fun _ _ => .inl rfl) (fun _ => id) fun _ _ _ ho => ⟨rfl, ho⟩
    refine (Function.update_of_ne ?_ ..).trans hU
    rintro rfl
    exact hm u hu hU
  · cases hq
    exact hc

variable {cpc : CompletePc}

/-- The completion of a migration is over. -/
theorem Coordination.runs_complete (h : Coordination o pcs)
    (ht : pcs t = some (.complete root j cpc)) (hpos : ∀ i, pc'.position i = none) {i : JobId}
    (hi : i < o.nJobs) : RunInv o.size (o.jobs i)
      (Function.update (FkProf.ConcurrentMap.runs pcs i) t (pc'.position i)) := by
  rw [hpos]
  by_cases hij : j = i
  · subst hij
    exact (h.runs j hi).complete (o := cpc.overflow) (by simp [runs_eq ht, Pc.position])
  · rw [show none = FkProf.ConcurrentMap.runs pcs i t by simp [runs_eq ht, Pc.position, hij],
      Function.update_eq_self]
    exact h.runs i hi

omit [DecidableEq Tid] in
/-- The threads that complete no migration of the table that `t` completes. -/
theorem Coordination.redirects (h : Coordination o pcs)
    (ht : pcs t = some (.complete root j cpc)) (hc : o.coordinator root = .job j) {u : Tid}
    (hu : u ≠ t) (hq : pcs u = some pc) : o.Redirects u pc root := by
  have hcomp : (Pc.complete root j cpc).Completes j := by
    simp [Pc.Completes, Pc.position, Position.completer]
  exact .inl ⟨j, hc, (h.ok t _ ht).2.1, fun hc' => hu (h.completer u t _ _ j hq ht hc' hcomp)⟩

/-- A migration without overflow is over. -/
theorem Coordination.endCoordinator (h : Coordination o pcs)
    (ht : pcs t = some (.complete root j .endCoordinator)) :
    Coordination (o.setCoordinator root .ended)
      (Function.update pcs t (some (.complete root j .finishLoad))) := by
  obtain ⟨hjoin, hs, hc⟩ := h.ok t _ ht
  obtain rfl : root = o.latest := h.layout.root_eq hjoin.published (by rw [hc]; simp)
  have hopen := h.layout.job j hc
  have hclosed : ∀ i < o.nJobs, (o.jobs i).state = 1 := fun i hi => by
    rcases h.layout.closed i hi with hl | hl
    · rw [hc] at hl
      cases hl
      exact hs
    · exact hl
  refine h.step ht (h.layout.setCoordinator (by simp) (fun i hi => nomatch hi)
    fun i hi => .inr (hclosed i hi)) (fun q hq => ?_) (fun u q hu hq => ?_)
    (fun i hi => h.runs_same ht (fun i => ?_) hi) fun i q hq hcomp => .inl ⟨_, rfl, ?_⟩
  · cases hq
    exact ⟨⟨hjoin.published, hjoin.lt, .inr hs⟩, hs, Function.update_self .., rfl, hopen⟩
  · refine (h.ok u q hq).mono (fun _ => id) le_rfl (fun _ _ => id) (fun _ _ => id)
      (fun T hT => ?_) (fun _ => id) fun _ _ _ ho => ⟨rfl, ho⟩
    by_cases hT : T = o.latest
    · rw [hT]
      exact .inr (h.redirects ht hc hu hq)
    · exact .inl (Function.update_of_ne hT ..)
  · simp [Pc.position, CompletePc.overflow]
  · cases hq
    simpa [Pc.Completes, Pc.position, CompletePc.overflow] using hcomp

/-- The destination comes into use. -/
theorem Coordination.publish (h : Coordination o pcs) {old : TableId}
    (ht : pcs t = some (.complete root j (.finishStore old))) :
    Coordination (o.publish (o.jobs j).dest)
      (Function.update pcs t (some (.complete root j (.finishDelete old)))) := by
  obtain ⟨hjoin, hs, hc, rfl, hopen, rfl⟩ := h.ok t _ ht
  have hmono : ∀ T, o.Published T → (o.publish (o.jobs j).dest).Published T := fun T hT =>
    .inr (List.mem_cons.2 hT)
  refine h.step ht (h.layout.publish hc hopen) (fun q hq => ?_) (fun u q hu hq => ?_)
    (fun i hi => h.runs_same ht (fun i => ?_) hi) fun i q hq hcomp => .inl ⟨_, rfl, ?_⟩
  · cases hq
    exact ⟨⟨hmono _ (.inl rfl), hjoin.lt, .inr hs⟩, hs, List.mem_cons_self⟩
  · refine (h.ok u q hq).mono hmono le_rfl (fun _ _ => id) (fun _ _ => id)
      (fun _ _ => .inl rfl) (fun _ => List.mem_cons_of_mem _) fun i hi _ ho => ?_
    -- The only thread that is about to publish the destination is this one.
    have hij : i = j := Nat.succ_injective (ho.1.trans hopen.1.symm)
    exact absurd (h.completer u t q _ j hq ht (hij ▸ hi)
      (by simp [Pc.Completes, Pc.position, Position.completer])) hu
  · simp [Pc.position, CompletePc.overflow]
  · cases hq
    simpa [Pc.Completes, Pc.position, CompletePc.overflow] using hcomp

/-- A migration begins, and the others are closed. -/
theorem Coordination.begin (h : Coordination o pcs) (ht : pcs t = some pc)
    {jobs : JobId → Migration} {m : Migration} {n : ℕ} (hn : kMigrationChunkSize ∣ n) (hpos : 0 < n)
    (hclosed : ∀ i < o.nJobs, (jobs i).state = 1)
    (hdest : ∀ i < o.nJobs, (jobs i).dest = (o.jobs i).dest)
    (htable : ∀ i < o.nJobs, ∀ s T, (jobs i).table s = some T → (o.jobs i).table s = some T)
    (hjobs : ∀ i < o.nJobs, RunInv o.size (jobs i) (FkProf.ConcurrentMap.runs pcs i))
    (hd : m.dest = o.nTables) (hroot : m.table 0 = some o.latest)
    (hall : ∀ s < m.sources.length, ∃ T, m.table s = some T)
    (hlt : ∀ s T, m.table s = some T → T < o.nTables)
    (hun : ∀ s T, m.table s = some T → s ≠ 0 → ¬o.Published T)
    (hinj : ∀ s s' T, m.table s = some T → m.table s' = some T → s = s')
    (hstate : m.state = 0) (hover : m.overflowed = false) (hunits : m.unitsRemaining = m.units o.size)
    (hindex : ∀ s, m.index s = 0)
    (hended : o.coordinator o.latest ≠ .ended)
    (hred : ∀ u q, u ≠ t → pcs u = some q → o.Redirects u q o.latest)
    (hok : pc'.Ok ((({ o.newTable n with jobs := jobs }).newJob m).setCoordinator o.latest
      (.job o.nJobs)) t) (hsame : ∀ i, pc'.position i = pc.position i) :
    Coordination ((({ o.newTable n with jobs := jobs }).newJob m).setCoordinator o.latest
      (.job o.nJobs)) (Function.update pcs t (some pc')) := by
  have hpublished : ¬o.Published o.nTables := fun hp =>
    absurd (h.layout.published_lt _ hp) (lt_irrefl _)
  have hnew : (({ o.newTable n with jobs := jobs }).newJob m).jobs o.nJobs = m :=
    Function.update_self ..
  have hopen : (({ o.newTable n with jobs := jobs }).newJob m).Open o.nJobs :=
    ⟨rfl, by rw [hnew, hd]; exact hpublished⟩
  have hsize : ∀ {i : JobId} {s : ℕ} {T}, i < o.nJobs → (o.jobs i).table s = some T →
      (o.newTable n).size T = o.size T := fun hi hT =>
    Function.update_of_ne (h.layout.source_lt _ hi _ _ hT).ne ..
  have hsize' : ∀ s T, m.table s = some T → (o.newTable n).size T = o.size T := fun s T hT =>
    Function.update_of_ne (hlt s T hT).ne ..
  have hsources : (({ o.newTable n with jobs := jobs }).newJob m).Sources o.nJobs := by
    constructor <;> rw [hnew]
    · exact hroot
    · exact hall
    · exact hun
    · exact hinj
    · exact fun s hs => absurd (hlt s _ hs) (by rw [hd]; exact lt_irrefl _)
  have hlayout := (h.layout.newTable hn hpos).newJob hopen hsources
    (by rw [hd]; exact Nat.lt_succ_self _) (fun s T hT => (hlt s T hT).trans (Nat.lt_succ_self _))
    (fun i hi => hdest i hi ▸ (h.layout.dest_lt i hi).trans (Nat.lt_succ_self _))
    (fun i hi s T hT =>
      (h.layout.source_lt i hi s T (htable i hi s T hT)).trans (Nat.lt_succ_self _)) hclosed
  have hold : ∀ i < o.nJobs, Function.update jobs o.nJobs m i = jobs i := fun i hi =>
    Function.update_of_ne hi.ne ..
  refine h.step ht hlayout (fun q hq => ?_) (fun u q hu hq => ?_) (fun i hi => ?_)
    fun i q hq hcomp => .inl ⟨pc, rfl, ?_⟩
  · cases hq
    exact hok
  · refine (h.ok u q hq).mono (fun _ => id) (Nat.le_succ _) (fun i hi _ => ?_) (fun T hT hm => ?_)
      (fun T hT => ?_) (fun _ => id) fun i _ he _ => absurd he hended
    · exact (congrArg Migration.state (hold i hi)).trans (hclosed i hi)
    · exact (Function.update_of_ne (h.layout.published_lt T hT).ne ..).trans hm
    · by_cases hT' : T = o.latest
      · rw [hT']
        exact .inr (hred u q hu hq)
      · refine .inl ((Function.update_of_ne hT' ..).trans ?_)
        exact Function.update_of_ne (h.layout.published_lt T hT).ne ..
  · have hrun : ∀ i, Function.update (FkProf.ConcurrentMap.runs pcs i) t (pc'.position i) =
        FkProf.ConcurrentMap.runs pcs i := fun i => by
      rw [hsame, show pc.position i = FkProf.ConcurrentMap.runs pcs i t by
        rw [runs_eq ht, Option.bind_some], Function.update_eq_self]
    rw [Option.bind_some, hrun]
    rcases Nat.lt_succ_iff_lt_or_eq.1 hi with hi | rfl
    · show RunInv _ (Function.update jobs o.nJobs m i) _
      rw [hold i hi]
      exact (hjobs i hi).congr fun s T hT => hsize hi (htable i hi s T hT)
    · show RunInv _ (Function.update jobs o.nJobs m o.nJobs) _
      rw [Function.update_self]
      have hzero : ∀ u, FkProf.ConcurrentMap.runs pcs o.nJobs u = none := fun u => by
        by_contra hne
        obtain ⟨x, hx⟩ := Option.ne_none_iff_exists'.1 hne
        obtain ⟨q, hq, hx⟩ := Option.bind_eq_some_iff.1 hx
        exact absurd ((h.ok u q hq).position_lt hx) (lt_irrefl _)
      refine (RunInv.new hstate hover hunits ?_ hindex (fun s hs => ?_) hzero).congr hsize'
      · have h₀ : 0 < m.sources.length := Migration.table_lt hroot
        have hmem : Migration.unclaimed o.size m.sources[0] ≤ m.units o.size :=
          List.le_sum_of_mem (List.mem_map_of_mem (List.getElem_mem h₀))
        have he := List.getElem?_eq_getElem h₀
        have hi₀ := hindex 0
        rw [Migration.table_of_getElem? m 0 he] at hroot
        rw [Migration.index_of_getElem? m 0 he] at hi₀
        simp only [Migration.unclaimed, hroot, hi₀, Nat.sub_zero] at hmem
        exact (Nat.div_pos (Nat.le_of_dvd (h.layout.size_pos _) (h.layout.size _))
          (by decide)).trans_le hmem
      · obtain ⟨T, hT⟩ := hall s hs
        rw [hT]
        simp
  · cases hq
    rwa [Pc.Completes, ← hsame]

end Ends

/-! ## Steps of the map -/

/-- The step does not add the thread to a migration that the last worker has left,
    line 405. -/
def Call.OnTime (S : Shared Tid) (c : Call Key) : Prop :=
  match c.pc with
  | .run _ j pc => pc.OnTime (S.jobs j)
  | _ => True

/-- The steps that do not. -/
def OnTime (σ : State Tid Key) : Label Tid Key → Prop
  | .step t => ∀ c ∈ σ.calls t, c.OnTime σ.shared
  | .call .. => True

instance (m : Migration) (pc : RunPc) : Decidable (pc.OnTime m) :=
  inferInstanceAs (Decidable (_ → _))

instance (S : Shared Tid) (c : Call Key) : Decidable (c.OnTime S) :=
  match h : c.pc with
  | .run _ j pc => decidable_of_iff (pc.OnTime (S.jobs j)) (by simp [Call.OnTime, h])
  | .loadCurrent | .insert .. | .find .. | .findNext .. | .getValue .. | .removeLoad ..
  | .removeCas .. | .start .. | .participate .. | .await .. | .migrate .. | .complete ..
  | .ret _ | .crashed => .isTrue (by simp [Call.OnTime, h])

instance (σ : State Tid Key) (l : Label Tid Key) : Decidable (OnTime σ l) :=
  match l with
  | .step t => inferInstanceAs (Decidable (∀ c ∈ σ.calls t, c.OnTime σ.shared))
  | .call .. => .isTrue trivial

section Outlines

omit [Fintype Tid] [DecidableEq Tid]

variable {S S' : Shared Tid} {T : TableId} {X : HashTable Tid}

theorem tables_setTable {α : Type*} (f : HashTable Tid → α) (S : Shared Tid) (T : TableId)
    (X : HashTable Tid) : (fun U => f ((S.setTable T X).tables U)) =
      Function.update (fun U => f (S.tables U)) T (f X) :=
  Function.comp_update f S.tables T X

/-- The cells are not part of the outline. -/
theorem outline_setTable (hs : X.size = (S.tables T).size) (hm : X.mutex = (S.tables T).mutex)
    (hc : X.coordinator = (S.tables T).coordinator) : (S.setTable T X).outline = S.outline := by
  simp only [Shared.outline, tables_setTable, hs, hm, hc, Function.update_eq_self]
  rfl

@[simp] theorem outline_write (i : ℕ) (v : ValueType) : (S.write T i v).outline = S.outline :=
  outline_setTable (HashTable.setValue_size ..) rfl rfl

@[simp] theorem outline_insert (h : HashType) (v : ValueType) (pc : InsertPc) :
    (S.setTable T (insertOrUpdateStep (S.tables T) h v pc).1).outline = S.outline :=
  outline_setTable (insertOrUpdateStep_size ..) (insertOrUpdateStep_mutex ..)
    (insertOrUpdateStep_coordinator ..)

@[simp] theorem outline_victim (v : Option JobId) :
    (S.setTable T { S.tables T with victim := v }).outline = S.outline :=
  outline_setTable rfl rfl rfl

theorem outline_setMutex (x : Option Tid) :
    (S.setTable T { S.tables T with mutex := x }).outline = S.outline.setMutex T x := by
  have hsize : HashTable.size { S.tables T with mutex := x } = (S.tables T).size := rfl
  simp only [Shared.outline, tables_setTable, Function.update_eq_self, hsize]
  rfl

@[simp] theorem outline_unlock : (S.unlock T).outline = S.outline.setMutex T none :=
  outline_setMutex none

theorem coordinator_unlock (S : Shared Tid) (T : TableId) :
    (S.unlock T).outline.coordinator = S.outline.coordinator := by
  rw [outline_unlock]
  rfl

/-- The migration under way has all its sources. -/
theorem Outline.Sources.all_isSome (h : S.outline.Sources j) :
    (S.jobs j).sources.all (fun src => src.table.isSome) = true := by
  refine List.all_eq_true.2 fun src hsrc => ?_
  obtain ⟨i, hi, rfl⟩ := List.getElem_of_mem hsrc
  obtain ⟨U, hU⟩ := h.table i hi
  have hU : (S.jobs j).table i = some U := hU
  rw [Migration.table_of_getElem? _ i (List.getElem?_eq_getElem hi)] at hU
  rw [hU]
  rfl

theorem outline_lock {t : Tid} (h : S.lock T t = some S') :
    S.outline.mutex T = none ∧ S'.outline = S.outline.setMutex T (some t) := by
  rw [Shared.lock] at h
  split_ifs at h with hm
  cases h
  exact ⟨Option.isNone_iff_eq_none.1 hm, outline_setMutex _⟩

@[simp] theorem outline_setCoordinator (c : JobCoordinator) :
    (S.setCoordinator T c).outline = S.outline.setCoordinator T c := by
  have hsize : HashTable.size { S.tables T with coordinator := c } = (S.tables T).size := rfl
  simp only [Shared.setCoordinator, Shared.outline, tables_setTable, Function.update_eq_self,
    hsize]
  rfl

theorem size_new (n : BitVec 64) : (HashTable.new n : HashTable Tid).size = allocatedSize n := by
  obtain ⟨k, -, he⟩ := allocatedSize_eq n
  have := Nat.two_pow_pos k
  show allocatedSize n - 1 + 1 = allocatedSize n
  omega

@[simp] theorem outline_newTable (n : BitVec 64) :
    (S.newTable n).outline = S.outline.newTable (allocatedSize n) := by
  have htables : (S.newTable n).tables = (S.setTable S.nTables (.new n)).tables := rfl
  simp only [Shared.outline, htables, tables_setTable, size_new]
  rfl

@[simp] theorem outline_setJob (j : JobId) (m : Migration) :
    (S.setJob j m).outline = S.outline.setJob j m := rfl

@[simp] theorem outline_newJob (m : Migration) : (S.newJob m).outline = S.outline.newJob m := rfl

theorem outline_publish (hT : ¬S.outline.Published T) :
    (S.publish T).outline = S.outline.publish T := by
  rw [Shared.publish, if_neg (show ¬(T = S.latest ∨ T ∈ S.retired) from hT)]
  rfl

end Outlines

section Steps

variable {S S' : Shared Tid} {c c' : Call Key}

theorem chunk_dvd_allocatedSize (n : BitVec 64) :
    kMigrationChunkSize ∣ allocatedSize n ∧ 0 < allocatedSize n := by
  obtain ⟨k, hk, he⟩ := allocatedSize_eq n
  rw [he]
  exact ⟨Nat.pow_dvd_pow 2 hk, Nat.two_pow_pos k⟩

omit [Fintype Tid] [DecidableEq Tid] in
/-- Moving a chunk changes the cells only. -/
theorem migrateStep_outline (S : Shared Tid) (dest T i last : ℕ) (pc : MigratePc) :
    (migrateStep S dest T i last pc).1.outline = S.outline := by
  cases pc <;> simp only [migrateStep] <;> (try split_ifs) <;> simp

theorem nextCell_goto {i i' last : ℕ} {pc : MigratePc} (h : nextCell i last = .goto i' pc) :
    i' = i + 1 ∧ i' < last ∧ pc = .loadHash := by
  rw [nextCell] at h
  split_ifs at h with hlt
  cases h
  exact ⟨rfl, hlt, rfl⟩

omit [Fintype Tid] [DecidableEq Tid] in
/-- A chunk is moved cell by cell. -/
theorem migrateStep_goto {dest T i i' last : ℕ} {pc pc' : MigratePc}
    (h : (migrateStep S dest T i last pc).2 = .goto i' pc') :
    i' = i ∨ nextCell i last = .goto i' pc' := by
  cases pc <;> simp only [migrateStep] at h <;> (try split at h) <;> (try split at h) <;>
    first
      | exact .inr h
      | exact .inl (by cases h; rfl)
      | cases h

theorem Coordination.participate {S : Shared Tid} {pcs : Tid → Option Pc}
    (h : Coordination S.outline pcs) (ht : pcs t = some c.pc) (hp : S.outline.Published root)
    (hpos : ∀ i, c.pc.position i = none) (prevJob : JobCoordinator) :
    Coordination S.outline (Function.update pcs t
      (some (c.participate root prevJob (S.tables root).coordinator).pc)) := by
  simp only [Call.participate]
  split_ifs with he
  · exact h.quiet ht (fun _ hq => by cases hq; exact hp) fun i => (hpos i).symm
  · cases hc : (S.tables root).coordinator with
    | null => exact h.quiet ht (fun _ hq => by cases hq; trivial) fun i => (hpos i).symm
    | job j => exact h.enter ht hp hc hpos
    | ended => exact h.quiet ht (fun _ hq => by cases hq; trivial) fun i => (hpos i).symm

/-- After a step of `migrationStart`. -/
def Pc.afterStart (root : TableId) : StartNext → Pc
  | .goto pc => .start root pc
  | .done => .participate root .null

/-- A step of `migrationStart`. -/
theorem Coordination.start {S : Shared Tid} {pcs : Tid → Option Pc} {pc : StartPc}
    {next : StartNext} (h : Coordination S.outline pcs) (ht : pcs t = some (.start root pc))
    (hs : startStep S t root pc = some (S', next)) :
    Coordination S'.outline (Function.update pcs t (some (.afterStart root next))) := by
  obtain ⟨hp, hok⟩ := h.ok t _ ht
  cases pc with
  | sample i n =>
    simp only [startStep, Option.some.injEq, Prod.mk.injEq] at hs
    obtain ⟨rfl, rfl⟩ := hs
    refine h.quiet ht (fun q hq => ?_) fun i => ?_
    · cases hq
      split_ifs
      · exact hp
      all_goals exact ⟨hp, trivial⟩
    · split_ifs <;> rfl
  | lock n =>
    obtain ⟨S₁, hl, he⟩ := Option.map_eq_some_iff.1 hs
    cases he
    obtain ⟨hm, ho⟩ := outline_lock hl
    rw [ho]
    refine h.setMutex ht (fun u _ => by rw [hm]; simp) ⟨hp, Function.update_self ..⟩
      (fun i hi => h.runs_same ht (show ∀ j, (some (Pc.start root (.get n))).bind (Pc.position j) =
        _ from fun _ => rfl) hi) fun i => id
  | get n =>
    simp only [startStep, Option.some.injEq, Prod.mk.injEq] at hs
    obtain ⟨rfl, rfl⟩ := hs
    refine h.quiet ht (fun q hq => ?_) fun i => by split_ifs <;> rfl
    cases hq
    split_ifs with hc
    · exact ⟨hp, hok, hc⟩
    · exact ⟨hp, hok⟩
  | set n =>
    simp only [startStep, Option.some.injEq, Prod.mk.injEq] at hs
    obtain ⟨rfl, rfl⟩ := hs
    obtain ⟨hm, hc⟩ := hok
    obtain rfl : root = S.outline.latest := h.layout.root_eq hp (by rw [hc]; simp)
    rw [outline_setCoordinator, outline_newJob, outline_newTable]
    have hsource : ∀ s T, Migration.table
        { dest := S.nTables, sources := [⟨some S.outline.latest, 0⟩], overflowed := false, state := 0
          unitsRemaining := (S.tables S.outline.latest).getMigrationSize, prev := none } s = some T →
        s = 0 ∧ T = S.outline.latest := fun s T hT => by
      cases s with
      | zero => exact ⟨rfl, (Option.some.inj hT).symm⟩
      | succ s => cases hT
    obtain ⟨hdvd, hpos⟩ := chunk_dvd_allocatedSize n
    refine h.begin ht hdvd hpos (fun i hi => ?_) (fun _ _ => rfl)
      (fun _ _ _ _ => id) h.runs rfl rfl (fun s hs => ?_) (fun s T hT => ?_) (fun s T hT hs => ?_)
      (fun s s' T hT hT' => ?_) rfl rfl ?_ (fun s => ?_) (by rw [hc]; simp) (fun u q hu hq => ?_)
      ⟨hp, ?_⟩ fun _ => rfl
    · refine (h.layout.closed i hi).resolve_left ?_
      rw [hc]
      simp
    · obtain rfl : s = 0 := Nat.lt_one_iff.1 hs
      exact ⟨_, rfl⟩
    · rw [(hsource s T hT).2]
      exact h.layout.published_lt _ hp
    · exact absurd (hsource s T hT).1 hs
    · rw [(hsource s T hT).1, (hsource s' T hT').1]
    · simp [Migration.units, Migration.unclaimed, HashTable.getMigrationSize, Shared.outline]
    · cases s <;> rfl
    · refine .inr ⟨hc, ?_⟩
      rw [hm]
      simpa using Ne.symm hu
    · exact (Function.update_of_ne (h.layout.published_lt _ hp).ne ..).trans hm
  | unlock =>
    simp only [startStep, Option.some.injEq, Prod.mk.injEq] at hs
    obtain ⟨rfl, rfl⟩ := hs
    rw [outline_unlock]
    have hm : S.outline.mutex root = some t := hok
    exact h.setMutex ht (fun u hu => by rw [hm]; simpa using Ne.symm hu) hp
      (fun i hi => h.runs_same ht (show ∀ j, (some (Pc.participate root .null)).bind
        (Pc.position j) = _ from fun _ => rfl) hi) fun i => id

omit [Fintype Tid] [DecidableEq Tid] in
theorem Migration.table_restarted (m : Migration) (sizeOf : TableId → ℕ) (dest : TableId)
    (j : JobId) (s : ℕ) : (m.restarted sizeOf dest j).table s =
      if s < m.sources.length then m.table s
      else if s = m.sources.length then some m.dest else none := by
  rw [Migration.table, Migration.restarted]
  split_ifs with h₁ h₂
  · rw [List.getElem?_append_left (by simpa using h₁), List.getElem?_map, Migration.table]
    cases m.sources[s]? <;> rfl
  · simp [h₂]
  · rw [List.getElem?_eq_none (by simp; omega)]
    rfl

theorem Migration.index_restarted (m : Migration) (sizeOf : TableId → ℕ) (dest : TableId)
    (j : JobId) (s : ℕ) : (m.restarted sizeOf dest j).index s = 0 := by
  rw [Migration.index, Migration.restarted]
  cases he : (m.sources.map (fun src => { src with index := 0 }) ++ [⟨some m.dest, 0⟩])[s]? with
  | none => rfl
  | some src =>
    rcases List.mem_append.1 (List.mem_of_getElem? he) with hmem | hmem
    · obtain ⟨src', -, rfl⟩ := List.mem_map.1 hmem
      rfl
    · cases List.mem_singleton.1 hmem
      rfl

theorem Migration.units_restarted (m : Migration) (sizeOf : TableId → ℕ) (dest : TableId)
    (j : JobId) : ((m.restarted sizeOf dest j).units sizeOf : ℤ) =
      (m.restarted sizeOf dest j).unitsRemaining := by
  have hsum : ((m.sources.map fun src => { src with index := 0 }).map
      (Migration.unclaimed sizeOf)).sum = (m.sources.map fun src =>
        (src.table.map fun T => sizeOf T / kMigrationChunkSize).getD 0).sum := by
    rw [List.map_map]
    refine congrArg List.sum (List.map_congr_left fun src _ => ?_)
    cases hs : src.table <;> simp [Migration.unclaimed, hs]
  rw [Migration.units, Migration.restarted, List.map_append, List.sum_append, hsum]
  simp [Migration.unclaimed]

theorem Migration.table_handedOver (m : Migration) (s : ℕ) : m.handedOver.table s = none := by
  simp only [Migration.table, Migration.handedOver, List.getElem?_map]
  cases m.sources[s]? <;> rfl

/-- After a step of the completion. -/
def Pc.afterComplete (root : TableId) (j : JobId) : CompleteNext → Pc
  | .goto pc => .complete root j pc
  | .done => .participate root (.job j)
  | .crash => .crashed

omit [Fintype Tid] [DecidableEq Tid] in
theorem outline_restart {S : Shared Tid} : (S.restart j root).outline =
    ((({ S.outline.newTable (allocatedSize
      (BitVec.ofNat 64 ((S.tables (S.jobs j).dest).size <<< 1))) with
        jobs := Function.update S.jobs j (S.jobs j).handedOver }).newJob
      ((S.jobs j).restarted (fun T => (S.tables T).size) S.nTables j)).setCoordinator
        root (.job S.outline.nJobs)) := by
  rw [Shared.restart, outline_setCoordinator, outline_newJob, outline_newTable, outline_setJob]
  rfl

/-- The migration that follows one that has overflowed. -/
theorem Coordination.restart {S : Shared Tid} {pcs : Tid → Option Pc}
    (h : Coordination S.outline pcs)
    (ht : pcs t = some (.complete root j (.restartSet root))) :
    Coordination (S.restart j root).outline
      (Function.update pcs t (some (.complete root j (.restartUnlock root)))) := by
  obtain ⟨⟨hp, hj, -⟩, hs, -, hc, hm⟩ := h.ok t _ ht
  obtain rfl : root = S.outline.latest := h.layout.root_eq hp (by rw [hc]; simp)
  have hopen := h.layout.job j hc
  have hsrc := h.layout.sources j hopen
  have hpos : 0 < (S.jobs j).sources.length := Migration.table_lt hsrc.root
  obtain ⟨hdvd, hsize⟩ := chunk_dvd_allocatedSize
    (BitVec.ofNat 64 ((S.tables (S.jobs j).dest).size <<< 1))
  have hrun : FkProf.ConcurrentMap.runs pcs j t = some (.completing true) := by
    simp [runs_eq ht, Pc.position, CompletePc.overflow]
  have hjob : ∀ i, Function.update S.jobs j (S.jobs j).handedOver i = S.jobs i ∨
      i = j ∧ Function.update S.jobs j (S.jobs j).handedOver i = (S.jobs j).handedOver := fun i => by
    by_cases hij : i = j
    · subst hij
      exact .inr ⟨rfl, Function.update_self ..⟩
    · exact .inl (Function.update_of_ne hij ..)
  have hclosed : ∀ i < S.nJobs, (S.jobs i).state = 1 := fun i hi => by
    rcases h.layout.closed i hi with hl | hl
    · cases hc.symm.trans hl
      exact hs
    · exact hl
  -- The sources of the new migration are those of the old one, and its destination.
  have htable : ∀ {s T}, ((S.jobs j).restarted (fun T => (S.tables T).size) S.nTables j).table s =
      some T → (S.jobs j).table s = some T ∧ s < (S.jobs j).sources.length ∨
        s = (S.jobs j).sources.length ∧ T = (S.jobs j).dest := fun {s T} hT => by
    rw [Migration.table_restarted] at hT
    split_ifs at hT with h₁ h₂
    · exact .inl ⟨hT, h₁⟩
    · exact .inr ⟨h₂, (Option.some.inj hT).symm⟩
  rw [outline_restart]
  refine h.begin ht hdvd hsize (fun i hi => ?_) (fun i hi => ?_) (fun i hi s T hT => ?_)
    (fun i hi => ?_) rfl ?_ (fun s hs => ?_) (fun s T hT => ?_) (fun s T hT hs => ?_)
    (fun s s' T hT hT' => ?_) rfl rfl (Migration.units_restarted ..).symm
    (fun s => Migration.index_restarted ..) (by rw [hc]; simp)
    (fun u q hu hq => h.redirects ht hc hu hq) ?_ fun i => rfl
  · rcases hjob i with he | ⟨rfl, he⟩
    · exact (congrArg Migration.state he).trans (hclosed i hi)
    · exact (congrArg Migration.state he).trans (hclosed i hi)
  · rcases hjob i with he | ⟨rfl, he⟩
    · exact congrArg Migration.dest he
    · exact (congrArg Migration.dest he).trans rfl
  · rcases hjob i with he | ⟨rfl, he⟩
    · exact (congrArg (Migration.table · s) he).symm.trans hT
    · rw [he, Migration.table_handedOver] at hT
      cases hT
  · rcases hjob i with he | ⟨rfl, he⟩
    · rw [he]
      exact h.runs i hi
    · rw [he]
      exact (h.runs i hi).handOver hrun
  · rw [Migration.table_restarted, if_pos hpos]
    exact hsrc.root
  · rw [Migration.table_restarted]
    split_ifs with h₁ h₂
    · exact hsrc.table s h₁
    · exact ⟨_, rfl⟩
    · simp only [Migration.restarted, List.length_append, List.length_map,
        List.length_singleton] at hs
      omega
  · rcases htable hT with ⟨hT, -⟩ | ⟨-, rfl⟩
    · exact h.layout.source_lt j hj s T hT
    · exact h.layout.dest_lt j hj
  · rcases htable hT with ⟨hT, -⟩ | ⟨-, rfl⟩
    · exact hsrc.unpublished s T hT hs
    · exact hopen.2
  · rcases htable hT with ⟨hT, hlt⟩ | ⟨rfl, rfl⟩ <;> rcases htable hT' with ⟨hT', hlt'⟩ | ⟨rfl, hd⟩
    · exact hsrc.inj s s' T hT hT'
    · exact absurd (hd ▸ hT) (hsrc.dest_ne s)
    · exact absurd hT' (hsrc.dest_ne s')
    · rfl
  · have hsame : Function.update (Function.update S.jobs j (S.jobs j).handedOver) S.nJobs
        ((S.jobs j).restarted (fun T => (S.tables T).size) S.nTables j) j = (S.jobs j).handedOver := by
      rw [Function.update_of_ne (show j ≠ S.nJobs from hj.ne), Function.update_self]
    have hstate := (congrArg Migration.state hsame).trans hs
    exact ⟨⟨.inl rfl, hj.trans (Nat.lt_succ_self _), .inr hstate⟩, hstate, rfl,
      (Function.update_of_ne (h.layout.published_lt _ hp).ne ..).trans hm⟩

/-- A step of the completion. -/
theorem Coordination.complete {S : Shared Tid} {pcs : Tid → Option Pc} {pc : CompletePc}
    {next : CompleteNext} (h : Coordination S.outline pcs)
    (ht : pcs t = some (.complete root j pc)) (hs : completeStep S t j pc = some (S', next)) :
    Coordination S'.outline (Function.update pcs t (some (.afterComplete root j next))) := by
  obtain ⟨hjoin, hstate, hok⟩ := h.ok t _ ht
  have hroot : S.outline.coordinator root = .job j → (S.jobs j).table 0 = some root := fun hc => by
    obtain rfl : root = S.outline.latest := h.layout.root_eq hjoin.published (by rw [hc]; simp)
    exact (h.layout.sources j (h.layout.job j hc)).root
  have hquiet : ∀ {pc' : CompletePc}, pc'.overflow = pc.overflow → pc'.Ok S.outline t root j →
      Coordination S.outline (Function.update pcs t (some (.complete root j pc'))) :=
    fun ho hok' => h.quiet ht (fun _ hq => by cases hq; exact ⟨hjoin, hstate, hok'⟩)
      fun i => by simp [Pc.position, ho]
  have hdone : ∀ i < S.outline.nJobs, RunInv S.outline.size (S.outline.jobs i)
      (Function.update (FkProf.ConcurrentMap.runs pcs i) t none) := fun i hi =>
    h.runs_complete ht (show ∀ i, Pc.position i (.ret 0) = none from fun _ => rfl) hi
  cases pc with
  | setVictim =>
    simp only [completeStep, hroot hok, Option.some.injEq, Prod.mk.injEq] at hs
    obtain ⟨rfl, rfl⟩ := hs
    rw [outline_victim]
    exact hquiet rfl hok
  | endCoordinator =>
    simp only [completeStep, hroot hok, Option.some.injEq, Prod.mk.injEq] at hs
    obtain ⟨rfl, rfl⟩ := hs
    rw [outline_setCoordinator]
    exact h.endCoordinator ht
  | finishLoad =>
    cases hs
    obtain ⟨hc, rfl, ho⟩ := hok
    exact hquiet rfl ⟨hc, rfl, ho, h.layout.current⟩
  | finishStore old =>
    cases hs
    obtain ⟨-, -, hopen, -⟩ := hok
    rw [outline_publish (T := (S.jobs j).dest) hopen.2]
    exact h.publish ht
  | finishDelete old =>
    cases hs
    exact h.move ht (fun _ hq => by cases hq; exact hjoin.published) hdone
      fun i q hq hc => by cases hq; cases hc
  | restartTable =>
    simp only [completeStep, hroot hok, Option.some.injEq, Prod.mk.injEq] at hs
    obtain ⟨rfl, rfl⟩ := hs
    exact hquiet rfl ⟨rfl, hok⟩
  | restartLock T =>
    obtain ⟨rfl, hc⟩ := hok
    obtain ⟨S₁, hl, he⟩ := Option.map_eq_some_iff.1 hs
    cases he
    obtain ⟨hm, ho⟩ := outline_lock hl
    rw [ho]
    exact h.setMutex ht (fun u _ => by rw [hm]; simp)
      ⟨⟨hjoin.published, hjoin.lt, hjoin.lead⟩, hstate, rfl, hc, Function.update_self ..⟩
      (fun i hi => h.runs_same ht (show ∀ k, (some (Pc.complete T j (.restartGet T))).bind
        (Pc.position k) = _ from fun k => by simp [Pc.position, CompletePc.overflow]) hi)
      fun i hi => by
        simpa [Pc.Completes, Pc.position, Pc.afterComplete, CompletePc.overflow] using hi
  | restartGet T =>
    obtain ⟨rfl, hc, hm⟩ := hok
    simp only [completeStep, if_pos (show (S.tables T).coordinator = .job j from hc),
      Option.some.injEq, Prod.mk.injEq] at hs
    obtain ⟨rfl, rfl⟩ := hs
    exact hquiet rfl ⟨rfl, hc, hm⟩
  | restartSet T =>
    obtain ⟨rfl, hc, hm⟩ := hok
    have hl : T = S.outline.latest := h.layout.root_eq hjoin.published (by rw [hc]; simp)
    have hsome := (h.layout.sources j (h.layout.job j (hl ▸ hc))).all_isSome
    simp only [completeStep, hsome, if_true, Option.some.injEq, Prod.mk.injEq] at hs
    obtain ⟨rfl, rfl⟩ := hs
    exact h.restart ht
  | restartUnlock T =>
    cases hs
    obtain ⟨rfl, hm⟩ := hok
    rw [outline_unlock]
    exact h.setMutex ht (fun u hu => by rw [hm]; simpa using Ne.symm hu) hjoin.published hdone
      fun i hc => by cases hc

variable {H : Hasher Key} {signalSafeReaders : Bool}

section Equations

omit [Fintype Tid] [DecidableEq Tid]

variable (S : Shared Tid) (t : Tid) (op : Op Key) (doubleSize : Bool)

theorem Call.step_insert (pc : InsertPc) :
    Call.step H signalSafeReaders S t ⟨op, doubleSize, .insert root pc⟩ =
      some (S.setTable root (insertOrUpdateStep (S.tables root) (H.hash op.key) op.value pc).1,
        Call.afterInsert ⟨op, doubleSize, .insert root pc⟩
          (insertOrUpdateStep (S.tables root) (H.hash op.key) op.value pc).1 root
          (insertOrUpdateStep (S.tables root) (H.hash op.key) op.value pc).2) := rfl

theorem Call.step_run (pc : RunPc) :
    Call.step H signalSafeReaders S t ⟨op, doubleSize, .run root j pc⟩ =
      some (S.setJob j ((S.jobs j).runStep S.outline.size pc).1,
        ⟨op, doubleSize, .afterRun root j ((S.jobs j).runStep S.outline.size pc).2⟩) := by
  simp only [Call.step, Shared.outline]
  cases ((S.jobs j).runStep (fun T => (S.tables T).size) pc).2 <;> rfl

/-- After a step of `migrateRange`. -/
def Pc.afterMigrate (root : TableId) (j : JobId) (s : ℕ) (T : TableId) (last : ℕ) :
    MigrateNext → Pc
  | .goto index pc => .migrate root j s T index last pc
  | .done rangeOverflow => .run root j (if rangeOverflow then .setOverflowed else .finished s T)

theorem Call.step_migrate (s T i last : ℕ) (pc : MigratePc) :
    Call.step H signalSafeReaders S t ⟨op, doubleSize, .migrate root j s T i last pc⟩ =
      some ((migrateStep S (S.jobs j).dest T i last pc).1,
        ⟨op, doubleSize, .afterMigrate root j s T last
          (migrateStep S (S.jobs j).dest T i last pc).2⟩) := by
  simp only [Call.step]
  cases (migrateStep S (S.jobs j).dest T i last pc).2 <;> rfl

end Equations

section Changes

omit [Fintype Tid] [DecidableEq Tid]

/-- The migration that `migrationStart` begins. -/
def Migration.first (S : Shared Tid) (root : TableId) : Migration :=
  { dest := S.nTables, sources := [⟨some root, 0⟩], overflowed := false, state := 0
    unitsRemaining := (S.tables root).getMigrationSize, prev := none }

/-- What a step may do to the tables and the migrations between them. -/
inductive Changes (S : Shared Tid) (c : Call Key) (S' : Shared Tid) : Prop
  | cells (x : TableId → Option Tid) : S'.outline = { S.outline with mutex := x } →
      S'.scheduled = S.scheduled → Changes S c S'
  | run (root : TableId) (j : JobId) (pc : RunPc) : c.pc = .run root j pc →
      S' = S.setJob j ((S.jobs j).runStep S.outline.size pc).1 → Changes S c S'
  | begins (root : TableId) (n : BitVec 64) : c.pc = .start root (.set n) →
      S' = ((S.newTable n).newJob (.first S root)).setCoordinator root (.job S.nJobs) →
      Changes S c S'
  | restart (root : TableId) (j : JobId) (T : TableId) : c.pc = .complete root j (.restartSet T) →
      S' = S.restart j T → Changes S c S'
  | ends (root : TableId) (j : JobId) (T : TableId) : c.pc = .complete root j .endCoordinator →
      (S.jobs j).table 0 = some T → S' = S.setCoordinator T .ended → Changes S c S'
  | publish (root : TableId) (j : JobId) (old : TableId) :
      c.pc = .complete root j (.finishStore old) → S' = S.publish (S.jobs j).dest → Changes S c S'
  | schedule (root : TableId) (j : JobId) (old : TableId) :
      c.pc = .complete root j (.finishDelete old) →
      S' = { S with scheduled := old :: S.scheduled } → Changes S c S'

theorem Changes.of_outline (ho : S'.outline = S.outline) (hd : S'.scheduled = S.scheduled) :
    Changes S c S' :=
  .cells S.outline.mutex ho hd

theorem Changes.setMutex {T : TableId} (x : Option Tid)
    (ho : S'.outline = S.outline.setMutex T x) (hd : S'.scheduled = S.scheduled) :
    Changes S c S' :=
  .cells _ ho hd

theorem Call.step_changes (hs : c.step H signalSafeReaders S t = some (S', c')) :
    Changes S c S' := by
  obtain ⟨op, doubleSize, pc⟩ := c
  cases pc with
  | insert root pc =>
    rw [Call.step_insert] at hs
    cases hs
    exact .of_outline (outline_insert ..) rfl
  | run root j pc =>
    rw [Call.step_run] at hs
    cases hs
    exact .run root j pc rfl rfl
  | migrate root j s T i last pc =>
    rw [Call.step_migrate] at hs
    cases hs
    refine .of_outline (migrateStep_outline ..) ?_
    cases pc <;> simp only [migrateStep] <;> (try split_ifs) <;> rfl
  | start root pc =>
    obtain ⟨⟨S₁, next⟩, hstep, he⟩ := Option.map_eq_some_iff.1 hs
    cases he
    cases pc with
    | lock n =>
      obtain ⟨S₂, hl, he⟩ := Option.map_eq_some_iff.1 hstep
      cases he
      refine .setMutex _ (outline_lock hl).2 ?_
      rw [Shared.lock] at hl
      split_ifs at hl
      cases hl
      rfl
    | set n =>
      cases hstep
      exact .begins root n rfl rfl
    | unlock =>
      cases hstep
      exact .setMutex _ outline_unlock rfl
    | sample | get =>
      cases hstep
      exact .of_outline rfl rfl
  | complete root j pc =>
    obtain ⟨⟨S₁, next⟩, hstep, he⟩ := Option.map_eq_some_iff.1 hs
    cases he
    cases pc with
    | setVictim =>
      simp only [completeStep, Option.some.injEq] at hstep
      split at hstep <;> cases hstep
      · exact .of_outline (outline_victim _) rfl
      · exact .of_outline rfl rfl
    | endCoordinator =>
      simp only [completeStep, Option.some.injEq] at hstep
      split at hstep <;> cases hstep
      · exact .ends root j _ rfl ‹_› rfl
      · exact .of_outline rfl rfl
    | restartLock T =>
      obtain ⟨S₂, hl, he⟩ := Option.map_eq_some_iff.1 hstep
      cases he
      refine .setMutex _ (outline_lock hl).2 ?_
      rw [Shared.lock] at hl
      split_ifs at hl
      cases hl
      rfl
    | restartSet T =>
      simp only [completeStep, Option.some.injEq] at hstep
      split_ifs at hstep <;> cases hstep
      · exact .restart root j T rfl rfl
      · exact .of_outline rfl rfl
    | finishStore old =>
      cases hstep
      exact .publish root j old rfl rfl
    | finishDelete old =>
      cases hstep
      exact .schedule root j old rfl rfl
    | restartUnlock T =>
      cases hstep
      exact .setMutex _ outline_unlock rfl
    | finishLoad | restartTable | restartGet =>
      cases hstep
      exact .of_outline rfl rfl
  | removeCas root i old =>
    simp only [Call.step] at hs
    split_ifs at hs <;> cases hs
    · exact .of_outline (outline_write ..) rfl
    · exact .of_outline rfl rfl
  | ret | crashed => cases hs
  | loadCurrent | find | findNext | getValue | removeLoad | participate | await =>
    cases hs
    exact .of_outline rfl rfl

end Changes

/-- A step of a call that is on time. -/
theorem Coordination.callStep {S : Shared Tid} {pcs : Tid → Option Pc}
    (h : Coordination S.outline pcs) (ht : pcs t = some c.pc) (hl : c.OnTime S)
    (hs : c.step H signalSafeReaders S t = some (S', c')) :
    Coordination S'.outline (Function.update pcs t (some c'.pc)) := by
  have hok := h.ok t _ ht
  -- The cells may change, and the thread is in no migration before and after.
  have hquiet : ∀ {pc' : Pc}, pc'.Ok S.outline t →
      (∀ i, pc'.position i = none) → (∀ i, c.pc.position i = none) → S'.outline = S.outline →
      Coordination S'.outline (Function.update pcs t (some pc')) := fun hok' hpos' hpos ho =>
    ho ▸ h.quiet ht (fun _ hq => by cases hq; exact hok') fun i => (hpos' i).trans (hpos i).symm
  obtain ⟨op, doubleSize, pc⟩ := c
  cases pc with
  | loadCurrent =>
    have hp : S.outline.Published S.current := .inl h.layout.current
    cases hs
    refine hquiet ?_ (fun i => ?_) (fun _ => rfl) rfl <;> cases op <;> first | exact hp | rfl
  | insert root pc =>
    rw [Call.step_insert] at hs
    cases hs
    rw [outline_insert]
    refine h.quiet ht (fun q hq => ?_) fun i => ?_
    · cases hq
      cases (insertOrUpdateStep (S.tables root) (H.hash op.key) op.value pc).2 with
      | goto pc => exact hok
      | done out =>
        cases out with
        | ok => trivial
        | overflow => cases doubleSize <;> exact ⟨hok, trivial⟩
        | helpMigration => exact hok
    · cases (insertOrUpdateStep (S.tables root) (H.hash op.key) op.value pc).2 with
      | goto pc => rfl
      | done out => cases out <;> rfl
  | find root i =>
    cases hs
    refine hquiet ?_ (fun i => ?_) (fun _ => rfl) rfl <;> cases op <;> dsimp only [Call.goto] <;>
      split_ifs <;> trivial
  | findNext root i =>
    cases hs
    refine hquiet ?_ (fun i => ?_) (fun _ => rfl) rfl <;> dsimp only [Call.goto] <;>
      split_ifs <;> trivial
  | getValue root i =>
    cases hs
    refine hquiet ?_ (fun i => ?_) (fun _ => rfl) rfl <;> dsimp only [Call.goto] <;>
      split_ifs <;> trivial
  | removeLoad root i =>
    cases hs
    refine hquiet ?_ (fun i => ?_) (fun _ => rfl) rfl <;> dsimp only [Call.goto] <;>
      split_ifs <;> trivial
  | removeCas root i old =>
    simp only [Call.step] at hs
    split_ifs at hs <;> cases hs
    · exact hquiet trivial (fun _ => rfl) (fun _ => rfl) (outline_write ..)
    · exact hquiet trivial (fun _ => rfl) (fun _ => rfl) rfl
  | start root pc =>
    obtain ⟨⟨S₁, next⟩, hstep, he⟩ := Option.map_eq_some_iff.1 hs
    cases he
    have hstart := h.start ht hstep
    cases next <;> exact hstart
  | participate root prevJob | await root prevJob =>
    cases hs
    exact h.participate (c := ⟨op, doubleSize, _⟩) ht hok (fun _ => rfl) prevJob
  | run root j pc =>
    rw [Call.step_run] at hs
    cases hs
    exact h.run ht hl
  | migrate root j s T i last pc =>
    rw [Call.step_migrate] at hs
    cases hs
    have hlt : i < last := ((h.runs j hok.lt).ok t (.migrating s T i last)
      (by simp [runs_eq ht, Pc.position])).2.2.1
    rw [migrateStep_outline]
    cases hn : (migrateStep S (S.jobs j).dest T i last pc).2 with
    | goto i' pc' =>
      rcases migrateStep_goto hn with rfl | hcell
      · exact h.migrate ht le_rfl hlt
      · obtain ⟨rfl, hlt', -⟩ := nextCell_goto hcell
        exact h.migrate ht (Nat.le_succ _) hlt'
    | done overflow => exact h.migrated ht overflow
  | complete root j pc =>
    obtain ⟨⟨S₁, next⟩, hstep, he⟩ := Option.map_eq_some_iff.1 hs
    cases he
    have hcomplete := h.complete ht hstep
    cases next <;> exact hcomplete
  | ret result => cases hs
  | crashed => cases hs

/-- Every step of the map that is on time keeps the invariant. -/
theorem Coordination.next {σ σ' : State Tid Key} {l : Label Tid Key}
    (h : Coordination σ.shared.outline σ.pcs) (hl : OnTime σ l)
    (hn : (provider Tid H signalSafeReaders).next σ l = some σ') :
    Coordination σ'.shared.outline σ'.pcs := by
  have hpcs : ∀ (t : Tid) (c : Option (Call Key)) (S : Shared Tid) (hist : List (Op Key × ValueType)),
      State.pcs ⟨S, Function.update σ.calls t c, hist⟩ =
        Function.update σ.pcs t (c.map Call.pc) := fun t c S hist =>
    Function.comp_update (Option.map Call.pc) σ.calls t c
  cases State.transition_of_next H signalSafeReaders hn with
  | call t op hc =>
    rw [hpcs]
    exact h.quiet (p := none) (by simp [State.pcs, hc]) (fun _ hq => by cases hq; trivial)
      fun _ => rfl
  | ret t c result hc hret =>
    rw [hpcs]
    exact h.quiet (p := some c.pc) (by simp [State.pcs, hc]) (fun _ hq => nomatch hq)
      fun i => by simp [hret, Pc.position]
  | step t c c' S' hc hs =>
    rw [hpcs]
    exact h.callStep (by simp [State.pcs, hc]) (hl c hc) hs

omit [DecidableEq Tid] in
theorem Coordination.initial (n : BitVec 64) :
    Coordination (State.new n : State Tid Key).shared.outline (State.new n : State Tid Key).pcs := by
  have hz : ¬∃ j, (State.new n : State Tid Key).shared.outline.Open j := fun ⟨j, hj⟩ => by
    cases hj.1
  obtain ⟨hdvd, hpos⟩ := chunk_dvd_allocatedSize n
  refine ⟨⟨rfl, fun T hT => ?_, List.not_mem_nil, fun _ _ => rfl, fun T hT => ?_,
    fun _ j hj => hz ⟨j, hj⟩, (fun j hj => nomatch hj), fun i hi => ?_, fun i hi => ?_, fun i hi => ?_,
    fun j hj => absurd ⟨j, hj⟩ hz, fun T => ?_, fun T => ?_⟩, fun t pc ht => ?_, fun j hj => ?_,
    fun t u pc pc' j ht => ?_⟩
  · rcases hT with rfl | hT
    · exact Nat.one_pos
    · cases hT
  · cases hT
  · cases hi
  · cases hi
  · cases hi
  · exact hdvd.trans (size_new n).symm.dvd
  · exact hpos.trans_eq (size_new n).symm
  · cases ht
  · cases hj
  · cases ht

/-- In every run that is on time. -/
theorem coordination_of_run {n : BitVec 64} {σ : State Tid Key}
    {tr : List (State Tid Key × Label Tid Key)}
    (hr : (provider Tid H signalSafeReaders).Run OnTime (.new n) tr σ) :
    Coordination σ.shared.outline σ.pcs :=
  hr.invariant (I := fun σ => Coordination σ.shared.outline σ.pcs)
    (fun _ _ _ ha hl hn => ha.next hl hn) (.initial n)

end Steps

end FkProf.ConcurrentMap
