import FkProf.ConcurrentMap.Lookup
import FkProf.ConcurrentMap.Reach

/-!
# Calls that do not overlap

When a call begins only after the last one has returned, its thread runs alone: it
starts the migrations that it needs, and completes them, before it comes back to the
current table. What depends on the others is so of itself: no thread comes too late to
a migration, no cell is allocated twice to a hash, and the value that a thread expects
in a cell is there.

* `Alone`: the steps by which no calls overlap;
* `Pc.Phase`: where the migrations are when the call is there;
* `Lone`: what a call knows that runs alone, and `Solo`, the invariant;
* `solo_of_run`: it holds in every run without overlapping calls.
-/

namespace FkProf.ConcurrentMap

variable {Tid Key : Type*}

/-- The steps by which no call begins while another is in progress. -/
def Alone (σ : State Tid Key) : Label Tid Key → Prop
  | .call .. => ∀ t, σ.calls t = none
  | .step _ => True

instance [Fintype Tid] (σ : State Tid Key) (l : Label Tid Key) : Decidable (Alone σ l) :=
  match l with
  | .call .. => decidable_of_iff (∀ t, (σ.calls t).isNone)
      (forall_congr' fun _ => Option.isNone_iff_eq_none)
  | .step _ => .isTrue trivial

/-- Where the migrations are when a call that runs alone is there. -/
def Pc.Phase (o : Outline Tid) : Pc → Prop
  | .loadCurrent | .ret _ => o.coordinator o.latest = .null
  | .insert root _ | .find root _ | .findNext root _ | .getValue root _ | .removeLoad root _
  | .removeCas root .. => root = o.latest ∧ o.coordinator o.latest = .null
  | .start root .unlock => root = o.latest ∧ ∃ j, o.coordinator o.latest = .job j
  | .start root _ => root = o.latest ∧ o.coordinator o.latest = .null
  | .participate root _ | .await root _ =>
    (root = o.latest ∧ ∃ j, o.coordinator o.latest = .job j) ∨
      o.coordinator root = .ended ∧ o.coordinator o.latest = .null
  | .run root j pc => root = o.latest ∧ o.coordinator o.latest = .job j ∧
    (pc = .increment → ¬(o.jobs j).Ended)
  | .migrate root j .. => root = o.latest ∧ o.coordinator o.latest = .job j
  | .complete root j pc => match pc with
    | .finishLoad | .finishStore _ => root = o.latest ∧ o.coordinator o.latest = .ended
    | .finishDelete _ => o.coordinator root = .ended ∧ o.coordinator o.latest = .null
    | .restartUnlock _ => root = o.latest ∧ ∃ j, o.coordinator o.latest = .job j
    | _ => root = o.latest ∧ o.coordinator o.latest = .job j
  | .crashed => True

/-- What holds of the call in progress, if there is one. -/
structure Lone (H : Hasher Key) (S : Shared Tid) (x : Option (Call Key)) : Prop where
  phase : x.elim (S.outline.coordinator S.latest = .null) fun c => c.pc.Phase S.outline
  /-- The call finds what it expects. -/
  aim : ∀ c ∈ x, ∀ T i v, c.pc.client? = some (T, i, v) → (S.tables T).value i = v
  tidy : ∀ T, Tidy (S.tables T) (x.bind fun c => c.insertAt H S T)

/-- The invariant of calls that do not overlap. -/
structure Solo [Fintype Tid] (H : Hasher Key) (σ : State Tid Key) : Prop where
  sound : Sound H σ
  custody : ∀ h, h ≠ mapHashEmpty → Custody σ.shared σ.calls h
  one : ∀ t u c d, σ.calls t = some c → σ.calls u = some d → t = u
  idle : (∀ t, σ.calls t = none) → Lone H σ.shared none
  lone : ∀ t c, σ.calls t = some c → Lone H σ.shared (some c)

section Steps

variable {H : Hasher Key} {signalSafeReaders : Bool} {S S' : Shared Tid}
  {c c' : Call Key} {t u : Tid} {calls : Tid → Option (Call Key)} {root : TableId} {j : JobId}

/-- A thread has found that the migration has not ended before it joins, line 401. -/
theorem enter_of_increment {m : Migration} {sizeOf : TableId → ℕ} {pc : RunPc}
    (hn : (m.runStep sizeOf pc).2 = .goto .increment) :
    (m.runStep sizeOf pc).1 = m ∧ ¬m.Ended := by
  cases pc with
  | enter =>
    simp only [Migration.runStep] at hn
    split_ifs at hn with he
    exact ⟨rfl, he⟩
  | claim s T =>
    cases T with
    | none => cases hn
    | some T =>
      simp only [Migration.runStep] at hn
      split_ifs at hn
      cases hn
  | source | check | finished | leave =>
    simp only [Migration.runStep] at hn
    split_ifs at hn <;> cases hn
  | increment | setOverflowed | overflowEnd | successEnd | loadOverflowed => cases hn

/-- A call that runs alone finds no cell moved at the current table. -/
theorem Values.ne_move (hval : Values S calls)
    (hphase : root = S.outline.latest ∧ S.outline.coordinator S.outline.latest = .null) (i : ℕ) :
    (S.tables root).value i ≠ mapValMove := by
  obtain ⟨rfl, hnull⟩ := hphase
  exact hval.unmoved hnull i

/-- It starts a migration of the current table. -/
theorem Pc.Phase.start {pc : StartPc} {next : StartNext}
    (hphase : (Pc.start root pc).Phase S.outline) (hval : Values S calls)
    (hs : startStep S t root pc = some (S', next)) :
    (Pc.afterStart root next).Phase S'.outline := by
  cases pc with
  | sample i n =>
    cases hs
    rw [if_neg (hval.ne_move hphase i)]
    split_ifs <;> exact hphase
  | lock n =>
    obtain ⟨S₁, hl, he⟩ := Option.map_eq_some_iff.1 hs
    cases he
    rw [(outline_lock hl).2]
    exact hphase
  | get n =>
    cases hs
    obtain ⟨rfl, hnull⟩ := hphase
    have hnull' : (S.tables S.outline.latest).coordinator = .null := hnull
    rw [if_pos hnull']
    exact ⟨rfl, hnull⟩
  | set n =>
    cases hs
    rw [outline_setCoordinator]
    exact ⟨hphase.1, S.nJobs, by rw [hphase.1]; exact Function.update_self ..⟩
  | unlock =>
    cases hs
    rw [outline_unlock]
    exact .inl hphase

/-- It ends the migration, or starts another one, and publishes the destination. -/
theorem Pc.Phase.complete [Fintype Tid] {pc : CompletePc} {next : CompleteNext}
    (hphase : (Pc.complete root j pc).Phase S.outline)
    (hco : Coordination S.outline (pcsOf calls))
    (ht : pcsOf calls t = some (.complete root j pc))
    (hs : completeStep S t j pc = some (S', next)) :
    (Pc.afterComplete root j next).Phase S'.outline := by
  have hok := hco.ok t _ ht
  obtain ⟨hjoin, -, hok⟩ := hok
  have hroot : ∀ {T}, S.outline.coordinator S.outline.latest = .job j →
      (S.jobs j).table 0 = some T → T = S.outline.latest := fun hc hT =>
    Option.some.inj (hT.symm.trans (hco.layout.sources j (hco.layout.job j hc)).root)
  cases pc with
  | setVictim =>
    simp only [completeStep, Option.some.injEq] at hs
    split at hs <;> cases hs
    · rw [outline_victim]
      exact hphase
    · trivial
  | endCoordinator =>
    simp only [completeStep, Option.some.injEq] at hs
    split at hs
    · rename_i T hT
      cases hs
      rw [hroot hphase.2 hT, outline_setCoordinator]
      exact ⟨hphase.1, Function.update_self ..⟩
    · cases hs
      trivial
  | finishLoad =>
    cases hs
    exact hphase
  | finishStore old =>
    cases hs
    obtain ⟨-, -, hopen, -⟩ := hok
    have hpub : (S.publish (S.jobs j).dest).outline = _ := outline_publish hopen.2
    rw [hpub]
    exact ⟨hphase.1 ▸ hphase.2, hco.layout.fresh _ hopen.2⟩
  | finishDelete old =>
    cases hs
    exact .inr hphase
  | restartTable =>
    simp only [completeStep, Option.some.injEq, Prod.mk.injEq] at hs
    obtain ⟨rfl, rfl⟩ := hs
    split
    · exact hphase
    · trivial
  | restartLock T =>
    obtain ⟨S₁, hl, he⟩ := Option.map_eq_some_iff.1 hs
    cases he
    rw [(outline_lock hl).2]
    exact hphase
  | restartGet T =>
    cases hs
    obtain ⟨rfl, hc, -⟩ := hok
    have hc' : (S.tables T).coordinator = .job j := hc
    rw [if_pos hc']
    exact hphase
  | restartSet T =>
    simp only [completeStep, Option.some.injEq] at hs
    split_ifs at hs <;> cases hs
    · obtain ⟨rfl, -⟩ := hok
      rw [outline_restart]
      exact ⟨hphase.1, S.outline.nJobs, by rw [hphase.1]; exact Function.update_self ..⟩
    · trivial
  | restartUnlock T =>
    cases hs
    rw [outline_unlock]
    exact .inl hphase

/-- Where the migrations are after a step. -/
theorem Pc.Phase.step [Fintype Tid] (hphase : c.pc.Phase S.outline) (hval : Values S calls)
    (hco : Coordination S.outline (pcsOf calls)) (ht : calls t = some c)
    (hs : c.step H signalSafeReaders S t = some (S', c')) : c'.pc.Phase S'.outline := by
  have hpc := pcsOf_eq ht rfl
  obtain ⟨op, doubleSize, pc⟩ := c
  cases pc with
  | loadCurrent =>
    cases hs
    have hcur : S.current = S.outline.latest := hco.layout.current
    cases op <;> exact ⟨hcur, hphase⟩
  | insert root pc =>
    rw [Call.step_insert] at hs
    cases hs
    rw [outline_insert]
    have he := insertOrUpdateStep_effect (S.tables root) (H.hash op.key) op.value pc
    revert he
    cases (insertOrUpdateStep (S.tables root) (H.hash op.key) op.value pc).2 with
    | goto pc' => exact fun _ => hphase
    | done out =>
      intro he
      cases he with
      | store | missed => exact hphase.2
      | moved k hm => exact absurd hm (hval.ne_move hphase k)
      | overflow =>
        show (Pc.start root (migrationStart _ doubleSize)).Phase S.outline
        rw [migrationStart]
        split_ifs <;> exact hphase
  | find root i =>
    cases hs
    dsimp only [Call.goto]
    split_ifs
    · exact hphase.2
    · cases op <;> exact hphase
    · exact hphase
  | findNext root i =>
    cases hs
    dsimp only [Call.goto]
    split_ifs
    · exact hphase.2
    · exact hphase
  | getValue root i =>
    cases hs
    dsimp only [Call.goto]
    rw [if_pos (hval.ne_move hphase i)]
    exact hphase.2
  | removeLoad root i =>
    cases hs
    dsimp only [Call.goto]
    rw [if_neg (hval.ne_move hphase i)]
    exact hphase
  | removeCas root i old =>
    simp only [Call.step] at hs
    split_ifs at hs <;> cases hs
    · rw [outline_write]
      exact hphase.2
    · exact hphase.2
  | start root pc =>
    obtain ⟨⟨S₁, next⟩, hstep, he⟩ := Option.map_eq_some_iff.1 hs
    cases he
    have hnext := hphase.start hval hstep
    cases next <;> exact hnext
  | participate root prevJob | await root prevJob =>
    cases hs
    simp only [Call.participate]
    split_ifs with he
    · exact hphase
    · rcases hphase with ⟨rfl, j, hc⟩ | ⟨hc, hnull⟩
      · have hc' : (S.tables S.outline.latest).coordinator = .job j := hc
        rw [hc']
        exact ⟨rfl, hc, RunPc.noConfusion⟩
      · have hc' : (S.tables root).coordinator = .ended := hc
        rw [hc']
        exact hnull
  | run root j pc =>
    rw [Call.step_run] at hs
    cases hs
    obtain ⟨hroot, hc, -⟩ := hphase
    show (Pc.afterRun root j _).Phase (S.outline.setJob j _)
    cases hn : ((S.jobs j).runStep S.outline.size pc).2 with
    | goto pc' =>
      refine ⟨hroot, hc, ?_⟩
      rintro rfl
      obtain ⟨he, hended⟩ := enter_of_increment hn
      show ¬(Function.update S.jobs j _ j).Ended
      rwa [Function.update_self, he]
    | migrateRange => exact ⟨hroot, hc⟩
    | complete overflow => cases overflow <;> exact ⟨hroot, hc⟩
    | done => exact .inl ⟨hroot, j, hc⟩
    | crash => trivial
  | migrate root j s T i last pc =>
    rw [Call.step_migrate] at hs
    cases hs
    rw [migrateStep_outline]
    cases (migrateStep S (S.jobs j).dest T i last pc).2 with
    | goto => exact hphase
    | done rangeOverflow => cases rangeOverflow <;> exact ⟨hphase.1, hphase.2, RunPc.noConfusion⟩
  | complete root j pc =>
    obtain ⟨⟨S₁, next⟩, hstep, he⟩ := Option.map_eq_some_iff.1 hs
    cases he
    have hnext := hphase.complete hco hpc hstep
    cases next <;> exact hnext
  | ret | crashed => cases hs

/-- It is about to store where it has found the value. -/
theorem Call.step_aim [Fintype Tid] (hcells : Cells H S calls)
    (hco : Coordination S.outline (pcsOf calls)) (ht : calls t = some c)
    (hs : c.step H signalSafeReaders S t = some (S', c')) {T i : ℕ} {v : ValueType}
    (hc : c'.pc.client? = some (T, i, v)) : (S'.tables T).value i = v := by
  obtain ⟨hv, -⟩ := Call.step_client hs hc
  have htable : c'.pc.table? = some T := by
    cases hpc : c'.pc with
    | insert root pc =>
      rw [hpc] at hc
      obtain ⟨_, -, he⟩ := Option.map_eq_some_iff.1 hc
      cases he
      rfl
    | removeCas root k old =>
      rw [hpc] at hc
      cases hc
      rfl
    | _ =>
      rw [hpc] at hc
      cases hc
  rcases Call.step_table? hs htable with hT | hT
  · cases Call.step_effect (hcells.knows t c ht) hs with
    | store _ _ _ _ hc' =>
      rw [hc'] at hc
      cases hc
    | migrate root j s U k last pc next _ _ hc' =>
      rw [hc'] at hc
      cases next <;> cases hc
    | run root j pc _ _ hc' =>
      rw [hc'] at hc
      generalize ((S.jobs j).runStep S.outline.size pc).2 = next at hc
      cases next <;> cases hc
    | quiet _ _ hval =>
      rw [hval T (hco.table_lt (pcsOf_eq ht rfl) hT).ne]
      exact hv
  · rw [hT]
    exact hv

/-- The chains of the tables after a step. -/
theorem Tidy.callStep (h : ∀ T, Tidy (S.tables T) (c.insertAt H S T)) (hcells : Cells H S calls)
    (ht : calls t = some c) (hs : c.step H signalSafeReaders S t = some (S', c')) (T : TableId) :
    Tidy (S'.tables T) (c'.insertAt H S' T) := by
  have htidy := h T
  cases hf : c.insertAt H S T with
  | some f =>
    rw [hf] at htidy
    obtain ⟨htable, hafter⟩ := Call.step_insertAt hs hf
    have htc : (calls t).bind (fun c => c.insertAt H S T) = some f := by
      rw [ht, Option.bind_some, hf]
    rw [htable, hafter]
    exact htidy.step ((hcells.chain T).ok t f htc) ((hcells.chain T).hash_ne t f htc)
      (hcells.chain T).links
  | none =>
    rw [hf] at htidy
    rcases Call.step_insertAt_none (hcells.knows t c ht) hs hf with
      hnone | ⟨⟨f, hf', hpc, -⟩, hsize, hhash, hdelta⟩
    · rw [hnone]
      cases Call.step_table (hcells.knows t c ht) hs T with
      | same hsize ha =>
        refine htidy.of_eq hsize ?_ ?_ <;> funext i
        · rw [HashTable.hash, ha, HashTable.hash]
        · rw [HashTable.delta, ha, HashTable.delta]
      | new _ ha =>
        refine .of_free (fun i => ?_) fun i => ?_
        · rw [HashTable.hash, ha]
          rfl
        · rw [HashTable.delta, ha]
          rfl
      | insert f hf' => cases hf.symm.trans hf'
      | write i v _ _ he =>
        rw [he]
        exact htidy.of_eq rfl (HashTable.setValue_hash ..) (HashTable.setValue_delta ..)
    · rw [hf']
      refine (htidy.of_eq hsize hhash hdelta).start ?_
      rw [hpc, InsertPc.start, InsertPc.start, HashTable.home, HashTable.home, hsize]

/-- No second cell is allocated to a hash. -/
theorem Tidy.once (h : ∀ T, Tidy (S.tables T) (c.insertAt H S T)) (hcells : Cells H S calls)
    (ht : calls t = some c) (q : HashType → Prop) : c.Once H q S := by
  rintro ⟨T, hash, k⟩ hx - he n hn hh
  obtain ⟨f, hf, rfl, i, d, hpc⟩ : ∃ f, c.insertAt H S T = some f ∧ f.hash = hash ∧
      ∃ i d, f.pc = .allocate i d := by
    obtain ⟨op, doubleSize, pc⟩ := c
    cases pc with
    | insert root pc =>
      obtain ⟨_, hk, he⟩ := Option.map_eq_some_iff.1 hx
      cases he
      cases pc with
      | allocate i d => exact ⟨_, if_pos rfl, rfl, i, d, rfl⟩
      | _ => cases hk
    | migrate root j s U m last pc =>
      cases pc with
      | insert g v pc =>
        obtain ⟨_, hk, he⟩ := Option.map_eq_some_iff.1 hx
        cases he
        cases pc with
        | allocate i d => exact ⟨_, if_pos rfl, rfl, i, d, rfl⟩
        | _ => cases hk
      | _ => cases hx
    | _ => cases hx
  have htc : (calls t).bind (fun c => c.insertAt H S T) = some f := by
    rw [ht, Option.bind_some, hf]
  have hI := hcells.chain T
  have hok := hI.ok t f htc
  have hcounts := (h T).counts f hf
  rw [hpc] at hok hcounts
  obtain ⟨hi, -, m, -, hw⟩ := hcounts
  have hon := hI.onChain_of_locked htc (by rw [hpc]; rfl) (by rw [hpc]; rfl) hn hh
  exact hw.not_onChain hi (.inr hok.2.1) hon hh

end Steps

/-! ## Runs -/

section Runs

variable [Fintype Tid] [DecidableEq Tid] {H : Hasher Key} {signalSafeReaders : Bool}
  {σ σ' : State Tid Key} {l : Label Tid Key} {t : Tid} {c : Call Key}

omit [DecidableEq Tid] in
theorem Solo.alone (h : Solo H σ) (hc : σ.calls t = some c) {u : Tid} (hu : u ≠ t) :
    σ.calls u = none := by
  cases hd : σ.calls u with
  | none => rfl
  | some d => exact absurd (h.one u t d c hd hc) hu

omit [DecidableEq Tid] in
/-- The steps of calls that do not overlap are on time, and allocate no second cell. -/
theorem Solo.orderly (h : Solo H σ) (q : HashType → Prop) : Orderly H q σ l := by
  cases l with
  | call => exact ⟨trivial, trivial⟩
  | step t =>
    refine ⟨fun c hc => ?_, fun c hc => ?_⟩
    · obtain ⟨hphase, -, -⟩ := h.lone t c hc
      obtain ⟨op, doubleSize, pc⟩ := c
      cases pc with
      | run root j pc =>
        rintro rfl he
        exact hphase.2.2 rfl (show (σ.shared.jobs j).state % 2 = 1 by rw [he])
      | _ => trivial
    · exact Tidy.once (h.lone t c hc).tidy h.sound.cells hc q

omit [Fintype Tid] in
/-- The call in progress after a step of its thread. -/
theorem eq_of_update {calls : Tid → Option (Call Key)} (hnone : ∀ u, u ≠ t → calls u = none)
    {x : Option (Call Key)} {u : Tid} {d : Call Key} (hd : Function.update calls t x u = some d) :
    u = t ∧ x = some d := by
  rcases ThreadSum.update_eq_some_iff.1 hd with ⟨rfl, hx⟩ | ⟨hu, hd⟩
  · exact ⟨rfl, hx⟩
  · exact nomatch (hnone u hu).symm.trans hd

theorem Solo.next (h : Solo H σ) (hl : Alone σ l)
    (hn : (provider Tid H signalSafeReaders).next σ l = some σ') : Solo H σ' := by
  have ho : ∀ q, Orderly H q σ l := h.orderly
  have hsound := h.sound.next (ho fun _ => True).1 hn
  have hcustody : ∀ g, g ≠ mapHashEmpty → Custody σ'.shared σ'.calls g := fun g hg =>
    (h.custody g hg).next h.sound (ho fun _ => True).1 (ho (· = g)).2 hg hn
  -- One thread may have changed its call, and the others have none.
  have hmain : ∀ t x, (∀ u, u ≠ t → σ.calls u = none) →
      σ'.calls = Function.update σ.calls t x → Lone H σ'.shared x → Solo H σ' := by
    intro t x hnone hcalls hlone
    refine ⟨hsound, hcustody, fun u v c d hu hv => ?_, fun hidle => ?_, fun u d hd => ?_⟩
    · rw [hcalls] at hu hv
      rw [(eq_of_update hnone hu).1, (eq_of_update hnone hv).1]
    · have ht := hidle t
      rw [hcalls, Function.update_self] at ht
      rwa [ht] at hlone
    · rw [hcalls] at hd
      rwa [(eq_of_update hnone hd).2] at hlone
  cases State.transition_of_next H signalSafeReaders hn with
  | call t op hc =>
    obtain ⟨hphase, -, htidy⟩ := h.idle hl
    exact hmain t _ (fun u _ => hl u) rfl ⟨hphase, fun c hx => by cases hx; exact nofun, htidy⟩
  | ret t c result hc hret =>
    obtain ⟨hphase, -, htidy⟩ := h.lone t c hc
    refine hmain t _ (fun u hu => h.alone hc hu) rfl ⟨?_, nofun, fun T => ?_⟩
    · rw [Option.elim_some, hret] at hphase
      exact hphase
    · have hT := htidy T
      rwa [Option.bind_some, Call.insertAt, hret] at hT
  | step t c c' S' hc hs =>
    obtain ⟨hphase, -, htidy⟩ := h.lone t c hc
    obtain ⟨hco, hcells, hval⟩ := h.sound
    refine hmain t _ (fun u hu => h.alone hc hu) rfl ⟨?_, fun d hd => ?_, fun T => ?_⟩
    · exact Pc.Phase.step hphase hval hco hc hs
    · cases hd
      exact fun T i v haim => Call.step_aim hcells hco hc hs haim
    · exact Tidy.callStep htidy hcells hc hs T

omit [DecidableEq Tid] in
theorem Solo.initial (n : BitVec 64) : Solo H (State.new n : State Tid Key) := by
  refine ⟨.initial n, fun _ hg => .initial n hg, fun _ _ _ _ hc => (nomatch hc),
    fun _ => ?_, fun _ _ hc => nomatch hc⟩
  have hnull : (HashTable.new n : HashTable Tid).coordinator = .null := rfl
  exact ⟨hnull, fun _ hc => (nomatch hc), fun T => .of_free (fun _ => rfl) fun _ => rfl⟩

/-- In every run in which no calls overlap, the invariant holds. -/
theorem solo_of_run {n : BitVec 64} {tr : List (State Tid Key × Label Tid Key)}
    (hr : (provider Tid H signalSafeReaders).Run Alone (.new n) tr σ) : Solo H σ :=
  hr.invariant (fun _ _ _ h hl hn => h.next hl hn) (.initial n)

end Runs

end FkProf.ConcurrentMap
