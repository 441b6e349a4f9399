import FkProf.Foundations.System
import FkProf.ThreadMap

/-!
# Registration with the collector

A bucket is attached when it is built and should be detached when it leaves the
map. `remove` does both; `put` under a key that is mapped releases the bucket it
replaces without detaching it, and `GCHelper::detach` does nothing for a bucket
whose epoch is `kEpochInitial`, which the global epoch reaches before it wraps
around. In a run without these two steps (`Detaches`) the collector's counters
are those of the buckets in the map.

* `registered_of_run`: the invariant of these runs;
* `registration_follows_map`: the counters and the attached buckets;
* `exists_undetached`: a run that puts a key twice.
-/

namespace FkProf.ThreadMap

open FkProf.Gc (GC Tracks EpochType kEpochInitial)

/-! ## Runs of calls -/

/-- A call of the thread map, with the tables that the map retires in it. -/
inductive Op (Key Table : Type*)
  | put (key : Key) (name : String) (tid : ℤ) (retired : List Table)
  | get (key : Key)
  | remove (key : Key) (retired : List Table)

section Steps

variable {Key Table : Type*} [DecidableEq Key]

/-- A call from its beginning to its end. -/
def State.step (σ : State Key Table) : Op Key Table → State Key Table
  | .put key name tid retired => σ.put key name tid retired
  | .get key => (σ.get key).1
  | .remove key retired => σ.remove key retired

variable (Key Table) in
/-- The thread map as a transition system whose steps are whole calls. -/
def calls : System (State Key Table) (Op Key Table) where
  init := {State.initial}
  next σ op := some (σ.step op)

/-- The call detaches the bucket that leaves the map, if one does. -/
def Detaches (σ : State Key Table) : Op Key Table → Prop
  | .put key _ _ _ => σ.map.lookup key = none
  | .get _ => True
  | .remove key _ => (σ.map.lookup key).all fun b => (σ.buckets b).localEpoch ≠ kEpochInitial

instance (σ : State Key Table) (op : Op Key Table) : Decidable (Detaches σ op) := by
  cases op <;> unfold Detaches <;> infer_instance

end Steps

/-! ## The invariant -/

variable {Key Table : Type*} {σ : State Key Table}

/-- The epoch of a bucket. -/
def State.epoch (σ : State Key Table) (b : ℕ) : EpochType := (σ.buckets b).localEpoch

/-- The collector's attached buckets are those in the map. -/
structure Registered (σ : State Key Table) : Prop where
  nodup : σ.mapped.Nodup
  alloc : ∀ b ∈ σ.mapped, b < σ.nBuckets
  attached : ∀ b, (σ.buckets b).attached = true ↔ b ∈ σ.mapped
  tracks : Tracks σ.gc (σ.mapped.map σ.epoch)

/-- The references to a bucket change. -/
theorem Registered.setRefs (h : Registered σ) {b : ℕ} {tb : ThreadBucket}
    (he : tb.localEpoch = (σ.buckets b).localEpoch)
    (ha : tb.attached = (σ.buckets b).attached) : Registered (σ.setBucket b tb) where
  nodup := h.nodup
  alloc := h.alloc
  attached b' := by
    change _ ↔ b' ∈ σ.mapped
    rw [← h.attached b']
    by_cases hb : b' = b
    · subst hb
      simp [State.setBucket, ha]
    · simp [State.setBucket, hb]
  tracks := by
    have hepoch : (σ.setBucket b tb).epoch = σ.epoch := by
      funext b'
      by_cases hb : b' = b
      · subst hb
        simp [State.epoch, State.setBucket, he]
      · simp [State.epoch, State.setBucket, hb]
    rw [hepoch]
    exact h.tracks

theorem Registered.release (h : Registered σ) (b : ℕ) : Registered (σ.release b) :=
  h.setRefs rfl rfl

/-- The other buckets keep their epochs. -/
theorem map_epoch_setBucket {bs : List ℕ} {b : ℕ} {tb : ThreadBucket} {gc : GC Unit Table}
    (hb : b ∉ bs) :
    bs.map (({ σ with gc := gc }.setBucket b tb).epoch) = bs.map σ.epoch := by
  refine List.map_congr_left fun b' hmem => ?_
  have hne : b' ≠ b := by
    rintro rfl
    exact hb hmem
  simp [State.epoch, State.setBucket, hne]

/-- A bucket in the map passes the global epoch, and the collector counts it. -/
theorem Registered.pass (h : Registered σ) {b : ℕ} (hb : b ∈ σ.mapped) {gc : GC Unit Table}
    {e : EpochType} (hpass : ∀ es, Tracks σ.gc (σ.epoch b :: es) → Tracks gc (e :: es)) :
    Registered ({ σ with gc := gc }.setBucket b { σ.buckets b with localEpoch := e }) where
  nodup := h.nodup
  alloc := h.alloc
  attached b' := by
    change _ ↔ b' ∈ σ.mapped
    rw [← h.attached b']
    by_cases hb' : b' = b
    · subst hb'
      simp [State.setBucket]
    · simp [State.setBucket, hb']
  tracks := by
    have hperm := List.perm_cons_erase hb
    have hnot : b ∉ σ.mapped.erase b := h.nodup.not_mem_erase
    have hold := h.tracks.perm (hperm.map σ.epoch)
    rw [List.map_cons] at hold
    refine (hpass _ hold).perm ?_
    refine List.Perm.trans ?_ (hperm.map _).symm
    rw [List.map_cons, map_epoch_setBucket hnot]
    simp [State.epoch, State.setBucket]

theorem tracks_retire {gc : GC Unit Table} {es : List EpochType} (h : Tracks gc es)
    (retired : List Table) : Tracks (retired.foldl GC.scheduleDelete gc) es := by
  induction retired generalizing gc with
  | nil => exact h
  | cons x rest ih => exact ih (h.scheduleDelete x)

theorem Registered.retire (h : Registered σ) (retired : List Table) :
    Registered (σ.retire retired) :=
  ⟨h.nodup, h.alloc, h.attached, tracks_retire h.tracks retired⟩

variable [DecidableEq Key]

/-- A new bucket under a key that is not mapped. -/
theorem Registered.insert (h : Registered σ) {key : Key} (hkey : σ.map.lookup key = none)
    (name : String) (tid : ℤ) (retired : List Table) :
    Registered (σ.insert key name tid retired).1 := by
  have hfresh : σ.nBuckets ∉ σ.mapped := fun hmem => lt_irrefl _ (h.alloc _ hmem)
  refine Registered.retire ?_ retired
  set σ' : State Key Table := { σ.newBucket tid name with map := σ.map.insert key σ.nBuckets }
  have hmapped : σ'.mapped = σ.nBuckets :: σ.mapped :=
    (mapped_insert σ key σ.nBuckets).trans (by rw [mapped_erase_of_lookup_none hkey])
  have hother : ∀ b, b ≠ σ.nBuckets → σ'.buckets b = σ.buckets b := fun b hb =>
    Function.update_of_ne hb _ _
  have hnew : σ'.buckets σ.nBuckets = ⟨tid, name, 1, σ.gc.attachThread.2, true, false⟩ :=
    Function.update_self _ _ _
  refine ⟨?_, fun b hb => ?_, fun b => ?_, ?_⟩
  · rw [hmapped]
    exact List.nodup_cons.2 ⟨hfresh, h.nodup⟩
  · rw [hmapped, List.mem_cons] at hb
    rcases hb with rfl | hb
    · exact Nat.lt_succ_self _
    · exact (h.alloc b hb).trans (Nat.lt_succ_self _)
  · rw [hmapped, List.mem_cons]
    by_cases hb : b = σ.nBuckets
    · subst hb
      simp [hnew]
    · simp [hother b hb, h.attached b, hb]
  · rw [hmapped, List.map_cons]
    have hrest : σ.mapped.map σ'.epoch = σ.mapped.map σ.epoch :=
      List.map_congr_left fun b hb => by
        rw [State.epoch, hother b (fun he => hfresh (he ▸ hb)), State.epoch]
    have hepoch : σ'.epoch σ.nBuckets = σ.gc.attachThread.2 := by rw [State.epoch, hnew]
    rw [hrest, hepoch]
    exact h.tracks.attachThread

theorem Registered.put (h : Registered σ) {key : Key} (hkey : σ.map.lookup key = none)
    (name : String) (tid : ℤ) (retired : List Table) :
    Registered (σ.put key name tid retired) := by
  have hins := h.insert hkey name tid retired
  have hlookup : (σ.insert key name tid retired).1.map.lookup key = some σ.nBuckets := by
    simp [State.insert, State.retire]
  have hmem := mem_mapped_of_lookup hlookup
  have hput : σ.put key name tid retired =
      (σ.insert key name tid retired).1.safepoint σ.nBuckets := by
    simp only [State.put, State.insert, hkey]
  rw [hput]
  exact hins.pass hmem fun es => Tracks.safepoint

theorem Registered.get (h : Registered σ) (key : Key) : Registered (σ.get key).1 := by
  unfold State.get
  cases hkey : σ.map.lookup key with
  | none => exact h
  | some b =>
    simp only [State.acqBucket]
    split <;> rename_i heq <;> split at heq <;> cases heq
    · have hacq : Registered
          (σ.setBucket b { σ.buckets b with refs := (σ.buckets b).refs + 1 }) := h.setRefs rfl rfl
      exact hacq.pass (mem_mapped_of_lookup hkey) fun es => Tracks.ssSafepoint
    · exact h

/-- The bucket under a key leaves the map and is detached. -/
theorem Registered.unmap (h : Registered σ) {key : Key} {b : ℕ} (hkey : σ.map.lookup key = some b)
    (he : (σ.buckets b).localEpoch ≠ kEpochInitial) (retired : List Table) :
    Registered (((σ.erase key).retire retired).detach b) := by
  set σ₁ : State Key Table := σ.erase key
  have hperm : σ.mapped.Perm (b :: σ₁.mapped) := mapped_perm_of_lookup hkey
  have hnodup : (b :: σ₁.mapped).Nodup := hperm.nodup_iff.1 h.nodup
  have hnot : b ∉ σ₁.mapped := (List.nodup_cons.1 hnodup).1
  have htracks : Tracks (σ₁.retire retired).gc (σ.epoch b :: σ₁.mapped.map σ.epoch) :=
    tracks_retire (h.tracks.perm (hperm.map σ.epoch)) retired
  have hne : ((σ₁.retire retired).buckets b).localEpoch ≠ kEpochInitial := he
  rw [State.detach, if_pos hne]
  refine ⟨(List.nodup_cons.1 hnodup).2, fun b' hb' => ?_, fun b' => ?_, ?_⟩
  · exact h.alloc b' (hperm.mem_iff.2 (List.mem_cons_of_mem _ hb'))
  · change _ ↔ b' ∈ σ₁.mapped
    by_cases hb : b' = b
    · subst hb
      simp [State.setBucket, hnot]
    · have hatt := h.attached b'
      rw [hperm.mem_iff, List.mem_cons, or_iff_right hb] at hatt
      rw [← hatt]
      simp [State.setBucket, hb, State.retire, State.erase, σ₁]
  · change Tracks _ (σ₁.mapped.map _)
    rw [map_epoch_setBucket hnot]
    exact htracks.detachThread he

theorem Registered.remove (h : Registered σ) {key : Key} {retired : List Table}
    (hl : Detaches σ (.remove key retired)) : Registered (σ.remove key retired) := by
  simp only [Detaches] at hl
  unfold State.remove State.unmap
  cases hkey : σ.map.lookup key with
  | none => exact h.retire retired
  | some b =>
    rw [hkey] at hl
    exact (h.unmap hkey (by simpa using hl) retired).release b

theorem Registered.step (h : Registered σ) {op : Op Key Table} (hl : Detaches σ op) :
    Registered (σ.step op) := by
  cases op with
  | put key name tid retired => exact h.put hl name tid retired
  | get key => exact h.get key
  | remove key retired => exact h.remove hl

omit [DecidableEq Key] in
theorem Registered.initial : Registered (State.initial : State Key Table) where
  nodup := List.nodup_nil
  alloc := by simp [State.mapped, State.initial]
  attached := by simp [State.mapped, State.initial]
  tracks := ⟨rfl, rfl, by simp [State.mapped, State.initial]⟩

/-- The invariant holds in every run whose calls detach what leaves the map. -/
theorem registered_of_run {σ' : State Key Table} {tr : List (State Key Table × Op Key Table)}
    (hr : (calls Key Table).Run Detaches σ tr σ') (h : Registered σ) : Registered σ' :=
  hr.invariant (fun a op b ha hl hn => by
    obtain rfl := Option.some.inj (show some (a.step op) = some b from hn)
    exact ha.step hl) h

/-! ## Registration -/

/-- In a run whose calls detach what leaves the map, after each call the collector
    counts as many threads as there are keys, every attached bucket is in the map,
    and the threads that remain before the next epoch are the buckets in the map
    that have not passed the global epoch. -/
theorem registration_follows_map {σ : State Key Table}
    {tr : List (State Key Table × Op Key Table)}
    (hr : (calls Key Table).Run Detaches State.initial tr σ) :
    σ.gc.totalThreads = σ.map.keys.length ∧
      (∀ b, (σ.buckets b).attached = true → ∃ key, σ.map.lookup key = some b) ∧
      σ.gc.remaining =
        σ.mapped.countP (fun b => (σ.buckets b).localEpoch ≠ σ.gc.globalEpoch) := by
  have h := registered_of_run hr .initial
  refine ⟨?_, fun b hb => lookup_of_mem_mapped ((h.attached b).1 hb), ?_⟩
  · rw [h.tracks.total]
    simp [State.mapped, AList.keys, List.keys]
  · rw [h.tracks.remaining, List.countP_map]
    rfl

/-- Two threads start, one is sampled, and the other ends. -/
theorem registration_follows_map_two : ∃ σ : State (Fin 2) Unit, σ.map.keys = [0] ∧
    σ.gc.totalThreads = σ.map.keys.length := by
  have hrun : ((calls (Fin 2) Unit).exec Detaches State.initial
      [.put 0 "main" 1 [], .put 1 "worker" 2 [()], .get 0, .remove 1 []]).any (fun σ =>
        decide (σ.map.keys = [0])) = true := by
    decide +kernel
  obtain ⟨tr, σ, hr, hσ⟩ := System.exists_run_of_exec hrun
  exact ⟨σ, of_decide_eq_true hσ, (registration_follows_map hr).1⟩

/-- A key is put twice: two threads are counted, one key is mapped. -/
theorem exists_undetached : ¬∀ (σ : State (Fin 2) Unit)
    (tr : List (State (Fin 2) Unit × Op (Fin 2) Unit)),
    (calls (Fin 2) Unit).Run System.anyStep State.initial tr σ →
      σ.gc.totalThreads = σ.map.keys.length ∧
        (∀ b, (σ.buckets b).attached = true → ∃ key, σ.map.lookup key = some b) ∧
        σ.gc.remaining =
          σ.mapped.countP (fun b => (σ.buckets b).localEpoch ≠ σ.gc.globalEpoch) := by
  intro hall
  have hrun : ((calls (Fin 2) Unit).exec System.anyStep State.initial
      [.put 0 "main" 1 [], .put 0 "main" 1 []]).any (fun σ =>
        decide (σ.map.keys.length = 1 ∧ σ.gc.totalThreads = 2)) = true := by
    decide +kernel
  obtain ⟨tr, σ, hr, hσ⟩ := System.exists_run_of_exec hrun
  obtain ⟨hkeys, htotal⟩ := of_decide_eq_true hσ
  have htotal' := (hall σ tr hr).1
  rw [hkeys, htotal] at htotal'
  exact absurd htotal' (by decide)

end FkProf.ThreadMap
