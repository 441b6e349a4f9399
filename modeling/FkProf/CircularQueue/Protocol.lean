import FkProf.CircularQueue

/-!
# The index protocol of the queue

Counting the reservations and the pops without wrapping around, `input` and
`output` are the counts modulo `Capacity`, and the slot of the `k`-th
reservation is `k` modulo `Capacity`. The invariant (`Inv`) says that at most
`Size` reservations are outstanding, so that their slots are distinct; that
every slot of a reservation that is not delivered is either held by the
producer that made it, or committed with its item; and that nothing else is
committed.

A producer reads `input`, checks that the queue is not full and only then makes
its compare-and-swap, which succeeds if `input` has the same value again. After
a whole lap it does, and the check says nothing about the queue as it is now.
`Overfills` is the step that reserves a slot of a full queue this way.

* `inv_of_run`: the invariant, in every run without that step;
* `queue_safe`: what it means for the items;
* `exists_overfull`: a run with that step has more than `Size` items outstanding.
-/

namespace FkProf.Queue

variable {Tid Bucket : Type*}

/-- The consumer has delivered an item and not yet freed its slot. -/
def Pop.unfinished : Pop → ℕ
  | .clear _ | .uncommit _ | .storeOutput _ => 1
  | _ => 0

/-- How many items have been popped. -/
def State.popped (σ : State Tid Bucket) : ℕ := σ.delivered.length - σ.consumer.unfinished

/-- The slot that a producer has reserved and not yet committed. -/
def Push.slot? : Push Bucket → Option ℕ
  | .write _ slot | .commit slot => some slot
  | _ => none

/-- A compare-and-swap succeeds although the queue is full. -/
def Overfills (σ : State Tid Bucket) : Label Tid Bucket → Prop
  | .producer t =>
    match σ.producers t with
    | .casInput _ currentInput =>
      σ.queue.input = currentInput ∧ σ.queue.output = advance currentInput
    | _ => False
  | _ => False

/-- The other steps. -/
def Fits (σ : State Tid Bucket) (l : Label Tid Bucket) : Prop := ¬Overfills σ l

instance (σ : State Tid Bucket) (l : Label Tid Bucket) : Decidable (Fits σ l) := by
  cases l <;> simp only [Fits, Overfills]
  case producer t => cases σ.producers t <;> infer_instance
  all_goals infer_instance

/-- What the consumer knows. -/
def Pop.Ok (σ : State Tid Bucket) : Pop → Prop
  | .idle | .loadOutput => True
  | .loadInput o => o = σ.queue.output
  | .wait o => o = σ.queue.output ∧ σ.popped < σ.reserved.length
  | .record o =>
    o = σ.queue.output ∧ σ.popped < σ.reserved.length ∧ (σ.queue.buffer o).isCommitted = true
  | .clear o | .uncommit o => o = σ.queue.output ∧ (σ.queue.buffer o).isCommitted = true
  | .storeOutput o => o = σ.queue.output ∧ (σ.queue.buffer o).isCommitted = false

/-- What holds of a producer with a slot: it is the slot of a reservation that is
    not delivered, and not committed; past the write it has the item. -/
def Push.Ok (σ : State Tid Bucket) : Push Bucket → Prop
  | .write item s =>
    (∃ k, σ.delivered.length ≤ k ∧ σ.reserved[k]? = some (s, item)) ∧
      (σ.queue.buffer s).isCommitted = false
  | .commit s =>
    (∃ k item, σ.delivered.length ≤ k ∧ σ.reserved[k]? = some (s, item) ∧
      (σ.queue.item s).view = item.view) ∧ (σ.queue.buffer s).isCommitted = false
  | _ => True

/-- The invariant of the protocol. -/
structure Inv (σ : State Tid Bucket) : Prop where
  unfinished : σ.consumer.unfinished ≤ σ.delivered.length
  popped_le : σ.popped ≤ σ.reserved.length
  le_size : σ.reserved.length ≤ σ.popped + Size
  input : σ.queue.input = σ.reserved.length % Capacity
  output : σ.queue.output = σ.popped % Capacity
  slot : ∀ k s item, σ.reserved[k]? = some (s, item) → s = k % Capacity
  delivered : σ.delivered.map Item.view <+: σ.reserved.map fun r => r.2.view
  consumer : σ.consumer.Ok σ
  producer : ∀ t, (σ.producers t).Ok σ
  unique : ∀ t u s, (σ.producers t).slot? = some s → (σ.producers u).slot? = some s → t = u
  ready : ∀ k s item, σ.delivered.length ≤ k → σ.reserved[k]? = some (s, item) →
    (∃ t, (σ.producers t).slot? = some s) ∨
      (σ.queue.buffer s).isCommitted = true ∧ (σ.queue.item s).view = item.view
  free : ∀ s, (σ.queue.buffer s).isCommitted = true →
    ∃ k, σ.popped ≤ k ∧ k < σ.reserved.length ∧ s = k % Capacity

/-! ## The ring -/

/-- Fewer than `Capacity` successive indices have distinct slots. -/
theorem mod_capacity_inj {a i j : ℕ} (hi : a ≤ i) (hi' : i < a + Capacity) (hj : a ≤ j)
    (hj' : j < a + Capacity) (h : i % Capacity = j % Capacity) : i = j := by
  simp only [Capacity, Size] at hi' hj' h
  omega

theorem advance_mod (k : ℕ) : advance (k % Capacity) = (k + 1) % Capacity := by
  rw [advance, Nat.mod_add_mod]

theorem lt_of_getElem? {α : Type*} {l : List α} {k : ℕ} {a : α} (h : l[k]? = some a) :
    k < l.length :=
  (List.getElem?_eq_some_iff.1 h).1

/-! ## The slots -/

section Slots

variable {q : CircularQueue Bucket} {item : Item Bucket} {s s' : ℕ} {b : Bool}

@[simp] theorem write_input : (q.write item s).input = q.input := rfl
@[simp] theorem write_output : (q.write item s).output = q.output := rfl
@[simp] theorem clear_input : (q.clear s).input = q.input := rfl
@[simp] theorem clear_output : (q.clear s).output = q.output := rfl
@[simp] theorem setCommitted_input : (q.setCommitted s b).input = q.input := rfl
@[simp] theorem setCommitted_output : (q.setCommitted s b).output = q.output := rfl

@[simp] theorem write_isCommitted :
    ((q.write item s).buffer s').isCommitted = (q.buffer s').isCommitted := by
  by_cases h : s' = s
  · subst h; simp [CircularQueue.write]
  · simp [CircularQueue.write, h]

@[simp] theorem clear_isCommitted :
    ((q.clear s).buffer s').isCommitted = (q.buffer s').isCommitted := by
  by_cases h : s' = s
  · subst h; simp [CircularQueue.clear]
  · simp [CircularQueue.clear, h]

@[simp] theorem setCommitted_isCommitted_self :
    ((q.setCommitted s b).buffer s).isCommitted = b := by
  simp [CircularQueue.setCommitted]

theorem setCommitted_isCommitted_of_ne (h : s' ≠ s) :
    ((q.setCommitted s b).buffer s').isCommitted = (q.buffer s').isCommitted := by
  simp [CircularQueue.setCommitted, h]

@[simp] theorem setCommitted_item : (q.setCommitted s b).item s' = q.item s' := by
  by_cases h : s' = s
  · subst h; simp [CircularQueue.setCommitted, CircularQueue.item]
  · simp [CircularQueue.setCommitted, CircularQueue.item, h]

theorem write_item_of_ne (h : s' ≠ s) : (q.write item s).item s' = q.item s' := by
  simp [CircularQueue.write, CircularQueue.item, h]

theorem clear_item_of_ne (h : s' ≠ s) : (q.clear s).item s' = q.item s' := by
  simp [CircularQueue.clear, CircularQueue.item, h]

/-- A slot written to has the item. -/
theorem write_item_view : ((q.write item s).item s).view = item.view := by
  simp only [CircularQueue.write, CircularQueue.item, Item.view, Function.update_self,
    Prod.mk.injEq, true_and, and_true]
  refine List.map_congr_left fun i hi => ?_
  rw [List.mem_range] at hi
  rw [copyFrames, if_pos (by omega)]

end Slots

/-! ## Preservation -/

section Preservation

variable {σ : State Tid Bucket} {t : Tid}

theorem State.popped_le_delivered (σ : State Tid Bucket) : σ.popped ≤ σ.delivered.length :=
  Nat.sub_le ..

/-- Outstanding reservations have distinct slots. -/
theorem Inv.slot_inj (h : Inv σ) {i j s : ℕ} {x y : Item Bucket} (hi : σ.popped ≤ i)
    (hx : σ.reserved[i]? = some (s, x)) (hj : σ.popped ≤ j) (hy : σ.reserved[j]? = some (s, y)) :
    i = j ∧ x = y := by
  have hi' := lt_of_getElem? hx
  have hj' := lt_of_getElem? hy
  have hle := h.le_size
  have hij : i = j := mod_capacity_inj hi (by rw [Capacity]; omega) hj (by rw [Capacity]; omega)
    ((h.slot i s x hx).symm.trans (h.slot j s y hy))
  subst hij
  exact ⟨rfl, congrArg Prod.snd (Option.some.inj (hx.symm.trans hy))⟩

/-- The slot of a producer is that of a reservation that is not delivered. -/
theorem Inv.reservation (h : Inv σ) {s : ℕ} (hs : (σ.producers t).slot? = some s) :
    (∃ k item, σ.delivered.length ≤ k ∧ σ.reserved[k]? = some (s, item)) ∧
      (σ.queue.buffer s).isCommitted = false := by
  have hok := h.producer t
  cases hpc : σ.producers t <;> simp only [hpc, Push.slot?, Option.some.injEq, reduceCtorEq] at hs
  case write item slot =>
    rw [hpc] at hok
    subst hs
    obtain ⟨⟨k, hk, hr⟩, hc⟩ := hok
    exact ⟨⟨k, item, hk, hr⟩, hc⟩
  case commit slot =>
    rw [hpc] at hok
    subst hs
    obtain ⟨⟨k, item, hk, hr, -⟩, hc⟩ := hok
    exact ⟨⟨k, item, hk, hr⟩, hc⟩

/-- A producer without a slot knows nothing of the queue. -/
theorem Push.Ok.of_slot {pc : Push Bucket} (h : pc.slot? = none) : pc.Ok σ := by
  cases pc <;> simp_all [Push.slot?, Push.Ok]

/-- What the consumer knows outlasts reservations and commits. -/
theorem Pop.Ok.mono {σ' : State Tid Bucket} {c : Pop} (h : c.Ok σ)
    (ho : σ'.queue.output = σ.queue.output) (hp : σ'.popped = σ.popped)
    (hr : σ.reserved.length ≤ σ'.reserved.length)
    (hcom : ∀ o, (σ.queue.buffer o).isCommitted = true → (σ'.queue.buffer o).isCommitted = true)
    (hun : ∀ o, c = .storeOutput o → (σ.queue.buffer o).isCommitted = false →
      (σ'.queue.buffer o).isCommitted = false) : c.Ok σ' := by
  cases c <;> simp only [Pop.Ok, ho, hp] at h ⊢
  case loadInput o => exact h
  case wait o => exact ⟨h.1, h.2.trans_le hr⟩
  case record o => exact ⟨h.1, h.2.1.trans_le hr, hcom o h.2.2⟩
  case clear o => exact ⟨h.1, hcom o h.2⟩
  case uncommit o => exact ⟨h.1, hcom o h.2⟩
  case storeOutput o => exact ⟨h.1, hun o rfl h.2⟩

variable [DecidableEq Tid]

@[simp] theorem State.setProducer_self (pc : Push Bucket) :
    (σ.setProducer t pc).producers t = pc :=
  Function.update_self ..

theorem State.setProducer_of_ne {u : Tid} (pc : Push Bucket) (h : u ≠ t) :
    (σ.setProducer t pc).producers u = σ.producers u :=
  Function.update_of_ne h ..

/-- A producer without a slot moves, and takes none. -/
theorem Inv.setProducer (h : Inv σ) {pc : Push Bucket} (hold : (σ.producers t).slot? = none)
    (hnew : pc.slot? = none) : Inv (σ.setProducer t pc) := by
  have hslot : ∀ u s, ((σ.setProducer t pc).producers u).slot? = some s ↔
      (σ.producers u).slot? = some s := fun u s => by
    by_cases hu : u = t
    · rw [hu, State.setProducer_self, hold, hnew]
    · rw [State.setProducer_of_ne pc hu]
  refine { h with
    producer := fun u => ?_
    unique := fun u v s hu hv => h.unique u v s ((hslot u s).1 hu) ((hslot v s).1 hv)
    ready := fun k s item hk hr => (h.ready k s item hk hr).imp_left fun ⟨u, hu⟩ =>
      ⟨u, (hslot u s).2 hu⟩ }
  by_cases hu : u = t
  · rw [hu, State.setProducer_self]
    exact .of_slot hnew
  · rw [State.setProducer_of_ne pc hu]
    exact h.producer u

/-- A producer reserves a slot of a queue that is not full. -/
theorem Inv.reserve (h : Inv σ) {item : Item Bucket} {c : ℕ}
    (hpc : σ.producers t = .casInput item c) (hc : σ.queue.input = c)
    (hfull : σ.queue.output ≠ advance c) :
    Inv { σ.setProducer t (.write item c) with
      queue := { σ.queue with input := advance c }
      reserved := σ.reserved ++ [(c, item)] } := by
  have hlen : (σ.reserved ++ [(c, item)]).length = σ.reserved.length + 1 := by simp
  have hcR : c = σ.reserved.length % Capacity := by rw [← hc, h.input]
  have hlt : σ.reserved.length < σ.popped + Size := by
    refine lt_of_le_of_ne h.le_size fun he => hfull ?_
    rw [h.output, hcR, advance_mod, he]
    simp [Capacity, Nat.add_assoc]
  -- Nobody has the slot: it is a lap ahead of the outstanding ones.
  have hfresh : ∀ k, σ.popped ≤ k → k < σ.reserved.length → c ≠ k % Capacity := fun k hk hk' he => by
    have := mod_capacity_inj (j := σ.reserved.length) hk (by rw [Capacity]; omega) h.popped_le
      (by rw [Capacity]; omega) (he.symm.trans hcR)
    omega
  have hheld : ∀ u, (σ.producers u).slot? ≠ some c := fun u hu => by
    obtain ⟨⟨k, x, hk, hr⟩, -⟩ := h.reservation hu
    exact hfresh k (σ.popped_le_delivered.trans hk) (lt_of_getElem? hr) (h.slot k c x hr)
  have hold : (σ.producers t).slot? = none := by rw [hpc]; rfl
  have hget : ∀ k s x, (σ.reserved ++ [(c, item)])[k]? = some (s, x) →
      σ.reserved[k]? = some (s, x) ∨ k = σ.reserved.length ∧ s = c ∧ x = item := fun k s x hr => by
    rcases Nat.lt_or_ge k σ.reserved.length with hk | hk
    · exact .inl (by rwa [List.getElem?_append_left hk] at hr)
    · rw [List.getElem?_append_right hk] at hr
      have := lt_of_getElem? hr
      simp only [List.length_singleton, Nat.lt_one_iff] at this
      rw [this] at hr
      obtain ⟨rfl, rfl⟩ := Prod.mk.inj (Option.some.inj hr)
      exact .inr ⟨by omega, rfl, rfl⟩
  have hlift : ∀ {k s x}, σ.reserved[k]? = some (s, x) →
      (σ.reserved ++ [(c, item)])[k]? = some (s, x) := fun hr => by
    rw [List.getElem?_append_left (lt_of_getElem? hr), hr]
  have hothers : ∀ u ≠ t, (σ.setProducer t (.write item c)).producers u = σ.producers u :=
    fun u hu => State.setProducer_of_ne _ hu
  refine { h with
    popped_le := ?_, le_size := ?_, input := ?_, slot := ?_, delivered := ?_, consumer := ?_
    producer := fun u => ?_, unique := fun u v s hu hv => ?_, ready := fun k s x hk hr => ?_
    free := fun s hs => ?_ }
  · simp only [hlen]
    exact h.popped_le.trans (Nat.le_succ _)
  · simp only [hlen]
    exact hlt
  · show advance c = _
    rw [hlen, hcR, advance_mod]
  · intro k s x hr
    rcases hget k s x hr with hr | ⟨rfl, rfl, rfl⟩
    · exact h.slot k s x hr
    · exact hcR
  · simp only [List.map_append]
    exact h.delivered.trans (List.prefix_append ..)
  · exact h.consumer.mono rfl rfl (by simp only [hlen]; omega) (fun _ => id) fun _ _ => id
  · by_cases hu : u = t
    · subst hu
      simp only [State.setProducer_self]
      refine ⟨⟨σ.reserved.length, ?_, by simp⟩, ?_⟩
      · exact (by simpa using h.delivered.length_le : σ.delivered.length ≤ σ.reserved.length)
      · by_contra hcom
        obtain ⟨k, hk, hk', he⟩ := h.free c (by simpa using hcom)
        exact hfresh k hk hk' he
    · simp only [hothers u hu]
      have hok := h.producer u
      cases hpu : σ.producers u <;> rw [hpu] at hok
      case write x s =>
        obtain ⟨⟨k, hk, hr⟩, hcom⟩ := hok
        exact ⟨⟨k, hk, hlift hr⟩, hcom⟩
      case commit s =>
        obtain ⟨⟨k, x, hk, hr, hv⟩, hcom⟩ := hok
        exact ⟨⟨k, x, hk, hlift hr, hv⟩, hcom⟩
      all_goals trivial
  · by_cases hut : u = t <;> by_cases hvt : v = t
    · rw [hut, hvt]
    · subst hut
      rw [State.setProducer_self] at hu
      rw [hothers v hvt] at hv
      exact absurd (hv.trans hu.symm) (hheld v)
    · subst hvt
      rw [State.setProducer_self] at hv
      rw [hothers u hut] at hu
      exact absurd (hu.trans hv.symm) (hheld u)
    · rw [hothers u hut] at hu
      rw [hothers v hvt] at hv
      exact h.unique u v s hu hv
  · rcases hget k s x hr with hr | ⟨rfl, rfl, rfl⟩
    · refine (h.ready k s x hk hr).imp_left fun ⟨u, hu⟩ => ⟨u, ?_⟩
      have hut : u ≠ t := by
        rintro rfl
        simp [hold] at hu
      rwa [hothers u hut]
    · exact .inl ⟨t, by rw [State.setProducer_self]; rfl⟩
  · obtain ⟨k, hk, hk', he⟩ := h.free s hs
    exact ⟨k, hk, by simp only [hlen]; omega, he⟩

/-- A producer writes its item. -/
theorem Inv.write (h : Inv σ) {item : Item Bucket} {s : ℕ}
    (hpc : σ.producers t = .write item s) :
    Inv { σ.setProducer t (.commit s) with queue := σ.queue.write item s } := by
  have hold : (σ.producers t).slot? = some s := by rw [hpc]; rfl
  have hslot : ∀ u s', ((σ.setProducer t (.commit s)).producers u).slot? = some s' ↔
      (σ.producers u).slot? = some s' := fun u s' => by
    by_cases hu : u = t
    · rw [hu, State.setProducer_self, hold]
      rfl
    · rw [State.setProducer_of_ne _ hu]
  refine { h with
    consumer := ?_, producer := fun u => ?_
    unique := fun u v s' hu hv => h.unique u v s' ((hslot u s').1 hu) ((hslot v s').1 hv)
    ready := fun k s' x hk hr => ?_
    free := fun s' hs => h.free s' (by simpa using hs) }
  · exact h.consumer.mono rfl rfl le_rfl (fun _ ho => by simpa using ho) fun _ _ ho => by
      simpa using ho
  · by_cases hu : u = t
    · subst hu
      have hok := h.producer u
      rw [hpc] at hok
      obtain ⟨⟨k, hk, hr⟩, hcom⟩ := hok
      simp only [State.setProducer_self]
      exact ⟨⟨k, item, hk, hr, write_item_view⟩, by simpa using hcom⟩
    · simp only [State.setProducer_of_ne _ hu]
      have hok := h.producer u
      cases hpu : σ.producers u <;> rw [hpu] at hok
      case write x s' => exact ⟨hok.1, by simpa using hok.2⟩
      case commit s' =>
        have hne : s' ≠ s := by
          rintro rfl
          exact hu (h.unique u t s' (by rw [hpu]; rfl) hold)
        obtain ⟨⟨k, x, hk, hr, hv⟩, hcom⟩ := hok
        exact ⟨⟨k, x, hk, hr, by rwa [write_item_of_ne hne]⟩, by simpa using hcom⟩
      all_goals trivial
  · by_cases hs : s' = s
    · exact .inl ⟨t, by rw [hslot t s', hs, hold]⟩
    · refine (h.ready k s' x hk hr).imp (fun ⟨u, hu⟩ => ⟨u, (hslot u s').2 hu⟩) fun ⟨hcom, hv⟩ => ?_
      exact ⟨by simpa using hcom, by rwa [write_item_of_ne hs]⟩

/-- A producer commits its slot. -/
theorem Inv.commit (h : Inv σ) {s : ℕ} (hpc : σ.producers t = .commit s) :
    Inv { σ.setProducer t .idle with queue := σ.queue.setCommitted s true } := by
  have hold : (σ.producers t).slot? = some s := by rw [hpc]; rfl
  have hok := h.producer t
  rw [hpc] at hok
  obtain ⟨⟨k₀, x₀, hk₀, hr₀, hv₀⟩, hcom₀⟩ := hok
  have hs₀ := h.slot k₀ s x₀ hr₀
  have hslot : ∀ u s', ((σ.setProducer t .idle).producers u).slot? = some s' →
      u ≠ t ∧ (σ.producers u).slot? = some s' := fun u s' hu => by
    by_cases hut : u = t
    · rw [hut, State.setProducer_self] at hu
      simp [Push.slot?] at hu
    · rw [State.setProducer_of_ne _ hut] at hu
      exact ⟨hut, hu⟩
  -- The slot is not the one the consumer is freeing.
  have hcons : ∀ o, σ.consumer = .storeOutput o → o ≠ s := fun o ho he => by
    have hc := h.consumer
    rw [ho] at hc
    have hun := h.unfinished
    simp only [ho, Pop.unfinished] at hun
    have hp : σ.popped = σ.delivered.length - 1 := by simp [State.popped, ho, Pop.unfinished]
    have hlt := lt_of_getElem? hr₀
    have := mod_capacity_inj (a := σ.popped) (i := σ.popped) (j := k₀) le_rfl
      (by simp [Capacity]) (by omega) (by have := h.le_size; rw [Capacity]; omega)
      (by rw [← h.output, ← hs₀, ← he, hc.1])
    omega
  refine { h with
    consumer := ?_, producer := fun u => ?_
    unique := fun u v s' hu hv => h.unique u v s' (hslot u s' hu).2 (hslot v s' hv).2
    ready := fun k s' x hk hr => ?_, free := fun s' hs' => ?_ }
  · refine h.consumer.mono rfl rfl le_rfl (fun o ho => ?_) fun o hco ho => ?_
    · by_cases hos : o = s
      · rw [hos, setCommitted_isCommitted_self]
      · rwa [setCommitted_isCommitted_of_ne hos]
    · rwa [setCommitted_isCommitted_of_ne (hcons o hco)]
  · by_cases hu : u = t
    · subst hu
      rw [State.setProducer_self]
      trivial
    · simp only [State.setProducer_of_ne _ hu]
      have hok := h.producer u
      have hne : ∀ s', (σ.producers u).slot? = some s' → s' ≠ s := fun s' hs' he =>
        hu (h.unique u t s (he ▸ hs') hold)
      cases hpu : σ.producers u <;> rw [hpu] at hok hne
      case write x s' =>
        exact ⟨hok.1, by rw [setCommitted_isCommitted_of_ne (hne s' rfl)]; exact hok.2⟩
      case commit s' =>
        obtain ⟨⟨k, x, hk, hr, hv⟩, hcom⟩ := hok
        exact ⟨⟨k, x, hk, hr, by simpa using hv⟩,
          by rw [setCommitted_isCommitted_of_ne (hne s' rfl)]; exact hcom⟩
      all_goals trivial
  · by_cases hs : s' = s
    · subst hs
      obtain ⟨-, rfl⟩ := h.slot_inj (σ.popped_le_delivered.trans hk) hr
        (σ.popped_le_delivered.trans hk₀) hr₀
      exact .inr ⟨by simp, by simpa using hv₀⟩
    · rcases h.ready k s' x hk hr with ⟨u, hu⟩ | ⟨hcom, hv⟩
      · have hut : u ≠ t := by
          rintro rfl
          exact hs (Option.some.inj (hu.symm.trans hold))
        exact .inl ⟨u, by rwa [State.setProducer_of_ne _ hut]⟩
      · exact .inr ⟨by rwa [setCommitted_isCommitted_of_ne hs], by simpa using hv⟩
  · by_cases hs : s' = s
    · subst hs
      exact ⟨k₀, σ.popped_le_delivered.trans hk₀, lt_of_getElem? hr₀, hs₀⟩
    · exact h.free s' (by rwa [setCommitted_isCommitted_of_ne hs] at hs')

/-! ## The consumer -/

omit [DecidableEq Tid] in
/-- The consumer moves without touching the queue or delivering an item. -/
theorem Inv.setConsumer (h : Inv σ) {c : Pop} (hu : c.unfinished = σ.consumer.unfinished)
    (hc : c.Ok σ) : Inv { σ with consumer := c } := by
  have hp : State.popped { σ with consumer := c } = σ.popped := by
    simp only [State.popped, hu]
  exact { h with
    unfinished := hu ▸ h.unfinished, popped_le := hp ▸ h.popped_le, le_size := hp ▸ h.le_size
    output := hp ▸ h.output, free := hp ▸ h.free
    consumer := hc.mono rfl hp le_rfl (fun _ => id) fun _ _ => id }

omit [DecidableEq Tid] in
/-- The slot the consumer is at is not the one of an item still to deliver. -/
theorem Inv.slot_ne_output (h : Inv σ) {k s : ℕ} {x : Item Bucket}
    (hk : σ.popped < k) (hr : σ.reserved[k]? = some (s, x)) : s ≠ σ.queue.output := by
  intro he
  have hlt := lt_of_getElem? hr
  have hle := h.le_size
  have := mod_capacity_inj (a := σ.popped) (i := σ.popped) (j := k) le_rfl (by simp [Capacity])
    hk.le (by rw [Capacity]; omega) (by rw [← h.output, ← he, h.slot k s x hr])
  omega

omit [DecidableEq Tid] in
/-- The consumer delivers the oldest item. -/
theorem Inv.record (h : Inv σ) {o : ℕ} (hco : σ.consumer = .record o) :
    Inv { σ with consumer := .clear o, delivered := σ.delivered ++ [σ.queue.item o] } := by
  have hc := h.consumer
  rw [hco] at hc
  obtain ⟨rfl, hlt, hcom⟩ := hc
  have hD : σ.popped = σ.delivered.length := by simp [State.popped, hco, Pop.unfinished]
  have hp : State.popped { σ with
      consumer := .clear σ.queue.output
      delivered := σ.delivered ++ [σ.queue.item σ.queue.output] } = σ.popped := by
    rw [hD]
    simp [State.popped, Pop.unfinished]
  rw [hD] at hlt
  obtain ⟨s, x, hr⟩ : ∃ s x, σ.reserved[σ.delivered.length]? = some (s, x) :=
    ⟨_, _, List.getElem?_eq_getElem hlt⟩
  have hs : s = σ.queue.output := by rw [h.output, h.slot _ s x hr, hD]
  -- The slot is committed, so it has the item of its reservation.
  have hview : (σ.queue.item σ.queue.output).view = x.view := by
    rcases h.ready _ s x le_rfl hr with ⟨u, hu⟩ | ⟨-, hv⟩
    · have := (h.reservation hu).2
      rw [hs, hcom] at this
      cases this
    · rwa [hs] at hv
  -- What remains to deliver comes after it.
  have hnext : ∀ k s x, σ.delivered.length ≤ k → σ.reserved[k]? = some (s, x) →
      (σ.queue.buffer s).isCommitted = false → σ.delivered.length + 1 ≤ k := fun k s' x' hk hr' hf => by
    rcases Nat.eq_or_lt_of_le hk with rfl | hk
    · rw [hr] at hr'
      obtain ⟨rfl, -⟩ := Prod.mk.inj (Option.some.inj hr')
      rw [hs, hcom] at hf
      cases hf
    · exact hk
  refine { h with
    unfinished := ?_, popped_le := hp ▸ h.popped_le, le_size := hp ▸ h.le_size
    output := hp ▸ h.output, free := hp ▸ h.free, consumer := ⟨rfl, hcom⟩
    delivered := ?_, producer := fun u => ?_, ready := fun k s' x' hk hr' => ?_ }
  · simp [Pop.unfinished]
  · have hpre := h.delivered
    rw [List.prefix_iff_eq_take, List.length_map] at hpre
    rw [List.prefix_iff_eq_take, List.map_append, List.length_append, List.length_map,
      List.map_singleton, List.length_singleton, List.take_add_one, ← hpre, List.getElem?_map, hr,
      hview]
    rfl
  · have hok := h.producer u
    cases hpu : σ.producers u <;> rw [hpu] at hok
    case write y s' =>
      obtain ⟨⟨k, hk, hr'⟩, hf⟩ := hok
      exact ⟨⟨k, by simpa using hnext k s' y hk hr' hf, hr'⟩, hf⟩
    case commit s' =>
      obtain ⟨⟨k, y, hk, hr', hv⟩, hf⟩ := hok
      exact ⟨⟨k, y, by simpa using hnext k s' y hk hr' hf, hr', hv⟩, hf⟩
    all_goals trivial
  · exact h.ready k s' x' (by simp at hk; omega) hr'

omit [DecidableEq Tid] in
/-- The consumer changes the slot it has delivered, at its output. -/
theorem Inv.setSlot (h : Inv σ) {c : Pop} {q : CircularQueue Bucket}
    (hold : σ.consumer.unfinished = 1) (hnew : c.unfinished = 1)
    (hin : q.input = σ.queue.input) (hout : q.output = σ.queue.output)
    (hcom : ∀ s ≠ σ.queue.output, (q.buffer s).isCommitted = (σ.queue.buffer s).isCommitted)
    (hcom' : (q.buffer σ.queue.output).isCommitted = true →
      (σ.queue.buffer σ.queue.output).isCommitted = true)
    (hitem : ∀ s ≠ σ.queue.output, (q.item s).view = (σ.queue.item s).view)
    (hc : c.Ok { σ with consumer := c, queue := q }) :
    Inv { σ with consumer := c, queue := q } := by
  have hp : State.popped { σ with consumer := c, queue := q } = σ.popped := by
    simp only [State.popped, hold, hnew]
  have hD : σ.popped < σ.delivered.length := by
    have := h.unfinished
    simp only [State.popped]
    omega
  have hne : ∀ k s x, σ.delivered.length ≤ k → σ.reserved[k]? = some (s, x) →
      s ≠ σ.queue.output := fun k s x hk hr => h.slot_ne_output (by omega) hr
  refine { h with
    unfinished := hnew.le.trans (hold ▸ h.unfinished), popped_le := hp ▸ h.popped_le
    le_size := hp ▸ h.le_size, input := hin.trans h.input, output := hout.trans (hp ▸ h.output)
    consumer := hc, producer := fun u => ?_, ready := fun k s x hk hr => ?_, free := fun s hs => ?_ }
  · have hok := h.producer u
    cases hpu : σ.producers u <;> rw [hpu] at hok
    case write y s =>
      obtain ⟨⟨k, hk, hr⟩, hf⟩ := hok
      exact ⟨⟨k, hk, hr⟩, (hcom s (hne k s y hk hr)).trans hf⟩
    case commit s =>
      obtain ⟨⟨k, y, hk, hr, hv⟩, hf⟩ := hok
      have hs := hne k s y hk hr
      exact ⟨⟨k, y, hk, hr, (hitem s hs).trans hv⟩, (hcom s hs).trans hf⟩
    all_goals trivial
  · have hs := hne k s x hk hr
    exact (h.ready k s x hk hr).imp_right fun ⟨hcs, hv⟩ =>
      ⟨(hcom s hs).trans hcs, (hitem s hs).trans hv⟩
  · rw [hp]
    by_cases hso : s = σ.queue.output
    · subst hso
      exact h.free _ (hcom' hs)
    · exact h.free s ((hcom s hso).symm.trans hs)

omit [DecidableEq Tid] in
/-- The consumer frees the slot. -/
theorem Inv.storeOutput (h : Inv σ) {o : ℕ} (hco : σ.consumer = .storeOutput o) :
    Inv { σ with consumer := .idle, queue := { σ.queue with output := advance o } } := by
  have hc := h.consumer
  rw [hco] at hc
  obtain ⟨rfl, hcom⟩ := hc
  have hun := h.unfinished
  simp only [hco, Pop.unfinished] at hun
  have hD : σ.popped = σ.delivered.length - 1 := by simp [State.popped, hco, Pop.unfinished]
  have hp : State.popped { σ with
      consumer := .idle, queue := { σ.queue with output := advance σ.queue.output } } =
      σ.popped + 1 := by
    rw [hD]
    simp only [State.popped, Pop.unfinished]
    omega
  have hlen := h.delivered.length_le
  simp only [List.length_map] at hlen
  have hle := h.le_size
  refine { h with
    unfinished := Nat.zero_le _, popped_le := by rw [hp]; simp only; omega
    le_size := by rw [hp]; simp only; omega
    output := by rw [hp]; simp only [h.output, advance_mod]
    consumer := trivial, free := fun s hs => ?_ }
  obtain ⟨k, hk, hk', he⟩ := h.free s hs
  rw [hp]
  refine ⟨k, ?_, hk', he⟩
  rcases Nat.eq_or_lt_of_le hk with rfl | hk
  · rw [he, ← h.output, hcom] at hs
    cases hs
  · exact hk

omit [DecidableEq Tid] in
theorem Inv.consumerStep (h : Inv σ) {σ' : State Tid Bucket}
    (hs : σ.consumerStep = some σ') : Inv σ' := by
  have hc := h.consumer
  cases hco : σ.consumer <;>
    simp only [State.consumerStep, hco, Option.some.injEq, reduceCtorEq] at hs <;>
    subst hs <;> rw [hco] at hc
  case loadOutput => exact h.setConsumer (by rw [hco]; rfl) rfl
  case loadInput o =>
    split
    · exact h.setConsumer (by rw [hco]; rfl) trivial
    · rename_i hne
      refine h.setConsumer (by rw [hco]; rfl) ⟨hc, lt_of_le_of_ne h.popped_le fun he => hne ?_⟩
      rw [hc, h.output, h.input, he]
  case wait o =>
    split
    · rename_i hcom
      exact h.setConsumer (by rw [hco]; rfl) ⟨hc.1, hc.2, hcom⟩
    · exact h
  case record o => exact h.record hco
  case clear o =>
    obtain ⟨rfl, hcom⟩ := hc
    exact h.setSlot (by rw [hco]; rfl) rfl rfl rfl (fun s _ => by simp) (by simp [hcom])
      (fun s hs => by rw [clear_item_of_ne hs]) ⟨rfl, by simpa using hcom⟩
  case uncommit o =>
    obtain ⟨rfl, hcom⟩ := hc
    exact h.setSlot (by rw [hco]; rfl) rfl rfl rfl
      (fun s hs => setCommitted_isCommitted_of_ne hs) (by simp) (fun s _ => by simp)
      ⟨rfl, by simp⟩
  case storeOutput o => exact h.storeOutput hco

theorem Inv.producerStep (h : Inv σ) (hl : Fits σ (.producer t)) {σ' : State Tid Bucket}
    (hs : σ.producerStep t = some σ') : Inv σ' := by
  cases hpc : σ.producers t <;>
    simp only [State.producerStep, hpc, Option.some.injEq, reduceCtorEq] at hs <;> subst hs
  case loadInput item => exact h.setProducer (by rw [hpc]; rfl) rfl
  case loadOutput item c => exact h.setProducer (by rw [hpc]; rfl) (by split <;> rfl)
  case casInput item c =>
    split
    · rename_i hc
      refine h.reserve hpc hc fun hf => hl ?_
      simp only [Overfills, hpc]
      exact ⟨hc, hf⟩
    · exact h.setProducer (by rw [hpc]; rfl) rfl
  case write item s => exact h.write hpc
  case commit s => exact h.commit hpc

/-- Every step that does not overfill the queue keeps the invariant. -/
theorem Inv.next (h : Inv σ) {l : Label Tid Bucket} (hl : Fits σ l) {σ' : State Tid Bucket}
    (hn : (system Tid Bucket).next σ l = some σ') : Inv σ' := by
  cases l <;> simp only [system, State.next] at hn
  case push t item =>
    split at hn
    · rename_i hpc
      cases hn
      exact h.setProducer (by rw [hpc]; rfl) rfl
    · cases hn
  case producer t => exact h.producerStep hl hn
  case pop =>
    split at hn
    · rename_i hco
      cases hn
      exact h.setConsumer (by rw [hco]; rfl) trivial
    · cases hn
  case consumer => exact h.consumerStep hn

omit [DecidableEq Tid] in
theorem Inv.initial : Inv (State.initial : State Tid Bucket) := by
  refine ⟨?_, ?_, ?_, rfl, rfl, ?_, ?_, ?_, ?_, ?_, ?_, ?_⟩ <;>
    simp [State.initial, Pop.unfinished, State.popped, Pop.Ok, Push.Ok, Push.slot?]

/-- The invariant holds in every run that does not overfill the queue. -/
theorem inv_of_run {σ' : State Tid Bucket} {tr : List (State Tid Bucket × Label Tid Bucket)}
    (h : Inv σ) (hr : (system Tid Bucket).Run Fits σ tr σ') : Inv σ' :=
  hr.invariant (fun _ _ _ ha hl hn => ha.next hl hn) h

end Preservation

/-! ## Safety of the queue -/

/-- The reservations that are not popped. -/
def State.outstanding (σ : State Tid Bucket) : List (ℕ × Item Bucket) :=
  σ.reserved.drop σ.popped

/-- `pop` returns false only when everything reserved has been delivered. -/
theorem Inv.drained {σ : State Tid Bucket} (h : Inv σ) {o : ℕ} (hco : σ.consumer = .loadInput o)
    (ho : o = σ.queue.input) : σ.delivered.length = σ.reserved.length := by
  have hc := h.consumer
  have hle := h.le_size
  rw [hco] at hc
  have hD : σ.popped = σ.delivered.length := by simp [State.popped, hco, Pop.unfinished]
  rw [← hD]
  refine mod_capacity_inj (a := σ.popped) le_rfl (by simp [Capacity]) h.popped_le
    (by rw [Capacity]; omega) ?_
  rw [← h.output, ← h.input, ← ho, hc]

/-- In every run in which no compare-and-swap on `input` succeeds on a full queue:

    * at most `Size` items are outstanding, in distinct slots;
    * the items are handed to the listener in the order of their reservations,
      and `pop` returns false only when all of them have been;
    * from the return of its `push` on, an item not yet handed over is committed
      in its slot, so that `pop` does not wait for it. -/
theorem queue_safe [DecidableEq Tid] {σ : State Tid Bucket}
    {tr : List (State Tid Bucket × Label Tid Bucket)}
    (hr : (system Tid Bucket).Run Fits State.initial tr σ) :
    σ.outstanding.length ≤ Size ∧ (σ.outstanding.map Prod.fst).Nodup ∧
      σ.delivered.map Item.view <+: σ.reserved.map (fun r => r.2.view) ∧
      (∀ o, σ.consumer = .loadInput o → o = σ.queue.input →
        σ.delivered.length = σ.reserved.length) ∧
      ∀ k s item, σ.delivered.length ≤ k → σ.reserved[k]? = some (s, item) →
        (∀ t, (σ.producers t).slot? ≠ some s) →
          (σ.queue.buffer s).isCommitted = true ∧ (σ.queue.item s).view = item.view := by
  have h : Inv σ := inv_of_run .initial hr
  have hle := h.le_size
  refine ⟨?_, ?_, h.delivered, fun o hco ho => ?_, fun k s item hk hget hret => ?_⟩
  · rw [State.outstanding, List.length_drop]
    omega
  · rw [List.nodup_iff_getElem?_ne_getElem?]
    intro i j hij hj he
    simp only [State.outstanding, List.length_map, List.length_drop] at hj
    have hget : ∀ n, σ.popped + n < σ.reserved.length →
        (σ.outstanding.map Prod.fst)[n]? = some ((σ.popped + n) % Capacity) := fun n hn => by
      rw [List.getElem?_map, State.outstanding, List.getElem?_drop, List.getElem?_eq_getElem hn]
      exact congrArg some (h.slot _ _ _ (List.getElem?_eq_getElem hn))
    rw [hget i (by omega), hget j (by omega)] at he
    have := mod_capacity_inj (a := σ.popped) (by omega) (by rw [Capacity]; omega) (by omega)
      (by rw [Capacity]; omega) (Option.some.inj he)
    omega
  · exact h.drained hco ho
  · exact (h.ready k s item hk hget).resolve_left fun ⟨t, ht⟩ => hret t ht

/-! ## An overfull queue -/

/-- A call of `push` from its beginning to its end, on a queue with room. -/
theorem exec_push [DecidableEq Tid] (σ : State Tid Bucket) {t : Tid} (item : Item Bucket)
    (hidle : σ.producers t = .idle) (hroom : σ.queue.output ≠ advance σ.queue.input) :
    (system Tid Bucket).exec System.anyStep σ (.push t item :: List.replicate 5 (.producer t)) =
      some { σ.setProducer t .idle with
        queue := ({ σ.queue with input := advance σ.queue.input }.write item
          σ.queue.input).setCommitted σ.queue.input true
        reserved := σ.reserved ++ [(σ.queue.input, item)] } := by
  simp [System.exec_cons, System.anyStep, system, State.next, State.producerStep, hidle, hroom,
    State.setProducer, List.replicate]

/-- A call of `pop` from its beginning to its end, with an item committed. -/
theorem exec_pop [DecidableEq Tid] {σ : State Tid Bucket} (hidle : σ.consumer = .idle)
    (hne : σ.queue.output ≠ σ.queue.input)
    (hcom : (σ.queue.buffer σ.queue.output).isCommitted = true) :
    (system Tid Bucket).exec System.anyStep σ (.pop :: List.replicate 7 .consumer) =
      some { σ with
        queue := { (σ.queue.clear σ.queue.output).setCommitted σ.queue.output false with
          output := advance σ.queue.output }
        delivered := σ.delivered ++ [σ.queue.item σ.queue.output] } := by
  simp [System.exec_cons, System.anyStep, system, State.next, State.consumerStep, hidle, hne, hcom,
    List.replicate]

/-- Producer 0 has found room for its item at `input` 0, and is about to make its
    compare-and-swap; producer 1 has pushed `n` items since. -/
structure Paused (σ : State (Fin 2) Unit) (item : Item Unit) (n : ℕ) : Prop where
  input : σ.queue.input = n
  output : σ.queue.output = 0
  paused : σ.producers 0 = .casInput item 0
  idle : σ.producers 1 = .idle
  consumer : σ.consumer = .idle
  reserved : σ.reserved.length = n
  delivered : σ.delivered = []
  committed : 0 < n → (σ.queue.buffer 0).isCommitted = true

theorem Paused.push {σ : State (Fin 2) Unit} {item : Item Unit} {n : ℕ} (h : Paused σ item n)
    (hn : n < Size) : ∃ tr σ', (system (Fin 2) Unit).Run System.anyStep σ tr σ' ∧
      Paused σ' item (n + 1) := by
  have hadv : advance n = n + 1 := Nat.mod_eq_of_lt (by rw [Capacity]; omega)
  obtain ⟨tr, hr, -⟩ := System.run_of_exec
    (exec_push σ item h.idle (by rw [h.input, h.output, hadv]; omega))
  refine ⟨tr, _, hr, ⟨?_, h.output, ?_, ?_, h.consumer, ?_, h.delivered, fun _ => ?_⟩⟩
  · simp [h.input, hadv]
  · simp [State.setProducer, h.paused]
  · simp [State.setProducer]
  · simp [h.reserved]
  · rw [h.input]
    rcases Nat.eq_zero_or_pos n with rfl | hpos
    · simp
    · simpa [setCommitted_isCommitted_of_ne hpos.ne] using h.committed hpos

theorem exists_paused (item : Item Unit) (n : ℕ) (hn : n ≤ Size) :
    ∃ tr σ, (system (Fin 2) Unit).Run System.anyStep State.initial tr σ ∧ Paused σ item n := by
  induction n with
  | zero =>
    have hrun : (system (Fin 2) Unit).exec System.anyStep State.initial
        [.push 0 item, .producer 0, .producer 0] =
        some (State.initial.setProducer 0 (.casInput item 0)) := by
      simp [System.exec_cons, System.anyStep, system, State.next, State.producerStep,
        State.setProducer, State.initial, advance, Capacity, Size]
    obtain ⟨tr, hr, -⟩ := System.run_of_exec hrun
    exact ⟨tr, _, hr, ⟨rfl, rfl, rfl, rfl, rfl, rfl, rfl, by simp⟩⟩
  | succ n ih =>
    obtain ⟨tr, σ, hr, hp⟩ := ih (by omega)
    obtain ⟨tr', σ', hr', hp'⟩ := hp.push (by omega)
    exact ⟨_, σ', hr.trans hr', hp'⟩

/-- A producer that has found room is overtaken by a whole lap: `Size` pushes, a
    pop and one more push. `input` is what it was, the compare-and-swap succeeds,
    and the queue, `Size + 1` items in it, looks empty. -/
theorem exists_overfull :
    ¬∀ (σ : State (Fin 2) Unit) (tr : List (State (Fin 2) Unit × Label (Fin 2) Unit)),
      (system (Fin 2) Unit).Run System.anyStep State.initial tr σ →
      σ.outstanding.length ≤ Size := by
  intro hall
  obtain ⟨tr₁, σ₁, hr₁, h⟩ := exists_paused ⟨⟨0, 0, fun _ => ⟨0, 0⟩⟩, none⟩ Size le_rfl
  obtain ⟨tr₂, hr₂, -⟩ := System.run_of_exec (exec_pop h.consumer
    (by rw [h.input, h.output]; decide) (by rw [h.output]; exact h.committed (by decide)))
  obtain ⟨tr₃, hr₃, -⟩ := System.run_of_exec (exec_push { σ₁ with
    queue := { (σ₁.queue.clear σ₁.queue.output).setCommitted σ₁.queue.output false with
      output := advance σ₁.queue.output }
    delivered := σ₁.delivered ++ [σ₁.queue.item σ₁.queue.output] }
    ⟨⟨0, 0, fun _ => ⟨0, 0⟩⟩, none⟩ h.idle (by simp [h.input, h.output, advance, Capacity, Size]))
  have hcas := (hr₁.trans hr₂).trans hr₃
  refine absurd (hall _ _ (hcas.snoc (l := .producer 0) trivial (by
    simp [system, State.next, State.producerStep, State.setProducer, h.paused, h.input, advance,
      Capacity]
    rfl))) ?_
  simp [State.outstanding, State.popped, h.reserved, h.delivered, h.consumer, Pop.unfinished]

/-- An item is pushed, popped and handed to the listener. -/
theorem queue_safe_single :
    ∃ σ : State (Fin 1) Unit, σ.delivered.length = 1 ∧ σ.outstanding.length ≤ Size := by
  have hrun : (((system (Fin 1) Unit).exec Fits State.initial
      (.push 0 ⟨⟨0, 0, fun _ => ⟨0, 0⟩⟩, none⟩ :: List.replicate 5 (.producer 0) ++
        .pop :: List.replicate 7 .consumer)).any fun σ =>
          decide (σ.delivered.length = 1)) = true := by decide
  simp only [Option.any_eq_true, decide_eq_true_eq] at hrun
  obtain ⟨σ, hex, hd⟩ := hrun
  obtain ⟨tr, hr, -⟩ := System.run_of_exec hex
  exact ⟨σ, hd, (queue_safe hr).1⟩

end FkProf.Queue
