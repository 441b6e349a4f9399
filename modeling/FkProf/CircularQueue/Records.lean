import FkProf.CircularQueue.Protocol

/-!
# Records through the queue

Calls of `push` and `pop` one after another, with the memory of the queue and of its
callers. A slot is written over and over, with traces of different lengths: `push` copies
no more frames than there are, and relies on `pop` having zeroed those of the trace before.

* `push`, `pop`: the calls, which are runs of the steps of a producer and of the consumer
  (`push_exec`, `pop_exec`);
* `Fifo`: what they are meant to do;
* `Represents`: the slots that hold the outstanding records, and the clean ones;
* `records_delivered`: after any calls, the answers are those of `Fifo`, and the queue
  represents its records.
-/

namespace FkProf.Queue

/-- The frame of zeros. -/
def zeroFrame : CallFrame := ⟨0, 0⟩

/-- What the listener is given of a record: `env_id`, `num_frames`, the frames and
    `info`. -/
abbrev Record (Bucket : Type*) := ℕ × ℤ × List CallFrame × Option Bucket

/-- The queue and the memory of its callers, who have arrays of frames. -/
structure World (Bucket : Type*) where
  queue : CircularQueue Bucket
  memory : ℕ → ℕ → CallFrame

/-- A caller writes a frame to an array of its own, or calls `push` with an array, or
    `pop`. -/
inductive Call (Bucket : Type*)
  | store (array i : ℕ) (frame : CallFrame)
  | push (envId : ℕ) (numFrames : ℤ) (array : ℕ) (info : Option Bucket)
  | pop

/-- What a call returns, and for `pop`, what it has given to the listener. -/
inductive Answer (Bucket : Type*)
  | stored
  | pushed (result : Bool)
  | popped (record : Option (Record Bucket))

section Calls

variable {Bucket : Type*}

/-- `CircularQueue::CircularQueue`: zeros in the `maxFrames` frames of each slot. What is
    after them is not of the queue. -/
def CircularQueue.new (maxFrames : ℕ) (rest : ℕ → ℕ → CallFrame) : CircularQueue Bucket where
  input := 0
  output := 0
  buffer := fun _ => ⟨false, 0, 0, none⟩
  frameBuffer := fun slot i => if i < maxFrames then zeroFrame else rest slot i

/-- `push`. -/
def CircularQueue.push (q : CircularQueue Bucket) (item : Item Bucket) :
    CircularQueue Bucket × Bool :=
  let currentInput := q.input
  let nextInput := advance currentInput
  if q.output = nextInput then (q, false)
  else
    let q := { q with input := nextInput }
    let q := q.write item currentInput
    (q.setCommitted currentInput true, true)

/-- `pop`, with what the listener is given. It does not return if it waits for a record that
    is not committed. -/
def CircularQueue.pop (q : CircularQueue Bucket) :
    Option (CircularQueue Bucket × Option (Item Bucket)) :=
  let currentOutput := q.output
  if currentOutput = q.input then some (q, none)
  else if (q.buffer currentOutput).isCommitted then
    let item := q.item currentOutput
    let q := q.clear currentOutput
    let q := q.setCommitted currentOutput false
    some ({ q with output := advance currentOutput }, some item)
  else none

/-- A caller writes a frame to its array. -/
def storeFrame (memory : ℕ → ℕ → CallFrame) (array i : ℕ) (frame : CallFrame) :
    ℕ → ℕ → CallFrame :=
  Function.update memory array (Function.update (memory array) i frame)

/-- A call, if it returns. -/
def World.call (w : World Bucket) : Call Bucket → Option (World Bucket × Answer Bucket)
  | .store array i frame =>
    some ({ w with memory := storeFrame w.memory array i frame }, .stored)
  | .push envId numFrames array info =>
    let (q, result) := w.queue.push ⟨⟨envId, numFrames, w.memory array⟩, info⟩
    some ({ w with queue := q }, .pushed result)
  | .pop => w.queue.pop.map fun (q, item) => ({ w with queue := q }, .popped (item.map Item.view))

/-- Calls one after another, if they return. -/
def World.calls (w : World Bucket) :
    List (Call Bucket) → Option (World Bucket × List (Answer Bucket))
  | [] => some (w, [])
  | c :: cs => (w.call c).bind fun (w, a) => (w.calls cs).map fun (w, as) => (w, a :: as)

/-! ## What they are meant to do -/

/-- A queue of records, and the memory of the callers. -/
structure Fifo (Bucket : Type*) where
  outstanding : List (Record Bucket)
  memory : ℕ → ℕ → CallFrame

/-- A call: a record is made of the frames as they are, if there are fewer than `Size`, and
    the oldest one is given to the listener. -/
def Fifo.call (s : Fifo Bucket) : Call Bucket → Fifo Bucket × Answer Bucket
  | .store array i frame =>
    ({ s with memory := storeFrame s.memory array i frame }, .stored)
  | .push envId numFrames array info =>
    if s.outstanding.length = Size then (s, .pushed false)
    else
      let record := (envId, numFrames, (List.range numFrames.toNat).map (s.memory array), info)
      ({ s with outstanding := s.outstanding ++ [record] }, .pushed true)
  | .pop =>
    match s.outstanding with
    | [] => (s, .popped none)
    | r :: rs => ({ s with outstanding := rs }, .popped (some r))

def Fifo.calls (s : Fifo Bucket) : List (Call Bucket) → Fifo Bucket × List (Answer Bucket)
  | [] => (s, [])
  | c :: cs =>
    let (s, a) := s.call c
    let (s, as) := s.calls cs
    (s, a :: as)

/-- The traces fit into the slots. -/
def Call.Fits (maxFrames : ℕ) : Call Bucket → Prop
  | .push _ numFrames _ _ => numFrames ≤ maxFrames
  | _ => True

/-- The slot holds one of so many records from `output` on. -/
def CircularQueue.Holds (q : CircularQueue Bucket) (n slot : ℕ) : Prop :=
  ∃ i < n, slot = (q.output + i) % Capacity

/-- The slot is uncommitted, and its frames are zero. -/
def CircularQueue.CleanSlot (q : CircularQueue Bucket) (maxFrames slot : ℕ) : Prop :=
  (q.buffer slot).isCommitted = false ∧ ∀ j < maxFrames, q.frameBuffer slot j = zeroFrame

/-- Every slot without a record is clean. -/
def CircularQueue.Clean (q : CircularQueue Bucket) (maxFrames n : ℕ) : Prop :=
  ∀ slot < Capacity, ¬ q.Holds n slot → q.CleanSlot maxFrames slot

/-- The slot holds the record, with zeros after its frames. -/
structure HoldsRecord (maxFrames : ℕ) (q : CircularQueue Bucket) (slot : ℕ)
    (r : Record Bucket) : Prop where
  committed : (q.buffer slot).isCommitted = true
  view : (q.item slot).view = r
  fits : (q.buffer slot).numFrames ≤ maxFrames
  padding : ∀ j < maxFrames, (q.buffer slot).numFrames ≤ j → q.frameBuffer slot j = zeroFrame

/-- The queue with the outstanding records: they are in successive slots from `output`
    on. -/
structure Represents (maxFrames : ℕ) (rest : ℕ → ℕ → CallFrame) (q : CircularQueue Bucket)
    (records : List (Record Bucket)) : Prop where
  output_lt : q.output < Capacity
  length_le : records.length ≤ Size
  input_eq : q.input = (q.output + records.length) % Capacity
  held : ∀ i r, records[i]? = some r → HoldsRecord maxFrames q ((q.output + i) % Capacity) r
  clean : q.Clean maxFrames records.length
  /-- What is not of the queue is left alone. -/
  rest_eq : ∀ slot j, maxFrames ≤ j → q.frameBuffer slot j = rest slot j

/-! ## The slots -/

section Slots

variable {q q' : CircularQueue Bucket} {item : Item Bucket} {r : Record Bucket}
  {maxFrames s s' j : ℕ}

theorem HoldsRecord.congr (h : HoldsRecord maxFrames q s r) (hb : q'.buffer s = q.buffer s)
    (hf : q'.frameBuffer s = q.frameBuffer s) : HoldsRecord maxFrames q' s r := by
  refine ⟨hb ▸ h.committed, ?_, hb ▸ h.fits, ?_⟩
  · rw [CircularQueue.item, hb, hf]
    exact h.view
  · rw [hb, hf]
    exact h.padding

theorem CircularQueue.CleanSlot.congr (h : q.CleanSlot maxFrames s) (hb : q'.buffer s = q.buffer s)
    (hf : q'.frameBuffer s = q.frameBuffer s) : q'.CleanSlot maxFrames s := by
  rw [CleanSlot, hb, hf]
  exact h

/-- `push`, past its test that there is room. -/
def CircularQueue.pushed (q : CircularQueue Bucket) (item : Item Bucket) : CircularQueue Bucket :=
  (({ q with input := advance q.input }).write item q.input).setCommitted q.input true

/-- `pop`, past its test that there is a record. -/
def CircularQueue.popped (q : CircularQueue Bucket) : CircularQueue Bucket :=
  { (q.clear q.output).setCommitted q.output false with output := advance q.output }

theorem pushed_buffer_of_ne (h : s ≠ q.input) : (q.pushed item).buffer s = q.buffer s := by
  simp [CircularQueue.pushed, CircularQueue.setCommitted, CircularQueue.write, h]

theorem pushed_frameBuffer_of_ne (h : s ≠ q.input) :
    (q.pushed item).frameBuffer s = q.frameBuffer s := by
  simp [CircularQueue.pushed, CircularQueue.setCommitted, CircularQueue.write, h]

/-- The frames of the trace are copied, and the others left alone. -/
theorem pushed_frameBuffer_self : (q.pushed item).frameBuffer q.input j =
    if (j : ℤ) < item.trace.numFrames then item.trace.frames j else q.frameBuffer q.input j := by
  simp [CircularQueue.pushed, CircularQueue.setCommitted, CircularQueue.write, copyFrames]

theorem pushed_numFrames_self :
    ((q.pushed item).buffer q.input).numFrames = item.trace.numFrames := by
  simp [CircularQueue.pushed, CircularQueue.setCommitted, CircularQueue.write]

/-- A record pushed to a clean slot is there, with zeros after it. -/
theorem CircularQueue.CleanSlot.pushed (h : q.CleanSlot maxFrames q.input)
    (hfit : item.trace.numFrames ≤ maxFrames) :
    HoldsRecord maxFrames (q.pushed item) q.input item.view := by
  refine ⟨setCommitted_isCommitted_self, ?_, ?_, fun j hj hn => ?_⟩
  · rw [CircularQueue.pushed, setCommitted_item]
    exact write_item_view
  · rwa [pushed_numFrames_self]
  · rw [pushed_numFrames_self] at hn
    rw [pushed_frameBuffer_self, if_neg (not_lt.2 hn)]
    exact h.2 j hj

theorem popped_buffer_of_ne (h : s ≠ q.output) : q.popped.buffer s = q.buffer s := by
  simp [CircularQueue.popped, CircularQueue.setCommitted, CircularQueue.clear, h]

theorem popped_frameBuffer_of_ne (h : s ≠ q.output) :
    q.popped.frameBuffer s = q.frameBuffer s := by
  simp [CircularQueue.popped, CircularQueue.setCommitted, CircularQueue.clear, h]

/-- The frames of the trace become zero, and the others are left alone. -/
theorem popped_frameBuffer_self : q.popped.frameBuffer q.output j =
    if (j : ℤ) < (q.buffer q.output).numFrames then zeroFrame else q.frameBuffer q.output j := by
  simp [CircularQueue.popped, CircularQueue.setCommitted, CircularQueue.clear, copyFrames,
    zeroFrame]

/-- A slot is clean after its record was popped. -/
theorem HoldsRecord.popped (h : HoldsRecord maxFrames q q.output r) :
    q.popped.CleanSlot maxFrames q.output := by
  refine ⟨setCommitted_isCommitted_self, fun j hj => ?_⟩
  rw [popped_frameBuffer_self]
  split_ifs with hn
  · rfl
  · exact h.padding j hj (not_lt.1 hn)

end Slots

/-! ## The queue and its records -/

section Representation

variable {q : CircularQueue Bucket} {records : List (Record Bucket)} {r : Record Bucket}
  {maxFrames : ℕ} {rest : ℕ → ℕ → CallFrame} {item : Item Bucket}

/-- The slots of different records are different. -/
theorem slot_inj {o i j : ℕ} (hi : i < Capacity) (hj : j < Capacity)
    (he : (o + i) % Capacity = (o + j) % Capacity) : i = j := by
  have := mod_capacity_inj (a := o) (by omega) (by omega) (by omega) (by omega) he
  omega

/-- The queue is full if the slot after `input` is the first one. -/
theorem Represents.full_iff (h : Represents maxFrames rest q records) :
    q.output = advance q.input ↔ records.length = Size := by
  have hlt := h.output_lt
  have hle := h.length_le
  rw [h.input_eq, advance_mod]
  simp only [Capacity, Size] at hlt hle ⊢
  omega

theorem Represents.empty_iff (h : Represents maxFrames rest q records) :
    q.output = q.input ↔ records = [] := by
  have hlt := h.output_lt
  have hle := h.length_le
  rw [h.input_eq, ← List.length_eq_zero_iff]
  simp only [Capacity, Size] at hlt hle ⊢
  omega

theorem Represents.new (maxFrames : ℕ) (rest : ℕ → ℕ → CallFrame) :
    Represents maxFrames rest (.new maxFrames rest : CircularQueue Bucket) [] :=
  ⟨Nat.succ_pos _, Nat.zero_le _, rfl, fun i r hr => (by cases hr),
    fun slot _ _ => ⟨rfl, fun _ hj => if_pos hj⟩, fun _ _ hj => if_neg (not_lt.2 hj)⟩

/-- A record is pushed to the slot after the others, which is clean. -/
theorem Represents.push (h : Represents maxFrames rest q records) (hfull : records.length ≠ Size)
    (hfit : item.trace.numFrames ≤ maxFrames) :
    Represents maxFrames rest (q.pushed item) (records ++ [item.view]) := by
  have hlen : records.length < Size := lt_of_le_of_ne h.length_le hfull
  have hcap : records.length < Capacity := hlen.trans (Nat.lt_succ_self _)
  have hne : ∀ i < records.length, (q.output + i) % Capacity ≠ q.input := fun i hi he => by
    rw [h.input_eq] at he
    have := slot_inj (hi.trans hcap) hcap he
    omega
  have hclean : q.CleanSlot maxFrames q.input := by
    refine h.clean q.input (h.input_eq ▸ Nat.mod_lt _ (Nat.succ_pos _)) ?_
    rintro ⟨i, hi, he⟩
    exact hne i hi he.symm
  refine ⟨h.output_lt, ?_, ?_, fun i r hr => ?_, fun slot hs hfree => ?_, fun slot j hj => ?_⟩
  · rw [List.length_append]
    exact hlen
  · show advance q.input = (q.output + _) % Capacity
    rw [h.input_eq, advance_mod, List.length_append, List.length_singleton, Nat.add_assoc]
  · show HoldsRecord maxFrames (q.pushed item) ((q.output + i) % Capacity) r
    rcases Nat.lt_or_ge i records.length with hi | hi
    · rw [List.getElem?_append_left hi] at hr
      exact (h.held i r hr).congr (pushed_buffer_of_ne (hne i hi))
        (pushed_frameBuffer_of_ne (hne i hi))
    · rw [List.getElem?_append_right hi, List.getElem?_singleton] at hr
      split_ifs at hr with hzero
      cases hr
      obtain rfl : i = records.length := by omega
      rw [← h.input_eq]
      exact hclean.pushed hfit
  · have hslot : slot ≠ q.input := fun he => hfree ⟨records.length, by simp, he.trans h.input_eq⟩
    refine (h.clean slot hs ?_).congr (pushed_buffer_of_ne hslot) (pushed_frameBuffer_of_ne hslot)
    rintro ⟨i, hi, he⟩
    exact hfree ⟨i, by rw [List.length_append]; omega, he⟩
  · by_cases hslot : slot = q.input
    · rw [hslot, pushed_frameBuffer_self, if_neg (by omega)]
      exact h.rest_eq _ j hj
    · rw [pushed_frameBuffer_of_ne hslot]
      exact h.rest_eq slot j hj

/-- The first record is popped, and leaves a clean slot behind. -/
theorem Represents.pop (h : Represents maxFrames rest q (r :: records)) :
    Represents maxFrames rest q.popped records := by
  have hlen : records.length < Size := h.length_le
  have hcap : records.length + 1 < Capacity := Nat.succ_lt_succ hlen
  have hfirst : (q.output + 0) % Capacity = q.output := Nat.mod_eq_of_lt h.output_lt
  have hheld : HoldsRecord maxFrames q q.output r := hfirst ▸ h.held 0 r rfl
  have hadvance : ∀ i, (advance q.output + i) % Capacity = (q.output + (i + 1)) % Capacity :=
    fun i => by rw [advance, Nat.mod_add_mod, Nat.add_assoc, Nat.add_comm 1 i]
  refine ⟨Nat.mod_lt _ (Nat.succ_pos _), hlen.le, ?_, fun i x hx => ?_, fun slot hs hfree => ?_,
    fun slot j hj => ?_⟩
  · show q.input = (advance q.output + _) % Capacity
    rw [h.input_eq, hadvance, List.length_cons]
  · show HoldsRecord maxFrames q.popped ((advance q.output + i) % Capacity) x
    have hi : i < records.length := lt_of_getElem? hx
    have hne : (q.output + (i + 1)) % Capacity ≠ q.output := fun he => by
      have := slot_inj (o := q.output) (by omega) (Nat.succ_pos _) (he.trans hfirst.symm)
      omega
    rw [hadvance]
    exact (h.held (i + 1) x hx).congr (popped_buffer_of_ne hne) (popped_frameBuffer_of_ne hne)
  · by_cases hslot : slot = q.output
    · rw [hslot]
      exact hheld.popped
    · refine (h.clean slot hs ?_).congr (popped_buffer_of_ne hslot) (popped_frameBuffer_of_ne hslot)
      rintro ⟨i, hi, he⟩
      rcases i with _ | i
      · exact hslot (he.trans hfirst)
      · exact hfree ⟨i, Nat.lt_of_succ_lt_succ hi, he.trans (hadvance i).symm⟩
  · by_cases hslot : slot = q.output
    · have hfits := hheld.fits
      rw [hslot, popped_frameBuffer_self, if_neg (by omega)]
      exact h.rest_eq _ j hj
    · rw [popped_frameBuffer_of_ne hslot]
      exact h.rest_eq slot j hj

end Representation

/-! ## Calls -/

section Answers

variable {w : World Bucket} {s : Fifo Bucket} {maxFrames : ℕ} {rest : ℕ → ℕ → CallFrame}

/-- The queue represents the records, and the memory is the same. -/
def World.Refines (maxFrames : ℕ) (rest : ℕ → ℕ → CallFrame) (w : World Bucket)
    (s : Fifo Bucket) : Prop :=
  Represents maxFrames rest w.queue s.outstanding ∧ w.memory = s.memory

/-- A call returns what it should. -/
theorem World.Refines.call (h : w.Refines maxFrames rest s) {c : Call Bucket}
    (hc : c.Fits maxFrames) :
    ∃ w', w.call c = some (w', (s.call c).2) ∧ w'.Refines maxFrames rest (s.call c).1 := by
  obtain ⟨h, hm⟩ := h
  cases c with
  | store array i frame =>
    exact ⟨_, rfl, h, congrArg (storeFrame · array i frame) hm⟩
  | push envId numFrames array info =>
    rw [World.call, CircularQueue.push, Fifo.call, hm]
    dsimp only
    by_cases hfull : s.outstanding.length = Size
    · rw [if_pos (h.full_iff.2 hfull), if_pos hfull]
      exact ⟨_, rfl, h, rfl⟩
    · rw [if_neg fun he => hfull (h.full_iff.1 he), if_neg hfull]
      exact ⟨_, rfl, h.push hfull hc, rfl⟩
  | pop =>
    rw [World.call, CircularQueue.pop, Fifo.call]
    dsimp only
    rcases hs : s.outstanding with _ | ⟨r, rs⟩
    · rw [if_pos (h.empty_iff.2 hs)]
      exact ⟨_, rfl, h, hm⟩
    · have hheld := h.held 0 r (by rw [hs]; rfl)
      rw [Nat.add_zero, Nat.mod_eq_of_lt h.output_lt] at hheld
      rw [hs] at h
      rw [if_neg fun he => List.cons_ne_nil r rs (h.empty_iff.1 he), if_pos hheld.committed]
      dsimp only
      refine ⟨{ w with queue := w.queue.popped }, ?_, h.pop, hm⟩
      rw [Option.map_some, Option.map_some, hheld.view]
      rfl

theorem World.Refines.calls (h : w.Refines maxFrames rest s) {cs : List (Call Bucket)}
    (hcs : ∀ c ∈ cs, c.Fits maxFrames) :
    ∃ w', w.calls cs = some (w', (s.calls cs).2) ∧ w'.Refines maxFrames rest (s.calls cs).1 := by
  induction cs generalizing w s with
  | nil => exact ⟨w, rfl, h⟩
  | cons c cs ih =>
    obtain ⟨hc, hcs⟩ := List.forall_mem_cons.1 hcs
    obtain ⟨w₁, he, h₁⟩ := h.call hc
    obtain ⟨w₂, he₂, h₂⟩ := ih h₁ hcs
    refine ⟨w₂, ?_, h₂⟩
    rw [World.calls, he, Option.bind_some]
    dsimp only
    rw [he₂]
    rfl

/-- After any calls with traces that fit into the slots, whatever the callers write to
    their arrays in between: the calls have returned, with the answers of a queue of
    `Size` records; the slots from `output` on hold the outstanding records, and the others
    are uncommitted and their frames zero; and nothing was written outside of the slots. -/
theorem records_delivered (maxFrames : ℕ) (rest memory : ℕ → ℕ → CallFrame)
    (cs : List (Call Bucket)) (hcs : ∀ c ∈ cs, c.Fits maxFrames) :
    ∃ w, World.calls ⟨.new maxFrames rest, memory⟩ cs =
        some (w, (Fifo.calls ⟨[], memory⟩ cs).2) ∧
      Represents maxFrames rest w.queue (Fifo.calls ⟨[], memory⟩ cs).1.outstanding := by
  have h₀ : World.Refines maxFrames rest ⟨.new maxFrames rest, memory⟩
      (⟨[], memory⟩ : Fifo Bucket) := ⟨.new maxFrames rest, rfl⟩
  obtain ⟨w, he, h, -⟩ := h₀.calls hcs
  exact ⟨w, he, h⟩

/-- Two records, the second one shorter, in the arrays of a caller who writes over them. -/
def twoRecords : List (Call Unit) :=
  [.push 1 2 0 none, .store 0 0 ⟨7, 7⟩, .push 2 (-1) 0 (some ()), .pop, .pop, .pop]

theorem records_delivered_two : ∃ w, World.calls ⟨.new 2 fun _ _ => ⟨9, 9⟩, fun _ _ => ⟨5, 5⟩⟩
      twoRecords = some (w, [.pushed true, .stored, .pushed true,
        .popped (some (1, 2, [⟨5, 5⟩, ⟨5, 5⟩], none)), .popped (some (2, -1, [], some ())),
        .popped none]) ∧ w.queue.Clean 2 0 := by
  obtain ⟨w, he, h⟩ := records_delivered 2 (fun _ _ => ⟨9, 9⟩) (fun _ _ => ⟨5, 5⟩) twoRecords
    (by simp [twoRecords, Call.Fits])
  exact ⟨w, he, h.clean⟩

end Answers

/-! ## The steps of the calls -/

section Steps

variable {Tid : Type*} [DecidableEq Tid] {σ : State Tid Bucket}

/-- A call of `push` that runs alone does what its steps do. -/
theorem push_exec (σ : State Tid Bucket) {t : Tid} (item : Item Bucket)
    (hidle : σ.producers t = .idle) (hroom : σ.queue.output ≠ advance σ.queue.input) :
    ((system Tid Bucket).exec System.anyStep σ
        (.push t item :: List.replicate 5 (.producer t))).map State.queue =
      some (σ.queue.push item).1 := by
  rw [exec_push σ item hidle hroom, CircularQueue.push]
  dsimp only
  rw [if_neg hroom]
  rfl

/-- So does a call of `pop`. -/
theorem pop_exec (hidle : σ.consumer = .idle) (hne : σ.queue.output ≠ σ.queue.input)
    (hcom : (σ.queue.buffer σ.queue.output).isCommitted = true) :
    ((system Tid Bucket).exec System.anyStep σ (.pop :: List.replicate 7 .consumer)).map
        State.queue = σ.queue.pop.map Prod.fst := by
  rw [exec_pop hidle hne hcom, CircularQueue.pop]
  dsimp only
  rw [if_neg hne, if_pos hcom]
  rfl

end Steps

end Calls

end FkProf.Queue
