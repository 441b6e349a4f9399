import FkProf.Foundations.System
import Mathlib.Algebra.Order.Ring.Int
import Mathlib.Data.Fintype.Basic

/-!
# The queue of call traces

`class CircularQueue` (`circular_queue.h`, `circular_queue.cpp`): any number of
producers push call traces, and one consumer pops them and records them with a
listener. The slots are taken by a compare-and-swap on `input`, modulo
`Capacity`, and freed by the consumer advancing `output`; the slot between them
is left empty, to tell a full queue from an empty one.

A step of a producer is one access to `input` or `output`, the copying of the
trace to its slot, or its commit; the steps of the consumer are likewise single
accesses. The histories `reserved` and `delivered`, which the code does not
have, list the traces in the order of the successful compare-and-swaps, with
their slots, and in the order of the calls of the listener.
-/

namespace FkProf.Queue

/-- `Size`: how many traces the queue is meant to hold. -/
def Size : ℕ := 1024

/-- `Capacity`: one slot more, the sentinel. -/
def Capacity : ℕ := Size + 1

/-- `CircularQueue::advance`. -/
def advance (index : ℕ) : ℕ := (index + 1) % Capacity

/-- `JVMPI_CallFrame`. -/
structure CallFrame where
  lineno : ℤ
  methodId : ℕ
  deriving DecidableEq

/-- `JVMPI_CallTrace`: a negative `numFrames` is an error code, and there are no
    frames then. -/
structure CallTrace where
  envId : ℕ
  numFrames : ℤ
  frames : ℕ → CallFrame

/-- What is pushed, and handed to the listener: a trace, and the bucket of its
    thread or null. -/
structure Item (Bucket : Type*) where
  trace : CallTrace
  info : Option Bucket

/-- What an item means: the frames after the first `numFrames` do not matter. -/
def Item.view {Bucket : Type*} (item : Item Bucket) : ℕ × ℤ × List CallFrame × Option Bucket :=
  (item.trace.envId, item.trace.numFrames,
    (List.range item.trace.numFrames.toNat).map item.trace.frames, item.info)

/-- `TraceHolder`. The frames of its trace are in the frame buffer of its slot. -/
structure TraceHolder (Bucket : Type*) where
  isCommitted : Bool
  envId : ℕ
  numFrames : ℤ
  info : Option Bucket

/-- The queue: the slots of the arrays are the numbers below `Capacity`. -/
structure CircularQueue (Bucket : Type*) where
  input : ℕ
  output : ℕ
  buffer : ℕ → TraceHolder Bucket
  frameBuffer : ℕ → ℕ → CallFrame

/-- Where a producer is in `push`: the next access it makes. -/
inductive Push (Bucket : Type*)
  | idle
  | loadInput (item : Item Bucket)
  | loadOutput (item : Item Bucket) (currentInput : ℕ)
  | casInput (item : Item Bucket) (currentInput : ℕ)
  | write (item : Item Bucket) (slot : ℕ)
  | commit (slot : ℕ)

/-- Where the consumer is in `pop`. -/
inductive Pop
  | idle
  | loadOutput
  | loadInput (currentOutput : ℕ)
  | wait (currentOutput : ℕ)
  | record (currentOutput : ℕ)
  | clear (currentOutput : ℕ)
  | uncommit (currentOutput : ℕ)
  | storeOutput (currentOutput : ℕ)
  deriving DecidableEq

/-- The queue, its producers and its consumer. -/
structure State (Tid Bucket : Type*) where
  queue : CircularQueue Bucket
  producers : Tid → Push Bucket
  consumer : Pop
  /-- The slot and the item of each successful compare-and-swap, in their order. -/
  reserved : List (ℕ × Item Bucket)
  /-- The items handed to the listener, in their order. -/
  delivered : List (Item Bucket)

/-- Who takes a step: a producer calling `push` or going on with it, or the
    consumer calling `pop` or going on with it. -/
inductive Label (Tid Bucket : Type*)
  | push (t : Tid) (item : Item Bucket)
  | producer (t : Tid)
  | pop
  | consumer

section Steps

variable {Tid Bucket : Type*}

/-- The first `n` frames copied from `frames`, in the frame buffer of a slot. -/
def copyFrames (n : ℤ) (frames fb : ℕ → CallFrame) : ℕ → CallFrame :=
  fun i => if (i : ℤ) < n then frames i else fb i

/-- `write`, and the store of `info` after it. -/
def CircularQueue.write (q : CircularQueue Bucket) (item : Item Bucket) (slot : ℕ) :
    CircularQueue Bucket :=
  { q with
    buffer := Function.update q.buffer slot
      { q.buffer slot with
        envId := item.trace.envId, numFrames := item.trace.numFrames, info := item.info }
    frameBuffer := Function.update q.frameBuffer slot
      (copyFrames item.trace.numFrames item.trace.frames (q.frameBuffer slot)) }

/-- The store to `is_committed` of a slot. -/
def CircularQueue.setCommitted (q : CircularQueue Bucket) (slot : ℕ) (b : Bool) :
    CircularQueue Bucket :=
  { q with buffer := Function.update q.buffer slot { q.buffer slot with isCommitted := b } }

/-- What `record` is called with. -/
def CircularQueue.item (q : CircularQueue Bucket) (slot : ℕ) : Item Bucket :=
  ⟨⟨(q.buffer slot).envId, (q.buffer slot).numFrames, q.frameBuffer slot⟩, (q.buffer slot).info⟩

/-- `pop`, lines 54-59: the frames and the bucket of a slot are zeroed. -/
def CircularQueue.clear (q : CircularQueue Bucket) (slot : ℕ) : CircularQueue Bucket :=
  { q with
    buffer := Function.update q.buffer slot { q.buffer slot with info := none }
    frameBuffer := Function.update q.frameBuffer slot
      (copyFrames (q.buffer slot).numFrames (fun _ => ⟨0, 0⟩) (q.frameBuffer slot)) }

variable [DecidableEq Tid]

/-- A producer changes. -/
def State.setProducer (σ : State Tid Bucket) (t : Tid) (pc : Push Bucket) : State Tid Bucket :=
  { σ with producers := Function.update σ.producers t pc }

/-- A step of a producer in `push`, lines 8-18. -/
def State.producerStep (σ : State Tid Bucket) (t : Tid) : Option (State Tid Bucket) :=
  match σ.producers t with
  | .idle => none
  | .loadInput item => some (σ.setProducer t (.loadOutput item σ.queue.input))
  | .loadOutput item currentInput =>
    -- The queue is full: `push` returns false.
    some (σ.setProducer t (if σ.queue.output = advance currentInput then .idle
                           else .casInput item currentInput))
  | .casInput item currentInput =>
    some (if σ.queue.input = currentInput then
      { σ.setProducer t (.write item currentInput) with
        queue := { σ.queue with input := advance currentInput }
        reserved := σ.reserved ++ [(currentInput, item)] }
    else σ.setProducer t (.loadInput item))
  | .write item slot =>
    some { σ.setProducer t (.commit slot) with queue := σ.queue.write item slot }
  -- `push` returns true.
  | .commit slot => some { σ.setProducer t .idle with queue := σ.queue.setCommitted slot true }

/-- A step of the consumer in `pop`, lines 39-66. -/
def State.consumerStep (σ : State Tid Bucket) : Option (State Tid Bucket) :=
  match σ.consumer with
  | .idle => none
  | .loadOutput => some { σ with consumer := .loadInput σ.queue.output }
  | .loadInput currentOutput =>
    -- The queue is empty: `pop` returns false.
    some { σ with consumer := if currentOutput = σ.queue.input then .idle
                              else .wait currentOutput }
  | .wait currentOutput =>
    some (if (σ.queue.buffer currentOutput).isCommitted then
      { σ with consumer := .record currentOutput } else σ)
  | .record currentOutput =>
    some { σ with
      consumer := .clear currentOutput
      delivered := σ.delivered ++ [σ.queue.item currentOutput] }
  | .clear currentOutput =>
    some { σ with consumer := .uncommit currentOutput, queue := σ.queue.clear currentOutput }
  | .uncommit currentOutput =>
    some { σ with
      consumer := .storeOutput currentOutput
      queue := σ.queue.setCommitted currentOutput false }
  -- `pop` returns true.
  | .storeOutput currentOutput =>
    some { σ with
      consumer := .idle
      queue := { σ.queue with output := advance currentOutput } }

/-- The next state. -/
def State.next (σ : State Tid Bucket) : Label Tid Bucket → Option (State Tid Bucket)
  | .push t item =>
    match σ.producers t with
    | .idle => some (σ.setProducer t (.loadInput item))
    | _ => none
  | .producer t => σ.producerStep t
  | .pop => if σ.consumer = .idle then some { σ with consumer := .loadOutput } else none
  | .consumer => σ.consumerStep

omit [DecidableEq Tid] in
/-- The empty queue: its memory is zeroed. -/
def State.initial : State Tid Bucket :=
  ⟨⟨0, 0, fun _ => ⟨false, 0, 0, none⟩, fun _ _ => ⟨0, 0⟩⟩, fun _ => .idle, .idle, [], []⟩

variable (Tid Bucket) in
/-- The queue as a transition system. -/
def system : System (State Tid Bucket) (Label Tid Bucket) where
  init := {State.initial}
  next := State.next

end Steps

end FkProf.Queue
