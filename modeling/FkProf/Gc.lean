import FkProf.Foundations.System
import Mathlib.Algebra.Order.Ring.Int
import Mathlib.Data.Fintype.Basic

/-!
# The epoch garbage collector

The collector of retired hash tables (`class GC`, `concurrent_map.h:146-237`).
A table passed to `scheduleDelete` waits for two changes of the global epoch: in
`recentGarbage` for the first, in `oldGarbage` for the second. An epoch ends
when the countdown `remaining` of the attached threads that have not passed it
reaches zero.

The calls made under the mutex (`attachThread`, `detachThread`, `safepoint`,
`scheduleDelete`, and `newEpoch` inside two of them) are modelled with one step
for each access to shared memory. `ssSafepoint` takes no mutex: it is run by a
signal handler (`ThreadMapBase::get`), on top of whatever its thread is doing,
and the thread goes on when the handler has returned. A handler finds the
bucket of its thread only between its `put` and its `remove`, so it runs neither
during `attachThread` nor during `detachThread`.

The epochs are 32-bit words and wrap around; the counters are integers. The
vectors of garbage are lists with their back first. What has been deleted is
kept in `deleted`, which the code does not read.
-/

namespace FkProf.Gc

/-- `EpochType`: the epochs are unsigned 32-bit words. -/
abbrev EpochType := BitVec 32

/-- `kEpochInitial`: the epoch of a detached thread. -/
def kEpochInitial : EpochType := -1

/-- The fields of the collector. -/
structure GC (Tid Table : Type*) where
  mutex : Option Tid
  totalThreads : ℤ
  globalEpoch : EpochType
  remaining : ℤ
  recentGarbage : List Table
  oldGarbage : List Table
  /-- The tables deleted so far. -/
  deleted : List Table

/-- The calls that start a new epoch. -/
inductive Caller
  | detachThread
  | safepoint
  deriving DecidableEq

/-- Where a thread is in its call under the mutex: the next access it makes. -/
inductive Pc (Table : Type*)
  | idle
  | attachLock
  | attachTotal
  | attachAdd
  | attachLoad
  | detachLock
  | detachTotal
  | detachCompare
  | detachSub
  | detachRemaining
  | detachReset
  | safepointLock
  | safepointRead
  | safepointCompare (localEpoch : EpochType)
  | safepointReload
  | safepointStore (globalEpoch : EpochType)
  | safepointSub
  | safepointRemaining
  | epochDelete (caller : Caller)
  | epochAdvance (caller : Caller)
  | epochReset (caller : Caller)
  | epochMove (caller : Caller)
  | scheduleLock (pointer : Table)
  | schedulePush (pointer : Table)
  | unlock
  deriving DecidableEq

/-- Where the signal handler of a thread is in its `ssSafepoint`. -/
inductive HandlerPc
  | off
  | load
  | sub (global : EpochType)
  | store (global : EpochType)
  deriving DecidableEq

/-- A thread: its epoch (a field of its bucket), whether the collector counts it
    as attached, and where it and its signal handler are. -/
structure Thread (Table : Type*) where
  localEpoch : EpochType
  attached : Bool
  pc : Pc Table
  handler : HandlerPc

/-- The collector and its threads. -/
structure State (Tid Table : Type*) where
  gc : GC Tid Table
  threads : Tid → Thread Table

/-- Who takes a step: a thread calling, or going on with its call, or a signal
    handler starting, or going on. -/
inductive Label (Tid Table : Type*)
  | attachThread (t : Tid)
  | detachThread (t : Tid)
  | safepoint (t : Tid)
  | scheduleDelete (t : Tid) (pointer : Table)
  | main (t : Tid)
  | signal (t : Tid)
  | handler (t : Tid)

section Steps

variable {Tid Table : Type*}

/-- Taking the mutex, when it is free. -/
def GC.lock (gc : GC Tid Table) (t : Tid) : Option (GC Tid Table) :=
  if gc.mutex.isNone then some { gc with mutex := some t } else none

/-- Where a call goes on after its `newEpoch`. -/
def Caller.next : Caller → Pc Table
  | .detachThread => .detachReset
  | .safepoint => .unlock

/-- A step of a thread in its call. -/
def mainStep (gc : GC Tid Table) (t : Tid) (th : Thread Table) :
    Option (GC Tid Table × Thread Table) :=
  match th.pc with
  | .idle => none
  -- `attachThread`, lines 180-185
  | .attachLock => (gc.lock t).map fun gc => (gc, { th with pc := .attachTotal })
  | .attachTotal =>
    some ({ gc with totalThreads := gc.totalThreads + 1 },
      { th with pc := .attachAdd, attached := true })
  | .attachAdd => some ({ gc with remaining := gc.remaining + 1 }, { th with pc := .attachLoad })
  | .attachLoad => some (gc, { th with pc := .unlock, localEpoch := gc.globalEpoch - 1 })
  -- `detachThread`, lines 187-199
  | .detachLock => (gc.lock t).map fun gc => (gc, { th with pc := .detachTotal })
  | .detachTotal =>
    some ({ gc with totalThreads := gc.totalThreads - 1 },
      { th with pc := .detachCompare, attached := false })
  | .detachCompare =>
    some (gc, { th with pc := if th.localEpoch < gc.globalEpoch then .detachSub
                              else .detachRemaining })
  | .detachSub =>
    some ({ gc with remaining := gc.remaining - 1 },
      { th with pc := if gc.remaining - 1 = 0 then .epochDelete .detachThread else .detachReset })
  | .detachRemaining =>
    some (gc, { th with pc := if gc.remaining = 0 then .epochDelete .detachThread
                              else .detachReset })
  | .detachReset => some (gc, { th with pc := .unlock, localEpoch := kEpochInitial })
  -- `safepoint`, lines 201-213: line 206 loads `globalEpoch` again
  | .safepointLock => (gc.lock t).map fun gc => (gc, { th with pc := .safepointRead })
  | .safepointRead => some (gc, { th with pc := .safepointCompare th.localEpoch })
  | .safepointCompare l =>
    some (gc, { th with pc := if l < gc.globalEpoch then .safepointReload
                              else .safepointRemaining })
  | .safepointReload => some (gc, { th with pc := .safepointStore gc.globalEpoch })
  | .safepointStore g => some (gc, { th with pc := .safepointSub, localEpoch := g })
  | .safepointSub =>
    some ({ gc with remaining := gc.remaining - 1 },
      { th with pc := if gc.remaining - 1 = 0 then .epochDelete .safepoint else .unlock })
  | .safepointRemaining =>
    some (gc, { th with pc := if gc.remaining = 0 then .epochDelete .safepoint else .unlock })
  -- `newEpoch`, lines 160-172
  | .epochDelete c =>
    match gc.oldGarbage with
    | [] => some (gc, { th with pc := .epochAdvance c })
    | x :: rest => some ({ gc with oldGarbage := rest, deleted := x :: gc.deleted }, th)
  | .epochAdvance c =>
    some ({ gc with globalEpoch := gc.globalEpoch + 1 }, { th with pc := .epochReset c })
  | .epochReset c =>
    some ({ gc with remaining := gc.totalThreads }, { th with pc := .epochMove c })
  | .epochMove c =>
    some ({ gc with oldGarbage := gc.recentGarbage, recentGarbage := [] },
      { th with pc := c.next })
  -- `scheduleDelete`, lines 224-230
  | .scheduleLock x => (gc.lock t).map fun gc => (gc, { th with pc := .schedulePush x })
  | .schedulePush x =>
    some ({ gc with recentGarbage := x :: gc.recentGarbage }, { th with pc := .unlock })
  | .unlock => some ({ gc with mutex := none }, { th with pc := .idle })

/-- A step of a signal handler in `ss_safepoint`, lines 216-222. Its thread does
    not move meanwhile, so it reads `localEpoch` with line 217. -/
def handlerStep (gc : GC Tid Table) (th : Thread Table) : Option (GC Tid Table × Thread Table) :=
  match th.handler with
  | .off => none
  | .load =>
    some (gc, { th with handler := if th.localEpoch < gc.globalEpoch then .sub gc.globalEpoch
                                   else .off })
  | .sub g => some ({ gc with remaining := gc.remaining - 1 }, { th with handler := .store g })
  | .store g => some (gc, { th with handler := .off, localEpoch := g })

/-- A signal handler can find the bucket of its thread: it is attached, and
    neither in `attachThread` nor in `detachThread`. -/
def Thread.Published (th : Thread Table) : Prop :=
  th.attached = true ∧
    match th.pc with
    | .attachLock | .attachTotal | .attachAdd | .attachLoad | .detachLock | .detachTotal
    | .detachCompare | .detachSub | .detachRemaining | .detachReset => False
    | .epochDelete c | .epochAdvance c | .epochReset c | .epochMove c => c = .safepoint
    | _ => True

instance (th : Thread Table) : Decidable th.Published := by
  unfold Thread.Published
  cases th.pc <;> infer_instance

variable [DecidableEq Tid]

/-- The state after thread `t` and the collector changed. -/
def State.set (σ : State Tid Table) (t : Tid) (p : GC Tid Table × Thread Table) :
    State Tid Table :=
  ⟨p.1, Function.update σ.threads t p.2⟩

/-- A thread that is not in a call makes one. -/
def State.call (σ : State Tid Table) (t : Tid) (pc : Pc Table) : State Tid Table :=
  σ.set t (σ.gc, { σ.threads t with pc := pc })

/-- The thread is in no call, and its handler is not running. -/
def Thread.Free (th : Thread Table) : Prop :=
  th.pc = .idle ∧ th.handler = .off

instance [DecidableEq Table] (th : Thread Table) : Decidable th.Free :=
  inferInstanceAs (Decidable (_ ∧ _))

/-- The next state. A thread attaches when it is detached, and the other way
    round; `GCHelper::detach` only calls `detachThread` for an epoch other than
    `kEpochInitial`. -/
def State.next [DecidableEq Table] (σ : State Tid Table) : Label Tid Table → Option (State Tid Table)
  | .attachThread t =>
    if (σ.threads t).Free ∧ (σ.threads t).attached = false then some (σ.call t .attachLock)
    else none
  | .detachThread t =>
    if (σ.threads t).Free ∧ (σ.threads t).attached = true then
      some (if (σ.threads t).localEpoch ≠ kEpochInitial then σ.call t .detachLock else σ)
    else none
  | .safepoint t =>
    if (σ.threads t).Free ∧ (σ.threads t).attached = true then some (σ.call t .safepointLock)
    else none
  | .scheduleDelete t x =>
    if (σ.threads t).Free then some (σ.call t (.scheduleLock x)) else none
  | .main t =>
    if (σ.threads t).handler = .off then (mainStep σ.gc t (σ.threads t)).map (σ.set t) else none
  | .signal t =>
    if (σ.threads t).handler = .off ∧ (σ.threads t).Published then
      some (σ.set t (σ.gc, { σ.threads t with handler := .load }))
    else none
  | .handler t => (handlerStep σ.gc (σ.threads t)).map (σ.set t)

/-- The collector before any thread is attached. -/
def State.initial : State Tid Table :=
  ⟨⟨none, 0, 1, 0, [], [], []⟩, fun _ => ⟨kEpochInitial, false, .idle, .off⟩⟩

variable (Tid Table) in
/-- The collector as a transition system. -/
def system [DecidableEq Table] : System (State Tid Table) (Label Tid Table) where
  init := {State.initial}
  next := State.next

end Steps

/-! ## Schedules -/

section Schedules

variable {Tid Table : Type*}

/-- A whole call of `attachThread`. -/
def attachSchedule (t : Tid) : List (Label Tid Table) :=
  .attachThread t :: List.replicate 5 (.main t)

/-- A call of `safepoint` that ends the epoch, with `n` tables to delete. -/
def safepointSchedule (t : Tid) (n : ℕ) : List (Label Tid Table) :=
  .safepoint t :: List.replicate (n + 11) (.main t)

/-- A handler passing the epoch. -/
def handlerSchedule (t : Tid) : List (Label Tid Table) :=
  [.signal t, .handler t, .handler t, .handler t]

end Schedules

end FkProf.Gc
