import FkProf.CircularQueue.Protocol
import FkProf.LogWriter.Traces

/-!
# The way of a sample

`Profiler::handle` (`profiler.cpp:72-97`) takes a sample in a local `JVMPI_CallTrace`, which
is not initialised, and pushes it; in time `pop` hands it to `LogWriter::record`. On a thread
without a `JNIEnv` the handler stores no `env_id` and has no bucket, and then it is the
`env_id` that is written for the thread.

* `handle`: the trace that is pushed, and the bucket, given what was in the trace before;
* `traceOf_ofTrace`: the queue keeps the words of a trace;
* `Sample.bytes`: what is written for a sample, whatever the other threads do meanwhile;
* `independent_iff`: it is independent of what was in the trace before exactly if the thread
  has a `JNIEnv`;
* `exists_dependent`: without one, the log has eight bytes of the stack.
-/

namespace FkProf.Samples

open LogWriter (Jint Jlong Endian GetFrameInformation Jvmti JVMPI_CallFrame JVMPI_CallTrace)
open Queue (Item)

/-- `AsyncGetCallTrace` gets a trace with its `env_id` and an array for the frames. It stores
    `num_frames`, whatever was there before, and writes to the array. -/
structure Asgct (Context : Type*) where
  call : JVMPI_CallTrace → Jint → Context → JVMPI_CallTrace
  stores : ∀ trace n depth ucontext,
    call { trace with numFrames := n } depth ucontext = call trace depth ucontext

/-- What a handler finds: the `JNIEnv` of its thread, what the virtual machine says of a
    garbage collection, if it can be asked, the bucket of the `JNIEnv` in the map, and its
    array of frames. -/
structure Sample (Context Bucket : Type*) where
  jniEnv : Option Jlong
  isGcActive : Option Jint
  bucket : Option Bucket
  frames : ℕ → JVMPI_CallFrame
  maxFramesToCapture : Jint
  context : Context

/-- `Profiler::handle`: what is passed to `push`. The argument is what the local
    `JVMPI_CallTrace` happens to be at first. -/
def handle {Context Bucket : Type*} (asgct : Asgct Context) (s : Sample Context Bucket)
    (trace : JVMPI_CallTrace) : JVMPI_CallTrace × Option Bucket :=
  let trace := { trace with frames := s.frames }
  match s.jniEnv with
  | none => ({ trace with numFrames := if s.isGcActive = some 1 then -2 else -3 }, none)
  | some jniEnv =>
    let trace := { trace with envId := jniEnv }
    (asgct.call trace s.maxFramesToCapture s.context, s.bucket)

section Words

variable {Bucket : Type*}

/-- A trace as an item of the queue. -/
def ofTrace (trace : JVMPI_CallTrace) (info : Option Bucket) : Item Bucket where
  trace := ⟨trace.envId.toNat, trace.numFrames.toInt,
    fun i => ⟨(trace.frames i).lineno.toInt, (trace.frames i).methodId.toNat⟩⟩
  info := info

/-- The trace of an item. -/
def traceOf (item : Item Bucket) : JVMPI_CallTrace where
  envId := BitVec.ofNat _ item.trace.envId
  numFrames := BitVec.ofInt _ item.trace.numFrames
  frames i := ⟨BitVec.ofInt _ (item.trace.frames i).lineno,
    BitVec.ofNat _ (item.trace.frames i).methodId⟩

/-- The queue keeps the words of a trace. -/
theorem traceOf_ofTrace (trace : JVMPI_CallTrace) (info : Option Bucket) :
    traceOf (ofTrace trace info) = trace := by
  simp [traceOf, ofTrace]

/-- What the listener is given has the words of the trace. -/
theorem words_of_view {item : Item Bucket} {trace : JVMPI_CallTrace} {info : Option Bucket}
    (h : item.view = (ofTrace trace info).view) : (traceOf item).envId = trace.envId ∧
      (traceOf item).numFrames = trace.numFrames ∧ item.info = info := by
  obtain ⟨henv, hrest⟩ := Prod.mk.inj h
  obtain ⟨hframes, hrest⟩ := Prod.mk.inj hrest
  refine ⟨?_, ?_, (Prod.mk.inj hrest).2⟩
  · rw [traceOf, henv, ofTrace, BitVec.ofNat_toNat, BitVec.setWidth_eq]
  · rw [traceOf, hframes, ofTrace, BitVec.ofInt_toInt]

end Words

/-! ## From the handler to the log -/

section Log

variable {Tid Bucket Context Env : Type*} [DecidableEq Tid]

/-- At which position among the reservations the push of a thread takes its slot, in a
    schedule, if it does. -/
def reservation (σ : Queue.State Tid Bucket) (t : Tid) :
    List (Queue.Label Tid Bucket) → Option ℕ
  | [] => none
  | l :: ls => (σ.next l).bind fun σ =>
    match σ.producers t with
    -- `push` has returned false.
    | .idle => none
    | .write _ _ | .commit _ => some (σ.reserved.length - 1)
    | _ => reservation σ t ls

variable (host : Endian) (frameLookup : GetFrameInformation Env) (tid : Bucket → BitVec 32)

/-- What `record` writes for each of the items that it is called with, given the answers of the
    virtual machine about their frames. -/
def written (jvmti : ℕ → ℕ → Jvmti Env) (w : LogWriter.Writer) (n : ℕ) :
    List (Item Bucket) → List (List UInt8)
  | [] => []
  | item :: items =>
    let w' := LogWriter.record host frameLookup w ⟨traceOf item, item.info.map tid, jvmti n⟩
    w'.output.drop w.output.length :: written jvmti w' (n + 1) items

/-- What is written for a trace that a thread pushes, if the schedule is possible and comes to
    its `pop`. -/
def bytes (jvmti : ℕ → ℕ → Jvmti Env) (w : LogWriter.Writer) (σ : Queue.State Tid Bucket)
    (t : Tid) (pushed : JVMPI_CallTrace × Option Bucket) (ls : List (Queue.Label Tid Bucket)) :
    Option (List UInt8) :=
  let ls := .push t (ofTrace pushed.1 pushed.2) :: ls
  ((Queue.system Tid Bucket).exec System.anyStep σ ls).bind fun σ' =>
    (reservation σ t ls).bind fun k => (written host frameLookup tid jvmti w 0 σ'.delivered)[k]?

variable (Tid) in
/-- In every reachable state, whoever takes the sample and whatever happens then, what is
    written for the sample does not depend on what the trace of the handler was at first. -/
def Independent (asgct : Asgct Context) (s : Sample Context Bucket) : Prop :=
  ∀ (tr : List (Queue.State Tid Bucket × Queue.Label Tid Bucket)) (σ : Queue.State Tid Bucket),
    (Queue.system Tid Bucket).Run System.anyStep Queue.State.initial tr σ →
    ∀ t ls w jvmti trace trace', bytes host frameLookup tid jvmti w σ t (handle asgct s trace) ls =
      bytes host frameLookup tid jvmti w σ t (handle asgct s trace') ls

/-! ## With a `JNIEnv` -/

variable {asgct : Asgct Context} {s : Sample Context Bucket}

/-- With a `JNIEnv`, all of the trace is stored. -/
theorem handle_of_jniEnv {jniEnv : Jlong} (h : s.jniEnv = some jniEnv)
    (trace trace' : JVMPI_CallTrace) : handle asgct s trace = handle asgct s trace' := by
  rw [handle, handle, h]
  dsimp only
  rw [← asgct.stores _ trace'.numFrames]

/-! ## Without a `JNIEnv` -/

/-- `num_frames` of a handler without a `JNIEnv` is an error code. -/
theorem handle_of_none (h : s.jniEnv = none) (trace : JVMPI_CallTrace) :
    (handle asgct s trace).1.envId = trace.envId ∧
      (handle asgct s trace).1.numFrames.toInt ≤ 0 ∧ (handle asgct s trace).2 = none := by
  rw [handle, h]
  refine ⟨rfl, ?_, rfl⟩
  dsimp only
  split_ifs
  · decide
  · decide

/-- Of a trace without frames, only the start is written. -/
theorem record_of_noFrames {c : LogWriter.Call Env} (h : c.trace.numFrames.toInt ≤ 0)
    (w : LogWriter.Writer) : (LogWriter.record host frameLookup w c).output =
      w.output ++ (LogWriter.Record.traceStart c.trace.numFrames c.threadId).encode := by
  rw [LogWriter.record_eq, LogWriter.Call.events, Int.toNat_of_nonpos h,
    LogWriter.Call.framesFrom, LogWriter.foldl_make]
  simp [LogWriter.recordsOf, LogWriter.Event.record, LogWriter.Event.described?]

/-- A push and then a pop, on the empty queue. -/
def alone (t : Tid) : List (Queue.Label Tid Bucket) :=
  List.replicate 5 (.producer t) ++ .pop :: List.replicate 7 .consumer

theorem exec_alone (t : Tid) (item : Item Bucket) :
    ∃ σ : Queue.State Tid Bucket, (Queue.system Tid Bucket).exec System.anyStep .initial
        (.push t item :: alone t) = some σ ∧
      ∃ item', σ.delivered = [item'] ∧ item'.view = item.view := by
  have hpush := Queue.exec_push (Queue.State.initial : Queue.State Tid Bucket) item (t := t) rfl
    (show (0 : ℕ) ≠ Queue.advance 0 by decide)
  rw [alone, ← List.cons_append, System.exec_append, hpush, Option.bind_some, Queue.exec_pop rfl
    (show (0 : ℕ) ≠ Queue.advance 0 by decide) Queue.setCommitted_isCommitted_self]
  refine ⟨_, rfl, _, rfl, ?_⟩
  dsimp only
  rw [Queue.setCommitted_item]
  exact Queue.write_item_view

theorem reservation_alone (t : Tid) (item : Item Bucket) :
    reservation (.initial : Queue.State Tid Bucket) t (.push t item :: alone t) = some 0 := by
  have hroom : (0 : ℕ) ≠ Queue.advance 0 := by decide
  simp [reservation, alone, List.replicate, Queue.State.next, Queue.State.producerStep,
    Queue.State.setProducer, Queue.State.initial, hroom]

/-- Alone, a handler without a `JNIEnv` has the `env_id` written that was there before. -/
theorem bytes_alone (h : s.jniEnv = none) (w : LogWriter.Writer) (jvmti : ℕ → ℕ → Jvmti Env)
    (t : Tid) (trace : JVMPI_CallTrace) :
    bytes host frameLookup tid jvmti w .initial t (handle asgct s trace) (alone t) =
      some (LogWriter.Record.traceStart (handle asgct s trace).1.numFrames trace.envId).encode := by
  obtain ⟨henv, hframes, hinfo⟩ := @handle_of_none _ _ asgct _ h trace
  obtain ⟨σ, hexec, item', hdelivered, hview⟩ :=
    exec_alone t (ofTrace (handle asgct s trace).1 (handle asgct s trace).2)
  obtain ⟨henv', hframes', hinfo'⟩ := words_of_view hview
  rw [bytes, hexec, reservation_alone, Option.bind_some, Option.bind_some, hdelivered, written,
    record_of_noFrames _ _ (by rwa [hframes']), List.drop_left, LogWriter.Call.threadId, hinfo', hinfo, hframes', henv', henv]
  rfl

/-- The bytes of the start of a trace tell its thread. -/
theorem threadId_eq_of_encode {n n' : Jint} {threadId threadId' : Jlong}
    (h : (LogWriter.Record.traceStart n threadId).encode =
      (LogWriter.Record.traceStart n' threadId').encode) : threadId = threadId' := by
  have hdecode := LogWriter.decode_encode [.traceStart n threadId]
  rw [List.flatMap_cons, h, ← List.flatMap_cons, LogWriter.decode_encode] at hdecode
  injection hdecode with hrecords
  injection hrecords with hrecord
  injection hrecord with _ hthread
  exact hthread.symm

/-- A sample of any kind, on any thread, is independent of what was in the trace of its handler
    before if and only if its thread has a `JNIEnv`. -/
theorem independent_iff [Inhabited Tid] [Inhabited Env] (asgct : Asgct Context)
    (s : Sample Context Bucket) :
    Independent Tid host frameLookup tid asgct s ↔ s.jniEnv ≠ none := by
  constructor
  · intro h hnone
    have hbytes := h [] .initial .refl default (alone default) .new (fun _ _ => ⟨none, default⟩)
      ⟨0, 0, s.frames⟩ ⟨1, 0, s.frames⟩
    rw [bytes_alone _ _ _ hnone, bytes_alone _ _ _ hnone] at hbytes
    have hthread : (0 : Jlong) = 1 := threadId_eq_of_encode (Option.some.inj hbytes)
    exact absurd hthread (by decide)
  · intro h tr σ _ t ls w jvmti trace trace'
    obtain ⟨jniEnv, henv⟩ := Option.ne_none_iff_exists'.1 h
    rw [handle_of_jniEnv henv trace trace']

/-- `AsyncGetCallTrace` on a thread without Java frames. -/
def noJavaFrames : Asgct Unit where
  call trace _ _ := { trace with numFrames := 0 }
  stores _ _ _ _ := rfl

/-- A sample on a thread that the virtual machine does not know. -/
def unattached : Sample Unit Unit := ⟨none, none, none, fun _ => ⟨0, 0⟩, 128, ()⟩

/-- The log of such a sample tells what was on the stack. -/
theorem exists_dependent :
    ¬Independent (Fin 1) .little (fun _ (_ : Unit) => none) (fun _ => 0) noJavaFrames unattached := by
  intro h
  have hbytes := h [] .initial .refl 0 (alone 0) .new (fun _ _ => ⟨none, ()⟩)
    ⟨5, 0, fun _ => ⟨0, 0⟩⟩ ⟨6, 0, fun _ => ⟨0, 0⟩⟩
  rw [bytes_alone _ _ _ rfl, bytes_alone _ _ _ rfl] at hbytes
  exact absurd hbytes (by decide)

end Log

end FkProf.Samples
