import FkProf.Profiler.Samples

/-!
# From the handlers to the log

Handlers on any number of threads push their samples, and the thread of the processor pops
them: `pop` calls `LogWriter::record` (`circular_queue.cpp:39-66`), which asks the virtual
machine about the frames and writes to the log (`log_writer.cpp:81-122`). The log is what
the handlers would have written themselves, one after another in the order in which they
have taken their slots.

* `State.next`: a step of the queue, and of the writer when a sample is recorded;
* `State.calls`: the calls of `record` that the handlers would have made;
* `events_congr`: what is recorded does not depend on the memory of a slot past the frames;
* `log_of_run`: the writer has recorded these calls.
-/

namespace FkProf.Recording

open LogWriter (Endian GetFrameInformation Jvmti JVMPI_CallTrace Writer)
open Queue (Item)
open Samples (ofTrace traceOf)

/-- The queue, and the writer that it records to. -/
structure State (Tid Bucket Env : Type*) where
  queue : Queue.State Tid Bucket
  writer : Writer
  /-- The answers of the virtual machine about the frames, for each call of `record`. -/
  answers : List (ℕ → Jvmti Env)

/-- Who takes a step: a handler that pushes a trace with the bucket of its thread or goes on
    with it, or the processor that pops. When it records, the virtual machine answers. -/
inductive Label (Tid Bucket Env : Type*)
  | push (t : Tid) (trace : JVMPI_CallTrace) (info : Option Bucket)
  | producer (t : Tid)
  | pop
  | consumer (jvmti : ℕ → Jvmti Env)

section Steps

variable {Tid Bucket Env : Type*}

/-- The step of the queue. -/
def Label.queue : Label Tid Bucket Env → Queue.Label Tid Bucket
  | .push t trace info => .push t (ofTrace trace info)
  | .producer t => .producer t
  | .pop => .pop
  | .consumer _ => .consumer

/-- The call of `record` for an item, with the `tid` of its bucket. -/
def callOf (tid : Bucket → BitVec 32) (item : Item Bucket) (jvmti : ℕ → Jvmti Env) :
    LogWriter.Call Env :=
  ⟨traceOf item, item.info.map tid, jvmti⟩

variable (host : Endian) (frameLookup : GetFrameInformation Env) (tid : Bucket → BitVec 32)

/-- The call of the listener, line 52. -/
def State.record (σ : State Tid Bucket Env) (jvmti : ℕ → Jvmti Env) : State Tid Bucket Env :=
  match σ.queue.consumer with
  | .record currentOutput =>
    { σ with
      writer := LogWriter.record host frameLookup σ.writer
        (callOf tid (σ.queue.queue.item currentOutput) jvmti)
      answers := σ.answers ++ [jvmti] }
  | _ => σ

/-- The state after a step of the queue. -/
def State.after (σ : State Tid Bucket Env) (q : Queue.State Tid Bucket) :
    Label Tid Bucket Env → State Tid Bucket Env
  | .consumer jvmti => { σ.record host frameLookup tid jvmti with queue := q }
  | _ => { σ with queue := q }

variable [DecidableEq Tid]

/-- The next state. -/
def State.next (σ : State Tid Bucket Env) (l : Label Tid Bucket Env) :
    Option (State Tid Bucket Env) :=
  (σ.queue.next l.queue).map fun q => σ.after host frameLookup tid q l

omit [DecidableEq Tid] in
/-- The empty queue, and a writer that has written nothing. -/
def State.initial : State Tid Bucket Env := ⟨.initial, .new, []⟩

variable (Tid) in
/-- The queue and the writer as a transition system. -/
def system : System (State Tid Bucket Env) (Label Tid Bucket Env) where
  init := {State.initial}
  next := State.next host frameLookup tid

/-- No compare-and-swap succeeds on a full queue. -/
def Fits (σ : State Tid Bucket Env) (l : Label Tid Bucket Env) : Prop := Queue.Fits σ.queue l.queue

instance (σ : State Tid Bucket Env) (l : Label Tid Bucket Env) : Decidable (Fits σ l) :=
  inferInstanceAs (Decidable (Queue.Fits _ _))

end Steps

/-! ## What is recorded of an item -/

section Events

variable {Bucket Env : Type*} (tid : Bucket → BitVec 32)

theorem framesFrom_congr (c c' : LogWriter.Call Env) (hj : c.jvmti = c'.jvmti) {i n : ℕ}
    (h : ∀ k, i ≤ k → k < i + n → c.trace.frames k = c'.trace.frames k) :
    c.framesFrom i n = c'.framesFrom i n := by
  induction n generalizing i with
  | zero => rfl
  | succ n ih =>
    rw [LogWriter.Call.framesFrom, LogWriter.Call.framesFrom, h i le_rfl (by omega), hj,
      ih fun k hk hlt => h k (by omega) (by omega)]

/-- What is recorded of an item that means what a trace does is what is recorded of the
    trace. -/
theorem events_congr {item : Item Bucket} {trace : JVMPI_CallTrace} {info : Option Bucket}
    (h : item.view = (ofTrace trace info).view) (jvmti : ℕ → Jvmti Env) :
    (callOf tid item jvmti).events =
      (⟨trace, info.map tid, jvmti⟩ : LogWriter.Call Env).events := by
  obtain ⟨henv, hframes, hinfo⟩ := Samples.words_of_view h
  have hlist : (List.range item.trace.numFrames.toNat).map item.trace.frames =
      (List.range (ofTrace trace info).trace.numFrames.toNat).map
        (ofTrace trace info).trace.frames :=
    (Prod.mk.inj (Prod.mk.inj (Prod.mk.inj h).2).2).1
  have hnum : item.trace.numFrames = trace.numFrames.toInt :=
    (Prod.mk.inj (Prod.mk.inj h).2).1
  have hframe : ∀ k < trace.numFrames.toInt.toNat,
      (traceOf item).frames k = trace.frames k := fun k hk => by
    have hget : (item.trace.frames k) = (ofTrace trace info).trace.frames k := by
      have hat := congrArg (fun l => l[k]?) hlist
      simp only [hnum, List.getElem?_map] at hat
      rw [List.getElem?_range hk] at hat
      exact Option.some.inj (hat.trans (congrArg _ (List.getElem?_range hk)))
    show (⟨BitVec.ofInt _ (item.trace.frames k).lineno,
      BitVec.ofNat _ (item.trace.frames k).methodId⟩ : LogWriter.JVMPI_CallFrame) = _
    rw [hget, ofTrace, BitVec.ofInt_toInt, BitVec.ofNat_toNat, BitVec.setWidth_eq]
  have hthread : (callOf tid item jvmti).threadId =
      (⟨trace, info.map tid, jvmti⟩ : LogWriter.Call Env).threadId := by
    rw [LogWriter.Call.threadId, LogWriter.Call.threadId, callOf, hinfo, henv]
  have hfrom : (callOf tid item jvmti).framesFrom 0 trace.numFrames.toInt.toNat =
      (⟨trace, info.map tid, jvmti⟩ : LogWriter.Call Env).framesFrom 0
        trace.numFrames.toInt.toNat :=
    framesFrom_congr (callOf tid item jvmti) ⟨trace, info.map tid, jvmti⟩ rfl fun k _ hk => hframe k (by omega)
  rw [LogWriter.Call.events, LogWriter.Call.events, hthread,
    show (callOf tid item jvmti).trace.numFrames = trace.numFrames from hframes, hfrom]

end Events

/-! ## The order of the samples -/

/-- A sample: a trace, and the bucket of its thread. -/
abbrev Sample (Bucket : Type*) := JVMPI_CallTrace × Option Bucket

section Order

variable {Tid Bucket Env : Type*} [DecidableEq Tid]

/-- The sample that a thread pushes. -/
def Label.push? (t : Tid) : Label Tid Bucket Env → Option (Sample Bucket)
  | .push u trace info => if u = t then some (trace, info) else none
  | _ => none

/-- The samples that a thread has pushed. -/
def pushes (t : Tid) (tr : List (State Tid Bucket Env × Label Tid Bucket Env)) :
    List (Sample Bucket) :=
  tr.filterMap fun x => x.2.push? t

/-- The push of a thread returns false, since the queue is full. -/
def Refuses (t : Tid) (σ : State Tid Bucket Env) : Label Tid Bucket Env → Bool
  | .producer u =>
    match σ.queue.producers t with
    | .loadOutput _ c => decide (u = t ∧ σ.queue.queue.output = Queue.advance c)
    | _ => false
  | _ => false

/-- How many pushes of a thread have returned false. -/
def refusals (t : Tid) (tr : List (State Tid Bucket Env × Label Tid Bucket Env)) : ℕ :=
  tr.countP fun x => Refuses t x.1 x.2

/-- Of the samples pushed, those that have taken a slot, and so many refused. -/
structure Kept (pushed taken : List (Sample Bucket)) (refused : ℕ) : Prop where
  sublist : taken.Sublist pushed
  length : pushed.length = taken.length + refused

/-- The samples of a thread that have taken a slot, of those that it has pushed: the last one
    may still be on its way. -/
def Order (pushed taken : List (Sample Bucket)) (refused : ℕ) : Queue.Push Bucket → Prop
  | .loadInput item | .loadOutput item _ | .casInput item _ =>
    ∃ before s, pushed = before ++ [s] ∧ item = ofTrace s.1 s.2 ∧ Kept before taken refused
  | _ => Kept pushed taken refused

/-- The samples of a thread. -/
def samplesOf (t : Tid) (taken : List (Tid × Sample Bucket)) : List (Sample Bucket) :=
  (taken.filter fun x => x.1 = t).map Prod.snd

/-- The samples that have taken a slot, in their order, with their threads. -/
structure Taken (tr : List (State Tid Bucket Env × Label Tid Bucket Env))
    (q : Queue.State Tid Bucket) (taken : List (Tid × Sample Bucket)) : Prop where
  reserved : q.reserved.map Prod.snd = taken.map fun x => ofTrace x.2.1 x.2.2
  order : ∀ t, Order (pushes t tr) (samplesOf t taken) (refusals t tr) (q.producers t)

variable {tr : List (State Tid Bucket Env × Label Tid Bucket Env)} {σ : State Tid Bucket Env}
  {l : Label Tid Bucket Env} {q q' : Queue.State Tid Bucket} {taken : List (Tid × Sample Bucket)}
  {t u : Tid} {pc : Queue.Push Bucket}

theorem pushes_snoc (h : l.push? t = none) : pushes t (tr ++ [(σ, l)]) = pushes t tr := by
  simp [pushes, h]

theorem pushes_push {trace : JVMPI_CallTrace} {info : Option Bucket} :
    pushes t (tr ++ [(σ, .push t trace info)]) = pushes t tr ++ [(trace, info)] := by
  have h : (Label.push t trace info : Label Tid Bucket Env).push? t = some (trace, info) :=
    if_pos rfl
  simp [pushes, h]

theorem refusals_snoc (h : Refuses t σ l = false) :
    refusals t (tr ++ [(σ, l)]) = refusals t tr := by
  simp [refusals, h]

theorem refuses_of_ne (hu : u ≠ t) : Refuses u σ (.producer t) = false := by
  rw [Refuses]
  split
  · exact decide_eq_false fun h => hu h.1.symm
  · rfl

theorem refuses_of_idle {x : Queue.Push Bucket} (hpc : σ.queue.producers t = x)
    (hx : ∀ item c, x = .loadOutput item c → σ.queue.queue.output ≠ Queue.advance c) (u : Tid) :
    Refuses t σ (.producer u) = false := by
  rw [Refuses, hpc]
  split
  · exact decide_eq_false fun h => hx _ _ rfl h.2
  · rfl

theorem samplesOf_append (new : List (Tid × Sample Bucket)) :
    samplesOf t (taken ++ new) = samplesOf t taken ++ samplesOf t new := by
  rw [samplesOf, List.filter_append, List.map_append]
  rfl

/-- The queue goes on without the producers. -/
theorem Taken.congr (h : Taken tr q taken) (hr : q'.reserved = q.reserved)
    (hp : q'.producers = q.producers) (hl : ∀ t, l.push? t = none)
    (hf : ∀ t, Refuses t σ l = false) : Taken (tr ++ [(σ, l)]) q' taken :=
  ⟨by rw [hr, h.reserved], fun t => by
    rw [pushes_snoc (hl t), refusals_snoc (hf t), hp]
    exact h.order t⟩

/-- A producer goes on, and takes no slot. -/
theorem Taken.move (h : Taken tr q taken) (hr : q'.reserved = q.reserved)
    (hp : q'.producers = Function.update q.producers t pc) (hl : ∀ u, u ≠ t → l.push? u = none)
    (hf : ∀ u, u ≠ t → Refuses u σ l = false)
    (ho : Order (pushes t (tr ++ [(σ, l)])) (samplesOf t taken) (refusals t (tr ++ [(σ, l)])) pc) :
    Taken (tr ++ [(σ, l)]) q' taken := by
  refine ⟨by rw [hr, h.reserved], fun u => ?_⟩
  rw [hp]
  by_cases hu : u = t
  · rw [hu, Function.update_self]
    exact ho
  · rw [Function.update_of_ne hu, pushes_snoc (hl u hu), refusals_snoc (hf u hu)]
    exact h.order u

/-- A producer takes a slot. -/
theorem Taken.take (h : Taken tr q taken) {item : Item Bucket} {c : ℕ}
    (hpc : q.producers t = .casInput item c) (hr : q'.reserved = q.reserved ++ [(c, item)])
    (hp : q'.producers = Function.update q.producers t (.write item c))
    (hl : ∀ u, l.push? u = none) (hf : ∀ u, Refuses u σ l = false) :
    ∃ s, Taken (tr ++ [(σ, l)]) q' (taken ++ [(t, s)]) := by
  have ho := h.order t
  rw [hpc] at ho
  obtain ⟨before, s, hpushed, rfl, hkept⟩ := ho
  refine ⟨s, ?_, fun u => ?_⟩
  · rw [hr, List.map_append, List.map_append, h.reserved]
    rfl
  rw [hp, pushes_snoc (hl u), refusals_snoc (hf u), samplesOf_append]
  by_cases hu : u = t
  · rw [hu, Function.update_self]
    have hself : samplesOf t [(t, s)] = [s] := by simp [samplesOf]
    rw [hself]
    show Kept (pushes t tr) (samplesOf t taken ++ [s]) (refusals t tr)
    rw [hpushed]
    refine ⟨hkept.sublist.append (List.Sublist.refl _), ?_⟩
    rw [List.length_append, List.length_append, hkept.length]
    omega
  · have hother : samplesOf u [(t, s)] = [] := by simp [samplesOf, Ne.symm hu]
    rw [Function.update_of_ne hu, hother, List.append_nil]
    exact h.order u

/-- The push of a thread returns false. -/
theorem Order.refuse {pushed taken : List (Sample Bucket)} {refused c : ℕ} {item : Item Bucket}
    (h : Order pushed taken refused (.loadOutput item c)) : Kept pushed taken (refused + 1) := by
  obtain ⟨before, s, rfl, -, hkept⟩ := h
  refine ⟨hkept.sublist.trans (List.sublist_append_left ..), ?_⟩
  rw [List.length_append, hkept.length]
  rfl

/-- Of the samples pushed, those that have taken a slot. -/
theorem Order.sublist {pushed taken : List (Sample Bucket)} {refused : ℕ}
    (h : Order pushed taken refused pc) : taken.Sublist pushed := by
  cases pc with
  | loadInput | loadOutput | casInput =>
    obtain ⟨before, s, rfl, -, hkept⟩ := h
    exact hkept.sublist.trans (List.sublist_append_left ..)
  | idle | write | commit => exact Kept.sublist h

/-- A producer goes on. -/
theorem Taken.producer (h : Taken tr σ.queue taken) (hs : σ.queue.producerStep t = some q') :
    ∃ taken', Taken (tr ++ [(σ, .producer t)]) q' taken' := by
  have hl : ∀ u, (Label.producer t : Label Tid Bucket Env).push? u = none := fun _ => rfl
  have hf : ∀ u, u ≠ t → Refuses u σ (.producer t) = false := fun u hu => refuses_of_ne hu
  have ho := h.order t
  -- A step that takes no slot, and is not refused.
  have hmove : ∀ {x pc : Queue.Push Bucket}, σ.queue.producers t = x →
      (∀ item c, x = .loadOutput item c → σ.queue.queue.output ≠ Queue.advance c) →
      q'.reserved = σ.queue.reserved → q'.producers = Function.update σ.queue.producers t pc →
      Order (pushes t tr) (samplesOf t taken) (refusals t tr) pc →
      ∃ taken', Taken (tr ++ [(σ, .producer t)]) q' taken' := fun hx hne hr hp hpc => by
    refine ⟨taken, h.move hr hp (fun u _ => hl u) hf ?_⟩
    rw [pushes_snoc (hl t), refusals_snoc (refuses_of_idle hx hne t)]
    exact hpc
  rw [Queue.State.producerStep] at hs
  cases hpc : σ.queue.producers t with
  | idle =>
    rw [hpc] at hs
    cases hs
  | loadInput item =>
    rw [hpc] at hs ho
    cases hs
    exact hmove hpc (fun _ _ he => (by cases he)) rfl rfl ho
  | loadOutput item c =>
    rw [hpc] at hs ho
    cases hs
    by_cases hfull : σ.queue.queue.output = Queue.advance c
    · have hrefuse : Refuses t σ (.producer t) = true := by
        rw [Refuses, hpc]
        exact decide_eq_true ⟨rfl, hfull⟩
      refine ⟨taken, h.move rfl rfl (fun u _ => hl u) hf ?_⟩
      rw [pushes_snoc (hl t), if_pos hfull, refusals, List.countP_append,
        List.countP_singleton, if_pos hrefuse]
      exact ho.refuse
    · refine hmove hpc (fun _ _ he => ?_) rfl
        (congrArg (Function.update σ.queue.producers t) (if_neg hfull)) ho
      cases he
      exact hfull
  | casInput item c =>
    rw [hpc] at hs
    dsimp only at hs
    split_ifs at hs
    · have he := Option.some.inj hs
      have hnot : ∀ u, Refuses u σ (.producer t) = false := fun u => by
        by_cases hu : u = t
        · rw [hu]
          exact refuses_of_idle hpc (fun _ _ he => (by cases he)) t
        · exact refuses_of_ne hu
      obtain ⟨s, hs⟩ : ∃ s, Taken (tr ++ [(σ, .producer t)]) q' (taken ++ [(t, s)]) :=
        h.take hpc (by rw [← he]) (by rw [← he]; rfl) hl hnot
      exact ⟨_, hs⟩
    · cases hs
      rw [hpc] at ho
      exact hmove hpc (fun _ _ he => (by cases he)) rfl rfl ho
  | write item slot =>
    rw [hpc] at hs ho
    cases hs
    exact hmove hpc (fun _ _ he => (by cases he)) rfl rfl ho
  | commit slot =>
    rw [hpc] at hs ho
    cases hs
    exact hmove hpc (fun _ _ he => (by cases he)) rfl rfl ho

end Order

/-! ## Runs -/

section Runs

variable {Tid Bucket Env : Type*} {host : Endian} {frameLookup : GetFrameInformation Env}
  {tid : Bucket → BitVec 32} {tr : List (State Tid Bucket Env × Label Tid Bucket Env)}
  {σ σ' : State Tid Bucket Env} {l : Label Tid Bucket Env} {q q' : Queue.State Tid Bucket}
  {taken : List (Tid × Sample Bucket)} {jvmti : ℕ → Jvmti Env}

/-- What is written is what has been popped. -/
structure Recorded (host : Endian) (frameLookup : GetFrameInformation Env)
    (tid : Bucket → BitVec 32) (σ : State Tid Bucket Env) : Prop where
  length : σ.answers.length = σ.queue.delivered.length
  writer : σ.writer = (List.zipWith (callOf tid) σ.queue.delivered σ.answers).foldl
    (LogWriter.record host frameLookup) .new

/-- Nothing is recorded. -/
theorem Recorded.keep (h : Recorded host frameLookup tid σ)
    (hd : σ'.queue.delivered = σ.queue.delivered) (hw : σ'.writer = σ.writer)
    (ha : σ'.answers = σ.answers) : Recorded host frameLookup tid σ' :=
  ⟨by rw [ha, hd, h.length], by rw [hw, hd, ha, h.writer]⟩

/-- A sample is recorded. -/
theorem Recorded.record (h : Recorded host frameLookup tid σ) {item : Item Bucket}
    (hd : σ'.queue.delivered = σ.queue.delivered ++ [item])
    (hw : σ'.writer = LogWriter.record host frameLookup σ.writer (callOf tid item jvmti))
    (ha : σ'.answers = σ.answers ++ [jvmti]) : Recorded host frameLookup tid σ' := by
  refine ⟨?_, ?_⟩
  · rw [ha, hd, List.length_append, List.length_append, h.length]
    rfl
  · rw [hw, hd, ha, List.zipWith_append h.length.symm, List.foldl_append, ← h.writer]
    rfl

/-- A step of `pop` calls the listener, or does not. -/
theorem consumerStep_delivered (h : q.consumerStep = some q') :
    (∃ o, q.consumer = .record o ∧ q'.delivered = q.delivered ++ [q.queue.item o]) ∨
      (∀ o, q.consumer ≠ .record o) ∧ q'.delivered = q.delivered := by
  rw [Queue.State.consumerStep] at h
  cases hc : q.consumer with
  | record o =>
    rw [hc] at h
    cases h
    exact .inl ⟨o, rfl, rfl⟩
  | idle =>
    rw [hc] at h
    cases h
  | wait o =>
    rw [hc] at h
    dsimp only at h
    split_ifs at h <;> cases h <;> exact .inr ⟨fun _ he => (by cases he), rfl⟩
  | loadOutput | loadInput | clear | uncommit | storeOutput =>
    rw [hc] at h
    cases h
    exact .inr ⟨fun _ he => (by cases he), rfl⟩

theorem consumerStep_frame (h : q.consumerStep = some q') :
    q'.reserved = q.reserved ∧ q'.producers = q.producers := by
  rw [Queue.State.consumerStep] at h
  cases hc : q.consumer with
  | idle =>
    rw [hc] at h
    cases h
  | wait o =>
    rw [hc] at h
    dsimp only at h
    split_ifs at h <;> cases h <;> exact ⟨rfl, rfl⟩
  | loadOutput | loadInput | record | clear | uncommit | storeOutput =>
    rw [hc] at h
    cases h
    exact ⟨rfl, rfl⟩

theorem State.record_of_record {o : ℕ} (hc : σ.queue.consumer = .record o) :
    σ.record host frameLookup tid jvmti = { σ with
      writer := LogWriter.record host frameLookup σ.writer (callOf tid (σ.queue.queue.item o) jvmti)
      answers := σ.answers ++ [jvmti] } := by
  rw [State.record, hc]

theorem State.record_of_ne (hc : ∀ o, σ.queue.consumer ≠ .record o) :
    σ.record host frameLookup tid jvmti = σ := by
  rw [State.record]
  split
  · exact absurd ‹_› (hc _)
  · rfl

variable [DecidableEq Tid]

theorem producerStep_delivered {t : Tid} (h : q.producerStep t = some q') :
    q'.delivered = q.delivered := by
  rw [Queue.State.producerStep] at h
  cases hc : q.producers t with
  | idle =>
    rw [hc] at h
    cases h
  | casInput item c =>
    rw [hc] at h
    dsimp only at h
    split_ifs at h <;> cases h <;> rfl
  | loadInput | loadOutput | write | commit =>
    rw [hc] at h
    cases h
    rfl

theorem State.queue_next (hn : σ.next host frameLookup tid l = some σ') :
    σ.queue.next l.queue = some σ'.queue := by
  obtain ⟨q, hq, rfl⟩ := Option.map_eq_some_iff.1 hn
  cases l <;> exact hq

theorem Recorded.next (h : Recorded host frameLookup tid σ)
    (hn : σ.next host frameLookup tid l = some σ') : Recorded host frameLookup tid σ' := by
  obtain ⟨q, hq, rfl⟩ := Option.map_eq_some_iff.1 hn
  cases l with
  | push t trace info =>
    rw [Label.queue, Queue.State.next] at hq
    split at hq <;> cases hq
    exact h.keep rfl rfl rfl
  | producer t => exact h.keep (producerStep_delivered hq) rfl rfl
  | pop =>
    rw [Label.queue, Queue.State.next] at hq
    split_ifs at hq
    cases hq
    exact h.keep rfl rfl rfl
  | consumer jvmti =>
    rw [State.after]
    rcases consumerStep_delivered hq with ⟨o, hc, hd⟩ | ⟨hc, hd⟩
    · rw [State.record_of_record hc]
      exact h.record hd rfl rfl
    · rw [State.record_of_ne hc]
      exact h.keep hd rfl rfl

/-- A step of the queue takes the next slot, or none. -/
theorem Taken.next (h : Taken tr σ.queue taken) (hn : σ.next host frameLookup tid l = some σ') :
    ∃ taken', Taken (tr ++ [(σ, l)]) σ'.queue taken' := by
  have hq := State.queue_next hn
  cases l with
  | push t trace info =>
    rw [Label.queue, Queue.State.next] at hq
    split at hq
    · have he := Option.some.inj hq
      refine ⟨taken, h.move (t := t) (by rw [← he]; rfl) (by rw [← he]; rfl)
        (fun u hu => if_neg hu.symm) (fun _ _ => rfl) ?_⟩
      have ho := h.order t
      rw [‹σ.queue.producers t = _›] at ho
      rw [pushes_push, refusals_snoc rfl]
      exact ⟨_, _, rfl, rfl, ho⟩
    · cases hq
  | producer t => exact h.producer hq
  | pop =>
    rw [Label.queue, Queue.State.next] at hq
    split_ifs at hq
    have he := Option.some.inj hq
    exact ⟨taken, h.congr (by rw [← he]) (by rw [← he]) (fun _ => rfl) fun _ => rfl⟩
  | consumer jvmti =>
    obtain ⟨hr, hp⟩ := consumerStep_frame hq
    exact ⟨taken, h.congr hr hp (fun _ => rfl) fun _ => rfl⟩

/-- The calls of `record` that the handlers would have made: for the samples in the order in
    which they have taken their slots, with the answers that the writer was given. -/
def calls (tid : Bucket → BitVec 32) (taken : List (Tid × Sample Bucket))
    (answers : List (ℕ → Jvmti Env)) : List (LogWriter.Call Env) :=
  List.zipWith (fun x jvmti => ⟨x.2.1, x.2.2.map tid, jvmti⟩) taken answers

omit [DecidableEq Tid] in
/-- The items popped are the samples that have taken a slot. -/
theorem flatMap_events {delivered : List (Item Bucket)} (answers : List (ℕ → Jvmti Env))
    (hlen : answers.length = delivered.length)
    (h : delivered.map Item.view <+:
      (taken.map fun x => ofTrace x.2.1 x.2.2).map Item.view) :
    (List.zipWith (callOf tid) delivered answers).flatMap LogWriter.Call.events =
      (calls tid taken answers).flatMap LogWriter.Call.events := by
  induction delivered generalizing taken answers with
  | nil =>
    obtain rfl := List.length_eq_zero_iff.1 hlen
    rw [calls, List.zipWith_nil_left, List.zipWith_nil_right]
  | cons item delivered ih =>
    obtain ⟨jvmti, answers, rfl⟩ := List.exists_cons_of_length_eq_add_one hlen
    cases taken with
    | nil => cases List.prefix_nil.1 h
    | cons x taken =>
      rw [List.map_cons, List.map_cons, List.map_cons, List.cons_prefix_cons] at h
      rw [calls, List.zipWith_cons_cons, List.zipWith_cons_cons, List.flatMap_cons,
        List.flatMap_cons, events_congr tid h.1, ih answers (Nat.succ.inj hlen) h.2]
      rfl

/-- What is recorded, and which samples have taken a slot. -/
theorem told_of_run {ok : State Tid Bucket Env → Label Tid Bucket Env → Prop}
    (hr : (system Tid host frameLookup tid).Run ok .initial tr σ) :
    Recorded host frameLookup tid σ ∧ ∃ taken, Taken tr σ.queue taken :=
  hr.traceInvariant (I := fun tr σ =>
      Recorded host frameLookup tid σ ∧ ∃ taken, Taken tr σ.queue taken)
    (fun _ _ _ _ ⟨ha, _, ht⟩ _ hn => ⟨ha.next hn, ht.next hn⟩)
    ⟨⟨rfl, rfl⟩, [], rfl, fun _ => ⟨List.Sublist.slnil, rfl⟩⟩

/-- The queue is that of a run of its own. -/
theorem inv_of_run (hr : (system Tid host frameLookup tid).Run Fits .initial tr σ) :
    Queue.Inv σ.queue :=
  hr.invariant (I := fun σ : State Tid Bucket Env => Queue.Inv σ.queue)
    (fun _ _ _ ha hl hn => Queue.Inv.next ha hl (State.queue_next hn)) .initial

/-- In every run in which no compare-and-swap succeeds on a full queue there are the samples
    that have taken a slot, in their order, such that

    * those of a thread are samples that it has pushed, in the order in which it has pushed
      them, none of them twice, and all of them but those refused by a full queue;
    * the writer has written, byte for byte, what it would have written if the handlers had
      called `record` themselves, in that order, for all of the samples but the last `Size` at
      most, and for all of them when `pop` finds the queue empty;
    * so the log is read back as the records of these calls. -/
theorem log_of_run
    (hr : (system Tid host frameLookup tid).Run Fits .initial tr σ) :
    ∃ taken : List (Tid × Sample Bucket),
      (∀ t, (samplesOf t taken).Sublist (pushes t tr) ∧ (σ.queue.producers t = .idle →
        (pushes t tr).length = (samplesOf t taken).length + refusals t tr)) ∧
      σ.writer = (calls tid taken σ.answers).foldl (LogWriter.record host frameLookup) .new ∧
      σ.answers.length ≤ taken.length ∧ taken.length ≤ σ.answers.length + Queue.Size ∧
      (∀ o, σ.queue.consumer = .loadInput o → o = σ.queue.queue.input →
        σ.answers.length = taken.length) ∧
      LogWriter.decode σ.writer.output = some (LogWriter.recordsOf frameLookup ∅
        ((calls tid taken σ.answers).flatMap LogWriter.Call.events)) := by
  obtain ⟨hrec, taken, htaken⟩ := told_of_run hr
  have hinv := inv_of_run hr
  have hitems : σ.queue.delivered.map Item.view <+:
      (taken.map fun x => ofTrace x.2.1 x.2.2).map Item.view := by
    rw [← htaken.reserved, List.map_map]
    exact hinv.delivered
  have hreserved : σ.queue.reserved.length = taken.length := by
    have hlen := congrArg List.length htaken.reserved
    rwa [List.length_map, List.length_map] at hlen
  have hle : σ.queue.delivered.length ≤ taken.length := by
    have hlen := hitems.length_le
    rwa [List.length_map, List.length_map, List.length_map] at hlen
  have hwriter : σ.writer =
      (calls tid taken σ.answers).foldl (LogWriter.record host frameLookup) .new := by
    rw [hrec.writer, LogWriter.foldl_record, LogWriter.foldl_record,
      flatMap_events σ.answers hrec.length hitems]
  refine ⟨taken, fun t => ⟨(htaken.order t).sublist, fun hidle => ?_⟩, hwriter, ?_, ?_,
    fun o hco ho => ?_, ?_⟩
  · have ho := htaken.order t
    rw [hidle] at ho
    exact ho.length
  · rw [hrec.length]
    exact hle
  · rw [hrec.length, ← hreserved]
    exact hinv.le_size.trans (Nat.add_le_add_right σ.queue.popped_le_delivered _)
  · rw [hrec.length, ← hreserved]
    exact hinv.drained hco ho
  · rw [hwriter, LogWriter.foldl_record]
    exact LogWriter.decode_foldl_make host frameLookup _

end Runs

section Examples

/-- The frames of a sample of the main thread. -/
def oneFrame : JVMPI_CallTrace := ⟨7, 1, fun _ => ⟨3, 5⟩⟩

/-- Two threads push a sample each, and both are recorded. -/
theorem log_of_run_two :
    ∃ (σ : State (Fin 2) Unit Unit) (taken : List (Fin 2 × Sample Unit)),
      σ.answers.length = 2 ∧ taken.length = 2 ∧
      LogWriter.decode σ.writer.output = some (LogWriter.recordsOf (fun _ _ => none) ∅
        ((calls (fun _ => 9) taken σ.answers).flatMap LogWriter.Call.events)) := by
  have hrun : (((system (Fin 2) .little (fun _ (_ : Unit) => none) fun (_ : Unit) => 9).exec Fits
      .initial ([.push 0 oneFrame none, .push 1 oneFrame (some ())] ++
        .producer 0 :: List.replicate 5 (.producer 1) ++ List.replicate 7 (.producer 0) ++
        .pop :: List.replicate 7 (.consumer fun _ => ⟨none, ()⟩) ++
        .pop :: List.replicate 7 (.consumer fun _ => ⟨none, ()⟩) ++
        .pop :: [.consumer fun _ => ⟨none, ()⟩])).any fun σ =>
          decide (σ.answers.length = 2 ∧ σ.queue.consumer = .loadInput σ.queue.queue.input)) =
        true := by
    decide +kernel
  obtain ⟨tr, σ, hr, hp⟩ := System.exists_run_of_exec hrun
  obtain ⟨hlen, hc⟩ := of_decide_eq_true hp
  obtain ⟨taken, -, -, -, -, hall, hdecode⟩ := log_of_run hr
  exact ⟨σ, taken, hlen, (hall _ hc rfl).symm.trans hlen, hdecode⟩

end Examples

end FkProf.Recording
