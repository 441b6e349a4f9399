import FkProf.CircularQueue.Protocol
import FkProf.Processor.Status

/-!
# Stopping drains the queue

The processor over its queue: the worker's `pop` is the consumer of the queue,
step by step, and application threads push at any time. Every worker is launched
and every `setitimer` succeeds.

The worker pops until the queue is empty, and only then loads `isRunning_`. If
stop is called and clears `isRunning_` between the two, the worker leaves without
looking at the queue again, and what has been pushed since its last `pop` stays
there (`Abandons`). In a run without that step, and without overfilling the
queue, stop drains it.

* `drained_of_run`: the invariant of these runs;
* `stop_drains`: what has been pushed when stop is called has been recorded when
  it has returned;
* `exists_abandoned`: a run in which a sample is left behind.
-/

namespace FkProf.Processor

/-! ## The processor and its queue -/

/-- The processor, its queue, and the history of the pushes: `ticket t` is the
    number of the last reservation of a slot that `t` has made, `returned` are the
    reservations whose `push` has returned true, and `due` those that had when a
    running profiler was last told to stop. -/
structure Drain (Tid Bucket : Type*) where
  processor : State
  queue : Queue.State Tid Bucket
  ticket : Tid → ℕ
  returned : List ℕ
  due : List ℕ

/-- Who takes a step. -/
inductive DrainLabel (Tid Bucket : Type*)
  | push (t : Tid) (item : Queue.Item Bucket)
  | producer (t : Tid)
  | start
  | stop
  | control
  | worker

section Steps

variable {Tid Bucket : Type*}

/-- What `pop` returns at its last step. -/
def popResult : Queue.Pop → Bool
  | .storeOutput _ => true
  | _ => false

/-- A step of the worker: at `buffer_.pop()` it is a step of the consumer. -/
def Drain.workerStep (intervals : ℕ → ℤ) (σ : Drain Tid Bucket) : Option (Drain Tid Bucket) :=
  match σ.processor.worker with
  | some (.pop _) =>
    if σ.queue.consumer = .idle then
      some { σ with queue := { σ.queue with consumer := .loadOutput } }
    else
      σ.queue.consumerStep.bind fun q =>
        if q.consumer = .idle then
          (σ.processor.workerStep intervals (popResult σ.queue.consumer)).map fun p =>
            { σ with processor := p, queue := q }
        else some { σ with queue := q }
  | _ => (σ.processor.workerStep intervals true).map fun p => { σ with processor := p }

variable [DecidableEq Tid]

/-- The history of the pushes after a step of a producer. -/
def Drain.notePush (σ : Drain Tid Bucket) (t : Tid) : (Tid → ℕ) × List ℕ :=
  match σ.queue.producers t with
  | .casInput _ currentInput =>
    (if σ.queue.queue.input = currentInput then
      Function.update σ.ticket t σ.queue.reserved.length else σ.ticket, σ.returned)
  | .commit _ => (σ.ticket, σ.returned ++ [σ.ticket t])
  | _ => (σ.ticket, σ.returned)

/-- The next state. -/
def Drain.next (intervals : ℕ → ℤ) (σ : Drain Tid Bucket) :
    DrainLabel Tid Bucket → Option (Drain Tid Bucket)
  | .push t item => (σ.queue.next (.push t item)).map fun q => { σ with queue := q }
  | .producer t =>
    (σ.queue.producerStep t).map fun q =>
      { σ with queue := q, ticket := (σ.notePush t).1, returned := (σ.notePush t).2 }
  | .start => (σ.processor.next intervals .start).map fun p => { σ with processor := p }
  | .stop =>
    (σ.processor.next intervals .stop).map fun p =>
      { σ with processor := p, due := if σ.processor.isRunning then σ.returned else σ.due }
  | .control => (σ.processor.controlStep intervals true).map fun p => { σ with processor := p }
  | .worker => σ.workerStep intervals

omit [DecidableEq Tid] in
/-- The processor as it is built, and an empty queue. -/
def Drain.initial (workerDone : Bool) : Drain Tid Bucket :=
  ⟨.initial workerDone, .initial, fun _ => 0, [], []⟩

variable (Tid Bucket) in
/-- The processor over its queue as a transition system. -/
def drainSystem (c : SamplingInterval) (rand : ℕ → ℕ) :
    System (Drain Tid Bucket) (DrainLabel Tid Bucket) where
  init := {σ | ∃ b, σ = .initial b}
  next := Drain.next (c.timingIntervals rand)

end Steps

variable {Tid Bucket : Type*}

/-- The worker has found the queue empty, and has not loaded `isRunning_` since. -/
def Run.foundEmpty : Run → Bool
  | .test _ | .rearm _ | .loadRunning _ => true
  | _ => false

/-- Stop clears `isRunning_` after the worker has found the queue empty, and before
    it loads `isRunning_`, while some sample is left that had been pushed when stop
    was called; or a compare-and-swap overfills the queue. -/
def Abandons (σ : Drain Tid Bucket) : DrainLabel Tid Bucket → Prop
  | .control =>
    σ.processor.control = .clearRunning ∧ (σ.processor.worker.any Run.foundEmpty) = true ∧
      ∃ k ∈ σ.due, σ.queue.delivered.length ≤ k
  | .producer t => Queue.Overfills σ.queue (.producer t)
  | _ => False

/-- The other steps. -/
def Drains (σ : Drain Tid Bucket) (l : DrainLabel Tid Bucket) : Prop := ¬Abandons σ l

instance (σ : Drain Tid Bucket) (l : DrainLabel Tid Bucket) : Decidable (Drains σ l) := by
  cases l <;> simp only [Drains, Abandons]
  case producer t => exact inferInstanceAs (Decidable (Queue.Fits σ.queue (.producer t)))
  all_goals infer_instance

/-! ## The steps of the queue -/

section Queue

open FkProf.Queue

variable {q q' : Queue.State Tid Bucket}

/-- The consumer reserves nothing, and takes back nothing it has delivered. -/
theorem consumerStep_frame (h : q.consumerStep = some q') :
    q'.reserved = q.reserved ∧ q'.producers = q.producers ∧
      q.delivered.length ≤ q'.delivered.length := by
  cases hc : q.consumer <;>
    simp only [Queue.State.consumerStep, hc, Option.some.injEq, reduceCtorEq] at h <;> subst h
  case wait => split <;> simp
  all_goals simp

/-- When `pop` returns false, everything has been delivered. -/
theorem drained_of_consumerStep (hq : Inv q) (h : q.consumerStep = some q')
    (hidle : q'.consumer = .idle) (hres : popResult q.consumer = false) :
    q'.delivered.length = q'.reserved.length := by
  cases hc : q.consumer <;>
    simp only [Queue.State.consumerStep, hc, Option.some.injEq, reduceCtorEq] at h <;> subst h
  case loadInput o =>
    have ho : o = q.queue.input := by
      by_contra hne
      simp [hne] at hidle
    exact hq.drained hc ho
  case wait o =>
    revert hidle
    split <;> simp [hc]
  case storeOutput => simp [hc, popResult] at hres
  all_goals simp at hidle

variable [DecidableEq Tid] {t : Tid}

/-- A producer that has a slot after a step has reserved it in the step, or had it. -/
theorem producerStep_frame (h : q.producerStep t = some q') :
    q'.delivered = q.delivered ∧ q'.consumer = q.consumer ∧ q.reserved <+: q'.reserved := by
  cases hc : q.producers t <;>
    simp only [Queue.State.producerStep, hc, Option.some.injEq, reduceCtorEq] at h <;> subst h
  case casInput => split <;> simp [Queue.State.setProducer]
  all_goals simp [Queue.State.setProducer]

/-- A step of a producer leaves the others where they are. -/
theorem producers_of_ne (h : q.producerStep t = some q') {u : Tid} (hu : u ≠ t) :
    q'.producers u = q.producers u := by
  cases hc : q.producers t <;>
    simp only [Queue.State.producerStep, hc, Option.some.injEq, reduceCtorEq] at h <;> subst h
  case casInput => split <;> simp [Queue.State.setProducer, hu]
  all_goals simp [Queue.State.setProducer, hu]

/-- A producer with a slot had it before the step, or has reserved it in the step. -/
theorem slot_of_producerStep (h : q.producerStep t = some q') {s : ℕ}
    (hs : (q'.producers t).slot? = some s) :
    (q.producers t).slot? = some s ∨
      q.reserved.length < q'.reserved.length ∧
        ∃ item, q.producers t = .casInput item q.queue.input := by
  cases hc : q.producers t <;>
    simp only [Queue.State.producerStep, hc, Option.some.injEq, reduceCtorEq] at h <;> subst h
  case casInput item c =>
    revert hs
    split
    · rename_i heq
      exact fun _ => .inr ⟨by simp, item, by rw [heq]⟩
    · simp [Push.slot?]
  case loadOutput =>
    revert hs
    rw [Queue.State.setProducer_self]
    split <;> simp [Push.slot?]
  case write => exact .inl (by simpa [Push.slot?] using hs)
  all_goals simp [Push.slot?] at hs

end Queue

/-! ## The invariant -/

/-- What was pushed when stop was last called has been recorded. -/
def Drain.Done (σ : Drain Tid Bucket) : Prop := ∀ k ∈ σ.due, k < σ.queue.delivered.length

/-- The invariant of the runs in which nothing is abandoned. -/
structure Drained (σ : Drain Tid Bucket) : Prop where
  handshake : Handshake σ.processor
  obeys : Obeys σ.processor
  queue : Queue.Inv σ.queue
  ticket : ∀ t s, (σ.queue.producers t).slot? = some s → σ.ticket t < σ.queue.reserved.length
  returned : ∀ k ∈ σ.returned, k < σ.queue.reserved.length
  due : σ.due ⊆ σ.returned
  /-- No stop of a running profiler is in progress. -/
  calm : σ.processor.control.stopping = false →
    (σ.processor.control = .testStop → σ.processor.isRunning = false) → σ.Done
  /-- Stop waits for a worker that has found the queue empty, or has left. -/
  spinning : σ.processor.control = .spin →
    (∀ n, σ.processor.worker ≠ some (.pop n)) → σ.Done

section Preservation

variable {σ σ' : Drain Tid Bucket} {intervals : ℕ → ℤ}

theorem Drain.Done.mono (h : σ.Done) (hdue : σ'.due = σ.due)
    (hlen : σ.queue.delivered.length ≤ σ'.queue.delivered.length) : σ'.Done :=
  fun k hk => (h k (hdue ▸ hk)).trans_le hlen

/-- The queue moves, and the processor does not. -/
theorem Drained.moveQueue (h : Drained σ) {q : Queue.State Tid Bucket} (hq : Queue.Inv q)
    {ticket : Tid → ℕ} {returned : List ℕ}
    (hticket : ∀ t s, (q.producers t).slot? = some s → ticket t < q.reserved.length)
    (hret : ∀ k ∈ returned, k < q.reserved.length) (hsub : σ.returned ⊆ returned)
    (hdel : σ.queue.delivered.length ≤ q.delivered.length) :
    Drained { σ with queue := q, ticket := ticket, returned := returned } where
  handshake := h.handshake
  obeys := h.obeys
  queue := hq
  ticket := hticket
  returned := hret
  due := List.Subset.trans h.due hsub
  calm hc hr := (h.calm hc hr).mono rfl hdel
  spinning hc hw := (h.spinning hc hw).mono rfl hdel

variable [DecidableEq Tid]

theorem notePush_of_ne {t u : Tid} (hu : u ≠ t) : (σ.notePush t).1 u = σ.ticket u := by
  unfold Drain.notePush
  split
  · dsimp only
    split
    · rw [Function.update_of_ne hu]
    · rfl
  all_goals rfl

theorem notePush_of_slot {t : Tid} {s : ℕ} (h : (σ.queue.producers t).slot? = some s) :
    (σ.notePush t).1 = σ.ticket := by
  unfold Drain.notePush
  split
  · rename_i hpc
    simp [hpc, Queue.Push.slot?] at h
  all_goals rfl

theorem mem_notePush {t : Tid} {k : ℕ} : k ∈ (σ.notePush t).2 ↔
    k ∈ σ.returned ∨ k = σ.ticket t ∧ ∃ s, σ.queue.producers t = .commit s := by
  cases hpc : σ.queue.producers t <;> simp [Drain.notePush, hpc]

theorem Drained.push (h : Drained σ) {t : Tid} {item : Queue.Item Bucket}
    (hn : σ.next intervals (.push t item) = some σ') : Drained σ' := by
  obtain ⟨q, hq, rfl⟩ := Option.map_eq_some_iff.1 hn
  have hinv : Queue.Inv q := h.queue.next (l := .push t item) id hq
  simp only [Queue.State.next] at hq
  split at hq
  · cases hq
    refine h.moveQueue hinv (fun u s hs => h.ticket u s ?_) h.returned (List.Subset.refl _) le_rfl
    by_cases hu : u = t
    · subst hu
      simp [Queue.Push.slot?] at hs
    · rwa [Queue.State.setProducer_of_ne _ hu] at hs
  · cases hq

theorem Drained.producer (h : Drained σ) {t : Tid} (hl : Drains σ (.producer t))
    (hn : σ.next intervals (.producer t) = some σ') : Drained σ' := by
  obtain ⟨q, hq, rfl⟩ := Option.map_eq_some_iff.1 hn
  obtain ⟨hdel, -, hres⟩ := producerStep_frame hq
  have hlen := hres.length_le
  have hinv : Queue.Inv q := h.queue.next (l := .producer t) hl hq
  refine h.moveQueue hinv (fun u s hs => ?_) (fun k hk => ?_) (fun k hk => ?_)
    (congrArg List.length hdel).ge
  · by_cases hu : u = t
    · subst hu
      rcases slot_of_producerStep hq hs with hold | ⟨hlt, item, hpc⟩
      · rw [notePush_of_slot hold]
        exact (h.ticket u s hold).trans_le hlen
      · simpa [Drain.notePush, hpc] using hlt
    · rw [producers_of_ne hq hu] at hs
      rw [notePush_of_ne hu]
      exact (h.ticket u s hs).trans_le hlen
  · rcases mem_notePush.1 hk with hk | ⟨rfl, s, hpc⟩
    · exact (h.returned k hk).trans_le hlen
    · exact (h.ticket t s (by rw [hpc]; rfl)).trans_le hlen
  · exact mem_notePush.2 (.inl hk)

omit [DecidableEq Tid] in
/-- The processor moves, and the queue does not. -/
theorem Drained.moveProcessor (h : Drained σ) {p : State} (hk : Handshake p) (ho : Obeys p)
    (hcalm : p.control.stopping = false → (p.control = .testStop → p.isRunning = false) → σ.Done)
    (hspin : p.control = .spin → (∀ n, p.worker ≠ some (.pop n)) → σ.Done) :
    Drained { σ with processor := p } :=
  ⟨hk, ho, h.queue, h.ticket, h.returned, h.due, hcalm, hspin⟩

theorem Drained.start (h : Drained σ) (hn : σ.next intervals .start = some σ') : Drained σ' := by
  obtain ⟨p, hp, rfl⟩ := Option.map_eq_some_iff.1 hn
  have hk := h.handshake.next hp
  have ho := h.obeys.next h.handshake id hp
  simp only [State.next] at hp
  split at hp
  · rename_i hc
    cases hp
    exact h.moveProcessor hk ho (fun _ _ => h.calm (by rw [hc]; rfl) (by simp [hc])) (by simp)
  · cases hp

theorem Drained.stop (h : Drained σ) (hn : σ.next intervals .stop = some σ') : Drained σ' := by
  obtain ⟨p, hp, rfl⟩ := Option.map_eq_some_iff.1 hn
  have hk := h.handshake.next hp
  have ho := h.obeys.next h.handshake id hp
  simp only [State.next] at hp
  split at hp
  · rename_i hc
    cases hp
    refine ⟨hk, ho, h.queue, h.ticket, h.returned, ?_, fun _ hrun => ?_, by simp⟩
    · split
      · exact List.Subset.refl _
      · exact h.due
    · have hrun : σ.processor.isRunning = false := hrun rfl
      have hdone := h.calm (by rw [hc]; rfl) (by simp [hc])
      exact hdone.mono (by simp [hrun]) le_rfl
  · cases hp

/-- The worker that stop has told to leave is at the end of its loop, or past it. -/
theorem Drained.control (h : Drained σ) (hl : Drains σ .control)
    (hn : σ.next intervals .control = some σ') : Drained σ' := by
  obtain ⟨p, hp, rfl⟩ := Option.map_eq_some_iff.1 hn
  have hk := h.handshake.controlStep hp
  have ho := h.obeys.controlStep h.handshake (by simp [Deserts]) hp
  have hknows := h.handshake.control
  unfold State.controlStep at hp
  split at hp <;> rename_i hc <;> rw [hc] at hknows <;>
    simp only [Option.map_eq_some_iff, Option.some.injEq, reduceCtorEq] at hp <;>
    simp only [Control.Knows] at hknows
  case h_2 =>
    subst hp
    have hdone := h.calm (by rw [hc]; rfl) (by simp [hc])
    refine h.moveProcessor hk ho (fun _ _ => hdone) ?_
    split <;> simp
  case h_3 | h_4 | h_5 | h_6 | h_8 =>
    subst hp
    have hdone := h.calm (by rw [hc]; rfl) (by simp [hc])
    exact h.moveProcessor hk ho (fun _ _ => hdone) (by simp)
  case h_7 =>
    obtain ⟨p, -, rfl⟩ := hp
    have hdone := h.calm (by rw [hc]; rfl) (by simp [hc])
    exact h.moveProcessor hk ho (fun _ _ => hdone) (by simp)
  case h_9 =>
    subst hp
    revert hk ho
    split <;> intro hk ho <;> rename_i hrun
    · exact h.moveProcessor hk ho (by simp [Control.stopping]) (by simp)
    · have hdone := h.calm (by rw [hc]; rfl) fun _ => by simpa using hrun
      exact h.moveProcessor hk ho (fun _ _ => hdone) (by simp)
  case h_10 =>
    subst hp
    exact h.moveProcessor hk ho (by simp [Control.stopping]) (by simp)
  case h_11 =>
    obtain ⟨p, -, rfl⟩ := hp
    exact h.moveProcessor hk ho (by simp [Control.stopping]) (by simp)
  case h_12 =>
    subst hp
    refine h.moveProcessor hk ho (by simp [Control.stopping]) fun _ hw k hdue => ?_
    obtain ⟨w, hsome⟩ := Option.isSome_iff_exists.1 (h.obeys.launched hknows (by rw [hc]; rfl))
    -- The worker is in its loop, and past its last `pop`.
    have hloop : w.looping = true := by
      by_contra hl
      simp [h.obeys.leaving w hsome (by simpa using hl)] at hknows
    have hempty : w.foundEmpty = true := by
      cases w <;> simp_all [Run.looping, Run.foundEmpty]
    by_contra hk
    exact hl ⟨hc, by simp [hsome, hempty], k, hdue, not_lt.1 hk⟩
  case h_13 =>
    subst hp
    revert hk ho
    split <;> intro hk ho
    · exact h
    · rename_i hdone
      have hnone : σ.processor.worker = none := by
        by_contra hw
        exact hdone (h.handshake.flag (Option.isSome_iff_ne_none.2 hw))
      have hspin := h.spinning hc (by simp [hnone])
      exact h.moveProcessor hk ho (fun _ _ => hspin) (by simp)

omit [DecidableEq Tid] in
theorem Drained.calm_of_worker (h : Drained σ) {p : State} {ok : Bool}
    (hp : σ.processor.workerStep intervals ok = some p) (hc : p.control.stopping = false)
    (hr : p.control = .testStop → p.isRunning = false) : σ.Done := by
  obtain ⟨-, hrun, hctl, -⟩ := State.workerStep_flags hp
  rw [hctl] at hc hr
  exact h.calm hc (fun ht => hrun ▸ hr ht)

theorem Drained.worker (h : Drained σ) (hn : σ.next intervals .worker = some σ') : Drained σ' := by
  simp only [Drain.next, Drain.workerStep] at hn
  split at hn
  · rename_i n hw
    split at hn
    · rename_i hidle
      cases hn
      have hinv : Queue.Inv { σ.queue with consumer := .loadOutput } :=
        h.queue.next (l := .pop) id (by simp [Queue.system, Queue.State.next, hidle])
      exact h.moveQueue hinv h.ticket h.returned (List.Subset.refl _) le_rfl
    · obtain ⟨q, hq, hn⟩ := Option.bind_eq_some_iff.1 hn
      obtain ⟨hres, hprod, hdel⟩ := consumerStep_frame hq
      have h' : Drained { σ with queue := q } :=
        h.moveQueue (h.queue.consumerStep hq) (by rw [hprod, hres]; exact h.ticket)
          (by rw [hres]; exact h.returned) (List.Subset.refl _) hdel
      split at hn
      · rename_i hidle
        obtain ⟨p, hp, rfl⟩ := Option.map_eq_some_iff.1 hn
        refine h'.moveProcessor (h.handshake.workerStep hp)
          (h.obeys.workerStep (by simp [Deserts, hw]) hp)
          (fun hc hr => h'.calm_of_worker hp hc hr) fun hspin hpop k hk => ?_
        -- Stop waits, and the worker has left `pop`: the queue is empty.
        have hres' : popResult σ.queue.consumer = false := by
          by_contra ht
          rw [Bool.not_eq_false] at ht
          simp only [State.workerStep, hw, ht, if_true, Option.some.injEq] at hp
          exact hpop (n + 1) (by rw [← hp])
        have hall := drained_of_consumerStep h.queue hq hidle hres'
        change k < q.delivered.length
        rw [hall]
        exact h'.returned k (h.due hk)
      · cases hn
        exact h'
  · rename_i hw
    obtain ⟨p, hp, rfl⟩ := Option.map_eq_some_iff.1 hn
    refine h.moveProcessor (h.handshake.workerStep hp) (h.obeys.workerStep (by simp [Deserts]) hp)
      (fun hc hr => h.calm_of_worker hp hc hr) fun hspin _ => h.spinning ?_ fun n => hw n
    obtain ⟨-, -, hctl, -⟩ := State.workerStep_flags hp
    rwa [hctl] at hspin

theorem Drained.next (h : Drained σ) {l : DrainLabel Tid Bucket} (hl : Drains σ l)
    (hn : σ.next intervals l = some σ') : Drained σ' := by
  cases l with
  | push t item => exact h.push hn
  | producer t => exact h.producer hl hn
  | start => exact h.start hn
  | stop => exact h.stop hn
  | control => exact h.control hl hn
  | worker => exact h.worker hn

omit [DecidableEq Tid] in
theorem Drained.initial (b : Bool) : Drained (.initial b : Drain Tid Bucket) where
  handshake := .initial b
  obeys := .initial b
  queue := .initial
  ticket := by simp [Drain.initial, Queue.State.initial, Queue.Push.slot?]
  returned := by simp [Drain.initial]
  due := List.Subset.refl _
  calm _ _ := by simp [Drain.Done, Drain.initial]
  spinning _ _ := by simp [Drain.Done, Drain.initial]

/-- The invariant holds in every run in which nothing is abandoned. -/
theorem drained_of_run {c : SamplingInterval} {rand : ℕ → ℕ}
    {tr : List (Drain Tid Bucket × DrainLabel Tid Bucket)}
    (hr : (drainSystem Tid Bucket c rand).Run Drains σ tr σ') (h : Drained σ) : Drained σ' :=
  hr.invariant (fun _ _ _ ha hl hn => ha.next hl hn) h

/-! ## Stop -/

/-- The pushes that had returned when a stop was called, in a later state. -/
structure Since (a σ : Drain Tid Bucket) : Prop where
  returned : a.returned ⊆ σ.returned
  due : a.returned ⊆ σ.due
  reserved : a.queue.reserved <+: σ.queue.reserved

theorem Since.next {a : Drain Tid Bucket} (h : Since a σ) {l : DrainLabel Tid Bucket}
    (hn : σ.next intervals l = some σ') : Since a σ' := by
  cases l with
  | push t item =>
    obtain ⟨q, hq, rfl⟩ := Option.map_eq_some_iff.1 hn
    simp only [Queue.State.next] at hq
    split at hq <;> cases hq
    exact ⟨h.returned, h.due, h.reserved⟩
  | producer t =>
    obtain ⟨q, hq, rfl⟩ := Option.map_eq_some_iff.1 hn
    refine ⟨fun k hk => mem_notePush.2 (.inl (h.returned hk)), h.due, ?_⟩
    exact h.reserved.trans (producerStep_frame hq).2.2
  | start | control =>
    obtain ⟨p, -, rfl⟩ := Option.map_eq_some_iff.1 hn
    exact ⟨h.returned, h.due, h.reserved⟩
  | stop =>
    obtain ⟨p, -, rfl⟩ := Option.map_eq_some_iff.1 hn
    refine ⟨h.returned, ?_, h.reserved⟩
    dsimp only
    split
    · exact h.returned
    · exact h.due
  | worker =>
    simp only [Drain.next, Drain.workerStep] at hn
    split at hn
    · split at hn
      · cases hn
        exact ⟨h.returned, h.due, h.reserved⟩
      · obtain ⟨q, hq, hn⟩ := Option.bind_eq_some_iff.1 hn
        have hres : a.queue.reserved <+: q.reserved := by
          rw [(consumerStep_frame hq).1]
          exact h.reserved
        split at hn
        · obtain ⟨p, -, rfl⟩ := Option.map_eq_some_iff.1 hn
          exact ⟨h.returned, h.due, hres⟩
        · cases hn
          exact ⟨h.returned, h.due, hres⟩
    · obtain ⟨p, -, rfl⟩ := Option.map_eq_some_iff.1 hn
      exact ⟨h.returned, h.due, h.reserved⟩

end Preservation

/-- In a run in which nothing is abandoned, a stop of the running profiler called in
    the state `a`: when it has returned, the item of every reservation whose `push`
    had returned true in `a` has been handed to `LogWriter::record`. -/
theorem stop_drains [DecidableEq Tid] (c : SamplingInterval) (rand : ℕ → ℕ) {b : Bool}
    {a a' σ : Drain Tid Bucket} {tr tr' : List (Drain Tid Bucket × DrainLabel Tid Bucket)}
    (hr : (drainSystem Tid Bucket c rand).Run Drains (.initial b) tr a)
    (hrun : a.processor.isRunning = true)
    (hstop : (drainSystem Tid Bucket c rand).next a .stop = some a')
    (hr' : (drainSystem Tid Bucket c rand).Run Drains a' tr' σ)
    (hidle : σ.processor.control = .idle) :
    ∀ k ∈ a.returned, ∃ r x, a.queue.reserved[k]? = some r ∧
      σ.queue.delivered[k]? = some x ∧ x.view = r.2.view := by
  have ha := drained_of_run hr (.initial b)
  have hσ := drained_of_run hr' (ha.stop hstop)
  have hsince : Since a a' := by
    obtain ⟨p, -, rfl⟩ := Option.map_eq_some_iff.1 hstop
    exact ⟨List.Subset.refl _, by simp [hrun], List.prefix_refl _⟩
  replace hsince : Since a σ := hr'.invariant (fun _ _ _ h _ hn => h.next hn) hsince
  intro k hk
  have hlt : k < a.queue.reserved.length := ha.returned k hk
  have hdone : k < σ.queue.delivered.length :=
    hσ.calm (by rw [hidle]; rfl) (by simp [hidle]) k (hsince.due hk)
  refine ⟨_, _, List.getElem?_eq_getElem hlt, List.getElem?_eq_getElem hdone, ?_⟩
  have hview := hσ.queue.delivered.getElem (i := k) (by simpa using hdone)
  have hres := hsince.reserved.getElem hlt
  rw [List.getElem_map, List.getElem_map] at hview
  rw [hview, hres]

/-- A call of start from its beginning to its end. -/
def startCall : List (DrainLabel (Fin 1) Unit) := .start :: List.replicate 17 .control

/-- A call of `push` from its beginning to its end. -/
def pushCall : List (DrainLabel (Fin 1) Unit) :=
  .push 0 ⟨⟨0, 0, fun _ => ⟨0, 0⟩⟩, none⟩ :: List.replicate 5 (.producer 0)

/-- A call of stop from after its beginning to its end, with the worker leaving. -/
def restOfStop : List (DrainLabel (Fin 1) Unit) :=
  List.replicate 10 .control ++ List.replicate 4 .worker ++ [.control]

/-- A sample is pushed, the worker pops it and finds the queue empty, and stop is
    called. -/
theorem stop_drains_single : ∃ (a σ : Drain (Fin 1) Unit) (r : ℕ × Queue.Item Unit)
    (x : Queue.Item Unit), a.processor.isRunning = true ∧ a.returned = [0] ∧
      a.queue.reserved[0]? = some r ∧ σ.queue.delivered[0]? = some x ∧ x.view = r.2.view := by
  have hrun : (((drainSystem (Fin 1) Unit (setSamplingInterval 1 1) fun _ => 0).exec Drains
      (.initial false) (startCall ++ pushCall ++ List.replicate 12 .worker)).any fun a =>
        decide (a.processor.isRunning = true ∧ a.returned = [0]) &&
        ((drainSystem (Fin 1) Unit (setSamplingInterval 1 1) fun _ => 0).next a .stop).any fun a' =>
          ((drainSystem (Fin 1) Unit (setSamplingInterval 1 1) fun _ => 0).exec Drains a'
            restOfStop).any fun σ => decide (σ.processor.control = .idle)) = true := by
    decide +kernel
  simp only [Option.any_eq_true, Bool.and_eq_true, decide_eq_true_eq] at hrun
  obtain ⟨a, ha, ⟨hrunning, hret⟩, a', hstop, σ, hσ, hidle⟩ := hrun
  obtain ⟨tr, hr, -⟩ := System.run_of_exec ha
  obtain ⟨tr', hr', -⟩ := System.run_of_exec hσ
  obtain ⟨r, x, h⟩ := stop_drains _ _ hr hrunning hstop hr' hidle 0 (by simp [hret])
  exact ⟨a, σ, r, x, hrunning, hret, h⟩

/-- The worker finds the queue empty, a sample is pushed, and stop is called before
    the worker loads `isRunning_`: nothing is recorded. -/
theorem exists_abandoned :
    ¬∀ (a a' σ : Drain (Fin 1) Unit) (tr tr' : List (Drain (Fin 1) Unit × DrainLabel (Fin 1) Unit)),
      (drainSystem (Fin 1) Unit (setSamplingInterval 1 1) fun _ => 0).Run System.anyStep
        (.initial false) tr a →
      a.processor.isRunning = true →
      (drainSystem (Fin 1) Unit (setSamplingInterval 1 1) fun _ => 0).next a .stop = some a' →
      (drainSystem (Fin 1) Unit (setSamplingInterval 1 1) fun _ => 0).Run System.anyStep a' tr' σ →
      σ.processor.control = .idle →
      ∀ k ∈ a.returned, ∃ r x, a.queue.reserved[k]? = some r ∧
        σ.queue.delivered[k]? = some x ∧ x.view = r.2.view := by
  intro hall
  have hrun : (((drainSystem (Fin 1) Unit (setSamplingInterval 1 1) fun _ => 0).exec System.anyStep
      (.initial false) (startCall ++ List.replicate 4 .worker ++ pushCall)).any fun a =>
        decide (a.processor.isRunning = true ∧ a.returned = [0]) &&
        ((drainSystem (Fin 1) Unit (setSamplingInterval 1 1) fun _ => 0).next a .stop).any fun a' =>
          ((drainSystem (Fin 1) Unit (setSamplingInterval 1 1) fun _ => 0).exec System.anyStep a'
            restOfStop).any fun σ => decide (σ.processor.control = .idle ∧
              σ.queue.delivered.length = 0)) = true := by
    decide +kernel
  simp only [Option.any_eq_true, Bool.and_eq_true, decide_eq_true_eq] at hrun
  obtain ⟨a, ha, ⟨hrunning, hret⟩, a', hstop, σ, hσ, hidle, hnone⟩ := hrun
  obtain ⟨tr, hr, -⟩ := System.run_of_exec ha
  obtain ⟨tr', hr', -⟩ := System.run_of_exec hσ
  obtain ⟨r, x, -, hx, -⟩ := hall a a' σ tr tr' hr hrunning hstop hr' hidle 0 (by simp [hret])
  simp [List.length_eq_zero_iff.1 hnone] at hx

end FkProf.Processor
