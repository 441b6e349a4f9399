import FkProf.Foundations.System
import Mathlib.Data.Fintype.Basic

/-!
# The threads that are sampled

The callbacks of `agent.cpp` for the beginning and the end of a thread put it in the thread map
and remove it, and let it take `SIGPROF` in between: `OnThreadStart` unblocks the signal after
`put`, and `OnThreadEnd` blocks it before `remove`. But a thread begins with the signal mask of
the one that started it. So `OnNativeMethodBind` puts `JVM_StartThread_Interposer` in the place of
the native method of `Thread.start0`, which blocks the signal while it starts the thread.

The agent asks for these events where `GETENV_NEW_THREAD_ASYNC_UNSAFE` is defined.

The threads that the virtual machine makes by itself, and those started before the interposition,
begin with whatever mask it is. The threads of the processor and of the controller block the
signal for themselves (`callbackToRunProcessor`, `processor.cpp:56-68`, and `controllerRunnable`,
`controller.cpp:3-17`).

A step is one call: of `pthread_sigmask`, of the thread map, of the virtual machine. What a
thread's `GetThreadInfo` has said, and whether the interposer started it, is kept besides.

* `Inv`: what is so of a thread, wherever it is;
* `samples_registered`: in every interleaving, what bucket a sample finds.
-/

namespace FkProf.Agent.Signals

/-- Where a thread is: the next call it makes. -/
inductive Pc
  /-- There is no such thread, or not any more. -/
  | none
  -- `OnThreadStart`.
  | getThreadInfo
  | checkMain (name : List Char)
  | setMain (name : List Char)
  | startProfiler (name : List Char)
  | put (name : List Char)
  | unblock
  /-- It runs Java code. -/
  | run
  -- `JVM_StartThread_Interposer`.
  | block
  | startThread
  | unblockAfter
  -- `callbackToRunProcessor` or `controllerRunnable`.
  | blockSelf
  | agentThread
  -- `OnThreadEnd`.
  | blockEnd
  | remove
  deriving DecidableEq

/-- A thread. -/
structure Thread where
  pc : Pc
  /-- `SIGPROF` is in its signal mask. -/
  blocked : Bool
  /-- The interposer started it. -/
  interposed : Bool
  /-- What `GetThreadInfo` has said: a name, or an error. -/
  info : Option (Option (List Char))

/-- The threads and what they share. The thread map is given by the names in the buckets. -/
structure State (Tid : Type*) where
  threads : Tid → Thread
  threadMap : Tid → Option (List Char)
  actual_JVM_StartThread : Option ℕ
  main_started : Bool

/-- What the virtual machine says of a native method when it is bound; an error is none. -/
structure Binding where
  /-- The name and the signature. -/
  method : Option (List Char × List Char)
  /-- The simple name of the class. -/
  className : Option (List Char)
  address : ℕ

/-- What happens next. -/
inductive Label (Tid : Type*)
  /-- `OnNativeMethodBind`. -/
  | bind (b : Binding)
  /-- The virtual machine makes a thread. -/
  | appear (t : Tid) (blocked : Bool)
  /-- A thread calls the native method of `Thread.start0`. -/
  | start (t : Tid)
  /-- A thread starts another one. -/
  | create (t child : Tid)
  /-- `GetThreadInfo` returns. -/
  | threadInfo (t : Tid) (name : Option (List Char))
  /-- A thread makes its next call. -/
  | step (t : Tid)
  /-- The processor or the controller begins to run in a thread. -/
  | runAgent (t : Tid)
  /-- A thread ends. -/
  | finish (t : Tid)
  /-- A thread takes `SIGPROF`, and looks for its bucket. -/
  | sample (t : Tid)

def main : List Char := "main".toList
def start0 : List Char := "start0".toList
def noArguments : List Char := "()V".toList
def threadClass : List Char := "Thread".toList

/-! ## The code -/

section Code

variable {Tid : Type*}

/-- `OnNativeMethodBind`. -/
def OnNativeMethodBind (σ : State Tid) (b : Binding) : State Tid :=
  if σ.actual_JVM_StartThread ≠ none then σ
  else match b.method with
    | none => σ
    | some (name, signature) =>
      if name = start0 ∧ signature = noArguments then
        match b.className with
        | none => σ
        | some className =>
          if className = threadClass then { σ with actual_JVM_StartThread := some b.address }
          else σ
      else σ

variable [DecidableEq Tid]

/-- A thread changes. -/
def State.setThread (σ : State Tid) (t : Tid) (thread : Thread) : State Tid :=
  { σ with threads := Function.update σ.threads t thread }

/-- The bucket of a thread changes. -/
def State.setBucket (σ : State Tid) (t : Tid) (name : Option (List Char)) : State Tid :=
  { σ with threadMap := Function.update σ.threadMap t name }

/-- The next call of a thread; `startOption` is the option `start` of the agent. -/
def State.step (startOption : Bool) (σ : State Tid) (t : Tid) : Option (State Tid) :=
  let thread := σ.threads t
  match thread.pc with
  | .checkMain name =>
    some (σ.setThread t { thread with
      pc := if σ.main_started = false ∧ name = main then .setMain name else .put name })
  | .setMain name =>
    some (State.setThread { σ with main_started := true } t { thread with
      pc := if startOption then .startProfiler name else .put name })
  | .startProfiler name => some (σ.setThread t { thread with pc := .put name })
  | .put name => some ((σ.setThread t { thread with pc := .unblock }).setBucket t (some name))
  | .unblock => some (σ.setThread t { thread with pc := .run, blocked := false })
  | .block => some (σ.setThread t { thread with pc := .startThread, blocked := true })
  | .unblockAfter => some (σ.setThread t { thread with pc := .run, blocked := false })
  | .blockSelf => some (σ.setThread t { thread with pc := .agentThread, blocked := true })
  | .blockEnd => some (σ.setThread t { thread with pc := .remove, blocked := true })
  | .remove => some ((σ.setThread t { thread with pc := .none }).setBucket t none)
  | _ => none

/-- The next state. -/
def State.next (startOption : Bool) (σ : State Tid) : Label Tid → Option (State Tid)
  | .bind b => some (OnNativeMethodBind σ b)
  | .appear t blocked =>
    if (σ.threads t).pc = .none then
      some (σ.setThread t ⟨.getThreadInfo, blocked, false, none⟩)
    else none
  | .start t =>
    if (σ.threads t).pc = .run ∧ σ.actual_JVM_StartThread ≠ none then
      some (σ.setThread t { σ.threads t with pc := .block })
    else none
  | .create t child =>
    -- The new thread has the mask of the one that starts it.
    if (σ.threads child).pc ≠ .none then none
    else if (σ.threads t).pc = .startThread then
      some ((σ.setThread t { σ.threads t with pc := .unblockAfter }).setThread child
        ⟨.getThreadInfo, (σ.threads t).blocked, true, none⟩)
    else if (σ.threads t).pc = .run ∧ σ.actual_JVM_StartThread = none then
      some (σ.setThread child ⟨.getThreadInfo, (σ.threads t).blocked, false, none⟩)
    else none
  | .threadInfo t name =>
    if (σ.threads t).pc = .getThreadInfo then
      some (σ.setThread t { σ.threads t with
        pc := match name with
          | none => .unblock
          | some name => .checkMain name
        info := some name })
    else none
  | .step t => σ.step startOption t
  | .runAgent t =>
    if (σ.threads t).pc = .run then
      some (σ.setThread t { σ.threads t with pc := .blockSelf })
    else none
  | .finish t =>
    if (σ.threads t).pc = .run ∨ (σ.threads t).pc = .agentThread then
      some (σ.setThread t { σ.threads t with pc := .blockEnd })
    else none
  | .sample t =>
    if (σ.threads t).pc ≠ .none ∧ (σ.threads t).blocked = false then some σ else none

omit [DecidableEq Tid] in
/-- The agent has been loaded. -/
def State.initial : State Tid := ⟨fun _ => ⟨.none, false, false, none⟩, fun _ => none, none, false⟩

variable (Tid) in
/-- The threads as a transition system. -/
def system (startOption : Bool) : System (State Tid) (Label Tid) where
  init := {State.initial}
  next := State.next startOption

end Code

/-! ## What is so of a thread -/

/-- The thread is not in the thread map yet. -/
def Pc.starting : Pc → Bool
  | .getThreadInfo | .checkMain _ | .setMain _ | .startProfiler _ | .put _ => true
  | _ => false

/-- What is so of a thread with a bucket of that name. Before it is put in the map, the signal
    is blocked if the interposer started it; after that, its bucket has the name that
    `GetThreadInfo` has given, and there is none if it has given none. -/
def Thread.Ok (thread : Thread) (bucket : Option (List Char)) : Prop :=
  match thread.pc with
  | .none => bucket = none
  | .getThreadInfo => bucket = none ∧ (thread.interposed = true → thread.blocked = true)
  | .checkMain name | .setMain name | .startProfiler name | .put name =>
    bucket = none ∧ thread.info = some (some name) ∧
      (thread.interposed = true → thread.blocked = true)
  | .startThread | .agentThread | .remove => thread.info = some bucket ∧ thread.blocked = true
  | .unblock | .run | .block | .unblockAfter | .blockSelf | .blockEnd =>
    thread.info = some bucket

section Invariant

variable {Tid : Type*} {startOption : Bool} {σ σ' : State Tid} {t : Tid} {thread : Thread}

def Inv (σ : State Tid) : Prop := ∀ t, (σ.threads t).Ok (σ.threadMap t)

theorem Inv.initial : Inv (State.initial : State Tid) := fun _ => rfl

theorem OnNativeMethodBind_threads (σ : State Tid) (b : Binding) :
    (OnNativeMethodBind σ b).threads = σ.threads ∧
      (OnNativeMethodBind σ b).threadMap = σ.threadMap := by
  rw [OnNativeMethodBind]
  repeat' split
  all_goals exact ⟨rfl, rfl⟩

variable [DecidableEq Tid]

/-- A thread changes, and the bucket is right for it. -/
theorem Inv.setThread (h : Inv σ) (ht : thread.Ok (σ.threadMap t)) : Inv (σ.setThread t thread) := by
  intro u
  by_cases hu : u = t
  · subst hu
    simp only [State.setThread, Function.update_self]
    exact ht
  · simp only [State.setThread, Function.update_of_ne hu]
    exact h u

theorem Inv.setBucket {bucket : Option (List Char)} (h : Inv σ) (ht : thread.Ok bucket) :
    Inv ((σ.setThread t thread).setBucket t bucket) := by
  intro u
  by_cases hu : u = t
  · subst hu
    simp only [State.setBucket, State.setThread, Function.update_self]
    exact ht
  · simp only [State.setBucket, State.setThread, Function.update_of_ne hu]
    exact h u

/-- What is so of a thread that makes its next call. -/
theorem Inv.step (h : Inv σ) (hs : σ.step startOption t = some σ') : Inv σ' := by
  have ht := h t
  rw [Thread.Ok] at ht
  cases hpc : (σ.threads t).pc <;>
    simp only [State.step, hpc, Option.some.injEq, reduceCtorEq] at hs ht <;> subst hs
  case checkMain name =>
    refine h.setThread ?_
    split <;> exact ht
  case setMain name =>
    have h : Inv { σ with main_started := true } := h
    refine h.setThread ?_
    split <;> exact ht
  case startProfiler name => exact h.setThread ht
  case put name => exact h.setBucket ht.2.1
  case unblock => exact h.setThread ht
  case block => exact h.setThread ⟨ht, rfl⟩
  case unblockAfter => exact h.setThread ht
  case blockSelf => exact h.setThread ⟨ht, rfl⟩
  case blockEnd => exact h.setThread ⟨ht, rfl⟩
  case remove => exact h.setBucket rfl

/-- Every step keeps the invariant. -/
theorem Inv.next (h : Inv σ) {l : Label Tid}
    (hn : (system Tid startOption).next σ l = some σ') : Inv σ' := by
  cases l <;> simp only [system, State.next] at hn
  case bind b =>
    cases hn
    intro t
    rw [(OnNativeMethodBind_threads σ b).1, (OnNativeMethodBind_threads σ b).2]
    exact h t
  case appear t blocked =>
    split at hn <;> cases hn
    rename_i hpc
    have ht := h t
    rw [Thread.Ok, hpc] at ht
    exact h.setThread ⟨ht, by simp⟩
  case start t =>
    split at hn <;> cases hn
    rename_i hpc
    have ht := h t
    rw [Thread.Ok, hpc.1] at ht
    exact h.setThread ht
  case create t child =>
    have ht := h t
    have hchild := h child
    split at hn
    · cases hn
    · rename_i hnone
      rw [not_not] at hnone
      rw [Thread.Ok, hnone] at hchild
      split at hn
      · rename_i hpc
        rw [Thread.Ok, hpc] at ht
        cases hn
        have hafter : Inv (σ.setThread t { σ.threads t with pc := .unblockAfter }) :=
          h.setThread ht.1
        exact hafter.setThread ⟨hchild, fun _ => ht.2⟩
      · split at hn <;> cases hn
        exact h.setThread ⟨hchild, by simp⟩
  case threadInfo t name =>
    split at hn <;> cases hn
    rename_i hpc
    have ht := h t
    rw [Thread.Ok, hpc] at ht
    cases name with
    | none =>
      refine h.setThread ?_
      show some none = some (σ.threadMap t)
      rw [ht.1]
    | some name => exact h.setThread ⟨ht.1, rfl, ht.2⟩
  case step t => exact h.step hn
  case runAgent t =>
    split at hn <;> cases hn
    rename_i hpc
    have ht := h t
    rw [Thread.Ok, hpc] at ht
    exact h.setThread ht
  case finish t =>
    have ht := h t
    split at hn <;> cases hn
    rename_i hpc
    refine h.setThread ?_
    rcases hpc with hpc | hpc <;> rw [Thread.Ok, hpc] at ht
    · exact ht
    · exact ht.1
  case sample t =>
    split at hn <;> cases hn
    exact h

/-- So it is in every state of a run. -/
theorem inv_of_mem {tr : List (State Tid × Label Tid)}
    (hr : (system Tid startOption).Run System.anyStep σ tr σ') (h : Inv σ) :
    Inv σ' ∧ ∀ x ∈ tr, Inv x.1 := by
  refine hr.traceInvariant (I := fun tr σ => Inv σ ∧ ∀ x ∈ tr, Inv x.1)
    (fun tr a l b ⟨ha, hall⟩ _ hn => ⟨ha.next hn, fun x hx => ?_⟩) ⟨h, by simp⟩
  rcases List.mem_append.1 hx with hx | hx
  · exact hall x hx
  · rw [List.mem_singleton.1 hx]
    exact ha

/-- Whatever the threads do, one step after another of any of them: a sample is never taken of the
    thread of the processor or the controller while that runs, nor of one that is being removed;
    and the bucket that it finds is the one with the name that `GetThreadInfo` has given, or none
    if it has given none. Only a thread that the interposer has not started may be sampled before
    it is in the thread map; there is no bucket then. -/
theorem samples_registered {tr : List (State Tid × Label Tid)}
    (hr : (system Tid startOption).Run System.anyStep State.initial tr σ) {a : State Tid}
    (ha : (a, .sample t) ∈ tr) :
    (a.threads t).pc ≠ .agentThread ∧ (a.threads t).pc ≠ .remove ∧
      if (a.threads t).pc.starting then
        (a.threads t).interposed = false ∧ a.threadMap t = none
      else (a.threads t).info = some (a.threadMap t) := by
  have ht := (inv_of_mem hr .initial).2 _ ha t
  obtain ⟨-, b, hn⟩ := hr.mem_trace ha
  simp only [system, State.next] at hn
  split at hn
  · rename_i hsample
    obtain ⟨hpc, hblocked⟩ := hsample
    have hunblocked : ((a.threads t).interposed = true → (a.threads t).blocked = true) →
        (a.threads t).interposed = false := fun hi => by
      rw [hblocked] at hi
      simpa using hi
    rw [Thread.Ok] at ht
    cases he : (a.threads t).pc <;> simp only [he] at ht hpc
    case none => exact absurd rfl hpc
    case startThread | agentThread | remove =>
      rw [hblocked] at ht
      cases ht.2
    case getThreadInfo =>
      simp only [Pc.starting, if_true]
      exact ⟨Pc.noConfusion, Pc.noConfusion, hunblocked ht.2, ht.1⟩
    case checkMain | setMain | startProfiler | put =>
      simp only [Pc.starting, if_true]
      exact ⟨Pc.noConfusion, Pc.noConfusion, hunblocked ht.2.2, ht.1⟩
    all_goals
      simp only [Pc.starting, Bool.false_eq_true, if_false]
      exact ⟨Pc.noConfusion, Pc.noConfusion, ht⟩
  · cases hn

/-- The main thread starts a thread, after the interposition; both are registered. -/
def startedByMain {Tid : Type*} (t child : Tid) : List (Label Tid) :=
  [.appear t false, .threadInfo t (some main)] ++ List.replicate 5 (.step t) ++
    [.bind ⟨some (start0, noArguments), some threadClass, 7⟩, .start t, .step t, .create t child,
      .step t, .threadInfo child (some ['w'])] ++ List.replicate 3 (.step child)

theorem samples_registered_started : ∃ (tr : List (State (Fin 2) × Label (Fin 2)))
    (σ a : State (Fin 2)), (system (Fin 2) true).Run System.anyStep State.initial tr σ ∧
      (a, .sample 1) ∈ tr ∧ (a.threads 1).pc = .run ∧ (a.threads 1).interposed = true ∧
        if (a.threads 1).pc.starting then
          (a.threads 1).interposed = false ∧ a.threadMap 1 = none
        else (a.threads 1).info = some (a.threadMap 1) := by
  have hrun : (((system (Fin 2) true).exec System.anyStep State.initial (startedByMain 0 1)).any
      fun a => decide ((a.threads 1).pc = .run ∧ (a.threads 1).interposed = true ∧
        (a.threads 1).blocked = false)) = true := by decide
  simp only [Option.any_eq_true, decide_eq_true_eq] at hrun
  obtain ⟨a, hex, hpc, hi, hb⟩ := hrun
  obtain ⟨tr, hr, -⟩ := System.run_of_exec hex
  have hn : (system (Fin 2) true).next a (.sample 1) = some a := by
    show (if (a.threads 1).pc ≠ .none ∧ (a.threads 1).blocked = false then some a else none) = _
    rw [if_pos ⟨by rw [hpc]; exact Pc.noConfusion, hb⟩]
  have hr' := hr.snoc trivial hn
  have hmem : (a, Label.sample 1) ∈ tr ++ [(a, .sample 1)] := by simp
  exact ⟨_, a, a, hr', hmem, hpc, hi, (samples_registered hr' hmem).2.2⟩

end Invariant

end FkProf.Agent.Signals
