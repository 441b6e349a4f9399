import FkProf.Foundations.SpinLock
import FkProf.Profiler

/-!
# Many callers of the profiler

`Profiler::start`, `Profiler::stop` and the setters are called on any thread, for example by
the controller and by the callbacks of the virtual machine; each of them holds `ongoingConf`
with a `SimpleSpinLockGuard<true>` (`profiler.h:38-53`) from its first line to its last one.
The handlers do not: their guard only loads the flag.

* `component`: the calls as the calls of a component, and the handlers as its environment;
* `single_run`: with one caller it is the profiler with its one control thread;
* `callers_serialized`: and with many callers under the lock it is the same one.
-/

namespace FkProf.Profiler

variable {C Tid : Type*}

/-- The control thread is in no call. -/
def Control.isIdle : Control → Bool
  | .idle => true
  | _ => false

/-- Where a thread is in its call. -/
abbrev Busy := {pc : Control // pc.isIdle = false}

/-- Where a call begins. -/
def Op.busy (op : Op) : Busy := ⟨op.entry, by cases op <;> rfl⟩

/-- Where a call goes on, if it does. -/
def Control.busy (pc : Control) : Option Busy :=
  if h : pc.isIdle = false then some ⟨pc, h⟩ else none

/-- Where the control thread is, for the caller. -/
def pcOf (p : Option Busy) : Control := p.elim .idle Subtype.val

theorem pcOf_busy (pc : Control) : pcOf pc.busy = pc := by
  cases pc <;> rfl

/-- The steps of the handlers. -/
inductive Event (Tid : Type*)
  | signal (t : Tid)
  | read (t : Tid)
  | noEnv (t : Tid) (gcActive : Bool)
  | trace (t : Tid) (numFrames : ℤ)
  | pushed (t : Tid)

def Event.label : Event Tid → Label Tid
  | .signal t => .signal t
  | .read t => .read t
  | .noEnv t gcActive => .noEnv t gcActive
  | .trace t numFrames => .trace t numFrames
  | .pushed t => .pushed t

/-- The profiler, and where its control thread is. -/
def State.at (σ : State Tid) (pc : Control) : State Tid := { σ with control := pc }

variable [DecidableEq Tid]

/-- The calls that hold `ongoingConf`, and the handlers, which do not. -/
def component : SpinLock.Component (State Tid) Busy Op (Event Tid) where
  entry := Op.busy
  step σ pc := (σ.at pc.1).controlStep.map fun σ' => (σ'.at .idle, σ'.control.busy)
  env σ e := σ.next e.label

/-! ## One caller -/

omit [DecidableEq Tid] in
theorem at_handlers (σ : State Tid) (pc : Control) : (σ.at pc).handlers = σ.handlers := rfl

/-- A handler does not see where the control thread is, and leaves it there. -/
theorem next_at (σ : State Tid) (pc : Control) (e : Event Tid) :
    (σ.at pc).next e.label = (σ.next e.label).map fun σ' => σ'.at pc := by
  cases e with
  | signal t =>
    by_cases h : σ.handled ∧ σ.handlers t = .idle
    · have hpc : (σ.at pc).handled ∧ (σ.at pc).handlers t = .idle := h
      simp only [Event.label, State.next, if_pos h, if_pos hpc]
      rfl
    · have hpc : ¬((σ.at pc).handled ∧ (σ.at pc).handlers t = .idle) := h
      simp only [Event.label, State.next, if_neg h, if_neg hpc]
      rfl
  | read t =>
    simp only [Event.label, State.next, State.readStep, at_handlers]
    cases σ.handlers t <;> rfl
  | noEnv t gcActive =>
    simp only [Event.label, State.next, at_handlers]
    cases σ.handlers t <;> rfl
  | trace t numFrames =>
    simp only [Event.label, State.next, at_handlers]
    cases σ.handlers t with
    | asked size depth =>
      dsimp only
      split_ifs <;> rfl
    | idle | entered | sized | traced | push => rfl
  | pushed t =>
    simp only [Event.label, State.next, at_handlers]
    cases σ.handlers t <;> rfl

/-- The profiler, as its control thread leaves it. -/
def shown (x : State Tid × Option Busy) : State Tid := x.1.at (pcOf x.2)

def labelOf : SpinLock.Act Op (Event Tid) → Label Tid
  | .call op => .call op
  | .step => .control
  | .env e => e.label

theorem single_next {x y : State Tid × Option Busy} {l : SpinLock.Act Op (Event Tid)}
    (hn : component.next x l = some y) : (shown x).next (labelOf l) = some (shown y) := by
  obtain ⟨σ, p⟩ := x
  cases l with
  | call op =>
    cases p with
    | none =>
      cases hn
      rfl
    | some pc => cases hn
  | step =>
    cases p with
    | none => cases hn
    | some pc =>
      obtain ⟨σ', hs, rfl⟩ := Option.map_eq_some_iff.1 hn
      show (σ.at pc.1).controlStep = some (σ'.at (pcOf σ'.control.busy))
      rw [pcOf_busy]
      exact hs
  | env e =>
    obtain ⟨σ', hs, rfl⟩ := Option.map_eq_some_iff.1 hn
    exact (next_at σ (pcOf p) e).trans (by rw [show σ.next e.label = some σ' from hs]; rfl)

/-- The run with one caller, whose calls are those of the control thread. -/
theorem single_run {x y : State Tid × Option Busy}
    {tr : List ((State Tid × Option Busy) × SpinLock.Act Op (Event Tid))}
    (hr : (SpinLock.single (component : SpinLock.Component (State Tid) Busy Op (Event Tid))).Run
      System.anyStep x tr y) :
    ∃ tr', (system Tid).Run System.anyStep (shown x) tr' (shown y) ∧
      tr'.map Prod.snd = (tr.map Prod.snd).map labelOf := by
  have hr' : True ∧ (system Tid).Run System.anyStep (shown x) _ (shown y) :=
    hr.simulation (I := fun _ => True) shown (fun _ l => some (labelOf l))
      (fun a l b _ _ hn => ⟨trivial, trivial, single_next hn⟩) trivial
  refine ⟨_, hr'.2, ?_⟩
  simp [List.filterMap_eq_map']

/-! ## Many callers -/

variable [DecidableEq C]

/-- What a step of the callers is to the control thread: its call begins when the compare-and-swap
    succeeds, and its steps are those of the thread that has the lock. -/
def labelAt (σ : SpinLock.State C (State Tid) Busy Op) (l : SpinLock.Label C Op (Event Tid)) :
    Option (Label Tid) :=
  (σ.act l).map labelOf

/-- Whatever threads call the profiler, and whenever: one at most is between the lines of a
    call, and what happens to the profiler and to the handlers is what happens when one control
    thread makes the calls one after another, in the order in which the flag was set. -/
theorem callers_serialized {σ₀ : State Tid} (h₀ : σ₀ ∈ (system Tid).init)
    {ok : SpinLock.State C (State Tid) Busy Op → SpinLock.Label C Op (Event Tid) → Prop}
    {tr : List (SpinLock.State C (State Tid) Busy Op × SpinLock.Label C Op (Event Tid))}
    {σ : SpinLock.State C (State Tid) Busy Op}
    (hr : (SpinLock.system C component).Run ok (.new σ₀) tr σ) :
    (∀ c c', (σ.callers c).Holds → (σ.callers c').Holds → c = c') ∧
      ∃ p tr', (system Tid).Run System.anyStep σ₀ tr' (σ.shared.at (pcOf p)) ∧
        tr'.map Prod.snd = tr.filterMap (fun x => labelAt x.1 x.2) ∧ σ.Shows p := by
  obtain ⟨hex, p, tr₁, hp, hr₁, htr₁⟩ := SpinLock.serialized hr
  obtain ⟨tr₂, hr₂, htr₂⟩ := single_run hr₁
  have hstart : shown ((σ₀, none) : State Tid × Option Busy) = σ₀ := by
    obtain ⟨isNull, intervalMin, intervalMax, maxFrames, rfl⟩ := h₀
    rfl
  rw [hstart] at hr₂
  refine ⟨hex.unique, p, tr₂, hr₂, ?_, hp⟩
  rw [htr₂, htr₁, List.map_filterMap]
  rfl

/-- One thread starts the profiler while another one wants to stop it: it stops it when the
    first one is done, and a handler has run in between. -/
theorem callers_serialized_two :
    ∃ (σ₀ : State (Fin 1)) (σ : SpinLock.State (Fin 2) (State (Fin 1)) Busy Op) (p : Option Busy)
      (tr' : List (State (Fin 1) × Label (Fin 1))),
      (system (Fin 1)).Run System.anyStep σ₀ tr' (σ.shared.at (pcOf p)) ∧ σ.locked = true ∧
        σ.shared.isRunning = false ∧ σ.shared.handled = true := by
  have hrun : ((SpinLock.system (Fin 2) component).exec System.anyStep
      (.new (State.new false 1 1 1 : State (Fin 1)))
      [.call 0 .start, .step 0, .call 1 .stop, .step 1, .step 0, .step 0, .fail 1, .step 0,
        .env (.signal 0), .step 0, .step 1, .step 1, .step 1]).any (fun σ =>
          σ.locked && !σ.shared.isRunning && σ.shared.handled) = true := by decide
  obtain ⟨tr, σ, hr, hσ⟩ := System.exists_run_of_exec hrun
  obtain ⟨-, p, tr', hr', -, -⟩ := callers_serialized ⟨false, 1, 1, 1, rfl⟩ hr
  simp only [Bool.and_eq_true, Bool.not_eq_true'] at hσ
  exact ⟨_, σ, p, tr', hr', hσ.1.1, hσ.1.2, hσ.2⟩

end FkProf.Profiler
