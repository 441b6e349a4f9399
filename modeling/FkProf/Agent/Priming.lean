import FkProf.ScopedPtr
import Mathlib.Data.List.Basic

/-!
# The classes that are primed

`AsyncGetCallTrace` needs the method ids of the classes that it finds: the agent asks the virtual
machine for the methods of every class, when the virtual machine has been initialised for those
that are loaded (`OnVMInit`, `agent.cpp:56-75`) and later for each class that is prepared
(`OnClassPrepare`, `:77-86`). It does not look at the answers (`CreateJMethodIDsForClass`,
`:40-54`), which the destructors deallocate.

After an error of `GetClassMethods` or of `GetLoadedClasses` the pointer is not abandoned. So the
destructor deallocates what the error has left in it.

* `CreateJMethodIDsForClass`, `OnVMInit`, `run`: the callbacks, with the memory;
* `leftovers`: what the errors have left in these pointers;
* `primed_memory`: the callbacks ask for every class, and do to the memory what the deallocation
  of the leftovers does.
-/

namespace FkProf.Agent.Priming

open ScopedPtr

/-- What the virtual machine allocates. -/
inductive Contents
  | string (s : List Char)
  | methods (ids : List ℕ)
  | classes (classes : List ℕ)

/-- The memory of the virtual machine. -/
abbrev Memory := Heap Contents

/-- The answers about a class. -/
structure ClassAnswers where
  methods : Answer (List ℕ)
  /-- The error, if there is one, is `JVMTI_ERROR_CLASS_NOT_PREPARED`. -/
  notPrepared : Bool
  signature : Answer (List Char)

/-- A callback, with the answers that it gets. -/
inductive Callback
  /-- `OnVMInit`, with the answers for each of the classes. -/
  | vmInit (classes : Answer (List ℕ)) (answers : ℕ → ClassAnswers)
  | classPrepare (klass : ℕ) (answers : ClassAnswers)

/-- What the callbacks do. -/
structure State where
  memory : Memory
  /-- The classes whose methods have been asked for. -/
  primed : List ℕ
  /-- How often the controller has been started. -/
  started : ℕ

/-! ## The code -/

section Code

/-- `Get`, of a string. -/
def readString (m : Memory) : Option ℕ → Except Stuck (List Char)
  | none => .error .invalid
  | some a => do
    match ← m.get a with
    | .string s => .ok s
    | _ => .error .invalid

/-- `classList[i]`. -/
def readClass (m : Memory) (classList : Option ℕ) (i : ℕ) : Except Stuck ℕ :=
  match classList with
  | none => .error .invalid
  | some a => do
    match ← m.get a with
    | .classes classes =>
      match classes[i]? with
      | none => .error .invalid
      | some klass => .ok klass
    | _ => .error .invalid

/-- `CreateJMethodIDsForClass`. The destructors run at each return, the last one first. -/
def CreateJMethodIDsForClass (m : Memory) (answers : ClassAnswers) : Except Stuck Memory := do
  let (m, methods, error) ← answers.methods.call .methods m
  if error && !answers.notPrepared then
    let (m, ksig, error) ← answers.signature.call .string m
    if error then
      let ksig := none
      let m ← deallocate m ksig
      deallocate m methods
    else
      -- The signature goes into the message.
      let _ ← readString m ksig
      let m ← deallocate m ksig
      deallocate m methods
  else deallocate m methods

/-- The loop of `OnVMInit`, from an index on, for so many more: the memory, and the classes whose
    methods have been asked for. -/
def primeFrom (m : Memory) (classList : Option ℕ) (answers : ℕ → ClassAnswers) (i : ℕ)
    (primed : List ℕ) : ℕ → Except Stuck (Memory × List ℕ)
  | 0 => .ok (m, primed)
  | n + 1 => do
    let klass ← readClass m classList i
    let m ← CreateJMethodIDsForClass m (answers i)
    primeFrom m classList answers (i + 1) (primed ++ [klass]) n

/-- `class_count`. -/
def classCount : Answer (List ℕ) → ℕ
  | .error _ => 0
  | .ok _ classes => classes.length

/-- `OnVMInit`; there is a controller if there are a host and a port. -/
def OnVMInit (hasController : Bool) (σ : State) (classes : Answer (List ℕ))
    (answers : ℕ → ClassAnswers) : Except Stuck State := do
  let (m, classList, error) ← classes.call .classes σ.memory
  if error then
    let m ← deallocate m classList
    .ok { σ with memory := m }
  else
    let (m, primed) ← primeFrom m classList answers 0 σ.primed (classCount classes)
    let m ← deallocate m classList
    .ok ⟨m, primed, σ.started + hasController.toNat⟩

/-- A callback. -/
def State.callback (hasController : Bool) (σ : State) : Callback → Except Stuck State
  | .vmInit classes answers => OnVMInit hasController σ classes answers
  | .classPrepare klass answers => do
    let m ← CreateJMethodIDsForClass σ.memory answers
    .ok { σ with memory := m, primed := σ.primed ++ [klass] }

/-- One callback after another. -/
def run (hasController : Bool) (σ : State) (callbacks : List Callback) : Except Stuck State :=
  callbacks.foldlM (State.callback hasController) σ

end Code

/-! ## Without the memory -/

/-- What an error leaves in the pointer. -/
def leftover {α : Type} : Answer α → Option ℕ
  | .error ref => ref
  | .ok .. => none

/-- What the errors of a callback leave in the pointers that are not abandoned. -/
def Callback.leftovers : Callback → List (Option ℕ)
  | .vmInit classes answers =>
    (List.range (classCount classes)).map (fun i => leftover (answers i).methods) ++
      [leftover classes]
  | .classPrepare _ answers => [leftover answers.methods]

/-- The classes that a callback is about. -/
def Callback.classes : Callback → List ℕ
  | .vmInit classes _ => classes.toOption.getD []
  | .classPrepare klass _ => [klass]

/-- The callback starts the controller: the classes were told without an error. -/
def Callback.starts : Callback → Bool
  | .vmInit classes _ => classes.toOption.isSome
  | .classPrepare .. => false

/-- What a callback does, if the memory is this one after it. -/
def State.after (hasController : Bool) (σ : State) (c : Callback) (m : Memory) : State :=
  ⟨m, σ.primed ++ c.classes, σ.started + (c.starts && hasController).toNat⟩

/-- The deallocation of some pointers. -/
def deallocateAll (m : Memory) (ps : List (Option ℕ)) : Except Stuck Memory :=
  ps.foldlM deallocate m

/-! ## What the callbacks do to the memory -/

section Balance

variable {m : Memory} {address : ℕ} {x : Contents}

theorem readString_ensures {s : List Char} (hs : m address = some (.string s)) :
    Ensures (readString m (some address)) (· = s) := by
  refine (Ensures.get (P := (· = .string s)) hs rfl).bind ?_
  rintro _ rfl
  exact Ensures.pure rfl

/-- Only what an error of `GetClassMethods` has left is deallocated in the end. -/
theorem CreateJMethodIDsForClass_agrees (m : Memory) (answers : ClassAnswers) :
    Agrees (CreateJMethodIDsForClass m answers) (deallocate m (leftover answers.methods)) := by
  obtain ⟨methods, notPrepared, signature⟩ := answers
  rw [CreateJMethodIDsForClass]
  cases methods with
  | ok address ids =>
    refine Agrees.of_ensures (call_ensures m address ids) ?_
    rintro _ ⟨hm, rfl⟩
    exact Agrees.of_ensures_eq (deallocate_ensures hm)
  | error ref =>
    cases notPrepared with
    | true => exact .refl _
    | false =>
      cases signature with
      | error ref' => exact .refl _
      | ok address s =>
        show Agrees (Answer.call Contents.string m (.ok address s) >>= _) (deallocate m ref)
        refine Agrees.of_ensures (call_ensures m address s) ?_
        rintro _ ⟨hm, rfl⟩
        refine Agrees.of_ensures (readString_ensures (Function.update_self ..)) ?_
        rintro _ -
        refine Agrees.of_ensures (deallocate_ensures hm) ?_
        rintro _ rfl
        exact .refl _

theorem readClass_update {classes : List ℕ} {i : ℕ} (hi : i < classes.length) :
    readClass (Function.update m address (some (.classes classes))) (some address) i =
      .ok classes[i] := by
  rw [readClass, Heap.get, Function.update_self]
  show (match classes[i]? with
    | none => Except.error Stuck.invalid
    | some klass => .ok klass) = _
  rw [List.getElem?_eq_getElem hi]

/-- What is left to be done after the loop. -/
def finish (address : ℕ) (r : Memory × List ℕ) : Except Stuck (Memory × List ℕ) := do
  let m ← deallocate r.1 (some address)
  .ok (m, r.2)

/-- Without the list of the classes the loop cannot go on, nor can it be deallocated. -/
theorem primeFrom_freed (hm : m address = none) (answers : ℕ → ClassAnswers) (i : ℕ)
    (primed : List ℕ) (n : ℕ) :
    primeFrom m (some address) answers i primed n >>= finish address = .error .invalid := by
  have hfree : m.free address = .error .invalid := by rw [Heap.free, hm]
  have hget : m.get address = .error .invalid := by rw [Heap.get, hm]
  cases n with
  | zero =>
    show (m.free address >>= _) = _
    rw [hfree]
    rfl
  | succ n =>
    rw [primeFrom, readClass, hget]
    rfl

/-- The loop and what comes after it: the list of the classes is there as long as it is needed,
    whatever is deallocated meanwhile, or something invalid is done. -/
theorem primeFrom_agrees (hm : m address = none) {classes : List ℕ} (answers : ℕ → ClassAnswers)
    {i n : ℕ} (hn : i + n = classes.length) (primed : List ℕ) :
    Agrees (primeFrom (Function.update m address (some (.classes classes))) (some address) answers i
        primed n >>= finish address)
      (deallocateAll m ((List.range' i n).map fun j => leftover (answers j).methods) >>= fun m =>
        .ok (m, primed ++ classes.drop i)) := by
  induction n generalizing m i primed with
  | zero =>
    have hdrop : classes.drop i = [] := List.drop_eq_nil_of_le (by omega)
    rw [hdrop, List.append_nil]
    refine Agrees.of_ensures_eq ((deallocate_ensures hm).bind ?_)
    rintro _ rfl
    exact Ensures.pure rfl
  | succ n ih =>
    have hi : i < classes.length := by omega
    rw [primeFrom, readClass_update hi, List.drop_eq_getElem_cons hi, List.range'_succ,
      List.append_cons primed]
    show Agrees ((CreateJMethodIDsForClass _ (answers i) >>= _) >>= _)
      ((deallocate m (leftover (answers i).methods) >>= fun m => deallocateAll m _) >>= _)
    rw [bind_assoc, bind_assoc]
    refine ((CreateJMethodIDsForClass_agrees _ (answers i)).bind fun m => .refl _).trans ?_
    cases hleft : leftover (answers i).methods with
    | none => exact ih hm (by omega) _
    | some b =>
      by_cases hb : b = address
      · -- The list itself has been deallocated.
        subst hb
        have hfree : m.free b = .error .invalid := by rw [Heap.free, hm]
        show Agrees (Heap.free _ b >>= _) (m.free b >>= _)
        rw [free_update hm, hfree]
        exact .inr (primeFrom_freed hm ..)
      · show Agrees (Heap.free _ b >>= _) (m.free b >>= _)
        rw [Heap.free, Heap.free, Function.update_of_ne hb]
        cases m b with
        | none => exact .refl _
        | some y =>
          dsimp only
          rw [Function.update_comm (Ne.symm hb)]
          exact ih ((Function.update_of_ne (Ne.symm hb) ..).trans hm) (by omega) _

theorem deallocateAll_append (m : Memory) (ps qs : List (Option ℕ)) :
    deallocateAll m (ps ++ qs) = deallocateAll m ps >>= fun m => deallocateAll m qs :=
  List.foldlM_append ..

variable {hasController : Bool} {σ : State}

theorem OnVMInit_agrees (σ : State) (classes : Answer (List ℕ)) (answers : ℕ → ClassAnswers) :
    Agrees (OnVMInit hasController σ classes answers)
      (deallocateAll σ.memory (Callback.vmInit classes answers).leftovers >>= fun m =>
        .ok (σ.after hasController (.vmInit classes answers) m)) := by
  cases classes with
  | error ref =>
    refine .inr ?_
    show deallocate σ.memory ref >>= _ = (deallocate σ.memory ref >>= _) >>= _
    rw [bind_assoc]
    refine congrArg _ (funext fun m => ?_)
    simp [State.after, Callback.classes, Callback.starts, Answer.toOption, pure_bind]
  | ok address classes =>
    have hleft : (Callback.vmInit (.ok address classes) answers).leftovers =
        (List.range' 0 classes.length).map (fun i => leftover (answers i).methods) ++ [none] := by
      rw [← List.range_eq_range']
      rfl
    refine Agrees.of_ensures (call_ensures σ.memory address classes) ?_
    rintro _ ⟨hm, rfl⟩
    have hloop := (primeFrom_agrees hm answers (Nat.zero_add classes.length) σ.primed).bind
      fun r => .refl (.ok (⟨r.1, r.2, σ.started + hasController.toNat⟩ : State))
    rw [bind_assoc, bind_assoc] at hloop
    rw [hleft, deallocateAll_append, bind_assoc]
    have hfinish : ∀ r, finish address r >>= (fun r => .ok (⟨r.1, r.2,
        σ.started + hasController.toNat⟩ : State)) = deallocate r.1 (some address) >>= fun m =>
          .ok ⟨m, r.2, σ.started + hasController.toNat⟩ := fun r => by
      rw [finish, bind_assoc]
      rfl
    simp only [hfinish] at hloop
    exact hloop

/-- A callback asks for its classes, and does to the memory what the deallocation of what the
    errors have left does. -/
theorem callback_agrees (σ : State) (c : Callback) :
    Agrees (σ.callback hasController c)
      (deallocateAll σ.memory c.leftovers >>= fun m => .ok (σ.after hasController c m)) := by
  cases c with
  | vmInit classes answers => exact OnVMInit_agrees ..
  | classPrepare klass answers =>
    show Agrees (CreateJMethodIDsForClass σ.memory answers >>= _)
      ((deallocate σ.memory (leftover answers.methods) >>= _) >>= _)
    rw [bind_assoc]
    exact (CreateJMethodIDsForClass_agrees ..).bind fun m => .refl _

/-- So do the callbacks, one after another. -/
theorem run_agrees (σ : State) (callbacks : List Callback) :
    Agrees (run hasController σ callbacks)
      (deallocateAll σ.memory (callbacks.flatMap Callback.leftovers) >>= fun m =>
        .ok ⟨m, σ.primed ++ callbacks.flatMap Callback.classes,
          σ.started + callbacks.countP fun c => c.starts && hasController⟩) := by
  induction callbacks generalizing σ with
  | nil =>
    refine .inr ?_
    show Except.ok σ = .ok ⟨σ.memory, σ.primed ++ [], σ.started⟩
    rw [List.append_nil]
  | cons c callbacks ih =>
    rw [List.flatMap_cons, deallocateAll_append, bind_assoc]
    refine ((callback_agrees σ c).bind fun σ => ih σ).trans (.inr ?_)
    rw [bind_assoc]
    refine congrArg _ (funext fun m => ?_)
    show deallocateAll m _ >>= _ = deallocateAll m _ >>= _
    refine congrArg _ (funext fun m' => ?_)
    rw [List.countP_cons, List.flatMap_cons, State.after, List.append_assoc, Nat.add_assoc,
      Nat.add_comm (Bool.toNat _)]
    cases c.starts && hasController <;> rfl

/-- What has been deallocated is not there any more. -/
theorem eq_none_of_deallocateAll {m' : Memory} {ps : List (Option ℕ)}
    (h : deallocateAll m ps = .ok m') :
    (∀ a, m a = none → m' a = none) ∧ ∀ a, some a ∈ ps → m a ≠ none ∧ m' a = none := by
  induction ps generalizing m with
  | nil =>
    cases h
    exact ⟨fun a => id, by simp⟩
  | cons p ps ih =>
    obtain ⟨m₁, h₁, h⟩ := exists_of_bind_eq_ok h
    obtain ⟨hgone, hps⟩ := ih h
    cases p with
    | none =>
      cases h₁
      exact ⟨hgone, fun a ha => hps a (by simpa using ha)⟩
    | some b =>
      obtain ⟨hb, rfl⟩ := Heap.free_eq_ok h₁
      have hgone' : ∀ a, m a = none → m' a = none := fun a ha => by
        refine hgone a ?_
        by_cases hab : a = b
        · rw [hab, Function.update_self]
        · rw [Function.update_of_ne hab, ha]
      refine ⟨hgone', fun a ha => ?_⟩
      rcases List.mem_cons.1 ha with he | ha
      · cases he
        exact ⟨hb, hgone _ (Function.update_self ..)⟩
      · obtain ⟨hne, hnone⟩ := hps a ha
        refine ⟨fun hma => hne ?_, hnone⟩
        by_cases hab : a = b
        · rw [hab, Function.update_self]
        · rw [Function.update_of_ne hab, hma]

/-- The memory is as it was exactly if there was nothing to be deallocated. -/
theorem deallocateAll_eq_iff {ps : List (Option ℕ)} :
    deallocateAll m ps = .ok m ↔ ∀ p ∈ ps, p = none := by
  constructor
  · intro h p hp
    cases p with
    | none => rfl
    | some a =>
      obtain ⟨hne, hnone⟩ := (eq_none_of_deallocateAll h).2 a hp
      exact absurd hnone hne
  · intro h
    induction ps with
    | nil => rfl
    | cons p ps ih =>
      obtain ⟨rfl, hps⟩ := List.forall_mem_cons.1 h
      exact ih hps

/-- Whatever callbacks there are, and whatever the virtual machine answers: they ask for the methods
    of every class that is loaded or prepared, and start the controller when they have been told the
    classes that are loaded; and what they do to the memory is what the deallocation of the pointers
    is that the errors have left. So the memory is as it was if these are null. If one is not, then
    it is something else that is deallocated, or nothing that is allocated. -/
theorem primed_memory (hasController : Bool) (m : Memory) (callbacks : List Callback) :
    Agrees (run hasController ⟨m, [], 0⟩ callbacks)
        (deallocateAll m (callbacks.flatMap Callback.leftovers) >>= fun m =>
          .ok ⟨m, callbacks.flatMap Callback.classes,
            callbacks.countP fun c => c.starts && hasController⟩) ∧
      (deallocateAll m (callbacks.flatMap Callback.leftovers) = .ok m ↔
        ∀ p ∈ callbacks.flatMap Callback.leftovers, p = none) := by
  have h := @run_agrees hasController ⟨m, [], 0⟩ callbacks
  simp only [List.nil_append, Nat.zero_add] at h
  exact ⟨h, deallocateAll_eq_iff⟩

end Balance

end FkProf.Agent.Priming
