import FkProf.CircularQueue.Protocol

/-!
# The calls of `push` come to their end

`push` runs in the handler of a signal, where it may not wait. Its loop goes round again
only when another producer has reserved a slot since it read `input`, so that what a producer
still has to do (`Push.stepsLeft`) becomes smaller with each of its steps, and larger by three
at most with each reservation of another one (`stepsLeft_next`).

It reads `input` first and `output` afterwards, each with an access of its own, and returns
false when `output` is one slot ahead of `input`. That is so of a full queue; and of one
whose consumer has meanwhile popped all that was there, and one more, or a whole number of
laps more.

* `push_progress`: how many steps the calls of a producer take;
* `refused_iff`: when they return false.
-/

namespace FkProf.Queue

variable {Tid Bucket : Type*}

section Steps

/-- How many steps a call of `push` still takes with `input` as it is, if no other producer
    reserves a slot. A value of `input` that is out of date costs another round. -/
def Push.stepsLeft (input : ℕ) : Push Bucket → ℕ
  | .idle => 0
  | .loadInput _ => 5
  | .loadOutput _ currentInput => if currentInput = input then 4 else 7
  | .casInput _ currentInput => if currentInput = input then 3 else 6
  | .write .. => 2
  | .commit _ => 1

/-- The steps that a producer has left. -/
def State.stepsLeft (σ : State Tid Bucket) (t : Tid) : ℕ :=
  (σ.producers t).stepsLeft σ.queue.input

theorem Push.stepsLeft_le (pc : Push Bucket) (input input' : ℕ) :
    pc.stepsLeft input' ≤ pc.stepsLeft input + 3 := by
  cases pc <;> simp only [Push.stepsLeft]
  case loadOutput item c => split <;> split <;> omega
  case casInput item c => split <;> split <;> omega
  all_goals omega

variable [DecidableEq Tid]

/-- A step of a call of `push`. -/
def stepOf (t : Tid) (_ : State Tid Bucket) : Label Tid Bucket → Bool
  | .producer u => u = t
  | _ => false

/-- The beginning of a call of `push`. -/
def pushOf (t : Tid) (_ : State Tid Bucket) : Label Tid Bucket → Bool
  | .push u _ => u = t
  | _ => false

/-- The successful compare-and-swap of another producer. -/
def overtakes (t : Tid) (σ : State Tid Bucket) : Label Tid Bucket → Bool
  | .producer u =>
    match σ.producers u with
    | .casInput _ currentInput => u ≠ t && σ.queue.input = currentInput
    | _ => false
  | _ => false

/-- How many steps of a run are of a kind. -/
def count (p : State Tid Bucket → Label Tid Bucket → Bool)
    (tr : List (State Tid Bucket × Label Tid Bucket)) : ℕ :=
  tr.countP fun x => p x.1 x.2

omit [DecidableEq Tid] in
theorem count_snoc (p : State Tid Bucket → Label Tid Bucket → Bool)
    (tr : List (State Tid Bucket × Label Tid Bucket)) (σ : State Tid Bucket)
    (l : Label Tid Bucket) : count p (tr ++ [(σ, l)]) = count p tr + (p σ l).toNat := by
  simp only [count, List.countP_append, List.countP_singleton]
  cases p σ l <;> rfl

variable {σ σ' : State Tid Bucket} {t u : Tid}

theorem State.stepsLeft_setProducer_of_ne (pc : Push Bucket) (h : t ≠ u) :
    (σ.setProducer u pc).stepsLeft t = σ.stepsLeft t := by
  rw [State.stepsLeft, State.setProducer_of_ne pc h]
  rfl

/-- A step of the producer is one step fewer. -/
theorem stepsLeft_producerStep_self (hn : σ.producerStep t = some σ') :
    σ'.stepsLeft t + 1 ≤ σ.stepsLeft t := by
  cases hpc : σ.producers t <;>
    simp only [State.producerStep, hpc, Option.some.injEq, reduceCtorEq] at hn <;> subst hn <;>
    simp only [State.stepsLeft, State.setProducer, Function.update_self, hpc, Push.stepsLeft]
  case loadInput item => simp
  case loadOutput item c =>
    -- A full queue ends the call.
    by_cases hfull : σ.queue.output = advance c
    · simp only [if_pos hfull]
      split <;> omega
    · simp only [if_neg hfull]
      by_cases hc : c = σ.queue.input <;> simp [hc]
  case casInput item c =>
    by_cases hc : σ.queue.input = c
    · simp [hc]
    · simp [hc, Ne.symm hc]
  all_goals omega

/-- A step of another producer is none, unless it reserves a slot. -/
theorem stepsLeft_producerStep_of_ne (hn : σ.producerStep u = some σ') (h : u ≠ t) :
    σ'.stepsLeft t ≤ σ.stepsLeft t + 3 * (overtakes t σ (.producer u)).toNat := by
  cases hpc : σ.producers u <;>
    simp only [State.producerStep, hpc, Option.some.injEq, reduceCtorEq] at hn <;> subst hn
  case casInput item c =>
    by_cases hc : σ.queue.input = c
    · rw [if_pos hc]
      have hov : overtakes t σ (.producer u) = true := by simp [overtakes, hpc, h, hc]
      rw [hov]
      show ((σ.setProducer u _).producers t).stepsLeft _ ≤ _
      rw [State.setProducer_of_ne _ h.symm]
      exact Push.stepsLeft_le ..
    · rw [if_neg hc, State.stepsLeft_setProducer_of_ne _ h.symm]
      exact Nat.le_add_right ..
  all_goals
    refine le_trans (le_of_eq ?_) (Nat.le_add_right ..)
    exact State.stepsLeft_setProducer_of_ne _ h.symm

omit [DecidableEq Tid] in
/-- The consumer does not change what a producer has left. -/
theorem stepsLeft_consumerStep (hn : σ.consumerStep = some σ') :
    σ'.stepsLeft t = σ.stepsLeft t := by
  cases hco : σ.consumer <;>
    simp only [State.consumerStep, hco, Option.some.injEq, reduceCtorEq] at hn <;> subst hn
  case wait o => split <;> rfl
  all_goals rfl

/-- What a step does to what a producer has left. -/
theorem stepsLeft_next {l : Label Tid Bucket} (hn : (system Tid Bucket).next σ l = some σ') :
    (stepOf t σ l).toNat + σ'.stepsLeft t ≤
      σ.stepsLeft t + 5 * (pushOf t σ l).toNat + 3 * (overtakes t σ l).toNat := by
  cases l <;> simp only [system, State.next] at hn
  case push u item =>
    split at hn
    · cases hn
      by_cases h : u = t
      · subst h
        have hself : (σ.setProducer u (.loadInput item)).stepsLeft u = 5 := by
          rw [State.stepsLeft, State.setProducer_self]
          rfl
        simp only [stepOf, pushOf, hself, decide_true, Bool.toNat_false, Bool.toNat_true]
        omega
      · rw [State.stepsLeft_setProducer_of_ne _ (Ne.symm h)]
        simp [stepOf]
        omega
    · cases hn
  case producer u =>
    by_cases h : u = t
    · subst h
      have := stepsLeft_producerStep_self hn
      simp only [stepOf, decide_true, Bool.toNat_true]
      omega
    · have := stepsLeft_producerStep_of_ne hn h
      simp only [stepOf, h, decide_false, Bool.toNat_false]
      omega
  case pop =>
    split at hn
    · cases hn
      exact (Nat.zero_add _).le
    · cases hn
  case consumer =>
    rw [stepsLeft_consumerStep hn]
    exact (Nat.zero_add _).le

/-- In every run, from whatever state, the calls of a producer take no more steps than the
    one it is in has left, five for each new one and three for each reservation that another
    producer makes meanwhile. A call that goes on and on is one during which the others push
    again and again: whatever becomes of the other producers and of the consumer, stopped
    anywhere, the calls of `push` as a whole get on. -/
theorem push_progress {ok : State Tid Bucket → Label Tid Bucket → Prop}
    {tr : List (State Tid Bucket × Label Tid Bucket)}
    (hr : (system Tid Bucket).Run ok σ tr σ') (t : Tid) :
    count (stepOf t) tr + σ'.stepsLeft t ≤
      σ.stepsLeft t + 5 * count (pushOf t) tr + 3 * count (overtakes t) tr := by
  refine hr.traceInvariant (I := fun tr a => count (stepOf t) tr + a.stepsLeft t ≤
    σ.stepsLeft t + 5 * count (pushOf t) tr + 3 * count (overtakes t) tr)
    (fun tr a l b ih _ hn => ?_) (by simp [count])
  have := stepsLeft_next (t := t) hn
  simp only [count_snoc]
  omega

/-- One producer pushes an item between the reading of `input` by another one and its
    compare-and-swap. -/
def overtaken (t u : Tid) : List (Label Tid Unit) :=
  .push t ⟨⟨0, 0, fun _ => ⟨0, 0⟩⟩, none⟩ :: List.replicate 2 (.producer t) ++
    .push u ⟨⟨0, 0, fun _ => ⟨0, 0⟩⟩, none⟩ :: List.replicate 5 (.producer u) ++
    List.replicate 6 (.producer t)

theorem push_progress_overtaken : ∃ (tr : List (State (Fin 2) Unit × Label (Fin 2) Unit))
    (σ : State (Fin 2) Unit), tr.map Prod.snd = overtaken 0 1 ∧ σ.reserved.length = 2 ∧
      count (stepOf 0) tr + σ.stepsLeft 0 ≤ (State.initial : State (Fin 2) Unit).stepsLeft 0 +
        5 * count (pushOf 0) tr + 3 * count (overtakes 0) tr := by
  have hrun : (((system (Fin 2) Unit).exec System.anyStep State.initial (overtaken 0 1)).any
      fun σ => decide (σ.reserved.length = 2)) = true := by decide
  simp only [Option.any_eq_true, decide_eq_true_eq] at hrun
  obtain ⟨σ, hex, hlen⟩ := hrun
  obtain ⟨tr, hr, htr⟩ := System.run_of_exec hex
  exact ⟨tr, σ, htr, hlen, push_progress hr 0⟩

end Steps

/-! ## Refusals -/

section Refusals

variable {σ σ' : State Tid Bucket}

/-- The producer has read `input` in the state `a`, and made no access since. -/
def Loaded (tr : List (State Tid Bucket × Label Tid Bucket)) (t : Tid) (item : Item Bucket)
    (a : State Tid Bucket) : Prop :=
  ∃ tr₁ tr₂, tr = tr₁ ++ (a, .producer t) :: tr₂ ∧ a.producers t = .loadInput item ∧
    ∀ x ∈ tr₂, x.2 ≠ .producer t

theorem Loaded.snoc {tr : List (State Tid Bucket × Label Tid Bucket)} {t : Tid}
    {item : Item Bucket} {a : State Tid Bucket} (h : Loaded tr t item a) {l : Label Tid Bucket}
    (hl : l ≠ .producer t) : Loaded (tr ++ [(σ, l)]) t item a := by
  obtain ⟨tr₁, tr₂, rfl, ha, hall⟩ := h
  refine ⟨tr₁, tr₂ ++ [(σ, l)], by simp, ha, fun x hx => ?_⟩
  rcases List.mem_append.1 hx with hx | hx
  · exact hall x hx
  · rw [List.mem_singleton.1 hx]
    exact hl

/-- What a producer that is to read `output` has read: the value that `input` had in a
    state before, from which no pop has been undone. -/
def ReadInput (tr : List (State Tid Bucket × Label Tid Bucket)) (σ : State Tid Bucket)
    (t : Tid) : Push Bucket → Prop
  | .loadOutput item currentInput => ∃ a, Loaded tr t item a ∧ Inv a ∧
      a.queue.input = currentInput ∧ a.popped ≤ σ.popped
  | _ => True

variable [DecidableEq Tid]

/-- Nothing popped comes back. -/
theorem popped_mono {l : Label Tid Bucket} (hn : (system Tid Bucket).next σ l = some σ') :
    σ.popped ≤ σ'.popped := by
  cases l <;> simp only [system, State.next] at hn
  case push t item =>
    split at hn <;> cases hn
    exact le_rfl
  case producer t =>
    cases hpc : σ.producers t <;>
      simp only [State.producerStep, hpc, Option.some.injEq, reduceCtorEq] at hn <;> subst hn
    case casInput item c => split <;> exact le_rfl
    all_goals exact le_rfl
  case pop =>
    split at hn
    · rename_i hco
      cases hn
      simp [State.popped, hco, Pop.unfinished]
    · cases hn
  case consumer =>
    cases hco : σ.consumer <;>
      simp only [State.consumerStep, hco, Option.some.injEq, reduceCtorEq] at hn <;> subst hn
    case loadInput o => split <;> simp [State.popped, hco, Pop.unfinished]
    case wait o =>
      split
      · simp [State.popped, hco, Pop.unfinished]
      · exact le_rfl
    all_goals simp [State.popped, hco, Pop.unfinished]

/-- A producer that another thread's step leaves alone has read what it had. -/
theorem ReadInput.snoc {tr : List (State Tid Bucket × Label Tid Bucket)} {t : Tid}
    {pc : Push Bucket} (h : ReadInput tr σ t pc) {l : Label Tid Bucket}
    (hn : (system Tid Bucket).next σ l = some σ') (hl : l ≠ .producer t) :
    ReadInput (tr ++ [(σ, l)]) σ' t pc := by
  cases pc
  case loadOutput item c =>
    obtain ⟨a, ha, hinv, hc, hp⟩ := h
    exact ⟨a, ha.snoc hl, hinv, hc, hp.trans (popped_mono hn)⟩
  all_goals trivial

/-- A step of the producer itself: it reads `input`, or goes on past `output`. -/
theorem ReadInput.producerStep {tr : List (State Tid Bucket × Label Tid Bucket)} {t : Tid}
    (h : Inv σ) (hn : σ.producerStep t = some σ') :
    ReadInput (tr ++ [(σ, .producer t)]) σ' t (σ'.producers t) := by
  cases hpc : σ.producers t <;>
    simp only [State.producerStep, hpc, Option.some.injEq, reduceCtorEq] at hn <;> subst hn
  case loadInput item =>
    rw [State.setProducer_self]
    exact ⟨σ, ⟨tr, [], rfl, hpc, by simp⟩, h, rfl, le_rfl⟩
  case loadOutput item c =>
    rw [State.setProducer_self]
    split <;> trivial
  case casInput item c =>
    split
    · show ReadInput _ _ t ((σ.setProducer t (.write item c)).producers t)
      rw [State.setProducer_self]
      trivial
    · rw [State.setProducer_self]
      trivial
  case write item s =>
    show ReadInput _ _ t ((σ.setProducer t (.commit s)).producers t)
    rw [State.setProducer_self]
    trivial
  case commit s =>
    show ReadInput _ _ t ((σ.setProducer t .idle).producers t)
    rw [State.setProducer_self]
    trivial

/-- The others are where they were, or begin a call. -/
theorem producers_next {l : Label Tid Bucket} (hn : (system Tid Bucket).next σ l = some σ')
    {t : Tid} (hl : l ≠ .producer t) :
    σ'.producers t = σ.producers t ∨ ∃ item, σ'.producers t = .loadInput item := by
  cases l <;> simp only [system, State.next] at hn
  case push u item =>
    split at hn <;> cases hn
    by_cases hu : t = u
    · subst hu
      exact .inr ⟨item, State.setProducer_self _⟩
    · exact .inl (State.setProducer_of_ne _ hu)
  case producer u =>
    have hu : t ≠ u := fun he => hl (by rw [he])
    refine .inl ?_
    cases hpc : σ.producers u <;>
      simp only [State.producerStep, hpc, Option.some.injEq, reduceCtorEq] at hn <;> subst hn
    case casInput item c => split <;> exact State.setProducer_of_ne _ hu
    all_goals exact State.setProducer_of_ne _ hu
  case pop =>
    split at hn <;> cases hn
    exact .inl rfl
  case consumer =>
    refine .inl ?_
    cases hco : σ.consumer <;>
      simp only [State.consumerStep, hco, Option.some.injEq, reduceCtorEq] at hn <;> subst hn
    case wait o => split <;> rfl
    all_goals rfl

theorem readInput_of_run {tr : List (State Tid Bucket × Label Tid Bucket)}
    (hr : (system Tid Bucket).Run Fits State.initial tr σ) :
    Inv σ ∧ ∀ t, ReadInput tr σ t (σ.producers t) := by
  refine hr.traceInvariant (I := fun tr σ => Inv σ ∧ ∀ t, ReadInput tr σ t (σ.producers t))
    (fun tr a l b ⟨ha, h⟩ hl hn => ⟨ha.next hl hn, fun t => ?_⟩) ⟨.initial, fun t => trivial⟩
  by_cases ht : l = .producer t
  · subst ht
    exact .producerStep ha hn
  · obtain he | ⟨item, he⟩ := producers_next hn ht
    · rw [he]
      exact (h t).snoc hn ht
    · rw [he]
      trivial

/-- Two numbers of slots, the first one not far behind the second one, with the same slot. -/
theorem mod_capacity_eq_iff {m n : ℕ} (h : n ≤ m + Size) :
    m % Capacity = (n + 1) % Capacity ↔ m + Size = n ∨ ∃ k, m = n + 1 + k * Capacity := by
  simp only [Capacity, Size] at h ⊢
  constructor
  · intro he
    rcases Nat.lt_or_ge n m with hlt | hge
    · exact .inr ⟨(m - (n + 1)) / (1024 + 1), by omega⟩
    · exact .inl (by omega)
  · rintro (rfl | ⟨k, rfl⟩)
    · omega
    · exact Nat.add_mul_mod_self_right ..

/-- `push` has read `input`, in a run in which no compare-and-swap on it succeeds on a full
    queue, and reads `output`. It returns false if and only if

    * the queue was full, with `Size` items outstanding, when it read `input`, and nothing
      has been popped since; or
    * all that was reserved then has been popped, and one item more, or one and a
      whole number of laps. -/
theorem refused_iff {tr : List (State Tid Bucket × Label Tid Bucket)}
    (hr : (system Tid Bucket).Run Fits State.initial tr σ) {t : Tid} {item : Item Bucket}
    {currentInput : ℕ} (hpc : σ.producers t = .loadOutput item currentInput) :
    ∃ a, Loaded tr t item a ∧ ((∃ σ', (system Tid Bucket).next σ (.producer t) = some σ' ∧
      σ'.producers t = .idle) ↔
        (a.outstanding.length = Size ∧ σ.popped = a.popped) ∨
          ∃ k, σ.popped = a.reserved.length + 1 + k * Capacity) := by
  obtain ⟨h, hread⟩ := readInput_of_run hr
  have ht := hread t
  rw [hpc] at ht
  obtain ⟨a, hload, ha, hc, hp⟩ := ht
  refine ⟨a, hload, ?_⟩
  have hidle : (∃ σ', (system Tid Bucket).next σ (.producer t) = some σ' ∧
      σ'.producers t = .idle) ↔ σ.queue.output = advance currentInput := by
    simp only [system, State.next, State.producerStep, hpc, Option.some.injEq, exists_eq_left',
      State.setProducer_self]
    split <;> simp_all
  have hle := ha.le_size
  have hpop := ha.popped_le
  rw [hidle, ← hc, ha.input, advance_mod, h.output, mod_capacity_eq_iff (by omega)]
  refine or_congr_left ?_
  rw [State.outstanding, List.length_drop]
  omega

/-- A producer reads `input`, another one pushes an item, and it is popped: the queue is empty,
    and full for the first producer. -/
def poppedMeanwhile (t u : Tid) : List (Label Tid Unit) :=
  .push t ⟨⟨0, 0, fun _ => ⟨0, 0⟩⟩, none⟩ :: .producer t ::
    .push u ⟨⟨0, 0, fun _ => ⟨0, 0⟩⟩, none⟩ :: List.replicate 5 (.producer u) ++
    .pop :: List.replicate 7 .consumer

theorem refused_iff_empty : ∃ (tr : List (State (Fin 2) Unit × Label (Fin 2) Unit))
    (σ a : State (Fin 2) Unit) (item : Item Unit), tr.map Prod.snd = poppedMeanwhile 0 1 ∧
      σ.queue.output = σ.queue.input ∧ Loaded tr 0 item a ∧
      ((a.outstanding.length = Size ∧ σ.popped = a.popped) ∨
        ∃ k, σ.popped = a.reserved.length + 1 + k * Capacity) := by
  have hrun : (((system (Fin 2) Unit).exec Fits State.initial (poppedMeanwhile 0 1)).any fun σ =>
      decide (σ.queue.output = 1 ∧ σ.queue.input = 1) && match σ.producers 0 with
        | .loadOutput _ currentInput => currentInput = 0
        | _ => false) = true := by decide
  simp only [Option.any_eq_true, Bool.and_eq_true, decide_eq_true_eq] at hrun
  obtain ⟨σ, hex, ⟨ho, hi⟩, hpc⟩ := hrun
  obtain ⟨tr, hr, htr⟩ := System.run_of_exec hex
  split at hpc
  · rename_i item currentInput hpc'
    obtain rfl := of_decide_eq_true hpc
    obtain ⟨a, hload, hiff⟩ := refused_iff hr hpc'
    refine ⟨tr, σ, a, item, htr, ho.trans hi.symm, hload, hiff.1 ?_⟩
    refine ⟨σ.setProducer 0 .idle, ?_, State.setProducer_self _⟩
    simp [system, State.next, State.producerStep, hpc', ho, advance, Capacity, Size]
  · cases hpc

end Refusals

end FkProf.Queue
