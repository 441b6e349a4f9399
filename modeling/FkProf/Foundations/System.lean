import Mathlib.Data.List.Basic
import Mathlib.Data.Set.Basic
import Mathlib.Order.WellFounded

/-!
# Transition systems

A *system* has initial states and, at each state, a next state for every label
that is enabled there: a label names who takes a step (a thread, a signal
handler, the environment), so that a list of labels is a schedule, and an
interleaving of the steps of several threads is a run (`System.Run`).

A run carries its *trace*, the states it leaves and the labels it takes, and a
condition `ok` that all its steps meet: the claims about runs in which some
step never happens are claims about the runs with `ok` excluding that step.

* `Run.invariant`: what holds initially and is preserved by every step holds
  at the end of a run;
* `Run.traceInvariant`: the same for a property of the trace and the state;
* `System.Since`: what has held at some state since the last label of a kind;
* `Run.simulation`: a run of one system as a run of another one;
* `System.exec`: the execution of a schedule, for concrete runs;
* `exists_exec_of_decreasing`: one label taken again and again comes to a goal, when every
  step before it makes a measure smaller;
* `System.execParts`: the same, with the state evaluated now and then.
-/

namespace FkProf

/-- A transition system with states `S`, driven by labels `L`. -/
structure System (S L : Type*) where
  /-- The initial states. -/
  init : Set S
  /-- The next state under a label, if the label is enabled. -/
  next : S → L → Option S

namespace System

variable {S L : Type*} (sys : System S L)

/-- A run from `s`, all of whose steps meet the condition `ok`, with its trace:
    the states it leaves and the labels it takes. -/
inductive Run (ok : S → L → Prop) (s : S) : List (S × L) → S → Prop
  | refl : Run ok s [] s
  | snoc {tr : List (S × L)} {s₁ s₂ : S} {l : L} :
      Run ok s tr s₁ → ok s₁ l → sys.next s₁ l = some s₂ → Run ok s (tr ++ [(s₁, l)]) s₂

/-- The condition met by every step. -/
def anyStep (_ : S) (_ : L) : Prop := True

instance (a : S) (l : L) : Decidable (anyStep a l) := inferInstanceAs (Decidable True)

variable {sys} {ok ok' : S → L → Prop} {s s₁ s₂ : S} {tr tr' : List (S × L)}

/-- A run meeting a condition meets a weaker one. -/
theorem Run.mono (h : sys.Run ok s tr s₁) (hok : ∀ a l, ok a l → ok' a l) :
    sys.Run ok' s tr s₁ := by
  induction h with
  | refl => exact .refl
  | snoc _ hl hn ih => exact ih.snoc (hok _ _ hl) hn

theorem Run.single {l : L} (hl : ok s l) (hn : sys.next s l = some s₁) :
    sys.Run ok s [(s, l)] s₁ :=
  Run.refl.snoc hl hn

/-- Runs compose. -/
theorem Run.trans (h : sys.Run ok s tr s₁) (h' : sys.Run ok s₁ tr' s₂) :
    sys.Run ok s (tr ++ tr') s₂ := by
  induction h' with
  | refl => rwa [List.append_nil]
  | snoc _ hl hn ih =>
    rw [← List.append_assoc]
    exact ih.snoc hl hn

/-- A property of states preserved by every step is preserved by a run. -/
theorem Run.invariant {I : S → Prop}
    (hstep : ∀ a l b, I a → ok a l → sys.next a l = some b → I b)
    (h : sys.Run ok s tr s₁) (hs : I s) : I s₁ := by
  induction h with
  | refl => exact hs
  | snoc _ hl hn ih => exact hstep _ _ _ ih hl hn

/-- A property of the trace so far and the state, preserved by every step. -/
theorem Run.traceInvariant {I : List (S × L) → S → Prop}
    (hstep : ∀ tr a l b, I tr a → ok a l → sys.next a l = some b → I (tr ++ [(a, l)]) b)
    (h : sys.Run ok s tr s₁) (hs : I [] s) : I tr s₁ := by
  induction h with
  | refl => exact hs
  | snoc _ hl hn ih => exact hstep _ _ _ _ ih hl hn

/-- Every step of the trace of a run was possible, and met the condition. -/
theorem Run.mem_trace (h : sys.Run ok s tr s₁) {a : S} {l : L} (ha : (a, l) ∈ tr) :
    ok a l ∧ ∃ b, sys.next a l = some b := by
  induction h with
  | refl => simp at ha
  | snoc _ hl hn ih =>
    rcases List.mem_append.1 ha with ha | ha
    · exact ih ha
    · obtain ⟨rfl, rfl⟩ := Prod.mk.inj (List.mem_singleton.1 ha)
      exact ⟨hl, _, hn⟩

/-! ## Simulations -/

/-- A run as a run of another system, if every step is a step of that system or changes nothing
    there. -/
theorem Run.simulation {S' L' : Type*} {sys' : System S' L'} {ok' : S' → L' → Prop}
    {I : S → Prop} (f : S → S') (g : S → L → Option L')
    (hstep : ∀ a l b, I a → ok a l → sys.next a l = some b → I b ∧
      match g a l with
      | none => f b = f a
      | some l' => ok' (f a) l' ∧ sys'.next (f a) l' = some (f b))
    (h : sys.Run ok s tr s₁) (hs : I s) : I s₁ ∧
      sys'.Run ok' (f s) (tr.filterMap fun x => (g x.1 x.2).map fun l' => (f x.1, l')) (f s₁) := by
  induction h with
  | refl => exact ⟨hs, .refl⟩
  | @snoc tr a b l _ hl hn ih =>
    obtain ⟨ha, hr⟩ := ih
    obtain ⟨hb, hsim⟩ := hstep a l b ha hl hn
    refine ⟨hb, ?_⟩
    rw [List.filterMap_append]
    cases hg : g a l with
    | none =>
      rw [hg] at hsim
      simp only [List.filterMap_cons, hg, Option.map_none, List.filterMap_nil, List.append_nil]
      rwa [hsim]
    | some l' =>
      rw [hg] at hsim
      simp only [List.filterMap_cons, hg, Option.map_some, List.filterMap_nil]
      exact hr.snoc hsim.1 hsim.2

/-! ## What has held -/

/-- The property holds, or has held at a state since the last label of a kind. -/
def Since (q : L → Prop) (P : S → Prop) (tr : List (S × L)) (s : S) : Prop :=
  P s ∨ ∃ tr₁ a l tr₂, tr = tr₁ ++ (a, l) :: tr₂ ∧ P a ∧ ¬q l ∧ ∀ x ∈ tr₂, ¬q x.2

section Since

variable {q : L → Prop} {P : S → Prop} {l : L}

theorem Since.snoc (h : Since q P tr s) (hl : ¬q l) : Since q P (tr ++ [(s, l)]) s₁ := by
  right
  rcases h with h | ⟨tr₁, a, l', tr₂, rfl, ha, hq, hall⟩
  · exact ⟨tr, s, l, [], rfl, h, hl, nofun⟩
  · refine ⟨tr₁, a, l', tr₂ ++ [(s, l)], by simp, ha, hq, fun x hx => ?_⟩
    rcases List.mem_append.1 hx with hx | hx
    · exact hall x hx
    · rw [List.mem_singleton.1 hx]
      exact hl

end Since

/-! ## Executions -/

variable (sys ok) [∀ a l, Decidable (ok a l)]

/-- The execution of a schedule from `s`, if every label of it is enabled in its
    turn and meets the condition. -/
def exec (s : S) : List L → Option S
  | [] => some s
  | l :: ls => if ok s l then (sys.next s l).bind fun s' => exec s' ls else none

variable {sys ok}

@[simp] theorem exec_nil : sys.exec ok s [] = some s := rfl

theorem exec_cons {l : L} {ls : List L} :
    sys.exec ok s (l :: ls) =
      if ok s l then (sys.next s l).bind fun s' => sys.exec ok s' ls else none := rfl

/-- An execution is a run, whose trace has the labels of the schedule. -/
theorem run_of_exec {ls : List L} (h : sys.exec ok s ls = some s₁) :
    ∃ tr, sys.Run ok s tr s₁ ∧ tr.map Prod.snd = ls := by
  induction ls generalizing s with
  | nil =>
    cases h
    exact ⟨[], .refl, rfl⟩
  | cons l ls ih =>
    rw [exec_cons] at h
    split at h
    · rename_i hl
      obtain ⟨s', hn, h⟩ := Option.bind_eq_some_iff.1 h
      obtain ⟨tr, hr, htr⟩ := ih h
      exact ⟨(s, l) :: tr, (Run.single hl hn).trans hr, by simp [htr]⟩
    · exact absurd h (by simp)

theorem exec_append {ls ls' : List L} :
    sys.exec ok s (ls ++ ls') = (sys.exec ok s ls).bind fun s' => sys.exec ok s' ls' := by
  induction ls generalizing s with
  | nil => rfl
  | cons l ls ih =>
    rw [List.cons_append, exec_cons, exec_cons]
    split
    · rw [Option.bind_assoc]
      exact congrArg _ (funext fun _ => ih)
    · rfl

/-- A measure becomes smaller with every step under the label, until the goal. -/
theorem exists_exec_of_decreasing {α : Type*} [Preorder α] [WellFoundedLT α] {I goal : S → Prop}
    {l : L} (μ : S → α) (hstep : ∀ a, I a → goal a ∨
      ∃ b, ok a l ∧ sys.next a l = some b ∧ I b ∧ μ b < μ a) (hs : I s) :
    ∃ n s', sys.exec ok s (List.replicate n l) = some s' ∧ I s' ∧ goal s' := by
  induction hm : μ s using WellFoundedLT.induction generalizing s with
  | ind m ih =>
    rcases hstep s hs with hg | ⟨b, hl, hn, hb, hlt⟩
    · exact ⟨0, s, rfl, hs, hg⟩
    · obtain ⟨n, s', he, hs', hg⟩ := ih (μ b) (hm ▸ hlt) hb rfl
      refine ⟨n + 1, s', ?_, hs', hg⟩
      rw [List.replicate_succ, exec_cons, if_pos hl, hn, Option.bind_some, he]

/-- An execution reaching a state where `p` holds gives a run to such a state. -/
theorem exists_run_of_exec {ls : List L} {p : S → Bool}
    (h : (sys.exec ok s ls).any p = true) : ∃ tr s₁, sys.Run ok s tr s₁ ∧ p s₁ = true := by
  cases he : sys.exec ok s ls with
  | none => simp [he] at h
  | some s₁ =>
    obtain ⟨tr, hr, _⟩ := run_of_exec he
    exact ⟨tr, s₁, hr, by simpa [he] using h⟩

variable (sys ok) in
/-- The execution of a schedule in parts, after each of which `strict` evaluates the state. -/
def execParts (strict : S → (S → Option S) → Option S) (s : S) : List (List L) → Option S
  | [] => some s
  | ls :: lss => (sys.exec ok s ls).bind fun s' => strict s' fun s' => execParts strict s' lss

theorem execParts_eq {strict : S → (S → Option S) → Option S} (hst : ∀ s k, strict s k = k s)
    {lss : List (List L)} : sys.execParts ok strict s lss = sys.exec ok s lss.flatten := by
  induction lss generalizing s with
  | nil => rfl
  | cons ls lss ih =>
    rw [List.flatten_cons, exec_append, execParts]
    refine congrArg _ (funext fun s' => ?_)
    rw [hst]
    exact ih

theorem exists_run_of_execParts {strict : S → (S → Option S) → Option S}
    (hst : ∀ s k, strict s k = k s) {lss : List (List L)} {p : S → Bool}
    (h : (sys.execParts ok strict s lss).any p = true) :
    ∃ tr s₁, sys.Run ok s tr s₁ ∧ p s₁ = true := by
  rw [execParts_eq hst] at h
  exact exists_run_of_exec h

end System

end FkProf
