import Mathlib.Algebra.BigOperators.Group.Finset.Basic
import Mathlib.Data.Multiset.Bind
import Mathlib.Data.Multiset.Filter

/-!
# Objects that own objects

The destructor of an object deletes what the object owns, and what that owns in its
turn. When every object is owned once, by another object or by the program, and what an
object owns is of a lower rank, then deleting what the program owns deletes every object
once: nothing is leaked, and nothing is deleted twice.

* `destroy`: deleting an object;
* `subtree`, `ownedBy`: what is deleted with it, and what objects own;
* `eq_of_owned`: who owns what determines which objects there are;
* `destroy_all`: everything is deleted once.
-/

namespace FkProf

variable {α : Type*}

/-- Deletes an object after what it owns, and returns the objects deleted so far, the last
    first. It fails when an object is deleted that has been deleted already, or when the fuel
    does not suffice. -/
def destroy [DecidableEq α] (owns : α → List α) : ℕ → List α → α → Option (List α)
  | 0, _, _ => none
  | n + 1, freed, x => ((owns x).foldlM (destroy owns n) freed).bind fun freed =>
      if x ∈ freed then none else some (x :: freed)

/-- What is deleted with an object. -/
def subtree (owns : α → List α) : ℕ → α → Multiset α
  | 0, _ => 0
  | n + 1, x => x ::ₘ ((owns x).map (subtree owns n)).sum

section

variable {owns : α → List α} {rank : α → ℕ} {n : ℕ} {x : α}

/-- What is owned by the objects. -/
abbrev ownedBy (owns : α → List α) (s : Multiset α) : Multiset α :=
  s.bind fun y => (owns y : Multiset α)

theorem sum_map_eq_add_ownedBy {f : α → Multiset α} {l : List α}
    (hf : ∀ y ∈ l, f y = y ::ₘ ownedBy owns (f y)) :
    (l.map f).sum = (l : Multiset α) + ownedBy owns (l.map f).sum := by
  induction l with
  | nil => rfl
  | cons y l ih =>
    rw [List.map_cons, List.sum_cons, ownedBy, Multiset.add_bind, ← Multiset.cons_coe]
    conv_lhs => rw [hf y List.mem_cons_self, ih fun z hz => hf z (List.mem_cons_of_mem _ hz)]
    rw [Multiset.cons_add, Multiset.cons_add]
    exact congrArg _ (add_left_comm ..)

/-- What is deleted with an object is the object, and what is owned by what is deleted. -/
theorem subtree_eq (hrank : ∀ x, ∀ y ∈ owns x, rank y < rank x) (hn : rank x < n) :
    subtree owns n x = x ::ₘ ownedBy owns (subtree owns n x) := by
  induction n generalizing x with
  | zero => exact absurd hn (Nat.not_lt_zero _)
  | succ n ih =>
    rw [subtree, ownedBy, Multiset.cons_bind]
    exact congrArg _ (sum_map_eq_add_ownedBy fun y hy =>
      ih ((hrank x y hy).trans_le (Nat.le_of_lt_succ hn)))

/-- What is deleted one after the other. -/
theorem exists_foldlM_eq_some {g : List α → α → Option (List α)} {f : α → Multiset α}
    {l freed : List α} (hg : ∀ y ∈ l, ∀ freed : List α, (↑freed + f y).Nodup →
      ∃ freed', g freed y = some freed' ∧ (freed' : Multiset α) = freed + f y)
    (hnd : (↑freed + (l.map f).sum).Nodup) :
    ∃ freed', l.foldlM g freed = some freed' ∧
      (freed' : Multiset α) = freed + (l.map f).sum := by
  induction l generalizing freed with
  | nil => exact ⟨freed, rfl, (add_zero _).symm⟩
  | cons y l ih =>
    rw [List.map_cons, List.sum_cons, ← add_assoc] at hnd
    obtain ⟨freed₁, he₁, h₁⟩ := hg y List.mem_cons_self freed
      (Multiset.nodup_of_le (Multiset.le_add_right _ _) hnd)
    obtain ⟨freed₂, he₂, h₂⟩ := @ih freed₁
      (fun z hz => hg z (List.mem_cons_of_mem _ hz)) (by rwa [h₁])
    refine ⟨freed₂, ?_, ?_⟩
    · rw [List.foldlM_cons, he₁]
      exact he₂
    · rw [h₂, h₁, List.map_cons, List.sum_cons, add_assoc]

variable [DecidableEq α]

/-- One object comes to own other objects. -/
theorem ownedBy_update {owns' : α → List α} {objects : Finset α} (hx : x ∈ objects)
    (h : ∀ y ∈ objects, y ≠ x → owns' y = owns y) :
    ownedBy owns' objects.val + owns x = ownedBy owns objects.val + owns' x := by
  have hrest : ownedBy owns' (objects.val.erase x) = ownedBy owns (objects.val.erase x) :=
    Multiset.bind_congr fun y hy => by
      rw [objects.nodup.mem_erase_iff] at hy
      rw [h y hy.2 hy.1]
  rw [← Multiset.cons_erase hx, ownedBy, ownedBy, Multiset.cons_bind, Multiset.cons_bind,
    ← ownedBy, ← ownedBy, hrest, add_right_comm, add_comm (owns' x : Multiset α)]
  exact add_right_comm ..

/-- An object is deleted with all that belongs to it, where that is not deleted yet. -/
theorem destroy_eq (hrank : ∀ x, ∀ y ∈ owns x, rank y < rank x) (hn : rank x < n)
    {freed : List α} (hnd : (↑freed + subtree owns n x).Nodup) :
    ∃ freed', destroy owns n freed x = some freed' ∧
      (freed' : Multiset α) = freed + subtree owns n x := by
  induction n generalizing x freed with
  | zero => exact absurd hn (Nat.not_lt_zero _)
  | succ n ih =>
    rw [subtree, Multiset.add_cons, Multiset.nodup_cons] at hnd
    obtain ⟨freed', he, h⟩ := exists_foldlM_eq_some (fun y hy freed =>
      ih ((hrank x y hy).trans_le (Nat.le_of_lt_succ hn))) hnd.2
    have hx : x ∉ freed' := by
      rw [← Multiset.mem_coe, h]
      exact hnd.1
    refine ⟨x :: freed', ?_, ?_⟩
    · rw [destroy, he, Option.bind_some, if_neg hx]
    · rw [subtree, Multiset.add_cons, ← h, Multiset.cons_coe]

omit [DecidableEq α] in
theorem exists_rank_lt (rank : α → ℕ) (s : Multiset α) : ∃ b, ∀ x ∈ s, rank x < b := by
  induction s using Multiset.induction with
  | empty => exact ⟨0, fun x hx => absurd hx (Multiset.notMem_zero x)⟩
  | cons y s ih =>
    obtain ⟨b, hb⟩ := ih
    refine ⟨max b (rank y + 1), fun x hx => ?_⟩
    rcases Multiset.mem_cons.1 hx with rfl | hx
    · exact (Nat.lt_succ_self _).trans_le (le_max_right _ _)
    · exact (hb x hx).trans_le (le_max_left _ _)

/-- Who owns what determines which objects there are. -/
theorem eq_of_owned (hrank : ∀ x, ∀ y ∈ owns x, rank y < rank x) {roots s s' : Multiset α}
    (hs : s = roots + ownedBy owns s) (hs' : s' = roots + ownedBy owns s') : s = s' := by
  obtain ⟨b, hb⟩ := exists_rank_lt rank (s + s')
  -- From the highest rank down: an object is owned by objects of a higher rank.
  have hcount : ∀ d x, b ≤ rank x + d → s.count x = s'.count x := by
    intro d
    induction d with
    | zero =>
      intro x hx
      have hnot : x ∉ s + s' := fun hm => absurd (hb x hm) (not_lt.2 hx)
      rw [Multiset.mem_add, not_or] at hnot
      rw [Multiset.count_eq_zero_of_notMem hnot.1, Multiset.count_eq_zero_of_notMem hnot.2]
    | succ d ih =>
      intro x hx
      have hsum : ∀ u : Multiset α, u ≤ s + s' → (ownedBy owns u).count x =
          ∑ y ∈ (s + s').toFinset, u.count y • (owns y : Multiset α).count x := fun u hu => by
        rw [ownedBy, Multiset.count_bind, Finset.sum_multiset_map_count]
        refine Finset.sum_subset (Multiset.toFinset_subset.2 (Multiset.subset_of_le hu))
          fun y _ hy => ?_
        rw [Multiset.count_eq_zero_of_notMem fun hm => hy (Multiset.mem_toFinset.2 hm), zero_nsmul]
      rw [hs, hs', Multiset.count_add, Multiset.count_add, hsum s (Multiset.le_add_right _ _),
        hsum s' (Multiset.le_add_left _ _)]
      refine congrArg _ (Finset.sum_congr rfl fun y _ => ?_)
      by_cases hy : x ∈ owns y
      · have := hrank y x hy
        rw [ih y (by omega)]
      · have hzero : (owns y : Multiset α).count x = 0 := Multiset.count_eq_zero_of_notMem hy
        rw [hzero, nsmul_zero, nsmul_zero]
  ext x
  exact hcount b x (Nat.le_add_left _ _)

/-- When every object is owned once, deleting what the program owns deletes every object once. -/
theorem destroy_all (hrank : ∀ x, ∀ y ∈ owns x, rank y < rank x) {objects : Finset α}
    {roots : List α} (h : objects.val = ↑roots + ownedBy owns objects.val) :
    ∃ n freed, roots.foldlM (destroy owns n) [] = some freed ∧
      (freed : Multiset α) = objects.val := by
  obtain ⟨b, hb⟩ := exists_rank_lt rank (roots : Multiset α)
  have hall : (roots.map (subtree owns b)).sum = objects.val :=
    eq_of_owned hrank (sum_map_eq_add_ownedBy fun y hy => subtree_eq hrank (hb y hy)) h
  have hnd : (((([] : List α) : Multiset α) + (roots.map (subtree owns b)).sum)).Nodup := by
    rw [hall, Multiset.coe_nil, zero_add]
    exact objects.nodup
  obtain ⟨freed, he, hf⟩ := exists_foldlM_eq_some
    (fun y hy freed => @destroy_eq _ _ _ _ _ _ hrank (hb y hy) freed) hnd
  exact ⟨b, freed, he, by rw [hf, hall, Multiset.coe_nil, zero_add]⟩

end

end FkProf
