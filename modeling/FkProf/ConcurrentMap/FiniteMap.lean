import FkProf.ConcurrentMap.Alone
import Mathlib.Data.Finmap

/-!
# A finite map

What the concurrent map is for: calls that do not overlap return what a finite map would,
through all migrations and their restarts.

* `Op.apply`: a call on a finite map;
* `Replays`: a history of such calls;
* `Shows`: the values of the keys are those of the finite map;
* `refines_finite_map`: every history without overlapping calls is one of a finite map.
-/

namespace FkProf.ConcurrentMap

variable {Tid Key : Type*}

/-- The values of the keys. -/
abbrev FiniteMap (Key : Type*) := Finmap fun _ : Key => Value

/-- Null for none. -/
def pointer : Option Value → ValueType
  | some v => v.ptr
  | none => mapValEmpty

section Apply

variable [DecidableEq Key]

/-- A call on a finite map: what it leaves, and what it returns. -/
def Op.apply (M : FiniteMap Key) : Op Key → FiniteMap Key × ValueType
  | put k v => (M.insert k v, pointer (M.lookup k))
  | get k => (M, pointer (M.lookup k))
  | remove k => (M.erase k, pointer (M.lookup k))

/-- The calls of a history, the last one first, return what they do on a finite map, which
    they leave. -/
inductive Replays : List (Op Key × ValueType) → FiniteMap Key → Prop
  | nil : Replays [] ∅
  | cons {hist : List (Op Key × ValueType)} {M : FiniteMap Key} (op : Op Key) :
      Replays hist M → Replays ((op, (op.apply M).2) :: hist) (op.apply M).1

/-- The last call of a history. -/
theorem Replays.last {hist : List (Op Key × ValueType)} {M' : FiniteMap Key} {op : Op Key}
    {r : ValueType} (h : Replays ((op, r) :: hist) M') :
    ∃ M, Replays hist M ∧ (op.apply M).1 = M' := by
  generalize he : (op, r) :: hist = l at h
  cases h with
  | nil => cases he
  | cons op' h =>
    cases he
    exact ⟨_, h, rfl⟩

/-- The history determines the map. -/
theorem Replays.unique {hist : List (Op Key × ValueType)} {M M' : FiniteMap Key}
    (h : Replays hist M) (h' : Replays hist M') : M = M' := by
  induction h generalizing M' with
  | nil =>
    cases h'
    rfl
  | cons op _ ih =>
    obtain ⟨M₁, h₁, rfl⟩ := h'.last
    rw [ih h₁]

variable (M : FiniteMap Key) (op : Op Key)

theorem Op.apply_snd : (op.apply M).2 = pointer (M.lookup op.key) := by
  cases op <;> rfl

theorem Op.apply_lookup_ne {k : Key} (hk : k ≠ op.key) :
    (op.apply M).1.lookup k = M.lookup k := by
  cases op with
  | put => exact Finmap.lookup_insert_of_ne _ hk
  | get => rfl
  | remove => exact Finmap.lookup_erase_ne hk

/-- What a call leaves for its key. -/
theorem Op.apply_lookup (hop : ∀ k, op ≠ .get k) :
    pointer ((op.apply M).1.lookup op.key) = op.value := by
  cases op with
  | put k v =>
    show pointer ((M.insert k v).lookup k) = v.ptr
    rw [Finmap.lookup_insert]
    rfl
  | get k => exact absurd rfl (hop k)
  | remove k =>
    show pointer ((M.erase k).lookup k) = _
    rw [Finmap.lookup_erase]
    rfl

/-- A call that finds nothing, and puts nothing, leaves nothing. -/
theorem Op.apply_lookup_none (hop : ∀ k v, op ≠ .put k v) (hM : M.lookup op.key = none) :
    (op.apply M).1.lookup op.key = none := by
  cases op with
  | put k v => exact absurd rfl (hop k v)
  | get k => exact hM
  | remove k => exact Finmap.lookup_erase k M

end Apply

instance : DecidablePred Proper := fun _ => inferInstanceAs (Decidable (_ ∧ _))

theorem pointer_eq_empty {x : Option Value} : pointer x = mapValEmpty ↔ x = none := by
  cases x with
  | none => exact iff_of_true rfl rfl
  | some v => exact iff_of_false v.ne_empty nofun

/-- The values of the keys are those of the finite map. -/
structure Shows [DecidableEq Key] (H : Hasher Key) (S : Shared Tid)
    (calls : Tid → Option (Call Key)) (M : FiniteMap Key) : Prop where
  key : ∀ k, Maps S calls (H.hash k) (pointer (M.lookup k))
  other : ∀ h, h ≠ mapHashEmpty → (∀ k, H.hash k ≠ h) → Maps S calls h mapValEmpty

section Steps

variable [DecidableEq Key] {H : Hasher Key} {signalSafeReaders : Bool} {S S' : Shared Tid}
  {c c' : Call Key} {t : Tid} {calls calls' : Tid → Option (Call Key)} {root : TableId}
  {M : FiniteMap Key} {op : Op Key} {r : ValueType} {i : ℕ}

theorem Shows.of_keep (h : Shows H S calls M)
    (hkeep : ∀ g, g ≠ mapHashEmpty → ∀ w, Maps S calls g w → Maps S' calls' g w) :
    Shows H S' calls' M where
  key k := hkeep _ (H.hash_ne k) _ (h.key k)
  other g hg hno := hkeep g hg _ (h.other g hg hno)

/-- The value of a key changes, and those of the others remain. -/
theorem Shows.apply (h : Shows H S calls M)
    (hkeep : ∀ g, g ≠ mapHashEmpty → g ≠ H.hash op.key → ∀ w, Maps S calls g w → Maps S' calls' g w)
    (hkey : Maps S' calls' (H.hash op.key) (pointer ((op.apply M).1.lookup op.key))) :
    Shows H S' calls' (op.apply M).1 where
  key k := by
    by_cases hk : k = op.key
    · rw [hk]
      exact hkey
    · rw [Op.apply_lookup_ne M op hk]
      exact hkeep _ (H.hash_ne k) (fun he => hk (H.injective he)) _ (h.key k)
  other g hg hno := hkeep g hg (hno op.key).symm _ (h.other g hg hno)

variable [Fintype Tid] [DecidableEq Tid]

/-- A step of a call either keeps all values, or ends the call. -/
theorem Shows.step_of_not_ret (h : Shows H S calls M)
    (hcustody : ∀ g, g ≠ mapHashEmpty → Custody S calls g) (hval : Values S calls)
    (hcells : Cells H S calls) (hco : Coordination S.outline (pcsOf calls)) (ht : calls t = some c)
    (hs : c.step H signalSafeReaders S t = some (S', c'))
    (hc : c.pc.client? = none ∨ ∀ r, c'.pc ≠ .ret r) :
    Shows H S' (Function.update calls t (some c')) M := by
  refine h.of_keep fun g hg w hw => ?_
  rcases (hcustody g hg).maps_step hval hcells hco ht hg hs with
    hkeep | ⟨k, old, -, hcl, -, -, hc'⟩
  · exact (hkeep w).2 hw
  · rcases hc with hc | hc
    · exact nomatch hc.symm.trans hcl
    · exact absurd (by rw [hc']; rfl) (hc old)

/-- A call that stores returns the value of its key, and leaves its own. -/
theorem Shows.step_store (h : Shows H S calls M)
    (hcustody : ∀ g, g ≠ mapHashEmpty → Custody S calls g) (hval : Values S calls)
    (hcells : Cells H S calls) (hco : Coordination S.outline (pcsOf calls)) (ht : calls t = some c)
    (hs : c.step H signalSafeReaders S t = some (S', c'))
    (hc : c.pc.client? = some (root, i, (S.tables root).value i)) :
    (S.tables root).value i = (c.op.apply M).2 ∧
      Shows H S' (Function.update calls t (some c')) (c.op.apply M).1 := by
  have hget : ∀ k, c.op ≠ .get k := fun k hop =>
    nomatch ((hcells.knows t c ht).not_client hop).symm.trans hc
  obtain ⟨hbefore, hafter⟩ :=
    (hcustody _ (H.hash_ne c.op.key)).maps_store hval hcells hco ht (H.hash_ne _) hs hc
  refine ⟨?_, h.apply (fun g hg hgk w hw => ?_) (by rwa [Op.apply_lookup M c.op hget])⟩
  · rw [Op.apply_snd]
    exact hbefore.unique (h.key c.op.key)
  · rcases (hcustody g hg).maps_step hval hcells hco ht hg hs with hkeep | ⟨_, _, hkey, -⟩
    · exact (hkeep w).2 hw
    · exact absurd hkey.symm hgk

end Steps

/-! ## Runs -/

section Runs

variable [Fintype Tid] [DecidableEq Tid] [DecidableEq Key] {H : Hasher Key}
  {signalSafeReaders : Bool} {σ σ' : State Tid Key} {l : Label Tid Key} {t : Tid} {c c' : Call Key}
  {S' : Shared Tid} {M : FiniteMap Key} {r : ValueType}

omit [DecidableEq Tid] in
/-- A search that finds no cell finds no value. -/
theorem Solo.lookup_eq_none (h : Solo H σ) (hM : Shows H σ.shared σ.calls M)
    (hc : σ.calls t = some c)
    (hpc : (∃ root i, c.pc = .find root i ∧ (σ.shared.tables root).hash i = mapHashEmpty) ∨
      ∃ root i, c.pc = .findNext root i ∧ Last (σ.shared.tables root) i) :
    M.lookup c.op.key = none ∧ ¬c.IsPut := by
  obtain ⟨hco, hcells, -⟩ := h.sound
  have hk := hcells.knows t c hc
  have hphase : c.pc.Phase σ.shared.outline := (h.lone t c hc).phase
  have hput : ¬c.IsPut := by
    rcases hpc with ⟨root, i, hpc, -⟩ | ⟨root, i, hpc, -⟩ <;> rw [Call.Knows, hpc] at hk <;>
      exact hk.1
  refine ⟨?_, hput⟩
  by_contra hne
  have halloc := (h.custody _ (H.hash_ne c.op.key)).allocated (hM.key c.op.key)
    (fun he => hne (pointer_eq_empty.1 he))
  have hputs : ∀ u d, σ.calls u = some d → H.hash d.op.key = H.hash c.op.key → ¬d.IsPut := by
    intro u d hd _
    obtain rfl := h.one u t d c hd hc
    cases hd.symm.trans hc
    exact hput
  have hsees : c.Sees σ.shared (H.hash c.op.key) := by
    intro root hroot
    rcases hpc with ⟨_, i, hpc, -⟩ | ⟨_, i, hpc, -⟩ <;> rw [hpc] at hroot hphase <;> cases hroot <;>
      exact hphase.1 ▸ halloc
  obtain ⟨habsent, hlast⟩ := hcells.not_absent hco (H.hash_ne _) hc hputs hsees
  rcases hpc with ⟨root, i, hpc, he⟩ | ⟨root, i, hpc, hl⟩
  · exact habsent root i hpc he
  · exact hlast root i hpc hl

/-- What a call comes to. -/
theorem Solo.answer (h : Solo H σ) (hM : Shows H σ.shared σ.calls M) (hc : σ.calls t = some c)
    (hs : c.step H signalSafeReaders σ.shared t = some (S', c')) (hr : c'.pc = .ret r) :
    r = (c.op.apply M).2 ∧ Shows H S' (Function.update σ.calls t (some c')) (c.op.apply M).1 := by
  obtain ⟨hco, hcells, hval⟩ := h.sound
  have hk := hcells.knows t c hc
  have haim := (h.lone t c hc).aim c rfl
  have hkeep : c.pc.client? = none → Shows H S' (Function.update σ.calls t (some c')) M := fun hn =>
    hM.step_of_not_ret h.custody hval hcells hco hc hs (.inl hn)
  have hnone : M.lookup c.op.key = none → ¬c.IsPut → c.pc.client? = none →
      mapValEmpty = (c.op.apply M).2 ∧
        Shows H S' (Function.update σ.calls t (some c')) (c.op.apply M).1 := by
    intro hlookup hput hn
    refine ⟨?_, (hkeep hn).apply (fun g _ _ w hw => hw) ?_⟩
    · rw [Op.apply_snd, hlookup]
      rfl
    · rw [Op.apply_lookup_none M c.op (fun k v he => hput ⟨k, v, he⟩) hlookup, ← hlookup]
      exact (hkeep hn).key c.op.key
  cases Call.step_ret hs hr with
  | store root i hcl => exact hM.step_store h.custody hval hcells hco hc hs hcl
  | read root i hpc hne =>
    have hok := hco.ok t c.pc (pcsOf_eq hc rfl)
    rw [hpc] at hok
    rw [Call.Knows, hpc] at hk
    obtain ⟨⟨k, hop⟩, -, hi⟩ := hk
    have hv := (h.custody _ (H.hash_ne c.op.key)).value_eq hval hcells hco (H.hash_ne _)
      (hM.key c.op.key) hok hi hne
    have hget : (c.op.apply M).1 = M := by rw [hop]; rfl
    rw [Op.apply_snd, hget]
    exact ⟨hv, hkeep (by rw [hpc]; rfl)⟩
  | absent root i hpc he =>
    obtain ⟨hlookup, hput⟩ := h.lookup_eq_none hM hc (.inl ⟨root, i, hpc, he⟩)
    exact hnone hlookup hput (by rw [hpc]; rfl)
  | last root i hpc hl =>
    obtain ⟨hlookup, hput⟩ := h.lookup_eq_none hM hc (.inr ⟨root, i, hpc, hl⟩)
    exact hnone hlookup hput (by rw [hpc]; rfl)
  | refused root p i old hpc hcas hne =>
    exact absurd (haim root i old (by rw [hpc, Pc.client?, hcas]; rfl)) hne
  | missed root i old hpc hne => exact absurd (haim root i old (by rw [hpc]; rfl)) hne

/-- The history is one of the finite map, and the values are those of it, with what the call
    in progress has done. -/
structure Agrees (H : Hasher Key) (σ : State Tid Key) (M : FiniteMap Key) : Prop where
  replays : Replays σ.history M
  idle : (∀ t, σ.calls t = none) → Shows H σ.shared σ.calls M
  busy : ∀ t c, σ.calls t = some c → (∀ r, c.pc ≠ .ret r) → Shows H σ.shared σ.calls M
  answered : ∀ t c r, σ.calls t = some c → c.pc = .ret r →
    r = (c.op.apply M).2 ∧ Shows H σ.shared σ.calls (c.op.apply M).1

theorem Agrees.next (h : Agrees H σ M) (hsolo : Solo H σ) (hl : Alone σ l)
    (hn : (provider Tid H signalSafeReaders).next σ l = some σ') : ∃ M', Agrees H σ' M' := by
  cases State.transition_of_next H signalSafeReaders hn with
  | call t op hc =>
    have hM : Shows H σ.shared (Function.update σ.calls t (some ⟨op, false, .loadCurrent⟩)) M := by
      refine (h.idle hl).of_keep fun g _ w hw => (maps_update (fun d hd => ?_) fun d hd => ?_).2 hw
      · exact nomatch hc.symm.trans hd
      · cases hd
        rfl
    refine ⟨M, h.replays, fun _ => hM, fun _ _ _ _ => hM, fun u d r hd hr => ?_⟩
    cases (eq_of_update (fun u _ => hl u) hd).2
    cases hr
  | ret t c result hc hret =>
    obtain ⟨rfl, hM⟩ := h.answered t c result hc hret
    have hnone : ∀ u d, Function.update σ.calls t none u ≠ some d := fun u d hd =>
      nomatch (eq_of_update (fun u hu => hsolo.alone hc hu) hd).2
    refine ⟨_, .cons c.op h.replays, fun _ => ?_, fun u d hd => absurd hd (hnone u d),
      fun u d r hd => absurd hd (hnone u d)⟩
    refine hM.of_keep fun g _ w hw => (maps_update (fun d hd => ?_) fun d hd => ?_).2 hw
    · cases hc.symm.trans hd
      rw [hret]
      rfl
    · cases hd
  | step t c c' S' hc hs =>
    obtain ⟨hco, hcells, hval⟩ := hsolo.sound
    have hM : Shows H σ.shared σ.calls M := h.busy t c hc fun r hr => by
      rw [Call.step, hr] at hs
      cases hs
    refine ⟨M, h.replays, fun hidle => ?_, fun u d hd hr => ?_, fun u d r hd hr => ?_⟩
    · have ht : Function.update σ.calls t (some c') t = none := hidle t
      rw [Function.update_self] at ht
      cases ht
    · obtain ⟨rfl, he⟩ := eq_of_update (fun u hu => hsolo.alone hc hu) hd
      cases he
      exact hM.step_of_not_ret hsolo.custody hval hcells hco hc hs (.inr hr)
    · obtain ⟨rfl, he⟩ := eq_of_update (fun u hu => hsolo.alone hc hu) hd
      cases he
      rw [Call.step_op hs]
      exact hsolo.answer hM hc hs hr

omit [Fintype Tid] [DecidableEq Tid] in
theorem Agrees.initial (n : BitVec 64) : Agrees H (State.new n : State Tid Key) ∅ := by
  have hM : Shows H (State.new n : State Tid Key).shared (State.new n : State Tid Key).calls ∅ :=
    ⟨fun k => maps_of_none (not_held_new n (H.hash_ne k)), fun g hg _ =>
      maps_of_none (not_held_new n hg)⟩
  exact ⟨.nil, fun _ => hM, fun _ _ hc => (nomatch hc), fun _ _ _ hc => nomatch hc⟩

omit [DecidableEq Tid] in
/-- The values in the table are those of the keys of the finite map. -/
theorem Shows.mem_hashes (hM : Shows H σ.shared σ.calls M) (h : Solo H σ)
    (hidle : ∀ t, σ.calls t = none) {g : HashType} :
    (∃ i < (σ.shared.tables σ.shared.latest).size,
      (σ.shared.tables σ.shared.latest).hash i = g ∧
        Proper ((σ.shared.tables σ.shared.latest).value i)) ↔ ∃ k ∈ M.keys, H.hash k = g := by
  obtain ⟨-, hcells, hval⟩ := h.sound
  constructor
  · rintro ⟨i, -, rfl, hp⟩
    have hne : (σ.shared.tables σ.shared.latest).hash i ≠ mapHashEmpty := fun he =>
      (hcells.free _ i he).elim hp.1 hp.2
    have hheld : Contents (Held σ.shared σ.calls ((σ.shared.tables σ.shared.latest).hash i))
        ((σ.shared.tables σ.shared.latest).value i) := ⟨.cell _ i, rfl, rfl, hp⟩
    by_cases hno : ∀ k, H.hash k ≠ (σ.shared.tables σ.shared.latest).hash i
    · exact absurd rfl ((hM.other _ hne hno _).1 hheld).2
    · obtain ⟨k, hk⟩ := not_forall_not.1 hno
      refine ⟨k, ?_, hk⟩
      rw [Finmap.mem_keys, ← Finmap.lookup_isSome]
      by_contra hnone
      rw [Bool.not_eq_true, Option.isSome_eq_false_iff, Option.isNone_iff_eq_none] at hnone
      have hnull := hM.key k
      rw [hnone, hk] at hnull
      exact ((hnull _).1 hheld).2 rfl
  · rintro ⟨k, hk, rfl⟩
    rw [Finmap.mem_keys, ← Finmap.lookup_isSome] at hk
    obtain ⟨v, hv⟩ := Option.isSome_iff_exists.1 hk
    have hmaps := hM.key k
    rw [hv] at hmaps
    obtain ⟨p, hp⟩ := (hmaps v.ptr).2 ⟨rfl, v.ne_empty⟩
    obtain ⟨i, rfl⟩ :=
      (h.custody _ (H.hash_ne k)).held_latest hval (h.idle hidle).phase hp
    exact ⟨i, hcells.lt _ i (by rw [hp.1]; exact H.hash_ne k), hp.1, hp.2.1 ▸ hp.2.2⟩

omit [DecidableEq Tid] in
theorem Shows.unsafeUsed_eq (hM : Shows H σ.shared σ.calls M) (h : Solo H σ)
    (hidle : ∀ t, σ.calls t = none) : σ.shared.unsafeUsed = M.keys.card := by
  have hcur : σ.shared.current = σ.shared.latest := h.sound.coordination.layout.current
  set T := σ.shared.tables σ.shared.latest with hT
  -- A hash has one cell, so that the cells are as many as the hashes.
  have hinj : ∀ i, Proper (T.value i) → ∀ j, T.hash i = T.hash j → i = j := fun i hp j he => by
    have hne : T.hash i ≠ mapHashEmpty := fun he =>
      (h.sound.cells.free _ i he).elim hp.1 hp.2
    exact (h.custody _ hne).unique _ i j rfl he.symm
  have hcard : σ.shared.unsafeUsed =
      ((Finset.range T.size).filter fun i => Proper (T.value i)).card := by
    rw [Shared.unsafeUsed, hcur]
    rfl
  rw [hcard, ← Finset.card_image_of_injOn (f := T.hash), ← Finset.card_map ⟨H.hash, H.injective⟩]
  · congr 1
    ext g
    simp only [Finset.mem_image, Finset.mem_filter, Finset.mem_range, Finset.mem_map,
      Function.Embedding.coeFn_mk]
    rw [← hM.mem_hashes h hidle]
    exact exists_congr fun i => by tauto
  · intro i hi j _ he
    exact hinj i (Finset.mem_filter.1 hi).2 j he

theorem agrees_of_run {n : BitVec 64} {tr : List (State Tid Key × Label Tid Key)}
    (hr : (provider Tid H signalSafeReaders).Run Alone (.new n) tr σ) :
    Solo H σ ∧ ∃ M, Agrees H σ M :=
  hr.invariant (I := fun σ => Solo H σ ∧ ∃ M, Agrees H σ M)
    (fun _ _ _ ⟨hs, _, h⟩ hl hn => ⟨hs.next hl hn, h.next hs hl hn⟩)
    ⟨.initial n, ∅, .initial n⟩

/-- In every run in which no calls overlap: a finite map that goes through the same calls
    returns the same results, and when no call is in progress, `unsafeUsed` is the number of
    its keys. -/
theorem refines_finite_map {n : BitVec 64} {tr : List (State Tid Key × Label Tid Key)}
    (hr : (provider Tid H signalSafeReaders).Run Alone (.new n) tr σ) :
    ∃ M, Replays σ.history M ∧
      ((∀ t, σ.calls t = none) → σ.shared.unsafeUsed = M.keys.card) := by
  obtain ⟨hs, M, h⟩ := agrees_of_run hr
  exact ⟨M, h.replays, fun hidle => (h.idle hidle).unsafeUsed_eq hs hidle⟩

end Runs

section Examples

/-- The last key starts two migrations, the first one to a table of the same size. Then one
    key is removed, and read. -/
theorem refines_finite_map_chain : ∃ (σ : State (Fin 11) (Fin 11)) (M : FiniteMap (Fin 11)),
    σ.shared.current = 2 ∧ σ.history.length = 13 ∧ Replays σ.history M ∧
      σ.shared.unsafeUsed = M.keys.card ∧ M.keys.card = 10 := by
  have hrun : ((State.new 0).exec chainHasher false Alone
      (fillReturns ++ callParts 10 (.put 10 oneValue) 46 ++
        [[.step 10], callSteps 3 (.remove 3) 5, callSteps 3 (.get 3) 4])).any (fun σ =>
          decide (σ.shared.current = 2 ∧ σ.history.length = 13 ∧ σ.shared.unsafeUsed = 10 ∧
            ∀ t, (σ.calls t).isNone)) = true := by decide +kernel
  obtain ⟨tr, σ, hr, hp⟩ := exists_run_of_parts hrun
  obtain ⟨hcur, hlen, hused, hnone⟩ := of_decide_eq_true hp
  obtain ⟨M, hM, hcard⟩ := refines_finite_map hr
  have hidle := hcard fun t => Option.isNone_iff_eq_none.1 (hnone t)
  exact ⟨σ, M, hcur, hlen, hM, hidle, hidle ▸ hused⟩

end Examples

end FkProf.ConcurrentMap
