import FkProf.ConcurrentMap.Alone

/-!
# A writer and a migration

A `put` or a `remove` reads the value of its key and exchanges it for its own. Between
the two, a migration may take the value out of the cell. The exchange of line 353 tells
this from the write of another client, and the call starts again. Those of lines 298 and
653 do not: the call pretends that its value was overwritten, and is lost.

* `Writing`: the only call that writes to its key;
* `Writing.next`: what it comes to, as long as no such exchange finds the value moved;
* `put_kept`, `remove_kept`: then it returns the value before, and leaves its own,
  whatever the migrations do;
* `exists_put_lost`, `exists_remove_lost`: runs in which an exchange finds the value moved.
-/

namespace FkProf.ConcurrentMap

variable {Tid Key : Type*}

/-- The cell of an exchange that does not tell a moved value from that of another client,
    lines 298 and 653. -/
def Pc.blind? : Pc → Option (TableId × ℕ)
  | .insert root (.updateCas i _) | .removeCas root i _ => some (root, i)
  | _ => none

/-- The steps that are no such exchange, for the key, of a value that has been moved. -/
def Catches (k : Key) (σ : State Tid Key) : Label Tid Key → Prop
  | .step t => ∀ c ∈ σ.calls t, c.op.key = k → ∀ x ∈ c.pc.blind?,
    (σ.shared.tables x.1).value x.2 ≠ mapValMove
  | .call .. => True

instance [DecidableEq Key] (k : Key) (σ : State Tid Key) (l : Label Tid Key) :
    Decidable (Catches k σ l) :=
  match l with
  | .step t => inferInstanceAs (Decidable (∀ c ∈ σ.calls t, c.op.key = k → ∀ x ∈ c.pc.blind?,
      (σ.shared.tables x.1).value x.2 ≠ mapValMove))
  | .call .. => .isTrue trivial

/-! ## What readers find -/

section Readers

variable [Fintype Tid] [DecidableEq Tid] {H : Hasher Key} {signalSafeReaders : Bool}
  {σ σ' : State Tid Key} {l : Label Tid Key} {t : Tid} {k : Key} {w : ValueType}

/-- The thread does not miss the value of the key. -/
def Finds (H : Hasher Key) (k : Key) (w : ValueType) (t : Tid) (σ : State Tid Key) : Prop :=
  ∀ c, σ.calls t = some c → c.op = .get k →
    (w ≠ mapValEmpty → c.Sees σ.shared (H.hash k)) ∧ ∀ r, c.pc = .ret r → r = w

theorem Finds.next (hf : Finds H k w t σ) (h : Reading H k w σ)
    (hn : (provider Tid H signalSafeReaders).next σ l = some σ') : Finds H k w t σ' := by
  intro d hd hop
  cases State.transition_of_next H signalSafeReaders hn with
  | call u op hc =>
    rcases ThreadSum.update_eq_some_iff.1 hd with ⟨-, he⟩ | ⟨-, hd⟩
    · cases he
      exact ⟨fun _ => nofun, nofun⟩
    · exact hf d hd hop
  | ret u c result hc hret =>
    rcases ThreadSum.update_eq_some_iff.1 hd with ⟨-, he⟩ | ⟨-, hd⟩
    · cases he
    · exact hf d hd hop
  | step u c c' S' hc hs =>
    obtain ⟨hco, hcells, hval⟩ := h.sound
    rcases ThreadSum.update_eq_some_iff.1 hd with ⟨rfl, he⟩ | ⟨-, hd⟩
    · cases he
      rw [Call.step_op hs] at hop
      obtain ⟨hsees, -⟩ := hf c hc hop
      exact ⟨fun hw => h.custody.sees_self hco h.maps hw hs (hsees hw), fun r hr =>
        h.answer hc hop hsees (Call.step_ret hs hr)⟩
    · obtain ⟨hsees, hret⟩ := hf d hd hop
      exact ⟨fun hw => hcells.sees_step hco hc hs (H.hash_ne k) hd (hsees hw), hret⟩

/-- Every `get` of the key that begins from now on returns the value, and where no migration
    has started, a reader that walks alone finds it, as long as nobody writes to the key. -/
structure Keeps (H : Hasher Key) (signalSafeReaders : Bool) (k : Key) (w : ValueType)
    (σ : State Tid Key) : Prop where
  get : ∀ {tr₁ tr₂ : List (State Tid Key × Label Tid Key)} {σ₁ σ₂ : State Tid Key} {t : Tid}
    {b : Bool} {r : ValueType},
    (provider Tid H signalSafeReaders).Run
      (fun σ l => Orderly H (· = H.hash k) σ l ∧ Leaves k l) σ tr₁ σ₁ → σ₁.calls t = none →
    (provider Tid H signalSafeReaders).Run
      (fun σ l => Orderly H (· = H.hash k) σ l ∧ Leaves k l) σ₁ tr₂ σ₂ →
    σ₂.calls t = some ⟨.get k, b, .ret r⟩ → r = w
  lookup : ∀ {tr : List (State Tid Key × Label Tid Key)} {σ₁ : State Tid Key} {x : ValueType},
    (provider Tid H signalSafeReaders).Run
      (fun σ l => Orderly H (· = H.hash k) σ l ∧ Leaves k l) σ tr σ₁ →
    (σ₁.shared.tables σ₁.shared.current).coordinator = .null →
    (σ₁.shared.tables σ₁.shared.current).Lookup (H.hash k) x → x = w

theorem Reading.keeps (h : Reading H k w σ) : Keeps H signalSafeReaders k w σ := by
  have hrun : ∀ {tr σ₁}, (provider Tid H signalSafeReaders).Run
      (fun σ l => Orderly H (· = H.hash k) σ l ∧ Leaves k l) σ tr σ₁ → Reading H k w σ₁ :=
    fun hr => hr.invariant (fun _ _ _ h ho hn => h.next ho.1 ho.2 hn) h
  constructor
  · intro _ _ σ₁ σ₂ t b r h₁ ht h₂ hr
    have hfinds : Reading H k w σ₂ ∧ Finds H k w t σ₂ :=
      h₂.invariant (I := fun σ => Reading H k w σ ∧ Finds H k w t σ)
        (fun _ _ _ hI ho hn => ⟨hI.1.next ho.1 ho.2 hn, hI.2.next hI.1 hn⟩)
        ⟨hrun h₁, fun c hc => nomatch ht.symm.trans hc⟩
    exact (hfinds.2 _ hr rfl).2 r rfl
  · intro _ σ₁ x hr hnull hx
    obtain ⟨⟨hco, hcells, hval⟩, hC, hm, hleave⟩ := hrun hr
    have hcur : σ₁.shared.current = σ₁.shared.latest := hco.layout.current
    rw [hcur] at hnull hx
    refine (hC.maps_of_lookup hval hcells hco (H.hash_ne k) hnull ?_ hx).unique hm
    rintro u d hd he ⟨k', v, hput⟩
    have hget := hleave u d hd (H.injective he)
    rw [hput] at hget
    cases hget

end Readers

/-! ## The only writer of a key -/

section Writers

variable [Fintype Tid] [DecidableEq Tid] {H : Hasher Key} {signalSafeReaders : Bool}
  {σ σ' : State Tid Key} {l : Label Tid Key} {t : Tid} {op : Op Key} {w r : ValueType}
  {c c' : Call Key} {S S' : Shared Tid} {calls : Tid → Option (Call Key)}

/-- The call has yet to store its value, and will find the one before. -/
structure Pending (S : Shared Tid) (calls : Tid → Option (Call Key)) (h : HashType) (w : ValueType)
    (c : Call Key) : Prop where
  maps : Maps S calls h w
  unreturned : ∀ r, c.pc ≠ .ret r
  aim : ∀ T i x, c.pc.client? = some (T, i, x) → x = w
  sees : w ≠ mapValEmpty → c.Sees S h

/-- A call that writes to its key, which nobody else does. -/
structure Writing (H : Hasher Key) (op : Op Key) (w : ValueType) (t : Tid) (σ : State Tid Key) :
    Prop where
  sound : Sound H σ
  custody : Custody σ.shared σ.calls (H.hash op.key)
  leave : ∀ u ≠ t, ∀ c, σ.calls u = some c → c.op.key = op.key → c.op = .get op.key
  stage : ∃ c, σ.calls t = some c ∧ c.op = op ∧
    (Pending σ.shared σ.calls (H.hash op.key) w c ∨
      c.pc = .ret w ∧ Maps σ.shared σ.calls (H.hash op.key) op.value)

omit [DecidableEq Tid] in
/-- The exchange of a pending call finds the value. -/
theorem Pending.not_missed {h : HashType} (hp : Pending S calls h w c) (hC : Custody S calls h)
    (hcells : Cells H S calls) (hval : Values S calls) (hco : Coordination S.outline (pcsOf calls))
    (ht : calls t = some c) (hkey : H.hash c.op.key = h) {root : TableId} {i : ℕ} {old : ValueType}
    (hc : c.pc.client? = some (root, i, old)) (hne : (S.tables root).value i ≠ mapValMove) :
    (S.tables root).value i = old := by
  subst hkey
  obtain ⟨hpub, -, hi, -⟩ := hcells.client hco ht hc
  rw [hp.aim root i old hc]
  exact hC.value_eq hval hcells hco (H.hash_ne _) hp.maps hpub hi hne

/-- What a pending call comes to. -/
theorem Writing.answer (hw : Writing H op w t σ) (hget : ∀ k, op ≠ .get k)
    (hcatch : Catches op.key σ (.step t)) (hc : σ.calls t = some c) (hop : c.op = op)
    (hp : Pending σ.shared σ.calls (H.hash op.key) w c)
    (hs : c.step H signalSafeReaders σ.shared t = some (S', c')) (hr : c'.pc = .ret r) :
    r = w ∧ Maps S' (Function.update σ.calls t (some c')) (H.hash op.key) op.value := by
  subst hop
  obtain ⟨hco, hcells, hval⟩ := hw.sound
  have hk := hcells.knows t c hc
  have hcl : ∀ {root i old}, c.pc.client? = some (root, i, old) →
      (σ.shared.tables root).value i ≠ mapValMove → (σ.shared.tables root).value i = old :=
    hp.not_missed hw.custody hcells hval hco hc rfl
  have hcatch := hcatch c hc rfl
  -- A remove that finds nothing leaves nothing.
  have hnone : ¬c.IsPut → c.pc.client? = none → (w ≠ mapValEmpty → False) →
      mapValEmpty = w ∧
        Maps S' (Function.update σ.calls t (some c')) (H.hash c.op.key) c.op.value := by
    intro hput hn hw₀
    obtain rfl : w = mapValEmpty := by
      by_contra hne
      exact hw₀ hne
    have hv : c.op.value = mapValEmpty := by
      cases hop : c.op with
      | put k v => exact absurd ⟨k, v, hop⟩ hput
      | get k => rfl
      | remove k => rfl
    refine ⟨rfl, ?_⟩
    rw [hv]
    rcases hw.custody.maps_step hval hcells hco hc (H.hash_ne _) hs with
      hkeep | ⟨_, _, -, hcl, -⟩
    · exact (hkeep _).2 hp.maps
    · exact nomatch hn.symm.trans hcl
  have habsent : ¬c.IsPut → c.Sees σ.shared (H.hash c.op.key) →
      (∀ root i, c.pc = .find root i → (σ.shared.tables root).hash i ≠ mapHashEmpty) ∧
        ∀ root i, c.pc = .findNext root i → ¬Last (σ.shared.tables root) i := by
    intro hput hsees
    refine hcells.not_absent hco (H.hash_ne _) hc (fun u d hd he hdput => ?_) hsees
    by_cases hu : u = t
    · subst hu
      cases hc.symm.trans hd
      exact hput hdput
    · obtain ⟨k, v, hd'⟩ := hdput
      exact nomatch hd'.symm.trans (hw.leave u hu d hd (H.injective he))
  cases Call.step_ret hs hr with
  | store root i hcl =>
    have hstore := hw.custody.maps_store hval hcells hco hc (H.hash_ne _) hs hcl
    exact ⟨hp.aim root i _ hcl, hstore.2⟩
  | read root i hpc =>
    rw [Call.Knows, hpc] at hk
    obtain ⟨⟨k, hop⟩, -⟩ := hk
    exact absurd hop (hget k)
  | absent root i hpc he =>
    rw [Call.Knows, hpc] at hk
    exact hnone hk.1 (by rw [hpc]; rfl) fun hw₀ =>
      (habsent hk.1 (hp.sees hw₀)).1 root i hpc he
  | last root i hpc hl =>
    rw [Call.Knows, hpc] at hk
    exact hnone hk.1 (by rw [hpc]; rfl) fun hw₀ =>
      (habsent hk.1 (hp.sees hw₀)).2 root i hpc hl
  | refused root p i old hpc hcas hne hor =>
    refine absurd (hcl (by rw [hpc, Pc.client?, hcas]; rfl) ?_) hne
    rcases hor with rfl | hm
    · exact hcatch (root, i) (by rw [hpc]; rfl)
    · exact hm
  | missed root i old hpc hne =>
    exact absurd (hcl (by rw [hpc]; rfl) (hcatch (root, i) (by rw [hpc]; rfl))) hne

/-- A call that goes on is still pending. -/
theorem Pending.step (hp : Pending σ.shared σ.calls (H.hash c.op.key) w c) (h : Sound H σ)
    (hC : Custody σ.shared σ.calls (H.hash c.op.key)) (hc : σ.calls t = some c)
    (hs : c.step H signalSafeReaders σ.shared t = some (S', c')) (hr : ∀ r, c'.pc ≠ .ret r)
    (h' : Sound H ⟨S', Function.update σ.calls t (some c'), σ.history⟩)
    (hC' : Custody S' (Function.update σ.calls t (some c')) (H.hash c.op.key)) :
    Pending S' (Function.update σ.calls t (some c')) (H.hash c.op.key) w c' := by
  obtain ⟨hco, hcells, hval⟩ := h
  obtain ⟨hco', hcells', hval'⟩ := h'
  have hmaps : Maps S' (Function.update σ.calls t (some c')) (H.hash c.op.key) w := by
    rcases hC.maps_step hval hcells hco hc (H.hash_ne _) hs with hkeep | ⟨_, old, -, -, -, -, hc'⟩
    · exact (hkeep w).2 hp.maps
    · exact absurd (by rw [hc']; rfl) (hr old)
  refine ⟨hmaps, hr, fun T i x hx => ?_, fun hw => hC.sees_self hco hp.maps hw hs (hp.sees hw)⟩
  -- It has found the value where it is about to store.
  obtain ⟨hpub, -, hi, hne⟩ := hcells'.client hco' (Function.update_self ..) hx
  have hv : (S'.tables T).value i = x := Call.step_aim hcells hco hc hs hx
  rw [← hv] at hne ⊢
  rw [Call.step_op hs] at hi
  exact hC'.value_eq hval' hcells' hco' (H.hash_ne _) hmaps hpub hi hne

/-- A step of the map that keeps the call of the thread. -/
theorem Writing.next (hw : Writing H op w t σ) (hget : ∀ k, op ≠ .get k)
    (hl : Orderly H (· = H.hash op.key) σ l) (hleave : Leaves op.key l)
    (hcatch : Catches op.key σ l) (hn : (provider Tid H signalSafeReaders).next σ l = some σ') :
    Writing H op w t σ' ∨ Reading H op.key op.value σ' := by
  have hsound := hw.sound.next hl.1 hn
  have hcustody := hw.custody.next hw.sound hl.1 hl.2 (H.hash_ne _) hn
  obtain ⟨c₀, hc₀, hop, hstage⟩ := hw.stage
  -- What another thread does leaves the value and the call as they are.
  have hmaps : l ≠ .step t → ∀ x, Maps σ.shared σ.calls (H.hash op.key) x →
      Maps σ'.shared σ'.calls (H.hash op.key) x := fun hlt x hx => by
    refine hw.custody.maps_next hw.sound (H.hash_ne _) hx (fun u c hu hc hkey => ?_) hn
    have hne : u ≠ t := fun he => hlt (he ▸ hu)
    exact (hw.sound.cells.knows u c hc).not_client (hw.leave u hne c hc (H.injective hkey))
  cases State.transition_of_next H signalSafeReaders hn with
  | call u op' hc =>
    have hne : u ≠ t := by
      rintro rfl
      exact nomatch hc.symm.trans hc₀
    refine .inl ⟨hsound, hcustody, fun u' hu' d hd hk => ?_, c₀, ?_, hop, ?_⟩
    · rcases ThreadSum.update_eq_some_iff.1 hd with ⟨-, he⟩ | ⟨-, hd⟩
      · cases he
        exact hleave hk
      · exact hw.leave u' hu' d hd hk
    · exact (Function.update_of_ne (Ne.symm hne) ..).trans hc₀
    · exact hstage.imp (fun hp => ⟨hmaps nofun _ hp.maps, hp.unreturned, hp.aim, hp.sees⟩)
        fun hr => ⟨hr.1, hmaps nofun _ hr.2⟩
  | ret u c result hc hret =>
    have hleave' : ∀ u' ≠ t, ∀ d, Function.update σ.calls u none u' = some d →
        d.op.key = op.key → d.op = .get op.key := fun u' hu' d hd => by
      rcases ThreadSum.update_eq_some_iff.1 hd with ⟨-, he⟩ | ⟨-, hd⟩
      · cases he
      · exact hw.leave u' hu' d hd
    by_cases hu : u = t
    · -- The call of the thread returns.
      subst hu
      cases hc.symm.trans hc₀
      rcases hstage with hp | ⟨-, hm⟩
      · exact absurd hret (hp.unreturned result)
      · refine .inr ⟨hsound, hcustody, ?_, fun u' d hd => ?_⟩
        · refine hw.custody.maps_next hw.sound (H.hash_ne _) hm (fun u' d hu' hd _ => ?_) hn
          cases hu'
          cases hc.symm.trans hd
          rw [hret]
          rfl
        · by_cases hu' : u' = u
          · subst hu'
            exact nomatch (Function.update_self ..).symm.trans hd
          · exact hleave' u' hu' d hd
    · have hne : Label.step u ≠ (.step t : Label Tid Key) := fun he => hu (Label.step.inj he)
      refine .inl ⟨hsound, hcustody, hleave', c₀, ?_, hop, ?_⟩
      · exact (Function.update_of_ne (Ne.symm hu) ..).trans hc₀
      · exact hstage.imp (fun hp => ⟨hmaps hne _ hp.maps, hp.unreturned, hp.aim, hp.sees⟩)
          fun hr => ⟨hr.1, hmaps hne _ hr.2⟩
  | step u c c' S' hc hs =>
    obtain ⟨hco, hcells, hval⟩ := hw.sound
    have hleave' : ∀ u' ≠ t, ∀ d, Function.update σ.calls u (some c') u' = some d →
        d.op.key = op.key → d.op = .get op.key := fun u' hu' d hd hk => by
      rcases ThreadSum.update_eq_some_iff.1 hd with ⟨rfl, he⟩ | ⟨-, hd⟩
      · cases he
        rw [Call.step_op hs] at hk ⊢
        exact hw.leave u' hu' c hc hk
      · exact hw.leave u' hu' d hd hk
    left
    by_cases hu : u = t
    · subst hu
      cases hc.symm.trans hc₀
      refine ⟨hsound, hcustody, hleave', c', Function.update_self .., (Call.step_op hs).trans hop, ?_⟩
      rcases hstage with hp | ⟨hr, -⟩
      · by_cases hr : ∃ r, c'.pc = .ret r
        · obtain ⟨r, hr⟩ := hr
          obtain ⟨rfl, hm⟩ := hw.answer hget hcatch hc hop hp hs hr
          exact .inr ⟨hr, hm⟩
        · subst hop
          exact .inl (hp.step hw.sound hw.custody hc hs (not_exists.1 hr) hsound hcustody)
      · rw [Call.step, hr] at hs
        cases hs
    · have hne : Label.step u ≠ (.step t : Label Tid Key) := fun he => hu (Label.step.inj he)
      refine ⟨hsound, hcustody, hleave', c₀, ?_, hop, ?_⟩
      · exact (Function.update_of_ne (Ne.symm hu) ..).trans hc₀
      · refine hstage.imp (fun hp => ⟨hmaps hne _ hp.maps, hp.unreturned, hp.aim, fun hw₀ => ?_⟩)
          fun hr => ⟨hr.1, hmaps hne _ hr.2⟩
        exact hcells.sees_step hco hc hs (H.hash_ne _) hc₀ (hp.sees hw₀)

omit [Fintype Tid] [DecidableEq Tid] in
/-- The value of a key is no mark. -/
theorem Values.maps_ne_move {h : HashType} (hval : Values S calls) (hm : Maps S calls h w) :
    w ≠ mapValMove := by
  rintro rfl
  obtain ⟨p, hp⟩ := (hm mapValMove).2 ⟨rfl, by decide⟩
  cases p with
  | cell T i => exact hp.2.2.2 rfl
  | mover u =>
    obtain ⟨d, hd, hcar⟩ := hp
    obtain ⟨⟨T, i, mpc⟩, hmover, hcar⟩ := Option.bind_eq_some_iff.1 hcar
    have hmoves := hval.movers u d T i mpc hd hmover
    cases mpc <;> cases hcar <;> exact hmoves.2.2 rfl

/-- The call begins. -/
theorem Writing.begin (h : Reading H op.key w σ)
    (hn : (provider Tid H signalSafeReaders).next σ (.call t op) = some σ') :
    Writing H op w t σ' := by
  have hl : OnTime σ (.call t op) := trivial
  have ho : Once H (· = H.hash op.key) σ (.call t op) := trivial
  have hsound := h.sound.next hl hn
  have hcustody := h.custody.next h.sound hl ho (H.hash_ne _) hn
  have hm : Maps σ'.shared σ'.calls (H.hash op.key) w :=
    h.custody.maps_next h.sound (H.hash_ne _) h.maps (fun _ _ he => by cases he) hn
  cases State.transition_of_next H signalSafeReaders hn with
  | call _ _ hc =>
    refine ⟨hsound, hcustody, fun u hu c hc => ?_, _, Function.update_self .., rfl,
      .inl ⟨hm, (fun _ => nofun), (fun _ _ _ => nofun), fun _ _ => nofun⟩⟩
    exact h.leave u c ((Function.update_of_ne hu ..).symm.trans hc)

/-- A call that has its result is about to return. -/
theorem Writing.returned (h : Writing H op w t σ) {b : Bool} (hget : ∀ k, op ≠ .get k)
    (hr : σ.calls t = some ⟨op, b, .ret r⟩)
    (hn : (provider Tid H signalSafeReaders).next σ (.step t) = some σ') :
    r = w ∧ Reading H op.key op.value σ' := by
  have hw : r = w := by
    obtain ⟨c, hc, -, hp | ⟨hret, -⟩⟩ := h.stage <;> cases hr.symm.trans hc
    · exact absurd rfl (hp.unreturned r)
    · cases hret
      rfl
  refine ⟨hw, ?_⟩
  have horderly : Orderly H (· = H.hash op.key) σ (.step t) := by
    constructor <;> intro c hc <;> cases hr.symm.trans hc
    · trivial
    · exact nofun
  have hcatch : Catches op.key σ (.step t) := by
    intro c hc
    cases hr.symm.trans hc
    exact fun _ => nofun
  refine (h.next hget horderly trivial hcatch hn).resolve_left fun h' => ?_
  obtain ⟨c, hc, -⟩ := h'.stage
  cases State.transition_of_next H signalSafeReaders hn with
  | ret _ d result hd hret => exact nomatch (Function.update_self ..).symm.trans hc
  | step _ d d' S' hd hs =>
    cases hr.symm.trans hd
    cases hs

/-- The only call that writes to its key returns the value before, and leaves its own. -/
theorem Reading.written {σ₀ σ₁ σ₂ σ₃ : State Tid Key}
    {tr : List (State Tid Key × Label Tid Key)} {b : Bool} (hread : Reading H op.key w σ₀)
    (hget : ∀ k, op ≠ .get k)
    (hcall : (provider Tid H signalSafeReaders).next σ₀ (.call t op) = some σ₁)
    (hrun : (provider Tid H signalSafeReaders).Run (fun σ l =>
      Orderly H (· = H.hash op.key) σ l ∧ Leaves op.key l ∧ Catches op.key σ l) σ₁ tr σ₂)
    (hr : σ₂.calls t = some ⟨op, b, .ret r⟩)
    (hret : (provider Tid H signalSafeReaders).next σ₂ (.step t) = some σ₃) :
    r = w ∧ r ≠ mapValMove ∧ Keeps H signalSafeReaders op.key op.value σ₃ := by
  have hend : Writing H op w t σ₂ ∨ Reading H op.key op.value σ₂ :=
    hrun.invariant (I := fun σ => Writing H op w t σ ∨ Reading H op.key op.value σ)
      (fun _ _ _ hI ho hn => hI.elim (fun hw => hw.next hget ho.1 ho.2.1 ho.2.2 hn)
        fun h => .inr (h.next ho.1 ho.2.1 hn)) (.inl (.begin hread hcall))
  rcases hend with hw | h
  · obtain ⟨rfl, h⟩ := hw.returned hget hr hret
    exact ⟨rfl, hread.sound.values.maps_ne_move hread.maps, h.keeps⟩
  · exact absurd (h.leave t _ hr rfl) (hget _)

/-- In every run in which no step comes too late to a migration and none allocates a second
    cell to the key: a `put` that is the only call to write to its key returns the value
    before, never the mark, and the value put is what the key has from then on, whatever the
    migrations do meanwhile, unless its exchange of line 298 finds the value moved. -/
theorem put_kept {n : BitVec 64} {k : Key} {v : Value} {σ₀ σ₁ σ₂ σ₃ : State Tid Key}
    {tr₀ tr : List (State Tid Key × Label Tid Key)} {b : Bool}
    (h₀ : (provider Tid H signalSafeReaders).Run (Orderly H (· = H.hash k)) (.new n) tr₀ σ₀)
    (hw : Maps σ₀.shared σ₀.calls (H.hash k) w)
    (hleave : ∀ u c, σ₀.calls u = some c → c.op.key = k → c.op = .get k)
    (hcall : (provider Tid H signalSafeReaders).next σ₀ (.call t (.put k v)) = some σ₁)
    (hrun : (provider Tid H signalSafeReaders).Run
      (fun σ l => Orderly H (· = H.hash k) σ l ∧ Leaves k l ∧ Catches k σ l) σ₁ tr σ₂)
    (hr : σ₂.calls t = some ⟨.put k v, b, .ret r⟩)
    (hret : (provider Tid H signalSafeReaders).next σ₂ (.step t) = some σ₃) :
    r = w ∧ r ≠ mapValMove ∧ Keeps H signalSafeReaders k v.ptr σ₃ := by
  obtain ⟨hs, hC⟩ := Custody.of_run h₀ (H.hash_ne k)
  have hread : Reading H (Op.put k v).key w σ₀ := ⟨hs, hC, hw, hleave⟩
  exact hread.written nofun hcall hrun hr hret

/-- The same for a `remove` and its exchange of line 653. -/
theorem remove_kept {n : BitVec 64} {k : Key} {v : Value} {σ₀ σ₁ σ₂ σ₃ : State Tid Key}
    {tr₀ tr : List (State Tid Key × Label Tid Key)} {b : Bool}
    (h₀ : (provider Tid H signalSafeReaders).Run (Orderly H (· = H.hash k)) (.new n) tr₀ σ₀)
    (hv : Maps σ₀.shared σ₀.calls (H.hash k) v.ptr)
    (hleave : ∀ u c, σ₀.calls u = some c → c.op.key = k → c.op = .get k)
    (hcall : (provider Tid H signalSafeReaders).next σ₀ (.call t (.remove k)) = some σ₁)
    (hrun : (provider Tid H signalSafeReaders).Run
      (fun σ l => Orderly H (· = H.hash k) σ l ∧ Leaves k l ∧ Catches k σ l) σ₁ tr σ₂)
    (hr : σ₂.calls t = some ⟨.remove k, b, .ret r⟩)
    (hret : (provider Tid H signalSafeReaders).next σ₂ (.step t) = some σ₃) :
    r = v.ptr ∧ Keeps H signalSafeReaders k mapValEmpty σ₃ := by
  obtain ⟨hs, hC⟩ := Custody.of_run h₀ (H.hash_ne k)
  have hread : Reading H (Op.remove k).key v.ptr σ₀ := ⟨hs, hC, hv, hleave⟩
  obtain ⟨hr, -, hkeeps⟩ := hread.written nofun hcall hrun hr hret
  exact ⟨hr, hkeeps⟩

end Writers

/-! ## Runs with one migration -/

section Examples

variable {ok : State (Fin 11) (Fin 11) → Label (Fin 11) (Fin 11) → Prop} {op : Op (Fin 11)}
  {r x : ValueType}

/-- A run with a call `op` of thread 0 for the first key, which has the value `oneValue`, and
    to which nobody else writes. Meanwhile the last key is put, with two
    migrations. The call returns `r`, and a `get` after it `x`. -/
def Overtaken (ok : State (Fin 11) (Fin 11) → Label (Fin 11) (Fin 11) → Prop) (op : Op (Fin 11))
    (r x : ValueType) : Prop :=
  ∃ (σ₀ σ₁ σ₂ σ₃ σ₄ : State (Fin 11) (Fin 11))
    (tr₀ tr₁ tr₂ : List (State (Fin 11) (Fin 11) × Label (Fin 11) (Fin 11))) (b b' : Bool),
    (provider (Fin 11) chainHasher false).Run (Orderly chainHasher (· = chainHasher.hash 0))
        (.new 0) tr₀ σ₀ ∧
      (σ₀.shared.tables σ₀.shared.current).coordinator = .null ∧
      (σ₀.shared.tables σ₀.shared.current).Lookup (chainHasher.hash 0) oneValue.ptr ∧
      (∀ t, σ₀.calls t = none) ∧
    (provider (Fin 11) chainHasher false).next σ₀ (.call 0 op) = some σ₁ ∧
    (provider (Fin 11) chainHasher false).Run (fun σ l =>
        Orderly chainHasher (· = chainHasher.hash 0) σ l ∧ Leaves 0 l ∧ ok σ l) σ₁ tr₁ σ₂ ∧
      σ₂.shared.current = 2 ∧ σ₂.calls 0 = some ⟨op, b, .ret r⟩ ∧
    (provider (Fin 11) chainHasher false).next σ₂ (.step 0) = some σ₃ ∧ σ₃.calls 0 = none ∧
    (provider (Fin 11) chainHasher false).Run (fun σ l =>
        Orderly chainHasher (· = chainHasher.hash 0) σ l ∧ Leaves 0 l) σ₃ tr₂ σ₄ ∧
      σ₄.calls 0 = some ⟨.get 0, b', .ret x⟩

/-- So many steps of the call are made before the last key is put, and after it. -/
def overtake (before after : ℕ) : List (List (Label (Fin 11) (Fin 11))) :=
  List.replicate before (.step 0) :: callParts 10 (.put 10 oneValue) 46 ++
    [.step 10 :: List.replicate after (.step 0)]

theorem overtaken_of_exec [∀ σ l, Decidable (ok σ l)] (before after : ℕ)
    (hrun : ((State.new 0).exec chainHasher false
      (Orderly chainHasher (· = chainHasher.hash 0)) fillReturns).any (fun σ₀ =>
        decide ((σ₀.shared.tables σ₀.shared.current).coordinator = .null ∧
          (σ₀.shared.tables σ₀.shared.current).hash 0 = 0 ∧
          (σ₀.shared.tables σ₀.shared.current).value 0 = oneValue.ptr ∧
          ∀ t, (σ₀.calls t).isNone) &&
        ((provider (Fin 11) chainHasher false).next σ₀ (.call 0 op)).any fun σ₁ =>
        (σ₁.exec chainHasher false (fun σ l =>
          Orderly chainHasher (· = chainHasher.hash 0) σ l ∧ Leaves 0 l ∧ ok σ l)
          (overtake before after)).any fun σ₂ =>
        decide (σ₂.shared.current = 2 ∧ ∃ c ∈ σ₂.calls 0, c.op = op ∧ c.pc = .ret r) &&
        ((provider (Fin 11) chainHasher false).next σ₂ (.step 0)).any fun σ₃ =>
        decide ((σ₃.calls 0).isNone) &&
        (σ₃.exec chainHasher false (fun σ l =>
          Orderly chainHasher (· = chainHasher.hash 0) σ l ∧ Leaves 0 l)
          [callSteps 0 (.get 0) 3]).any fun σ₄ =>
        decide (∃ c ∈ σ₄.calls 0, c.op = .get 0 ∧ c.pc = .ret x)) = true) :
    Overtaken ok op r x := by
  obtain ⟨tr₀, σ₀, h₀, hp₀⟩ := exists_run_of_parts hrun
  obtain ⟨hp₀, hrun₀⟩ := Bool.and_eq_true_iff.1 hp₀
  obtain ⟨hnull, hhash, hval, hnone⟩ := of_decide_eq_true hp₀
  obtain ⟨σ₁, hcall, hrun₁⟩ := (Option.any_eq_true ..).1 hrun₀
  obtain ⟨tr₁, σ₂, h₁, hp₂⟩ := exists_run_of_parts hrun₁
  obtain ⟨hp₂, hrun₂⟩ := Bool.and_eq_true_iff.1 hp₂
  obtain ⟨hcur, ⟨op, b, pc⟩, hc, rfl, rfl⟩ := of_decide_eq_true hp₂
  obtain ⟨σ₃, hret, hrun₃⟩ := (Option.any_eq_true ..).1 hrun₂
  obtain ⟨hp₃, hrun₄⟩ := Bool.and_eq_true_iff.1 hrun₃
  obtain ⟨tr₂, σ₄, h₂, hp₄⟩ := exists_run_of_parts hrun₄
  obtain ⟨⟨op', b', pc'⟩, hc', rfl, rfl⟩ := of_decide_eq_true hp₄
  exact ⟨σ₀, σ₁, σ₂, σ₃, σ₄, tr₀, tr₁, tr₂, b, b', h₀, hnull, lookup_first hhash hval,
    fun t => Option.isNone_iff_eq_none.1 (hnone t), hcall, h₁, hcur, hc, hret,
    Option.isNone_iff_eq_none.1 (of_decide_eq_true hp₃), h₂, hc'⟩

/-- The put of thread 0 is about to exchange the value when it is moved. It returns the mark,
    and the key keeps the value before. -/
theorem exists_put_lost : Overtaken System.anyStep (.put 0 twoValue) mapValMove oneValue.ptr :=
  overtaken_of_exec 3 1 (by decide +kernel)

/-- The same for a remove, which returns nothing. -/
theorem exists_remove_lost : Overtaken System.anyStep (.remove 0) mapValEmpty oneValue.ptr :=
  overtaken_of_exec 3 1 (by decide +kernel)

/-- The value before the call. -/
theorem maps_first {σ : State (Fin 11) (Fin 11)} {n : BitVec 64}
    {tr : List (State (Fin 11) (Fin 11) × Label (Fin 11) (Fin 11))}
    (hr : (provider (Fin 11) chainHasher false).Run (Orderly chainHasher (· = chainHasher.hash 0))
      (.new n) tr σ) (hnull : (σ.shared.tables σ.shared.current).coordinator = .null)
    (hx : (σ.shared.tables σ.shared.current).Lookup (chainHasher.hash 0) x)
    (hnone : ∀ t, σ.calls t = none) : Maps σ.shared σ.calls (chainHasher.hash 0) x := by
  obtain ⟨⟨hco, hcells, hval⟩, hC⟩ := Custody.of_run hr (chainHasher.hash_ne 0)
  have hcur : σ.shared.current = σ.shared.latest := hco.layout.current
  rw [hcur] at hnull hx
  exact hC.maps_of_lookup hval hcells hco (chainHasher.hash_ne 0) hnull
    (fun t c hc => nomatch (hnone t).symm.trans hc) hx

/-- A put that finds its cell moved when it reads the value is made again in the new table. -/
theorem put_kept_overtaken : ∃ (σ : State (Fin 11) (Fin 11)) (r : ValueType),
    r = oneValue.ptr ∧ r ≠ mapValMove ∧ Keeps chainHasher false 0 twoValue.ptr σ := by
  obtain ⟨σ₀, σ₁, σ₂, σ₃, -, tr₀, tr₁, -, b, -, h₀, hnull, hx, hnone, hcall, h₁, -, hr, hret, -⟩ :
      Overtaken (Catches 0) (.put 0 twoValue) oneValue.ptr twoValue.ptr :=
    overtaken_of_exec 2 6 (by decide +kernel)
  exact ⟨σ₃, _, put_kept h₀ (maps_first h₀ hnull hx hnone)
    (fun u c hc => nomatch (hnone u).symm.trans hc) hcall h₁ hr hret⟩

/-- The same for a remove. -/
theorem remove_kept_overtaken : ∃ (σ : State (Fin 11) (Fin 11)) (r : ValueType),
    r = oneValue.ptr ∧ Keeps chainHasher false 0 mapValEmpty σ := by
  obtain ⟨σ₀, σ₁, σ₂, σ₃, -, tr₀, tr₁, -, b, -, h₀, hnull, hx, hnone, hcall, h₁, -, hr, hret, -⟩ :
      Overtaken (Catches 0) (.remove 0) oneValue.ptr mapValEmpty :=
    overtaken_of_exec 2 6 (by decide +kernel)
  exact ⟨σ₃, _, remove_kept h₀ (maps_first h₀ hnull hx hnone)
    (fun u c hc => nomatch (hnone u).symm.trans hc) hcall h₁ hr hret⟩

end Examples

end FkProf.ConcurrentMap
