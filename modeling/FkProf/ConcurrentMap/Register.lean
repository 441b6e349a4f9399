import FkProf.ConcurrentMap.Owner

/-!
# A key as a register

To the threads that look it up, a key that one thread alone puts and removes is an
atomic register, through any number of migrations. It has a value at each time, which
only the writes of that thread change, one after the other, each of them returning
the value that the one before has left; and a `get` returns the value that the key had
at some time since it was called. In between the cell of the key may be allocated and
not yet on its chain, so that a `get` does not find it; but then it has no value yet.

The exchanges of lines 298 and 653 are again those that do not find the value moved
(`Catches`).

* `writes`, `Writes`: the completed writes to a key, and those of a register;
* `Stage`: the last write, or the one in progress;
* `Reads`: what the calls of `get` return;
* `register_of_run`: the key is an atomic register.
-/

namespace FkProf.ConcurrentMap

variable {Tid Key : Type*}

/-- The writes to a key among the completed calls. -/
def writes [DecidableEq Key] (k : Key) (history : List (Op Key × ValueType)) :
    List (Op Key × ValueType) :=
  history.filter fun e => decide (e.1.key = k ∧ e.1 ≠ .get k)

/-- The writes of a register, the last one first: each returns the value that the one before
    has left. -/
inductive Writes : List (Op Key × ValueType) → ValueType → Prop
  | nil : Writes [] mapValEmpty
  | cons {es : List (Op Key × ValueType)} {w : ValueType} (op : Op Key) :
      Writes es w → Writes ((op, w) :: es) op.value

/-- The thread calls. -/
def CallOf (t : Tid) (l : Label Tid Key) : Prop := ∃ op, l = .call t op

/-- The tables that the call may be searching have a cell for the hash on its chain. -/
def Call.Reaches (S : Shared Tid) (h : HashType) (c : Call Key) : Prop :=
  ∀ root, c.pc.search? = some root →
    ∃ i, OnChain (S.tables root) h i ∧ (S.tables root).hash i = h

section Register

variable [Fintype Tid] [DecidableEq Tid] {H : Hasher Key} {signalSafeReaders : Bool}
  {σ σ' : State Tid Key} {l : Label Tid Key} {t u o : Tid} {k : Key} {w r : ValueType}
  {S S' : Shared Tid} {c c' : Call Key} {calls : Tid → Option (Call Key)} {root : TableId}
  {h : HashType}

/-! ## The writes -/

omit [Fintype Tid] [DecidableEq Tid] in
theorem writes_cons_of_write [DecidableEq Key] {es : List (Op Key × ValueType)} {op : Op Key}
    (hk : op.key = k) (hget : op ≠ .get k) :
    writes k ((op, r) :: es) = (op, r) :: writes k es :=
  List.filter_cons_of_pos (decide_eq_true ⟨hk, hget⟩)

omit [Fintype Tid] [DecidableEq Tid] in
theorem writes_cons_of_get [DecidableEq Key] {es : List (Op Key × ValueType)} {op : Op Key}
    (hk : op.key = k → op = .get k) : writes k ((op, r) :: es) = writes k es :=
  List.filter_cons_of_neg fun h => (of_decide_eq_true h).2 (hk (of_decide_eq_true h).1)

/-- The key has the value that the last write has left, or the thread is in a write. -/
inductive Stage (H : Hasher Key) (o : Tid) (k : Key) (w : ValueType) (σ : State Tid Key) : Prop
  | reading : Reading H k w σ → Stage H o k w σ
  | writing (op : Op Key) : op.key = k → (∀ k', op ≠ .get k') → Writing H op w o σ →
      Stage H o k w σ

omit [DecidableEq Tid] in
theorem Stage.exists_maps (h : Stage H o k w σ) : ∃ v, Maps σ.shared σ.calls (H.hash k) v := by
  cases h with
  | reading h => exact ⟨w, h.maps⟩
  | writing op hk _ h =>
    subst hk
    obtain ⟨c, -, -, hp | ⟨-, hm⟩⟩ := h.stage
    · exact ⟨w, hp.maps⟩
    · exact ⟨op.value, hm⟩

/-- A step that is on time, by which nobody else writes to the key, and which does not take the
    mark of a moved value for that of another client. -/
def Tended (o : Tid) (k : Key) (σ : State Tid Key) (l : Label Tid Key) : Prop :=
  OnTime σ l ∧ Owns o k l ∧ Catches k σ l

instance [DecidableEq Key] : Decidable (Tended o k σ l) := inferInstanceAs (Decidable (_ ∧ _))

theorem Stage.next [DecidableEq Key] (h : Stage H o k w σ) (hw : Writes (writes k σ.history) w)
    (hown : Owned H o k σ) (hl : Tended o k σ l)
    (hn : (provider Tid H signalSafeReaders).next σ l = some σ') :
    ∃ w', Writes (writes k σ'.history) w' ∧ Stage H o k w' σ' := by
  obtain ⟨hon, howns, hcatch⟩ := hl
  have ho := hown.orderly hon
  cases h with
  | reading h =>
    by_cases hleave : Leaves k l
    · refine ⟨w, ?_, .reading (h.next ho hleave hn)⟩
      cases State.transition_of_next H signalSafeReaders hn with
      | ret t c result hc hret => rwa [writes_cons_of_get (h.leave t c hc)]
      | call | step => exact hw
    · cases l with
      | step => exact absurd trivial hleave
      | call u op =>
        -- The thread begins to write.
        obtain ⟨rfl, hget⟩ := Classical.not_imp.1 hleave
        obtain rfl := (howns rfl).resolve_left hget
        refine ⟨w, ?_, .writing op rfl (fun k' hk' => hget (by rw [hk']; rfl)) (.begin h hn)⟩
        cases State.transition_of_next H signalSafeReaders hn with
        | call => exact hw
  | writing op hk hget h =>
    subst hk
    obtain ⟨c₀, hc₀, rfl, -⟩ := h.stage
    have hbusy : Leaves c₀.op.key l := by
      cases l with
      | step => trivial
      | call u op =>
        refine fun hkey => (howns hkey).resolve_right fun hu => ?_
        subst hu
        cases State.transition_of_next H signalSafeReaders hn with
        | call _ _ hc => exact nomatch hc.symm.trans hc₀
    -- As long as the thread is in its call, it is still writing.
    have hstill : ∀ d, σ'.calls o = some d → d.op = c₀.op →
        Stage H o c₀.op.key w σ' := fun d hd hop => by
      refine .writing c₀.op rfl hget ((h.next hget ho hbusy hcatch hn).resolve_right fun h' => ?_)
      exact hget _ (hop.symm.trans (h'.leave o d hd (by rw [hop])))
    cases State.transition_of_next H signalSafeReaders hn with
    | call u op hc =>
      refine ⟨w, hw, hstill c₀ ((Function.update_of_ne ?_ ..).trans hc₀) rfl⟩
      rintro rfl
      exact nomatch hc.symm.trans hc₀
    | ret u c result hc hret =>
      by_cases hu : u = o
      · subst hu
        cases hc.symm.trans hc₀
        obtain ⟨op, b, pc⟩ := c₀
        cases hret
        obtain ⟨rfl, h'⟩ := h.returned hget hc hn
        rw [writes_cons_of_write rfl (hget _)]
        exact ⟨_, .cons op hw, .reading h'⟩
      · rw [writes_cons_of_get (h.leave u hu c hc)]
        exact ⟨w, hw, hstill c₀ ((Function.update_of_ne (Ne.symm hu) ..).trans hc₀) rfl⟩
    | step u c c' S' hc hs =>
      by_cases hu : u = o
      · subst hu
        cases hc.symm.trans hc₀
        exact ⟨w, hw, hstill c' (Function.update_self ..) (Call.step_op hs)⟩
      · exact ⟨w, hw, hstill c₀ ((Function.update_of_ne (Ne.symm hu) ..).trans hc₀) rfl⟩

/-! ## A cell that is not linked yet -/

omit [Fintype Tid] [DecidableEq Tid] in
theorem allocate_of_link {T : HashTable Tid} {v : ValueType} {pc : InsertPc} {i d : ℕ}
    (hs : (insertOrUpdateStep T h v pc).2 = .goto (.link i d)) : pc = .allocate i d := by
  cases pc <;> simp only [insertOrUpdateStep, searchNext] at hs <;> (try split_ifs at hs) <;>
    cases hs
  rfl

omit [Fintype Tid] [DecidableEq Tid] in
/-- A put that is about to link a cell has just allocated it. -/
theorem Call.allocate_of_link (hk : c.Knows H S)
    (hs : c.step H signalSafeReaders S t = some (S', c')) {i d : ℕ}
    (hpc : c'.pc = .insert root (.link i d)) : c.pc = .insert root (.allocate i d) := by
  have hf' : c'.insertAt H S' root = some ⟨H.hash c'.op.key, c'.op.value, .link i d⟩ := by
    rw [insertAt, hpc]
    exact if_pos rfl
  cases hf : c.insertAt H S root with
  | none =>
    rcases step_insertAt_none hk hs hf with hnone | ⟨⟨f, hf, hp, -⟩, -⟩
    · cases hnone.symm.trans hf'
    · cases hf.symm.trans hf'
      cases hp
  | some f =>
    rw [(step_insertAt hs hf).2] at hf'
    cases hn : (insertOrUpdateStep (S.tables root) f.hash f.value f.pc).2 with
    | done => rw [hn] at hf'; cases hf'
    | goto p =>
      rw [hn] at hf'
      obtain rfl : p = .link i d := congrArg Insert.pc (Option.some.inj hf')
      have hp := FkProf.ConcurrentMap.allocate_of_link hn
      rcases insertAt_cases hf with ⟨hc, -⟩ | ⟨r, j, s, U, n, last, hc, -⟩
      · rw [hc, hp]
      · -- A thread that moves a value does not come to insert its own.
        obtain ⟨op, doubleSize, pc⟩ := c
        cases hc
        rw [step_migrate] at hs
        cases hs
        cases hm : (migrateStep S (S.jobs j).dest U n last (.insert f.hash f.value f.pc)).2 <;>
          rw [hm] at hpc <;> cases hpc

/-- While the cell of the key in the current table is not linked yet, the key has no value. -/
def Unlinked (H : Hasher Key) (k : Key) (σ : State Tid Key) : Prop :=
  ∀ t c root i d, σ.calls t = some c → c.op.key = k → c.pc = .insert root (.link i d) →
    root ∈ σ.shared.retired ∨ Maps σ.shared σ.calls (H.hash k) mapValEmpty

omit [Fintype Tid] [DecidableEq Tid] in
/-- Tables remain retired. -/
theorem Advance.retired {o o' : Outline Tid} {pc : Pc} (h : Advance o pc o') {T : TableId}
    (hT : T ∈ o.retired) : T ∈ o'.retired := by
  cases h with
  | keep x ho => rwa [ho]
  | run root j rpc _ _ ho => rwa [ho]
  | begin n jobs m _ _ _ _ _ ho => rwa [ho]
  | ends root j _ _ ho => rwa [ho]
  | publish root j old _ _ _ ho =>
    rw [ho]
    exact List.mem_cons_of_mem _ hT

omit [Fintype Tid] [DecidableEq Tid] in
/-- A hash without a cell in the current table has no value. -/
theorem Custody.maps_of_no_cell (hC : Custody S calls h)
    (hno : ∀ i, (S.tables S.latest).hash i ≠ h) : Maps S calls h mapValEmpty := by
  refine maps_of_none fun p v hp => ?_
  rcases hC.away p v hp with ⟨i, rfl⟩ | ⟨i, hi, -⟩
  · exact hno i hp.1
  · exact hno i hi

theorem Unlinked.next (h : Unlinked H k σ) (hown : Owned H o k σ) (hl : OnTime σ l)
    (hn : (provider Tid H signalSafeReaders).next σ l = some σ') : Unlinked H k σ' := by
  have hh := H.hash_ne k
  have hC := hown.custody
  obtain ⟨hco, hcells, hval⟩ := hown.sound
  -- A get stores nothing, and nobody else is in a call of another kind.
  have hkeep : (∀ c, σ.calls o = some c → l = .step o → c.op.key = k → c.pc.client? = none) →
      Maps σ.shared σ.calls (H.hash k) mapValEmpty →
      Maps σ'.shared σ'.calls (H.hash k) mapValEmpty := fun hq hm =>
    hC.maps_next hown.sound hh hm (fun u c hu hc hkey => by
      have hkey := H.injective hkey
      rcases hown.own u c hc hkey with hget | rfl
      · exact (hcells.knows u c hc).not_client hget
      · exact hq c hc hu hkey) hn
  intro t c root i d hc hkey hpc
  cases State.transition_of_next H signalSafeReaders hn with
  | call u op hu =>
    rcases ThreadSum.update_eq_some_iff.1 hc with ⟨-, he⟩ | ⟨-, hc⟩
    · cases he
      cases hpc
    · exact (h t c root i d hc hkey hpc).imp_right (hkeep fun _ _ => nofun)
  | ret u d' result hu hret =>
    rcases ThreadSum.update_eq_some_iff.1 hc with ⟨-, he⟩ | ⟨-, hc⟩
    · cases he
    · refine (h t c root i d hc hkey hpc).imp_right (hkeep fun c' hc' hlu _ => ?_)
      cases hlu
      cases hu.symm.trans hc'
      rw [hret]
      rfl
  | step u d₀ d' S' hu hs =>
    have hadv := hco.advance hu (hl d₀ hu) hs
    rcases ThreadSum.update_eq_some_iff.1 hc with ⟨rfl, he⟩ | ⟨hne, hc⟩
    · cases he
      have ha := Call.allocate_of_link (hcells.knows t d₀ hu) hs hpc
      have hok := hco.ok t d₀.pc (pcsOf_eq hu rfl)
      rw [Call.step_op hs] at hkey
      rw [ha] at hok
      rcases hok with hlatest | hret
      · -- It has found no cell of the key in the table.
        obtain rfl : root = σ.shared.latest := hlatest
        have hf : d₀.insertAt H σ.shared σ.shared.latest =
            some ⟨H.hash d₀.op.key, d₀.op.value, .allocate i d⟩ := by
          rw [Call.insertAt, ha]
          exact if_pos rfl
        have hpassed := hown.unpassed _ t d₀ _ hu hf (congrArg H.hash hkey)
        refine .inr (hkeep (fun c' hc' hlu _ => ?_) (hC.maps_of_no_cell hpassed))
        cases hlu
        cases hu.symm.trans hc'
        rw [ha]
        rfl
      · exact .inl (hadv.retired hret)
    · rcases h t c root i d hc hkey hpc with hret | hm
      · exact .inl (hadv.retired hret)
      · have hto : t = o := by
          refine hown.put_eq hc (congrArg H.hash hkey) ?_
          exact (hcells.knows t c hc).put hpc
        refine .inr (hkeep (fun _ _ hlu _ => ?_) hm)
        cases hlu
        exact absurd hto hne

omit [DecidableEq Tid] in
/-- Where the key has a value, its cell is on its chain in the current table. -/
theorem Unlinked.reachable (h : Unlinked H k σ) (hown : Owned H o k σ)
    (hm : Maps σ.shared σ.calls (H.hash k) w) (hw : w ≠ mapValEmpty) :
    ∃ i, OnChain (σ.shared.tables σ.shared.latest) (H.hash k) i ∧
      (σ.shared.tables σ.shared.latest).hash i = H.hash k := by
  obtain ⟨hco, hcells, hval⟩ := hown.sound
  have hh := H.hash_ne k
  obtain ⟨i, hi⟩ := hown.custody.allocated hm hw
  refine ⟨i, ?_, hi⟩
  rcases (hcells.chain σ.shared.latest).cells i (hcells.lt _ i (by rw [hi]; exact hh))
    (by rw [hi]; exact hh) with hon | ⟨t, f, hf, hfh, hl⟩
  · exact hi ▸ hon
  · obtain ⟨c, hc, hf⟩ := Option.bind_eq_some_iff.1 hf
    obtain ⟨n, d, hp⟩ : ∃ n d, f.pc = .link n d := by
      cases hp : f.pc <;> simp only [hp, InsertPc.linking?, reduceCtorEq] at hl
      exact ⟨_, _, rfl⟩
    rcases Call.insertAt_cases hf with ⟨hpc, hfk⟩ | ⟨root, j, s, U, m, last, hpc, hdest⟩
    · rw [hp] at hpc
      rcases h t c _ n d hc (H.injective (hfk.symm.trans (hfh.trans hi))) hpc with hret | hnull
      · exact absurd hret hco.layout.latest_notMem
      · exact absurd (hm.unique hnull) hw
    · exact absurd (hdest ▸ .inl rfl) (hco.moving (pcsOf_eq hc hpc)).isOpen.2

/-! ## The reads -/

/-- The value of the key has been this one since the thread called. -/
abbrev Had (H : Hasher Key) (k : Key) (t : Tid) (tr : List (State Tid Key × Label Tid Key))
    (σ : State Tid Key) (r : ValueType) : Prop :=
  System.Since (CallOf t) (fun σ => Maps σ.shared σ.calls (H.hash k) r) tr σ

/-- A `get` returns a value that the key has had, and does not miss it. -/
def Reads (H : Hasher Key) (k : Key) (tr : List (State Tid Key × Label Tid Key))
    (σ : State Tid Key) : Prop :=
  ∀ t c, σ.calls t = some c → c.op = .get k →
    (∀ r, c.pc = .ret r → Had H k t tr σ r) ∧
      (Had H k t tr σ mapValEmpty ∨ c.Reaches σ.shared (H.hash k))

omit [Fintype Tid] [DecidableEq Tid] in
/-- A chain keeps its cells. -/
theorem Extends.reaches {T T' : HashTable Tid} (e : Extends T T') (hh : h ≠ mapHashEmpty)
    (hex : ∃ i, OnChain T h i ∧ T.hash i = h) : ∃ i, OnChain T' h i ∧ T'.hash i = h := by
  obtain ⟨i, hon, hi⟩ := hex
  exact ⟨i, e.onChain hon, (e.hash i (by rw [hi]; exact hh)).trans hi⟩

omit [DecidableEq Tid] in
/-- What a `get` comes to. -/
theorem Owned.answer (hown : Owned H o k σ) (hw : ∃ v, Maps σ.shared σ.calls (H.hash k) v)
    {tr : List (State Tid Key × Label Tid Key)} (hc : σ.calls t = some c) (hop : c.op = .get k)
    (hreach : Had H k t tr σ mapValEmpty ∨ c.Reaches σ.shared (H.hash k))
    (ha : Answer σ.shared c r) : Had H k t tr σ r := by
  obtain ⟨hco, hcells, hval⟩ := hown.sound
  have hok := hco.ok t c.pc (pcsOf_eq hc rfl)
  have hk := hcells.knows t c hc
  have hkey : c.op.key = k := by rw [hop]; rfl
  cases ha with
  | store root i hcl => cases (hk.not_client hop).symm.trans hcl
  | read root i hpc hne =>
    rw [hpc] at hok
    rw [Call.Knows, hpc, hkey] at hk
    obtain ⟨v, hm⟩ := hw
    rw [hown.custody.value_eq hval hcells hco (H.hash_ne k) hm hok hk.2.2 hne]
    exact .inl hm
  | absent root i hpc he =>
    refine hreach.resolve_right fun hr => ?_
    rw [Call.Knows, hpc, hkey] at hk
    obtain ⟨n, hon, hn⟩ := hr root (by rw [hpc]; rfl)
    exact hk.2.not_empty (hcells.chain root) hon hn (H.hash_ne k) he
  | last root i hpc hl =>
    refine hreach.resolve_right fun hr => ?_
    rw [Call.Knows, hpc, hkey] at hk
    obtain ⟨n, hon, hn⟩ := hr root (by rw [hpc]; rfl)
    exact hk.2.1.not_last hon hn hk.2.2.2 hl
  | refused root p i old hpc hcas =>
    obtain ⟨k', v, hput⟩ := hk.put hpc
    cases hop.symm.trans hput
  | missed root i old hpc =>
    obtain ⟨k', hrem⟩ := hk.remove hpc
    cases hop.symm.trans hrem

theorem Reads.next {tr : List (State Tid Key × Label Tid Key)} (h : Reads H k tr σ)
    (hw : ∃ v, Maps σ.shared σ.calls (H.hash k) v) (hun : Unlinked H k σ) (hown : Owned H o k σ)
    (hn : (provider Tid H signalSafeReaders).next σ l = some σ') :
    Reads H k (tr ++ [(σ, l)]) σ' := by
  obtain ⟨hco, hcells, hval⟩ := hown.sound
  have hh := H.hash_ne k
  intro t c hc hop
  cases State.transition_of_next H signalSafeReaders hn with
  | call u op hu =>
    rcases ThreadSum.update_eq_some_iff.1 hc with ⟨-, he⟩ | ⟨hne, hc⟩
    · cases he
      exact ⟨nofun, .inr nofun⟩
    · have hnot : ¬CallOf t (.call u op : Label Tid Key) := fun ⟨_, he⟩ =>
        hne (Label.call.inj he).1.symm
      obtain ⟨hret, hreach⟩ := h t c hc hop
      exact ⟨fun r hr => (hret r hr).snoc hnot, hreach.imp_left (·.snoc hnot)⟩
  | ret u d result hu hret =>
    rcases ThreadSum.update_eq_some_iff.1 hc with ⟨-, he⟩ | ⟨-, hc⟩
    · cases he
    · obtain ⟨hret, hreach⟩ := h t c hc hop
      exact ⟨fun r hr => (hret r hr).snoc nofun, hreach.imp_left (·.snoc nofun)⟩
  | step u d d' S' hu hs =>
    have hreaches : ∀ {x : Call Key}, σ.calls t = some x → ∀ root, x.pc.search? = some root →
        Extends (σ.shared.tables root) (S'.tables root) := fun {x} hx root hr => by
      refine hcells.extends hu hs (hco.table_lt (pcsOf_eq hx rfl) ?_)
      cases hpc : x.pc <;> rw [hpc] at hr <;> first | exact hr | cases hr
    rcases ThreadSum.update_eq_some_iff.1 hc with ⟨rfl, he⟩ | ⟨-, hc⟩
    · cases he
      rw [Call.step_op hs] at hop
      obtain ⟨-, hreach⟩ := h t d hu hop
      refine ⟨fun r hr => (hown.answer hw hu hop hreach (Call.step_ret hs hr)).snoc nofun, ?_⟩
      rcases hreach with hnull | hr
      · exact .inl (hnull.snoc nofun)
      · obtain ⟨v, hm⟩ := hw
        by_cases hv : v = mapValEmpty
        · subst hv
          exact .inl (System.Since.snoc (.inl hm) nofun)
        · refine .inr fun root hroot => ?_
          obtain ⟨rfl, hor | ⟨-, rfl⟩⟩ := Call.step_search hs hroot
          · exact hr root hor
          · rw [show σ.shared.current = σ.shared.latest from hco.layout.current]
            exact hun.reachable hown hm hv
    · obtain ⟨hret, hreach⟩ := h t c hc hop
      exact ⟨fun r hr => (hret r hr).snoc nofun, hreach.imp (·.snoc nofun) fun hr root hroot =>
        (hreaches hc root hroot).reaches hh (hr root hroot)⟩

/-! ## The register -/

/-- The invariant of a key that is a register. -/
structure Register [DecidableEq Key] (H : Hasher Key) (o : Tid) (k : Key)
    (tr : List (State Tid Key × Label Tid Key)) (σ : State Tid Key) : Prop where
  owned : Owned H o k σ
  written : ∃ w, Writes (writes k σ.history) w ∧ Stage H o k w σ
  unlinked : Unlinked H k σ
  reads : Reads H k tr σ

theorem Register.next [DecidableEq Key] {tr : List (State Tid Key × Label Tid Key)}
    (h : Register H o k tr σ) (hl : Tended o k σ l)
    (hn : (provider Tid H signalSafeReaders).next σ l = some σ') :
    Register H o k (tr ++ [(σ, l)]) σ' := by
  obtain ⟨w, hw, hstage⟩ := h.written
  exact ⟨h.owned.next hl.1 hl.2.1 hn, hstage.next hw h.owned hl hn, h.unlinked.next h.owned hl.1 hn,
    h.reads.next hstage.exists_maps h.unlinked h.owned hn⟩

omit [DecidableEq Tid] in
theorem Register.initial [DecidableEq Key] (n : BitVec 64) :
    Register H o k [] (.new n : State Tid Key) where
  owned := .initial n
  written := ⟨mapValEmpty, .nil, .reading ⟨.initial n, .initial n (H.hash_ne k),
    maps_of_none (not_held_new n (H.hash_ne k)), nofun⟩⟩
  unlinked := nofun
  reads := nofun

/-- In every run in which one thread alone puts and removes a key, no step comes too late to a
    migration, and no exchange of line 298 or 653 for the key finds its value moved, the key is
    an atomic register: the writes that have returned are those of a register; the value of the
    key is what the last one has left, or, when the next one is about to return, what that one
    has left; and what a `get` is about to return is the value that the key had at some state
    since it was called. -/
theorem register_of_run [DecidableEq Key] {n : BitVec 64}
    {tr : List (State Tid Key × Label Tid Key)}
    (hr : (provider Tid H signalSafeReaders).Run (Tended o k) (.new n) tr σ) :
    (∃ w, Writes (writes k σ.history) w ∧
      ((∀ t c, σ.calls t = some c → c.op.key = k → c.op = .get k) ∧
          Maps σ.shared σ.calls (H.hash k) w ∨
        ∃ c, σ.calls o = some c ∧ c.op.key = k ∧ c.op ≠ .get k ∧
          ((∀ r, c.pc ≠ .ret r) ∧ Maps σ.shared σ.calls (H.hash k) w ∨
            c.pc = .ret w ∧ Maps σ.shared σ.calls (H.hash k) c.op.value))) ∧
      ∀ t b r, σ.calls t = some ⟨.get k, b, .ret r⟩ → Had H k t tr σ r := by
  have h : Register H o k tr σ :=
    hr.traceInvariant (fun _ _ _ _ h hl hn => h.next hl hn) (.initial n)
  refine ⟨?_, fun t b r hc => (h.reads t _ hc rfl).1 r rfl⟩
  obtain ⟨w, hw, hstage⟩ := h.written
  refine ⟨w, hw, ?_⟩
  cases hstage with
  | reading hread => exact .inl ⟨hread.leave, hread.maps⟩
  | writing op hk hget hwrite =>
    subst hk
    obtain ⟨c, hc, rfl, hstage⟩ := hwrite.stage
    exact .inr ⟨c, hc, rfl, hget _, hstage.imp_left fun hp => ⟨hp.unreturned, hp.maps⟩⟩

end Register

/-! ## A run with two migrations -/

section Examples

/-- Thread 1 looks the first key up. It has found the first table when thread 0 puts another
    value, and the value before is moved from under the put. Both start again in the third
    table. -/
theorem register_chain : ∃ (σ : State (Fin 11) (Fin 11))
    (tr : List (State (Fin 11) (Fin 11) × Label (Fin 11) (Fin 11))) (b : Bool),
    σ.shared.current = 2 ∧ σ.calls 1 = some ⟨.get 0, b, .ret twoValue.ptr⟩ ∧
      (∃ w, Writes (writes 0 σ.history) w) ∧ Had chainHasher 0 1 tr σ twoValue.ptr := by
  have hrun : ((State.new 0).exec chainHasher false (Tended (0 : Fin 11) (0 : Fin 11))
      (fillReturns ++ [callSteps 1 (.get 0) 1, callSteps 0 (.put 0 twoValue) 2] ++
        callParts 10 (.put 10 oneValue) 46 ++
        [.step 10 :: List.replicate 7 (.step 0), List.replicate 6 (.step 1)])).any (fun σ =>
          decide (σ.shared.current = 2 ∧
            ∃ c ∈ σ.calls 1, c.op = .get 0 ∧ c.pc = .ret twoValue.ptr)) = true := by
    decide +kernel
  obtain ⟨tr, σ, hr, hp⟩ := exists_run_of_parts hrun
  obtain ⟨hcur, ⟨op, b, pc⟩, hc, rfl, rfl⟩ := of_decide_eq_true hp
  obtain ⟨⟨w, hw, -⟩, hread⟩ := register_of_run hr
  exact ⟨σ, tr, b, hcur, hc, ⟨w, hw⟩, hread 1 b _ hc⟩

end Examples

end FkProf.ConcurrentMap
