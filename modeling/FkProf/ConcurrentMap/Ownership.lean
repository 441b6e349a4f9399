import FkProf.ConcurrentMap.Attended

/-!
# Who owns a value

A value that is put belongs to the map, until a `put` or a `remove` returns it and its
caller releases it. A `put` whose exchange fails because another client has written to the
key pretends that its value was overwritten: it returns the value of the other, which
stays in the map, and its own is lost.

* `ledger`: the calls that have come to their result, returned or not;
* `Balanced`: a value has been put as often as it has been returned and is in the map;
* `ownership_conserved`: so it is returned once or in the map, as long as no `put` gives up;
* `exists_returned_in_map`: two puts of a key, one of which gives up.
-/

namespace FkProf.ConcurrentMap

variable {Tid Key : Type*}

/-- The exchange of a put fails, and it gives up, lines 298-305 and 353-362. -/
def Call.givesUp (S : Shared Tid) (c : Call Key) : Bool :=
  match c.pc with
  | .insert root (.updateCas i old) => (S.tables root).value i ≠ old
  | .insert root (.setCas i old) =>
    (S.tables root).value i ≠ old ∧ (S.tables root).value i ≠ mapValMove
  | _ => false

/-- The steps by which no put gives up. -/
def Persists (σ : State Tid Key) : Label Tid Key → Prop
  | .step t => ∀ c ∈ σ.calls t, c.givesUp σ.shared = false
  | .call .. => True

instance (σ : State Tid Key) (l : Label Tid Key) : Decidable (Persists σ l) :=
  match l with
  | .step t => inferInstanceAs (Decidable (∀ c ∈ σ.calls t, c.givesUp σ.shared = false))
  | .call .. => .isTrue trivial

/-! ## Calls and their results -/

/-- The call puts the value. -/
def Puts (x : ValueType) (e : Op Key × ValueType) : Bool := e.1.value = x

/-- The call hands the value over to its caller: a `get` does not. -/
def Returns (x : ValueType) (e : Op Key × ValueType) : Bool :=
  e.2 = x && match e.1 with
    | .get _ => false
    | _ => true

/-- The result of a call that has one. -/
def Call.result? (c : Call Key) : Option (Op Key × ValueType) :=
  match c.pc with
  | .ret r => some (c.op, r)
  | _ => none

/-- There are no more keys than hashes. -/
theorem Hasher.finite (H : Hasher Key) : Finite Key :=
  Finite.of_injective (fun k => (H.hash k).toFin) fun _ _ he =>
    H.injective (BitVec.eq_of_toFin_eq he)

section Ledger

variable [Fintype Tid] [DecidableEq Tid] {H : Hasher Key} {signalSafeReaders : Bool}
  {σ σ' : State Tid Key} {l : Label Tid Key} {t : Tid} {c c' : Call Key} {S S' : Shared Tid}
  {calls : Tid → Option (Call Key)} {p : Op Key × ValueType → Bool} {x r : ValueType}

/-- How many calls have come to such a result, whether they have returned or not. -/
def ledger (p : Op Key × ValueType → Bool) (calls : Tid → Option (Call Key))
    (history : List (Op Key × ValueType)) : ℕ :=
  history.countP p + ∑ t, (((calls t).bind Call.result?).toList.countP p)

/-- A value has been put as often as it has been returned and keys have it. -/
def Balanced (H : Hasher Key) (σ : State Tid Key) : Prop :=
  ∀ x, x ≠ mapValEmpty → ledger (Puts x) σ.calls σ.history =
    ledger (Returns x) σ.calls σ.history + {k | Maps σ.shared σ.calls (H.hash k) x}.ncard

omit [Fintype Tid] [DecidableEq Tid] in
theorem Call.result?_of_step (hs : c.step H signalSafeReaders S t = some (S', c')) :
    c.result? = none := by
  rw [Call.result?]
  split
  · rename_i hr
    rw [Call.step, hr] at hs
    cases hs
  · rfl

variable (calls p t) in
/-- One call of the ledger changes. -/
theorem ledger_update (y : Option (Call Key)) (history : List (Op Key × ValueType)) :
    ledger p (Function.update calls t y) history + ((calls t).bind Call.result?).toList.countP p =
      ledger p calls history + (y.bind Call.result?).toList.countP p := by
  rw [ledger, ledger, add_assoc, add_assoc,
    ThreadSum.sum_update (fun d : Option (Call Key) => (d.bind Call.result?).toList.countP p)]

/-- A call that begins or goes on has no result yet. -/
theorem ledger_eq {y : Option (Call Key)} {history : List (Op Key × ValueType)}
    (hold : (calls t).bind Call.result? = none) (hy : y.bind Call.result? = none) :
    ledger p (Function.update calls t y) history = ledger p calls history := by
  have h := ledger_update t calls p y history
  rw [hold, hy] at h
  simpa using h

/-- A call comes to its result. -/
theorem ledger_result {y : Option (Call Key)} {e : Op Key × ValueType}
    {history : List (Op Key × ValueType)} (hold : (calls t).bind Call.result? = none)
    (hy : y.bind Call.result? = some e) : ledger p (Function.update calls t y) history =
      ledger p calls history + if p e then 1 else 0 := by
  have h := ledger_update t calls p y history
  rw [hold, hy] at h
  simpa [List.countP_singleton] using h

/-- A call that returns stays in the ledger. -/
theorem ledger_return {e : Op Key × ValueType} {history : List (Op Key × ValueType)}
    (hold : (calls t).bind Call.result? = some e) :
    ledger p (Function.update calls t none) (e :: history) = ledger p calls history := by
  have h := ledger_update t calls p none history
  rw [hold] at h
  simp only [Option.bind_none, Option.toList_none, List.countP_nil, Option.toList_some,
    List.countP_singleton, add_zero] at h
  rw [ledger, List.countP_cons, add_right_comm]
  exact h

omit [Fintype Tid] [DecidableEq Tid] in
/-- The keys that have the value. -/
theorem ncard_keys_eq {calls' : Tid → Option (Call Key)}
    (h : ∀ k, Maps S' calls' (H.hash k) x ↔ Maps S calls (H.hash k) x) :
    {k | Maps S' calls' (H.hash k) x}.ncard = {k | Maps S calls (H.hash k) x}.ncard :=
  congrArg Set.ncard (Set.ext h)

/-- A call that stores puts its value, and returns the one before. -/
theorem Balanced.store (h : Balanced H σ) (hsound : Sound H σ)
    (hC : ∀ k, Custody σ.shared σ.calls (H.hash k)) (hc : σ.calls t = some c)
    (hs : c.step H signalSafeReaders σ.shared t = some (S', c')) {root : TableId} {i : ℕ}
    (hcl : c.pc.client? = some (root, i, (σ.shared.tables root).value i))
    (hr : c'.pc = .ret ((σ.shared.tables root).value i)) :
    Balanced H ⟨S', Function.update σ.calls t (some c'), σ.history⟩ := by
  intro x hx
  obtain ⟨hco, hcells, hval⟩ := hsound
  set old := (σ.shared.tables root).value i with hold
  have hget : ∀ k, c.op ≠ .get k := fun k hop =>
    nomatch ((hcells.knows t c hc).not_client hop).symm.trans hcl
  obtain ⟨hbefore, hafter⟩ := (hC c.op.key).maps_store hval hcells hco hc (H.hash_ne _) hs hcl
  have hfinite : Finite Key := H.finite
  have hkeys := ThreadSum.ncard_change (P := fun k => Maps σ.shared σ.calls (H.hash k) x)
    (Q := fun k => Maps S' (Function.update σ.calls t (some c')) (H.hash k) x) c.op.key
    (p := old = x) (q := c.op.value = x) ⟨hbefore.unique, fun he => he ▸ hbefore⟩
    ⟨hafter.unique, fun he => he ▸ hafter⟩ fun k hk => by
      rcases (hC k).maps_step hval hcells hco hc (H.hash_ne _) hs with hkeep | ⟨_, _, hkey, -⟩
      · exact hkeep x
      · exact absurd (H.injective hkey).symm hk
  have hnone : (σ.calls t).bind Call.result? = none := by
    rw [hc, Option.bind_some, Call.result?_of_step hs]
  have hsome : (some c').bind Call.result? = some (c.op, old) := by
    rw [Option.bind_some, Call.result?, hr, Call.step_op hs]
  have hputs : Puts x (c.op, old) = decide (c.op.value = x) := rfl
  have hreturns : Returns x (c.op, old) = decide (old = x) := by
    unfold Returns
    cases hop : c.op with
    | get k => exact absurd hop (hget k)
    | put | remove => exact Bool.and_true _
  rw [ledger_result hnone hsome, ledger_result hnone hsome, h x hx, hputs, hreturns]
  simp only [decide_eq_true_eq]
  omega

/-- A call that stores nothing puts nothing, and returns nothing but what it has read. -/
theorem Balanced.keep (h : Balanced H σ) (hc : σ.calls t = some c)
    (hs : c.step H signalSafeReaders σ.shared t = some (S', c'))
    (hkeys : ∀ k x, Maps S' (Function.update σ.calls t (some c')) (H.hash k) x ↔
      Maps σ.shared σ.calls (H.hash k) x)
    (hr : ∀ r, c'.pc = .ret r → c.op.value = mapValEmpty ∧ (r = mapValEmpty ∨ ∃ k, c.op = .get k)) :
    Balanced H ⟨S', Function.update σ.calls t (some c'), σ.history⟩ := by
  intro x hx
  have hnone : (σ.calls t).bind Call.result? = none := by
    rw [hc, Option.bind_some, Call.result?_of_step hs]
  rw [ncard_keys_eq fun k => hkeys k x]
  by_cases hret : ∃ r, c'.pc = .ret r
  · obtain ⟨r, hret⟩ := hret
    obtain ⟨hv, hor⟩ := hr r hret
    have hsome : (some c').bind Call.result? = some (c.op, r) := by
      rw [Option.bind_some, Call.result?, hret, Call.step_op hs]
    have hputs : Puts x (c.op, r) = false := decide_eq_false fun he => hx (he.symm.trans hv)
    have hreturns : Returns x (c.op, r) = false := by
      rcases hor with rfl | ⟨k, hop⟩
      · exact Bool.and_eq_false_imp.2 fun he => absurd (of_decide_eq_true he).symm hx
      · unfold Returns
        rw [hop]
        exact Bool.and_false _
    rw [ledger_result hnone hsome, ledger_result hnone hsome, hputs, hreturns]
    exact h x hx
  · have hgo : (some c').bind Call.result? = none := by
      rw [Option.bind_some, Call.result?]
      split
      · rename_i r hpc
        exact absurd ⟨r, hpc⟩ hret
      · rfl
    rw [ledger_eq hnone hgo, ledger_eq hnone hgo]
    exact h x hx

/-- A step of a call by which no put gives up. -/
theorem Balanced.step (h : Balanced H σ) (hsound : Sound H σ)
    (hC : ∀ k, Custody σ.shared σ.calls (H.hash k)) (hc : σ.calls t = some c)
    (hs : c.step H signalSafeReaders σ.shared t = some (S', c'))
    (hp : c.givesUp σ.shared = false) :
    Balanced H ⟨S', Function.update σ.calls t (some c'), σ.history⟩ := by
  have hk := hsound.cells.knows t c hc
  -- The keys keep their values, unless the call stores its own.
  have hkeys : c.pc.client? = none ∨ (∀ r, c'.pc ≠ .ret r) → ∀ k x,
      Maps S' (Function.update σ.calls t (some c')) (H.hash k) x ↔
        Maps σ.shared σ.calls (H.hash k) x := fun hor k x => by
    rcases (hC k).maps_step hsound.values hsound.cells hsound.coordination hc (H.hash_ne _) hs with
      hkeep | ⟨_, old, -, hcl, -, -, hc'⟩
    · exact hkeep x
    · rcases hor with hn | hn
      · cases hn.symm.trans hcl
      · exact absurd (by rw [hc']; rfl) (hn old)
  have hvalue : ¬c.IsPut → c.op.value = mapValEmpty := fun hput => by
    cases hop : c.op with
    | put k v => exact absurd ⟨k, v, hop⟩ hput
    | get | remove => rfl
  cases (Call.step_course hs).2 with
  | elsewhere _ _ hn | search _ _ _ _ hn | aim _ _ _ _ _ hn =>
    exact h.keep hc hs (hkeys (.inr hn)) fun r hr => absurd hr (hn r)
  | answer r hr ha =>
    have heq : ∀ r', c'.pc = .ret r' → r' = r := fun r' hr' => by
      cases hr.symm.trans hr'
      rfl
    cases ha with
    | store root i hcl => exact h.store hsound hC hc hs hcl hr
    | read root i hpc =>
      rw [Call.Knows, hpc] at hk
      obtain ⟨⟨k, hop⟩, -⟩ := hk
      refine h.keep hc hs (hkeys (.inl (by rw [hpc]; rfl))) fun _ _ => ⟨?_, .inr ⟨k, hop⟩⟩
      rw [hop]
      rfl
    | absent root i hpc =>
      rw [Call.Knows, hpc] at hk
      exact h.keep hc hs (hkeys (.inl (by rw [hpc]; rfl))) fun r' hr' =>
        ⟨hvalue hk.1, .inl (heq r' hr')⟩
    | last root i hpc =>
      rw [Call.Knows, hpc] at hk
      exact h.keep hc hs (hkeys (.inl (by rw [hpc]; rfl))) fun r' hr' =>
        ⟨hvalue hk.1, .inl (heq r' hr')⟩
    | refused root p i old hpc hcas hne hor =>
      have hgives : c.givesUp σ.shared = true := by
        rw [Call.givesUp, hpc]
        cases p with
        | updateCas k x =>
          cases hcas
          exact decide_eq_true hne
        | setCas k x =>
          cases hcas
          exact decide_eq_true ⟨hne, hor.resolve_left InsertPc.noConfusion⟩
        | _ => cases hcas
      rw [hgives] at hp
      cases hp
    | missed root i old hpc hne =>
      -- A remove that misses the value has stored nothing.
      obtain ⟨rfl, rfl⟩ : σ.shared = S' ∧ c.goto (.ret mapValEmpty) = c' := by
        simp only [Call.step, hpc, hne, if_false, Option.some.injEq, Prod.mk.injEq] at hs
        exact hs
      refine h.keep hc hs (fun k x => maps_update (fun d hd => ?_) fun d hd => ?_) fun r' hr' => ?_
      · cases hc.symm.trans hd
        rw [hpc]
        rfl
      · cases hd
        rfl
      · cases hr'
        obtain ⟨k, hop⟩ := hk.remove hpc
        refine ⟨?_, .inl rfl⟩
        rw [hop]
        rfl

theorem Balanced.next (h : Balanced H σ) (hsound : Sound H σ)
    (hC : ∀ k, Custody σ.shared σ.calls (H.hash k)) (hp : Persists σ l)
    (hn : (provider Tid H signalSafeReaders).next σ l = some σ') : Balanced H σ' := by
  cases State.transition_of_next H signalSafeReaders hn with
  | call t op hc =>
    intro x hx
    have hnone : (σ.calls t).bind Call.result? = none := by rw [hc]; rfl
    rw [ledger_eq hnone rfl, ledger_eq hnone rfl, h x hx]
    refine congrArg _ (ncard_keys_eq fun k => maps_update (fun d hd => ?_) fun d hd => ?_).symm
    · exact nomatch hc.symm.trans hd
    · cases hd
      rfl
  | ret t c result hc hret =>
    intro x hx
    have hsome : (σ.calls t).bind Call.result? = some (c.op, result) := by
      rw [hc, Option.bind_some, Call.result?, hret]
    rw [ledger_return hsome, ledger_return hsome, h x hx]
    refine congrArg _ (ncard_keys_eq fun k => maps_update (fun d hd => ?_) fun d hd => ?_).symm
    · cases hc.symm.trans hd
      rw [hret]
      rfl
    · cases hd
  | step t c c' S' hc hs => exact h.step hsound hC hc hs (hp c hc)

omit [DecidableEq Tid] in
/-- When no call is in progress, all of them have returned. -/
theorem ledger_idle (hidle : ∀ t, calls t = none) (history : List (Op Key × ValueType)) :
    ledger p calls history = history.countP p := by
  rw [ledger, Nat.add_eq_left]
  exact ThreadSum.sum_eq_zero_iff.2 fun t => by rw [hidle t]; rfl

/-- A value that has been put once. -/
theorem countP_puts {history : List (Op Key × ValueType)} {e : Op Key × ValueType}
    (hdistinct : ((history.map fun e => e.1.value).filter (· ≠ mapValEmpty)).Nodup)
    (he : e ∈ history) (hx : e.1.value ≠ mapValEmpty) : history.countP (Puts e.1.value) = 1 := by
  have hmem : e.1.value ∈ (history.map fun e => e.1.value).filter (· ≠ mapValEmpty) :=
    List.mem_filter.2 ⟨List.mem_map_of_mem he, decide_eq_true hx⟩
  have hone := List.count_eq_one_of_mem hdistinct hmem
  rw [List.count_filter (p := fun x => decide (x ≠ mapValEmpty)) (decide_eq_true hx), List.count,
    List.countP_map] at hone
  refine (List.countP_congr fun d _ => ?_).trans hone
  rw [Puts, decide_eq_true_eq, Function.comp_apply, beq_iff_eq]

/-- The current table has the value, in the cell of a key. -/
def InMap (H : Hasher Key) (S : Shared Tid) (v : ValueType) : Prop :=
  ∃ k i, (S.tables S.current).hash i = H.hash k ∧ (S.tables S.current).value i = v

omit [DecidableEq Tid] in
theorem Custody.inMap_iff (hC : ∀ k, Custody σ.shared σ.calls (H.hash k)) (hs : Sound H σ)
    (hnull : σ.shared.outline.coordinator σ.shared.latest = .null) (v : Value) :
    InMap H σ.shared v.ptr ↔ ∃ k, Maps σ.shared σ.calls (H.hash k) v.ptr := by
  have hcur : σ.shared.current = σ.shared.latest := hs.coordination.layout.current
  rw [InMap, hcur]
  refine exists_congr fun k => ⟨fun ⟨i, hi, hv⟩ => ?_, fun hm => ?_⟩
  · have hheld : Held σ.shared σ.calls (H.hash k) (.cell σ.shared.latest i) v.ptr :=
      ⟨hi, hv, v.ne_empty, v.ne_move⟩
    exact (hC k).maps_of_held hheld v.ne_empty
  · obtain ⟨p, hp⟩ := (hm v.ptr).2 ⟨rfl, v.ne_empty⟩
    obtain ⟨i, rfl⟩ := (hC k).held_latest hs.values hnull hp
    exact ⟨i, hp.1, hp.2.1⟩

/-- The invariants of such runs. -/
theorem owned_of_run {n : BitVec 64} {tr : List (State Tid Key × Label Tid Key)}
    (hr : (provider Tid H signalSafeReaders).Run
      (fun σ l => Orderly H (fun _ => True) σ l ∧ Persists σ l) (.new n) tr σ) :
    Sound H σ ∧ (∀ k, Custody σ.shared σ.calls (H.hash k)) ∧
      Attended σ.shared.outline σ.calls ∧ Balanced H σ := by
  refine hr.invariant (I := fun σ => Sound H σ ∧ (∀ k, Custody σ.shared σ.calls (H.hash k)) ∧
    Attended σ.shared.outline σ.calls ∧ Balanced H σ) ?_ ?_
  · rintro a l b ⟨hs, hC, hatt, hb⟩ ⟨ho, hp⟩ hn
    exact ⟨hs.next ho.1 hn, fun k => (hC k).next hs ho.1 ho.2.of_true (H.hash_ne k) hn,
      hatt.next hs hn, hb.next hs hC hp hn⟩
  · refine ⟨.initial n, fun k => .initial n (H.hash_ne k), .initial n, fun x hx => ?_⟩
    have hempty : {k | Maps (State.new n : State Tid Key).shared (State.new n : State Tid Key).calls
        (H.hash k) x} = ∅ := Set.eq_empty_of_forall_notMem fun k hm => by
      obtain ⟨p, hp⟩ := (hm x).2 ⟨rfl, hx⟩
      exact not_held_new n (H.hash_ne k) p x hp
    have hidle : ∀ t, (State.new n : State Tid Key).calls t = none := fun _ => rfl
    rw [ledger_idle hidle, ledger_idle hidle, hempty, Set.ncard_empty]
    rfl

/-- In every run in which no step comes too late to a migration, none allocates a second cell
    to a hash, and no put gives up: if all values put are distinct, then in every state
    without a call in progress each of them is either in the map, and has not been returned by
    any `put` or `remove`, or has been returned by one, once, and is not in the map. -/
theorem ownership_conserved {n : BitVec 64} {k : Key} {v : Value}
    {tr : List (State Tid Key × Label Tid Key)}
    (hr : (provider Tid H signalSafeReaders).Run
      (fun σ l => Orderly H (fun _ => True) σ l ∧ Persists σ l) (.new n) tr σ)
    (hidle : ∀ t, σ.calls t = none)
    (hdistinct : ((σ.history.map fun e => e.1.value).filter (· ≠ mapValEmpty)).Nodup)
    (hput : (.put k v, r) ∈ σ.history) :
    InMap H σ.shared v.ptr ∧ σ.history.countP (Returns v.ptr) = 0 ∨
      ¬InMap H σ.shared v.ptr ∧ σ.history.countP (Returns v.ptr) = 1 := by
  obtain ⟨hs, hC, hatt, hb⟩ := owned_of_run hr
  have hput₁ : σ.history.countP (Puts v.ptr) = 1 := countP_puts hdistinct hput v.ne_empty
  have hbal := hb v.ptr v.ne_empty
  rw [ledger_idle hidle, ledger_idle hidle, hput₁] at hbal
  have hfinite : Finite Key := H.finite
  rw [Custody.inMap_iff hC hs (hatt.idle hidle)]
  by_cases hm : ∃ k, Maps σ.shared σ.calls (H.hash k) v.ptr
  · have hpos : 0 < {k | Maps σ.shared σ.calls (H.hash k) v.ptr}.ncard :=
      (Set.ncard_pos (Set.toFinite _)).2 hm
    exact .inl ⟨hm, by omega⟩
  · have hzero : {k | Maps σ.shared σ.calls (H.hash k) v.ptr}.ncard = 0 :=
      (Set.ncard_eq_zero (Set.toFinite _)).2 (Set.eq_empty_of_forall_notMem fun k hk => hm ⟨k, hk⟩)
    exact .inr ⟨hm, by omega⟩

end Ledger

section Examples

def threeValue : Value := ⟨3, by decide, by decide⟩

/-- The first key is put, put again while another key is put, and removed. -/
def handOver : List (List (Label (Fin 11) (Fin 11))) :=
  [callSteps 0 (.put 0 oneValue) 11, callSteps 1 (.put 0 twoValue) 3,
    callSteps 2 (.put 1 threeValue) 12, [.step 1, .step 1], callSteps 0 (.remove 0) 5]

theorem ownership_conserved_removed : ∃ σ : State (Fin 11) (Fin 11),
    (InMap chainHasher σ.shared twoValue.ptr ∧ σ.history.countP (Returns twoValue.ptr) = 0 ∨
      ¬InMap chainHasher σ.shared twoValue.ptr ∧ σ.history.countP (Returns twoValue.ptr) = 1) ∧
      σ.history.countP (Returns twoValue.ptr) = 1 := by
  have hrun : ((State.new 0).exec chainHasher false
      (fun σ l => Orderly chainHasher (fun _ => True) σ l ∧ Persists σ l) handOver).any (fun σ =>
        decide ((∀ t, (σ.calls t).isNone) ∧
          ((σ.history.map fun e => e.1.value).filter (· ≠ mapValEmpty)).Nodup ∧
          (.put 0 twoValue, oneValue.ptr) ∈ σ.history ∧
          σ.history.countP (Returns twoValue.ptr) = 1)) = true := by decide +kernel
  obtain ⟨tr, σ, hr, hp⟩ := exists_run_of_parts hrun
  obtain ⟨hnone, hdistinct, hput, hcount⟩ := of_decide_eq_true hp
  exact ⟨σ, ownership_conserved hr (fun t => Option.isNone_iff_eq_none.1 (hnone t)) hdistinct hput,
    hcount⟩

/-- Two threads are about to exchange the value of the first key. -/
def overwrite : List (List (Label (Fin 11) (Fin 11))) :=
  [callSteps 0 (.put 0 oneValue) 11, callSteps 0 (.put 0 twoValue) 3,
    callSteps 1 (.put 0 threeValue) 5, [.step 0, .step 0]]

/-- Two threads exchange the value of the first key. The one that comes too late returns the
    value of the other, which stays in the map, and loses its own. -/
theorem exists_returned_in_map : ∃ (σ : State (Fin 11) (Fin 11))
    (tr : List (State (Fin 11) (Fin 11) × Label (Fin 11) (Fin 11))),
    (provider (Fin 11) chainHasher false).Run (Orderly chainHasher fun _ => True) (.new 0) tr σ ∧
      (∀ t, σ.calls t = none) ∧
      ((σ.history.map fun e => e.1.value).filter (· ≠ mapValEmpty)).Nodup ∧
      (.put 0 threeValue, oneValue.ptr) ∈ σ.history ∧ (.put 0 twoValue, threeValue.ptr) ∈ σ.history ∧
      (InMap chainHasher σ.shared threeValue.ptr ∧
        σ.history.countP (Returns threeValue.ptr) = 1) ∧
      ¬InMap chainHasher σ.shared twoValue.ptr ∧ σ.history.countP (Returns twoValue.ptr) = 0 := by
  have hrun : ((State.new 0).exec chainHasher false (Orderly chainHasher fun _ => True)
      overwrite).any (fun σ =>
        decide ((∀ t, (σ.calls t).isNone) ∧
          ((σ.history.map fun e => e.1.value).filter (· ≠ mapValEmpty)).Nodup ∧
          (.put 0 threeValue, oneValue.ptr) ∈ σ.history ∧
          (.put 0 twoValue, threeValue.ptr) ∈ σ.history ∧
          σ.history.countP (Returns threeValue.ptr) = 1 ∧
          σ.history.countP (Returns twoValue.ptr) = 0 ∧
          (σ.shared.tables σ.shared.current).hash 0 = chainHasher.hash 0 ∧
          (σ.shared.tables σ.shared.current).value 0 = threeValue.ptr ∧
          ∀ i < (σ.shared.tables σ.shared.current).size,
            (σ.shared.tables σ.shared.current).value i ≠ twoValue.ptr)) = true := by decide +kernel
  obtain ⟨tr, σ, hr, hp⟩ := exists_run_of_parts hrun
  obtain ⟨hnone, hdistinct, hput, hput', hcount, hcount', hhash, hval, hno⟩ := of_decide_eq_true hp
  refine ⟨σ, tr, hr, fun t => Option.isNone_iff_eq_none.1 (hnone t), hdistinct, hput, hput',
    ⟨⟨0, 0, hhash, hval⟩, hcount⟩, ?_, hcount'⟩
  rintro ⟨k, i, hi, hv⟩
  have hcells : Cells chainHasher σ.shared σ.calls :=
    (hr.invariant (I := Sound chainHasher) (fun _ _ _ h ho hn => h.next ho.1 hn)
      (.initial 0)).cells
  exact hno i (hcells.lt _ i (by rw [hi]; exact chainHasher.hash_ne k)) hv

end Examples

end FkProf.ConcurrentMap
