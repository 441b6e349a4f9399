import FkProf.ConcurrentMap.Writers

/-!
# A key with one writer

The clients of the map put and remove the entry of a thread from that thread
alone (`thread_map.h:101-126`), while all of them may look it up. A call that is
the only one to insert a hash into a table walks along the whole chain of it, and
no cell of the hash appears behind it: it allocates no second one. So whatever the
other threads do with the other keys, `Custody` holds of the key, which otherwise
is a condition on the run.

* `Owns`: the steps by which nobody else writes to the key;
* `InsertPc.Passed`: how far a call has come without passing a cell of its hash;
* `Owned.next`: every such step that is on time keeps the invariant;
* `owner_unique`: no table has two cells for the key, and its value is in one place.
-/

namespace FkProf.ConcurrentMap

variable {Tid Key : Type*}

/-- The steps by which no other thread calls `put` or `remove` for the key. -/
def Owns (o : Tid) (k : Key) : Label Tid Key → Prop
  | .call u op => op.key = k → op = .get k ∨ u = o
  | .step _ => True

instance [DecidableEq Tid] [DecidableEq Key] (o : Tid) (k : Key) (l : Label Tid Key) :
    Decidable (Owns o k l) :=
  match l with
  | .call u op => inferInstanceAs (Decidable (op.key = k → op = .get k ∨ u = o))
  | .step _ => .isTrue trivial

/-! ## Inserting a hash alone -/

section Passing

variable {T T' : HashTable Tid} {h : HashType} {pc pc' : InsertPc} {v : ValueType}

/-- The call has passed no cell of its hash, and where it searches for a free one, there is
    none of its hash. -/
def InsertPc.Passed (T : HashTable Tid) (h : HashType) : InsertPc → Prop
  | .walk i _ delta => Walked T h i ∧ (delta = 0 ∨ T.hash i ≠ h)
  | .next i _ | .lock i _ | .wait i _ => Walked T h i ∧ T.hash i ≠ h
  | .probe .. | .reserve .. | .allocate .. | .refund .. => ∀ n, T.hash n ≠ h
  | _ => True

/-- Where no cell gets the hash, the call has still passed none. -/
theorem InsertPc.Passed.mono (hp : pc.Passed T h) (e : Extends T T')
    (hn : ∀ i, T.hash i ≠ h → T'.hash i ≠ h) : pc.Passed T' h := by
  cases pc with
  | walk i jumps delta => exact ⟨e.walked hp.1, hp.2.imp_right (hn i)⟩
  | next i | lock i | wait i => exact ⟨e.walked hp.1, hn i hp.2⟩
  | probe | reserve | allocate | refund => exact fun n => hn n (hp n)
  | updateLoad | updateCas | refuse | link | setLoad | setCas | unlock => trivial

/-- The end of the chain has been locked: nothing of the hash lies beyond it. -/
theorem Walked.none_of_last {i : ℕ} (hw : Walked T h i) (hi : T.hash i ≠ h) (hl : Last T i)
    (hlt : ∀ n, T.hash n = h → OnChain T h n) (n : ℕ) : T.hash n ≠ h := by
  intro hn
  rcases Relation.ReflTransGen.cases_head (hw.reach (hlt n hn) hn) with rfl | ⟨d, hd, -⟩
  · exact hi hn
  · exact hl.not_link hd

/-- A step of a call that is alone with its hash. -/
theorem InsertPc.Passed.step {calls : Tid → Option Insert} (hp : pc.Passed T h) (hok : pc.Ok T h)
    (hI : ChainInv T calls) (hchain : pc.linking? T = none → ∀ n, T.hash n = h → OnChain T h n)
    (hs : (insertOrUpdateStep T h v pc).2 = .goto pc') :
    pc'.Passed (insertOrUpdateStep T h v pc).1 h := by
  have hnext : ∀ {X : HashTable Tid} {i d}, (∀ n, X.hash n ≠ h) → (searchNext i d).Passed X h :=
    fun {X i d} hn => by
      rw [searchNext]
      split_ifs
      · exact hn
      · trivial
  cases pc <;> simp only [insertOrUpdateStep] at hs ⊢
  case walk i jumps delta =>
    split_ifs at hs ⊢ with hj ht <;> cases hs
    · trivial
    · refine ⟨?_, ht⟩
      rcases hok.2 with rfl | ⟨-, hl⟩
      · rw [T.index_zero hok.1.lt]
        exact hp.1
      · rcases hp.2 with rfl | hi
        · rw [T.index_zero hok.1.lt]
          exact hp.1
        · exact hp.1.step hl (hI.links _ _ hl).1 hi
  case next i jumps =>
    split_ifs at hs ⊢ <;> cases hs
    · exact ⟨hp.1, .inr hp.2⟩
    · exact hp
  case lock i jumps =>
    split_ifs at hs ⊢ with hd <;> cases hs
    · intro n
      rw [HashTable.setDelta_hash]
      exact hp.1.none_of_last hp.2 (.inl hd) (hchain rfl) n
    · exact hp
  case wait i jumps =>
    split_ifs at hs ⊢ <;> cases hs
    · exact hp
    · exact ⟨hp.1, .inl rfl⟩
  case probe i d =>
    split_ifs at hs ⊢ <;> cases hs
    · exact hp
    · trivial
    · exact hnext hp
  case reserve i d =>
    cases hs
    split_ifs
    · trivial
    · exact hp
  case allocate i d =>
    split_ifs at hs ⊢ <;> cases hs
    · trivial
    · exact hp
  case refund i d b =>
    cases hs
    split_ifs
    · trivial
    · exact hnext hp
  case updateLoad | setLoad =>
    split_ifs at hs ⊢
    cases hs
    trivial
  case updateCas | setCas => split_ifs at hs
  case refuse | link =>
    cases hs
    trivial
  case unlock => cases hs

end Passing

/-! ## The only calls that insert a hash -/

section Inserting

variable {H : Hasher Key} {signalSafeReaders : Bool} {S S' : Shared Tid} {c c' d : Call Key}
  {t u o : Tid} {T : TableId} {h : HashType} {f g : Insert} {calls : Tid → Option (Call Key)}

/-- Who inserts into a table: a client, or a thread that moves its values there. -/
theorem Call.insertAt_cases (hf : c.insertAt H S T = some f) :
    c.pc = .insert T f.pc ∧ f.hash = H.hash c.op.key ∨
      ∃ root j s U i last, c.pc = .migrate root j s U i last (.insert f.hash f.value f.pc) ∧
        (S.jobs j).dest = T := by
  obtain ⟨op, doubleSize, pc⟩ := c
  cases pc with
  | insert root pc =>
    simp only [insertAt, Option.ite_none_right_eq_some, Option.some.injEq] at hf
    obtain ⟨rfl, rfl⟩ := hf
    exact .inl ⟨rfl, rfl⟩
  | migrate root j s U i last pc =>
    cases pc with
    | insert g v pc =>
      simp only [insertAt, Option.ite_none_right_eq_some, Option.some.injEq] at hf
      obtain ⟨hT, rfl⟩ := hf
      exact .inr ⟨root, j, s, U, i, last, rfl, hT⟩
    | _ => simp [insertAt] at hf
  | _ => simp [insertAt] at hf

/-- A call that is about to allocate a cell inserts there. -/
theorem Call.insertAt_of_allocation {x : TableId × HashType × ℕ} (hx : x ∈ c.allocation? H S) :
    ∃ f, c.insertAt H S x.1 = some f ∧ f.hash = x.2.1 ∧
      f.pc.allocate? (S.tables x.1) = some x.2.2 := by
  obtain ⟨op, doubleSize, pc⟩ := c
  cases pc with
  | insert root pc =>
    obtain ⟨n, hn, rfl⟩ := Option.map_eq_some_iff.1 hx
    exact ⟨⟨H.hash op.key, op.value, pc⟩, if_pos rfl, rfl, hn⟩
  | migrate root j s U i last pc =>
    cases pc with
    | insert g v pc =>
      obtain ⟨n, hn, rfl⟩ := Option.map_eq_some_iff.1 hx
      exact ⟨⟨g, v, pc⟩, if_pos rfl, rfl, hn⟩
    | _ => cases hx
  | _ => cases hx

/-- The calls that insert the hash have passed no cell of it. -/
def Unpassed (H : Hasher Key) (S : Shared Tid) (calls : Tid → Option (Call Key)) (h : HashType) :
    Prop :=
  ∀ T t c f, calls t = some c → c.insertAt H S T = some f → f.hash = h →
    f.pc.Passed (S.tables T) h

/-- Such a call allocates no second cell to the hash. -/
theorem Unpassed.once (hL : Unpassed H S calls h) (ht : calls t = some c) : c.Once H (· = h) S := by
  intro x hx hq _ n _
  obtain ⟨f, hf, hfx, ha⟩ := Call.insertAt_of_allocation hx
  have hp := hL x.1 t c f ht hf (hfx.trans hq)
  obtain ⟨i, e, hpc⟩ : ∃ i e, f.pc = .allocate i e := by
    cases hpc : f.pc <;> simp only [hpc, InsertPc.allocate?, reduceCtorEq] at ha
    exact ⟨_, _, rfl⟩
  rw [hpc] at hp
  rw [hq]
  exact hp n

variable [Fintype Tid]

/-- One call at a time inserts the hash into a table, when one thread at most puts the key. -/
theorem Custody.inserter_eq (hC : Custody S calls h) (hcells : Cells H S calls)
    (hco : Coordination S.outline (pcsOf calls))
    (hown : ∀ t c, calls t = some c → H.hash c.op.key = h → c.IsPut → t = o)
    (ht : calls t = some c) (hu : calls u = some d) (hf : c.insertAt H S T = some f)
    (hg : d.insertAt H S T = some g) (hfh : f.hash = h) (hgh : g.hash = h) : t = u := by
  -- A client inserts into a table in use, a mover into one that is not published yet.
  have hmixed : ∀ {t u : Tid} {c d : Call Key} {f g : Insert}, calls t = some c →
      calls u = some d → c.pc = .insert T f.pc →
      ∀ {root j s U i last}, d.pc = .migrate root j s U i last (.insert g.hash g.value g.pc) →
      (S.jobs j).dest ≠ T := fun {t u c d f g} ht hu hc root j s U i last hd hT => by
    have hok := hco.ok t c.pc (pcsOf_eq ht rfl)
    rw [hc] at hok
    exact (hco.moving (pcsOf_eq hu hd)).isOpen.2 (hT ▸ hok)
  have hclient : ∀ {t : Tid} {c : Call Key} {f : Insert}, calls t = some c →
      c.pc = .insert T f.pc → f.hash = H.hash c.op.key → f.hash = h → t = o :=
    fun {t c f} ht hc hk hfh => hown t c ht (hk ▸ hfh) ((hcells.knows t c ht).put hc)
  rcases Call.insertAt_cases hf with ⟨hc, hk⟩ | ⟨r, j, s, U, i, last, hc, hT⟩ <;>
    rcases Call.insertAt_cases hg with ⟨hd, hk'⟩ | ⟨r', j', s', U', i', last', hd, hT'⟩
  · exact (hclient ht hc hk hfh).trans (hclient hu hd hk' hgh).symm
  · exact absurd hT' (hmixed ht hu hc hd)
  · exact absurd hT (hmixed hu ht hd hc)
  · have hheld : ∀ {t : Tid} {c : Call Key} {f : Insert}, calls t = some c → f.hash = h →
        ∀ {root j s U i last}, c.pc = .migrate root j s U i last (.insert f.hash f.value f.pc) →
        Held S calls h (.mover t) f.value := fun ht hfh _ _ _ _ _ _ hc =>
          ⟨_, ht, by rw [hc, hfh]; rfl⟩
    have hplace := (hC.sole _ _ _ _ (hheld ht hfh hc) (hheld hu hgh hd)).1
    cases hplace
    rfl

variable [DecidableEq Tid]

omit [Fintype Tid] [DecidableEq Tid] in
/-- No cell of a table gets a hash that the call does not insert there. -/
theorem TableChange.hash_ne (hchange : TableChange H S c S' T)
    (hne : ∀ f, c.insertAt H S T = some f → f.hash ≠ h) (hT : T < S.nTables) {i : ℕ}
    (hi : (S.tables T).hash i ≠ h) : (S'.tables T).hash i ≠ h := by
  cases hchange with
  | same _ ha => rwa [HashTable.hash, ha]
  | new he => exact absurd hT (by rw [he]; exact lt_irrefl _)
  | write n v _ _ he => rwa [he, HashTable.setValue_hash]
  | insert f hf he =>
    rw [he]
    rcases insertOrUpdateStep_hash (S.tables T) f.hash f.value f.pc with hsame |
      ⟨n, _, -, -, hset, -⟩
    · rwa [hsame]
    · rw [hset, Function.update_apply]
      split_ifs
      · exact hne f hf
      · exact hi

/-- A step of a call, when one thread at most puts the key of the hash. -/
theorem Unpassed.callStep (hL : Unpassed H S calls h) (hC : Custody S calls h)
    (hcells : Cells H S calls) (hco : Coordination S.outline (pcsOf calls))
    (hown : ∀ t c, calls t = some c → H.hash c.op.key = h → c.IsPut → t = o)
    (ht : calls t = some c) (hs : c.step H signalSafeReaders S t = some (S', c')) :
    Unpassed H S' (Function.update calls t (some c')) h := by
  have hchange := Call.step_table (hcells.knows t c ht) hs
  intro T u d g hd hg hgh
  rcases ThreadSum.update_eq_some_iff.1 hd with ⟨rfl, he⟩ | ⟨hne, hd⟩
  · cases he
    cases hf : c.insertAt H S T with
    | none =>
      rcases Call.step_insertAt_none (hcells.knows u c ht) hs hf with
        hnone | ⟨⟨f, hf', hpc, -⟩, hsame⟩
      · exact nomatch hnone.symm.trans hg
      · cases hf'.symm.trans hg
        rw [hpc, hgh]
        have e : Extends (S.tables T) (S'.tables T) := .of_eq hsame.1 hsame.2.1 hsame.2.2
        exact ⟨e.walked .home, .inl rfl⟩
    | some f =>
      obtain ⟨htable, hafter⟩ := Call.step_insertAt hs hf
      have hft : (calls u).bind (fun c => c.insertAt H S T) = some f := by
        rw [ht, Option.bind_some, hf]
      have hI := hcells.chain T
      rw [hafter] at hg
      cases hn : (insertOrUpdateStep (S.tables T) f.hash f.value f.pc).2 with
      | done out =>
        rw [hn] at hg
        cases hg
      | goto pc' =>
        rw [hn] at hg
        cases hg
        rw [htable]
        have hfh : f.hash = h := hgh
        subst hfh
        refine (hL T u c f ht hf rfl).step (hI.ok u f hft) hI (fun hl n hn' => ?_) hn
        -- Nobody else is about to link a cell of the hash.
        have hne := hI.hash_ne u f hft
        rcases hI.cells n (hcells.lt T n (by rw [hn']; exact hne)) (by rw [hn']; exact hne) with
          hon | ⟨w, g, hgw, hgh, hlink⟩
        · exact hn' ▸ hon
        · obtain ⟨d, hd, hg⟩ := Option.bind_eq_some_iff.1 hgw
          obtain rfl := hC.inserter_eq hcells hco hown ht hd hf hg rfl (hgh.trans hn')
          cases hft.symm.trans hgw
          exact nomatch hl.symm.trans hlink
  · rw [hco.insertAt_of_ne hs hd] at hg
    have hT : T < S.nTables := hco.insertAt_lt hd hg
    refine (hL T u d g hd hg hgh).mono (hcells.extends ht hs hT) fun i hi =>
      (hchange T).hash_ne (fun f hf hfh => hne ?_) hT hi
    exact hC.inserter_eq hcells hco hown hd ht hg hf hgh hfh

end Inserting

/-! ## Runs with one writer of the key -/

section Runs

variable [Fintype Tid] [DecidableEq Tid] {H : Hasher Key} {signalSafeReaders : Bool}
  {σ σ' : State Tid Key} {l : Label Tid Key} {t o : Tid} {k : Key}

/-- The invariant of a key that one thread writes to. -/
structure Owned (H : Hasher Key) (o : Tid) (k : Key) (σ : State Tid Key) : Prop where
  sound : Sound H σ
  custody : Custody σ.shared σ.calls (H.hash k)
  unpassed : Unpassed H σ.shared σ.calls (H.hash k)
  own : ∀ t c, σ.calls t = some c → c.op.key = k → c.op = .get k ∨ t = o

omit [DecidableEq Tid] in
theorem Owned.put_eq (h : Owned H o k σ) {c : Call Key} (ht : σ.calls t = some c)
    (hk : H.hash c.op.key = H.hash k) (hput : c.IsPut) : t = o := by
  refine (h.own t c ht (H.injective hk)).resolve_left fun hget => ?_
  obtain ⟨k', v, hput⟩ := hput
  exact nomatch hget.symm.trans hput

omit [DecidableEq Tid] in
/-- The thread allocates no second cell to the key. -/
theorem Owned.orderly (h : Owned H o k σ) (hl : OnTime σ l) : Orderly H (· = H.hash k) σ l := by
  refine ⟨hl, ?_⟩
  cases l with
  | call => trivial
  | step t => exact fun c hc => h.unpassed.once hc

/-- Every step that is on time, and by which nobody else writes to the key, keeps it. -/
theorem Owned.next (h : Owned H o k σ) (hl : OnTime σ l) (hown : Owns o k l)
    (hn : (provider Tid H signalSafeReaders).next σ l = some σ') : Owned H o k σ' := by
  have ho := h.orderly hl
  refine ⟨h.sound.next hl hn, h.custody.next h.sound hl ho.2 (H.hash_ne k) hn, ?_, ?_⟩
  · cases State.transition_of_next H signalSafeReaders hn with
    | call t op hc =>
      intro T u d f hd hf hfh
      rcases ThreadSum.update_eq_some_iff.1 hd with ⟨-, he⟩ | ⟨-, hd⟩
      · cases he
        cases hf
      · exact h.unpassed T u d f hd hf hfh
    | ret t c result hc hret =>
      intro T u d f hd hf hfh
      rcases ThreadSum.update_eq_some_iff.1 hd with ⟨-, he⟩ | ⟨-, hd⟩
      · cases he
      · exact h.unpassed T u d f hd hf hfh
    | step t c c' S' hc hs =>
      exact h.unpassed.callStep h.custody h.sound.cells h.sound.coordination
        (fun u d hd hk hput => h.put_eq hd hk hput) hc hs
  · cases State.transition_of_next H signalSafeReaders hn with
    | call t op hc =>
      intro u d hd hk
      rcases ThreadSum.update_eq_some_iff.1 hd with ⟨rfl, he⟩ | ⟨-, hd⟩
      · cases he
        exact hown hk
      · exact h.own u d hd hk
    | ret t c result hc hret =>
      intro u d hd hk
      rcases ThreadSum.update_eq_some_iff.1 hd with ⟨-, he⟩ | ⟨-, hd⟩
      · cases he
      · exact h.own u d hd hk
    | step t c c' S' hc hs =>
      intro u d hd hk
      rcases ThreadSum.update_eq_some_iff.1 hd with ⟨rfl, he⟩ | ⟨-, hd⟩
      · cases he
        rw [Call.step_op hs] at hk ⊢
        exact h.own u c hc hk
      · exact h.own u d hd hk

omit [Fintype Tid] [DecidableEq Tid] in
theorem Owned.initial [Fintype Tid] (n : BitVec 64) :
    Owned H o k (.new n : State Tid Key) where
  sound := .initial n
  custody := .initial n (H.hash_ne k)
  unpassed _ _ _ _ hc := nomatch hc
  own _ _ hc := nomatch hc

theorem Owned.of_run {n : BitVec 64} {tr : List (State Tid Key × Label Tid Key)}
    (hr : (provider Tid H signalSafeReaders).Run (fun σ l => OnTime σ l ∧ Owns o k l)
      (.new n) tr σ) : Owned H o k σ :=
  hr.invariant (fun _ _ _ h hl hn => h.next hl.1 hl.2 hn) (.initial n)

/-- In every run in which one thread alone puts and removes a key, and no step comes too late to
    a migration: no table has two cells for the key, its value is in one place, a cell or with a
    thread that moves it, and no step of any thread allocates a second cell to it. -/
theorem owner_unique {n : BitVec 64} {tr : List (State Tid Key × Label Tid Key)}
    (hr : (provider Tid H signalSafeReaders).Run (fun σ l => OnTime σ l ∧ Owns o k l)
      (.new n) tr σ) :
    (∀ T i i', (σ.shared.tables T).hash i = H.hash k → (σ.shared.tables T).hash i' = H.hash k →
        i = i') ∧
      Sole (Held σ.shared σ.calls (H.hash k)) ∧
      ∀ l, OnTime σ l → Once H (· = H.hash k) σ l := by
  have h := Owned.of_run hr
  exact ⟨h.custody.unique, h.custody.sole, fun l hl => (h.orderly hl).2⟩

end Runs

/-! ## A run with two migrations -/

section Examples

/-- Thread 0 puts the first key, and the last key is put by another thread. -/
theorem owner_unique_chain : ∃ σ : State (Fin 11) (Fin 11), σ.shared.current = 2 ∧
    (∀ T i i', (σ.shared.tables T).hash i = chainHasher.hash 0 →
      (σ.shared.tables T).hash i' = chainHasher.hash 0 → i = i') ∧
    Sole (Held σ.shared σ.calls (chainHasher.hash 0)) := by
  have hrun : ((State.new 0).exec chainHasher false
      (fun σ l => OnTime σ l ∧ Owns (0 : Fin 11) (0 : Fin 11) l)
      (fillReturns ++ callParts 10 (.put 10 oneValue) 46 ++ [[.step 10]])).any
        (fun σ => decide (σ.shared.current = 2)) = true := by decide +kernel
  obtain ⟨tr, σ, hr, hcur⟩ := exists_run_of_parts hrun
  obtain ⟨hunique, hsole, -⟩ := owner_unique hr
  exact ⟨σ, of_decide_eq_true hcur, hunique, hsole⟩

end Examples

end FkProf.ConcurrentMap
