import FkProf.ConcurrentMap.Accounting

/-!
# The order of the cells of a chain

Chains of different hashes run into one another, but a cell is linked by the call
that has allocated it, to a cell that was allocated before: so links follow the
order of allocation, which the table does not record (`LinkOrder`), and a reader
comes to an end. A hash has one cell, unless a call allocates one although another
call has meanwhile allocated a cell to the hash, behind its back (`Doubles`).

* `LinkOrder.step`: every step keeps some order;
* `LinkOrder.exists_lookup`: a reader that walks alone comes to an end;
* `chains_ordered`: the structure of the chains, in every run without such a step;
* `exists_double`: a run with one.
-/

namespace FkProf.ConcurrentMap

variable {Tid : Type*}

/-- Links lead upwards, from the one cell that a cell has been linked to. -/
structure LinkOrder (T : HashTable Tid) (calls : Tid → Option Insert) (rank : ℕ → ℕ) : Prop where
  links : ∀ a b, Link T a b → rank a < rank b
  pred : ∀ a b c, Link T a c → Link T b c → a = b
  linking : ∀ t f i c, calls t = some f → f.pc.locked? = some i → f.pc.linking? T = some c →
    i ≠ c → rank i < rank c
  fresh : ∀ t f a c, calls t = some f → f.pc.linking? T = some c → ¬Link T a c
  sole : ∀ t u f g c, calls t = some f → calls u = some g → f.pc.linking? T = some c →
    g.pc.linking? T = some c → t = u

section Reader

variable {T : HashTable Tid} {calls : Tid → Option Insert} {rank : ℕ → ℕ} {h : HashType} {a b : ℕ}

theorem LinkOrder.lt_of_transGen (ho : LinkOrder T calls rank)
    (hab : Relation.TransGen (Link T) a b) : rank a < rank b := by
  induction hab with
  | single hl => exact ho.links _ _ hl
  | tail _ hl ih => exact ih.trans (ho.links _ _ hl)

/-- Following the links never leads back. -/
theorem LinkOrder.acyclic (ho : LinkOrder T calls rank) : ¬Relation.TransGen (Link T) a a :=
  fun haa => lt_irrefl _ (ho.lt_of_transGen haa)

/-- A reader that walks alone comes to an end. -/
theorem LinkOrder.exists_lookup (ho : LinkOrder T calls rank) (h : HashType) :
    ∃ w, T.Lookup h w := by
  -- The walk goes upwards, and not above the highest cell.
  have hbound : ∀ i < T.size, rank i ≤ (Finset.range T.size).sup rank := fun i hi =>
    Finset.le_sup (f := rank) (Finset.mem_range.2 hi)
  have hend : ∀ n i, (Finset.range T.size).sup rank - rank i ≤ n → Walked T h i →
      ∃ w, T.Lookup h w := by
    intro n
    induction n with
    | zero =>
      intro i hn hw
      by_cases hi : T.hash i = h
      · exact ⟨_, .found i hw hi⟩
      · by_cases hl : Last T i
        · exact ⟨_, .last i hw hi hl⟩
        · rw [Last, not_or] at hl
          have hlink : Link T i (T.index i (T.delta i)) := ⟨hl.1, hl.2, rfl⟩
          have := ho.links _ _ hlink
          have := hbound _ hlink.lt
          omega
    | succ n ih =>
      intro i hn hw
      by_cases hi : T.hash i = h
      · exact ⟨_, .found i hw hi⟩
      · by_cases he : T.hash i = mapHashEmpty
        · exact ⟨_, .absent i hw he⟩
        · by_cases hl : Last T i
          · exact ⟨_, .last i hw hi hl⟩
          · rw [Last, not_or] at hl
            have hlink : Link T i (T.index i (T.delta i)) := ⟨hl.1, hl.2, rfl⟩
            refine ih _ ?_ (hw.step hlink he hi)
            have := ho.links _ _ hlink
            omega
  exact hend _ _ le_rfl .home

end Reader

/-! ## Steps -/

/-- A cell of the neighbourhood is not the cell itself. -/
theorem HashTable.index_ne (T : HashTable Tid) {i d : ℕ} (hi : i < T.size) (hd : 0 < d)
    (hk : d < kNeighbourhood) : T.index i d ≠ i := by
  obtain ⟨k, hk5, he⟩ := T.size_eq
  have hle : 2 ^ 5 ≤ 2 ^ k := Nat.pow_le_pow_right (by omega) hk5
  have hsize : kNeighbourhood < T.size := by
    rw [size, he, kNeighbourhood]
    omega
  rw [index_eq_mod]
  rcases lt_or_ge (i + d) T.size with hlt | hge
  · rw [Nat.mod_eq_of_lt hlt]
    omega
  · rw [Nat.mod_eq_sub_mod hge, Nat.mod_eq_of_lt (by omega)]
    omega

section Step

variable {T : HashTable Tid} {calls : Tid → Option Insert} {rank : ℕ → ℕ} {h : HashType}
  {v : ValueType} {pc pc' : InsertPc} {t : Tid} {f : Insert} {a b c : ℕ}

/-- A call that has a cell to link has allocated it in this step, after the cell it has
    locked. -/
theorem insertOrUpdateStep_linking (hs : (insertOrUpdateStep T h v pc).2 = .goto pc')
    (hc : pc'.linking? T = some c) : ∃ i d, pc = .allocate i d ∧ pc' = .link i d ∧
      c = T.index i d ∧ T.hash c = mapHashEmpty ∧
      (insertOrUpdateStep T h v pc).1 = T.setHash c h := by
  cases pc <;> simp only [insertOrUpdateStep, searchNext] at hs ⊢ <;> (try split_ifs at hs ⊢) <;>
    cases hs <;> simp only [InsertPc.linking?, Option.some.injEq, reduceCtorEq] at hc
  case pos i d he =>
    subst hc
    exact ⟨i, d, rfl, rfl, rfl, he, rfl⟩

theorem InsertPc.locked_of_linking (hc : pc.linking? T = some c) : ∃ i d, pc = .link i d ∧
    c = T.index i d := by
  cases pc <;> simp only [InsertPc.linking?, Option.some.injEq, reduceCtorEq] at hc
  exact ⟨_, _, rfl, hc.symm⟩

/-- What a call is linking is allocated. -/
theorem ChainInv.hash_linking (hI : ChainInv T calls) (hf : calls t = some f)
    (hc : f.pc.linking? T = some c) : T.hash c = f.hash ∧ T.hash c ≠ mapHashEmpty := by
  obtain ⟨i, d, hpc, rfl⟩ := InsertPc.locked_of_linking hc
  have hok := hI.ok t f hf
  rw [hpc] at hok
  have hh : T.hash (T.index i d) = f.hash := hok.2.2.2.2
  exact ⟨hh, by rw [hh]; exact hI.hash_ne t f hf⟩

/-- The links after a step: those before it, and that of the cell that the call was
    linking. -/
theorem InsertPc.Ok.link_step (hok : pc.Ok T h)
    (hl : Link (insertOrUpdateStep T h v pc).1 a b) :
    Link T a b ∨ ∃ d, 0 < d ∧ pc = .link a d ∧ b = T.index a d := by
  have e := hok.extends v
  by_cases hd : (insertOrUpdateStep T h v pc).1.delta a = T.delta a
  · exact .inl ⟨hd ▸ hl.1, hd ▸ hl.2.1, by rw [hl.2.2, e.index, hd]⟩
  · rcases insertOrUpdateStep_delta T h v pc with he | ⟨i, d, -, hcase, he⟩
    · exact absurd (congrFun he a) hd
    · have hia : a = i := by
        by_contra hne
        exact hd (by rw [he, Function.update_of_ne hne])
      subst hia
      have hda : (insertOrUpdateStep T h v pc).1.delta a = d := by rw [he, Function.update_self]
      obtain ⟨h₀, h₁, hb⟩ := hl
      rw [hda] at h₀ h₁ hb
      rcases hcase with hd₀ | hd₁ | ⟨hpos, hp⟩
      · exact absurd hd₀ h₀
      · exact absurd hd₁ h₁
      · exact .inr ⟨d, hpos, hp, by rw [hb, e.index]⟩

variable [DecidableEq Tid]

/-- A step keeps the order, with a cell that it allocates after all others. -/
theorem LinkOrder.step (ho : LinkOrder T calls rank) (hI : ChainInv T calls)
    (hf : calls t = some f) :
    ∃ rank', LinkOrder (insertOrUpdateStep T f.hash f.value f.pc).1
      (Function.update calls t (f.after (insertOrUpdateStep T f.hash f.value f.pc).2)) rank' := by
  have hok := hI.ok t f hf
  have e := hok.extends f.value
  have hlinking : ∀ pc : InsertPc, pc.linking? (insertOrUpdateStep T f.hash f.value f.pc).1 =
      pc.linking? T := fun pc => by
    cases pc <;> simp only [InsertPc.linking?, e.index]
  have hafter : ∀ g, f.after (insertOrUpdateStep T f.hash f.value f.pc).2 = some g →
      (insertOrUpdateStep T f.hash f.value f.pc).2 = .goto g.pc := by
    intro g hg
    cases hn : (insertOrUpdateStep T f.hash f.value f.pc).2 <;>
      simp only [hn, Insert.after, Option.some.injEq, reduceCtorEq] at hg
    subst hg
    rfl
  -- The calls that link a cell: those before, and one that has allocated it in this step.
  have hold : ∀ u g c, Function.update calls t
      (f.after (insertOrUpdateStep T f.hash f.value f.pc).2) u = some g →
      g.pc.linking? (insertOrUpdateStep T f.hash f.value f.pc).1 = some c →
      (u ≠ t ∧ calls u = some g ∧ g.pc.linking? T = some c) ∨
        (u = t ∧ T.hash c = mapHashEmpty ∧ ∃ i d, f.pc = .allocate i d ∧ g.pc = .link i d ∧
          c = T.index i d) := fun u g c hg hc => by
    rw [hlinking] at hc
    rcases ThreadSum.update_eq_some_iff.1 hg with ⟨rfl, he⟩ | ⟨hu, hg⟩
    · obtain ⟨i, d, hpc, hpc', rfl, he, -⟩ := insertOrUpdateStep_linking (hafter g he) hc
      exact .inr ⟨rfl, he, i, d, hpc, hpc', rfl⟩
    · exact .inl ⟨hu, hg, hc⟩
  have hfree : ∀ {a c}, T.hash c = mapHashEmpty → ¬Link T a c ∧ ¬Link T c a := fun {a c} he =>
    ⟨fun hl => (hI.links _ _ hl).2 he, fun hl => (hI.links _ _ hl).1 he⟩
  by_cases hal : ∃ i d, f.pc = .allocate i d ∧ T.hash (T.index i d) = mapHashEmpty
  · -- The call allocates a cell: it becomes the highest.
    obtain ⟨i, d, hpc, he⟩ := hal
    have hlinks : ∀ a b, Link (insertOrUpdateStep T f.hash f.value f.pc).1 a b → Link T a b := by
      intro a b hl
      rcases hok.link_step hl with hl | ⟨_, -, hpc', -⟩
      · exact hl
      · rw [hpc] at hpc'
        cases hpc'
    refine ⟨Function.update rank (T.index i d) (rank i + 1), fun a b hl => ?_,
      fun a b c ha hb => ho.pred a b c (hlinks _ _ ha) (hlinks _ _ hb), fun u g j c hg hj hc hne => ?_,
      fun u g a c hg hc hl => ?_, fun u w g k c hg hk hc hc' => ?_⟩
    · have hl := hlinks a b hl
      rw [Function.update_of_ne fun hb => (hfree he).2 (hb ▸ hl),
        Function.update_of_ne fun hb => (hfree he).1 (hb ▸ hl)]
      exact ho.links a b hl
    · rcases hold u g c hg hc with ⟨hu, hg, hc⟩ | ⟨-, -, i', d', hpc', hgpc, rfl⟩
      · obtain ⟨i', d', hgpc, rfl⟩ := InsertPc.locked_of_linking hc
        have hok' := hI.ok u g hg
        rw [hgpc] at hok' hj
        cases hj
        -- It locks a cell that is allocated, and links another.
        have hji : j ≠ T.index i d := fun hi => by
          rcases Nat.eq_zero_or_pos d' with rfl | hpos
          · exact hne (T.index_zero hok'.1.lt).symm
          · exact hok'.2.2.2.1 hpos (hi ▸ he)
        have hci : T.index j d' ≠ T.index i d := fun hi =>
          (hI.hash_linking hg hc).2 (hi ▸ he)
        rw [Function.update_of_ne hji, Function.update_of_ne hci]
        exact ho.linking u g j _ hg (by rw [hgpc]; rfl) hc hne
      · rw [hpc] at hpc'
        cases hpc'
        rw [hgpc] at hj
        cases hj
        rw [Function.update_of_ne hne, Function.update_self]
        exact Nat.lt_succ_self _
    · rcases hold u g c hg hc with ⟨-, hg, hc⟩ | ⟨-, he', -⟩
      · exact ho.fresh u g a c hg hc (hlinks _ _ hl)
      · exact (hfree he').1 (hlinks _ _ hl)
    · rcases hold u g c hg hc with ⟨-, hg, hc⟩ | ⟨hu, he', -⟩ <;>
        rcases hold w k c hk hc' with ⟨-, hk, hc'⟩ | ⟨hw, he'', -⟩
      · exact ho.sole u w g k c hg hk hc hc'
      · exact absurd he'' (hI.hash_linking hg hc).2
      · exact absurd he' (hI.hash_linking hk hc').2
      · rw [hu, hw]
  · -- It allocates none: the order remains.
    have hold' : ∀ u g c, Function.update calls t
        (f.after (insertOrUpdateStep T f.hash f.value f.pc).2) u = some g →
        g.pc.linking? (insertOrUpdateStep T f.hash f.value f.pc).1 = some c →
        u ≠ t ∧ calls u = some g ∧ g.pc.linking? T = some c := fun u g c hg hc => by
      rcases hold u g c hg hc with h | ⟨-, he, i, d, hpc, -, rfl⟩
      · exact h
      · exact absurd ⟨i, d, hpc, he⟩ hal
    have hnew : ∀ {a d}, f.pc = .link a d → f.pc.linking? T = some (T.index a d) := fun hpc => by
      rw [hpc]
      rfl
    refine ⟨rank, fun a b hl => ?_, fun a b c ha hb => ?_, fun u g j c hg hj hc hne => ?_,
      fun u g a c hg hc hl => ?_, fun u w g k c hg hk hc hc' => ?_⟩
    · rcases hok.link_step hl with hl | ⟨d, hpos, hpc, rfl⟩
      · exact ho.links a b hl
      · refine ho.linking t f a _ hf (by rw [hpc]; rfl) (hnew hpc) (Ne.symm ?_)
        rw [hpc] at hok
        exact T.index_ne hok.1.lt hpos hok.2.2.1
    · rcases hok.link_step ha with ha | ⟨d, -, hpc, rfl⟩ <;>
        rcases hok.link_step hb with hb | ⟨d', -, hpc', hb⟩
      · exact ho.pred a b c ha hb
      · subst hb
        exact absurd ha (ho.fresh t f a _ hf (hnew hpc'))
      · exact absurd hb (ho.fresh t f b _ hf (hnew hpc))
      · rw [hpc] at hpc'
        cases hpc'
        rfl
    · obtain ⟨-, hg, hc⟩ := hold' u g c hg hc
      exact ho.linking u g j c hg hj hc hne
    · obtain ⟨hu, hg, hc⟩ := hold' u g c hg hc
      rcases hok.link_step hl with hl | ⟨d, -, hpc, rfl⟩
      · exact ho.fresh u g a c hg hc hl
      · exact hu (ho.sole u t g f _ hg hf hc (hnew hpc))
    · obtain ⟨-, hg, hc⟩ := hold' u g c hg hc
      obtain ⟨-, hk, hc'⟩ := hold' w k c hk hc'
      exact ho.sole u w g k c hg hk hc hc'

end Step

/-! ## Runs -/

section Runs

/-- The step allocates a cell to a hash that has one. -/
def InsertPc.Doubles (T : HashTable Tid) (h : HashType) : InsertPc → Prop
  | .allocate i d => T.hash (T.index i d) = mapHashEmpty ∧ ∃ n < T.size, T.hash n = h
  | _ => False

instance (T : HashTable Tid) (h : HashType) : ∀ pc : InsertPc, Decidable (pc.Doubles T h)
  | .allocate i d =>
    inferInstanceAs (Decidable (T.hash (T.index i d) = mapHashEmpty ∧ ∃ n < T.size, T.hash n = h))
  | .walk .. | .updateLoad _ | .updateCas .. | .next .. | .lock .. | .wait .. | .probe ..
  | .reserve .. | .refuse _ | .link .. | .refund .. | .setLoad _ | .setCas .. | .unlock _ =>
    .isFalse id

def Doubles (σ : TableState Tid) : TableLabel Tid → Prop
  | .step t => ∃ f ∈ σ.calls t, f.pc.Doubles σ.table f.hash
  | _ => False

/-- The steps that do not, of calls for other hashes than `mapHashEmpty`. -/
def Singles (σ : TableState Tid) (l : TableLabel Tid) : Prop := Hashed σ l ∧ ¬Doubles σ l

instance (σ : TableState Tid) : ∀ l : TableLabel Tid, Decidable (Doubles σ l)
  | .step t => inferInstanceAs (Decidable (∃ f ∈ σ.calls t, f.pc.Doubles σ.table f.hash))
  | .call .. | .store .. => .isFalse id

instance (σ : TableState Tid) (l : TableLabel Tid) : Decidable (Singles σ l) :=
  inferInstanceAs (Decidable (Hashed σ l ∧ ¬Doubles σ l))

/-- The structure of the chains. -/
structure ChainsOrdered (σ : TableState Tid) : Prop where
  unique : ∀ i < σ.table.size, ∀ j < σ.table.size, σ.table.hash i ≠ mapHashEmpty →
    σ.table.hash i = σ.table.hash j → i = j
  /-- Following the links never leads back to a cell. -/
  acyclic : ∀ i, ¬Relation.TransGen (Link σ.table) i i
  pred : ∀ a b c, Link σ.table a c → Link σ.table b c → a = b
  /-- `find` comes to an end. -/
  find : ∀ h, ∃ w, σ.table.Lookup h w
  /-- `find` comes to a cell of its hash, once the call that has allocated it has linked it. -/
  reached : ∀ c < σ.table.size, σ.table.hash c ≠ mapHashEmpty →
    (∀ t f, σ.calls t = some f → f.pc.linking? σ.table ≠ some c) →
    Walked σ.table (σ.table.hash c) c

variable [DecidableEq Tid] {σ σ' : TableState Tid} {l : TableLabel Tid}

/-- The invariant of the chains and their order. -/
structure Ordered (σ : TableState Tid) : Prop where
  chain : ChainInv σ.table σ.calls
  order : ∃ rank, LinkOrder σ.table σ.calls rank

theorem Ordered.next (h : Ordered σ) (hl : Hashed σ l)
    (hn : (tableSystem Tid).next σ l = some σ') : Ordered σ' := by
  obtain ⟨hI, rank, ho⟩ := h
  cases l <;> simp only [tableSystem, TableState.next] at hn
  case call t hash v =>
    cases hc : σ.calls t with
    | some f => simp [hc] at hn
    | none =>
      simp only [hc, Option.some.injEq] at hn
      subst hn
      have hold : ∀ u g c, Function.update σ.calls t (some ⟨hash, v, .start σ.table hash⟩) u =
          some g → g.pc.linking? σ.table = some c → σ.calls u = some g := fun u g c hg hlk => by
        rcases ThreadSum.update_eq_some_iff.1 hg with ⟨-, he⟩ | ⟨-, hg⟩
        · cases he
          cases hlk
        · exact hg
      exact ⟨hI.start hc rfl hl, rank, ho.links, ho.pred,
        fun u g i c hg hi hlk => ho.linking u g i c (hold u g c hg hlk) hi hlk,
        fun u g a c hg hlk => ho.fresh u g a c (hold u g c hg hlk) hlk,
        fun u w g k c hg hk hlk hlk' =>
          ho.sole u w g k c (hold u g c hg hlk) (hold w k c hk hlk') hlk hlk'⟩
  case step t =>
    obtain ⟨f, hf, rfl⟩ := Option.map_eq_some_iff.1 hn
    exact ⟨hI.step hf, ho.step hI hf⟩
  case store i v =>
    cases hn
    have hlink : ∀ {a b}, Link (σ.table.setValue i v) a b → Link σ.table a b := fun hl => by
      simpa [Link] using hl
    have hlinking : ∀ pc : InsertPc, pc.linking? (σ.table.setValue i v) = pc.linking? σ.table :=
      fun pc => by cases pc <;> rfl
    refine ⟨hI.of_eq rfl (HashTable.setValue_hash ..) (HashTable.setValue_delta ..), rank,
      fun a b hl => ho.links a b (hlink hl), fun a b c ha hb => ho.pred a b c (hlink ha) (hlink hb),
      fun u g i c hg hi hlk => ?_, fun u g a c hg hlk hl => ?_, fun u w g k c hg hk hlk hlk' => ?_⟩
    · rw [hlinking] at hlk
      exact ho.linking u g i c hg hi hlk
    · rw [hlinking] at hlk
      exact ho.fresh u g a c hg hlk (hlink hl)
    · rw [hlinking] at hlk hlk'
      exact ho.sole u w g k c hg hk hlk hlk'

omit [DecidableEq Tid] in
theorem Ordered.initial (n : BitVec 64) : Ordered (⟨.new n, fun _ => none⟩ : TableState Tid) := by
  refine ⟨.of_free (fun _ => rfl) (fun _ => rfl) fun _ => rfl, 0, fun a b hl => ?_,
    fun a b c hl => ?_, nofun, nofun, nofun⟩
  · exact absurd rfl hl.1
  · exact absurd rfl hl.1

/-- A hash has one cell. -/
def OneCell (T : HashTable Tid) : Prop :=
  ∀ i < T.size, ∀ j < T.size, T.hash i ≠ mapHashEmpty → T.hash i = T.hash j → i = j

theorem OneCell.next (h : OneCell σ.table) (hl : Singles σ l)
    (hn : (tableSystem Tid).next σ l = some σ') : OneCell σ'.table := by
  cases l <;> simp only [tableSystem, TableState.next] at hn
  case call t hash v =>
    cases hc : σ.calls t with
    | some f => simp [hc] at hn
    | none =>
      simp only [hc, Option.some.injEq] at hn
      subst hn
      exact h
  case step t =>
    obtain ⟨⟨hash, v, pc⟩, hf, rfl⟩ := Option.map_eq_some_iff.1 hn
    intro i hi j hj
    simp only [insertOrUpdateStep_size] at hi hj ⊢
    rcases insertOrUpdateStep_hash σ.table hash v pc with he | ⟨c, pc', hal, hc, he, -⟩
    · rw [he]
      exact h i hi j hj
    · -- No other cell has the hash.
      have hother : ∀ n < σ.table.size, σ.table.hash n ≠ hash := fun n hlt hh => by
        refine hl.2 ⟨_, hf, ?_⟩
        cases pc <;> simp only [InsertPc.allocate?, Option.some.injEq, reduceCtorEq] at hal
        subst hal
        exact ⟨hc, n, hlt, hh⟩
      rw [he]
      by_cases hic : i = c <;> by_cases hjc : j = c
      · exact fun _ _ => hic.trans hjc.symm
      · rw [hic, Function.update_self, Function.update_of_ne hjc]
        exact fun _ hh => absurd hh.symm (hother j hj)
      · rw [hjc, Function.update_self, Function.update_of_ne hic]
        exact fun _ hh => absurd hh (hother i hi)
      · rw [Function.update_of_ne hic, Function.update_of_ne hjc]
        exact h i hi j hj
  case store i v =>
    cases hn
    intro a ha b hb
    rw [HashTable.setValue_hash]
    exact h a ha b hb

omit [DecidableEq Tid] in
/-- A reader comes to the cells that are linked. -/
theorem ChainInv.walked {T : HashTable Tid} {calls : Tid → Option Insert}
    (hI : ChainInv T calls) (hone : OneCell T) {c : ℕ} (hc : c < T.size)
    (hne : T.hash c ≠ mapHashEmpty)
    (hlinked : ∀ t f, calls t = some f → f.pc.linking? T ≠ some c) : Walked T (T.hash c) c := by
  have hon := (hI.cells c hc hne).resolve_right fun ⟨t, f, hf, _, hl⟩ => hlinked t f hf hl
  obtain ⟨m, hw, hm⟩ := hon.exists_walked hI rfl
  have hcm : c = m := hone c hc m hw.onChain.lt hne hm.symm
  subst hcm
  exact hw

/-- In every run of calls for hashes other than `mapHashEmpty`, none of which allocates a
    cell to a hash that has one, the chains are in order: a hash has one cell, links lead
    to no cell twice and to none from two sides, `find` ends, and it finds the cells that
    are linked. -/
theorem chains_ordered {n : BitVec 64} {tr : List (TableState Tid × TableLabel Tid)}
    (hr : (tableSystem Tid).Run Singles ⟨.new n, fun _ => none⟩ tr σ) : ChainsOrdered σ := by
  obtain ⟨hI, rank, ho⟩ := hr.invariant (fun _ _ _ h hl hn => h.next hl.1 hn) (Ordered.initial n)
  have hone : OneCell σ.table := by
    refine hr.invariant (I := fun σ => OneCell σ.table) (fun _ _ _ h hl hn => h.next hl hn) ?_
    exact fun i _ j _ hne => absurd rfl hne
  exact ⟨hone, fun i => ho.acyclic, ho.pred, ho.exists_lookup,
    fun c hc hne hlinked => hI.walked hone hc hne hlinked⟩

/-- A chain of two cells. -/
theorem chains_ordered_pair : ∃ σ : TableState (Fin 2), σ.table.hash 1 = 32 ∧
    ChainsOrdered σ := by
  have hrun : (((tableSystem (Fin 2)).exec Singles ⟨.new 0, fun _ => none⟩
      (.call 0 0 1 :: List.replicate 9 (.step 0) ++
        .call 1 32 1 :: List.replicate 8 (.step 1))).any fun σ =>
          decide (σ.table.hash 1 = 32)) = true := by decide +kernel
  simp only [Option.any_eq_true, decide_eq_true_eq] at hrun
  obtain ⟨σ, hex, hh⟩ := hrun
  obtain ⟨tr, hr, -⟩ := System.run_of_exec hex
  exact ⟨σ, hh, chains_ordered hr⟩

/-- Thread 0 has found the first cell free when thread 1 allocates it to the same hash. When
    thread 2 has linked a cell to it, thread 0 goes on there, and allocates another cell. -/
theorem exists_double :
    ¬∀ (n : BitVec 64) (σ : TableState (Fin 3)) (tr : List (TableState (Fin 3) × TableLabel (Fin 3))),
      (tableSystem (Fin 3)).Run Hashed ⟨.new n, fun _ => none⟩ tr σ → ChainsOrdered σ := by
  intro hall
  have hrun : (((tableSystem (Fin 3)).exec Hashed ⟨.new 0, fun _ => none⟩
      ([.call 0 0 1, .step 0] ++ .call 1 0 1 :: List.replicate 9 (.step 1) ++
        .call 2 32 1 :: List.replicate 8 (.step 2) ++ List.replicate 8 (.step 0))).any fun σ =>
          decide (σ.table.hash 0 = 0 ∧ σ.table.hash 2 = 0 ∧ 2 < σ.table.size)) = true := by
    decide +kernel
  simp only [Option.any_eq_true, decide_eq_true_eq] at hrun
  obtain ⟨σ, hex, h₀, h₂, hlt⟩ := hrun
  obtain ⟨tr, hr, -⟩ := System.run_of_exec hex
  have hone := (hall 0 σ tr hr).unique 0 (by omega) 2 hlt
  exact absurd (hone (by rw [h₀]; decide) (h₀.trans h₂.symm)) (by decide)

end Runs

end FkProf.ConcurrentMap
