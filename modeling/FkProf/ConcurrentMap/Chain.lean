import FkProf.ConcurrentMap.InsertOrUpdate
import Mathlib.Logic.Relation

/-!
# Chains

The cells whose hashes have the same home are linked in a chain that begins
there (`OnChain`). A table only grows (`Extends`): neither is a cell reallocated,
nor a link changed. So each call of `insertOrUpdate` goes along the chain of its
hash, holds the lock of its last cell while it looks for a free one, and when it
has allocated a cell, links it; in between the cell is allocated, but not on
its chain.

* `ChainInv`: the invariant of a table and the calls on it;
* `ChainInv.step`: every step of a call keeps it, whatever the other calls do;
* `ChainInv.onChain_eq`: a chain has only one end, so that two calls for one hash
  never search at the same time;
* `Walked`: how far a reader has come along a chain, without passing a cell of
  its hash;
* `HashTable.Lookup`: what a reader that walks alone finds.
-/

namespace FkProf.ConcurrentMap

variable {Tid : Type*}

/-- A call of `insertOrUpdate` on a table. -/
structure Insert where
  hash : HashType
  value : ValueType
  pc : InsertPc

/-- The call after a step. -/
def Insert.after (f : Insert) : InsertNext → Option Insert
  | .goto pc => some { f with pc := pc }
  | .done _ => none

/-- Cell `b` follows cell `a` in its chain. -/
def Link (T : HashTable Tid) (a b : ℕ) : Prop :=
  T.delta a ≠ mapDeltaEmpty ∧ T.delta a ≠ mapDeltaExtend ∧ b = T.index a (T.delta a)

/-- The cell is on the chain of the hash. -/
def OnChain (T : HashTable Tid) (h : HashType) (c : ℕ) : Prop :=
  Relation.ReflTransGen (Link T) (T.home h) c

/-- The cell is on the chain of the hash, and no cell before it has the hash. -/
inductive Walked (T : HashTable Tid) (h : HashType) : ℕ → Prop
  | home : Walked T h (T.home h)
  | step {a b : ℕ} : Walked T h a → Link T a b → T.hash a ≠ mapHashEmpty → T.hash a ≠ h →
      Walked T h b

/-- A table grows: allocated cells keep their hashes, and chains their links. -/
structure Extends (T T' : HashTable Tid) : Prop where
  sizeMask : T'.sizeMask = T.sizeMask
  hash : ∀ i, T.hash i ≠ mapHashEmpty → T'.hash i = T.hash i
  delta : ∀ i, T.delta i ≠ mapDeltaEmpty → T.delta i ≠ mapDeltaExtend → T'.delta i = T.delta i

/-! ## Growing tables -/

section Extends

variable {T T' : HashTable Tid} {h : HashType} {a b c : ℕ}

theorem Extends.refl : Extends T T := ⟨rfl, fun _ _ => rfl, fun _ _ _ => rfl⟩

/-- A table with the same hashes and distances. -/
theorem Extends.of_eq (hs : T'.sizeMask = T.sizeMask) (hh : T'.hash = T.hash)
    (hd : T'.delta = T.delta) : Extends T T' :=
  ⟨hs, fun _ _ => by rw [hh], fun _ _ _ => by rw [hd]⟩

theorem Extends.size (e : Extends T T') : T'.size = T.size :=
  congrArg (· + 1) e.sizeMask

theorem Extends.home (e : Extends T T') : T'.home h = T.home h := by
  rw [HashTable.home, e.sizeMask, HashTable.home]

theorem Extends.index (e : Extends T T') (i d : ℕ) : T'.index i d = T.index i d := by
  rw [HashTable.index, e.sizeMask, HashTable.index]

theorem Extends.link (e : Extends T T') (hl : Link T a b) : Link T' a b := by
  obtain ⟨h₀, h₁, rfl⟩ := hl
  have hd := e.delta a h₀ h₁
  exact ⟨hd ▸ h₀, hd ▸ h₁, by rw [e.index, hd]⟩

theorem Extends.onChain (e : Extends T T') (hc : OnChain T h c) : OnChain T' h c := by
  rw [OnChain, e.home]
  exact Relation.ReflTransGen.mono (fun _ _ => e.link) _ _ hc

theorem Extends.hash_ne (e : Extends T T') (hc : T.hash c ≠ mapHashEmpty) :
    T'.hash c ≠ mapHashEmpty := by
  rwa [e.hash c hc]

theorem Extends.walked (e : Extends T T') (hw : Walked T h c) : Walked T' h c := by
  induction hw with
  | home =>
    rw [← e.home]
    exact .home
  | step _ hl hne hh ih =>
    exact .step ih (e.link hl) (e.hash_ne hne) (by rwa [e.hash _ hne])

end Extends

section Chain

variable {T : HashTable Tid} {h : HashType} {a b c : ℕ}

theorem Link.lt (hl : Link T a b) : b < T.size := by
  obtain ⟨-, -, rfl⟩ := hl
  exact T.index_lt ..

theorem OnChain.lt (hc : OnChain T h c) : c < T.size := by
  rcases Relation.ReflTransGen.cases_tail hc with heq | ⟨b, -, hl⟩
  · rw [heq]
    exact T.home_lt h
  · exact hl.lt

theorem OnChain.tail (hc : OnChain T h a) (hl : Link T a b) : OnChain T h b :=
  Relation.ReflTransGen.tail hc hl

theorem Walked.onChain (hw : Walked T h c) : OnChain T h c := by
  induction hw with
  | home => exact .refl
  | step _ hl _ _ ih => exact ih.tail hl

theorem link_rightUnique : Relator.RightUnique (Link T) := fun _ _ _ hb hc => by
  rw [hb.2.2, hc.2.2]

/-- The cell is the last of its chain. -/
def Last (T : HashTable Tid) (c : ℕ) : Prop :=
  T.delta c = mapDeltaEmpty ∨ T.delta c = mapDeltaExtend

theorem Last.not_link (hl : Last T a) : ¬Link T a b := fun ⟨h₀, h₁, _⟩ => hl.elim h₀ h₁

/-- A chain has one end. -/
theorem onChain_last_eq (ha : OnChain T h a) (hb : OnChain T h b) (hla : Last T a)
    (hlb : Last T b) : a = b := by
  rcases Relation.ReflTransGen.total_of_right_unique link_rightUnique ha hb with hab | hba
  · rcases Relation.ReflTransGen.cases_head hab with heq | ⟨c, hc, -⟩
    · exact heq
    · exact absurd hc hla.not_link
  · rcases Relation.ReflTransGen.cases_head hba with heq | ⟨c, hc, -⟩
    · exact heq.symm
    · exact absurd hc hlb.not_link

/-- A cell of the hash on its chain is not before the place reached. -/
theorem Walked.reach (hw : Walked T h a) (hc : OnChain T h c) (hh : T.hash c = h) :
    Relation.ReflTransGen (Link T) a c := by
  induction hw with
  | home => exact hc
  | step _ hl _ hne ih =>
    rcases Relation.ReflTransGen.cases_head ih with heq | ⟨d, hd, hdc⟩
    · rw [heq] at hne
      exact absurd hh hne
    · rwa [link_rightUnique hl hd]

/-- What `find` finds for a hash, with the value in its cell, null for no cell,
    lines 249-270 and 630. -/
inductive HashTable.Lookup (T : HashTable Tid) (h : HashType) : ValueType → Prop
  | found (i : ℕ) : Walked T h i → T.hash i = h → Lookup T h (T.value i)
  | absent (i : ℕ) : Walked T h i → T.hash i = mapHashEmpty → Lookup T h mapValEmpty
  | last (i : ℕ) : Walked T h i → T.hash i ≠ h → Last T i → Lookup T h mapValEmpty

end Chain

/-! ## The invariant -/

/-- What a call knows of the table. -/
def InsertPc.Ok (T : HashTable Tid) (h : HashType) : InsertPc → Prop
  | .walk i _ delta =>
    OnChain T h i ∧ (delta = 0 ∨ T.delta i = delta ∧ Link T i (T.index i delta))
  | .updateLoad i | .setLoad i => OnChain T h i ∧ T.hash i = h
  | .updateCas i old | .setCas i old => OnChain T h i ∧ T.hash i = h ∧ old ≠ mapValMove
  | .next i _ | .lock i _ | .wait i _ => OnChain T h i
  | .probe i d | .reserve i d | .allocate i d =>
    OnChain T h i ∧ T.delta i = mapDeltaExtend ∧ d < kNeighbourhood ∧
      (0 < d → T.hash i ≠ mapHashEmpty)
  | .refund i d bucketHash =>
    OnChain T h i ∧ T.delta i = mapDeltaExtend ∧ d < kNeighbourhood ∧
      (0 < d → T.hash i ≠ mapHashEmpty) ∧ T.hash (T.index i d) = bucketHash ∧
      bucketHash ≠ mapHashEmpty
  | .link i d =>
    OnChain T h i ∧ T.delta i = mapDeltaExtend ∧ d < kNeighbourhood ∧
      (0 < d → T.hash i ≠ mapHashEmpty) ∧ T.hash (T.index i d) = h
  | .refuse i | .unlock i => OnChain T h i ∧ T.delta i = mapDeltaExtend

/-- The invariant of a table and the calls on it. -/
structure ChainInv (T : HashTable Tid) (calls : Tid → Option Insert) : Prop where
  hash_ne : ∀ t f, calls t = some f → f.hash ≠ mapHashEmpty
  ok : ∀ t f, calls t = some f → f.pc.Ok T f.hash
  unique : ∀ t u f g i, calls t = some f → calls u = some g → f.pc.locked? = some i →
    g.pc.locked? = some i → t = u
  /-- An allocated cell is on its chain, or about to be linked. -/
  cells : ∀ c < T.size, T.hash c ≠ mapHashEmpty → OnChain T (T.hash c) c ∨
    ∃ t f, calls t = some f ∧ f.hash = T.hash c ∧ f.pc.linking? T = some c
  /-- Links are from allocated cells to allocated cells. -/
  links : ∀ a b, Link T a b → T.hash a ≠ mapHashEmpty ∧ T.hash b ≠ mapHashEmpty

section Preservation

variable {T T' : HashTable Tid} {calls : Tid → Option Insert} {h : HashType} {pc : InsertPc}
  {t : Tid} {f : Insert}

/-- What a call knows outlasts the growth of the table elsewhere. -/
theorem InsertPc.Ok.mono (hok : pc.Ok T h) (hh : h ≠ mapHashEmpty) (e : Extends T T')
    (hl : ∀ i, pc.locked? = some i → T'.delta i = T.delta i) : pc.Ok T' h := by
  have hhash : ∀ {c}, T.hash c = h → T'.hash c = h := fun {c} hc => by
    rw [e.hash c (hc ▸ hh), hc]
  have hne : ∀ {i d : ℕ}, (0 < d → T.hash i ≠ mapHashEmpty) → 0 < d →
      T'.hash i ≠ mapHashEmpty := fun hd hp => e.hash_ne (hd hp)
  cases pc <;> simp only [InsertPc.Ok, InsertPc.locked?, Option.some.injEq, forall_eq',
    reduceCtorEq, false_implies, implies_true] at hok hl ⊢
  case walk i j delta =>
    refine ⟨e.onChain hok.1, hok.2.imp_right fun ⟨hd, hlk⟩ => ?_⟩
    have hd' := e.delta i hlk.1 hlk.2.1
    exact ⟨hd'.trans hd, by rw [e.index]; exact e.link hlk⟩
  case updateLoad | setLoad => exact ⟨e.onChain hok.1, hhash hok.2⟩
  case updateCas | setCas => exact ⟨e.onChain hok.1, hhash hok.2.1, hok.2.2⟩
  case next | lock | wait => exact e.onChain hok
  case probe | reserve | allocate =>
    exact ⟨e.onChain hok.1, hl.trans hok.2.1, hok.2.2.1, hne hok.2.2.2⟩
  case refund i d b =>
    obtain ⟨hi, hd, hk, hp, rfl, hb⟩ := hok
    exact ⟨e.onChain hi, hl.trans hd, hk, hne hp, by rw [e.index, e.hash _ hb], hb⟩
  case link =>
    exact ⟨e.onChain hok.1, hl.trans hok.2.1, hok.2.2.1, hne hok.2.2.2.1, by
      rw [e.index]; exact hhash hok.2.2.2.2⟩
  case refuse | unlock => exact ⟨e.onChain hok.1, hl.trans hok.2⟩

/-- A call holds the lock of the last cell of its chain. -/
theorem InsertPc.Ok.locked (hok : pc.Ok T h) {i : ℕ} (hi : pc.locked? = some i) :
    OnChain T h i ∧ T.delta i = mapDeltaExtend := by
  cases pc <;> simp only [InsertPc.locked?, Option.some.injEq, reduceCtorEq] at hi <;> subst hi
  case refuse | unlock => exact hok
  all_goals exact ⟨hok.1, hok.2.1⟩

/-- Two calls for one hash never hold locks at the same time. -/
theorem ChainInv.locked_unique (hI : ChainInv T calls) {u : Tid} {f g : Insert} {i j : ℕ}
    (hf : calls t = some f) (hg : calls u = some g) (hfg : f.hash = g.hash)
    (hi : f.pc.locked? = some i) (hj : g.pc.locked? = some j) : t = u := by
  obtain ⟨hci, hdi⟩ := (hI.ok t f hf).locked hi
  obtain ⟨hcj, hdj⟩ := (hI.ok u g hg).locked hj
  have hij : i = j := onChain_last_eq hci (hfg ▸ hcj) (.inr hdi) (.inr hdj)
  exact hI.unique t u f g i hf hg hi (hij ▸ hj)

/-- Once a call holds its lock, and before it has a cell to link, the cells of its
    hash are all on the chain. -/
theorem ChainInv.onChain_of_locked (hI : ChainInv T calls) (hf : calls t = some f) {i c : ℕ}
    (hi : f.pc.locked? = some i) (hn : f.pc.linking? T = none) (hc : c < T.size)
    (hh : T.hash c = f.hash) : OnChain T f.hash c := by
  rcases hI.cells c hc (hh ▸ hI.hash_ne t f hf) with h | ⟨u, g, hg, hgh, hl⟩
  · exact hh ▸ h
  · have hj : ∃ j, g.pc.locked? = some j := by
      cases hp : g.pc <;> simp [hp] at hl ⊢
    obtain ⟨j, hj⟩ := hj
    have htu := hI.locked_unique hf hg (hgh.trans hh).symm hi hj
    subst htu
    rw [hf] at hg
    cases hg
    rw [hn] at hl
    cases hl

theorem neighbourhood_ne_extend {d : ℕ} (hd : d < kNeighbourhood) : d ≠ mapDeltaExtend := by
  simp only [kNeighbourhood, mapDeltaExtend] at hd ⊢
  omega

/-- A table grows with every step of a call. -/
theorem InsertPc.Ok.extends (hok : pc.Ok T h) (v : ValueType) :
    Extends T (insertOrUpdateStep T h v pc).1 := by
  refine ⟨insertOrUpdateStep_sizeMask .., fun j hj => ?_, fun j h₀ h₁ => ?_⟩
  · rcases insertOrUpdateStep_hash T h v pc with he | ⟨c, -, -, hc, he, -⟩
    · rw [he]
    · rw [he, Function.update_of_ne]
      rintro rfl
      exact hj hc
  · rcases insertOrUpdateStep_delta T h v pc with he | ⟨i, d, hi, -, he⟩
    · rw [he]
    · rw [he, Function.update_of_ne]
      rintro rfl
      rcases hi with hi | ⟨-, hd⟩
      · exact h₁ (hok.locked hi).2
      · exact h₀ hd

/-- A call goes on knowing what it did, and learns what it reads. -/
theorem InsertPc.Ok.step (hok : pc.Ok T h) (hh : h ≠ mapHashEmpty)
    (hchance : ∀ i c, pc.locked? = some i → pc.linking? T = none → c < T.size → T.hash c = h →
      OnChain T h c) (v : ValueType) {pc' : InsertPc}
    (hs : (insertOrUpdateStep T h v pc).2 = .goto pc') :
    pc'.Ok (insertOrUpdateStep T h v pc).1 h := by
  have e := hok.extends v
  -- The next cell of the neighbourhood: this one, if it is the first, is allocated.
  have hsearch : ∀ i d, OnChain T h i → T.delta i = mapDeltaExtend →
      (0 < d → T.hash i ≠ mapHashEmpty) → T.hash (T.index i d) ≠ mapHashEmpty →
      (searchNext i d).Ok T h := fun i d hi hd hp hne => by
    rw [searchNext]
    split_ifs with hlt
    · refine ⟨hi, hd, hlt, fun _ => ?_⟩
      rcases Nat.eq_zero_or_pos d with rfl | hpos
      · rwa [T.index_zero hi.lt] at hne
      · exact hp hpos
    · exact ⟨hi, hd⟩
  cases pc <;> simp only [insertOrUpdateStep] at hs e ⊢
  case walk i jumps delta =>
    have hi : OnChain T h (T.index i delta) := by
      rcases hok.2 with rfl | ⟨-, hl⟩
      · rw [T.index_zero hok.1.lt]
        exact hok.1
      · exact hok.1.tail hl
    split_ifs at hs ⊢ with hj ht <;> cases hs
    · exact ⟨hi, ht⟩
    · exact hi
  case updateLoad i =>
    split_ifs at hs ⊢ with hm
    cases hs
    exact ⟨hok.1, hok.2, hm⟩
  case updateCas i old => split_ifs at hs
  case next i jumps =>
    split_ifs at hs ⊢ with hd <;> cases hs
    · exact ⟨hok, .inr ⟨rfl, hd.1, hd.2, rfl⟩⟩
    · exact hok
  case lock i jumps =>
    split_ifs at hs e ⊢ with hd <;> cases hs
    · exact ⟨e.onChain hok, by simp, by simp [kNeighbourhood], by simp⟩
    · exact hok
  case wait i jumps =>
    split_ifs at hs ⊢ with hd <;> cases hs
    · exact hok
    · exact ⟨hok, .inl rfl⟩
  case probe i d =>
    obtain ⟨hi, hd, hk, hp⟩ := hok
    split_ifs at hs ⊢ with he ht <;> cases hs
    · exact ⟨hi, hd, hk, hp⟩
    · exact ⟨hchance i _ rfl rfl (T.index_lt ..) ht, ht⟩
    · exact hsearch i d hi hd hp he
  case reserve i d =>
    obtain ⟨hi, hd, hk, hp⟩ := hok
    cases hs
    split_ifs
    · exact ⟨e.onChain hi, hd⟩
    · exact ⟨e.onChain hi, hd, hk, hp⟩
  case refuse i =>
    cases hs
    exact ⟨e.onChain hok.1, hok.2⟩
  case allocate i d =>
    obtain ⟨hi, hd, hk, hp⟩ := hok
    split_ifs at hs e ⊢ with he <;> cases hs
    · exact ⟨e.onChain hi, by simpa using hd, hk, fun hpos => e.hash_ne (hp hpos), by simp⟩
    · exact ⟨hi, hd, hk, hp, rfl, he⟩
  case link i d =>
    obtain ⟨hi, hd, hk, hp, ht⟩ := hok
    cases hs
    refine ⟨?_, by simpa using ht⟩
    rcases Nat.eq_zero_or_pos d with rfl | hpos
    · rw [T.index_zero hi.lt]
      exact e.onChain hi
    · refine (e.onChain hi).tail ⟨?_, ?_, ?_⟩
      · simp only [HashTable.setDelta_delta, Function.update_self, if_pos hpos]
        exact hpos.ne'
      · simp only [HashTable.setDelta_delta, Function.update_self, if_pos hpos]
        exact neighbourhood_ne_extend hk
      · simp only [HashTable.setDelta_delta, Function.update_self, if_pos hpos,
          HashTable.setDelta_index]
  case refund i d b =>
    obtain ⟨hi, hd, hk, hp, hb, hne⟩ := hok
    cases hs
    split_ifs with ht
    · exact ⟨e.onChain (hchance i _ rfl rfl (T.index_lt ..) (hb.trans ht)), hb.trans ht⟩
    · exact (hsearch i d hi hd hp (hb.symm ▸ hne)).mono hh e fun _ _ => rfl
  case setLoad i =>
    split_ifs at hs ⊢ with hm
    cases hs
    exact ⟨hok.1, hok.2, hm⟩
  case setCas i old => split_ifs at hs
  case unlock i => cases hs

/-- A call locks only a cell that no other has locked. -/
theorem InsertPc.locked_step {v : ValueType} {pc' : InsertPc}
    (hs : (insertOrUpdateStep T h v pc).2 = .goto pc') {i : ℕ} (hi : pc'.locked? = some i) :
    pc.locked? = some i ∨ T.delta i = mapDeltaEmpty := by
  cases pc <;> simp only [insertOrUpdateStep, searchNext] at hs <;> (try split_ifs at hs) <;>
    cases hs <;> simp_all

/-- Every step of a call keeps the invariant. -/
theorem ChainInv.step [DecidableEq Tid] (hI : ChainInv T calls) (hf : calls t = some f) :
    ChainInv (insertOrUpdateStep T f.hash f.value f.pc).1
      (Function.update calls t (f.after (insertOrUpdateStep T f.hash f.value f.pc).2)) := by
  have hne := hI.hash_ne t f hf
  have hok := hI.ok t f hf
  have e := hok.extends f.value
  have hafter : ∀ g, f.after (insertOrUpdateStep T f.hash f.value f.pc).2 = some g →
      g.hash = f.hash ∧ (insertOrUpdateStep T f.hash f.value f.pc).2 = .goto g.pc := by
    intro g hg
    cases hn : (insertOrUpdateStep T f.hash f.value f.pc).2 <;>
      simp only [hn, Insert.after, Option.some.injEq, reduceCtorEq] at hg
    subst hg
    exact ⟨rfl, rfl⟩
  -- The calls of the other threads are as they were.
  have hold : ∀ u g, Function.update calls t
      (f.after (insertOrUpdateStep T f.hash f.value f.pc).2) u = some g →
      (u = t ∧ g.hash = f.hash ∧ (insertOrUpdateStep T f.hash f.value f.pc).2 = .goto g.pc) ∨
        u ≠ t ∧ calls u = some g := fun u g hg => by
    by_cases hu : u = t
    · subst hu
      rw [Function.update_self] at hg
      exact .inl ⟨rfl, hafter g hg⟩
    · rw [Function.update_of_ne hu] at hg
      exact .inr ⟨hu, hg⟩
  -- The lock of another call is on another cell than what this one changes.
  have hlock : ∀ u g, u ≠ t → calls u = some g → ∀ i, g.pc.locked? = some i →
      (insertOrUpdateStep T f.hash f.value f.pc).1.delta i = T.delta i := fun u g hu hg i hi => by
    rcases insertOrUpdateStep_delta T f.hash f.value f.pc with he | ⟨j, d, hj, -, he⟩
    · rw [he]
    · rw [he, Function.update_of_ne]
      rintro rfl
      rcases hj with hj | ⟨-, hj⟩
      · exact hu (hI.unique u t g f i hg hf hi hj)
      · rw [((hI.ok u g hg).locked hi).2] at hj
        exact absurd hj (by decide)
  refine ⟨fun u g hg => ?_, fun u g hg => ?_, fun u w g k i hg hk hi hj => ?_, fun c hc hcne => ?_,
    fun a b hl => ?_⟩
  · rcases hold u g hg with ⟨-, hgh, -⟩ | ⟨-, hg⟩
    · rwa [hgh]
    · exact hI.hash_ne u g hg
  · rcases hold u g hg with ⟨-, hgh, hs⟩ | ⟨hu, hg⟩
    · rw [hgh]
      exact hok.step hne (fun i c hi hn hc hh => hI.onChain_of_locked hf hi hn hc hh) f.value hs
    · exact (hI.ok u g hg).mono (hI.hash_ne u g hg) e (hlock u g hu hg)
  · -- A lock is taken on a cell that is not locked.
    have hfree : ∀ {x y i}, calls y = some x → x.pc.locked? = some i →
        T.delta i ≠ mapDeltaEmpty := fun {x y i} hy hi => by
      rw [((hI.ok y x hy).locked hi).2]
      decide
    rcases hold u g hg with ⟨hu, -, hs⟩ | ⟨hu, hg⟩ <;> rcases hold w k hk with ⟨hw, -, hs'⟩ | ⟨hw, hk⟩
    · rw [hu, hw]
    · rcases InsertPc.locked_step hs hi with hi | hi
      · exact hu.trans (hI.unique t w f k i hf hk hi hj)
      · exact absurd hi (hfree hk hj)
    · rcases InsertPc.locked_step hs' hj with hj | hj
      · exact (hI.unique u t g f i hg hf hi hj).trans hw.symm
      · exact absurd hj (hfree hg hi)
    · exact hI.unique u w g k i hg hk hi hj
  · rw [insertOrUpdateStep_size] at hc
    have hlinking : ∀ pc : InsertPc, pc.linking? (insertOrUpdateStep T f.hash f.value f.pc).1 =
        pc.linking? T := fun pc => by
      cases pc <;> simp only [InsertPc.linking?, e.index]
    -- A cell allocated before is on its chain, or the call that links it goes on.
    have hbefore : T.hash c ≠ mapHashEmpty →
        OnChain (insertOrUpdateStep T f.hash f.value f.pc).1 (T.hash c) c ∨
        ∃ u g, u ≠ t ∧ calls u = some g ∧ g.hash = T.hash c ∧ g.pc.linking? T = some c :=
      fun hne' => by
        rcases hI.cells c hc hne' with hon | ⟨u, g, hg, hgh, hl⟩
        · exact .inl (e.onChain hon)
        · by_cases hu : u = t
          · subst hu
            rw [hf] at hg
            cases hg
            left
            cases hp : f.pc <;> simp only [hp, InsertPc.linking?, Option.some.injEq,
              reduceCtorEq] at hl
            rename_i i d
            have hset : InsertPc.Ok (insertOrUpdateStep T f.hash f.value f.pc).1 f.hash
                (.setLoad (T.index i d)) :=
              hok.step hne (fun i c hi hn hc hh => hI.onChain_of_locked hf hi hn hc hh) f.value
                (by rw [hp]; rfl)
            rw [hp] at hset
            rw [← hgh, ← hl]
            exact hset.1
          · exact .inr ⟨u, g, hu, hg, hgh, hl⟩
    have hkept : (insertOrUpdateStep T f.hash f.value f.pc).1.hash c = T.hash c →
        OnChain (insertOrUpdateStep T f.hash f.value f.pc).1 (T.hash c) c ∨
        ∃ u g, Function.update calls t
          (f.after (insertOrUpdateStep T f.hash f.value f.pc).2) u = some g ∧
          g.hash = T.hash c ∧ g.pc.linking? T = some c := fun hcc => by
      rcases hbefore (hcc ▸ hcne) with hon | ⟨u, g, hu, hg, hgh, hl⟩
      · exact .inl hon
      · exact .inr ⟨u, g, by rwa [Function.update_of_ne hu], hgh, hl⟩
    simp only [hlinking]
    rcases insertOrUpdateStep_hash T f.hash f.value f.pc with he | ⟨c₀, pc', -, -, he, hs, hl⟩
    · have hcc := congrFun he c
      rw [hcc]
      exact hkept hcc
    · by_cases hc₀ : c = c₀
      · subst hc₀
        refine .inr ⟨t, { f with pc := pc' }, by rw [Function.update_self, hs]; rfl, ?_, hl⟩
        rw [he, Function.update_self]
      · have hcc : (insertOrUpdateStep T f.hash f.value f.pc).1.hash c = T.hash c := by
          rw [he, Function.update_of_ne hc₀]
        rw [hcc]
        exact hkept hcc
  · by_cases hd : (insertOrUpdateStep T f.hash f.value f.pc).1.delta a = T.delta a
    · have hl' : Link T a b := ⟨hd ▸ hl.1, hd ▸ hl.2.1, by rw [hl.2.2, e.index, hd]⟩
      exact ⟨e.hash_ne (hI.links a b hl').1, e.hash_ne (hI.links a b hl').2⟩
    · rcases insertOrUpdateStep_delta T f.hash f.value f.pc with he | ⟨i, d, -, hcase, he⟩
      · exact absurd (congrFun he a) hd
      · have hia : a = i := by
          by_contra hne'
          exact hd (by rw [he, Function.update_of_ne hne'])
        subst hia
        have hda : (insertOrUpdateStep T f.hash f.value f.pc).1.delta a = d := by
          rw [he, Function.update_self]
        obtain ⟨h₀, h₁, hb⟩ := hl
        rw [hda] at h₀ h₁ hb
        rcases hcase with hd₀ | hd₁ | ⟨hpos, hp⟩
        · exact absurd hd₀ h₀
        · exact absurd hd₁ h₁
        · rw [hp] at hok
          obtain ⟨-, -, -, hp', ht⟩ := hok
          refine ⟨e.hash_ne (hp' hpos), ?_⟩
          rw [hb, e.index]
          exact e.hash_ne (by rw [ht]; exact hne)

/-- The walk along the chain of a hash comes to a cell of it. -/
theorem OnChain.exists_walked {c : ℕ} (hI : ChainInv T calls)
    (hc : OnChain T h c) (hn : T.hash c = h) : ∃ m, Walked T h m ∧ T.hash m = h := by
  have hor : ∀ m, OnChain T h m → Walked T h m ∨ ∃ m, Walked T h m ∧ T.hash m = h := fun m hm => by
    induction hm with
    | refl => exact .inl .home
    | @tail a b _ hl ih =>
      rcases ih with hw | hex
      · by_cases ha : T.hash a = h
        · exact .inr ⟨a, hw, ha⟩
        · exact .inl (.step hw hl (hI.links a b hl).1 ha)
      · exact .inr hex
  exact (hor c hc).elim (fun hw => ⟨c, hw, hn⟩) id

/-- A table without calls, all of whose cells are free. -/
theorem ChainInv.of_free (hh : ∀ i, T.hash i = mapHashEmpty) (hd : ∀ i, T.delta i = mapDeltaEmpty)
    (hc : ∀ t, calls t = none) : ChainInv T calls := by
  refine ⟨fun t f hf => ?_, fun t f hf => ?_, fun t u f g i hf => ?_, fun c _ hne => ?_,
    fun a b hl => ?_⟩
  · simp [hc] at hf
  · simp [hc] at hf
  · simp [hc] at hf
  · exact absurd (hh c) hne
  · exact absurd (hd a) hl.1

/-- What does not touch hashes, distances and calls keeps the invariant. -/
theorem ChainInv.of_eq (hI : ChainInv T calls) (hs : T'.sizeMask = T.sizeMask)
    (hh : T'.hash = T.hash) (hd : T'.delta = T.delta) : ChainInv T' calls := by
  have e : Extends T T' := .of_eq hs hh hd
  have e' : Extends T' T := .of_eq hs.symm hh.symm hd.symm
  refine ⟨hI.hash_ne, fun t f hf => (hI.ok t f hf).mono (hI.hash_ne t f hf) e fun i _ => by rw [hd],
    hI.unique, fun c hc hne => ?_, fun a b hl => ?_⟩
  · rw [hh] at hne ⊢
    have hlinking : ∀ pc : InsertPc, pc.linking? T' = pc.linking? T := fun pc => by
      cases pc <;> simp only [InsertPc.linking?, e.index]
    simp only [hlinking]
    exact (hI.cells c (e.size ▸ hc) hne).imp_left e.onChain
  · rw [hh]
    exact hI.links a b (e'.link hl)

/-- A call begins. -/
theorem ChainInv.start [DecidableEq Tid] (hI : ChainInv T calls) (hn : calls t = none)
    (hf : f.pc = .start T f.hash) (hh : f.hash ≠ mapHashEmpty) :
    ChainInv T (Function.update calls t (some f)) := by
  have hold : ∀ u g, Function.update calls t (some f) u = some g →
      (u = t ∧ g = f) ∨ u ≠ t ∧ calls u = some g := fun u g hg => by
    by_cases hu : u = t
    · subst hu
      rw [Function.update_self] at hg
      exact .inl ⟨rfl, (Option.some.inj hg).symm⟩
    · rw [Function.update_of_ne hu] at hg
      exact .inr ⟨hu, hg⟩
  have hfree : f.pc.locked? = none := by rw [hf]; rfl
  refine ⟨fun u g hg => ?_, fun u g hg => ?_, fun u w g k i hg hk hi hj => ?_, fun c hc hne => ?_,
    hI.links⟩
  · rcases hold u g hg with ⟨-, rfl⟩ | ⟨-, hg⟩
    · exact hh
    · exact hI.hash_ne u g hg
  · rcases hold u g hg with ⟨-, rfl⟩ | ⟨-, hg⟩
    · rw [hf]
      exact ⟨.refl, .inl rfl⟩
    · exact hI.ok u g hg
  · rcases hold u g hg with ⟨-, rfl⟩ | ⟨-, hg⟩
    · rw [hfree] at hi
      cases hi
    · rcases hold w k hk with ⟨-, rfl⟩ | ⟨-, hk⟩
      · rw [hfree] at hj
        cases hj
      · exact hI.unique u w g k i hg hk hi hj
  · refine (hI.cells c hc hne).imp_right fun ⟨u, g, hg, hgh, hl⟩ => ⟨u, g, ?_, hgh, hl⟩
    rw [Function.update_of_ne, hg]
    rintro rfl
    rw [hn] at hg
    cases hg

end Preservation

end FkProf.ConcurrentMap
