import FkProf.ConcurrentMap.Order
import FkProf.ConcurrentMap.Sequential

/-!
# Chains within reach

When calls of `insertOrUpdate` on a table do not overlap, a call that comes to the end of
a chain has seen all of it, finds it unlocked, and adds one cell to it. As it gives up
after nine cells, line 284, no chain gets longer than ten.

* `InsertPc.Counts`: what a call knows of the cells that it has walked along;
* `Tidy`: the invariant of a table and the call on it, if there is one;
* `Tidy.step`: every step of the call keeps it;
* `Hops.eq_of_home`: hashes of one home are at most ten.
-/

namespace FkProf.ConcurrentMap

variable {Tid : Type*}

/-- What a call that runs alone knows of the cells that it has walked along. -/
def InsertPc.Counts (T : HashTable Tid) (h : HashType) : InsertPc → Prop
  | .walk i jumps delta => ∃ n ≤ jumps, Hops T h n (T.index i delta)
  | .next i jumps =>
    jumps ≤ kMaxJumpsAllowed + 1 ∧ T.hash i ≠ h ∧ ∃ n < jumps, Hops T h n i
  | .lock i jumps => jumps ≤ kMaxJumpsAllowed + 1 ∧ T.hash i ≠ h ∧ T.delta i = mapDeltaEmpty ∧
    ∃ n < jumps, Hops T h n i
  | .wait .. | .refund .. => False
  | .probe i _ => T.hash i ≠ h ∧ ∃ n ≤ kMaxJumpsAllowed, Hops T h n i
  | .reserve i d | .allocate i d =>
    T.hash i ≠ h ∧ T.hash (T.index i d) = mapHashEmpty ∧ ∃ n ≤ kMaxJumpsAllowed, Hops T h n i
  | .link i d => (0 < d → T.hash i ≠ h) ∧ ∃ n ≤ kMaxJumpsAllowed, Hops T h n i
  | .updateLoad _ | .updateCas .. | .setLoad _ | .setCas .. | .refuse _ | .unlock _ => True

/-- The invariant of a table and the call on it. -/
structure Tidy (T : HashTable Tid) (x : Option Insert) : Prop where
  counts : ∀ f ∈ x, f.pc.Counts T f.hash
  /-- An allocated cell is at most nine hops from its home, or about to be linked. -/
  reach : ∀ c, T.hash c ≠ mapHashEmpty →
    (∃ n ≤ kMaxJumpsAllowed + 1, Hops T (T.hash c) n c) ∨
      ∃ f ∈ x, f.hash = T.hash c ∧ f.pc.linking? T = some c
  /-- No chain is locked but by the call. -/
  unlocked : ∀ i, T.delta i = mapDeltaExtend → ∃ f ∈ x, f.pc.locked? = some i

section Steps

variable {T T' : HashTable Tid} {h g : HashType} {v : ValueType} {pc pc' : InsertPc}
  {i n m a b c : ℕ} {x : Option Insert} {f : Insert}

theorem Hops.walked (hw : Hops T h n c) : Walked T h c := by
  induction hw with
  | home => exact .home
  | step _ hl he hne ih => exact ih.step hl he hne

theorem Hops.mono (hw : Hops T h n c) (e : Extends T T') : Hops T' h n c := by
  induction hw with
  | home =>
    rw [← e.home]
    exact .home
  | step _ hl he hne ih =>
    refine ih.step (e.link hl) ?_ ?_
    · rwa [e.hash _ he]
    · rwa [e.hash _ he]

/-- A call that has come to the end of its chain has met no cell of its hash, and so there
    is none on it. -/
theorem Hops.not_onChain (hw : Hops T h n i) (hi : T.hash i ≠ h) (hl : Last T i)
    (hc : OnChain T h c) : T.hash c ≠ h := fun hh =>
  hw.walked.reach hc hh |>.cases_head.elim (fun he => hi (he ▸ hh))
    fun ⟨_, hd, _⟩ => hl.not_link hd

/-- What a call knows after a step. -/
theorem InsertPc.Counts.step (hc : pc.Counts T h) (hok : pc.Ok T h)
    (hlinks : ∀ a b, Link T a b → T.hash a ≠ mapHashEmpty ∧ T.hash b ≠ mapHashEmpty)
    (hun : pc.locked? = none → ∀ i, T.delta i ≠ mapDeltaExtend)
    (hs : (insertOrUpdateStep T h v pc).2 = .goto pc') :
    pc'.Counts (insertOrUpdateStep T h v pc).1 h := by
  have e := hok.extends v
  cases pc with
  | walk i jumps delta =>
    obtain ⟨n, hn, hw⟩ := hc
    simp only [insertOrUpdateStep] at hs ⊢
    split_ifs at hs ⊢ with hj hh <;> cases hs
    · trivial
    · exact ⟨by omega, hh, n, by omega, hw⟩
  | next i jumps =>
    obtain ⟨hj, hh, n, hn, hw⟩ := hc
    simp only [insertOrUpdateStep] at hs ⊢
    split_ifs at hs ⊢ with hd <;> cases hs
    · have hl : Link T i (T.index i (T.delta i)) := ⟨hd.1, hd.2, rfl⟩
      exact ⟨n + 1, hn, hw.step hl (hlinks _ _ hl).1 hh⟩
    · refine ⟨hj, hh, ?_, n, hn, hw⟩
      by_contra hne
      exact hd ⟨hne, hun rfl i⟩
  | lock i jumps =>
    obtain ⟨hj, hh, hd, n, hn, hw⟩ := hc
    simp only [insertOrUpdateStep] at e hs ⊢
    rw [if_pos hd] at e hs ⊢
    cases hs
    refine ⟨?_, n, by omega, hw.mono e⟩
    rwa [HashTable.setDelta_hash]
  | probe i d =>
    simp only [insertOrUpdateStep] at hs ⊢
    split_ifs at hs ⊢ with he hh <;> cases hs
    · exact ⟨hc.1, he, hc.2⟩
    · trivial
    · rw [searchNext]
      split_ifs
      · exact hc
      · trivial
  | reserve i d =>
    simp only [insertOrUpdateStep] at e hs ⊢
    cases hs
    split_ifs
    · trivial
    · exact ⟨hc.1, hc.2.1, hc.2.2.imp fun n hn => ⟨hn.1, hn.2.mono e⟩⟩
  | allocate i d =>
    obtain ⟨hh, he, n, hn, hw⟩ := hc
    simp only [insertOrUpdateStep] at e hs ⊢
    rw [if_pos he] at e hs ⊢
    cases hs
    refine ⟨fun hd => ?_, n, hn, hw.mono e⟩
    rw [e.hash i (hok.2.2.2 hd)]
    exact hh
  | link i d =>
    cases hs
    trivial
  | updateLoad i | setLoad i =>
    simp only [insertOrUpdateStep] at hs
    split_ifs at hs
    cases hs
    trivial
  | updateCas i old | setCas i old =>
    simp only [insertOrUpdateStep] at hs
    split_ifs at hs
  | refuse i =>
    cases hs
    trivial
  | unlock i => cases hs
  | wait | refund => exact hc.elim

/-- The cell that a call links is one hop behind the one that it has locked. -/
theorem Tidy.hops_of_linking (h : Tidy T (some f)) (hok : f.pc.Ok T f.hash)
    (hl : f.pc.linking? T = some c) :
    ∃ n ≤ kMaxJumpsAllowed + 1, Hops (insertOrUpdateStep T f.hash v f.pc).1 f.hash n c := by
  have hcounts := h.counts f rfl
  have e := hok.extends v
  obtain ⟨hash, value, pc⟩ := f
  obtain ⟨i, d, rfl, rfl⟩ := InsertPc.locked_of_linking hl
  obtain ⟨hne, n, hn, hw⟩ := hcounts
  obtain ⟨hon, -, hd, hpos, -⟩ := hok
  rcases Nat.eq_zero_or_pos d with rfl | hd₀
  · refine ⟨n, by omega, ?_⟩
    rw [T.index_zero hon.lt]
    exact hw.mono e
  · have hdelta : (insertOrUpdateStep T hash v (.link i d)).1.delta i = d := by
      simp [insertOrUpdateStep, hd₀]
    have hlink : Link (insertOrUpdateStep T hash v (.link i d)).1 i (T.index i d) :=
      ⟨by rw [hdelta]; exact hd₀.ne', by rw [hdelta]; exact neighbourhood_ne_extend hd,
        by rw [hdelta, e.index]⟩
    refine ⟨n + 1, by omega, (hw.mono e).step hlink ?_ ?_⟩
    · rw [e.hash i (hpos hd₀)]
      exact hpos hd₀
    · rw [e.hash i (hpos hd₀)]
      exact hne hd₀

theorem Tidy.reach_step (h : Tidy T (some f)) (hok : f.pc.Ok T f.hash)
    (hc : T.hash c ≠ mapHashEmpty) : ∃ n ≤ kMaxJumpsAllowed + 1,
      Hops (insertOrUpdateStep T f.hash v f.pc).1 (T.hash c) n c := by
  rcases h.reach c hc with ⟨n, hn, hw⟩ | ⟨_, hf, hh, hl⟩
  · exact ⟨n, hn, hw.mono (hok.extends v)⟩
  · cases hf
    rw [← hh]
    exact h.hops_of_linking hok hl

/-- A call that has locked its chain finds no cell of its hash in the neighbourhood. -/
theorem Tidy.probe_ne {hash : HashType} {value : ValueType} {d : ℕ}
    (h : Tidy T (some ⟨hash, value, .probe i d⟩)) (hok : (InsertPc.probe i d).Ok T hash)
    (hne : hash ≠ mapHashEmpty) : T.hash (T.index i d) ≠ hash := fun hh => by
  obtain ⟨hi, n, -, hw⟩ := h.counts _ rfl
  rcases h.reach (T.index i d) (by rw [hh]; exact hne) with ⟨m, -, hc⟩ | ⟨_, hf, -, hl⟩
  · rw [hh] at hc
    exact hw.not_onChain hi (.inr hok.2.1) hc.walked.onChain hh
  · cases hf
    cases hl

theorem Tidy.unlocked_step (h : Tidy T (some f)) (hok : f.pc.Ok T f.hash)
    (hne : f.hash ≠ mapHashEmpty)
    (hi : (insertOrUpdateStep T f.hash v f.pc).1.delta i = mapDeltaExtend) :
    ∃ pc', (insertOrUpdateStep T f.hash v f.pc).2 = .goto pc' ∧ pc'.locked? = some i := by
  have hcounts := h.counts f rfl
  have hlocked : ∀ i, T.delta i = mapDeltaExtend → f.pc.locked? = some i := fun i hi => by
    obtain ⟨_, hf, hl⟩ := h.unlocked i hi
    cases hf
    exact hl
  obtain ⟨hash, value, pc⟩ := f
  have hset : ∀ {k d}, (∀ i, T.delta i = mapDeltaExtend → i = k) → d ≠ mapDeltaExtend →
      (T.setDelta k d).delta i ≠ mapDeltaExtend := fun {k d} hk hd he => by
    rw [HashTable.setDelta_delta] at he
    by_cases hik : i = k
    · rw [hik, Function.update_self] at he
      exact hd he
    · rw [Function.update_of_ne hik] at he
      exact hik (hk i he)
  have hself : ∀ {k}, pc.locked? = some k → ∀ i, T.delta i = mapDeltaExtend → i = k :=
    fun hk i hi => Option.some.inj ((hlocked i hi).symm.trans hk)
  cases pc with
  | walk k jumps delta =>
    simp only [insertOrUpdateStep] at hi
    split_ifs at hi <;> cases hlocked i hi
  | updateLoad k | next k jumps | setLoad k =>
    simp only [insertOrUpdateStep] at hi
    split_ifs at hi <;> cases hlocked i hi
  | updateCas k old | setCas k old =>
    simp only [insertOrUpdateStep] at hi
    split_ifs at hi
    all_goals first | cases hlocked i hi | cases hlocked i (by simpa using hi)
  | lock k jumps =>
    simp only [insertOrUpdateStep] at hi ⊢
    rw [if_pos hcounts.2.2.1] at hi ⊢
    rw [HashTable.setDelta_delta] at hi
    by_cases hik : i = k
    · exact ⟨_, rfl, by rw [hik]; rfl⟩
    · rw [Function.update_of_ne hik] at hi
      cases hlocked i hi
  | probe k d =>
    simp only [insertOrUpdateStep] at hi ⊢
    rw [if_neg (h.probe_ne hok hne)] at hi ⊢
    split_ifs at hi ⊢ <;> obtain rfl := hself rfl i hi
    · exact ⟨_, rfl, rfl⟩
    · refine ⟨_, rfl, ?_⟩
      rw [searchNext]
      split_ifs <;> rfl
  | reserve k d =>
    obtain rfl := hself rfl i hi
    refine ⟨_, rfl, ?_⟩
    split_ifs <;> rfl
  | refuse k =>
    obtain rfl := hself rfl i hi
    exact ⟨_, rfl, rfl⟩
  | allocate k d =>
    simp only [insertOrUpdateStep] at hi ⊢
    rw [if_pos hcounts.2.1] at hi ⊢
    rw [HashTable.setHash_delta] at hi
    obtain rfl := hself rfl i hi
    exact ⟨_, rfl, rfl⟩
  | link k d =>
    refine absurd hi (hset (hself rfl) ?_)
    split_ifs
    · exact neighbourhood_ne_extend hok.2.2.1
    · decide
  | unlock k => exact absurd hi (hset (hself rfl) (by decide))
  | wait | refund => exact hcounts.elim

/-- Every step of the call keeps the invariant. -/
theorem Tidy.step (h : Tidy T (some f)) (hok : f.pc.Ok T f.hash) (hne : f.hash ≠ mapHashEmpty)
    (hlinks : ∀ a b, Link T a b → T.hash a ≠ mapHashEmpty ∧ T.hash b ≠ mapHashEmpty) :
    Tidy (insertOrUpdateStep T f.hash f.value f.pc).1
      (f.after (insertOrUpdateStep T f.hash f.value f.pc).2) where
  counts g hg := by
    cases hn : (insertOrUpdateStep T f.hash f.value f.pc).2 with
    | done =>
      rw [hn] at hg
      cases hg
    | goto pc' =>
      rw [hn] at hg
      cases hg
      refine (h.counts f rfl).step hok hlinks (fun hf i hi => ?_) hn
      obtain ⟨_, hg, hl⟩ := h.unlocked i hi
      cases hg
      exact nomatch hf.symm.trans hl
  reach c hc := by
    rcases insertOrUpdateStep_hash T f.hash f.value f.pc with he | ⟨k, pc', -, hk, he, hn, hl⟩
    · rw [he] at hc ⊢
      exact .inl (h.reach_step hok hc)
    · rw [he] at hc ⊢
      by_cases hck : c = k
      · subst hck
        rw [hn]
        refine .inr ⟨{ f with pc := pc' }, rfl, ?_, ?_⟩
        · rw [Function.update_self]
        · obtain ⟨i, d, -, rfl, hc, -⟩ := insertOrUpdateStep_linking hn hl
          show some (HashTable.index _ i d) = _
          rw [(hok.extends f.value).index, hc]
      · rw [Function.update_of_ne hck] at hc ⊢
        exact .inl (h.reach_step hok hc)
  unlocked i hi := by
    obtain ⟨pc', hn, hl⟩ := h.unlocked_step hok hne hi
    rw [hn]
    exact ⟨{ f with pc := pc' }, rfl, hl⟩

/-- What does not touch hashes and distances keeps the invariant. -/
theorem Tidy.of_eq (h : Tidy T none) (hs : T'.sizeMask = T.sizeMask) (hh : T'.hash = T.hash)
    (hd : T'.delta = T.delta) : Tidy T' none where
  counts _ hf := nomatch hf
  reach c hc := by
    rw [hh] at hc ⊢
    refine (h.reach c hc).imp (fun ⟨n, hn, hw⟩ => ⟨n, hn, hw.mono (.of_eq hs hh hd)⟩) ?_
    exact fun ⟨_, hf, _⟩ => nomatch hf
  unlocked i hi := h.unlocked i (by rwa [hd] at hi)

/-- A call begins. -/
theorem Tidy.start (h : Tidy T none) (hf : f.pc = .start T f.hash) : Tidy T (some f) where
  counts g hg := by
    cases hg
    rw [hf]
    exact ⟨0, le_rfl, by rw [T.index_zero (T.home_lt _)]; exact .home⟩
  reach c hc := (h.reach c hc).imp_right fun ⟨_, hg, _⟩ => nomatch hg
  unlocked i hi := by
    obtain ⟨_, hg, -⟩ := h.unlocked i hi
    cases hg

/-- A table without allocated cells. -/
theorem Tidy.of_free (hh : ∀ i, T.hash i = mapHashEmpty) (hd : ∀ i, T.delta i = mapDeltaEmpty) :
    Tidy T none where
  counts _ hf := nomatch hf
  reach c hc := absurd (hh c) hc
  unlocked i hi := by
    rw [hd] at hi
    exact absurd hi (by decide)

end Steps

end FkProf.ConcurrentMap
