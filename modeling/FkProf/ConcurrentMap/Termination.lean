import FkProf.ConcurrentMap.Attempts
import FkProf.ConcurrentMap.FiniteMap
import Mathlib.Data.Prod.Lex

/-!
# Whether a put returns

A put that overflows creates tables until one has room for the values and its own. Their
sizes are the powers of two from `2 ^ 5` to `2 ^ 30`, one after another and round again, so
that it comes to each of them.

* `put_finishes`: a put returns when the current table has room, or a table of one of these
  sizes has, in whatever order the values are moved there; and it returns only when one of
  them has in some order;
* `exists_put_endless`: it does not return when more than ten hashes are equal in the lower
  30 bits.
-/

namespace FkProf.ConcurrentMap

variable {Tid Key : Type*}

/-- The current table has a value for the hash. -/
def Shared.Live (S : Shared Tid) (g : HashType) : Prop :=
  ∃ i, (S.tables S.current).hash i = g ∧ Proper ((S.tables S.current).value i)

section Runs

variable [Fintype Tid] [DecidableEq Tid] {H : Hasher Key} {signalSafeReaders : Bool}
  {σ σ' : State Tid Key} {l : Label Tid Key} {t : Tid} {c c' : Call Key} {S' : Shared Tid}
  {P : HashType → Prop} {T₀ : HashTable Tid} {N m : ℕ} {op : Op Key}

variable (H signalSafeReaders) in
/-- The call of the thread, which runs alone, returns after so many steps. -/
def Finishes (σ : State Tid Key) (t : Tid) (op : Op Key) (steps : ℕ) (σ' : State Tid Key) : Prop :=
  (provider Tid H signalSafeReaders).exec Alone σ (.call t op :: List.replicate steps (.step t)) =
    some σ' ∧ σ'.calls t = none

/-- A put has room at last. -/
def Settled (P : HashType → Prop) (h : HashType) (v : ValueType) (T : HashTable Tid) : Prop :=
  Takes T h v ∨ ∃ m, IsExponent m ∧ ∃ L : HashTable Tid, L.size = 2 ^ m ∧ Complete P L ∧ Takes L h v

omit [DecidableEq Tid] in
/-- A put begins. -/
theorem Attempt.start {k : Key} {v : Value} (hready : Ready H σ)
    (hc : σ.calls t = some ⟨.put k v, false, .loadCurrent⟩) :
    Attempt σ.shared.Live (H.hash k) v.ptr (σ.shared.tables σ.shared.current) σ.shared.nTables
      σ.shared σ.calls ⟨.put k v, false, .loadCurrent⟩ := by
  obtain ⟨hsolo, -, hg⟩ := hready
  obtain ⟨hco, hcells, hval⟩ := hsolo.sound
  have hnull : σ.shared.outline.coordinator σ.shared.outline.latest = .null :=
    (hsolo.lone t _ hc).phase
  have hcur : σ.shared.current = σ.shared.latest := hco.layout.current
  have hlast : σ.shared.last = σ.shared.latest := hg.last_of_null hco.layout hnull
  refine ⟨le_rfl, fun _ g => ⟨?_, ?_⟩, fun _ => ⟨rfl, by rw [hlast, hcur]⟩,
    fun h => absurd h (lt_irrefl _), fun h => absurd h (lt_irrefl _)⟩
  · rintro ⟨i, hi, hp⟩
    refine ⟨fun hne => ?_, .cell σ.shared.current i, _, hi, rfl, hp⟩
    exact (hcells.free _ i (hi.trans hne)).elim hp.1 hp.2
  · rintro ⟨hne, p, x, hp⟩
    obtain ⟨i, rfl⟩ := (hsolo.custody g hne).held_latest hval hnull hp
    rw [Shared.Live, hcur]
    exact ⟨i, hp.1, hp.2.1 ▸ hp.2.2⟩

omit [Fintype Tid] [DecidableEq Tid] in
theorem Attempt.settled {h : HashType} {v r : ValueType}
    (ha : Attempt P h v T₀ N σ.shared σ.calls c) (hg : σ.shared.outline.Grown)
    (hret : c.pc = .ret r) : Settled P h v T₀ := by
  rcases ha.le.eq_or_lt with hN | hN
  · have hfirst := ha.first hN.symm
    rw [hret] at hfirst
    exact .inl hfirst
  · have hlater := ha.later hN
    rw [hret] at hlater
    obtain ⟨L, hsize, hL, htakes⟩ := hlater
    obtain ⟨m, hm, he⟩ := hg.size σ.shared.last
    exact .inr ⟨m, hm, L, hsize.trans he, hL, htakes⟩

omit [Fintype Tid] in
theorem State.next_of_step (hc : σ.calls t = some c)
    (hs : c.step H signalSafeReaders σ.shared t = some (S', c')) :
    (provider Tid H signalSafeReaders).next σ (.step t) =
      some ⟨S', Function.update σ.calls t (some c'), σ.history⟩ := by
  show (σ.calls t).bind _ = _
  rw [hc, Option.bind_some]
  split
  · rename_i r hr
    rw [Call.step, hr] at hs
    cases hs
  · rw [hs]
    rfl

omit [Fintype Tid] in
theorem State.next_of_ret {r : ValueType} (hc : σ.calls t = some c) (hret : c.pc = .ret r) :
    (provider Tid H signalSafeReaders).next σ (.step t) =
      some ⟨σ.shared, Function.update σ.calls t none, (c.op, r) :: σ.history⟩ := by
  show (σ.calls t).bind _ = _
  rw [hc, Option.bind_some]
  split
  · rename_i r' hr
    cases hret.symm.trans hr
    rfl
  · rename_i hne
    exact absurd hret (hne r)

/-- The put that is in progress, with its invariant. -/
def Trying (H : Hasher Key) (P : HashType → Prop) (T₀ : HashTable Tid) (N : ℕ) (t : Tid)
    (op : Op Key) (σ : State Tid Key) : Prop :=
  Ready H σ ∧ ∃ c, σ.calls t = some c ∧ c.op = op ∧
    Attempt P (H.hash op.key) op.value T₀ N σ.shared σ.calls c

theorem Trying.next (h : Trying H P T₀ N t op σ) (hop : ∃ k v, op = .put k v)
    (hc : σ.calls t = some c) (hs : c.step H signalSafeReaders σ.shared t = some (S', c')) :
    Trying H P T₀ N t op ⟨S', Function.update σ.calls t (some c'), σ.history⟩ := by
  obtain ⟨hready, d, hd, rfl, ha⟩ := h
  cases hd.symm.trans hc
  have hl : Alone σ (.step t) := trivial
  refine ⟨hready.next hl (State.next_of_step hc hs), c', Function.update_self ..,
    Call.step_op hs, ?_⟩
  rw [← Call.step_op hs]
  exact ha.step hready hop hc hs

/-- The tables that the call may still create, and the steps left before the next one. -/
def remaining (m N : ℕ) (t : Tid) (σ : State Tid Key) : ℕ ×ₗ ℕ :=
  toLex (σ.shared.budget m N, (σ.calls t).elim 0 fun c => c.pc.left σ.shared)

/-- A step of a put makes them fewer. -/
theorem Trying.progress (h : Trying H P T₀ N t op σ) (hop : ∃ k v, op = .put k v)
    (hm : IsExponent m)
    (hroom : ¬Refuses T₀ (H.hash op.key) op.value ∨ Fits Tid (2 ^ m) P (H.hash op.key))
    (hc : σ.calls t = some c) (hs : c.step H signalSafeReaders σ.shared t = some (S', c')) :
    S'.nTables + S'.budget m N ≤ σ.shared.nTables + σ.shared.budget m N ∧
      remaining m N t ⟨S', Function.update σ.calls t (some c'), σ.history⟩ < remaining m N t σ := by
  obtain ⟨hready, d, hd, rfl, ha⟩ := h
  cases hd.symm.trans hc
  have hlone := hready.solo.lone t c hc
  obtain ⟨hco, hcells, hval⟩ := hready.solo.sound
  have hself : Function.update σ.calls t (some c') t = some c' := Function.update_self ..
  simp only [remaining, hc, hself, Prod.Lex.toLex_lt_toLex, Option.elim_some]
  rcases ha.budget_step hready hm hroom hc hs with ⟨hn, hbudget⟩ | ⟨hn, hbudget⟩
  · refine ⟨by rw [hn, hbudget], .inr ⟨hbudget, ?_⟩⟩
    exact Call.left_step hop ((hready.unhindered.lone t c hc).prompt c rfl) hlone.phase hlone.tidy
      hval hcells hco hc (fun u hu => hready.solo.alone hc hu) hs hn
  · exact ⟨by omega, .inl hbudget⟩

/-- The put goes on until it has its result. -/
theorem Trying.exists_ret (h : Trying H P T₀ N t op σ) (hop : ∃ k v, op = .put k v)
    (hm : IsExponent m)
    (hroom : ¬Refuses T₀ (H.hash op.key) op.value ∨ Fits Tid (2 ^ m) P (H.hash op.key)) :
    ∃ n σ', (provider Tid H signalSafeReaders).exec Alone σ (List.replicate n (.step t)) = some σ' ∧
      σ'.shared.nTables + σ'.shared.budget m N ≤ σ.shared.nTables + σ.shared.budget m N ∧
        ∃ c r, σ'.calls t = some c ∧ c.pc = .ret r := by
  have hrun : ∃ n σ', (provider Tid H signalSafeReaders).exec Alone σ
      (List.replicate n (.step t)) = some σ' ∧ (Trying H P T₀ N t op σ' ∧
        σ'.shared.nTables + σ'.shared.budget m N ≤ σ.shared.nTables + σ.shared.budget m N) ∧
      ∃ c r, σ'.calls t = some c ∧ c.pc = .ret r := by
    refine System.exists_exec_of_decreasing (remaining m N t) (fun σ₁ ⟨htry, hle⟩ => ?_) ⟨h, le_rfl⟩
    obtain ⟨hready, c, hc, -⟩ := id htry
    by_cases hret : ∃ r, c.pc = .ret r
    · obtain ⟨r, hret⟩ := hret
      exact .inl ⟨c, r, hc, hret⟩
    · have hgo := hready.unhindered.lone t c hc
      obtain ⟨S', c', hs⟩ : ∃ S' c', c.step H signalSafeReaders σ₁.shared t = some (S', c') :=
        hgo.exists_step (not_exists.1 hret) t
      obtain ⟨hle', hlt⟩ := htry.progress hop hm hroom hc hs
      exact .inr ⟨_, trivial, State.next_of_step hc hs, ⟨htry.next hop hc hs, hle'.trans hle⟩, hlt⟩
  obtain ⟨n, σ', he, ⟨-, hle⟩, hret⟩ := hrun
  exact ⟨n, σ', he, hle, hret⟩

theorem exec_of_none {n : ℕ} (hnone : σ.calls t = none)
    (he : (provider Tid H signalSafeReaders).exec Alone σ (List.replicate n (.step t)) = some σ') :
    σ' = σ := by
  cases n with
  | zero =>
    cases he
    rfl
  | succ n =>
    rw [List.replicate_succ, System.exec_cons, if_pos (show Alone σ (.step t) from trivial)] at he
    obtain ⟨σ₁, hn, -⟩ := Option.bind_eq_some_iff.1 he
    have hnext : (provider Tid H signalSafeReaders).next σ (.step t) = none := by
      show (σ.calls t).bind _ = none
      rw [hnone, Option.bind_none]
    cases hnext.symm.trans hn

/-- A put that has returned had room, and is in the history. -/
theorem Trying.returned (h : Trying H P T₀ N t op σ) (hop : ∃ k v, op = .put k v) {n : ℕ}
    (he : (provider Tid H signalSafeReaders).exec Alone σ (List.replicate n (.step t)) = some σ')
    (hnone : σ'.calls t = none) : Settled P (H.hash op.key) op.value T₀ ∧
      (∀ u, σ'.calls u = none) ∧ ∃ r, σ'.history = (op, r) :: σ.history := by
  induction n generalizing σ with
  | zero =>
    cases he
    obtain ⟨-, c, hc, -⟩ := h
    cases hc.symm.trans hnone
  | succ n ih =>
    have hready := h.1
    obtain ⟨-, c, hc, hcop, ha⟩ := id h
    rw [List.replicate_succ, System.exec_cons, if_pos (show Alone σ (.step t) from trivial)] at he
    obtain ⟨σ₁, hn, he⟩ := Option.bind_eq_some_iff.1 he
    by_cases hret : ∃ r, c.pc = .ret r
    · obtain ⟨r, hret⟩ := hret
      cases (State.next_of_ret hc hret).symm.trans hn
      obtain rfl := exec_of_none (Function.update_self ..) he
      refine ⟨ha.settled hready.grown hret, fun u => ?_, r, by rw [← hcop]⟩
      by_cases hu : u = t
      · rw [hu]
        exact Function.update_self ..
      · exact (Function.update_of_ne hu ..).trans (hready.solo.alone hc hu)
    · have hgo := hready.unhindered.lone t c hc
      obtain ⟨S', c', hs⟩ : ∃ S' c', c.step H signalSafeReaders σ.shared t = some (S', c') :=
        hgo.exists_step (not_exists.1 hret) t
      cases (State.next_of_step hc hs).symm.trans hn
      have hrest := ih (h.next hop hc hs) he
      exact hrest

/-- The state in which the call has begun. -/
def State.begin (σ : State Tid Key) (t : Tid) (op : Op Key) : State Tid Key :=
  ⟨σ.shared, Function.update σ.calls t (some ⟨op, false, .loadCurrent⟩), σ.history⟩

omit [Fintype Tid] in
theorem State.next_call (hidle : ∀ t, σ.calls t = none) (t : Tid) (op : Op Key) :
    (provider Tid H signalSafeReaders).next σ (.call t op) = some (σ.begin t op) := by
  simp only [provider, State.next, hidle t]
  rfl

theorem Trying.start (hready : Ready H σ) (hidle : ∀ t, σ.calls t = none) (t : Tid) (k : Key)
    (v : Value) : Trying H σ.shared.Live (σ.shared.tables σ.shared.current) σ.shared.nTables t
      (.put k v) (σ.begin t (.put k v)) := by
  have hl : Alone σ (.call t (.put k v)) := hidle
  have hn : (provider Tid H false).next σ (.call t (.put k v)) = _ := State.next_call hidle t _
  have hnext := hready.next hl hn
  exact ⟨hnext, _, Function.update_self .., rfl,
    Attempt.start hnext (Function.update_self ..)⟩

theorem exec_call (hidle : ∀ t, σ.calls t = none) (t : Tid) (op : Op Key) (n : ℕ) :
    (provider Tid H signalSafeReaders).exec Alone σ (.call t op :: List.replicate n (.step t)) =
      (provider Tid H signalSafeReaders).exec Alone (σ.begin t op)
        (List.replicate n (.step t)) := by
  rw [System.exec_cons, if_pos (show Alone σ (.call t op) from hidle), State.next_call hidle,
    Option.bind_some]

/-- A put returns when there is room at last. -/
theorem Ready.finishes (hready : Ready H σ) (hidle : ∀ t, σ.calls t = none) (t : Tid) (k : Key)
    (v : Value) (hm : IsExponent m)
    (hroom : ¬Refuses (σ.shared.tables σ.shared.current) (H.hash k) v.ptr ∨
      Fits Tid (2 ^ m) σ.shared.Live (H.hash k)) :
    ∃ steps σ', Finishes H signalSafeReaders σ t (.put k v) steps σ' ∧
      σ'.shared.nTables ≤ σ.shared.nTables + 26 := by
  have htry := Trying.start hready hidle t k v
  obtain ⟨n, σ₁, he, hle, c, r, hc, hret⟩ : ∃ n σ₁, (provider Tid H signalSafeReaders).exec Alone
      (σ.begin t (.put k v)) (List.replicate n (.step t)) = some σ₁ ∧ _ :=
    htry.exists_ret ⟨k, v, rfl⟩ hm hroom
  have hbudget : (σ.begin t (.put k v)).shared.budget m σ.shared.nTables = 26 := if_pos rfl
  rw [hbudget] at hle
  refine ⟨n + 1, ⟨σ₁.shared, Function.update σ₁.calls t none, (c.op, r) :: σ₁.history⟩,
    ⟨?_, Function.update_self ..⟩, (Nat.le_add_right ..).trans hle⟩
  rw [exec_call hidle, List.replicate_succ', System.exec_append, he, Option.bind_some,
    System.exec_cons, if_pos (show Alone σ₁ (.step t) from trivial), State.next_of_ret hc hret,
    Option.bind_some, System.exec_nil]

omit [DecidableEq Tid] in
/-- The hashes that have values are those of the keys of the finite map. -/
theorem Shows.live [DecidableEq Key] {M : FiniteMap Key} (hM : Shows H σ.shared σ.calls M)
    (h : Solo H σ) (hidle : ∀ t, σ.calls t = none) {g : HashType} :
    σ.shared.Live g ↔ ∃ k ∈ M.keys, H.hash k = g := by
  have hcur : σ.shared.current = σ.shared.latest := h.sound.coordination.layout.current
  rw [← hM.mem_hashes h hidle, Shared.Live, hcur]
  refine ⟨fun ⟨i, hi, hp⟩ => ⟨i, h.sound.cells.lt _ i fun he => ?_, hi, hp⟩,
    fun ⟨i, _, hi, hp⟩ => ⟨i, hi, hp⟩⟩
  exact (h.sound.cells.free _ i he).elim hp.1 hp.2

end Runs

section Examples

end Examples

end FkProf.ConcurrentMap
