import FkProf.CircularQueue
import FkProf.Foundations.System
import FkProf.ThreadMap
import Mathlib.Data.List.Count

/-!
# References to the buckets

A bucket starts with the reference of the map. `Profiler::handle` acquires one in
`get` and leaves it to the queue with `push`; the worker takes it out in `pop`, and
`LogWriter::record` releases it. `put` releases the bucket it replaces, `remove`
the one it takes out.

A step is the part of a call that changes the map, the queue or a count. Handlers
between `get` and the return of `push`, and calls that have a bucket to release,
hold a reference in between. A key is put, looked up and removed by the thread
that owns it, so that no step on the same key comes between the lookup of a bucket
in `get` and its acquisition. The queue is the list of the buckets of its unpopped
entries.

When `push` fails, its handler returns, and the reference it has acquired is never
released (`Leaks`). In a run without that step the counts are exact.

* `counted_of_run`: the invariant of these runs;
* `refs_exact`: the counts between the calls, and when a bucket is deleted;
* `exists_leak`: a run in which the queue is full.
-/

namespace FkProf.ThreadMap

open FkProf.Gc (GC EpochType)

/-! ## The pipeline -/

/-- Where the worker is in `pop`: before `LogWriter::record`, or past it, before the
    entry is free again. -/
inductive Worker
  | idle
  | recording
  | recorded
  deriving DecidableEq

/-- The thread map, the queue, what the handlers in flight have got from `get`, and
    the buckets that `put` and `remove` have yet to release. -/
structure Pipeline (Key Table : Type*) where
  threads : State Key Table
  queue : List (Option ℕ)
  handling : List (Option ℕ)
  releasing : List ℕ
  worker : Worker

/-- Who takes a step: a thread that starts or ends, one that releases a bucket, a
    handler whose thread has a `JNIEnv` or has none, one that pushes, or the worker. -/
inductive PipelineLabel (Key Table : Type*)
  | put (key : Key) (name : String) (tid : ℤ) (retired : List Table)
  | remove (key : Key) (retired : List Table)
  | release (b : ℕ)
  | get (key : Key)
  | noEnv
  | push (info : Option ℕ)
  | pop
  | record
  | popped

section Steps

variable {Key Table : Type*} [DecidableEq Key]

/-- The next state. -/
def Pipeline.next (σ : Pipeline Key Table) :
    PipelineLabel Key Table → Option (Pipeline Key Table)
  | .put key name tid retired =>
    let p := σ.threads.insert key name tid retired
    some { σ with
      threads := p.1.safepoint σ.threads.nBuckets
      releasing := p.2.toList ++ σ.releasing }
  | .remove key retired =>
    let p := σ.threads.unmap key retired
    some { σ with threads := p.1, releasing := p.2.toList ++ σ.releasing }
  | .release b =>
    if b ∈ σ.releasing then
      some { σ with threads := σ.threads.release b, releasing := σ.releasing.erase b }
    else none
  | .get key =>
    let p := σ.threads.get key
    some { σ with threads := p.1, handling := p.2 :: σ.handling }
  | .noEnv => some { σ with handling := none :: σ.handling }
  | .push info =>
    if info ∈ σ.handling then
      -- A failed push leaves `info` where it is.
      some { σ with
        handling := σ.handling.erase info
        queue := if σ.queue.length < Queue.Size then σ.queue ++ [info] else σ.queue }
    else none
  | .pop =>
    if σ.worker = .idle ∧ σ.queue ≠ [] then some { σ with worker := .recording } else none
  | .record =>
    match σ.worker, σ.queue with
    | .recording, some b :: _ =>
      some { σ with worker := .recorded, threads := σ.threads.release b }
    | .recording, none :: _ => some { σ with worker := .recorded }
    | _, _ => none
  | .popped =>
    if σ.worker = .recorded then some { σ with worker := .idle, queue := σ.queue.tail } else none

omit [DecidableEq Key] in
/-- The empty map and the empty queue. -/
def Pipeline.initial : Pipeline Key Table := ⟨.initial, [], [], [], .idle⟩

variable (Key Table) in
/-- The pipeline as a transition system. -/
def pipeline : System (Pipeline Key Table) (PipelineLabel Key Table) where
  init := {Pipeline.initial}
  next := Pipeline.next

omit [DecidableEq Key] in
/-- A handler that has acquired a bucket finds the queue full. -/
def Leaks (σ : Pipeline Key Table) : PipelineLabel Key Table → Prop
  | .push info => info ≠ none ∧ Queue.Size ≤ σ.queue.length
  | _ => False

omit [DecidableEq Key] in
/-- The other steps. -/
def Keeps (σ : Pipeline Key Table) (l : PipelineLabel Key Table) : Prop := ¬Leaks σ l

instance (σ : Pipeline Key Table) (l : PipelineLabel Key Table) : Decidable (Keeps σ l) := by
  cases l <;> simp only [Keeps, Leaks] <;> infer_instance

end Steps

/-! ## The invariant -/

variable {Key Table : Type*} {σ σ' : Pipeline Key Table}

/-- The entries of the queue whose references have not been released. -/
def Pipeline.unpopped (σ : Pipeline Key Table) : List (Option ℕ) :=
  if σ.worker = .recorded then σ.queue.tail else σ.queue

/-- The references that calls in progress hold. -/
def Pipeline.inFlight (σ : Pipeline Key Table) (b : ℕ) : ℕ :=
  σ.handling.count (some b) + σ.releasing.count b

/-- The references to a bucket, wherever they are. -/
def Pipeline.references (σ : Pipeline Key Table) (b : ℕ) : ℕ :=
  σ.threads.mapped.count b + σ.unpopped.count (some b) + σ.inFlight b

/-- The counts are exact. -/
structure Counted (σ : Pipeline Key Table) : Prop where
  nodup : σ.threads.mapped.Nodup
  refs : ∀ b, (σ.threads.buckets b).refs = σ.references b
  alloc : ∀ b, σ.threads.nBuckets ≤ b → σ.references b = 0
  deleted : ∀ b, b < σ.threads.nBuckets →
    ((σ.threads.buckets b).deleted = true ↔ σ.references b = 0)
  worker : σ.worker ≠ .idle → σ.queue ≠ []

/-- What a step does to a bucket that is not its own. -/
structure SameBucket (tb tb' : ThreadBucket) : Prop where
  refs : tb'.refs = tb.refs
  deleted : tb'.deleted = tb.deleted

/-- A step that moves references, and neither acquires nor releases one. -/
theorem Counted.move (h : Counted σ) (hnodup : σ'.threads.mapped.Nodup)
    (hbuckets : ∀ b, SameBucket (σ.threads.buckets b) (σ'.threads.buckets b))
    (hn : σ'.threads.nBuckets = σ.threads.nBuckets)
    (href : ∀ b, σ'.references b = σ.references b)
    (hworker : σ'.worker ≠ .idle → σ'.queue ≠ []) : Counted σ' where
  nodup := hnodup
  refs b := by rw [(hbuckets b).refs, href, h.refs]
  alloc b hb := by rw [href, h.alloc b (hn ▸ hb)]
  deleted b hb := by rw [(hbuckets b).deleted, href, h.deleted b (hn ▸ hb)]
  worker := hworker

theorem Counted.lt_of_pos (h : Counted σ) {b : ℕ} (hb : 0 < σ.references b) :
    b < σ.threads.nBuckets := by
  by_contra hge
  rw [h.alloc b (not_lt.1 hge)] at hb
  exact lt_irrefl _ hb

/-- A step that releases a reference. -/
theorem Counted.release (h : Counted σ) {b : ℕ} (ht : σ'.threads = σ.threads.release b)
    (hb : σ.references b = σ'.references b + 1)
    (hother : ∀ b', b' ≠ b → σ'.references b' = σ.references b')
    (hworker : σ'.worker ≠ .idle → σ'.queue ≠ []) : Counted σ' := by
  have hlt := h.lt_of_pos (b := b) (by omega)
  have hself : σ'.threads.buckets b = { σ.threads.buckets b with
      refs := (σ.threads.buckets b).refs - 1
      deleted := if (σ.threads.buckets b).refs = 1 then true
        else (σ.threads.buckets b).deleted } := by
    rw [ht]
    exact Function.update_self _ _ _
  have hrest : ∀ b', b' ≠ b → σ'.threads.buckets b' = σ.threads.buckets b' := fun b' hne => by
    rw [ht]
    exact Function.update_of_ne hne _ _
  have hn : σ'.threads.nBuckets = σ.threads.nBuckets := by rw [ht]; rfl
  refine ⟨by rw [ht]; exact h.nodup, fun b' => ?_, fun b' hb' => ?_, fun b' hb' => ?_, hworker⟩
  · by_cases hne : b' = b
    · subst hne
      have hrefs := h.refs b'
      rw [hself]
      dsimp only
      omega
    · rw [hrest b' hne, hother b' hne, h.refs]
  · rw [hn] at hb'
    rw [hother b' (by omega), h.alloc b' hb']
  · by_cases hne : b' = b
    · subst hne
      have hrefs := h.refs b'
      have hdel := h.deleted b' hlt
      rw [hself]
      dsimp only
      split
      · simp only [true_iff]
        omega
      · rw [hdel]
        omega
    · rw [hrest b' hne, hother b' hne, h.deleted b' (hn ▸ hb')]

/-- A step that acquires a reference, to a new bucket or to one that is not
    deleted. -/
theorem Counted.acquire (h : Counted σ) {b : ℕ} (hnodup : σ'.threads.mapped.Nodup)
    (hself : (σ'.threads.buckets b).refs = (σ.threads.buckets b).refs + 1)
    (hlive : (σ'.threads.buckets b).deleted = false)
    (hbuckets : ∀ b', b' ≠ b → SameBucket (σ.threads.buckets b') (σ'.threads.buckets b'))
    (hn : ∀ b', b' < σ'.threads.nBuckets ↔ b' < σ.threads.nBuckets ∨ b' = b)
    (hb : σ'.references b = σ.references b + 1)
    (hother : ∀ b', b' ≠ b → σ'.references b' = σ.references b')
    (hworker : σ'.worker ≠ .idle → σ'.queue ≠ []) : Counted σ' := by
  refine ⟨hnodup, fun b' => ?_, fun b' hb' => ?_, fun b' hb' => ?_, hworker⟩
  · by_cases hne : b' = b
    · subst hne
      rw [hself, hb, h.refs]
      push_cast
      rfl
    · rw [(hbuckets b' hne).refs, hother b' hne, h.refs]
  · have hlt := (hn b').not.1 (not_lt.2 hb')
    rw [hother b' (fun he => hlt (.inr he)), h.alloc b' (not_lt.1 fun hlt' => hlt (.inl hlt'))]
  · by_cases hne : b' = b
    · subst hne
      simp [hlive, hb]
    · rw [(hbuckets b' hne).deleted, hother b' hne,
        h.deleted b' (((hn b').1 hb').resolve_right hne)]

/-! ## The steps -/

section Map

variable [DecidableEq Key] {threads : State Key Table}

/-- What leaves the map under a key is what was mapped under it. -/
theorem count_erase (threads : State Key Table) (key : Key) (b : ℕ) :
    (threads.erase key).mapped.count b +
      (threads.map.lookup key).toList.count b = threads.mapped.count b := by
  cases hkey : threads.map.lookup key with
  | none =>
    rw [mapped_erase_of_lookup_none hkey]
    simp
  | some old =>
    rw [(mapped_perm_of_lookup hkey).count_eq b, List.count_cons]
    simp [List.count_singleton]

theorem nodup_erase (h : threads.mapped.Nodup) (key : Key) :
    (threads.erase key).mapped.Nodup := by
  cases hkey : threads.map.lookup key with
  | none => rwa [mapped_erase_of_lookup_none hkey]
  | some b => exact (List.nodup_cons.1 ((mapped_perm_of_lookup hkey).nodup_iff.1 h)).2

omit [DecidableEq Key] in
/-- A bucket passes the global epoch: the counts are not concerned. -/
theorem sameBucket_epoch (threads : State Key Table) (e : EpochType) (gc : GC Unit Table)
    (b b' : ℕ) :
    SameBucket (threads.buckets b')
      (({ threads with gc := gc }.setBucket b
        { threads.buckets b with localEpoch := e }).buckets b') := by
  by_cases hb : b' = b
  · subst hb
    constructor <;> simp [State.setBucket]
  · constructor <;> simp [State.setBucket, hb]

omit [DecidableEq Key] in
theorem sameBucket_detach (threads : State Key Table) (b b' : ℕ) :
    SameBucket (threads.buckets b') ((threads.detach b).buckets b') := by
  unfold State.detach
  split
  · by_cases hb : b' = b
    · subst hb
      constructor <;> simp [State.setBucket]
    · constructor <;> simp [State.setBucket, hb]
  · exact ⟨rfl, rfl⟩

end Map

variable [DecidableEq Key]

theorem Counted.put (h : Counted σ) {key : Key} {name : String} {tid : ℤ} {retired : List Table}
    (hn : σ.next (.put key name tid retired) = some σ') : Counted σ' := by
  simp only [Pipeline.next, Option.some.injEq] at hn
  subst hn
  have hzero := h.alloc σ.threads.nBuckets le_rfl
  have hfresh : σ.threads.nBuckets ∉ (σ.threads.erase key).mapped := fun hmem => by
    have hpos := List.count_pos_iff.2 hmem
    have hcount := count_erase σ.threads key σ.threads.nBuckets
    simp only [Pipeline.references] at hzero
    omega
  set th := (σ.threads.insert key name tid retired).1
  have hsame := fun b => sameBucket_epoch th
    (th.gc.safepoint (th.buckets σ.threads.nBuckets).localEpoch).2
    (th.gc.safepoint (th.buckets σ.threads.nBuckets).localEpoch).1 σ.threads.nBuckets b
  have hnew : th.buckets σ.threads.nBuckets =
      ⟨tid, name, 1, σ.threads.gc.attachThread.2, true, false⟩ := Function.update_self _ _ _
  have hold : ∀ b, b ≠ σ.threads.nBuckets → th.buckets b = σ.threads.buckets b := fun b hb =>
    Function.update_of_ne hb _ _
  have hmapped : (th.safepoint σ.threads.nBuckets).mapped =
      σ.threads.nBuckets :: (σ.threads.erase key).mapped :=
    mapped_insert σ.threads key σ.threads.nBuckets
  have hrefs : ∀ b, Pipeline.references { σ with
        threads := th.safepoint σ.threads.nBuckets
        releasing := (σ.threads.map.lookup key).toList ++ σ.releasing } b =
      σ.references b + if σ.threads.nBuckets = b then 1 else 0 := fun b => by
    have hcount := count_erase σ.threads key b
    simp only [Pipeline.references, Pipeline.inFlight, Pipeline.unpopped, hmapped, List.count_cons,
      List.count_append, beq_iff_eq]
    omega
  refine h.acquire (b := σ.threads.nBuckets) ?_ ?_ ?_ (fun b hb => ?_) (fun b => ?_) ?_
    (fun b hb => ?_) h.worker
  · change (th.safepoint σ.threads.nBuckets).mapped.Nodup
    rw [hmapped]
    exact List.nodup_cons.2 ⟨hfresh, nodup_erase h.nodup key⟩
  · refine ((hsame _).refs).trans ?_
    rw [hnew, h.refs, hzero]
    rfl
  · refine ((hsame _).deleted).trans ?_
    rw [hnew]
  · rw [← hold b hb]
    exact hsame b
  · exact Nat.lt_succ_iff_lt_or_eq
  · exact (hrefs _).trans (by simp)
  · exact (hrefs b).trans (by simp [Ne.symm hb])

theorem Counted.get (h : Counted σ) {key : Key} (hn : σ.next (.get key) = some σ') :
    Counted σ' := by
  simp only [Pipeline.next, Option.some.injEq] at hn
  subst hn
  cases hkey : σ.threads.map.lookup key with
  | none =>
    have hget : σ.threads.get key = (σ.threads, none) := by simp [State.get, State.acqBucket, hkey]
    rw [hget]
    refine h.move h.nodup (fun _ => ⟨rfl, rfl⟩) rfl (fun b => ?_) h.worker
    simp [Pipeline.references, Pipeline.inFlight, Pipeline.unpopped]
  | some b =>
    have hmem : b ∈ σ.threads.mapped := mem_mapped_of_lookup hkey
    have hpos : 0 < σ.references b := by
      have := List.count_pos_iff.2 hmem
      simp only [Pipeline.references]
      omega
    have hrefs : 0 < (σ.threads.buckets b).refs := by
      rw [h.refs]
      exact_mod_cast hpos
    set th := σ.threads.setBucket b { σ.threads.buckets b with
      refs := (σ.threads.buckets b).refs + 1 }
    have hget : σ.threads.get key = (th.signalSafepoint b, some b) := by
      simp [State.get, State.acqBucket, hkey, hrefs, th]
    rw [hget]
    have hsame := fun b' => sameBucket_epoch th
      (th.gc.ssSafepoint (th.buckets b).localEpoch).2
      (th.gc.ssSafepoint (th.buckets b).localEpoch).1 b b'
    have hself : th.buckets b = { σ.threads.buckets b with
        refs := (σ.threads.buckets b).refs + 1 } := Function.update_self _ _ _
    have hold : ∀ b', b' ≠ b → th.buckets b' = σ.threads.buckets b' := fun b' hb =>
      Function.update_of_ne hb _ _
    have hrefs : ∀ b', Pipeline.references { σ with
          threads := th.signalSafepoint b, handling := some b :: σ.handling } b' =
        σ.references b' + if b = b' then 1 else 0 := fun b' => by
      have hmapped : (th.signalSafepoint b).mapped = σ.threads.mapped := rfl
      simp only [Pipeline.references, Pipeline.inFlight, Pipeline.unpopped, hmapped,
        List.count_cons, beq_iff_eq, Option.some.injEq]
      omega
    refine h.acquire (b := b) h.nodup ?_ ?_ (fun b' hb' => ?_) (fun b' => ?_) ?_
      (fun b' hb' => ?_) h.worker
    · refine ((hsame b).refs).trans ?_
      rw [hself]
    · refine ((hsame b).deleted).trans ?_
      rw [hself]
      have hdel := (h.deleted b (h.lt_of_pos hpos)).not.2 hpos.ne'
      simpa using hdel
    · rw [← hold b' hb']
      exact hsame b'
    · exact ⟨.inl, fun hlt => hlt.elim id fun he => by rw [he]; exact h.lt_of_pos hpos⟩
    · exact (hrefs b).trans (by simp)
    · exact (hrefs b').trans (by simp [Ne.symm hb'])

theorem Counted.remove (h : Counted σ) {key : Key} {retired : List Table}
    (hn : σ.next (.remove key retired) = some σ') : Counted σ' := by
  simp only [Pipeline.next, Option.some.injEq] at hn
  subst hn
  have hcount := count_erase σ.threads key
  cases hkey : σ.threads.map.lookup key with
  | none =>
    have hunmap : σ.threads.unmap key retired = (σ.threads.retire retired, none) := by
      simp [State.unmap, hkey]
    rw [hunmap]
    exact h.move h.nodup (fun _ => ⟨rfl, rfl⟩) rfl (fun _ => rfl) h.worker
  | some b =>
    have hunmap : σ.threads.unmap key retired =
        (((σ.threads.erase key).retire retired).detach b, some b) := by
      simp [State.unmap, hkey]
    have hmapped : (((σ.threads.erase key).retire retired).detach b).mapped =
        (σ.threads.erase key).mapped := by
      unfold State.detach
      split <;> rfl
    have hnb : (((σ.threads.erase key).retire retired).detach b).nBuckets =
        σ.threads.nBuckets := by
      unfold State.detach
      split <;> rfl
    rw [hunmap]
    refine h.move ?_ (fun b' => ?_) hnb (fun b' => ?_) h.worker
    · rw [hmapped]
      exact nodup_erase h.nodup key
    · exact sameBucket_detach ((σ.threads.erase key).retire retired) b b'
    · have hcount := hcount b'
      simp only [hkey, Option.toList_some] at hcount
      simp only [Pipeline.references, Pipeline.inFlight, Pipeline.unpopped, hmapped,
        Option.toList_some, List.count_append]
      omega

theorem Counted.releaseOld (h : Counted σ) {b : ℕ} (hn : σ.next (.release b) = some σ') :
    Counted σ' := by
  simp only [Pipeline.next] at hn
  split at hn <;> cases hn
  rename_i hmem
  have hrefs : ∀ b', σ.references b' = Pipeline.references { σ with
      threads := σ.threads.release b, releasing := σ.releasing.erase b } b' +
        if b = b' then 1 else 0 := fun b' => by
    have hmapped : (σ.threads.release b).mapped = σ.threads.mapped := rfl
    simp only [Pipeline.references, Pipeline.inFlight, Pipeline.unpopped, hmapped]
    rw [(List.perm_cons_erase hmem).count_eq b', List.count_cons]
    simp only [beq_iff_eq]
    omega
  refine h.release (b := b) rfl ?_ (fun b' hb' => ?_) h.worker
  · exact (hrefs b).trans (by simp)
  · exact ((hrefs b').trans (by simp [Ne.symm hb'])).symm

theorem Counted.push (h : Counted σ) {info : Option ℕ} (hl : Keeps σ (.push info))
    (hn : σ.next (.push info) = some σ') : Counted σ' := by
  simp only [Pipeline.next] at hn
  split at hn
  case isFalse => cases hn
  case isTrue hmem =>
    have hcount : ∀ b, σ.handling.count (some b) =
        (σ.handling.erase info).count (some b) + [info].count (some b) := fun b => by
      rw [(List.perm_cons_erase hmem).count_eq, List.count_cons, List.count_singleton]
    rw [Option.some.injEq] at hn
    by_cases hfull : σ.queue.length < Queue.Size
    · rw [if_pos hfull] at hn
      subst hn
      have hunpopped : Pipeline.unpopped { σ with
          handling := σ.handling.erase info, queue := σ.queue ++ [info] } =
            σ.unpopped ++ [info] := by
        unfold Pipeline.unpopped
        dsimp only
        split
        · rename_i hw
          exact List.tail_append_of_ne_nil (h.worker (by simp [hw]))
        · rfl
      refine h.move h.nodup (fun _ => ⟨rfl, rfl⟩) rfl (fun b => ?_) (fun _ => by simp)
      have hcount := hcount b
      simp only [Pipeline.references, Pipeline.inFlight, hunpopped, List.count_append]
      omega
    · have hnone : info = none := by
        by_contra hinfo
        exact hl ⟨hinfo, not_lt.1 hfull⟩
      subst hnone
      rw [if_neg hfull] at hn
      subst hn
      refine h.move h.nodup (fun _ => ⟨rfl, rfl⟩) rfl (fun b => ?_) h.worker
      have hcount := hcount b
      have hzero : [(none : Option ℕ)].count (some b) = 0 := by simp
      simp only [Pipeline.references, Pipeline.inFlight, Pipeline.unpopped]
      omega

theorem Counted.record (h : Counted σ) (hn : σ.next .record = some σ') : Counted σ' := by
  simp only [Pipeline.next] at hn
  split at hn
  case h_1 b rest hw hq =>
    cases hn
    have hrefs : ∀ b', σ.references b' = Pipeline.references { σ with
        worker := .recorded, threads := σ.threads.release b } b' +
          if b = b' then 1 else 0 := fun b' => by
      have hmapped : (σ.threads.release b).mapped = σ.threads.mapped := rfl
      simp only [Pipeline.references, Pipeline.inFlight, Pipeline.unpopped, hmapped, hw, hq,
        List.tail_cons, if_true, reduceCtorEq, if_false, List.count_cons, beq_iff_eq,
        Option.some.injEq]
      omega
    refine h.release (b := b) rfl ?_ (fun b' hb' => ?_) fun _ => by simp [hq]
    · exact (hrefs b).trans (by simp)
    · exact ((hrefs b').trans (by simp [Ne.symm hb'])).symm
  case h_2 rest hw hq =>
    cases hn
    refine h.move h.nodup (fun _ => ⟨rfl, rfl⟩) rfl (fun b => ?_) fun _ => by simp [hq]
    simp [Pipeline.references, Pipeline.inFlight, Pipeline.unpopped, hw, hq]
  case h_3 => cases hn

/-- Every step that does not leak a reference keeps the counts exact. -/
theorem Counted.next (h : Counted σ) {l : PipelineLabel Key Table} (hl : Keeps σ l)
    (hn : σ.next l = some σ') : Counted σ' := by
  cases l with
  | put key name tid retired => exact h.put hn
  | remove key retired => exact h.remove hn
  | release b => exact h.releaseOld hn
  | get key => exact h.get hn
  | noEnv =>
    cases hn
    refine h.move h.nodup (fun _ => ⟨rfl, rfl⟩) rfl (fun b => ?_) h.worker
    simp [Pipeline.references, Pipeline.inFlight, Pipeline.unpopped]
  | push info => exact h.push hl hn
  | pop =>
    simp only [Pipeline.next] at hn
    split at hn <;> cases hn
    rename_i hidle
    refine h.move h.nodup (fun _ => ⟨rfl, rfl⟩) rfl (fun b => ?_) fun _ => hidle.2
    simp [Pipeline.references, Pipeline.inFlight, Pipeline.unpopped, hidle.1]
  | record => exact h.record hn
  | popped =>
    simp only [Pipeline.next] at hn
    split at hn <;> cases hn
    rename_i hw
    refine h.move h.nodup (fun _ => ⟨rfl, rfl⟩) rfl (fun b => ?_) fun hne => absurd rfl hne
    simp [Pipeline.references, Pipeline.inFlight, Pipeline.unpopped, hw]

omit [DecidableEq Key] in
theorem Counted.initial : Counted (Pipeline.initial : Pipeline Key Table) where
  nodup := List.nodup_nil
  refs _ := rfl
  alloc _ _ := rfl
  deleted b hb := absurd hb (Nat.not_lt_zero b)
  worker hw := absurd rfl hw

/-- The counts are exact in every run that does not leak a reference. -/
theorem counted_of_run {tr : List (Pipeline Key Table × PipelineLabel Key Table)}
    (hr : (pipeline Key Table).Run Keeps σ tr σ') (h : Counted σ) : Counted σ' :=
  hr.invariant (fun _ _ _ ha hl hn => ha.next hl hn) h

/-! ## Between the calls -/

/-- No call is in progress. -/
def Pipeline.Quiet (σ : Pipeline Key Table) : Prop :=
  σ.handling = [] ∧ σ.releasing = [] ∧ σ.worker = .idle

/-- In a run in which no `push` of a bucket finds the queue full, between the calls
    a bucket counts one reference if it is in the map, and one for each entry of
    the queue that holds it; and it is deleted exactly when there are none. -/
theorem refs_exact {σ : Pipeline Key Table}
    {tr : List (Pipeline Key Table × PipelineLabel Key Table)}
    (hr : (pipeline Key Table).Run Keeps .initial tr σ) (hq : σ.Quiet) {b : ℕ}
    (hb : b < σ.threads.nBuckets) :
    (σ.threads.buckets b).refs =
        (if b ∈ σ.threads.mapped then 1 else 0) + σ.queue.count (some b) ∧
      ((σ.threads.buckets b).deleted = true ↔
        b ∉ σ.threads.mapped ∧ some b ∉ σ.queue) := by
  have h := counted_of_run hr .initial
  obtain ⟨hhandling, hreleasing, hworker⟩ := hq
  have hrefs : σ.references b = σ.threads.mapped.count b + σ.queue.count (some b) := by
    simp [Pipeline.references, Pipeline.inFlight, Pipeline.unpopped, hhandling, hreleasing,
      hworker]
  constructor
  · rw [h.refs, hrefs, h.nodup.count]
    push_cast
    rfl
  · rw [h.deleted b hb, hrefs, Nat.add_eq_zero_iff, List.count_eq_zero, List.count_eq_zero]

/-- A thread starts and is sampled once. -/
theorem refs_exact_single : ∃ σ : Pipeline (Fin 1) Unit, σ.queue = [some 0] ∧
    (σ.threads.buckets 0).refs =
      (if 0 ∈ σ.threads.mapped then 1 else 0) + σ.queue.count (some 0) := by
  have hrun : ((pipeline (Fin 1) Unit).exec Keeps .initial
      [.put 0 "main" 1 [], .get 0, .push (some 0)]).any (fun σ =>
        decide (σ.queue = [some 0] ∧ (σ.handling = [] ∧ σ.releasing = [] ∧ σ.worker = .idle) ∧
          σ.threads.nBuckets = 1)) = true := by
    decide +kernel
  obtain ⟨tr, σ, hr, hσ⟩ := System.exists_run_of_exec hrun
  obtain ⟨hqueue, hquiet, hn⟩ := of_decide_eq_true hσ
  exact ⟨σ, hqueue, (refs_exact hr hquiet (by rw [hn]; exact Nat.one_pos)).1⟩

/-! ## A full queue -/

/-- A thread has started, and been sampled `n` times; `refs` are counted. -/
structure Sampled (σ : Pipeline (Fin 1) Unit) (n : ℕ) (refs : ℤ) : Prop where
  lookup : σ.threads.map.lookup 0 = some 0
  refs : (σ.threads.buckets 0).refs = refs
  queue : σ.queue = List.replicate n (some 0)
  quiet : σ.Quiet
  nBuckets : σ.threads.nBuckets = 1
  mapped : σ.threads.mapped = [0]

/-- A sample goes to the queue if there is room, and acquires a reference anyway. -/
theorem Sampled.sample {σ : Pipeline (Fin 1) Unit} {n : ℕ} {refs : ℤ} (h : Sampled σ n refs)
    (hpos : 0 < refs) : ∃ tr σ', (pipeline (Fin 1) Unit).Run System.anyStep σ tr σ' ∧
      Sampled σ' (if n < Queue.Size then n + 1 else n) (refs + 1) := by
  obtain ⟨hlookup, hrefs, hqueue, ⟨hhandling, hreleasing, hworker⟩, hn, hmapped⟩ := h
  set th := σ.threads.setBucket 0 { σ.threads.buckets 0 with refs := (σ.threads.buckets 0).refs + 1 }
  have hget : σ.threads.get 0 = (th.signalSafepoint 0, some 0) := by
    simp [State.get, State.acqBucket, hlookup, hrefs, hpos, th]
  have hexec : (pipeline (Fin 1) Unit).exec System.anyStep σ [.get 0, .push (some 0)] =
      some { σ with
        threads := th.signalSafepoint 0
        queue := if n < Queue.Size then σ.queue ++ [some 0] else σ.queue } := by
    simp [System.exec_cons, System.anyStep, pipeline, Pipeline.next, hget, hhandling, hqueue]
  obtain ⟨tr, hr, -⟩ := System.run_of_exec hexec
  refine ⟨tr, _, hr, ⟨hlookup, ?_, ?_, ⟨hhandling, hreleasing, hworker⟩, hn, hmapped⟩⟩
  · simp [State.signalSafepoint, State.setBucket, th, hrefs]
  · dsimp only
    split
    · rw [hqueue, List.replicate_succ']
    · exact hqueue

theorem exists_sampled (n : ℕ) (hn : n ≤ Queue.Size) : ∃ tr σ,
    (pipeline (Fin 1) Unit).Run System.anyStep .initial tr σ ∧ Sampled σ n (n + 1) := by
  induction n with
  | zero =>
    have hrun : ((pipeline (Fin 1) Unit).exec System.anyStep .initial
        [.put 0 "main" 1 []]).any (fun σ => decide (σ.threads.map.lookup 0 = some 0 ∧
          (σ.threads.buckets 0).refs = 1 ∧ σ.queue = [] ∧
          (σ.handling = [] ∧ σ.releasing = [] ∧ σ.worker = .idle) ∧
          σ.threads.nBuckets = 1 ∧ σ.threads.mapped = [0])) = true := by
      decide +kernel
    obtain ⟨tr, σ, hr, hσ⟩ := System.exists_run_of_exec hrun
    obtain ⟨hlookup, hrefs, hqueue, hquiet, hnb, hmapped⟩ := of_decide_eq_true hσ
    exact ⟨tr, σ, hr, hlookup, hrefs, hqueue, hquiet, hnb, hmapped⟩
  | succ n ih =>
    obtain ⟨tr, σ, hr, h⟩ := ih (by omega)
    obtain ⟨tr', σ', hr', h'⟩ := h.sample (by omega)
    rw [if_pos (by omega)] at h'
    exact ⟨_, σ', hr.trans hr', by simpa using h'⟩

/-- A sample finds the queue full: its handler returns, and the bucket counts a
    reference that nothing holds. -/
theorem exists_leak : ¬∀ (σ : Pipeline (Fin 1) Unit)
    (tr : List (Pipeline (Fin 1) Unit × PipelineLabel (Fin 1) Unit)),
    (pipeline (Fin 1) Unit).Run System.anyStep .initial tr σ → σ.Quiet →
      ∀ b < σ.threads.nBuckets,
        (σ.threads.buckets b).refs =
            (if b ∈ σ.threads.mapped then 1 else 0) + σ.queue.count (some b) ∧
          ((σ.threads.buckets b).deleted = true ↔
            b ∉ σ.threads.mapped ∧ some b ∉ σ.queue) := by
  intro hall
  obtain ⟨tr, σ, hr, h⟩ := exists_sampled Queue.Size le_rfl
  obtain ⟨tr', σ', hr', h'⟩ := h.sample (by omega)
  rw [if_neg (lt_irrefl _)] at h'
  have hrefs := (hall σ' _ (hr.trans hr') h'.quiet 0 (by rw [h'.nBuckets]; exact Nat.one_pos)).1
  rw [h'.refs, h'.mapped, h'.queue, List.count_replicate_self] at hrefs
  simp only [List.mem_singleton, if_true] at hrefs
  omega

end FkProf.ThreadMap
