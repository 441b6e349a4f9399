import FkProf.LogWriter.Lines
import Mathlib.Data.Finset.Insert

/-!
# Recording traces

`LogWriter::record` (`log_writer.cpp:81-122`) writes a trace and its frames, and after
the first frame of a method, in whatever trace, what the frame lookup tells about the
method. The writer keeps the methods it has inspected in a set.

* `record_eq`: the records that a call writes;
* `log_wellFormed`: the log is one trace after another, with each method described at
  most once, right after the first frame that refers to it;
* `known_iff_described`: the methods in the set are those described in the log exactly
  if every lookup that is made succeeds;
* `exists_hidden`: a method whose first lookup fails is not looked up again.
-/

namespace FkProf.LogWriter

/-- `JVMPI_CallFrame`. -/
structure JVMPI_CallFrame where
  lineno : Jint
  methodId : Jlong

/-- `JVMPI_CallTrace`, with the frames in memory. -/
structure JVMPI_CallTrace where
  envId : Jlong
  numFrames : Jint
  frames : ℕ → JVMPI_CallFrame

/-- What a lookup passes to `recordNewMethod`, but for the method. -/
structure MethodInfo where
  fileName : CString
  className : CString
  methodName : CString

/-- The answers of the virtual machine about a frame: of its line table, and all that the
    lookup asks for. -/
structure Jvmti (Env : Type*) where
  lineTable : Option (List JvmtiLineNumberEntry)
  env : Env

/-- `GetFrameInformation`: a lookup reports nothing, or calls `recordNewMethod` once with
    the method of the frame. -/
abbrev GetFrameInformation (Env : Type*) := JVMPI_CallFrame → Env → Option MethodInfo

/-- `LogWriter`: what it has written, and the methods it has inspected. -/
structure Writer where
  output : List UInt8
  knownMethods : Finset Jlong

/-- A call of `record`: the trace, the `tid` of the thread bucket, if there is one, and
    the answers for each of the frames. -/
structure Call (Env : Type*) where
  trace : JVMPI_CallTrace
  info : Option (BitVec 32)
  jvmti : ℕ → Jvmti Env

/-! ## The writer -/

section Writer

variable {Env : Type*} (host : Endian) (frameLookup : GetFrameInformation Env)

def Writer.new : Writer := ⟨[], ∅⟩

/-- `inspectMethod`. -/
def inspectMethod (w : Writer) (frame : JVMPI_CallFrame) (env : Env) : Writer :=
  if frame.methodId ∈ w.knownMethods then w
  else
    let w := { w with knownMethods := insert frame.methodId w.knownMethods }
    match frameLookup frame env with
    | none => w
    | some i =>
      let output := recordNewMethod host w.output frame.methodId i.fileName.memory
        i.className.memory i.methodName.memory
      { w with output := output }

/-- The body of the loop, lines 95-107. -/
def recordFrame (w : Writer) (frame : JVMPI_CallFrame) (jvmti : Jvmti Env) : Writer :=
  let bci := frame.lineno
  let output :=
    if (0 : Jint).slt bci then
      recordFrameFull host w.output bci (getLineNo bci jvmti.lineTable) frame.methodId
    else recordFrameBciOnly host w.output bci frame.methodId
  inspectMethod host frameLookup { w with output := output } frame jvmti.env

/-- The thread that is written: that of the bucket, or the environment. -/
def Call.threadId (c : Call Env) : Jlong :=
  match c.info with
  | none => c.trace.envId
  | some tid => tid.signExtend _

/-- The loop, from a frame on, for so many more. -/
def recordFrames (w : Writer) (c : Call Env) (i : ℕ) : ℕ → Writer
  | 0 => w
  | n + 1 => recordFrames (recordFrame host frameLookup w (c.trace.frames i) (c.jvmti i)) c (i + 1) n

/-- `record`. -/
def record (w : Writer) (c : Call Env) : Writer :=
  let output := recordTraceStart host w.output c.trace.numFrames c.threadId
  recordFrames host frameLookup { w with output := output } c 0 c.trace.numFrames.toInt.toNat

end Writer

/-! ## What a call writes -/

section Records

variable {Env : Type*}

/-- The parts of a call: the start of the trace, and its frames. -/
inductive Event (Env : Type*)
  | start (numFrames : Jint) (threadId : Jlong)
  | frame (frame : JVMPI_CallFrame) (jvmti : Jvmti Env)

/-- The parts of a call, from a frame on, for so many more frames. -/
def Call.framesFrom (c : Call Env) (i : ℕ) : ℕ → List (Event Env)
  | 0 => []
  | n + 1 => .frame (c.trace.frames i) (c.jvmti i) :: c.framesFrom (i + 1) n

/-- The parts of a call: none of a negative number of frames. -/
def Call.events (c : Call Env) : List (Event Env) :=
  .start c.trace.numFrames c.threadId :: c.framesFrom 0 c.trace.numFrames.toInt.toNat

/-- The record of a part of a trace. -/
def Event.record : Event Env → Record
  | .start numFrames threadId => .traceStart numFrames threadId
  | .frame f jvmti =>
    if (0 : Jint).slt f.lineno then
      .frameFull f.lineno (getLineNo f.lineno jvmti.lineTable) f.methodId
    else .frameBciOnly f.lineno f.methodId

/-- The record of a method. -/
def MethodInfo.record (methodId : Jlong) (i : MethodInfo) : Record :=
  .newMethod methodId i.fileName i.className i.methodName

/-- The method that a record of a frame refers to. -/
def Record.method? : Record → Option Jlong
  | .frameFull _ _ methodId | .frameBciOnly _ methodId => some methodId
  | _ => none

/-- The method that a record describes. -/
def Record.newMethod? : Record → Option Jlong
  | .newMethod methodId .. => some methodId
  | _ => none

@[simp] theorem MethodInfo.record_newMethod? (methodId : Jlong) (i : MethodInfo) :
    (i.record methodId).newMethod? = some methodId := rfl

@[simp] theorem MethodInfo.record_method? (methodId : Jlong) (i : MethodInfo) :
    (i.record methodId).method? = none := rfl

/-- The method that a part of a call refers to. -/
@[simp] def Event.method? : Event Env → Option Jlong
  | .start .. => none
  | .frame f _ => some f.methodId

/-- The methods inspected after a part of a call. -/
@[simp] def Event.known (known : Finset Jlong) : Event Env → Finset Jlong
  | .start .. => known
  | .frame f _ => insert f.methodId known

variable (host : Endian) (frameLookup : GetFrameInformation Env)

/-- The record of a method that follows. -/
def Event.described? (known : Finset Jlong) : Event Env → Option Record
  | .start .. => none
  | .frame f jvmti =>
    if f.methodId ∈ known then none
    else (frameLookup f jvmti.env).map (MethodInfo.record f.methodId)

/-- The records of parts of calls, one after another. -/
def recordsOf (known : Finset Jlong) : List (Event Env) → List Record
  | [] => []
  | e :: es =>
    e.record :: ((e.described? frameLookup known).toList ++ recordsOf (e.known known) es)

/-- The writer makes a part of a call. -/
def Writer.make (w : Writer) : Event Env → Writer
  | .start numFrames threadId =>
    { w with output := recordTraceStart host w.output numFrames threadId }
  | .frame f jvmti => recordFrame host frameLookup w f jvmti

theorem recordFrames_eq (w : Writer) (c : Call Env) (i n : ℕ) :
    recordFrames host frameLookup w c i n =
      (c.framesFrom i n).foldl (Writer.make host frameLookup) w := by
  induction n generalizing w i with
  | zero => rfl
  | succ n ih => exact ih ..

/-- A call is its parts, one after another. -/
theorem record_eq (w : Writer) (c : Call Env) :
    record host frameLookup w c = c.events.foldl (Writer.make host frameLookup) w :=
  recordFrames_eq ..

theorem foldl_record (w : Writer) (calls : List (Call Env)) :
    calls.foldl (record host frameLookup) w =
      (calls.flatMap Call.events).foldl (Writer.make host frameLookup) w := by
  induction calls generalizing w with
  | nil => rfl
  | cons c calls ih => rw [List.foldl_cons, List.flatMap_cons, List.foldl_append, ← record_eq, ih]

/-- What a part of a call does to the writer. -/
theorem Writer.make_eq (w : Writer) (e : Event Env) :
    w.make host frameLookup e =
      ⟨w.output ++ (e.record :: (e.described? frameLookup w.knownMethods).toList).flatMap
        Record.encode, e.known w.knownMethods⟩ := by
  have hwrite : ∀ r : Record, write host w.output r = w.output ++ r.encode := write_eq host w.output
  cases e with
  | start numFrames threadId =>
    have he := hwrite (.traceStart numFrames threadId)
    rw [write] at he
    simp [make, he, Event.record, Event.described?]
  | frame f jvmti =>
    have he : (if (0 : Jint).slt f.lineno then
        recordFrameFull host w.output f.lineno (getLineNo f.lineno jvmti.lineTable) f.methodId
        else recordFrameBciOnly host w.output f.lineno f.methodId) =
        w.output ++ (Event.record (.frame f jvmti)).encode := by
      rw [Event.record]
      split_ifs
      · exact hwrite (.frameFull ..)
      · exact hwrite (.frameBciOnly ..)
    rw [make, recordFrame, inspectMethod, he]
    by_cases hk : f.methodId ∈ w.knownMethods
    · simp [Event.described?, hk]
    · rcases hl : frameLookup f jvmti.env with _ | i
      · simp [Event.described?, hk, hl]
      · have hn := write_eq host (w.output ++ (Event.record (.frame f jvmti)).encode)
          (i.record f.methodId)
        rw [MethodInfo.record, write] at hn
        simp [Event.described?, hk, hl, hn, MethodInfo.record]

/-- The writer after parts of calls: the bytes of their records, and the methods to which
    they refer. -/
theorem foldl_make (w : Writer) (es : List (Event Env)) :
    es.foldl (Writer.make host frameLookup) w =
      ⟨w.output ++ (recordsOf frameLookup w.knownMethods es).flatMap Record.encode,
        es.foldl Event.known w.knownMethods⟩ := by
  induction es generalizing w with
  | nil => simp [recordsOf]
  | cons e es ih =>
    rw [List.foldl_cons, ih, Writer.make_eq, recordsOf]
    simp [List.append_assoc]

/-- The log after parts of calls is read back as their records. -/
theorem decode_foldl_make (es : List (Event Env)) :
    decode (es.foldl (Writer.make host frameLookup) .new).output =
      some (recordsOf frameLookup ∅ es) := by
  rw [foldl_make, Writer.new, List.nil_append, decode_encode]

end Records

/-! ## The methods of a log -/

section Methods

variable {Env : Type*} {frameLookup : GetFrameInformation Env} {known : Finset Jlong}
  {es : List (Event Env)} {methodId : Jlong}

theorem Event.record_newMethod? (e : Event Env) : e.record.newMethod? = none := by
  cases e with
  | start => rfl
  | frame f jvmti => rw [record]; split_ifs <;> rfl

theorem Event.record_method? (e : Event Env) : e.record.method? = e.method? := by
  cases e with
  | start => rfl
  | frame f jvmti => rw [record]; split_ifs <;> rfl

/-- A method is described right after its own frame, if it was not inspected before. -/
theorem Event.described?_eq_some {e : Event Env} {r : Record}
    (h : e.described? frameLookup known = some r) :
    ∃ f jvmti i, e = .frame f jvmti ∧ f.methodId ∉ known ∧ frameLookup f jvmti.env = some i ∧
      r = i.record f.methodId := by
  cases e with
  | start => cases h
  | frame f jvmti =>
    rw [described?] at h
    split_ifs at h with hk
    obtain ⟨i, hi, rfl⟩ := Option.map_eq_some_iff.1 h
    exact ⟨f, jvmti, i, rfl, hk, hi, rfl⟩

theorem Event.mem_known {e : Event Env} :
    methodId ∈ e.known known ↔ e.method? = some methodId ∨ methodId ∈ known := by
  cases e with
  | start => simp
  | frame f jvmti => simp [eq_comm]

/-- But for the methods, the records are those of the parts. -/
theorem filter_recordsOf (frameLookup : GetFrameInformation Env) (known : Finset Jlong)
    (es : List (Event Env)) :
    (recordsOf frameLookup known es).filter (·.newMethod?.isNone) = es.map Event.record := by
  induction es generalizing known with
  | nil => rfl
  | cons e es ih =>
    have hd : (e.described? frameLookup known).toList.filter (·.newMethod?.isNone) = [] := by
      rcases hd : e.described? frameLookup known with _ | r
      · rfl
      · obtain ⟨f, jvmti, i, -, -, -, rfl⟩ := Event.described?_eq_some hd
        rfl
    rw [recordsOf, List.filter_cons_of_pos (by rw [e.record_newMethod?]; rfl), List.filter_append,
      hd, ih, List.nil_append, List.map_cons]

/-- A method is described right after the first frame that refers to it. -/
theorem recordsOf_newMethod {pre post : List Record} {r : Record}
    (h : recordsOf frameLookup known es = pre ++ r :: post) (hr : r.newMethod? = some methodId) :
    methodId ∉ known ∧ ∃ pre' f, pre = pre' ++ [f] ∧ f.method? = some methodId ∧
      ∀ r ∈ pre', r.method? ≠ some methodId := by
  induction es generalizing known pre with
  | nil => exact absurd h.symm (by simp [recordsOf])
  | cons e es ih =>
    rw [recordsOf] at h
    rcases pre with _ | ⟨r₀, pre⟩
    · obtain ⟨rfl, -⟩ := List.cons.inj h
      rw [e.record_newMethod?] at hr
      cases hr
    obtain ⟨rfl, ht⟩ := List.cons.inj h
    -- The method is described further on: this part does not refer to it.
    have hlater : ∀ pre, recordsOf frameLookup (e.known known) es = pre ++ r :: post →
        methodId ∉ known ∧ e.method? ≠ some methodId ∧ ∃ pre' f, pre = pre' ++ [f] ∧
          f.method? = some methodId ∧ ∀ r ∈ pre', r.method? ≠ some methodId := fun pre h => by
      obtain ⟨hk, hpre⟩ := ih h
      rw [Event.mem_known, not_or] at hk
      exact ⟨hk.2, hk.1, hpre⟩
    rcases hd : e.described? frameLookup known with _ | d
    · rw [hd] at ht
      obtain ⟨hk, hne, pre', f, rfl, hf, hpre⟩ := hlater pre ht
      refine ⟨hk, e.record :: pre', f, rfl, hf, List.forall_mem_cons.2 ⟨?_, hpre⟩⟩
      rwa [e.record_method?]
    · obtain ⟨f, jvmti, i, rfl, hk, -, rfl⟩ := Event.described?_eq_some hd
      rw [hd] at ht
      rcases pre with _ | ⟨r₁, pre⟩
      · obtain ⟨rfl, -⟩ := List.cons.inj ht
        obtain rfl := Option.some.inj hr
        exact ⟨hk, [], _, rfl, Event.record_method? _, by simp⟩
      · obtain ⟨rfl, ht'⟩ := List.cons.inj ht
        obtain ⟨hk, hne, pre', g, rfl, hg, hpre⟩ := hlater pre ht'
        refine ⟨hk, _ :: _ :: pre', g, rfl, hg, List.forall_mem_cons.2 ⟨?_,
          List.forall_mem_cons.2 ⟨by simp, hpre⟩⟩⟩
        rwa [Event.record_method?]

/-- No method is described twice, or if it was inspected before. -/
theorem countP_recordsOf (frameLookup : GetFrameInformation Env) (known : Finset Jlong)
    (es : List (Event Env)) (methodId : Jlong) :
    (recordsOf frameLookup known es).countP (·.newMethod? == some methodId) ≤
      if methodId ∈ known then 0 else 1 := by
  induction es generalizing known with
  | nil => exact Nat.zero_le _
  | cons e es ih =>
    have hrec := ih (e.known known)
    rw [recordsOf, List.countP_cons_of_neg (by simp [e.record_newMethod?]), List.countP_append]
    rcases hd : e.described? frameLookup known with _ | d
    · simp only [Event.mem_known] at hrec
      grind
    · obtain ⟨f, jvmti, i, rfl, hk, -, rfl⟩ := Event.described?_eq_some hd
      simp only [Event.mem_known, Event.method?, Option.some.injEq] at hrec
      by_cases hm : f.methodId = methodId
      · subst hm
        rw [if_pos (.inl rfl), Nat.le_zero] at hrec
        simp only [Option.toList_some, List.countP_singleton, hrec, hk]
        simp
      · simp only [hm, false_or] at hrec
        simpa [hm] using hrec

/-- The methods described are those for which the lookup succeeds after the first frame
    that refers to them. -/
theorem described_iff :
    (∃ r ∈ recordsOf frameLookup known es, r.newMethod? = some methodId) ↔
      methodId ∉ known ∧ ∃ pre f jvmti post, es = pre ++ .frame f jvmti :: post ∧
        f.methodId = methodId ∧ (frameLookup f jvmti.env).isSome ∧
        ∀ e ∈ pre, e.method? ≠ some methodId := by
  induction es generalizing known with
  | nil => simp [recordsOf]
  | cons e es ih =>
    have hstep : (∃ r ∈ recordsOf frameLookup known (e :: es), r.newMethod? = some methodId) ↔
        (∃ r, e.described? frameLookup known = some r ∧ r.newMethod? = some methodId) ∨
        ∃ r ∈ recordsOf frameLookup (e.known known) es, r.newMethod? = some methodId := by
      simp [recordsOf, e.record_newMethod?, or_and_right, exists_or]
    rw [hstep, ih, Event.mem_known]
    constructor
    · rintro (⟨r, hr, hm⟩ | ⟨hk, pre, f, jvmti, post, rfl, hf, hl, hpre⟩)
      · obtain ⟨f, jvmti, i, rfl, hk, hl, rfl⟩ := Event.described?_eq_some hr
        obtain rfl := Option.some.inj hm
        exact ⟨hk, [], f, jvmti, es, rfl, rfl, by rw [hl]; rfl, by simp⟩
      · rw [not_or] at hk
        exact ⟨hk.2, e :: pre, f, jvmti, post, rfl, hf, hl, List.forall_mem_cons.2 ⟨hk.1, hpre⟩⟩
    · rintro ⟨hk, pre, f, jvmti, post, he, hf, hl, hpre⟩
      rcases pre with _ | ⟨e₀, pre⟩
      · obtain ⟨rfl, rfl⟩ := List.cons.inj he
        obtain ⟨i, hi⟩ := Option.isSome_iff_exists.1 hl
        subst hf
        exact .inl ⟨i.record f.methodId, by simp [Event.described?, hk, hi], rfl⟩
      · obtain ⟨rfl, rfl⟩ := List.cons.inj he
        obtain ⟨hne, hpre⟩ := List.forall_mem_cons.1 hpre
        exact .inr ⟨not_or.2 ⟨hne, hk⟩, pre, f, jvmti, post, rfl, hf, hl, hpre⟩

theorem mem_foldl_known :
    methodId ∈ es.foldl Event.known known ↔ methodId ∈ known ∨ ∃ e ∈ es, e.method? = some methodId := by
  induction es generalizing known with
  | nil => simp
  | cons e es ih =>
    rw [List.foldl_cons, ih, Event.mem_known, List.exists_mem_cons_iff]
    tauto

end Methods

/-! ## The log -/

section Log

variable {Env : Type*}

/-- The records of a call but for those of methods: the start of the trace with its
    thread, and its frames. -/
def Call.records (c : Call Env) : List Record :=
  .traceStart c.trace.numFrames c.threadId ::
    (List.range c.trace.numFrames.toInt.toNat).map fun i =>
      Event.record (.frame (c.trace.frames i) (c.jvmti i))

/-- The records are those of the traces, one after another, and each method is described
    at most once, right after the first frame that refers to it. -/
structure WellFormed (calls : List (Call Env)) (records : List Record) : Prop where
  traces : records.filter (·.newMethod?.isNone) = calls.flatMap Call.records
  once : ∀ methodId, records.countP (·.newMethod? == some methodId) ≤ 1
  after_first : ∀ pre r post methodId, records = pre ++ r :: post →
    r.newMethod? = some methodId → ∃ pre' f, pre = pre' ++ [f] ∧ f.method? = some methodId ∧
      ∀ r ∈ pre', r.method? ≠ some methodId

theorem Call.framesFrom_eq (c : Call Env) (i n : ℕ) :
    c.framesFrom i n =
      (List.range' i n).map fun i => Event.frame (c.trace.frames i) (c.jvmti i) := by
  induction n generalizing i with
  | zero => rfl
  | succ n ih => rw [framesFrom, ih, List.range'_succ, List.map_cons]

theorem Call.map_record_events (c : Call Env) : c.events.map Event.record = c.records := by
  rw [events, framesFrom_eq, List.map_cons, List.map_map, ← List.range_eq_range']
  rfl

/-- Whatever traces are recorded and whatever the lookups report, on any host, the log is
    read back as a sequence of traces, as `WellFormed` says. -/
theorem log_wellFormed (host : Endian) (frameLookup : GetFrameInformation Env)
    (calls : List (Call Env)) :
    ∃ records, decode (calls.foldl (record host frameLookup) .new).output = some records ∧
      WellFormed calls records := by
  refine ⟨recordsOf frameLookup ∅ (calls.flatMap Call.events), ?_, ?_, fun methodId => ?_,
    fun pre r post methodId h hr => (recordsOf_newMethod h hr).2⟩
  · rw [foldl_record, decode_foldl_make]
  · simp only [filter_recordsOf, List.map_flatMap, Call.map_record_events]
  · exact countP_recordsOf frameLookup ∅ _ methodId

/-- The log describes the method. -/
def Writer.Describes (w : Writer) (methodId : Jlong) : Prop :=
  ∃ records, decode w.output = some records ∧ ∃ r ∈ records, r.newMethod? = some methodId

/-- The writer after the first parts of the calls. -/
def written (host : Endian) (frameLookup : GetFrameInformation Env) (es : List (Event Env)) :
    Writer :=
  es.foldl (Writer.make host frameLookup) .new

/-- After each part of the calls, the methods in the set are those that the log describes;
    and a method is described that occurs in a frame at which its lookup would succeed. -/
structure Described (host : Endian) (frameLookup : GetFrameInformation Env)
    (calls : List (Call Env)) : Prop where
  known : ∀ es, es <+: calls.flatMap Call.events → ∀ methodId,
    methodId ∈ (written host frameLookup es).knownMethods ↔
      (written host frameLookup es).Describes methodId
  lookups : ∀ f jvmti, .frame f jvmti ∈ calls.flatMap Call.events →
    (frameLookup f jvmti.env).isSome →
      (calls.foldl (record host frameLookup) .new).Describes f.methodId

/-- The lookup succeeds at the first frame of each method. -/
def FirstLookups (frameLookup : GetFrameInformation Env) (calls : List (Call Env)) : Prop :=
  ∀ pre f jvmti post, calls.flatMap Call.events = pre ++ .frame f jvmti :: post →
    (∀ e ∈ pre, e.method? ≠ some f.methodId) → (frameLookup f jvmti.env).isSome

section Known

variable {host : Endian} {frameLookup : GetFrameInformation Env} {calls : List (Call Env)}
  {es : List (Event Env)} {methodId : Jlong}

theorem describes_written :
    (written host frameLookup es).Describes methodId ↔
      ∃ pre f jvmti post, es = pre ++ .frame f jvmti :: post ∧ f.methodId = methodId ∧
        (frameLookup f jvmti.env).isSome ∧ ∀ e ∈ pre, e.method? ≠ some methodId := by
  have h : (∃ r ∈ recordsOf frameLookup ∅ es, r.newMethod? = some methodId) ↔ _ := described_iff
  rw [written, Writer.Describes, decode_foldl_make]
  simpa using h

theorem known_written :
    methodId ∈ (written host frameLookup es).knownMethods ↔ ∃ e ∈ es, e.method? = some methodId := by
  rw [written, foldl_make, mem_foldl_known]
  exact or_iff_right (Finset.notMem_empty _)

/-- A method has a first frame. -/
theorem exists_first {e : Event Env} (he : e ∈ es) (hm : e.method? = some methodId) :
    ∃ pre f jvmti post, es = pre ++ .frame f jvmti :: post ∧ f.methodId = methodId ∧
      ∀ e ∈ pre, e.method? ≠ some methodId := by
  induction es with
  | nil => cases he
  | cons e₀ es ih =>
    by_cases h₀ : e₀.method? = some methodId
    · cases e₀ with
      | start => cases h₀
      | frame f jvmti => exact ⟨[], f, jvmti, es, rfl, Option.some.inj h₀, by simp⟩
    · have hes : e ∈ es := (List.mem_cons.1 he).resolve_left fun h => h₀ (h ▸ hm)
      obtain ⟨pre, f, jvmti, post, rfl, hf, hpre⟩ := ih hes
      exact ⟨e₀ :: pre, f, jvmti, post, rfl, hf, List.forall_mem_cons.2 ⟨h₀, hpre⟩⟩

end Known

/-- The set of known methods is that of the methods described, after each frame, exactly
    if the lookup succeeds at the first frame of each method. -/
theorem known_iff_described (host : Endian) (frameLookup : GetFrameInformation Env)
    (calls : List (Call Env)) :
    Described host frameLookup calls ↔ FirstLookups frameLookup calls := by
  constructor
  · intro h pre f jvmti post he hpre
    have hprefix : pre ++ [.frame f jvmti] <+: calls.flatMap Call.events :=
      ⟨post, by rw [he, List.append_assoc]; rfl⟩
    have hk := (h.known _ hprefix f.methodId).1
      (known_written.2 ⟨.frame f jvmti, by simp, rfl⟩)
    obtain ⟨pre', f', jvmti', post', he', hf', hl', -⟩ := describes_written.1 hk
    -- The frame that refers to the method is the last one.
    rcases List.eq_nil_or_concat' post' with rfl | ⟨post'', e, rfl⟩
    · obtain ⟨rfl, hlast⟩ := List.append_inj' he' rfl
      cases hlast
      exact hl'
    · rw [← List.cons_append, ← List.append_assoc] at he'
      obtain ⟨rfl, -⟩ := List.append_inj' he' rfl
      exact absurd (congrArg some hf') (hpre (.frame f' jvmti') (by simp))
  · intro h
    have hdesc : ∀ es, es <+: calls.flatMap Call.events → ∀ methodId,
        (∃ e ∈ es, e.method? = some methodId) →
          (written host frameLookup es).Describes methodId := fun es hes methodId ⟨e, he, hm⟩ => by
      obtain ⟨pre, f, jvmti, post, rfl, rfl, hpre⟩ := exists_first he hm
      obtain ⟨rest, hrest⟩ := hes
      refine describes_written.2 ⟨pre, f, jvmti, post, rfl, rfl, ?_, hpre⟩
      exact h pre f jvmti (post ++ rest) (by rw [← hrest, List.append_assoc]; rfl) hpre
    refine ⟨fun es hes methodId => ?_, fun f jvmti hf _ => ?_⟩
    · rw [known_written]
      refine ⟨hdesc es hes methodId, fun hd => ?_⟩
      obtain ⟨pre, f, jvmti, post, rfl, rfl, -⟩ := describes_written.1 hd
      exact ⟨.frame f jvmti, by simp, rfl⟩
    · rw [foldl_record]
      exact hdesc _ (List.prefix_refl _) _ ⟨_, hf, rfl⟩

end Log

/-! ## The lookup of the profiler -/

/-- The answers of the virtual machine about a method, each of which may be an error. -/
structure MethodAnswers where
  methodName : Option CString
  declaringClass : Option Unit
  classSignature : Option CString
  sourceFileName : Option CString

/-- The bytes of a short string without NUL. -/
def file_unknown : CString :=
  ⟨"UnknownFile".toList.map fun c => UInt8.ofNat c.toNat, by decide +kernel, by decide +kernel⟩

/-- `Profiler::lookupFrameInformation` (`profiler.cpp:20-70`). -/
def lookupFrameInformation : GetFrameInformation MethodAnswers := fun _ answers =>
  answers.methodName.bind fun methodName =>
    answers.declaringClass.bind fun _ =>
      answers.classSignature.map fun signature =>
        ⟨answers.sourceFileName.getD file_unknown, signature, methodName⟩

/-- A trace of one frame, of the method 7. -/
def oneFrame (answers : MethodAnswers) : Call MethodAnswers where
  trace := ⟨1, 1, fun _ => ⟨5, 7⟩⟩
  info := none
  jvmti := fun _ => ⟨none, answers⟩

/-- A method whose name is not found. -/
def unnamed : MethodAnswers := ⟨none, some (), some file_unknown, none⟩

/-- The same method later on. -/
def named : MethodAnswers := ⟨some file_unknown, some (), some file_unknown, none⟩

/-- The first lookup of a method fails, and the second is not made: the method is in the
    set and not in the log, although its lookup would succeed. -/
theorem exists_hidden : ¬ Described .little lookupFrameInformation
    [oneFrame unnamed, oneFrame named] := by
  intro h
  have hd := h.lookups ⟨5, 7⟩ ⟨none, named⟩ (by simp [Call.events, oneFrame, Call.framesFrom])
    (by decide)
  obtain ⟨records, hrecords, r, hr, hm⟩ := hd
  rw [foldl_record, decode_foldl_make] at hrecords
  obtain rfl := Option.some.inj hrecords
  have hnone : ∀ r ∈ recordsOf lookupFrameInformation ∅
      ([oneFrame unnamed, oneFrame named].flatMap Call.events), r.newMethod? = none := by
    decide
  rw [hnone r hr] at hm
  cases hm

end FkProf.LogWriter
