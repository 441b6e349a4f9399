import FkProf.ScopedPtr
import FkProf.LogWriter.Traces

/-!
# The memory of the lookups

The writer asks the virtual machine for line tables, and `Profiler::lookupFrameInformation`
(`profiler.cpp:20-70`) for the names of a method, of its class and of its file. Each answer is
memory to be deallocated, on every path; after an error the pointer is abandoned.

* `lookupFrameInformation`, `getLineNo`: with the memory;
* `lookup`: what a lookup tells, without it;
* `records_memory`: the log is that of `LogWriter.record`, and the memory is as it was.
-/

namespace FkProf.LogWriter.Scoped

open ScopedPtr

/-- What the virtual machine allocates. -/
inductive Contents
  | string (s : CString)
  | lineTable (table : List JvmtiLineNumberEntry)

/-- The memory of the virtual machine. -/
abbrev Memory := Heap Contents

/-- The answers to a lookup. -/
structure Answers where
  methodName : Answer CString
  /-- `GetMethodDeclaringClass` succeeds. -/
  declaringClass : Bool
  signature : Answer CString
  sourceFileName : Answer CString

/-- The answers about a frame. -/
structure FrameAnswers where
  lineTable : Answer (List JvmtiLineNumberEntry)
  lookup : Answers

/-- A call of `record`, with the answers for each of the frames. -/
structure Call where
  trace : JVMPI_CallTrace
  info : Option (BitVec 32)
  answers : ℕ → FrameAnswers

/-- `"UnknownFile"`. -/
def file_unknown : CString :=
  ⟨[85, 110, 107, 110, 111, 119, 110, 70, 105, 108, 101], by decide, by decide⟩

/-! ## The code -/

section Code

/-- Reading a string through a pointer. -/
def readString (m : Memory) : Option ℕ → Except Stuck CString
  | none => .error .invalid
  | some a => do
    match ← m.get a with
    | .string s => .ok s
    | .lineTable _ => .error .invalid

/-- Reading a line table through a pointer. -/
def readTable (m : Memory) : Option ℕ → Except Stuck (List JvmtiLineNumberEntry)
  | none => .error .invalid
  | some a => do
    match ← m.get a with
    | .string _ => .error .invalid
    | .lineTable table => .ok table

/-- `lookupFrameInformation`: what it passes to `recordNewMethod`, if it does. The destructors run
    at each return, for the pointers there are by then, the last one first. -/
def lookupFrameInformation (m : Memory) (answers : Answers) :
    Except Stuck (Memory × Option MethodInfo) := do
  let (m, methodName, error) ← answers.methodName.call .string m
  if error then
    let methodName := none
    let m ← deallocate m methodName
    .ok (m, none)
  else if !answers.declaringClass then
    let m ← deallocate m methodName
    .ok (m, none)
  else
    let (m, signature_ptr2, error) ← answers.signature.call .string m
    if error then
      let signature_ptr2 := none
      let m ← deallocate m signature_ptr2
      let m ← deallocate m methodName
      .ok (m, none)
    else
      let (m, source_name_ptr, error) ← answers.sourceFileName.call .string m
      let source_name_ptr := if error then none else source_name_ptr
      let fileName ← (if error then .ok file_unknown else readString m source_name_ptr)
      let className ← readString m signature_ptr2
      let name ← readString m methodName
      let m ← deallocate m source_name_ptr
      let m ← deallocate m signature_ptr2
      let m ← deallocate m methodName
      .ok (m, some ⟨fileName, className, name⟩)

/-- `getLineNo`. -/
def getLineNo (m : Memory) (bci : Jint) (lineTable : Answer (List JvmtiLineNumberEntry)) :
    Except Stuck (Memory × Jint) := do
  if bci.sle 0 then .ok (m, bci)
  else
    let (m, jvmti_table, error) ← lineTable.call .lineTable m
    if error then
      let jvmti_table := none
      let m ← deallocate m jvmti_table
      .ok (m, -100)
    else
      let table ← readTable m jvmti_table
      let lineno := (bci2line bci table).get (bci2line_isSome bci table)
      let m ← deallocate m jvmti_table
      .ok (m, lineno)

variable (host : Endian)

/-- `inspectMethod`. -/
def inspectMethod (m : Memory) (w : Writer) (frame : JVMPI_CallFrame) (answers : Answers) :
    Except Stuck (Memory × Writer) :=
  if frame.methodId ∈ w.knownMethods then .ok (m, w)
  else do
    let w := { w with knownMethods := insert frame.methodId w.knownMethods }
    let (m, info) ← lookupFrameInformation m answers
    match info with
    | none => .ok (m, w)
    | some i =>
      let output := recordNewMethod host w.output frame.methodId i.fileName.memory
        i.className.memory i.methodName.memory
      .ok (m, { w with output := output })

/-- The body of the loop of `record`. -/
def recordFrame (m : Memory) (w : Writer) (frame : JVMPI_CallFrame) (answers : FrameAnswers) :
    Except Stuck (Memory × Writer) := do
  let bci := frame.lineno
  if (0 : Jint).slt bci then
    let (m, lineno) ← getLineNo m bci answers.lineTable
    let output := recordFrameFull host w.output bci lineno frame.methodId
    inspectMethod host m { w with output := output } frame answers.lookup
  else
    let output := recordFrameBciOnly host w.output bci frame.methodId
    inspectMethod host m { w with output := output } frame answers.lookup

/-- The loop, from a frame on, for so many more. -/
def recordFrames (m : Memory) (w : Writer) (c : Call) (i : ℕ) : ℕ → Except Stuck (Memory × Writer)
  | 0 => .ok (m, w)
  | n + 1 => do
    let (m, w) ← recordFrame host m w (c.trace.frames i) (c.answers i)
    recordFrames m w c (i + 1) n

/-- `record`. -/
def record (m : Memory) (w : Writer) (c : Call) : Except Stuck (Memory × Writer) :=
  let threadId : Jlong := match c.info with
    | none => c.trace.envId
    | some tid => tid.signExtend _
  let output := recordTraceStart host w.output c.trace.numFrames threadId
  recordFrames host m { w with output := output } c 0 c.trace.numFrames.toInt.toNat

end Code

/-! ## Without the memory -/

/-- What a lookup tells: nothing, unless there are a name, a class and its name. -/
def lookup : GetFrameInformation Answers := fun _ answers => do
  let name ← answers.methodName.toOption
  if !answers.declaringClass then none
  let className ← answers.signature.toOption
  some ⟨answers.sourceFileName.toOption.getD file_unknown, className, name⟩

/-- The call, with the answers as values. -/
def Call.plain (c : Call) : LogWriter.Call Answers where
  trace := c.trace
  info := c.info
  jvmti i := ⟨(c.answers i).lineTable.toOption, (c.answers i).lookup⟩

/-! ## What is allocated is deallocated -/

section Balance

variable {m : Memory} {address : ℕ}

theorem readString_ensures {s : CString} (hs : m address = some (.string s)) :
    Ensures (readString m (some address)) (· = s) := by
  refine (Ensures.get (P := (· = .string s)) hs rfl).bind ?_
  rintro _ rfl
  exact Ensures.pure rfl

theorem readTable_ensures {table : List JvmtiLineNumberEntry}
    (ht : m address = some (.lineTable table)) : Ensures (readTable m (some address)) (· = table) := by
  refine (Ensures.get (P := (· = .lineTable table)) ht rfl).bind ?_
  rintro _ rfl
  exact Ensures.pure rfl

theorem getLineNo_ensures (m : Memory) (bci : Jint) (a : Answer (List JvmtiLineNumberEntry)) :
    Ensures (getLineNo m bci a) (· = (m, LogWriter.getLineNo bci a.toOption)) := by
  rw [getLineNo]
  by_cases hbci : bci.sle 0 = true
  · rw [if_pos hbci]
    exact Ensures.pure (Prod.ext rfl (if_pos hbci).symm)
  · rw [if_neg hbci]
    cases a with
    | error ref => exact Ensures.pure (Prod.ext rfl (if_neg hbci).symm)
    | ok address table =>
      have hplain : LogWriter.getLineNo bci (some table) =
          (bci2line bci table).get (bci2line_isSome bci table) := if_neg hbci
      refine (call_ensures m address table).bind ?_
      rintro _ ⟨hm, rfl⟩
      refine (readTable_ensures (Function.update_self ..)).bind ?_
      rintro _ rfl
      refine (deallocate_ensures hm).bind ?_
      rintro _ rfl
      exact Ensures.pure (Prod.ext rfl hplain.symm)

/-- Whatever the answers are, all that was allocated for a lookup is deallocated. -/
theorem lookupFrameInformation_ensures (m : Memory) (frame : JVMPI_CallFrame) (answers : Answers) :
    Ensures (lookupFrameInformation m answers) (· = (m, lookup frame answers)) := by
  obtain ⟨methodName, declaringClass, signature, sourceFileName⟩ := answers
  rw [lookupFrameInformation]
  cases methodName with
  | error ref => exact Ensures.pure rfl
  | ok address₁ name =>
    refine (call_ensures m address₁ name).bind ?_
    rintro _ ⟨h₁, rfl⟩
    cases declaringClass with
    | false =>
      refine (deallocate_ensures h₁).bind ?_
      rintro _ rfl
      exact Ensures.pure rfl
    | true =>
      cases signature with
      | error ref =>
        refine (deallocate_ensures h₁).bind ?_
        rintro _ rfl
        exact Ensures.pure rfl
      | ok address₂ className =>
        refine (call_ensures _ address₂ className).bind ?_
        rintro _ ⟨h₂, rfl⟩
        have hname : Function.update (Function.update m address₁ (some (.string name))) address₂
            (some (.string className)) address₁ = some (.string name) :=
          update_of_none h₂ (Function.update_self ..)
        have hclass : Function.update (Function.update m address₁ (some (.string name))) address₂
            (some (.string className)) address₂ = some (.string className) :=
          Function.update_self ..
        cases sourceFileName with
        | error ref =>
          refine (readString_ensures hclass).bind ?_
          rintro _ rfl
          refine (readString_ensures hname).bind ?_
          rintro _ rfl
          refine (deallocate_ensures h₂).bind ?_
          rintro _ rfl
          refine (deallocate_ensures h₁).bind ?_
          rintro _ rfl
          exact Ensures.pure rfl
        | ok address₃ fileName =>
          refine (call_ensures _ address₃ fileName).bind ?_
          rintro _ ⟨h₃, rfl⟩
          refine (readString_ensures (Function.update_self ..)).bind ?_
          rintro _ rfl
          refine (readString_ensures (update_of_none h₃ hclass)).bind ?_
          rintro _ rfl
          refine (readString_ensures (update_of_none h₃ hname)).bind ?_
          rintro _ rfl
          refine (deallocate_ensures h₃).bind ?_
          rintro _ rfl
          refine (deallocate_ensures h₂).bind ?_
          rintro _ rfl
          refine (deallocate_ensures h₁).bind ?_
          rintro _ rfl
          exact Ensures.pure rfl

end Balance

/-! ## The log -/

section Log

variable (host : Endian)

theorem inspectMethod_ensures (m : Memory) (w : Writer) (frame : JVMPI_CallFrame)
    (answers : Answers) : Ensures (inspectMethod host m w frame answers)
      (· = (m, LogWriter.inspectMethod host lookup w frame answers)) := by
  rw [inspectMethod, LogWriter.inspectMethod]
  by_cases hk : frame.methodId ∈ w.knownMethods
  · rw [if_pos hk, if_pos hk]
    exact Ensures.pure rfl
  · rw [if_neg hk, if_neg hk]
    refine (lookupFrameInformation_ensures m frame answers).bind ?_
    rintro _ rfl
    cases hl : lookup frame answers <;> exact Ensures.pure rfl

theorem recordFrame_ensures (m : Memory) (w : Writer) (frame : JVMPI_CallFrame)
    (answers : FrameAnswers) : Ensures (recordFrame host m w frame answers)
      (· = (m, LogWriter.recordFrame host lookup w frame
        ⟨answers.lineTable.toOption, answers.lookup⟩)) := by
  rw [recordFrame, LogWriter.recordFrame]
  dsimp only
  split_ifs
  · refine (getLineNo_ensures m frame.lineno answers.lineTable).bind ?_
    rintro _ rfl
    exact inspectMethod_ensures host m _ frame answers.lookup
  · exact inspectMethod_ensures host m _ frame answers.lookup

theorem recordFrames_ensures (m : Memory) (w : Writer) (c : Call) (i n : ℕ) :
    Ensures (recordFrames host m w c i n)
      (· = (m, LogWriter.recordFrames host lookup w c.plain i n)) := by
  induction n generalizing w i with
  | zero => exact Ensures.pure rfl
  | succ n ih =>
    refine (recordFrame_ensures host m w (c.trace.frames i) (c.answers i)).bind ?_
    rintro _ rfl
    exact ih ..

theorem record_ensures (m : Memory) (w : Writer) (c : Call) :
    Ensures (record host m w c) (· = (m, LogWriter.record host lookup w c.plain)) :=
  recordFrames_ensures ..

/-- Whatever traces are recorded, and whatever the virtual machine answers, with an error here and
    there: nothing is used that is not allocated, all that was allocated has been deallocated
    again, and the log is that of the answers. -/
theorem records_memory (m : Memory) (calls : List Call) :
    Ensures (calls.foldlM (fun x c => record host x.1 x.2 c) (m, Writer.new))
      (· = (m, (calls.map Call.plain).foldl (LogWriter.record host lookup) .new)) := by
  have hall : ∀ w, Ensures (calls.foldlM (fun x c => record host x.1 x.2 c) (m, w))
      (· = (m, (calls.map Call.plain).foldl (LogWriter.record host lookup) w)) := by
    induction calls with
    | nil => exact fun _ => Ensures.pure rfl
    | cons c calls ih =>
      intro w
      rw [List.foldlM_cons]
      refine (record_ensures host m w c).bind ?_
      rintro _ rfl
      exact ih _
  exact hall .new

end Log

end FkProf.LogWriter.Scoped
