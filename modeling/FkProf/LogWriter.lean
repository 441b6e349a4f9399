import FkProf.Foundations.Reader

/-!
# The log of the profiler

`LogWriter` (`log_writer.cpp:5-23`, `log_writer.cpp:124-162`) writes traces,
frames and methods, each as a one-byte tag and the fields after it, with nothing
between the records. Integers are written most significant byte first:
`writeValue` copies them from memory, in reverse if the host is little endian.

* `writeValue_eq`: what is written does not depend on the host;
* `decode`: a reader of the format;
* `log_decodable`: it reads back the records that were written.
-/

namespace FkProf.LogWriter

/-- `jint`. -/
abbrev Jint := BitVec (8 * 4)

/-- `HashType` and `method_id`. -/
abbrev Jlong := BitVec (8 * 8)

def TRACE_START : UInt8 := 1
def FRAME_BCI_ONLY : UInt8 := 2
def FRAME_FULL : UInt8 := 21
def NEW_METHOD : UInt8 := 3

/-- The order of the bytes of an integer in the memory of the host. -/
inductive Endian
  | little
  | big

/-- A string without NUL, shorter than `2 ^ 31`. -/
structure CString where
  chars : List UInt8
  nul_free : ∀ b ∈ chars, b ≠ 0
  length_lt : chars.length < 2 ^ 31

/-- A call of the writer. -/
inductive Record
  | traceStart (numFrames : Jint) (threadId : Jlong)
  | frameFull (bci lineNumber : Jint) (methodId : Jlong)
  | frameBciOnly (bci : Jint) (methodId : Jlong)
  | newMethod (methodId : Jlong) (fileName className methodName : CString)

/-! ## The writer -/

section Writer

/-- The bytes of a value in memory. -/
def Endian.memory (host : Endian) (n : ℕ) (value : BitVec (8 * n)) : List UInt8 :=
  match host with
  | little => littleEndian n value.toNat
  | big => bigEndian n value.toNat

/-- The string in memory, with its terminator. -/
def CString.memory (s : CString) : List UInt8 := s.chars ++ [0]

/-- `strlen`. -/
def strlen (value : List UInt8) : ℕ := (value.takeWhile (· ≠ 0)).length

variable (host : Endian)

/-- `isLittleEndian`: the first byte of a 16-bit one. -/
def isLittleEndian : Bool := (host.memory 2 1).getD 0 0 == 1

/-- `output_.put(data[i])` for `i` from the last one down, lines 17-19. -/
def putDown (output data : List UInt8) : ℕ → List UInt8
  | 0 => output
  | i + 1 => putDown (output ++ [data.getD i 0]) data i

/-- `writeValue`. -/
def writeValue {n : ℕ} (output : List UInt8) (value : BitVec (8 * n)) : List UInt8 :=
  if isLittleEndian host then putDown output (host.memory n value) n
  else output ++ host.memory n value

def recordTraceStart (output : List UInt8) (numFrames : Jint) (threadId : Jlong) : List UInt8 :=
  let output := output ++ [TRACE_START]
  let output := writeValue host output numFrames
  writeValue host output threadId

def recordFrameFull (output : List UInt8) (bci lineNumber : Jint) (methodId : Jlong) :
    List UInt8 :=
  let output := output ++ [FRAME_FULL]
  let output := writeValue host output bci
  let output := writeValue host output lineNumber
  writeValue host output methodId

def recordFrameBciOnly (output : List UInt8) (bci : Jint) (methodId : Jlong) : List UInt8 :=
  let output := output ++ [FRAME_BCI_ONLY]
  let output := writeValue host output bci
  writeValue host output methodId

/-- `writeWithSize`, of a string in memory. -/
def writeWithSize (output value : List UInt8) : List UInt8 :=
  let size : Jint := BitVec.ofNat _ (strlen value)
  let output := writeValue host output size
  output ++ value.take size.toInt.toNat

def recordNewMethod (output : List UInt8) (methodId : Jlong)
    (fileName className methodName : List UInt8) : List UInt8 :=
  let output := output ++ [NEW_METHOD]
  let output := writeValue host output methodId
  let output := writeWithSize host output fileName
  let output := writeWithSize host output className
  writeWithSize host output methodName

/-- The call that a record stands for. -/
def write (output : List UInt8) : Record → List UInt8
  | .traceStart numFrames threadId => recordTraceStart host output numFrames threadId
  | .frameFull bci lineNumber methodId => recordFrameFull host output bci lineNumber methodId
  | .frameBciOnly bci methodId => recordFrameBciOnly host output bci methodId
  | .newMethod methodId fileName className methodName =>
    recordNewMethod host output methodId fileName.memory className.memory methodName.memory

/-- The log after a sequence of calls. -/
def log (records : List Record) : List UInt8 := records.foldl (write host) []

end Writer

/-! ## The reader -/

instance decidableNonzero (chars : List UInt8) : Decidable (∀ b ∈ chars, b ≠ 0) :=
  List.decidableBAll _ chars

/-- A string with its size before it. -/
def readString : Reader CString :=
  Reader.uint 4 >>= fun size => Reader.take size.toNat >>= fun chars =>
    if h : (∀ b ∈ chars, b ≠ 0) ∧ chars.length < 2 ^ 31 then pure ⟨chars, h.1, h.2⟩
    else Reader.fail

/-- A record: its tag, and its fields, big-endian. -/
def readRecord : Reader Record := do
  let tag ← Reader.byte
  if tag = TRACE_START then do
    let numFrames ← Reader.uint 4
    let threadId ← Reader.uint 8
    pure (.traceStart numFrames threadId)
  else if tag = FRAME_BCI_ONLY then do
    let bci ← Reader.uint 4
    let methodId ← Reader.uint 8
    pure (.frameBciOnly bci methodId)
  else if tag = FRAME_FULL then do
    let bci ← Reader.uint 4
    let lineNumber ← Reader.uint 4
    let methodId ← Reader.uint 8
    pure (.frameFull bci lineNumber methodId)
  else if tag = NEW_METHOD then do
    let methodId ← Reader.uint 8
    let fileName ← readString
    let className ← readString
    let methodName ← readString
    pure (.newMethod methodId fileName className methodName)
  else Reader.fail

/-- The records of a log. -/
def decode (bytes : List UInt8) : Option (List Record) := readRecord.all bytes

/-! ## What is written -/

/-- The bytes of a string, on any host. -/
def CString.encode (s : CString) : List UInt8 := bigEndian 4 s.chars.length ++ s.chars

/-- The bytes of a record, on any host. -/
def Record.encode : Record → List UInt8
  | .traceStart numFrames threadId =>
    [TRACE_START] ++ (bigEndian 4 numFrames.toNat ++ bigEndian 8 threadId.toNat)
  | .frameFull bci lineNumber methodId =>
    [FRAME_FULL] ++
      (bigEndian 4 bci.toNat ++ (bigEndian 4 lineNumber.toNat ++ bigEndian 8 methodId.toNat))
  | .frameBciOnly bci methodId =>
    [FRAME_BCI_ONLY] ++ (bigEndian 4 bci.toNat ++ bigEndian 8 methodId.toNat)
  | .newMethod methodId fileName className methodName =>
    [NEW_METHOD] ++ (bigEndian 8 methodId.toNat ++
      (fileName.encode ++ (className.encode ++ methodName.encode)))

section Written

variable (host : Endian) (output : List UInt8)

theorem putDown_eq (data : List UInt8) {n : ℕ} (hn : n ≤ data.length) :
    putDown output data n = output ++ (data.take n).reverse := by
  induction n generalizing output with
  | zero => simp [putDown]
  | succ n ih =>
    rw [putDown, ih _ (by omega), List.take_succ_eq_append_getElem hn, List.getD_eq_getElem?_getD,
      List.getElem?_eq_getElem hn, List.reverse_append, List.append_assoc]
    rfl

/-- Integers are written most significant byte first, on any host. -/
theorem writeValue_eq {n : ℕ} (value : BitVec (8 * n)) :
    writeValue host output value = output ++ bigEndian n value.toNat := by
  cases host with
  | little =>
    have hl : isLittleEndian .little = true := by decide
    rw [writeValue, if_pos hl, Endian.memory, putDown_eq _ _ (by simp), bigEndian,
      List.take_of_length_le (by simp)]
  | big =>
    have hb : isLittleEndian .big = false := by decide
    rw [writeValue, if_neg (by simp [hb]), Endian.memory]

theorem strlen_memory (s : CString) : strlen s.memory = s.chars.length := by
  rw [strlen, CString.memory, List.takeWhile_append_of_pos fun b hb => by simpa using s.nul_free b hb]
  simp

theorem writeWithSize_eq (s : CString) :
    writeWithSize host output s.memory = output ++ s.encode := by
  have hlt := s.length_lt
  have hn : (BitVec.ofNat (8 * 4) s.chars.length).toNat = s.chars.length := by
    rw [BitVec.toNat_ofNat]
    omega
  have hi : (BitVec.ofNat (8 * 4) s.chars.length).toInt.toNat = s.chars.length := by
    rw [BitVec.toInt_eq_toNat_of_lt (by omega), hn, Int.toNat_natCast]
  simp only [writeWithSize, strlen_memory, writeValue_eq, hn, hi]
  rw [CString.encode, CString.memory, List.take_left', List.append_assoc]
  rfl

theorem write_eq (r : Record) : write host output r = output ++ r.encode := by
  cases r <;> simp only [write, recordTraceStart, recordFrameFull, recordFrameBciOnly,
    recordNewMethod, writeValue_eq, writeWithSize_eq, Record.encode, List.append_assoc]

theorem log_eq (records : List Record) : log host records = records.flatMap Record.encode := by
  have h : ∀ out, records.foldl (write host) out = out ++ records.flatMap Record.encode := by
    induction records with
    | nil => simp
    | cons r records ih =>
      intro out
      rw [List.foldl_cons, ih, write_eq, List.flatMap_cons, List.append_assoc]
  exact h []

end Written

/-! ## Reading it back -/

theorem reads_string (s : CString) : Reads readString s.encode s := by
  have hlt := s.length_lt
  have hn : (BitVec.ofNat (8 * 4) s.chars.length).toNat = s.chars.length := by
    rw [BitVec.toNat_ofNat]
    omega
  have hsize := Reads.uint (BitVec.ofNat (8 * 4) s.chars.length)
  rw [hn] at hsize
  refine hsize.bind ?_
  rw [hn]
  have hchars := (Reads.take s.chars).bind (f := fun chars =>
    if h : (∀ b ∈ chars, b ≠ 0) ∧ chars.length < 2 ^ 31 then pure ⟨chars, h.1, h.2⟩
    else Reader.fail) ((Reads.pure s).of_eq (dif_pos ⟨s.nul_free, hlt⟩))
  rwa [List.append_nil] at hchars

/-- Every record is read back, whatever follows. -/
theorem reads_record (r : Record) : Reads readRecord r.encode r := by
  cases r with
  | traceStart numFrames threadId =>
    refine (Reads.byte TRACE_START).bind ?_
    rw [if_pos rfl]
    exact (Reads.uint numFrames).bind ((Reads.uint threadId).map _)
  | frameFull bci lineNumber methodId =>
    refine (Reads.byte FRAME_FULL).bind ?_
    rw [if_neg (by decide), if_neg (by decide), if_pos rfl]
    exact (Reads.uint bci).bind ((Reads.uint lineNumber).bind ((Reads.uint methodId).map _))
  | frameBciOnly bci methodId =>
    refine (Reads.byte FRAME_BCI_ONLY).bind ?_
    rw [if_neg (by decide), if_pos rfl]
    exact (Reads.uint bci).bind ((Reads.uint methodId).map _)
  | newMethod methodId fileName className methodName =>
    refine (Reads.byte NEW_METHOD).bind ?_
    rw [if_neg (by decide), if_neg (by decide), if_neg (by decide), if_pos rfl]
    exact (Reads.uint methodId).bind ((reads_string fileName).bind
      ((reads_string className).bind ((reads_string methodName).map _)))

theorem decode_encode (records : List Record) :
    decode (records.flatMap Record.encode) = some records := by
  refine Reader.all_flatMap (fun r _ => reads_record r) fun r _ => ?_
  cases r <;> simp [Record.encode]

/-- Whatever is recorded, on any host, is read back: the same records, in order, with
    the same fields. -/
theorem log_decodable (host : Endian) (records : List Record) :
    decode (log host records) = some records := by
  rw [log_eq, decode_encode]

end FkProf.LogWriter
