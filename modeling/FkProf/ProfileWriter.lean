import FkProf.Foundations.Reader

/-!
# The profile file

`ProfileWriter` (`profile_writer.h`) writes a header and then events, each a
protocol-buffer message with its size before it and an Adler-32 checksum after
it (`checksum.cpp`). The bytes are collected in a buffer, which is flushed to
`write_unbuffered` when the next message may not fit, and grows when it never
would; the checksums are taken over the buffer.

Messages are known by their serialised bytes (`Message`). Sizes and offsets are
natural numbers: they are taken not to overflow 32 bits. A write outside the
buffer, and a failing assertion, is `none`.

* `session_eq`: what a writer passes on, in however many pieces, is `stream`;
* `readProfile`: a reader that checks the checksums, as `ProfileParsingTest` does;
* `profile_stream`: it reads the header and the events back.
-/

namespace FkProf.ProfileWriter

/-- "accomodate atleast 4 varint32 values" -/
def MIN_FREE_BUFF : ℕ := 64

def BUFF_SZ : ℕ := 0xFFFF

/-- A type of messages: what is parsed is what was serialised. -/
structure Message (M : Type) where
  serialize : M → List UInt8
  parse : List UInt8 → Option M
  parse_serialize : ∀ m, parse (serialize m) = some m

/-! ## Checksums -/

/-- The two sums of Adler-32, with the next byte. -/
def adlerStep (s : ℕ × ℕ) (b : UInt8) : ℕ × ℕ :=
  let a := (s.1 + b.toNat) % 65521
  (a, (s.2 + a) % 65521)

/-- `adler32` of zlib, going on from a checksum. -/
def adler32 (adler : ℕ) (buf : List UInt8) : ℕ :=
  let s := buf.foldl adlerStep (adler % 2 ^ 16, adler / 2 ^ 16 % 2 ^ 16)
  s.2 * 2 ^ 16 + s.1

/-- `Checksum::reset`: zlib's initial checksum. -/
def Checksum.reset : ℕ := 1

/-- `Checksum::chksum`, with its assertion. -/
def Checksum.chksum (adler : ℕ) (buf : List UInt8) : Option ℕ :=
  let adler := adler32 adler buf
  if adler >>> 32 = 0 then some adler else none

/-- An Adler-32 checksum has 32 bits. -/
theorem adler32_lt (adler : ℕ) (buf : List UInt8) : adler32 adler buf < 2 ^ 32 := by
  have hsum : ∀ s : ℕ × ℕ, s.1 < 2 ^ 16 ∧ s.2 < 2 ^ 16 →
      (buf.foldl adlerStep s).1 < 2 ^ 16 ∧ (buf.foldl adlerStep s).2 < 2 ^ 16 := by
    induction buf with
    | nil => exact fun s hs => hs
    | cons b buf ih =>
      intro s _
      refine ih _ ⟨?_, ?_⟩
      · exact (Nat.mod_lt _ (by decide)).trans (by decide)
      · exact (Nat.mod_lt _ (by decide)).trans (by decide)
  have := hsum (adler % 2 ^ 16, adler / 2 ^ 16 % 2 ^ 16)
    ⟨Nat.mod_lt _ (by decide), Nat.mod_lt _ (by decide)⟩
  simp only [adler32]
  omega

/-- The assertion holds. -/
theorem chksum_eq (adler : ℕ) (buf : List UInt8) :
    Checksum.chksum adler buf = some (adler32 adler buf) := by
  have := adler32_lt adler buf
  rw [Checksum.chksum, if_pos]
  rw [Nat.shiftRight_eq_div_pow]
  exact Nat.div_eq_of_lt this

/-! ## The writer -/

/-- `ProfileWriter`, with the arguments that `write_unbuffered` was called with. -/
structure Writer where
  unbuffered : List (List UInt8)
  chksum : ℕ
  data : List UInt8
  dataCapacity : ℕ
  dataOffset : ℕ
  headerWritten : Bool
  capacity_eq : data.length = dataCapacity

namespace Writer

/-- New memory: its bytes are whatever they are. -/
def alloc (junk : ℕ → UInt8) (n : ℕ) : List UInt8 := (List.range n).map junk

@[simp] theorem alloc_length (junk : ℕ → UInt8) (n : ℕ) : (alloc junk n).length = n := by
  simp [alloc]

variable (junk : ℕ → UInt8)

/-- The constructor. -/
def new : Writer where
  unbuffered := []
  chksum := Checksum.reset
  data := alloc junk BUFF_SZ
  dataCapacity := BUFF_SZ
  dataOffset := 0
  headerWritten := false
  capacity_eq := alloc_length junk _

variable (w : Writer)

def flush : Writer := { w with unbuffered := w.unbuffered ++ [w.data.take w.dataOffset] }

/-- `ensure_freebuff`. -/
def ensureFreebuff (minRequired : ℕ) : Writer :=
  if w.dataCapacity < w.dataOffset + minRequired then
    let w := { w.flush with dataOffset := 0 }
    if w.dataCapacity < minRequired then
      { w with
        dataCapacity := minRequired * 2
        data := alloc junk (minRequired * 2)
        capacity_eq := alloc_length junk _ }
    else w
  else w

/-- Writing to `data + data_offset`, and moving the offset. -/
def store (bytes : List UInt8) : Option Writer :=
  if h : w.dataOffset + bytes.length ≤ w.dataCapacity then
    some { w with
      data := w.data.take w.dataOffset ++ (bytes ++ w.data.drop (w.dataOffset + bytes.length))
      dataOffset := w.dataOffset + bytes.length
      capacity_eq := by
        have := w.capacity_eq
        simp only [List.length_append, List.length_take, List.length_drop]
        omega }
  else none

/-- `write_unchecked`, with `WriteVarint32ToArray`. -/
def writeUnchecked (value : BitVec 32) : Option Writer := w.store (varint value.toNat)

/-- `write_unchecked_obj`. -/
def writeUncheckedObj (value : List UInt8) : Option Writer := do
  let w ← w.writeUnchecked (BitVec.ofNat 32 value.length)
  w.store value

def writeHeader (version : BitVec 32) (rh : List UInt8) : Option Writer :=
  if w.headerWritten then none
  else do
    let w := { w with headerWritten := true }
    let w := w.ensureFreebuff junk (rh.length + MIN_FREE_BUFF)
    let w ← w.writeUnchecked version
    let w ← w.writeUncheckedObj rh
    let csum ← Checksum.chksum w.chksum (w.data.take w.dataOffset)
    let w := { w with chksum := csum }
    w.writeUnchecked (BitVec.ofNat 32 csum)

def appendWse (e : List UInt8) : Option Writer := do
  let w := w.ensureFreebuff junk (e.length + MIN_FREE_BUFF)
  let oldOffset := w.dataOffset
  let w ← w.writeUncheckedObj e
  let w := { w with chksum := Checksum.reset }
  let dataSz := w.dataOffset - oldOffset
  let csum ← Checksum.chksum w.chksum ((w.data.drop oldOffset).take dataSz)
  let w := { w with chksum := csum }
  w.writeUnchecked (BitVec.ofNat 32 csum)

/-- The life of a writer: the constructor, the header, the events, and the
    destructor, with what it has passed to `write_unbuffered`. -/
def session (version : BitVec 32) (rh : List UInt8) (es : List (List UInt8)) :
    Option (List (List UInt8)) := do
  let w ← (new junk).writeHeader junk version rh
  let w ← es.foldlM (fun w e => w.appendWse junk e) w
  pure w.flush.unbuffered

end Writer

/-! ## The stream -/

/-- A message with its size before it. -/
def sized (bytes : List UInt8) : List UInt8 := varint bytes.length ++ bytes

/-- Bytes with their checksum after them. -/
def checked (bytes : List UInt8) : List UInt8 := bytes ++ varint (adler32 1 bytes)

/-- The stream of a header and events. -/
def stream (version : BitVec 32) (rh : List UInt8) (es : List (List UInt8)) : List UInt8 :=
  checked (varint version.toNat ++ sized rh) ++ es.flatMap fun e => checked (sized e)

/-! ## The reader -/

/-- A message of a size read before it. -/
def Message.read {M : Type} (P : Message M) : Reader M :=
  Reader.varint >>= fun n => Reader.take n >>= fun bytes =>
    match P.parse bytes with
    | some m => pure m
    | none => Reader.fail

/-- A value with the checksum of its bytes, which must match. -/
def readChecked {α : Type} (r : Reader α) : Reader α := fun bytes =>
  (r bytes).bind fun (a, rest) => (Reader.varint rest).bind fun (csum, rest') =>
    if csum = adler32 1 (bytes.take (bytes.length - rest.length)) then some (a, rest') else none

/-- The version, the header and the events of a profile. -/
def readProfile {Header Wse : Type} (H : Message Header) (E : Message Wse) (bytes : List UInt8) :
    Option (ℕ × Header × List Wse) :=
  (readChecked (Reader.varint >>= fun version => H.read >>= fun rh => pure (version, rh)) bytes).bind
    fun ((version, rh), rest) => ((readChecked E.read).all rest).map fun es => (version, rh, es)

/-! ## What is written -/

namespace Writer

variable {w w₁ w₂ w₃ : Writer} {bytes bytes' : List UInt8}

/-- All the bytes written so far, passed on or not. -/
def written (w : Writer) : List UInt8 := w.unbuffered.flatten ++ w.data.take w.dataOffset

/-- Some bytes have been written to the buffer. -/
structure Stored (w : Writer) (bytes : List UInt8) (w' : Writer) : Prop where
  unbuffered : w'.unbuffered = w.unbuffered
  data : w'.data.take w'.dataOffset = w.data.take w.dataOffset ++ bytes
  dataOffset : w'.dataOffset = w.dataOffset + bytes.length
  dataCapacity : w'.dataCapacity = w.dataCapacity
  chksum : w'.chksum = w.chksum
  headerWritten : w'.headerWritten = w.headerWritten

theorem Stored.trans (h₁ : Stored w₁ bytes w₂) (h₂ : Stored w₂ bytes' w₃) :
    Stored w₁ (bytes ++ bytes') w₃ where
  unbuffered := h₂.unbuffered.trans h₁.unbuffered
  data := by rw [h₂.data, h₁.data, List.append_assoc]
  dataOffset := by rw [h₂.dataOffset, h₁.dataOffset, List.length_append, Nat.add_assoc]
  dataCapacity := h₂.dataCapacity.trans h₁.dataCapacity
  chksum := h₂.chksum.trans h₁.chksum
  headerWritten := h₂.headerWritten.trans h₁.headerWritten

theorem Stored.written_eq (h : Stored w₁ bytes w₂) : w₂.written = w₁.written ++ bytes := by
  rw [written, h.unbuffered, h.data, written, List.append_assoc]

/-- A write inside the buffer. -/
theorem exists_store (bytes : List UInt8) (h : w.dataOffset + bytes.length ≤ w.dataCapacity) :
    ∃ w', w.store bytes = some w' ∧ Stored w bytes w' := by
  have hlen := w.capacity_eq
  refine ⟨_, dif_pos h, rfl, ?_, rfl, rfl, rfl, rfl⟩
  have htake : (w.data.take w.dataOffset).length = w.dataOffset := by
    rw [List.length_take]
    omega
  dsimp only
  rw [← List.append_assoc, List.take_left' (by rw [List.length_append, htake])]

theorem varint_toNat_length (value : BitVec 32) : (varint value.toNat).length ≤ 5 :=
  varint_length_le (n := 4) (value.isLt.trans (by norm_num))

theorem sized_length_le (h : bytes.length < 2 ^ 32) : (sized bytes).length ≤ bytes.length + 5 := by
  have := varint_length_le (v := bytes.length) (n := 4) (h.trans (by norm_num))
  rw [sized, List.length_append]
  omega

/-- The bytes of a checksum. -/
theorem varint_adler32 (adler : ℕ) (buf : List UInt8) :
    varint (BitVec.ofNat 32 (adler32 adler buf)).toNat = varint (adler32 adler buf) := by
  rw [BitVec.toNat_ofNat, Nat.mod_eq_of_lt (adler32_lt adler buf)]

theorem exists_writeUnchecked (value : BitVec 32) (h : w.dataOffset + 5 ≤ w.dataCapacity) :
    ∃ w', w.writeUnchecked value = some w' ∧ Stored w (varint value.toNat) w' :=
  exists_store _ (by have := varint_toNat_length value; omega)

theorem exists_writeUncheckedObj (hlen : bytes.length < 2 ^ 32)
    (h : w.dataOffset + bytes.length + 5 ≤ w.dataCapacity) :
    ∃ w', w.writeUncheckedObj bytes = some w' ∧ Stored w (sized bytes) w' := by
  obtain ⟨w₁, h₁, hs₁⟩ := exists_writeUnchecked (BitVec.ofNat 32 bytes.length) (w := w) (by omega)
  have hvar := varint_toNat_length (BitVec.ofNat 32 bytes.length)
  obtain ⟨w₂, h₂, hs₂⟩ := exists_store bytes (w := w₁) (by
    rw [hs₁.dataOffset, hs₁.dataCapacity]
    omega)
  refine ⟨w₂, by rw [writeUncheckedObj, h₁]; exact h₂, ?_⟩
  have := hs₁.trans hs₂
  rwa [BitVec.toNat_ofNat, Nat.mod_eq_of_lt hlen] at this

/-- Making room loses nothing. -/
theorem ensureFreebuff_spec (junk : ℕ → UInt8) (w : Writer) (minRequired : ℕ) :
    (w.ensureFreebuff junk minRequired).written = w.written ∧
      (w.ensureFreebuff junk minRequired).dataOffset + minRequired ≤
        (w.ensureFreebuff junk minRequired).dataCapacity ∧
      (w.ensureFreebuff junk minRequired).chksum = w.chksum ∧
      (w.ensureFreebuff junk minRequired).dataOffset ≤ w.dataOffset := by
  simp only [ensureFreebuff]
  split_ifs with h h'
  · exact ⟨by simp [written, flush], by dsimp only; omega, rfl, Nat.zero_le _⟩
  · exact ⟨by simp [written, flush], by dsimp only; omega, rfl, Nat.zero_le _⟩
  · exact ⟨rfl, by omega, rfl, le_rfl⟩

/-- An event is written with its size and its checksum. -/
theorem exists_appendWse (junk : ℕ → UInt8) (w : Writer) (hlen : bytes.length < 2 ^ 32) :
    ∃ w', w.appendWse junk bytes = some w' ∧ w'.written = w.written ++ checked (sized bytes) := by
  obtain ⟨hw, hroom, -, -⟩ := ensureFreebuff_spec junk w (bytes.length + MIN_FREE_BUFF)
  simp only [appendWse]
  revert hw hroom
  generalize w.ensureFreebuff junk (bytes.length + MIN_FREE_BUFF) = w₀
  intro hw hroom
  simp only [MIN_FREE_BUFF] at hroom
  obtain ⟨w₁, h₁, hs₁⟩ := exists_writeUncheckedObj hlen (w := w₀) (by omega)
  have hsize := sized_length_le hlen
  -- The region since the old offset is the message with its size.
  have hregion : (w₁.data.drop w₀.dataOffset).take (w₁.dataOffset - w₀.dataOffset) = sized bytes := by
    have hcap := w₀.capacity_eq
    rw [List.take_drop, Nat.add_sub_cancel' (by rw [hs₁.dataOffset]; omega), hs₁.data,
      List.drop_left' (by rw [List.length_take]; omega)]
  simp only [h₁, hregion, chksum_eq, Option.bind_eq_bind, Option.bind_some]
  obtain ⟨w₂, h₂, hs₂⟩ := exists_writeUnchecked
    (w := { w₁ with chksum := adler32 Checksum.reset (sized bytes) })
    (BitVec.ofNat 32 (adler32 Checksum.reset (sized bytes))) (by
      dsimp only
      rw [hs₁.dataOffset, hs₁.dataCapacity]
      omega)
  refine ⟨w₂, h₂, ?_⟩
  rw [hs₂.written_eq, varint_adler32]
  show w₁.written ++ _ = _
  rw [hs₁.written_eq, hw, List.append_assoc, checked, Checksum.reset]

/-- The events are written one after another. -/
theorem exists_appendWses (junk : ℕ → UInt8) (w : Writer) {es : List (List UInt8)} (hlen : ∀ e ∈ es, e.length < 2 ^ 32) :
    ∃ w', es.foldlM (fun w e => w.appendWse junk e) w = some w' ∧
      w'.written = w.written ++ es.flatMap fun e => checked (sized e) := by
  induction es generalizing w with
  | nil => exact ⟨w, rfl, by simp⟩
  | cons e es ih =>
    obtain ⟨w₁, h₁, hw₁⟩ := exists_appendWse junk w (hlen e List.mem_cons_self)
    obtain ⟨w₂, h₂, hw₂⟩ := ih w₁ fun e he => hlen e (List.mem_cons_of_mem _ he)
    refine ⟨w₂, ?_, ?_⟩
    · rw [List.foldlM_cons, h₁]
      exact h₂
    · rw [hw₂, hw₁, List.flatMap_cons, List.append_assoc]

/-- A header is written with the checksum of all the bytes in the buffer. -/
theorem exists_writeHeader_of (junk : ℕ → UInt8) (version : BitVec 32) (hf : ¬w.headerWritten = true)
    (hlen : bytes.length < 2 ^ 32) :
    ∃ w' buffered, w.writeHeader junk version bytes = some w' ∧ buffered.length ≤ w.dataOffset ∧
      w'.written = w.written ++ (varint version.toNat ++ sized bytes ++
        varint (adler32 w.chksum (buffered ++ (varint version.toNat ++ sized bytes)))) := by
  obtain ⟨hw, hroom, hc, ho⟩ := ensureFreebuff_spec junk { w with headerWritten := true }
    (bytes.length + MIN_FREE_BUFF)
  rw [writeHeader, if_neg hf]
  revert hw hroom hc ho
  dsimp only
  generalize ensureFreebuff junk _ (bytes.length + MIN_FREE_BUFF) = w₀
  intro hw hroom hc ho
  simp only [MIN_FREE_BUFF] at hroom
  obtain ⟨w₁, h₁, hs₁⟩ := exists_writeUnchecked version (w := w₀) (by omega)
  have hv := varint_toNat_length version
  obtain ⟨w₂, h₂, hs₂⟩ := exists_writeUncheckedObj hlen (w := w₁) (by
    rw [hs₁.dataOffset, hs₁.dataCapacity]
    omega)
  have hs := hs₁.trans hs₂
  have hsize := sized_length_le hlen
  simp only [h₁, h₂, hs.data, hs.chksum, hc, chksum_eq, Option.bind_eq_bind, Option.bind_some]
  have hcsum := varint_adler32 w.chksum
    (w₀.data.take w₀.dataOffset ++ (varint version.toNat ++ sized bytes))
  revert hcsum
  generalize hc' : adler32 w.chksum
    (w₀.data.take w₀.dataOffset ++ (varint version.toNat ++ sized bytes)) = csum
  intro hcsum
  obtain ⟨w₃, h₃, hs₃⟩ := exists_writeUnchecked (w := { w₂ with chksum := csum })
    (BitVec.ofNat 32 csum) (by
      dsimp only
      rw [hs.dataOffset, hs.dataCapacity, List.length_append]
      omega)
  refine ⟨w₃, w₀.data.take w₀.dataOffset, h₃, (List.length_take_le _ _).trans ho, ?_⟩
  rw [hs₃.written_eq, hcsum, hc']
  show w₂.written ++ _ = _
  rw [hs.written_eq, hw, List.append_assoc]
  rfl

/-- The header is written first, with the checksum of all the bytes before it. -/
theorem exists_writeHeader (junk : ℕ → UInt8) (version : BitVec 32) (hlen : bytes.length < 2 ^ 32) :
    ∃ w', (new junk).writeHeader junk version bytes = some w' ∧
      w'.written = checked (varint version.toNat ++ sized bytes) := by
  obtain ⟨w', buffered, h, hbuffered, hw⟩ :=
    exists_writeHeader_of junk version (w := new junk) Bool.false_ne_true hlen
  rw [List.length_eq_zero_iff.1 (Nat.le_zero.1 hbuffered)] at hw
  exact ⟨w', h, hw⟩

/-- What a writer passes on, in however many pieces, is the stream. -/
theorem session_eq (junk : ℕ → UInt8) (version : BitVec 32) (hlen : bytes.length < 2 ^ 32) {es : List (List UInt8)}
    (hes : ∀ e ∈ es, e.length < 2 ^ 32) :
    ∃ calls, session junk version bytes es = some calls ∧
      calls.flatten = stream version bytes es := by
  obtain ⟨w₁, h₁, hw₁⟩ := exists_writeHeader junk version hlen
  obtain ⟨w₂, h₂, hw₂⟩ := exists_appendWses junk w₁ hes
  refine ⟨w₂.flush.unbuffered, ?_, ?_⟩
  · rw [session, h₁]
    simp only [Option.bind_eq_bind, Option.bind_some, h₂]
    rfl
  · rw [stream, ← hw₁, ← hw₂]
    simp [flush, written]

end Writer

/-! ## Reading it back -/

section Read

variable {M : Type} (P : Message M)

/-- A message with its size before it is read back. -/
theorem Message.reads (m : M) (h : (P.serialize m).length < 2 ^ 32) :
    Reads P.read (sized (P.serialize m)) m := by
  refine (Reads.varint (h.trans (by norm_num))).bind ?_
  have hp : Reads (match P.parse (P.serialize m) with
      | some m => pure m
      | none => Reader.fail) [] m := by
    rw [P.parse_serialize]
    exact Reads.pure m
  have := (Reads.take (P.serialize m)).bind (f := fun bytes =>
    match P.parse bytes with
    | some m => pure m
    | none => Reader.fail) hp
  rwa [List.append_nil] at this

/-- What is followed by its checksum is read back, and the checksum matches. -/
theorem reads_checked {α : Type} {r : Reader α} {bytes : List UInt8} {a : α} (h : Reads r bytes a) :
    Reads (readChecked r) (checked bytes) a := by
  refine ⟨fun rest => ?_⟩
  have hlt : adler32 1 bytes < 2 ^ 70 := (adler32_lt 1 bytes).trans (by norm_num)
  rw [checked, List.append_assoc, readChecked, h.read, Option.bind_some]
  dsimp only
  rw [(Reads.varint hlt).read, Option.bind_some]
  dsimp only
  rw [List.length_append, Nat.add_sub_cancel, List.take_left, if_pos rfl]

end Read

/-- For every header and every sequence of events: no write is outside the buffer, no
    assertion fails, what is passed to `write_unbuffered` is the stream, and a reader
    gets the version, the header and the events back from it, with matching checksums. -/
theorem profile_stream {Header Wse : Type} (H : Message Header) (E : Message Wse)
    (junk : ℕ → UInt8) (version : BitVec 32) (rh : Header) (es : List Wse)
    (hrh : (H.serialize rh).length < 2 ^ 32) (hes : ∀ e ∈ es, (E.serialize e).length < 2 ^ 32) :
    ∃ calls,
      Writer.session junk version (H.serialize rh) (es.map E.serialize) = some calls ∧
      calls.flatten = stream version (H.serialize rh) (es.map E.serialize) ∧
      readProfile H E calls.flatten = some (version.toNat, rh, es) := by
  obtain ⟨calls, hcalls, hstream⟩ := Writer.session_eq junk version hrh
    (fun e he => by
      obtain ⟨m, hm, rfl⟩ := List.mem_map.1 he
      exact hes m hm)
  refine ⟨calls, hcalls, hstream, ?_⟩
  have hhead : Reads (Reader.varint >>= fun v => H.read >>= fun rh => pure (v, rh))
      (varint version.toNat ++ sized (H.serialize rh)) (version.toNat, rh) :=
    (Reads.varint (version.isLt.trans (by norm_num))).bind ((H.reads rh hrh).map fun rh => (_, rh))
  have hall : (readChecked E.read).all (es.flatMap fun e => checked (sized (E.serialize e))) =
      some es :=
    Reader.all_flatMap (fun e he => reads_checked (E.reads e (hes e he))) fun e _ => by
      simp [checked, sized, varint_length_pos]
  rw [hstream, stream, readProfile, (reads_checked hhead).read, Option.bind_some]
  dsimp only
  rw [List.flatMap_map, hall, Option.map_some]

/-- A message type whose messages are their own serialisation. -/
def Message.bytes : Message (List UInt8) where
  serialize := id
  parse := some
  parse_serialize _ := rfl

/-- A header of two bytes and two events, one of them empty. -/
theorem profile_stream_bytes :
    ∃ calls, Writer.session (fun _ => 7) 1 [10, 20] [[30], []] = some calls ∧
      readProfile Message.bytes Message.bytes calls.flatten = some (1, [10, 20], [[30], []]) := by
  obtain ⟨calls, h, -, hread⟩ := profile_stream Message.bytes Message.bytes (fun _ => 7) 1 [10, 20]
    [[30], []] (by decide) (by decide)
  exact ⟨calls, h, hread⟩

end FkProf.ProfileWriter
