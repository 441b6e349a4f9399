import FkProf.Foundations.System
import FkProf.ProfileWriter
import Mathlib.Data.BitVec

/-!
# The profile writer in 32 bits

The sizes and offsets of `ProfileWriter` (`profile_writer.h:7-77`) are `uint32_t`, and wrap
around. The size of a message is an `int`, so that a message may come near to the limits:
`ensure_freebuff` adds it to the offset to see whether it fits, and doubles it for a new
buffer.

* `ensureFreebuff_lift`: without a wrap, it does what the writer of `FkProf.ProfileWriter`
  does, and so do the calls (`next_lift`), so that the stream is the same;
* `room_iff`: there is room after it exactly if neither the sum nor the product wraps;
* `buffer_safe`: in every run without a wrap there is room, and the offset stays in the
  buffer;
* `exists_no_room`: with a large message there is none.
-/

namespace FkProf.ProfileWriter.Words

/-- `uint32_t`. -/
abbrev Word := BitVec 32

def MIN_FREE_BUFF : Word := 64

def BUFF_SZ : Word := 0xFFFF

/-- A serialised message. -/
structure Serialized where
  bytes : List UInt8
  /-- `ByteSize` is an `int`. -/
  length_lt : bytes.length < 2 ^ 31

/-- `ByteSize`. -/
def Serialized.byteSize (value : Serialized) : Word := BitVec.ofNat 32 value.bytes.length

/-- `ProfileWriter`, with the arguments that `write_unbuffered` was called with. -/
structure Writer where
  unbuffered : List (List UInt8)
  chksum : ℕ
  data : List UInt8
  dataCapacity : Word
  dataOffset : Word
  headerWritten : Bool
  capacity_eq : data.length = dataCapacity.toNat

/-- A call. -/
inductive Op
  | writeHeader (version : Word) (rh : Serialized)
  | appendWse (e : Serialized)

/-- The message that is written. -/
@[simp] def Op.message : Op → Serialized
  | .writeHeader _ rh => rh
  | .appendWse e => e

namespace Writer

open FkProf.ProfileWriter.Writer (alloc alloc_length)

variable (junk : ℕ → UInt8)

/-- The constructor. -/
def new : Writer where
  unbuffered := []
  chksum := Checksum.reset
  data := alloc junk BUFF_SZ.toNat
  dataCapacity := BUFF_SZ
  dataOffset := 0
  headerWritten := false
  capacity_eq := alloc_length junk _

variable (w : Writer)

def flush : Writer := { w with unbuffered := w.unbuffered ++ [w.data.take w.dataOffset.toNat] }

/-- `ensure_freebuff(min_reqired)`. -/
def ensureFreebuff (minRequired : Word) : Writer :=
  if w.dataCapacity < w.dataOffset + minRequired then
    let w := { w.flush with dataOffset := 0 }
    if w.dataCapacity < minRequired then
      { w with
        dataCapacity := minRequired * 2
        data := alloc junk (minRequired * 2).toNat
        capacity_eq := alloc_length junk _ }
    else w
  else w

/-- `ensure_freebuff(value)`. -/
def ensureFreebuffFor (value : Serialized) : Writer :=
  w.ensureFreebuff junk (value.byteSize + MIN_FREE_BUFF)

/-- Writing to `data + data_offset`, and moving the offset. -/
def store (bytes : List UInt8) : Option Writer :=
  if h : w.dataOffset.toNat + bytes.length ≤ w.dataCapacity.toNat then
    some { w with
      data := w.data.take w.dataOffset.toNat ++
        (bytes ++ w.data.drop (w.dataOffset.toNat + bytes.length))
      dataOffset := w.dataOffset + BitVec.ofNat 32 bytes.length
      capacity_eq := by
        have := w.capacity_eq
        simp only [List.length_append, List.length_take, List.length_drop]
        omega }
  else none

/-- `write_unchecked`. -/
def writeUnchecked (value : Word) : Option Writer := w.store (varint value.toNat)

/-- `write_unchecked_obj`. -/
def writeUncheckedObj (value : Serialized) : Option Writer := do
  let w ← w.writeUnchecked value.byteSize
  w.store value.bytes

def writeHeader (version : Word) (rh : Serialized) : Option Writer :=
  if w.headerWritten then none
  else do
    let w := { w with headerWritten := true }
    let w := w.ensureFreebuffFor junk rh
    let w ← w.writeUnchecked version
    let w ← w.writeUncheckedObj rh
    let csum ← Checksum.chksum w.chksum (w.data.take w.dataOffset.toNat)
    let w := { w with chksum := csum }
    w.writeUnchecked (BitVec.ofNat 32 csum)

def appendWse (e : Serialized) : Option Writer := do
  let w := w.ensureFreebuffFor junk e
  let oldOffset := w.dataOffset
  let w ← w.writeUncheckedObj e
  let w := { w with chksum := Checksum.reset }
  let dataSz := w.dataOffset - oldOffset
  let csum ← Checksum.chksum w.chksum ((w.data.drop oldOffset.toNat).take dataSz.toNat)
  let w := { w with chksum := csum }
  w.writeUnchecked (BitVec.ofNat 32 csum)

/-- A call, if its assertion holds and it writes to the buffer only. -/
def next : Op → Option Writer
  | .writeHeader version rh => w.writeHeader junk version rh
  | .appendWse e => w.appendWse junk e

end Writer

/-- The writer as a transition system. -/
def system (junk : ℕ → UInt8) : System Writer Op where
  init := {.new junk}
  next := Writer.next junk

/-! ## Without a wrap -/

/-- Neither the sum of the offset and of what is required wraps around, nor, where the buffer
    is too small, the size of the next one. -/
def Writer.Fits (w : Writer) (op : Op) : Prop :=
  w.dataOffset.toNat + op.message.bytes.length + 64 < 2 ^ 32 ∧
    (w.dataCapacity.toNat < op.message.bytes.length + 64 → op.message.bytes.length + 64 < 2 ^ 31)

/-- There are so many bytes free as are required. -/
def Writer.Room (junk : ℕ → UInt8) (w : Writer) (op : Op) : Prop :=
  (w.ensureFreebuffFor junk op.message).dataOffset.toNat + op.message.bytes.length + 64 ≤
    (w.ensureFreebuffFor junk op.message).dataCapacity.toNat

/-- The writer with natural numbers. -/
def Writer.lift (w : Writer) : ProfileWriter.Writer where
  unbuffered := w.unbuffered
  chksum := w.chksum
  data := w.data
  dataCapacity := w.dataCapacity.toNat
  dataOffset := w.dataOffset.toNat
  headerWritten := w.headerWritten
  capacity_eq := w.capacity_eq

section Lift

variable {junk : ℕ → UInt8} {w v : Writer} {value : Serialized} {bytes : List UInt8} {op : Op}

theorem Serialized.toNat_required (value : Serialized) :
    (value.byteSize + MIN_FREE_BUFF).toNat = value.bytes.length + 64 := by
  have hlt := value.length_lt
  have hfree : MIN_FREE_BUFF.toNat = 64 := by decide
  rw [BitVec.toNat_add, Serialized.byteSize, BitVec.toNat_ofNat, hfree]
  omega

/-- A store has the bytes and the offset of one with natural numbers. -/
theorem store_lift (w : Writer) (bytes : List UInt8) :
    (w.store bytes).map Writer.lift = w.lift.store bytes := by
  rw [Writer.store, ProfileWriter.Writer.store]
  by_cases h : w.dataOffset.toNat + bytes.length ≤ w.dataCapacity.toNat
  · have hlt := w.dataCapacity.isLt
    have hoffset : (w.dataOffset + BitVec.ofNat 32 bytes.length).toNat =
        w.dataOffset.toNat + bytes.length := by
      rw [BitVec.toNat_add, BitVec.toNat_ofNat]
      omega
    rw [dif_pos h, dif_pos (show w.lift.dataOffset + _ ≤ w.lift.dataCapacity from h), Option.map_some]
    simp only [Writer.lift, hoffset]
  · rw [dif_neg h, dif_neg (show ¬w.lift.dataOffset + _ ≤ w.lift.dataCapacity from h)]
    rfl

/-- Two actions one after the other. -/
theorem bind_lift {f : Option Writer} {g : Writer → Option Writer}
    {f' : Option ProfileWriter.Writer} {g' : ProfileWriter.Writer → Option ProfileWriter.Writer}
    (hf : f.map Writer.lift = f') (hg : ∀ v, f = some v → (g v).map Writer.lift = g' v.lift) :
    (f.bind g).map Writer.lift = f'.bind g' := by
  subst hf
  cases f with
  | none => rfl
  | some v => exact hg v rfl

theorem writeUncheckedObj_lift (w : Writer) (value : Serialized) :
    (w.writeUncheckedObj value).map Writer.lift = w.lift.writeUncheckedObj value.bytes :=
  bind_lift (store_lift w _) fun v _ => store_lift v value.bytes

/-- A store moves the offset forward, in the same buffer. -/
theorem store_spec (h : w.store bytes = some v) :
    v.dataOffset.toNat = w.dataOffset.toNat + bytes.length ∧
      v.dataOffset ≤ v.dataCapacity ∧ v.dataCapacity = w.dataCapacity := by
  rw [Writer.store] at h
  split_ifs at h with hle
  cases h
  have hlt := w.dataCapacity.isLt
  have hoffset : (w.dataOffset + BitVec.ofNat 32 bytes.length).toNat =
      w.dataOffset.toNat + bytes.length := by
    rw [BitVec.toNat_add, BitVec.toNat_ofNat]
    omega
  exact ⟨hoffset, BitVec.le_def.2 (hoffset.trans_le hle), rfl⟩

/-- Without a wrap, room is made as with natural numbers. -/
theorem ensureFreebuff_lift {minRequired : Word}
    (hsum : w.dataOffset.toNat + minRequired.toNat < 2 ^ 32)
    (hgrow : w.dataCapacity.toNat < minRequired.toNat → minRequired.toNat < 2 ^ 31) :
    (w.ensureFreebuff junk minRequired).lift = w.lift.ensureFreebuff junk minRequired.toNat := by
  have hadd : (w.dataOffset + minRequired).toNat = w.dataOffset.toNat + minRequired.toNat := by
    rw [BitVec.toNat_add, Nat.mod_eq_of_lt hsum]
  rw [Writer.ensureFreebuff, ProfileWriter.Writer.ensureFreebuff]
  simp only [BitVec.lt_def, hadd]
  by_cases hfull : w.dataCapacity.toNat < w.dataOffset.toNat + minRequired.toNat
  · rw [if_pos hfull, if_pos (show w.lift.dataCapacity < w.lift.dataOffset + _ from hfull)]
    by_cases hlarge : w.dataCapacity.toNat < minRequired.toNat
    · have hdouble : (minRequired * 2).toNat = minRequired.toNat * 2 := by
        have hlt := hgrow hlarge
        have htwo : (2 : Word).toNat = 2 := by decide
        rw [BitVec.toNat_mul, htwo]
        exact Nat.mod_eq_of_lt (by omega)
      rw [if_pos (show w.flush.dataCapacity.toNat < _ from hlarge),
        if_pos (show w.lift.flush.dataCapacity < _ from hlarge)]
      simp only [Writer.lift, hdouble]
      rfl
    · rw [if_neg (show ¬w.flush.dataCapacity.toNat < _ from hlarge),
        if_neg (show ¬w.lift.flush.dataCapacity < _ from hlarge)]
      rfl
  · rw [if_neg hfull, if_neg (show ¬w.lift.dataCapacity < w.lift.dataOffset + _ from hfull)]

theorem writeUncheckedObj_offset (h : w.writeUncheckedObj value = some v) :
    w.dataOffset ≤ v.dataOffset := by
  obtain ⟨u, hu, hv⟩ := Option.bind_eq_some_iff.1 h
  have hu := (store_spec hu).1
  have hv := (store_spec hv).1
  rw [BitVec.le_def]
  omega

/-- A message longer than the buffer is not written to it. -/
theorem writeUncheckedObj_eq_none (h : w.dataCapacity.toNat < value.bytes.length) :
    w.writeUncheckedObj value = none := by
  refine Option.eq_none_iff_forall_ne_some.2 fun v hv => ?_
  obtain ⟨u, hu, hv⟩ := Option.bind_eq_some_iff.1 hv
  obtain ⟨-, -, hu⟩ := store_spec hu
  obtain ⟨hoffset, hle, hv⟩ := store_spec hv
  rw [BitVec.le_def, hv, hu] at hle
  omega

/-- Room is made for a message. -/
theorem ensureFreebuffFor_lift (h : w.Fits op) :
    (w.ensureFreebuffFor junk op.message).lift =
      w.lift.ensureFreebuff junk (op.message.bytes.length + ProfileWriter.MIN_FREE_BUFF) := by
  obtain ⟨hsum, hgrow⟩ := h
  have hreq := op.message.toNat_required
  rw [Writer.ensureFreebuffFor, ensureFreebuff_lift, hreq, ProfileWriter.MIN_FREE_BUFF]
  · rwa [hreq, ← Nat.add_assoc]
  · rwa [hreq]

theorem writeHeader_lift {version : Word} {rh : Serialized} (h : w.Fits (.writeHeader version rh)) :
    (w.writeHeader junk version rh).map Writer.lift =
      w.lift.writeHeader junk version rh.bytes := by
  rw [Writer.writeHeader, ProfileWriter.Writer.writeHeader]
  by_cases hwritten : w.headerWritten
  · rw [if_pos hwritten, if_pos (show w.lift.headerWritten from hwritten)]
    rfl
  · rw [if_neg hwritten, if_neg (show ¬w.lift.headerWritten from hwritten)]
    have hroom : (Writer.ensureFreebuffFor junk { w with headerWritten := true } rh).lift =
        ProfileWriter.Writer.ensureFreebuff junk { w.lift with headerWritten := true }
          (rh.bytes.length + ProfileWriter.MIN_FREE_BUFF) :=
      @ensureFreebuffFor_lift junk { w with headerWritten := true } (.writeHeader version rh) h
    dsimp only
    rw [← hroom]
    refine bind_lift (store_lift _ _) fun u _ => ?_
    refine bind_lift (writeUncheckedObj_lift u rh) fun v _ => ?_
    simp only [chksum_eq, Option.bind_eq_bind, Option.bind_some]
    exact store_lift _ _

theorem appendWse_lift {e : Serialized} (h : w.Fits (.appendWse e)) :
    (w.appendWse junk e).map Writer.lift = w.lift.appendWse junk e.bytes := by
  rw [Writer.appendWse, ProfileWriter.Writer.appendWse]
  have hroom : (w.ensureFreebuffFor junk e).lift =
      w.lift.ensureFreebuff junk (e.bytes.length + ProfileWriter.MIN_FREE_BUFF) :=
    @ensureFreebuffFor_lift junk w (.appendWse e) h
  dsimp only
  rw [← hroom]
  refine bind_lift (writeUncheckedObj_lift _ e) fun v hv => ?_
  -- The offset does not move back, so that the size of the region does not wrap.
  have hsize := BitVec.toNat_sub_of_le (writeUncheckedObj_offset hv)
  simp only [chksum_eq, Option.bind_eq_bind, Option.bind_some, hsize]
  exact store_lift _ _

/-- The assertion of a call. -/
def Writer.Asserts (w : Writer) : Op → Prop
  | .writeHeader _ _ => ¬w.headerWritten = true
  | .appendWse _ => True

theorem next_lift (h : w.Fits op) :
    (w.next junk op).map Writer.lift = match op with
      | .writeHeader version rh => w.lift.writeHeader junk version rh.bytes
      | .appendWse e => w.lift.appendWse junk e.bytes := by
  cases op with
  | writeHeader version rh => exact writeHeader_lift h
  | appendWse e => exact appendWse_lift h

/-- Without a wrap, a call returns. -/
theorem exists_next (hfits : w.Fits op) (hassert : w.Asserts op) : ∃ v, w.next junk op = some v := by
  have hlift := @next_lift junk w op hfits
  have hlen := op.message.length_lt.trans (by norm_num : 2 ^ 31 < 2 ^ 32)
  cases op with
  | writeHeader version rh =>
    obtain ⟨w', -, hw', -⟩ :=
      ProfileWriter.Writer.exists_writeHeader_of junk version (w := w.lift) hassert hlen
    obtain ⟨v, hv, -⟩ := Option.map_eq_some_iff.1 (hlift.trans hw')
    exact ⟨v, hv⟩
  | appendWse e =>
    obtain ⟨w', hw', -⟩ := ProfileWriter.Writer.exists_appendWse junk w.lift hlen
    obtain ⟨v, hv, -⟩ := Option.map_eq_some_iff.1 (hlift.trans hw')
    exact ⟨v, hv⟩

/-! ## Room in the buffer -/

/-- A call leaves the offset in the buffer. -/
theorem offset_le_of_next (h : w.next junk op = some v) : v.dataOffset ≤ v.dataCapacity := by
  suffices ∃ u : Writer, ∃ bytes, u.store bytes = some v by
    obtain ⟨u, bytes, hu⟩ := this
    exact (store_spec hu).2.1
  cases op with
  | writeHeader version rh =>
    rw [Writer.next, Writer.writeHeader] at h
    split_ifs at h with hwritten
    obtain ⟨u₁, -, h⟩ := Option.bind_eq_some_iff.1 h
    obtain ⟨u₂, -, h⟩ := Option.bind_eq_some_iff.1 h
    obtain ⟨csum, -, h⟩ := Option.bind_eq_some_iff.1 h
    exact ⟨_, _, h⟩
  | appendWse e =>
    obtain ⟨u, -, h⟩ := Option.bind_eq_some_iff.1 h
    obtain ⟨csum, -, h⟩ := Option.bind_eq_some_iff.1 h
    exact ⟨_, _, h⟩

theorem offset_le_new (junk : ℕ → UInt8) :
    (Writer.new junk).dataOffset ≤ (Writer.new junk).dataCapacity :=
  show (0 : Word) ≤ BUFF_SZ by decide

/-- There is room exactly if nothing wraps: a wrapped sum looks as if there were, and a
    wrapped product is less than what is required. -/
theorem room_iff (hoffset : w.dataOffset ≤ w.dataCapacity) : w.Room junk op ↔ w.Fits op := by
  have hreq := op.message.toNat_required
  have hlt := op.message.length_lt
  have hcapacity := w.dataCapacity.isLt
  have htwo : (2 : Word).toNat = 2 := by decide
  have hzero : (0 : Word).toNat = 0 := by decide
  rw [BitVec.le_def] at hoffset
  rw [Writer.Room, Writer.Fits, Writer.ensureFreebuffFor, Writer.ensureFreebuff]
  simp only [BitVec.lt_def, BitVec.toNat_add w.dataOffset, hreq]
  split_ifs with hfull hlarge
  · have hlarge : w.dataCapacity.toNat < op.message.bytes.length + 64 := hlarge
    simp only [BitVec.toNat_mul, hreq, htwo, hzero]
    omega
  · have hlarge : ¬w.dataCapacity.toNat < op.message.bytes.length + 64 := hlarge
    simp only [Writer.flush, hzero]
    omega
  · omega

end Lift

/-- In every run without a wrap the offset stays in the buffer, and after each
    `ensure_freebuff` there is room for what is required; and in each state of it there is room
    for a further call exactly if that does not wrap either, and then it writes to the buffer
    only. -/
theorem buffer_safe {junk : ℕ → UInt8} {tr : List (Writer × Op)} {w : Writer}
    (h : (system junk).Run Writer.Fits (.new junk) tr w) :
    w.dataOffset ≤ w.dataCapacity ∧ (∀ a ∈ tr, a.1.Room junk a.2) ∧
      ∀ op, (w.Room junk op ↔ w.Fits op) ∧
        (w.Fits op → w.Asserts op → ∃ v, w.next junk op = some v) := by
  suffices hsafe : w.dataOffset ≤ w.dataCapacity ∧ ∀ a ∈ tr, a.1.Room junk a.2 from
    ⟨hsafe.1, hsafe.2, fun op => ⟨room_iff hsafe.1, exists_next⟩⟩
  refine h.traceInvariant (I := fun tr w => w.dataOffset ≤ w.dataCapacity ∧
    ∀ a ∈ tr, a.1.Room junk a.2) ?_ ⟨offset_le_new junk, by simp⟩
  rintro tr w op v ⟨hoffset, hroom⟩ hfits hn
  refine ⟨offset_le_of_next hn, fun a ha => ?_⟩
  rcases List.mem_append.1 ha with ha | ha
  · exact hroom a ha
  · rw [List.mem_singleton.1 ha]
    exact (room_iff hoffset).2 hfits

/-- A header of two bytes, and what then may follow. -/
theorem buffer_safe_header :
    ∃ v, (Writer.new fun _ => 7).writeHeader (fun _ => 7) 1 ⟨[10, 20], by decide⟩ = some v ∧
      v.dataOffset ≤ v.dataCapacity ∧ ∀ op, v.Room (fun _ => 7) op ↔ v.Fits op := by
  have hfits : (Writer.new fun _ => 7).Fits (.writeHeader 1 ⟨[10, 20], by decide⟩) :=
    ⟨by decide, by decide⟩
  obtain ⟨v, hv⟩ := @exists_next (fun _ => 7) _ _ hfits Bool.false_ne_true
  obtain ⟨hoffset, -, hop⟩ := buffer_safe (System.Run.single hfits hv)
  exact ⟨v, hv, hoffset, fun op => (hop op).1⟩

/-- The largest message makes the buffer 126 bytes long, and is written past its end. -/
theorem exists_no_room :
    ∃ e : Serialized, e.bytes.length = 2 ^ 31 - 1 ∧
      ((Writer.new fun _ => 7).ensureFreebuffFor (fun _ => 7) e).dataCapacity = 126 ∧
      ¬(Writer.new fun _ => 7).Room (fun _ => 7) (.appendWse e) ∧
      (Writer.new fun _ => 7).next (fun _ => 7) (.appendWse e) = none := by
  obtain ⟨e, he⟩ : ∃ e : Serialized, e.bytes.length = 2 ^ 31 - 1 :=
    ⟨⟨List.replicate (2 ^ 31 - 1) 0, by rw [List.length_replicate]; omega⟩, List.length_replicate⟩
  have hsize : e.byteSize = 2 ^ 31 - 1 := by
    rw [Serialized.byteSize, he]
    decide
  have hcapacity : ((Writer.new fun _ => 7).ensureFreebuffFor (fun _ => 7) e).dataCapacity = 126 := by
    rw [Writer.ensureFreebuffFor, hsize, Writer.ensureFreebuff, if_pos (by decide), if_pos (by decide)]
    decide
  refine ⟨e, he, hcapacity, fun hroom => ?_, ?_⟩
  · rw [Writer.Room, Op.message, hcapacity, he, show (126 : Word).toNat = 126 by decide] at hroom
    omega
  · rw [Writer.next, Writer.appendWse, writeUncheckedObj_eq_none]
    · rfl
    · rw [hcapacity, he]
      decide

end FkProf.ProfileWriter.Words
