import FkProf.Foundations.RunningSums
import FkProf.ProfileWriter

/-!
# Altered profiles

The checksum of an event is there for a reader to find out that the profile is not what was
written. With Adler-32 (`checksum.cpp`) it does, if one byte of the message has been changed, or
two that are less than 65521 bytes apart; what becomes of the message otherwise does not matter.

* `adler32_ne`: the checksum changes;
* `readChecked_altered`: so the reader takes no altered message;
* `alteration_rejected`: nor a profile with one in it.
-/

namespace FkProf.ProfileWriter

/-! ## The checksum -/

section Checksum

/-- The modulus of Adler-32. -/
abbrev BASE : ℕ := 65521

instance primeBase : Fact BASE.Prime := ⟨by norm_num⟩

/-- A byte, modulo the modulus. -/
def residue (b : UInt8) : ZMod BASE := b.toNat

theorem residue_injective : Function.Injective residue := fun b b' h => by
  have hlt : ∀ b : UInt8, b.toNat < BASE := fun b => b.toNat_lt.trans (by decide)
  have hmod := (ZMod.natCast_eq_natCast_iff' ..).1 h
  rw [Nat.mod_eq_of_lt (hlt b), Nat.mod_eq_of_lt (hlt b')] at hmod
  exact UInt8.toNat_inj.1 hmod

variable {buf buf' : List UInt8}

/-- The sums of Adler-32 are the running sums, modulo the modulus. -/
theorem foldl_adlerStep (s : ℕ × ℕ) : Prod.map Nat.cast Nat.cast (buf.foldl adlerStep s) =
    runningSums (Prod.map Nat.cast Nat.cast s) (buf.map residue) := by
  induction buf generalizing s with
  | nil => rfl
  | cons b buf ih =>
    refine (ih (adlerStep s b)).trans ?_
    rw [List.map_cons, runningSums, runningSums, List.foldl_cons]
    refine congrArg (fun t => List.foldl _ t (buf.map residue)) (Prod.ext ?_ ?_)
    · simp [adlerStep, residue]
    · simp [adlerStep, residue]

theorem foldl_adlerStep_lt {s : ℕ × ℕ} (hs : s.1 < 2 ^ 16 ∧ s.2 < 2 ^ 16) :
    (buf.foldl adlerStep s).1 < 2 ^ 16 ∧ (buf.foldl adlerStep s).2 < 2 ^ 16 := by
  induction buf generalizing s with
  | nil => exact hs
  | cons b buf ih =>
    exact ih ⟨(Nat.mod_lt _ (by decide)).trans (by decide), (Nat.mod_lt _ (by decide)).trans (by decide)⟩

/-- The two sums are the halves of the checksum. -/
theorem foldl_adlerStep_eq (h : adler32 1 buf = adler32 1 buf') :
    buf.foldl adlerStep (1, 0) = buf'.foldl adlerStep (1, 0) := by
  have hlt : (buf.foldl adlerStep (1, 0)).1 < 2 ^ 16 ∧ (buf.foldl adlerStep (1, 0)).2 < 2 ^ 16 :=
    foldl_adlerStep_lt (by decide)
  have hlt' : (buf'.foldl adlerStep (1, 0)).1 < 2 ^ 16 ∧ (buf'.foldl adlerStep (1, 0)).2 < 2 ^ 16 :=
    foldl_adlerStep_lt (by decide)
  have he : (buf.foldl adlerStep (1, 0)).2 * 2 ^ 16 + (buf.foldl adlerStep (1, 0)).1 =
      (buf'.foldl adlerStep (1, 0)).2 * 2 ^ 16 + (buf'.foldl adlerStep (1, 0)).1 := h
  exact Prod.ext (by omega) (by omega)

/-- A change at one place, or at two that are not too far apart, changes the checksum. -/
theorem adler32_ne (h : Altered BASE buf buf') : adler32 1 buf ≠ adler32 1 buf' := by
  intro he
  refine h.runningSums_ne residue_injective (Prod.map Nat.cast Nat.cast ((1, 0) : ℕ × ℕ)) ?_
  rw [← foldl_adlerStep, ← foldl_adlerStep, foldl_adlerStep_eq he]

end Checksum

/-! ## The reader -/

section Read

variable {α M : Type} {r : Reader α} {bytes bytes' : List UInt8}

/-- A message is taken with its size, whether it can be parsed or not. -/
theorem Message.takes (P : Message M) (h : bytes.length < 2 ^ 32) : Takes P.read (sized bytes) := by
  refine Takes.bind (Reads.varint (h.trans (by norm_num))) ⟨fun rest => ?_⟩
  show (Reader.take bytes.length _).bind _ = none ∨ ∃ m, (Reader.take bytes.length _).bind _ = some (m, rest)
  rw [(Reads.take bytes).read rest, Option.bind_some]
  dsimp only
  cases P.parse bytes with
  | none => exact .inl rfl
  | some m => exact .inr ⟨m, rfl⟩

/-- With another checksum after it, nothing is read. -/
theorem readChecked_eq_none (h : Takes r bytes') (hne : adler32 1 bytes ≠ adler32 1 bytes')
    (rest : List UInt8) : readChecked r (bytes' ++ (varint (adler32 1 bytes) ++ rest)) = none := by
  have hlt : adler32 1 bytes < 2 ^ 70 := (adler32_lt 1 bytes).trans (by norm_num)
  rw [readChecked]
  rcases h.read (varint (adler32 1 bytes) ++ rest) with hn | ⟨a, ha⟩
  · rw [hn]
    rfl
  · rw [ha, Option.bind_some]
    dsimp only
    rw [(Reads.varint hlt).read, Option.bind_some]
    dsimp only
    rw [List.length_append, Nat.add_sub_cancel, List.take_left, if_neg hne]

end Read

/-! ## The profile -/

section Profile

variable {Header Wse : Type} (H : Message Header) (E : Message Wse)

/-- What is in a profile before the message of its header. -/
def beforeHeader (version : BitVec 32) (rh : List UInt8) : List UInt8 :=
  varint version.toNat ++ varint rh.length

/-- And what is before the message of an event. -/
def beforeEvent (version : BitVec 32) (rh : List UInt8) (es : List (List UInt8)) (e : List UInt8) :
    List UInt8 :=
  stream version rh es ++ varint e.length

/-- The reader of a header. -/
theorem takes_header {bytes : List UInt8} (version : BitVec 32) (h : bytes.length < 2 ^ 32) :
    Takes (Reader.varint >>= fun v => H.read >>= fun rh => pure (v, rh))
      (varint version.toNat ++ sized bytes) :=
  Takes.bind (Reads.varint (version.isLt.trans (by norm_num))) ((H.takes h).map _)

/-- The message of the header is altered. -/
theorem header_rejected {rh bytes : List UInt8} (version : BitVec 32) (hrh : rh.length < 2 ^ 32)
    (hb : Altered BASE rh bytes) (rest : List UInt8) :
    readProfile H E (beforeHeader version rh ++ (bytes ++
      (varint (adler32 1 (varint version.toNat ++ sized rh)) ++ rest))) = none := by
  have hsized : beforeHeader version rh ++ bytes = varint version.toNat ++ sized bytes := by
    rw [beforeHeader, sized, hb.length_eq, List.append_assoc]
  have hne : adler32 1 (varint version.toNat ++ sized rh) ≠
      adler32 1 (varint version.toNat ++ sized bytes) := by
    rw [← hsized, sized, ← List.append_assoc]
    exact adler32_ne (hb.append_left _)
  rw [← List.append_assoc, hsized, readProfile,
    readChecked_eq_none (takes_header H version (hb.length_eq ▸ hrh)) hne]
  rfl

/-- The message of an event is altered. -/
theorem event_rejected {e bytes : List UInt8} (version : BitVec 32) (rh : Header) (es : List Wse)
    (hrh : (H.serialize rh).length < 2 ^ 32) (hes : ∀ e ∈ es, (E.serialize e).length < 2 ^ 32)
    (he : e.length < 2 ^ 32) (hb : Altered BASE e bytes) (rest : List UInt8) :
    readProfile H E (beforeEvent version (H.serialize rh) (es.map E.serialize) e ++ (bytes ++
      (varint (adler32 1 (sized e)) ++ rest))) = none := by
  have hsized : varint e.length ++ bytes = sized bytes := by
    rw [sized, hb.length_eq]
  have hne : adler32 1 (sized e) ≠ adler32 1 (sized bytes) := by
    rw [← hsized, sized]
    exact adler32_ne (hb.append_left _)
  have hhead : Reads (Reader.varint >>= fun v => H.read >>= fun rh => pure (v, rh))
      (varint version.toNat ++ sized (H.serialize rh)) (version.toNat, rh) :=
    (Reads.varint (version.isLt.trans (by norm_num))).bind ((H.reads rh hrh).map fun rh => (_, rh))
  have hfail := readChecked_eq_none (E.takes (hb.length_eq ▸ he)) hne rest
  have hall : (readChecked E.read).all (es.flatMap (fun e => checked (sized (E.serialize e))) ++
      (sized bytes ++ (varint (adler32 1 (sized e)) ++ rest))) = none :=
    Reader.all_eq_none (fun e he => reads_checked (E.reads e (hes e he)))
      (fun e _ => by simp [checked, sized, varint_length_pos])
      (by simp [sized, varint_length_pos]) hfail
  have happend : beforeEvent version (H.serialize rh) (es.map E.serialize) e ++ (bytes ++
      (varint (adler32 1 (sized e)) ++ rest)) =
      checked (varint version.toNat ++ sized (H.serialize rh)) ++
        (es.flatMap (fun e => checked (sized (E.serialize e))) ++
          (sized bytes ++ (varint (adler32 1 (sized e)) ++ rest))) := by
    rw [beforeEvent, stream, ← hsized, List.flatMap_map]
    simp only [List.append_assoc]
  rw [happend, readProfile, (reads_checked hhead).read, Option.bind_some]
  dsimp only
  rw [hall]
  rfl

/-- In a profile as it is written, the message of the header and that of an event are followed by
    their checksum: if such a message is altered at one byte, or at two that are less than 65521
    bytes apart, a reader does not accept the profile. -/
theorem alteration_rejected (junk : ℕ → UInt8) (version : BitVec 32) (rh : Header) (es : List Wse)
    (hrh : (H.serialize rh).length < 2 ^ 32) (hes : ∀ e ∈ es, (E.serialize e).length < 2 ^ 32) :
    ∃ calls,
      Writer.session junk version (H.serialize rh) (es.map E.serialize) = some calls ∧
      (∃ rest, calls.flatten =
          beforeHeader version (H.serialize rh) ++ (H.serialize rh ++ rest) ∧
        ∀ bytes, Altered BASE (H.serialize rh) bytes →
          readProfile H E (beforeHeader version (H.serialize rh) ++ (bytes ++ rest)) = none) ∧
      ∀ es₁ e es₂, es = es₁ ++ e :: es₂ → ∃ rest, calls.flatten =
          beforeEvent version (H.serialize rh) (es₁.map E.serialize) (E.serialize e) ++
            (E.serialize e ++ rest) ∧
        ∀ bytes, Altered BASE (E.serialize e) bytes →
          readProfile H E (beforeEvent version (H.serialize rh) (es₁.map E.serialize)
            (E.serialize e) ++ (bytes ++ rest)) = none := by
  obtain ⟨calls, hcalls, hstream⟩ := Writer.session_eq junk version hrh
    fun (e : List UInt8) (he : e ∈ es.map E.serialize) => by
      obtain ⟨m, hm, rfl⟩ := List.mem_map.1 he
      exact hes m hm
  refine ⟨calls, hcalls, ⟨varint (adler32 1 (varint version.toNat ++ sized (H.serialize rh))) ++
    (es.map E.serialize).flatMap (fun e => checked (sized e)), ?_,
    fun bytes hb => header_rejected H E version hrh hb _⟩, ?_⟩
  · rw [hstream, stream, checked, beforeHeader, sized]
    simp only [List.append_assoc]
  · rintro es₁ e es₂ rfl
    refine ⟨varint (adler32 1 (sized (E.serialize e))) ++
      (es₂.map E.serialize).flatMap (fun e => checked (sized e)), ?_,
      fun bytes hb => event_rejected H E version rh es₁ hrh
        (fun e he => hes e (List.mem_append_left _ he)) (hes e (by simp)) hb _⟩
    rw [hstream, stream, beforeEvent, stream]
    simp only [List.map_append, List.map_cons, List.flatMap_append, List.flatMap_cons, checked,
      sized, List.append_assoc]

/-- An event of three bytes, with the first and the last one exchanged. -/
theorem alteration_rejected_swapped : ∃ calls rest,
    Writer.session (fun _ => 7) 1 [10, 20] [[30], [1, 2, 3]] = some calls ∧
      calls.flatten = beforeEvent 1 [10, 20] [[30]] [1, 2, 3] ++ ([1, 2, 3] ++ rest) ∧
      readProfile Message.bytes Message.bytes
        (beforeEvent 1 [10, 20] [[30]] [1, 2, 3] ++ ([3, 2, 1] ++ rest)) = none := by
  obtain ⟨calls, hcalls, -, hevents⟩ := alteration_rejected Message.bytes Message.bytes
    (fun _ => 7) 1 [10, 20] [[30], [1, 2, 3]] (by decide) (by decide)
  obtain ⟨rest, hflatten, hall⟩ := hevents [[30]] [1, 2, 3] [] rfl
  exact ⟨calls, rest, hcalls, hflatten,
    hall [3, 2, 1] (.two [] [2] [] (by decide) (by decide) (by decide))⟩

end Profile

end FkProf.ProfileWriter
