import FkProf.Profiler.Configure
import Mathlib.Data.BitVec

/-!
# The arithmetic of the sampling intervals

A bound of the sampling interval goes through `int`, `size_t` and `unsigned int`:
`setSamplingInterval` sorts the bounds, `SignalHandler` draws intervals between them,
`configure` gives the worker half of the time in which the queue would be full at the
shortest interval, in milliseconds, and `sleep_for_millis` (`processor.cpp:13-21`) turns
them back into the microseconds of `usleep`. The other modules take integers for all of
them; here they are machine words.

* `setSamplingInterval_toInt`, `timingInterval_toInt`, `processorInterval_toInt`: up to
  `usleep` nothing overflows, and the words are the integers of the other modules;
* `intervals_in_range`: the sleep is right exactly if `samplingIntervalMin` is at most
  8388609 microseconds;
* `exists_wrapped`: with a longer interval the worker sleeps hardly at all.
-/

namespace FkProf.Intervals

/-- `int`, and `unsigned int`. -/
abbrev CInt := BitVec 32

abbrev SizeT := BitVec 64

/-- `DEFAULT_SAMPLING_INTERVAL`, in microseconds. -/
def DEFAULT_SAMPLING_INTERVAL : CInt := 1

def MILLIS_IN_MICRO : CInt := 1000

/-! ## The code -/

def intervalOrDefault (interval : CInt) : CInt :=
  if (0 : CInt).slt interval then interval else DEFAULT_SAMPLING_INTERVAL

/-- `std::min`. -/
def stdMin (a b : CInt) : CInt := if b.slt a then b else a

/-- `std::max`. -/
def stdMax (a b : CInt) : CInt := if a.slt b then b else a

/-- `Profiler::setSamplingInterval`: `samplingIntervalMin` and `samplingIntervalMax`. -/
def setSamplingInterval (intervalMin intervalMax : CInt) : CInt × CInt :=
  let min := intervalOrDefault intervalMin
  let max := intervalOrDefault intervalMax
  (stdMin min max, stdMax min max)

/-- `SignalHandler::SignalHandler`, line 22. -/
def range (samplingIntervalMin samplingIntervalMax : CInt) : CInt :=
  samplingIntervalMax - samplingIntervalMin + 1

/-- Line 24, `rand` being what `rand()` returns. -/
def timingInterval (samplingIntervalMin samplingIntervalMax rand : CInt) : CInt :=
  samplingIntervalMin + rand.srem (range samplingIntervalMin samplingIntervalMax)

/-- `Profiler::configure`, line 281: the product is one of `size_t`. -/
def scaledInterval (samplingIntervalMin : CInt) : CInt :=
  (BitVec.ofNat 64 Queue.Size * samplingIntervalMin.signExtend 64 / 1000#64 / 2#64).setWidth 32

/-- Line 282: the `interval_` of the processor. -/
def processorInterval (samplingIntervalMin : CInt) : CInt :=
  let processor_interval := scaledInterval samplingIntervalMin
  if (0 : CInt).slt processor_interval then processor_interval else 1

/-- `sleep_for_millis`: what it passes to `usleep`. -/
def sleepForMillis (period : CInt) : CInt := period * MILLIS_IN_MICRO

/-! ## Nothing overflows before `usleep` -/

section Range

variable {a b m M r : CInt}

theorem toNat_of_nonneg (h : 0 ≤ a.toInt) : (a.toNat : ℤ) = a.toInt := by
  have hlt := a.isLt
  rw [BitVec.toInt_eq_toNat_cond] at h ⊢
  split_ifs at h ⊢ <;> omega

theorem zero_slt_iff : (0 : CInt).slt a ↔ 0 < a.toInt := BitVec.slt_iff_toInt_lt

theorem intervalOrDefault_toInt (a : CInt) :
    (intervalOrDefault a).toInt = Processor.intervalOrDefault a.toInt := by
  rw [intervalOrDefault, Processor.intervalOrDefault]
  by_cases h : 0 < a.toInt
  · rw [if_pos (zero_slt_iff.2 h), if_pos h]
  · rw [if_neg fun hs => h (zero_slt_iff.1 hs), if_neg h]
    decide

theorem stdMin_toInt (a b : CInt) : (stdMin a b).toInt = min a.toInt b.toInt := by
  rw [stdMin]
  split_ifs with h
  · exact (min_eq_right (BitVec.slt_iff_toInt_lt.1 h).le).symm
  · exact (min_eq_left (not_lt.1 fun hlt => h (BitVec.slt_iff_toInt_lt.2 hlt))).symm

theorem stdMax_toInt (a b : CInt) : (stdMax a b).toInt = max a.toInt b.toInt := by
  rw [stdMax]
  split_ifs with h
  · exact (max_eq_right (BitVec.slt_iff_toInt_lt.1 h).le).symm
  · exact (max_eq_left (not_lt.1 fun hlt => h (BitVec.slt_iff_toInt_lt.2 hlt))).symm

/-- The bounds that are stored are those of the other modules. -/
theorem setSamplingInterval_toInt (a b : CInt) :
    (setSamplingInterval a b).1.toInt = (Processor.setSamplingInterval a.toInt b.toInt).min ∧
      (setSamplingInterval a b).2.toInt = (Processor.setSamplingInterval a.toInt b.toInt).max := by
  rw [setSamplingInterval, Processor.setSamplingInterval]
  dsimp only
  rw [stdMin_toInt, stdMax_toInt, intervalOrDefault_toInt, intervalOrDefault_toInt]
  exact ⟨rfl, rfl⟩

theorem setSamplingInterval_ordered (a b : CInt) : 0 < (setSamplingInterval a b).1.toInt ∧
    (setSamplingInterval a b).1.toInt ≤ (setSamplingInterval a b).2.toInt := by
  rw [(setSamplingInterval_toInt a b).1, (setSamplingInterval_toInt a b).2]
  exact Configure.ordered_setSamplingInterval a.toInt b.toInt

/-- The difference of two bounds in order fits into an `int`, with one added. -/
theorem sub_add_one_fits (hm : 0 < m.toInt) (hM : m.toInt ≤ M.toInt) :
    M.ssubOverflow m = false ∧ (M - m).saddOverflow 1 = false ∧
      (range m M).toInt = M.toInt - m.toInt + 1 := by
  have hlt := M.toInt_lt
  have hsub : M.ssubOverflow m = false := by
    simp only [BitVec.ssubOverflow, Bool.or_eq_false_iff, decide_eq_false_iff_not]
    omega
  have hdiff := BitVec.toInt_sub_of_not_ssubOverflow (by rw [hsub]; exact Bool.false_ne_true)
  have hone : (1 : CInt).toInt = 1 := by decide
  have hadd : (M - m).saddOverflow 1 = false := by
    simp only [BitVec.saddOverflow, hdiff, hone, Bool.or_eq_false_iff, decide_eq_false_iff_not]
    omega
  refine ⟨hsub, hadd, ?_⟩
  rw [range, BitVec.toInt_add_of_not_saddOverflow (by rw [hadd]; exact Bool.false_ne_true), hdiff,
    hone]

/-- The remainder by the range is added to the lower bound without an overflow. -/
theorem add_srem_fits (hm : 0 < m.toInt) (hM : m.toInt ≤ M.toInt) (hr : 0 ≤ r.toInt) :
    m.saddOverflow (r.srem (range m M)) = false ∧
      (timingInterval m M r).toInt = m.toInt + r.toInt % (M.toInt - m.toInt + 1) := by
  have hrange := (sub_add_one_fits hm hM).2.2
  have hrem : (r.srem (range m M)).toInt = r.toInt % (M.toInt - m.toInt + 1) := by
    rw [BitVec.toInt_srem, hrange, Int.tmod_eq_emod_of_nonneg hr]
  have hnonneg := Int.emod_nonneg r.toInt (show M.toInt - m.toInt + 1 ≠ 0 by omega)
  have hlt := Int.emod_lt_of_pos r.toInt (show 0 < M.toInt - m.toInt + 1 by omega)
  have hMlt := M.toInt_lt
  have hadd : m.saddOverflow (r.srem (range m M)) = false := by
    simp only [BitVec.saddOverflow, hrem, Bool.or_eq_false_iff, decide_eq_false_iff_not]
    omega
  refine ⟨hadd, ?_⟩
  rw [timingInterval, BitVec.toInt_add_of_not_saddOverflow (by rw [hadd]; exact Bool.false_ne_true),
    hrem]

/-- The intervals that are drawn are those of the other modules. -/
theorem timingInterval_toInt (c : Processor.SamplingInterval) (hm : m.toInt = c.min)
    (hM : M.toInt = c.max) (rand : ℕ → ℕ) {i : ℕ} (hr : (rand i : ℤ) = r.toInt) :
    (timingInterval m M r).toInt = c.timingIntervals rand i := by
  have hpos := c.pos
  have hle := c.le
  rw [(add_srem_fits (by omega) (by omega) (by omega)).2, Processor.SamplingInterval.timingIntervals,
    hm, hM, hr]

/-- The product fits into a `size_t`, and the quotient into an `int`. -/
theorem scaledInterval_toNat (hm : 0 < m.toInt) :
    (scaledInterval m).toNat = Queue.Size * m.toNat / 1000 / 2 ∧
      (scaledInterval m).toInt = (Queue.Size * m.toNat / 1000 / 2 : ℕ) := by
  have hlt := m.toInt_lt
  have hnat := toNat_of_nonneg hm.le
  have hmsb : m.msb = false := by
    rw [← Bool.not_eq_true]
    intro hmsb
    have hneg := BitVec.toInt_neg_of_msb_true hmsb
    omega
  have hsize : (BitVec.ofNat 64 Queue.Size).toNat = 1024 := by decide
  have hval : (scaledInterval m).toNat = Queue.Size * m.toNat / 1000 / 2 := by
    rw [scaledInterval, BitVec.signExtend_eq_setWidth_of_msb_false hmsb, BitVec.toNat_setWidth,
      BitVec.toNat_udiv, BitVec.toNat_udiv, BitVec.toNat_mul, BitVec.toNat_setWidth, hsize]
    simp only [BitVec.toNat_ofNat, Queue.Size, Nat.reducePow, Nat.reduceMod]
    rw [Nat.mod_eq_of_lt (show m.toNat < _ by omega), Nat.mod_eq_of_lt (by omega),
      Nat.mod_eq_of_lt (by omega)]
  refine ⟨hval, ?_⟩
  rw [BitVec.toInt_eq_toNat_of_lt, hval]
  rw [hval]
  simp only [Queue.Size]
  omega

/-- The interval of the worker is that of the other modules. -/
theorem processorInterval_toInt (hm : 0 < m.toInt) :
    (processorInterval m).toInt = Configure.processorInterval m.toInt := by
  have hscaled : (scaledInterval m).toInt = Queue.Size * m.toInt / 1000 / 2 := by
    rw [(scaledInterval_toNat hm).2, ← toNat_of_nonneg hm.le]
    norm_cast
  rw [processorInterval, Configure.processorInterval, ← hscaled]
  by_cases h : 0 < (scaledInterval m).toInt
  · rw [if_pos (zero_slt_iff.2 h), if_pos h]
  · rw [if_neg fun hs => h (zero_slt_iff.1 hs), if_neg h]
    decide

theorem processorInterval_pos (hm : 0 < m.toInt) : 1 ≤ (processorInterval m).toInt := by
  rw [processorInterval_toInt hm, Configure.processorInterval]
  split_ifs <;> omega

/-! ## The sleep -/

theorem sleepForMillis_toNat (a : CInt) :
    (sleepForMillis a).toNat = a.toNat * 1000 % 2 ^ 32 := by
  rw [sleepForMillis, BitVec.toNat_mul]
  rfl

/-- The microseconds do not wrap around. -/
theorem sleep_exact_iff (hm : 0 < m.toInt) :
    ((sleepForMillis (processorInterval m)).toNat : ℤ) = 1000 * (processorInterval m).toInt ↔
      m.toInt ≤ 8388609 := by
  have hpos := processorInterval_pos hm
  have hnat := toNat_of_nonneg (show 0 ≤ (processorInterval m).toInt by omega)
  have hinterval := processorInterval_toInt hm
  rw [Configure.processorInterval] at hinterval
  rw [sleepForMillis_toNat]
  simp only [Queue.Size] at hinterval
  split_ifs at hinterval <;> omega

/-- The worker is back before the queue is full. -/
theorem sleep_le (hm : 0 < m.toInt) (hle : m.toInt ≤ 8388609) :
    ((sleepForMillis (processorInterval m)).toNat : ℤ) ≤ Queue.Size * m.toInt := by
  have hinterval := processorInterval_toInt hm
  rw [Configure.processorInterval] at hinterval
  rw [(sleep_exact_iff hm).2 hle]
  simp only [Queue.Size] at hinterval ⊢
  split_ifs at hinterval <;> omega

/-- From the setter to the sleep: the bounds are positive and in order, the range and the
    intervals drawn do not overflow and lie between the bounds, the worker sleeps so many
    milliseconds as it should, at least one, and not longer than the queue has room at the
    shortest interval. -/
structure InRange (samplingIntervalMin samplingIntervalMax : CInt) : Prop where
  pos : 1 ≤ samplingIntervalMin.toInt
  le : samplingIntervalMin.toInt ≤ samplingIntervalMax.toInt
  sub : samplingIntervalMax.ssubOverflow samplingIntervalMin = false
  add : (samplingIntervalMax - samplingIntervalMin).saddOverflow 1 = false
  range : 1 ≤ (range samplingIntervalMin samplingIntervalMax).toInt
  draw : ∀ rand : CInt, 0 ≤ rand.toInt →
    samplingIntervalMin.saddOverflow
      (rand.srem (Intervals.range samplingIntervalMin samplingIntervalMax)) = false ∧
    samplingIntervalMin.toInt ≤
      (timingInterval samplingIntervalMin samplingIntervalMax rand).toInt ∧
    (timingInterval samplingIntervalMin samplingIntervalMax rand).toInt ≤
      samplingIntervalMax.toInt
  interval : 1 ≤ (processorInterval samplingIntervalMin).toInt
  micros : ((sleepForMillis (processorInterval samplingIntervalMin)).toNat : ℤ) =
    1000 * (processorInterval samplingIntervalMin).toInt
  sleep : ((sleepForMillis (processorInterval samplingIntervalMin)).toNat : ℤ) ≤
    Queue.Size * samplingIntervalMin.toInt

/-- For every pair of `int`s given to the setter, all of it holds if and only if the smaller
    bound that is stored is at most 8388609 microseconds. -/
theorem intervals_in_range (intervalMin intervalMax : CInt) :
    InRange (setSamplingInterval intervalMin intervalMax).1
        (setSamplingInterval intervalMin intervalMax).2 ↔
      (setSamplingInterval intervalMin intervalMax).1.toInt ≤ 8388609 := by
  obtain ⟨hm, hM⟩ := setSamplingInterval_ordered intervalMin intervalMax
  generalize (setSamplingInterval intervalMin intervalMax).1 = m at hm hM ⊢
  generalize (setSamplingInterval intervalMin intervalMax).2 = M at hm hM ⊢
  refine ⟨fun h => (sleep_exact_iff hm).1 h.micros, fun h => ?_⟩
  obtain ⟨hsub, hadd, hrange⟩ := sub_add_one_fits hm hM
  refine ⟨hm, hM, hsub, hadd, by omega, fun r hr => ?_, processorInterval_pos hm,
    (sleep_exact_iff hm).2 h, sleep_le hm h⟩
  obtain ⟨hfits, hdraw⟩ := add_srem_fits hm hM hr
  have hnonneg := Int.emod_nonneg r.toInt (show M.toInt - m.toInt + 1 ≠ 0 by omega)
  have hlt := Int.emod_lt_of_pos r.toInt (show 0 < M.toInt - m.toInt + 1 by omega)
  exact ⟨hfits, by omega, by omega⟩

/-- At an interval of 8388610 microseconds the worker should sleep 4294968 milliseconds, and
    sleeps 704 microseconds. -/
theorem exists_wrapped : ¬∀ intervalMin intervalMax : CInt,
    InRange (setSamplingInterval intervalMin intervalMax).1
      (setSamplingInterval intervalMin intervalMax).2 := by
  intro h
  have hmicros := (h 8388610 8388610).micros
  exact absurd hmicros (by decide)

end Range

end FkProf.Intervals
