import FkProf.Controller

/-!
# Requests in text

The controller finds out what a client wants from the text it has received, at most
`MAX_DATA_SIZE - 1` characters of it (`controller.cpp:82-103`): from the front of the text, from
the front of the parameter of get, and from the words of the parameter of set.

* `Request`: what a client may want;
* `parse`: what the controller makes of a text;
* `Request.text`: how a client writes a request;
* `parse_text`: the controller reads what the client has written.
-/

namespace FkProf.Controller

/-- `MAX_DATA_SIZE`. -/
def MAX_DATA_SIZE : ℕ := 100

/-- `recv`, and the terminator after it: of what has been sent, the string in the buffer. -/
def received (sent : List Char) : List Char :=
  (sent.take (MAX_DATA_SIZE - 1)).takeWhile (· ≠ '\x00')

/-! ## Requests -/

/-- The parameters that a client may get. -/
inductive Param
  | intervalMin
  | intervalMax
  | interval
  | maxFrames
  | logPath
  deriving DecidableEq

/-- What a client wants. -/
inductive Request
  | start
  | stop
  | status
  | get (param : Param)
  | setLogPath (stringArg : List Char)
  | setIntervalMin (numericArg1 : ℤ)
  | setIntervalMax (numericArg1 : ℤ)
  | setMaxFrames (numericArg1 : ℤ)
  | setInterval (numericArg1 numericArg2 : ℤ)
  | unknown
  deriving DecidableEq

/-- The tests of `getProfilerParam`. -/
def parseParam (param : List Char) : Option Param :=
  if strstr param "intervalMin".toList = some param then some .intervalMin
  else if strstr param "intervalMax".toList = some param then some .intervalMax
  else if strstr param "interval".toList = some param then some .interval
  else if strstr param "maxFrames".toList = some param then some .maxFrames
  else if strstr param "logPath".toList = some param then some .logPath
  else none

/-- What `setProfilerParam` reads. -/
def parseSet (paramDesc : List Char) (numericArg1 numericArg2 : ℤ) : Request :=
  let (command, input) := extract (some paramDesc)
  if command = "logPath".toList then .setLogPath (extract input).1
  else
    let (arg1, input) := extractInt input
    let numericArg1 := arg1.getD numericArg1
    if command = "intervalMin".toList then .setIntervalMin numericArg1
    else if command = "intervalMax".toList then .setIntervalMax numericArg1
    else if command = "maxFrames".toList then .setMaxFrames numericArg1
    else if command = "interval".toList then
      .setInterval numericArg1 ((extractInt input).1.getD numericArg2)
    else .unknown

/-- What the controller makes of a text. -/
def parse (env : Environment) (buf : List Char) : Request :=
  if strstr buf "start".toList = some buf then .start
  else if strstr buf "stop".toList = some buf then .stop
  else if strstr buf "status".toList = some buf then .status
  else if strstr buf "get ".toList = some buf then
    ((parseParam (buf.drop 4)).map Request.get).getD .unknown
  else if strstr buf "set ".toList = some buf then
    parseSet (buf.drop 4) env.numericArg1 env.numericArg2
  else .unknown

/-! ## Texts -/

/-- The numeral of an integer, as a stream writes it. -/
def decimal (n : ℤ) : List Char :=
  if n < 0 then '-' :: Nat.toDigits 10 n.natAbs else Nat.toDigits 10 n.natAbs

def Param.text : Param → List Char
  | .intervalMin => "intervalMin".toList
  | .intervalMax => "intervalMax".toList
  | .interval => "interval".toList
  | .maxFrames => "maxFrames".toList
  | .logPath => "logPath".toList

/-- How a client writes a request. -/
def Request.text : Request → List Char
  | .start => "start".toList
  | .stop => "stop".toList
  | .status => "status".toList
  | .get param => "get ".toList ++ param.text
  | .setLogPath stringArg => "set ".toList ++ ("logPath".toList ++ ' ' :: stringArg)
  | .setIntervalMin n => "set ".toList ++ ("intervalMin".toList ++ ' ' :: decimal n)
  | .setIntervalMax n => "set ".toList ++ ("intervalMax".toList ++ ' ' :: decimal n)
  | .setMaxFrames n => "set ".toList ++ ("maxFrames".toList ++ ' ' :: decimal n)
  | .setInterval m n => "set ".toList ++ ("interval".toList ++ ' ' :: (decimal m ++ ' ' :: decimal n))
  | .unknown => []

/-- An `int`. -/
def IsInt (n : ℤ) : Prop := -2 ^ 31 ≤ n ∧ n < 2 ^ 31

instance (n : ℤ) : Decidable (IsInt n) := inferInstanceAs (Decidable (_ ∧ _))

/-- A request that can be written: its numbers are an `int` each, and its path is one word, short
    enough for the buffer of the controller. -/
def Request.Writable : Request → Prop
  | .setLogPath s => s ≠ [] ∧ (∀ c ∈ s, isspace c = false ∧ c ≠ '\x00') ∧ s.length ≤ 87
  | .setIntervalMin n | .setIntervalMax n | .setMaxFrames n => IsInt n
  | .setInterval m n => IsInt m ∧ IsInt n
  | .unknown => False
  | _ => True

/-! ## Numerals -/

section Numerals

variable {n : ℤ} {s t : List Char}

theorem takeWhile_digits {m : ℕ} (ht : t.takeWhile Char.isDigit = []) :
    (Nat.toDigits 10 m ++ t).takeWhile Char.isDigit = Nat.toDigits 10 m ∧
      (Nat.toDigits 10 m ++ t).dropWhile Char.isDigit = t := by
  have hall : ∀ c ∈ Nat.toDigits 10 m, c.isDigit = true := fun c hc =>
    Nat.isDigit_of_mem_toDigits (by decide) (by decide) hc
  have htake : (Nat.toDigits 10 m ++ t).takeWhile Char.isDigit = Nat.toDigits 10 m := by
    rw [List.takeWhile_append_of_pos hall, ht, List.append_nil]
  refine ⟨htake, ?_⟩
  have happ := List.takeWhile_append_dropWhile (p := Char.isDigit) (l := Nat.toDigits 10 m ++ t)
  rw [htake] at happ
  exact List.append_cancel_left happ

theorem digits_toDigits_append {m : ℕ} (ht : t.takeWhile Char.isDigit = []) :
    digits (Nat.toDigits 10 m ++ t) = m := by
  rw [digits, (takeWhile_digits ht).1, Nat.ofDigitChars_ten_toDigits]

/-- A numeral after a space is read up to its end. -/
theorem extractInt_decimal (hn : IsInt n) (ht : t.takeWhile Char.isDigit = []) :
    extractInt (some (' ' :: (decimal n ++ t))) = (some n, Stream.rest t) := by
  obtain ⟨hlow, hhigh⟩ := hn
  have hclamp : clamp n = n := by
    rw [clamp]
    omega
  have hdigits := takeWhile_digits (m := n.natAbs) ht
  rw [extractInt, List.dropWhile_cons_of_pos (by decide), decimal]
  split_ifs with hneg
  · have hatoi : atoi ('-' :: (Nat.toDigits 10 n.natAbs ++ t)) = n := by
      rw [atoi, List.dropWhile_cons_of_neg (by decide)]
      dsimp only
      rw [if_pos rfl, digits_toDigits_append ht]
      omega
    rw [List.cons_append, List.dropWhile_cons_of_neg (by decide)]
    dsimp only
    rw [if_pos (show '-' = '-' ∨ '-' = '+' from .inl rfl), hdigits.1, hdigits.2,
      if_neg Nat.toDigits_ne_nil, hatoi, if_pos hclamp]
  · rcases hd : Nat.toDigits 10 n.natAbs with _ | ⟨c, r⟩
    · exact absurd hd Nat.toDigits_ne_nil
    · have hc : c.isDigit = true :=
        Nat.isDigit_of_mem_toDigits (b := 10) (n := n.natAbs) (by decide) (by decide)
          (by rw [hd]; simp)
      obtain ⟨hs, hm, hp⟩ := not_isspace_of_isDigit hc
      rw [hd] at hdigits
      have hatoi : atoi (c :: (r ++ t)) = n := by
        have hvalue := digits_toDigits_append (m := n.natAbs) ht
        rw [hd] at hvalue
        rw [atoi, List.dropWhile_cons_of_neg (by simp [hs])]
        dsimp only
        rw [if_neg hm, if_neg hp]
        rw [List.cons_append] at hvalue
        rw [hvalue]
        omega
      rw [List.cons_append, List.dropWhile_cons_of_neg (by simp [hs])]
      dsimp only
      rw [List.cons_append] at hdigits
      rw [if_neg (not_or.2 ⟨hm, hp⟩), hdigits.1, hdigits.2, if_neg (List.cons_ne_nil c r), hatoi,
        if_pos hclamp]

theorem length_decimal_le (hn : IsInt n) : (decimal n).length ≤ 11 := by
  have hdigits : (Nat.toDigits 10 n.natAbs).length ≤ 10 := by
    rw [Nat.length_toDigits_le_iff (by decide) (by decide)]
    obtain ⟨hlow, hhigh⟩ := hn
    omega
  rw [decimal]
  split_ifs
  · exact Nat.succ_le_succ hdigits
  · exact Nat.le_succ_of_le hdigits

/-- A numeral has no terminator in it. -/
theorem ne_of_mem_decimal {c : Char} (hc : c ∈ decimal n) : c ≠ '\x00' := by
  have hdigit : ∀ c ∈ Nat.toDigits 10 n.natAbs, c ≠ '\x00' := fun c hc he => by
    have h := Nat.isDigit_of_mem_toDigits (by decide) (by decide) hc
    rw [he] at h
    exact absurd h (by decide)
  rw [decimal] at hc
  split_ifs at hc
  · rcases List.mem_cons.1 hc with rfl | hc
    · decide
    · exact hdigit c hc
  · exact hdigit c hc

end Numerals

/-! ## The round trip -/

section RoundTrip

variable {env : Environment} {r : Request} {k m n : ℤ} {s w : List Char}

/-- The text of a request for set is read by `setProfilerParam`. -/
theorem parse_set (t : List Char) : parse env ("set ".toList ++ t) =
    parseSet t env.numericArg1 env.numericArg2 := by
  have hset : "set ".toList <+: "set ".toList ++ t := List.prefix_append ..
  have hdiffer : ∀ k ∈ ["start".toList, "stop".toList, "status".toList, "get ".toList],
      ¬ k.take 2 <+: "set ".toList := by decide
  have hno : ∀ k ∈ ["start".toList, "stop".toList, "status".toList, "get ".toList],
      ¬ k <+: "set ".toList ++ t := fun k hk hp => hdiffer k hk
    (List.prefix_of_prefix_length_le ((List.take_prefix 2 k).trans hp) hset (by simp))
  simp only [List.mem_cons, forall_eq_or_imp] at hno
  obtain ⟨h₁, h₂, h₃, h₄, -⟩ := hno
  simp only [parse, strstr_eq_self, h₁, h₂, h₃, h₄, hset, if_true, if_false]
  rfl

/-- A word at the end. -/
theorem extract_last (hne : s ≠ []) (hs : ∀ c ∈ s, isspace c = false) :
    extract (some (' ' :: s)) = (s, none) := by
  obtain ⟨c, r, rfl⟩ := List.exists_cons_of_ne_nil hne
  have htake : (c :: r).takeWhile (!isspace ·) = c :: r :=
    List.takeWhile_eq_self_iff.2 fun c hc => by rw [hs c hc]; rfl
  have hrest : (c :: r).dropWhile (!isspace ·) = [] :=
    List.dropWhile_eq_nil_iff.2 fun c hc => by rw [hs c hc]; rfl
  have hc : isspace c = false := hs c List.mem_cons_self
  rw [extract, List.dropWhile_cons_of_pos (by decide), List.dropWhile_cons_of_neg (by simp [hc]),
    htake, hrest]
  rfl

/-- A parameter that is set to a number. -/
theorem parseSet_number (hn : IsInt n) (hne : w ≠ []) (hw : ∀ c ∈ w, isspace c = false)
    (hlog : w ≠ "logPath".toList) : parseSet (w ++ ' ' :: decimal n) k m =
      if w = "intervalMin".toList then .setIntervalMin n
      else if w = "intervalMax".toList then .setIntervalMax n
      else if w = "maxFrames".toList then .setMaxFrames n
      else if w = "interval".toList then .setInterval n m
      else .unknown := by
  have hint := extractInt_decimal (t := []) hn rfl
  rw [List.append_nil] at hint
  rw [parseSet, extract_word hne hw]
  dsimp only
  rw [if_neg hlog, hint]
  rfl

theorem Request.length_text_le (hr : r.Writable) : r.text.length ≤ MAX_DATA_SIZE - 1 := by
  have hset : ∀ w t : List Char, w.length + t.length ≤ 94 →
      ("set ".toList ++ (w ++ ' ' :: t)).length ≤ 99 := fun w t ht => by
    have hlen : "set ".toList.length = 4 := by decide
    simp only [List.length_append, List.length_cons]
    omega
  cases r with
  | start | stop | status => decide
  | get param => cases param <;> decide
  | setLogPath s => exact hset _ _ (Nat.add_le_add_left hr.2.2 7)
  | setIntervalMin n | setIntervalMax n | setMaxFrames n =>
    have hn := length_decimal_le hr
    exact hset _ _ ((Nat.add_le_add_left hn _).trans (by decide))
  | setInterval m n =>
    have hm := length_decimal_le hr.1
    have hn := length_decimal_le hr.2
    have hnumbers : (decimal m ++ ' ' :: decimal n).length ≤ 23 := by
      simp only [List.length_append, List.length_cons]
      omega
    exact hset _ _ ((Nat.add_le_add_left hnumbers _).trans (by decide))
  | unknown => exact hr.elim

/-- Nor has a text. -/
theorem Request.ne_of_mem_text (hr : r.Writable) : ∀ c ∈ r.text, c ≠ '\x00' := by
  have hfree : ∀ w : List Char, '\x00' ∉ w → ∀ c ∈ w, c ≠ '\x00' := fun w hw c hc he =>
    hw (he ▸ hc)
  have hset : ∀ w t : List Char, '\x00' ∉ w → (∀ c ∈ t, c ≠ '\x00') →
      ∀ c ∈ "set ".toList ++ (w ++ ' ' :: t), c ≠ '\x00' := fun w t hw ht =>
    List.forall_mem_append.2 ⟨hfree _ (by decide), List.forall_mem_append.2 ⟨hfree w hw,
      List.forall_mem_cons.2 ⟨by decide, ht⟩⟩⟩
  have hdecimal : ∀ n, ∀ c ∈ decimal n, c ≠ '\x00' := fun n c hc => ne_of_mem_decimal hc
  cases r with
  | start | stop | status => exact hfree _ (by decide)
  | get param => cases param <;> exact hfree _ (by decide)
  | setLogPath s => exact hset _ _ (by decide) fun c hc => (hr.2.1 c hc).2
  | setIntervalMin n | setIntervalMax n | setMaxFrames n => exact hset _ _ (by decide) (hdecimal n)
  | setInterval m n =>
    exact hset _ _ (by decide) (List.forall_mem_append.2 ⟨hdecimal m,
      List.forall_mem_cons.2 ⟨by decide, hdecimal n⟩⟩)
  | unknown => exact hr.elim

/-- What a client writes fits into the buffer. -/
theorem received_text (hr : r.Writable) : received r.text = r.text := by
  rw [received, List.take_of_length_le (Request.length_text_le hr)]
  exact List.takeWhile_eq_self_iff.2 fun c hc => decide_eq_true (Request.ne_of_mem_text hr c hc)

/-- The controller reads what a client has written, whatever is in its uninitialised numbers. -/
theorem parse_text (hr : r.Writable) : parse env (received r.text) = r := by
  rw [received_text hr]
  cases r with
  | start | stop | status => rfl
  | get param => cases param <;> rfl
  | setLogPath s =>
    obtain ⟨hne, hs, -⟩ := hr
    refine (parse_set _).trans ?_
    rw [parseSet, extract_word (by simp) (by simp [isspace])]
    dsimp only
    rw [if_pos rfl, extract_last hne fun c hc => (hs c hc).1]
  | setIntervalMin n | setIntervalMax n | setMaxFrames n =>
    refine (parse_set _).trans ?_
    rw [parseSet_number hr (by simp) (by simp [isspace]) (by simp)]
    rfl
  | setInterval m n =>
    have hm := extractInt_decimal (t := ' ' :: decimal n) hr.1 rfl
    have hn := extractInt_decimal (t := []) hr.2 rfl
    rw [List.append_nil] at hn
    refine (parse_set _).trans ?_
    rw [parseSet, extract_word (by simp) (by simp [isspace])]
    dsimp only
    rw [hm]
    dsimp only
    rw [Stream.rest, if_neg (List.cons_ne_nil _ _), hn]
    rfl
  | unknown => exact hr.elim

theorem parse_text_interval : (Request.setInterval (-3) 7).Writable ∧
    (Request.setInterval (-3) 7).text = "set interval -3 7".toList ∧
      parse ⟨true, [], 0, 0, 0⟩ (received (Request.setInterval (-3) 7).text) =
        .setInterval (-3) 7 :=
  ⟨⟨by decide, by decide⟩, by decide, parse_text ⟨by decide, by decide⟩⟩

end RoundTrip

end FkProf.Controller
