import FkProf.Foundations.Strings

/-!
# The options of the agent

`parseArguments` (`agent.cpp:275-306`) reads a list of options, `key=value` between
commas, into a configuration. The loop looks for the next `=` and for the next comma,
each in all that is left of the string: so an item without `=` may be given the value
of a later one.

* `parseArguments_eq`: the keys at which the loop makes a turn;
* `item`, `itemEffect`: an item, and what it says on its own;
* `separate_iff`: every item has this effect, whatever surrounds it, exactly if no item
  without `=` begins with a known key and has a `=` after it;
* `exists_stray`: a flag that takes the value of the item after it.
-/

namespace FkProf.Agent

/-- `ConfigurationOptions`. -/
structure ConfigurationOptions where
  samplingIntervalMin : ℤ
  samplingIntervalMax : ℤ
  logFilePath : Option (List Char)
  host : Option (List Char)
  port : Option (List Char)
  start : Bool
  maxFramesToCapture : ℤ
  deriving DecidableEq

/-- `ConfigurationOptions::ConfigurationOptions`. -/
def ConfigurationOptions.new : ConfigurationOptions := ⟨1, 1, none, none, none, true, 128⟩

def intervalMin : List Char := "intervalMin".toList
def intervalMax : List Char := "intervalMax".toList
def interval : List Char := "interval".toList
def logPath : List Char := "logPath".toList
def start : List Char := "start".toList
def host : List Char := "host".toList
def port : List Char := "port".toList
def maxFrames : List Char := "maxFrames".toList

/-- The keys whose value is a string. -/
def textKeys : List (List Char) := [logPath, host, port]

def knownKeys : List (List Char) :=
  [intervalMin, intervalMax, interval, logPath, start, host, port, maxFrames]

/-! ## The parser -/

/-- `safe_copy_string`, of the rest of a string up to a pointer into the same one. A
    negative length is a `size_t` of nearly `2 ^ 64`, which `malloc` refuses. -/
def safe_copy_string (value : List Char) (next : Option (List Char)) : Option (List Char) :=
  match next with
  | none => some value
  | some next =>
    if next.length ≤ value.length then some (value.take (value.length - next.length)) else none

/-- The assignments of lines 285-301, for a value as a number and as a copy. -/
def assign (key : List Char) (number : ℤ) (copy : Option (List Char)) (c : ConfigurationOptions) :
    Option ConfigurationOptions :=
  if strstr key intervalMin = some key then some { c with samplingIntervalMin := number }
  else if strstr key intervalMax = some key then some { c with samplingIntervalMax := number }
  else if strstr key interval = some key then
    some { c with samplingIntervalMin := number, samplingIntervalMax := number }
  else if strstr key logPath = some key then copy.map fun s => { c with logFilePath := some s }
  else if strstr key start = some key then some { c with start := number ≠ 0 }
  else if strstr key host = some key then copy.map fun s => { c with host := some s }
  else if strstr key port = some key then copy.map fun s => { c with port := some s }
  else if strstr key maxFrames = some key then some { c with maxFramesToCapture := number }
  else some c

/-- A turn of the loop, lines 278-304. There is none if the process is stopped. -/
def turn (c : ConfigurationOptions) (key : List Char) : Option ConfigurationOptions :=
  match strchr key '=' with
  | none => some c
  | some eq => assign key (atoi eq.tail) (safe_copy_string eq.tail (strchr key ',')) c

/-- The loop, from a key on. -/
def parseFrom (key : List Char) (c : ConfigurationOptions) : Option ConfigurationOptions :=
  (turn c key).bind fun c =>
    match _h : strchr key ',' with
    | none => some c
    | some next => parseFrom next.tail c
termination_by key.length
decreasing_by
  have hlen := strchr_length _h
  rw [List.length_tail]
  omega

/-- `parseArguments`, of a string or null. -/
def parseArguments (options : Option (List Char)) (c : ConfigurationOptions) :
    Option ConfigurationOptions :=
  match options with
  | none => some c
  | some options => parseFrom options c

/-! ## The items -/

/-- The rests of a string after its commas. -/
def afterCommas : List Char → List (List Char)
  | [] => []
  | a :: s => if a = ',' then s :: afterCommas s else afterCommas s

/-- The keys at which the loop makes a turn. -/
def keys (s : List Char) : List (List Char) := s :: afterCommas s

/-- The item at the front of a string. -/
def item (key : List Char) : List Char := key.takeWhile (· ≠ ',')

/-- The value of an item: what is after its first `=`. -/
def valueOf (item : List Char) : List Char := (item.dropWhile (· ≠ '=')).tail

/-- What an item says on its own. -/
def itemEffect (c : ConfigurationOptions) (item : List Char) : Option ConfigurationOptions :=
  if '=' ∈ item then assign item (atoi (valueOf item)) (some (valueOf item)) c else some c

/-- Each item of two lists of options is treated on its own: its turn has the effect it
    should have, on every configuration; the lists are parsed one after the other; and
    strings are copied up to a pointer that is not before their first one. -/
structure Separate (x y : List Char) : Prop where
  items : ∀ key ∈ keys (x ++ ',' :: y), ∀ c, turn c key = itemEffect c (item key)
  lists : ∀ c, parseArguments (some (x ++ ',' :: y)) c =
    (parseArguments (some x) c).bind (parseArguments (some y))
  lengths : ∀ key ∈ keys (x ++ ',' :: y), (∃ k ∈ textKeys, k <+: key) → ∀ eq next,
    strchr key '=' = some eq → strchr key ',' = some next → next.length ≤ eq.tail.length

/-- No item without `=` begins with a known key and has a `=` after it. -/
def NoStray (s : List Char) : Prop :=
  ∀ key ∈ keys s, (∃ k ∈ knownKeys, k <+: key) → '=' ∈ key → '=' ∈ item key

section Keys

variable {s x y key : List Char} {c : ConfigurationOptions}

theorem afterCommas_append_cons (x y : List Char) :
    afterCommas (x ++ ',' :: y) = (afterCommas x).map (· ++ ',' :: y) ++ keys y := by
  induction x with
  | nil => exact if_pos rfl
  | cons a x ih =>
    rw [List.cons_append, afterCommas, afterCommas, ih]
    split_ifs <;> rfl

theorem keys_append_cons (x y : List Char) :
    keys (x ++ ',' :: y) = (keys x).map (· ++ ',' :: y) ++ keys y := by
  rw [keys, afterCommas_append_cons]
  rfl

theorem afterCommas_eq_nil (h : ',' ∉ s) : afterCommas s = [] := by
  induction s with
  | nil => rfl
  | cons a s ih =>
    rw [List.mem_cons, not_or] at h
    rw [afterCommas, if_neg (Ne.symm h.1), ih h.2]

/-- The loop makes its turns at the keys. -/
theorem parseFrom_eq (s : List Char) (c : ConfigurationOptions) :
    parseFrom s c = (keys s).foldlM turn c := by
  induction hn : s.length using Nat.strong_induction_on generalizing s c with
  | h n ih =>
    by_cases hs : ',' ∈ s
    · obtain ⟨a, b, rfl, ha⟩ := List.eq_append_cons_of_mem hs
      rw [parseFrom, keys_append_cons, keys, afterCommas_eq_nil ha, List.map_singleton,
        List.singleton_append, List.foldlM_cons]
      refine congrArg _ (funext fun c => ?_)
      have hnext := strchr_append_cons ha b
      rw [← ih b.length (by simp at hn; omega) b c rfl]
      split
      · rename_i h
        rw [hnext] at h
        cases h
      · rename_i next h
        rw [hnext] at h
        cases h
        rfl
    · rw [parseFrom, keys, afterCommas_eq_nil hs, List.foldlM_cons]
      refine congrArg _ (funext fun c => ?_)
      split
      · rfl
      · rename_i next h
        rw [strchr_eq_none hs] at h
        cases h

theorem parseArguments_eq (s : List Char) (c : ConfigurationOptions) :
    parseArguments (some s) c = (keys s).foldlM turn c :=
  parseFrom_eq s c

/-- A string is an item, or an item, a comma, and the others. -/
theorem item_or (s : List Char) : ',' ∉ item s ∧ (s = item s ∨ ∃ r, s = item s ++ ',' :: r) := by
  by_cases hs : ',' ∈ s
  · obtain ⟨a, b, rfl, ha⟩ := List.eq_append_cons_of_mem hs
    have hall : ∀ d ∈ a, decide (d ≠ ',') = true := fun d hd => by
      rw [decide_eq_true_iff]
      rintro rfl
      exact ha hd
    have hitem : item (a ++ ',' :: b) = a := by
      rw [item, takeWhile_append_cons (by decide), List.takeWhile_eq_self_iff.2 hall]
    rw [hitem]
    exact ⟨ha, .inr ⟨b, rfl⟩⟩
  · have hall : ∀ d ∈ s, decide (d ≠ ',') = true := fun d hd => by
      rw [decide_eq_true_iff]
      rintro rfl
      exact hs hd
    have hitem : item s = s := List.takeWhile_eq_self_iff.2 hall
    rw [hitem]
    exact ⟨hs, .inl rfl⟩

theorem item_append_cons (x y : List Char) : item (x ++ ',' :: y) = item x :=
  takeWhile_append_cons (by decide) x y

end Keys

/-! ## Turns and items -/

section Turns

variable {s x y key : List Char} {c : ConfigurationOptions} {number : ℤ}
  {copy : Option (List Char)}

theorem comma_not_mem_knownKeys : ∀ k ∈ knownKeys, ',' ∉ k := by decide

/-- A known key is found in the item. -/
theorem prefix_item {k : List Char} (hk : k ∈ knownKeys) : k <+: key ↔ k <+: item key := by
  obtain ⟨-, he | ⟨r, he⟩⟩ := item_or key
  · rw [← he]
  · conv_lhs => rw [he]
    exact prefix_append_cons (comma_not_mem_knownKeys k hk)

theorem strstr_item {k : List Char} (hk : k ∈ knownKeys) :
    strstr key k = some key ↔ strstr (item key) k = some (item key) := by
  rw [strstr_eq_self, strstr_eq_self, prefix_item hk]

theorem assign_item (key : List Char) (number : ℤ) (copy : Option (List Char))
    (c : ConfigurationOptions) : assign key number copy c = assign (item key) number copy c := by
  have h : ∀ k ∈ knownKeys, (strstr key k = some key) = (strstr (item key) k = some (item key)) :=
    fun k hk => propext (strstr_item hk)
  simp only [knownKeys, List.forall_mem_cons] at h
  obtain ⟨h₁, h₂, h₃, h₄, h₅, h₆, h₇, h₈, -⟩ := h
  simp only [assign, h₁, h₂, h₃, h₄, h₅, h₆, h₇, h₈]

/-- What no known key begins with is ignored. -/
theorem assign_of_not_known (h : ¬ ∃ k ∈ knownKeys, k <+: key) : assign key number copy c = some c := by
  have hk : ∀ k ∈ knownKeys, ¬ strstr key k = some key := fun k hk he =>
    h ⟨k, hk, strstr_eq_self.1 he⟩
  simp only [knownKeys, List.forall_mem_cons] at hk
  obtain ⟨h₁, h₂, h₃, h₄, h₅, h₆, h₇, h₈, -⟩ := hk
  simp only [assign, h₁, h₂, h₃, h₄, h₅, h₆, h₇, h₈, if_false]

/-- A configuration without the number in any of its fields. -/
def other (number : ℤ) : ConfigurationOptions :=
  ⟨number + 1, number + 1, none, none, none, number = 0, number + 1⟩

/-- What a known key begins with is not ignored. -/
theorem assign_other_ne (h : ∃ k ∈ knownKeys, k <+: key) :
    assign key number copy (other number) ≠ some (other number) := by
  have hne : number ≠ number + 1 := by omega
  obtain ⟨k, hk, hp⟩ := h
  rw [← strstr_eq_self] at hp
  rw [assign]
  split_ifs with h₁ h₂ h₃ h₄ h₅ h₆ h₇ h₈
  · simp [other, hne]
  · simp [other, hne]
  · simp [other, hne]
  · cases copy <;> simp [other]
  · simp [other]
  · cases copy <;> simp [other]
  · cases copy <;> simp [other]
  · simp [other, hne]
  · -- One of the tests finds the key.
    simp only [knownKeys, List.mem_cons, List.not_mem_nil, or_false] at hk
    rcases hk with rfl | rfl | rfl | rfl | rfl | rfl | rfl | rfl
    exacts [absurd hp h₁, absurd hp h₂, absurd hp h₃, absurd hp h₄, absurd hp h₅,
      absurd hp h₆, absurd hp h₇, absurd hp h₈]

/-- An item with its own `=`: where the searches of its turn end. -/
theorem exists_value (h : '=' ∈ item key) : ∃ rest, (rest = [] ∨ ∃ r, rest = ',' :: r) ∧
    strchr key '=' = some ('=' :: valueOf (item key) ++ rest) ∧
    (rest = [] → strchr key ',' = none) ∧ (rest ≠ [] → strchr key ',' = some rest) := by
  obtain ⟨name, value, he, hname⟩ := List.eq_append_cons_of_mem h
  have hvalue : valueOf (item key) = value := by
    have hall : ∀ d ∈ name, decide (d ≠ '=') = true := fun d hd => by
      rw [decide_eq_true_iff]
      rintro rfl
      exact hname hd
    have hnil : name.dropWhile (· ≠ '=') = [] := List.dropWhile_eq_nil_iff.2 hall
    rw [valueOf, he, dropWhile_append_cons (by decide), hnil]
    rfl
  obtain ⟨hcomma, hkey | ⟨r, hkey⟩⟩ := item_or key
  · refine ⟨[], .inl rfl, ?_, fun _ => ?_, fun hne => absurd rfl hne⟩
    · rw [List.append_nil, hvalue]
      conv_lhs => rw [hkey, he]
      exact strchr_append_cons hname value
    · rw [hkey]
      exact strchr_eq_none hcomma
  · refine ⟨',' :: r, .inr ⟨r, rfl⟩, ?_, fun hnil => absurd hnil (by simp), fun _ => ?_⟩
    · conv_lhs => rw [hkey, he]
      rw [List.append_assoc, List.cons_append, strchr_append_cons hname, hvalue, List.cons_append]
    · conv_lhs => rw [hkey]
      exact strchr_append_cons hcomma r

/-- An item with its own `=` is treated on its own. -/
theorem turn_item (h : '=' ∈ item key) : turn c key = itemEffect c (item key) := by
  obtain ⟨rest, hrest, heq, hnil, hcons⟩ := exists_value h
  rw [turn, heq, itemEffect, if_pos h]
  dsimp only
  rw [assign_item key, List.cons_append, List.tail_cons]
  rcases hrest with rfl | ⟨r, rfl⟩
  · rw [hnil rfl, List.append_nil]
    rfl
  · rw [hcons (by simp), atoi_append (by decide) (by decide) (by decide) (by decide)]
    have hcopy : safe_copy_string (valueOf (item key) ++ ',' :: r) (some (',' :: r)) =
        some (valueOf (item key)) := by
      rw [safe_copy_string]
      simp
    rw [hcopy]

/-- A turn that finds no `=` changes nothing. -/
theorem turn_of_not_mem (h : '=' ∉ key) : turn c key = some c := by
  rw [turn, strchr_eq_none h]

theorem itemEffect_of_not_mem (h : '=' ∉ item key) : itemEffect c (item key) = some c := if_neg h

/-- In a list of options without stray items, every turn has the effect of its item. -/
theorem NoStray.turn (hs : NoStray s) (hkey : key ∈ keys s) :
    turn c key = itemEffect c (item key) := by
  by_cases h : '=' ∈ item key
  · exact turn_item h
  · rw [itemEffect_of_not_mem h]
    by_cases heq : '=' ∈ key
    · have hunknown : ¬ ∃ k ∈ knownKeys, k <+: key := fun hk => h (hs key hkey hk heq)
      rw [Agent.turn]
      split
      · rfl
      · exact assign_of_not_known hunknown
    · exact turn_of_not_mem heq

/-- The lists in a list of options have no stray items either. -/
theorem NoStray.left (hs : NoStray (x ++ ',' :: y)) : NoStray x := by
  intro key hkey hk heq
  have h := hs (key ++ ',' :: y)
    (by rw [keys_append_cons]; exact List.mem_append_left _ (List.mem_map_of_mem hkey))
    (hk.imp fun k hk => ⟨hk.1, hk.2.trans (List.prefix_append ..)⟩)
    (List.mem_append_left _ heq)
  rwa [item_append_cons] at h

theorem foldlM_turn_append (hs : NoStray (x ++ ',' :: y)) (l : List (List Char))
    (hl : ∀ key ∈ l, key ∈ keys x) (c : ConfigurationOptions) :
    (l.map (· ++ ',' :: y)).foldlM Agent.turn c = l.foldlM Agent.turn c := by
  induction l generalizing c with
  | nil => rfl
  | cons key l ih =>
    obtain ⟨hkey, hl⟩ := List.forall_mem_cons.1 hl
    have hmem : key ++ ',' :: y ∈ keys (x ++ ',' :: y) := by
      rw [keys_append_cons]
      exact List.mem_append_left _ (List.mem_map_of_mem hkey)
    have hturn : Agent.turn c (key ++ ',' :: y) = Agent.turn c key := by
      rw [hs.turn hmem, hs.left.turn hkey, item_append_cons]
    rw [List.map_cons, List.foldlM_cons, List.foldlM_cons, hturn]
    exact congrArg _ (funext fun c => ih hl c)

end Turns

/-- Every item of two lists of options is treated on its own exactly if no item without
    `=` begins with a known key and has a `=` after it. -/
theorem separate_iff (x y : List Char) : Separate x y ↔ NoStray (x ++ ',' :: y) := by
  constructor
  · rintro ⟨hitems, -, -⟩ key hkey hk heq
    by_contra hne
    obtain ⟨a, b, he, ha⟩ := List.eq_append_cons_of_mem heq
    have hstr : strchr key '=' = some ('=' :: b) := by rw [he, strchr_append_cons ha]
    have hturn := hitems key hkey (other (atoi b))
    rw [itemEffect_of_not_mem hne, turn, hstr] at hturn
    exact assign_other_ne hk hturn
  · refine fun hs => ⟨fun key hkey c => hs.turn hkey, fun c => ?_, ?_⟩
    · simp only [parseArguments_eq]
      rw [keys_append_cons, List.foldlM_append, foldlM_turn_append hs _ fun _ h => h]
      rfl
    · rintro key hkey ⟨k, hk, hp⟩ eq next heq hnext
      have hmem : ∀ k ∈ textKeys, k ∈ knownKeys := by decide
      have hchar : '=' ∈ key := by
        by_contra hne
        rw [strchr_eq_none hne] at heq
        cases heq
      obtain ⟨rest, hrest, heq', hnil, hcons⟩ :=
        exists_value (hs key hkey ⟨k, hmem k hk, hp⟩ hchar)
      rw [heq'] at heq
      cases heq
      by_cases hr : rest = []
      · rw [hnil hr] at hnext
        cases hnext
      · rw [hcons hr] at hnext
        cases hnext
        simp

/-- The flag `start` takes the value of the item after it; and a path without one is given
    a negative length. -/
theorem exists_stray :
    parseArguments (some ("start".toList ++ ',' :: "interval=5".toList))
        { ConfigurationOptions.new with start := false } ≠
      (parseArguments (some "start".toList) { ConfigurationOptions.new with start := false }).bind
        (parseArguments (some "interval=5".toList)) ∧
    parseArguments (some ("logPath".toList ++ ',' :: "interval=5".toList))
      ConfigurationOptions.new = none := by
  simp only [parseArguments_eq]
  decide

end FkProf.Agent
