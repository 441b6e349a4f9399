import FkProf.Agent
import FkProf.Profiler.Configure

/-!
# The controller

The controller (`controller.cpp:89-206`) takes commands as text: a name, and for `set` a
parameter and its value, which are read from a stream. A bound of the sampling interval
is set together with the other bound, as it is at the time.

* `extract`, `extractInt`: reading from the stream;
* `Controller.command`: a command;
* `bounds_iff`: two commands set both bounds, in either order, as the options of the agent
  do, exactly if neither new bound is beyond the other old one;
* `exists_lost_bound`: they do not in a profiler with the default options.
-/

namespace FkProf.Controller

open FkProf.Configure (State Op construct system Options)

/-! ## Reading commands -/

/-- `std::istringstream`: the characters that are left, if the stream is good. -/
abbrev Stream := Option (List Char)

/-- The stream after the characters were read up to the rest. -/
def Stream.rest (s : List Char) : Stream := if s = [] then none else some s

/-- `operator>>`, of a word: there is none if nothing is left. -/
def extract : Stream → List Char × Stream
  | none => ([], none)
  | some s =>
    let s := s.dropWhile isspace
    (s.takeWhile (!isspace ·), Stream.rest (s.dropWhile (!isspace ·)))

/-- The range of `int`. -/
def clamp (n : ℤ) : ℤ := max (-2 ^ 31) (min n (2 ^ 31 - 1))

/-- `operator>>`, of an `int`: a variable is left as it is if there is nothing to read, set
    to zero if there is no number, and to the nearest `int` if it is out of range. -/
def extractInt : Stream → Option ℤ × Stream
  | none => (none, none)
  | some s =>
    match s.dropWhile isspace with
    | [] => (none, none)
    | a :: s =>
      let t := if a = '-' ∨ a = '+' then s else a :: s
      if t.takeWhile Char.isDigit = [] then (some 0, none)
      else
        let n := atoi (a :: s)
        if clamp n = n then (some n, Stream.rest (t.dropWhile Char.isDigit)) else (some (clamp n), none)

/-- `setProfilerParam`. The numbers are uninitialised, and the allocator chooses the
    address of a path. -/
def setProfilerParam (σ : State) (paramDesc : List Char) (numericArg1 numericArg2 : ℤ)
    (address : ℕ) : Except Stuck State :=
  let (command, input) := extract (some paramDesc)
  if command = "logPath".toList then
    let (stringArg, _) := extract input
    σ.call (.setFilePath (some stringArg) address)
  else
    let (arg1, input) := extractInt input
    let numericArg1 := arg1.getD numericArg1
    if command = "intervalMin".toList then
      σ.call (.setSamplingInterval numericArg1 σ.liveConfiguration.samplingIntervalMax)
    else if command = "intervalMax".toList then
      σ.call (.setSamplingInterval σ.liveConfiguration.samplingIntervalMin numericArg1)
    else if command = "maxFrames".toList then σ.call (.setMaxFramesToCapture numericArg1)
    else if command = "interval".toList then
      let numericArg2 := (extractInt input).1.getD numericArg2
      σ.call (.setSamplingInterval numericArg1 numericArg2)
    else .ok σ

/-- What a command finds besides its text: whether there is a `JNIEnv`, the name that the
    clock gives to a file, the address that the allocator chooses, and what is in the
    uninitialised numbers. -/
structure Environment where
  hasEnv : Bool
  fileName : List Char
  address : ℕ
  numericArg1 : ℤ
  numericArg2 : ℤ

/-- A command, lines 89-103; status and get only answer. -/
def command (σ : State) (env : Environment) (buf : List Char) : Except Stuck State :=
  if strstr buf "start".toList = some buf then
    if env.hasEnv then σ.call (.start env.fileName env.address) else .ok σ
  else if strstr buf "stop".toList = some buf then σ.call .stop
  else if strstr buf "status".toList = some buf then .ok σ
  else if strstr buf "get ".toList = some buf then .ok σ
  else if strstr buf "set ".toList = some buf then
    setProfilerParam σ (buf.drop 4) env.numericArg1 env.numericArg2 env.address
  else .ok σ

/-! ## Setting the bounds -/

section Bounds

/-- The commands that set a bound. -/
def setMin (a : ℕ) : List Char :=
  "set ".toList ++ ("intervalMin".toList ++ ' ' :: Nat.toDigits 10 a)

def setMax (b : ℕ) : List Char :=
  "set ".toList ++ ("intervalMax".toList ++ ' ' :: Nat.toDigits 10 b)

/-- The options of the agent that set both. -/
def bothOptions (a b : ℕ) : List Char :=
  (Agent.intervalMin ++ '=' :: Nat.toDigits 10 a) ++ ',' ::
    (Agent.intervalMax ++ '=' :: Nat.toDigits 10 b)

/-- The commands leave these bounds behind. -/
def Leaves (σ : State) (first second : List Char) (a b : ℤ) : Prop :=
  ∀ env₁ env₂, ∃ σ', (command σ env₁ first >>= fun σ => command σ env₂ second) = .ok σ' ∧
    σ'.liveConfiguration.samplingIntervalMin = a ∧ σ'.liveConfiguration.samplingIntervalMax = b

/-- A profiler with the options has these bounds. -/
def Sets (options : List Char) (a b : ℤ) : Prop :=
  ∀ c, ∃ c', Agent.parseArguments (some options) c = some c' ∧
    ∀ (o : Options) (fileName : List Char) (address : ℕ),
      o.samplingIntervalMin = c'.samplingIntervalMin →
      o.samplingIntervalMax = c'.samplingIntervalMax →
      Ensures (construct o fileName address) fun σ =>
        σ.liveConfiguration.samplingIntervalMin = a ∧
        σ.liveConfiguration.samplingIntervalMax = b

/-- The bounds are set in either order, and by the options. -/
structure SetsBoth (σ : State) (a b : ℕ) : Prop where
  min_max : Leaves σ (setMin a) (setMax b) a b
  max_min : Leaves σ (setMax b) (setMin a) a b
  options : Sets (bothOptions a b) a b

variable {σ : State} {env : Environment} {w s : List Char} {n a b : ℕ}

/-- A word is read up to the space after it. -/
theorem extract_word (hne : w ≠ []) (hw : ∀ c ∈ w, isspace c = false) (s : List Char) :
    extract (some (w ++ ' ' :: s)) = (w, some (' ' :: s)) := by
  have hdrop : (w ++ ' ' :: s).dropWhile isspace = w ++ ' ' :: s := by
    obtain ⟨c, r, rfl⟩ := List.exists_cons_of_ne_nil hne
    exact List.dropWhile_cons_of_neg (by simp [hw c (by simp)])
  have htake : w.takeWhile (!isspace ·) = w :=
    List.takeWhile_eq_self_iff.2 fun c hc => by rw [hw c hc]; rfl
  have hrest : w.dropWhile (!isspace ·) = [] :=
    List.dropWhile_eq_nil_iff.2 fun c hc => by rw [hw c hc]; rfl
  rw [extract, hdrop, takeWhile_append_cons (by decide), dropWhile_append_cons (by decide), htake,
    hrest]
  rfl

/-- A numeral is read to the end. -/
theorem extractInt_toDigits (hn : n < 2 ^ 31) :
    extractInt (some (' ' :: Nat.toDigits 10 n)) = (some (n : ℤ), none) := by
  have hatoi := atoi_toDigits n
  have hall : ∀ c ∈ Nat.toDigits 10 n, c.isDigit = true := fun c hc =>
    Nat.isDigit_of_mem_toDigits (by decide) (by decide) hc
  rcases hd : Nat.toDigits 10 n with _ | ⟨c, s⟩
  · exact absurd hd Nat.toDigits_ne_nil
  · rw [hd] at hall hatoi
    obtain ⟨hs, hm, hp⟩ := not_isspace_of_isDigit (hall c (by simp))
    have hclamp : clamp n = n := by
      rw [clamp]
      omega
    have htake : (c :: s).takeWhile Char.isDigit = c :: s := List.takeWhile_eq_self_iff.2 hall
    have hrest : (c :: s).dropWhile Char.isDigit = [] := List.dropWhile_eq_nil_iff.2 hall
    rw [extractInt, List.dropWhile_cons_of_pos (by decide), List.dropWhile_cons_of_neg (by simp [hs])]
    dsimp only
    rw [if_neg (not_or.2 ⟨hm, hp⟩), htake, hrest, if_neg (List.cons_ne_nil c s), hatoi,
      if_pos hclamp]
    rfl

/-- A command that sets a parameter. -/
theorem command_set (t : List Char) : command σ env ("set ".toList ++ t) =
    setProfilerParam σ t env.numericArg1 env.numericArg2 env.address := by
  have hset : "set ".toList <+: "set ".toList ++ t := List.prefix_append ..
  have hdiffer : ∀ k ∈ ["start".toList, "stop".toList, "status".toList, "get ".toList],
      ¬ k.take 2 <+: "set ".toList := by decide
  have hno : ∀ k ∈ ["start".toList, "stop".toList, "status".toList, "get ".toList],
      ¬ k <+: "set ".toList ++ t := fun k hk hp => hdiffer k hk
    (List.prefix_of_prefix_length_le ((List.take_prefix 2 k).trans hp) hset (by simp))
  simp only [List.mem_cons, forall_eq_or_imp] at hno
  obtain ⟨h₁, h₂, h₃, h₄, -⟩ := hno
  simp only [command, strstr_eq_self, h₁, h₂, h₃, h₄, hset, if_true, if_false]
  rfl

/-- A parameter that is set to a number, as the live bounds are. -/
theorem setProfilerParam_interval (hn : n < 2 ^ 31) (hne : w ≠ [])
    (hw : ∀ c ∈ w, isspace c = false) (hlog : w ≠ "logPath".toList) :
    setProfilerParam σ (w ++ ' ' :: Nat.toDigits 10 n) env.numericArg1 env.numericArg2 env.address =
      if w = "intervalMin".toList then
        σ.call (.setSamplingInterval n σ.liveConfiguration.samplingIntervalMax)
      else if w = "intervalMax".toList then
        σ.call (.setSamplingInterval σ.liveConfiguration.samplingIntervalMin n)
      else if w = "maxFrames".toList then σ.call (.setMaxFramesToCapture n)
      else if w = "interval".toList then
        σ.call (.setSamplingInterval n env.numericArg2)
      else .ok σ := by
  rw [setProfilerParam, extract_word hne hw]
  dsimp only
  rw [if_neg hlog, extractInt_toDigits hn]
  rfl

/-- Not running, each command sets its bound together with the other old one. -/
theorem command_setMin (hr : σ.isRunning = false) (ha : a < 2 ^ 31) :
    command σ env (setMin a) =
      .ok (σ.setSamplingInterval a σ.liveConfiguration.samplingIntervalMax) := by
  rw [setMin, command_set, setProfilerParam_interval ha (by simp) (by simp [isspace]) (by simp),
    if_pos rfl, State.call, hr]
  rfl

theorem command_setMax (hr : σ.isRunning = false) (hb : b < 2 ^ 31) :
    command σ env (setMax b) =
      .ok (σ.setSamplingInterval σ.liveConfiguration.samplingIntervalMin b) := by
  rw [setMax, command_set, setProfilerParam_interval hb (by simp) (by simp [isspace]) (by simp),
    if_neg (by simp), if_pos rfl, State.call, hr]
  rfl

/-- Bounds in order are stored as they are. -/
theorem setSamplingInterval_live {x y : ℤ} (hx : 0 < x) (hy : 0 < y) :
    (σ.setSamplingInterval x y).liveConfiguration.samplingIntervalMin = min x y ∧
      (σ.setSamplingInterval x y).liveConfiguration.samplingIntervalMax = max x y := by
  have he : ∀ z : ℤ, 0 < z → Processor.intervalOrDefault z = z := fun z hz => if_pos hz
  simp only [State.setSamplingInterval, Processor.setSamplingInterval, he x hx, he y hy, and_self]

/-- What two commands leave behind. -/
theorem leaves_iff {x y : ℤ} {first second : List Char} {σ₁ σ₂ : State}
    (h₁ : ∀ env, command σ env first = .ok σ₁) (h₂ : ∀ env, command σ₁ env second = .ok σ₂) :
    Leaves σ first second x y ↔ σ₂.liveConfiguration.samplingIntervalMin = x ∧
      σ₂.liveConfiguration.samplingIntervalMax = y := by
  have hboth : ∀ env₁ env₂, (command σ env₁ first >>= fun σ => command σ env₂ second) = .ok σ₂ :=
    fun env₁ env₂ => by
      rw [h₁ env₁]
      exact h₂ env₂
  constructor
  · intro h
    obtain ⟨σ', he, hxy⟩ := h ⟨true, [], 0, 0, 0⟩ ⟨true, [], 0, 0, 0⟩
    rw [hboth] at he
    cases he
    exact hxy
  · exact fun hxy env₁ env₂ => ⟨σ₂, hboth env₁ env₂, hxy⟩

/-- The lower bound first: it is set if it is not above the old upper bound. -/
theorem min_max_iff (hr : σ.isRunning = false) (ho : σ.liveConfiguration.Ordered) (ha : 0 < a)
    (hab : a ≤ b) (hb : b < 2 ^ 31) :
    Leaves σ (setMin a) (setMax b) a b ↔ (a : ℤ) ≤ σ.liveConfiguration.samplingIntervalMax := by
  obtain ⟨hp, hpq⟩ := ho
  have h₁ := setSamplingInterval_live (σ := σ) (x := a)
    (y := σ.liveConfiguration.samplingIntervalMax) (by omega) (by omega)
  have hpos : 0 < min (a : ℤ) σ.liveConfiguration.samplingIntervalMax := by omega
  rw [leaves_iff (fun env => command_setMin hr (by omega))
    (fun env => command_setMax (σ := σ.setSamplingInterval a _) hr hb)]
  obtain ⟨h₂, h₂'⟩ := setSamplingInterval_live
    (σ := σ.setSamplingInterval a σ.liveConfiguration.samplingIntervalMax)
    (x := (σ.setSamplingInterval a _).liveConfiguration.samplingIntervalMin) (y := b)
    (h₁.1 ▸ hpos) (by omega)
  rw [h₂, h₂', h₁.1]
  omega

/-- The upper bound first: it is set if it is not below the old lower bound. -/
theorem max_min_iff (hr : σ.isRunning = false) (ho : σ.liveConfiguration.Ordered) (ha : 0 < a)
    (hab : a ≤ b) (hb : b < 2 ^ 31) :
    Leaves σ (setMax b) (setMin a) a b ↔ σ.liveConfiguration.samplingIntervalMin ≤ (b : ℤ) := by
  obtain ⟨hp, hpq⟩ := ho
  have h₁ := setSamplingInterval_live (σ := σ) (x := σ.liveConfiguration.samplingIntervalMin)
    (y := b) hp (by omega)
  have hpos : 0 < max σ.liveConfiguration.samplingIntervalMin (b : ℤ) := by omega
  rw [leaves_iff (fun env => command_setMax hr hb)
    (fun env => command_setMin (σ := σ.setSamplingInterval _ b) hr (by omega))]
  obtain ⟨h₂, h₂'⟩ := setSamplingInterval_live
    (σ := σ.setSamplingInterval σ.liveConfiguration.samplingIntervalMin b) (x := a)
    (y := (σ.setSamplingInterval _ b).liveConfiguration.samplingIntervalMax) (by omega)
    (h₁.2 ▸ hpos)
  rw [h₂, h₂', h₁.2]
  omega

/-- An option that sets a number. -/
theorem itemEffect_number (hne : '=' ∉ w) (c : Agent.ConfigurationOptions) (n : ℕ) :
    Agent.itemEffect c (w ++ '=' :: Nat.toDigits 10 n) =
      Agent.assign (w ++ '=' :: Nat.toDigits 10 n) n (some (Nat.toDigits 10 n)) c := by
  have hall : ∀ d ∈ w, decide (d ≠ '=') = true := fun d hd => by
    rw [decide_eq_true_iff]
    rintro rfl
    exact hne hd
  have hnil : w.dropWhile (· ≠ '=') = [] := List.dropWhile_eq_nil_iff.2 hall
  have hvalue : Agent.valueOf (w ++ '=' :: Nat.toDigits 10 n) = Nat.toDigits 10 n := by
    rw [Agent.valueOf, dropWhile_append_cons (by decide), hnil]
    rfl
  rw [Agent.itemEffect, if_pos (by simp), hvalue, atoi_toDigits]

/-- An option that sets a number is an item. -/
theorem item_number (hw : ',' ∉ w) (n : ℕ) : ',' ∉ w ++ '=' :: Nat.toDigits 10 n := by
  have hdigits : ',' ∉ Nat.toDigits 10 n := fun hc =>
    absurd (Nat.isDigit_of_mem_toDigits (by decide) (by decide) hc) (by decide)
  simp [hw, hdigits]

/-- A turn for an option that sets a number, at the end of the options or before others. -/
theorem turn_number (hne : '=' ∉ w) (n : ℕ) (c : Agent.ConfigurationOptions)
    {key : List Char} (hkey : Agent.item key = w ++ '=' :: Nat.toDigits 10 n) :
    Agent.turn c key =
      Agent.assign (w ++ '=' :: Nat.toDigits 10 n) n (some (Nat.toDigits 10 n)) c := by
  rw [Agent.turn_item (by rw [hkey]; simp), hkey, itemEffect_number hne]

theorem item_eq_self (hs : ',' ∉ s) : Agent.item s = s :=
  List.takeWhile_eq_self_iff.2 fun d hd => by
    rw [decide_eq_true_iff]
    rintro rfl
    exact hs hd

/-- The options are two items. -/
theorem parse_bothOptions (a b : ℕ) (c : Agent.ConfigurationOptions) :
    Agent.parseArguments (some (bothOptions a b)) c =
      some { c with samplingIntervalMin := a, samplingIntervalMax := b } := by
  have hx := item_number (w := Agent.intervalMin) (by decide) a
  have hy := item_number (w := Agent.intervalMax) (by decide) b
  have h₁ : Agent.assign (Agent.intervalMin ++ '=' :: Nat.toDigits 10 a) a
      (some (Nat.toDigits 10 a)) c = some { c with samplingIntervalMin := a } := by
    rw [Agent.assign, if_pos (strstr_eq_self.2 (List.prefix_append ..))]
  have h₂ : ∀ c, Agent.assign (Agent.intervalMax ++ '=' :: Nat.toDigits 10 b) b
      (some (Nat.toDigits 10 b)) c = some { c with samplingIntervalMax := b } := fun c => by
    rw [Agent.assign, if_neg, if_pos (strstr_eq_self.2 (List.prefix_append ..))]
    rw [strstr_append_iff (by decide)]
    decide
  rw [bothOptions, Agent.parseArguments_eq, Agent.keys_append_cons, Agent.keys,
    Agent.afterCommas_eq_nil hx, Agent.keys, Agent.afterCommas_eq_nil hy, List.map_singleton,
    List.singleton_append, List.foldlM_cons,
    turn_number (by decide) a c ((Agent.item_append_cons ..).trans (item_eq_self hx)),
    h₁, Option.bind_eq_bind, Option.bind_some, List.foldlM_cons,
    turn_number (by decide) b _ (item_eq_self hy), h₂]
  rfl

/-- The options set the bounds. -/
theorem sets_bothOptions (ha : 0 < a) (hab : a ≤ b) : Sets (bothOptions a b) a b := by
  intro c
  refine ⟨_, parse_bothOptions a b c, fun o fileName address hmin hmax => ?_⟩
  refine (Configure.construct_ensures o).mono fun σ ⟨_, _, hσmin, hσmax⟩ => ?_
  have he : ∀ z : ℤ, 0 < z → Processor.intervalOrDefault z = z := fun z hz => if_pos hz
  rw [hσmin, hσmax, hmin, hmax]
  simp only [Processor.setSamplingInterval, he a (by omega), he b (by omega)]
  omega

/-- In every profiler that does not run, after any calls, two commands set both bounds of
    the sampling interval, in either order, as the options do, if and only if the new lower
    bound is not above the old upper one, nor the new upper bound below the old lower one. -/
theorem bounds_iff {o : Options} {fileName : List Char} {address : ℕ} {σ₀ σ : State}
    {tr : List (State × Op)} (h₀ : construct o fileName address = .ok σ₀)
    (hrun : system.Run System.anyStep σ₀ tr σ) (hr : σ.isRunning = false) (ha : 0 < a)
    (hab : a ≤ b) (hb : b < 2 ^ 31) :
    SetsBoth σ a b ↔ (a : ℤ) ≤ σ.liveConfiguration.samplingIntervalMax ∧
      σ.liveConfiguration.samplingIntervalMin ≤ (b : ℤ) := by
  have hσ := Configure.coherent_of_run ((Configure.construct_ensures o).of_eq h₀).1 hrun
  rw [← min_max_iff hr hσ.ordered ha hab hb, ← max_min_iff hr hσ.ordered ha hab hb]
  exact ⟨fun h => ⟨h.min_max, h.max_min⟩, fun h => ⟨h.1, h.2, sets_bothOptions ha hab⟩⟩

/-- Options with the defaults. -/
def defaults : Options := ⟨1, 1, none, 128⟩

theorem exists_profiler : ∃ σ₀, construct defaults [] 0 = .ok σ₀ ∧ σ₀.isRunning = false ∧
    σ₀.liveConfiguration.samplingIntervalMin = 1 ∧
    σ₀.liveConfiguration.samplingIntervalMax = 1 :=
  ⟨_, rfl, rfl, rfl, rfl⟩

theorem bounds_iff_defaults : ∃ σ₀, construct defaults [] 0 = .ok σ₀ ∧ SetsBoth σ₀ 1 10 := by
  obtain ⟨σ₀, h₀, hr, hmin, hmax⟩ := exists_profiler
  refine ⟨σ₀, h₀, (bounds_iff h₀ .refl hr (by decide) (by decide) (by decide)).2 ?_⟩
  rw [hmin, hmax]
  decide

/-- In a profiler with the default options, the commands for the bounds 5 and 10 do not set
    the lower one. -/
theorem exists_lost_bound : ∃ σ₀, construct defaults [] 0 = .ok σ₀ ∧
    ¬ Leaves σ₀ (setMin 5) (setMax 10) 5 10 := by
  obtain ⟨σ₀, h₀, hr, hmin, hmax⟩ := exists_profiler
  refine ⟨σ₀, h₀, fun h => ?_⟩
  have hle := (min_max_iff hr (by rw [Configure.ConfigurationOptions.Ordered, hmin, hmax]; decide)
    (by decide) (by decide) (by decide)).1 h
  rw [hmax] at hle
  exact absurd hle (by decide)

end Bounds

end FkProf.Controller
