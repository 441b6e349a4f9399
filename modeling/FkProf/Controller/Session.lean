import FkProf.Controller.Requests
import FkProf.Profiler.Settings

/-!
# Sessions with the controller

A client connects, sends a request, gets an answer to some of them, and is disconnected
(`controller.cpp:82-177`); then comes the next one. The answers are written from the live
configuration, into a buffer of a size for status, and what a client has sent may be any text.
Here nobody but the controller calls the profiler.

* `answer`: what the controller answers;
* `session`: one client after another;
* `Settings.serve`: the same, for the settings;
* `session_shows`: clients get the answers that the settings give, and a profiler that runs is
  built from what they are told.
-/

namespace FkProf.Controller

open FkProf.Configure (State Settings Options Shows Coherent Built construct)

/-! ## The code -/

section Code

/-- `snprintf`, of a text into a buffer of the size. -/
def snprintf (bufSize : ℕ) (s : List Char) : List Char := s.take (bufSize - 1)

/-- `reportStatus`. -/
def reportStatus (σ : State) : Except Stuck (List Char) := do
  let samplingIsRunning := σ.isRunning
  let filePath ← σ.getFilePath
  let bufSize := filePath.length + 10
  .ok (snprintf bufSize
    ((if samplingIsRunning then "started".toList else "stopped".toList) ++ ',' :: filePath ++ ['\n']))

/-- `getProfilerParam`. -/
def getProfilerParam (σ : State) (param : List Char) : Except Stuck (Option (List Char)) :=
  if strstr param "intervalMin".toList = some param then
    .ok (some (decimal σ.liveConfiguration.samplingIntervalMin ++ ['\n']))
  else if strstr param "intervalMax".toList = some param then
    .ok (some (decimal σ.liveConfiguration.samplingIntervalMax ++ ['\n']))
  else if strstr param "interval".toList = some param then
    .ok (some (decimal σ.liveConfiguration.samplingIntervalMin ++
      ' ' :: decimal σ.liveConfiguration.samplingIntervalMax ++ ['\n']))
  else if strstr param "maxFrames".toList = some param then
    .ok (some (decimal σ.liveConfiguration.maxFramesToCapture ++ ['\n']))
  else if strstr param "logPath".toList = some param then do
    let filePath ← σ.getFilePath
    .ok (some (filePath ++ ['\n']))
  else .ok none

/-- What is sent back for a command. -/
def answer (σ : State) (buf : List Char) : Except Stuck (Option (List Char)) :=
  if strstr buf "start".toList = some buf then .ok none
  else if strstr buf "stop".toList = some buf then .ok none
  else if strstr buf "status".toList = some buf then do
    let status ← reportStatus σ
    .ok (some status)
  else if strstr buf "get ".toList = some buf then getProfilerParam σ (buf.drop 4)
  else .ok none

/-- One client after another: what each has sent, and what it finds. -/
def session (σ : State) :
    List (Environment × List Char) → Except Stuck (State × List (Option (List Char)))
  | [] => .ok (σ, [])
  | (env, sent) :: clients => do
    let buf := received sent
    let reply ← answer σ buf
    let σ ← command σ env buf
    let (σ, replies) ← session σ clients
    .ok (σ, reply :: replies)

end Code

/-! ## The settings -/

/-- The answer to a request. -/
def Request.reply (s : Settings) : Request → Option (List Char)
  | .status => some ((if s.running then "started".toList else "stopped".toList) ++
      ',' :: s.logFilePath.getD [] ++ ['\n'])
  | .get .intervalMin => some (decimal s.interval.min ++ ['\n'])
  | .get .intervalMax => some (decimal s.interval.max ++ ['\n'])
  | .get .interval => some (decimal s.interval.min ++ ' ' :: decimal s.interval.max ++ ['\n'])
  | .get .maxFrames => some (decimal s.maxFrames.frames ++ ['\n'])
  | .get .logPath => some (s.logFilePath.getD [] ++ ['\n'])
  | _ => none

/-- What a request does to the settings. -/
def Request.serve (s : Settings) (env : Environment) : Request → Settings
  | .start => if env.hasEnv then s.call (.start env.fileName env.address) else s
  | .stop => s.call .stop
  | .setLogPath stringArg => s.call (.setFilePath (some stringArg) env.address)
  | .setIntervalMin n => s.call (.setSamplingInterval n s.interval.max)
  | .setIntervalMax n => s.call (.setSamplingInterval s.interval.min n)
  | .setMaxFrames n => s.call (.setMaxFramesToCapture n)
  | .setInterval m n => s.call (.setSamplingInterval m n)
  | .status | .get _ | .unknown => s

/-- One request after another. -/
def serve (s : Settings) : List (Environment × Request) → Settings × List (Option (List Char))
  | [] => (s, [])
  | (env, r) :: clients =>
    let (s', replies) := serve (r.serve s env) clients
    (s', r.reply s :: replies)

/-- What the clients want, as the controller reads it. -/
def requests (clients : List (Environment × List Char)) : List (Environment × Request) :=
  clients.map fun c => (c.1, parse c.1 (received c.2))

/-! ## A request -/

section Requests

variable {σ : State} {s : Settings} {env : Environment} {buf : List Char}

theorem getFilePath_ensures (hc : Coherent σ) (hs : Shows σ s) :
    Ensures σ.getFilePath (· = s.logFilePath.getD []) := by
  rw [Configure.State.getFilePath, ← hs.name, Configure.State.name]
  cases hlive : σ.liveConfiguration.logFilePath with
  | none => exact rfl
  | some path =>
    obtain ⟨name, hname⟩ := hc.owned.livePath path hlive
    refine Ensures.get hname ?_
    rw [Option.bind_some, hname]
    rfl

/-- The buffer has room for the whole answer. -/
theorem reportStatus_ensures (hc : Coherent σ) (hs : Shows σ s) :
    Ensures (reportStatus σ) fun reply => Request.reply s .status = some reply := by
  refine (getFilePath_ensures hc hs).bind ?_
  rintro _ rfl
  refine Ensures.pure (congrArg some ?_)
  rw [hs.running, snprintf]
  refine (List.take_of_length_le ?_).symm
  cases s.running <;> simp

theorem getProfilerParam_ensures (hc : Coherent σ) (hs : Shows σ s) (param : List Char) :
    Ensures (getProfilerParam σ param)
      (· = (((parseParam param).map Request.get).getD .unknown).reply s) := by
  rw [getProfilerParam, parseParam, hs.min, hs.max, hs.maxFrames]
  split_ifs
  · exact Ensures.pure rfl
  · exact Ensures.pure rfl
  · exact Ensures.pure rfl
  · exact Ensures.pure rfl
  · refine (getFilePath_ensures hc hs).bind ?_
    rintro _ rfl
    exact Ensures.pure rfl
  · exact Ensures.pure rfl

/-- Nothing is answered to a request for set. -/
theorem reply_parseSet (paramDesc : List Char) (m n : ℤ) :
    (parseSet paramDesc m n).reply s = none := by
  rw [parseSet]
  dsimp only
  split_ifs <;> rfl

theorem answer_ensures (env : Environment) (hc : Coherent σ) (hs : Shows σ s) :
    Ensures (answer σ buf) (· = (parse env buf).reply s) := by
  rw [answer, parse]
  split_ifs
  · exact Ensures.pure rfl
  · exact Ensures.pure rfl
  · exact (reportStatus_ensures hc hs).bind fun reply hr => Ensures.pure hr.symm
  · exact getProfilerParam_ensures hc hs _
  · exact Ensures.pure (reply_parseSet _ _ _).symm
  · exact Ensures.pure rfl

/-- A call of the profiler, for the settings. -/
theorem call_ensures (hc : Coherent σ) (hs : Shows σ s) (op : Configure.Op) :
    Ensures (σ.call op) fun σ' => Coherent σ' ∧ Shows σ' (s.call op) :=
  (hc.call op).and_of_ok fun _ he => hs.call hc he

/-- A bound of the interval is set together with the other one, as the settings have it. -/
theorem setProfilerParam_ensures (hc : Coherent σ) (hs : Shows σ s) (paramDesc : List Char) :
    Ensures (setProfilerParam σ paramDesc env.numericArg1 env.numericArg2 env.address) fun σ' =>
      Coherent σ' ∧ Shows σ'
        ((parseSet paramDesc env.numericArg1 env.numericArg2).serve s env) := by
  rw [setProfilerParam, parseSet, hs.min, hs.max]
  dsimp only
  split_ifs
  · exact call_ensures hc hs _
  · exact call_ensures hc hs _
  · exact call_ensures hc hs _
  · exact call_ensures hc hs _
  · exact call_ensures hc hs _
  · exact Ensures.pure ⟨hc, hs⟩

theorem command_ensures (hc : Coherent σ) (hs : Shows σ s) :
    Ensures (command σ env buf) fun σ' => Coherent σ' ∧ Shows σ' ((parse env buf).serve s env) := by
  have hsame : Ensures (.ok σ) fun σ' => Coherent σ' ∧ Shows σ' s := Ensures.pure ⟨hc, hs⟩
  rw [command, parse]
  split_ifs with h₁ h₂ h₃ h₄ h₅ h₆
  · rw [Request.serve, if_pos ‹_›]
    exact call_ensures hc hs _
  · rw [Request.serve, if_neg ‹_›]
    exact hsame
  · exact call_ensures hc hs _
  · exact hsame
  · cases parseParam (buf.drop 4) <;> exact hsame
  · exact setProfilerParam_ensures hc hs _
  · exact hsame

end Requests

/-! ## A session -/

section Sessions

variable {σ : State} {s : Settings}

theorem session_ensures (clients : List (Environment × List Char)) (hc : Coherent σ)
    (hs : Shows σ s) : Ensures (session σ clients) fun x =>
      Coherent x.1 ∧ Shows x.1 (serve s (requests clients)).1 ∧
        x.2 = (serve s (requests clients)).2 := by
  induction clients generalizing σ s with
  | nil => exact Ensures.pure ⟨hc, hs, rfl⟩
  | cons client clients ih =>
    obtain ⟨env, sent⟩ := client
    refine (answer_ensures env hc hs).bind ?_
    rintro _ rfl
    refine (@command_ensures σ s env (received sent) hc hs).bind ?_
    rintro σ' ⟨hc', hs'⟩
    refine (ih hc' hs').bind ?_
    rintro ⟨σ'', replies⟩ ⟨hc'', hs'', hr⟩
    exact Ensures.pure ⟨hc'', hs'', congrArg _ hr⟩

/-- Whatever the options of the profiler, and whatever the clients send: nothing invalid is done,
    each client gets the answer that the settings give, and if the profiler runs at the end,
    its log, its queue, its signal handler and its processor are built from the settings. -/
theorem session_shows (o : Options) (fileName : List Char) (address : ℕ)
    (clients : List (Environment × List Char)) :
    Ensures (construct o fileName address >>= fun σ => session σ clients) fun x =>
      x.2 = (serve (o.settings fileName) (requests clients)).2 ∧
        ((serve (o.settings fileName) (requests clients)).1.running = true →
          Built x.1 (serve (o.settings fileName) (requests clients)).1) := by
  refine ((Configure.construct_ensures o).and_of_ok fun σ he =>
    Configure.construct_shows he).bind ?_
  rintro σ ⟨⟨hc, -⟩, hs⟩
  exact (session_ensures clients hc hs).mono fun _ h => ⟨h.2.2, h.2.1.built h.1⟩

/-- Five clients, one of them too late to set anything. -/
example : ((construct ⟨1, 1, none, 128⟩ "log".toList 0 >>= fun σ => session σ
    (["set maxFrames 64", "start", "set maxFrames 5", "get maxFrames", "status"].map fun sent =>
      (⟨true, [], 1, 0, 0⟩, sent.toList))).toOption.map Prod.snd) =
    some [none, none, none, some "64\n".toList, some "started,log\n".toList] := by
  decide

end Sessions

end FkProf.Controller
