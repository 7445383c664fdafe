import Obase.Dict
import Mathlib.Data.List.Infix

namespace Obase.HarnessAdapter
set_option autoImplicit true

inductive RunStatus where
  | running
  | completed
  | failed
  | timeout
  | cancelled
deriving DecidableEq

inductive ErrorKind where
  | unavailable
  | authentication
  | rateLimited
  | process
  | timeout
  | cancelled
  | resumeRejected
deriving DecidableEq

/-- The keyword arguments of a call. -/
structure Kwargs (κ : Type) where
  session : Option String
  rest : κ

/-- What a class derived from `BaseCLIHarnessAdapter` defines, `none` where a method raises, with
the `str.lower` of the interpreter. -/
structure Adapter (κ υ : Type) where
  buildRunArgv : String → Kwargs κ → Option (List String)
  buildResumeArgv : String → String → Kwargs κ → Option (List String)
  parseOutput : String → String → Int → Option (String × υ × Option String)
  extractSession : String → String → Option (Option String)
  noUsage : υ
  lower : String → String

/-- `_TrackedRun`, its process by its return code once it has one. -/
structure TrackedRun where
  proc : Option (Option Int)
  harnessSession : Option String
  status : RunStatus

structure HarnessRunResult (υ : Type) where
  runId : String
  status : RunStatus
  output : String
  usage : υ
  error : Option String
  errorKind : Option ErrorKind
  sessionId : Option String
  parentRunId : Option String

/-- The run that a call of `resume` goes on with, and the session that it has found. -/
structure Origin where
  parent : String
  session : String
deriving DecidableEq

/-- Where a call waits, or how it has ended. A call of `resume` that finds no session is rejected
without a run of its own. -/
inductive Call (υ : Type) where
  | spawning (id : String) (origin : Option Origin) (argv : List String)
  | communicating (id : String) (origin : Option Origin)
  | returned (r : HarnessRunResult υ)
  | rejected (r : HarnessRunResult υ)
  | raised
  | cancelling (id : String)
  | cancelled (id : String) (ok : Bool)
  | probing (id : String) (known : Bool)
  | reported (id : String) (status : Option RunStatus)

/-- How `create_subprocess_exec` fails. -/
inductive SpawnFailure where
  | fileNotFound (text : String)
  | other

/-- How `wait_for(proc.wait(), timeout=10)` ends, with the `kill` that follows a time-out. -/
inductive Waited where
  | exited
  | killed
  | lookupError

def authPatterns : List String :=
  ["oauth", "unauthorized", "unauthenticated", "401", "authentication"]

def rateLimitPatterns : List String :=
  ["rate limit", "rate_limit", "429", "too many requests", "usage limit"]

def mentions (text : String) (patterns : List String) : Bool :=
  patterns.any fun marker => decide (marker.toList <:+: text.toList)

/-- `classify_process_error`. -/
def classifyProcessError (lower : String → String) (stderr : String) : ErrorKind :=
  if mentions (lower stderr) authPatterns then .authentication
  else if mentions (lower stderr) rateLimitPatterns then .rateLimited
  else .process

/-- A text that `or` takes. -/
def truthy (s : Option String) : Option String := s.filter fun s => s ≠ ""

/-- The adapter with its runs, and its calls in the order of their start. -/
structure World (υ : Type) where
  runs : Dict String TrackedRun
  calls : List (Call υ)

inductive Event (κ : Type) where
  | run (id : String) (prompt : String) (kwargs : Kwargs κ)
  | resume (id : String) (runId : String) (prompt : String) (kwargs : Kwargs κ)
  | created (k : Nat) (r : Except SpawnFailure Unit)
  | exited (id : String) (returncode : Int)
  | communicated (k : Nat) (stdout stderr : String)
  | timedOut (k : Nat)
  | interrupted (k : Nat)
  | cancel (runId : String) (signalled : Bool)
  | waited (k : Nat) (how : Waited)
  | status (runId : String)
  | probed (k : Nat)

namespace World

def init : World υ := ⟨[], []⟩

def begin (w : World υ) (c : Call υ) : World υ := { w with calls := w.calls ++ [c] }

def goOn (w : World υ) (k : Nat) (c : Call υ) : World υ := { w with calls := w.calls.set k c }

/-- A change of a tracked run. -/
def track (w : World υ) (id : String) (f : TrackedRun → TrackedRun) : World υ :=
  match w.runs.lookup id with
  | none => w
  | some t => { w with runs := Dict.set id (f t) w.runs }

/-- `_spawn`, up to where it waits for the process to start. -/
def spawn (w : World υ) (id : String) (origin : Option Origin) : Option (List String) → World υ
  | none => w.begin .raised
  | some argv =>
    World.begin { w with runs := Dict.set id ⟨none, none, .running⟩ w.runs }
      (.spawning id origin argv)

def run (A : Adapter κ υ) (w : World υ) (id prompt : String) (kwargs : Kwargs κ) : World υ :=
  if prompt = "" then w.begin .raised else w.spawn id none (A.buildRunArgv prompt kwargs)

/-- The session that `resume` goes on with. -/
def sessionFor (w : World υ) (runId : String) (session : Option String) : Option String :=
  (truthy session).or (truthy ((w.runs.lookup runId).bind fun tracked => tracked.harnessSession))

def resume (A : Adapter κ υ) (w : World υ) (id runId prompt : String) (kwargs : Kwargs κ) :
    World υ :=
  match w.sessionFor runId kwargs.session with
  | none =>
    w.begin (.rejected
      { runId := runId
        status := .failed
        output := ""
        usage := A.noUsage
        error := some "no harness session recorded for resume"
        errorKind := some .resumeRejected
        sessionId := none
        parentRunId := some runId })
  | some session =>
    w.spawn id (some ⟨runId, session⟩) (A.buildResumeArgv session prompt kwargs)

/-- `replace(result, parent_run_id=run_id, session_id=session)`, of a call of `resume`. -/
def stamp (r : HarnessRunResult υ) : Option Origin → HarnessRunResult υ
  | none => r
  | some o => { r with parentRunId := some o.parent, sessionId := some o.session }

/-- A call of `_spawn` writes a status and returns it with a result. -/
def finish (w : World υ) (k : Nat) (origin : Option Origin) (session : Option String)
    (r : HarnessRunResult υ) : World υ :=
  (w.track r.runId fun t => { t with status := r.status, harnessSession := session }).goOn k
    (.returned (stamp r origin))

/-- A result of `_spawn` that is not read off the output of the process. -/
def ended (A : Adapter κ υ) (id : String) (status : RunStatus) (error : String) (kind : ErrorKind)
    (session : Option String) : HarnessRunResult υ :=
  { runId := id
    status := status
    output := ""
    usage := A.noUsage
    error := some error
    errorKind := some kind
    sessionId := session
    parentRunId := none }

def created (A : Adapter κ υ) (w : World υ) (k : Nat) (id : String) (origin : Option Origin) :
    Except SpawnFailure Unit → World υ
  | .ok () => (w.track id fun t => { t with proc := some none }).goOn k (.communicating id origin)
  | .error (.fileNotFound text) =>
    w.finish k origin ((w.runs.lookup id).bind fun t => t.harnessSession)
      (ended A id .failed text .unavailable none)
  | .error .other => w.goOn k .raised

/-- `_spawn` after `communicate`. -/
def communicated (A : Adapter κ υ) (w : World υ) (k : Nat) (id : String) (origin : Option Origin)
    (t : TrackedRun) (returncode : Int) (stdout stderr : String) : World υ :=
  if t.status = .cancelled then
    w.finish k origin t.harnessSession
      (ended A id .cancelled "cancelled" .cancelled t.harnessSession)
  else
    match A.parseOutput stdout stderr returncode with
    | none => w.goOn k .raised
    | some (output, usage, error) =>
      let status := if error.isNone then .completed else .failed
      match A.extractSession stdout stderr with
      | none => (w.track id fun t => { t with status := status }).goOn k .raised
      | some session =>
        let session := (truthy session).or t.harnessSession
        w.finish k origin session
          { runId := id
            status := status
            output := output
            usage := usage
            error := error
            errorKind := error.map fun _ => classifyProcessError A.lower stderr
            sessionId := session
            parentRunId := none }

/-- `cancel`, up to where it waits for the process; `signalled` says that the process could be
signalled. -/
def cancel (w : World υ) (runId : String) (signalled : Bool) : World υ :=
  match (w.runs.lookup runId).bind fun t => t.proc with
  | none => w.begin (.cancelled runId false)
  | some (some _) => w.begin (.cancelled runId false)
  | some none =>
    if signalled then w.begin (.cancelling runId) else w.begin (.cancelled runId false)

/-- `cancel` after it has waited. -/
def waited (w : World υ) (k : Nat) (id : String) : Waited → World υ
  | .lookupError => w.goOn k (.cancelled id false)
  | _ => (w.track id fun t => { t with status := .cancelled }).goOn k (.cancelled id true)

/-- The process of a run has ended. -/
def hasExited (w : World υ) (id : String) : Bool :=
  ((w.runs.lookup id).bind fun t => t.proc).any fun code => code.isSome

/-- What happens next: a call starts with a fresh run id, or goes on where it waits, or a process
exits. -/
def step (A : Adapter κ υ) (w : World υ) : Event κ → Option (World υ)
  | .run id prompt kwargs =>
    if id ∈ Dict.keys w.runs then none else some (w.run A id prompt kwargs)
  | .resume id runId prompt kwargs =>
    if id ∈ Dict.keys w.runs then none else some (w.resume A id runId prompt kwargs)
  | .created k r =>
    match w.calls[k]? with
    | some (.spawning id origin _) => some (w.created A k id origin r)
    | _ => none
  | .exited id returncode =>
    match (w.runs.lookup id).bind fun t => t.proc with
    | some none => some (w.track id fun t => { t with proc := some (some returncode) })
    | _ => none
  | .communicated k stdout stderr =>
    match w.calls[k]? with
    | some (.communicating id origin) =>
      match w.runs.lookup id with
      | some t =>
        match t.proc with
        | some (some returncode) => some (w.communicated A k id origin t returncode stdout stderr)
        | _ => none
      | none => none
    | _ => none
  | .timedOut k =>
    match w.calls[k]? with
    | some (.communicating id origin) =>
      some (w.finish k origin ((w.runs.lookup id).bind fun t => t.harnessSession)
        (ended A id .timeout "timeout" .timeout none))
    | _ => none
  | .interrupted k =>
    match w.calls[k]? with
    | some (.spawning _ _ _) => some (w.goOn k .raised)
    | some (.communicating _ _) => some (w.goOn k .raised)
    | some (.cancelling _) => some (w.goOn k .raised)
    | some (.probing _ _) => some (w.goOn k .raised)
    | _ => none
  | .cancel runId signalled => some (w.cancel runId signalled)
  | .waited k how =>
    match w.calls[k]? with
    | some (.cancelling id) =>
      match how with
      | .exited => if w.hasExited id then some (w.waited k id .exited) else none
      | how => some (w.waited k id how)
    | _ => none
  | .status runId => some (w.begin (.probing runId (w.runs.lookup runId).isSome))
  | .probed k =>
    match w.calls[k]? with
    | some (.probing id known) =>
      some (w.goOn k (.reported id (if known then (w.runs.lookup id).map TrackedRun.status
        else none)))
    | _ => none

end World
end Obase.HarnessAdapter
