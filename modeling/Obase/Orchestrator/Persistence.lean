import Obase.FileTree
import Obase.Orchestrator.Goto
import Obase.Orchestrator.Pipeline

namespace Obase.Orchestrator
set_option autoImplicit true

/-- The datetimes of the interpreter: `aware` is that there is a `tzinfo`, and `replaceUtc` is
`replace(tzinfo=UTC)`. -/
structure IsoTimes (T : Type) where
  isoformat : T → String
  fromisoformat : String → Option T
  aware : T → Bool
  replaceUtc : T → T
  fromisoformat_isoformat : ∀ t, fromisoformat (isoformat t) = some t

/-- The `RunState` that is persisted, with the datetime at which the run has started, and its times
of day as floats. -/
structure Record (F T : Type) where
  runId : String
  pipelineName : String
  startedAt : T
  state : String
  currentStage : Option String
  currentStageIndex : Int
  pausedAtStage : Option String
  data : Dict String (Json F)
  errors : List (Json F)
  runbookHash : Option String
  currentNode : Option String
  currentEntryId : Option String
  entries : Dict String (RunEntry (Json F) (PyFloat F))
  transitions : List (Json F)

/-- What `from_dict` raises; `mistyped` where Python goes on with a value of another type. -/
inductive LoadError where
  | python (e : PyError)
  | mistyped
deriving DecidableEq

namespace Loading
variable {F : Type}

def asStr : Json F → Except LoadError String
  | .str s => .ok s
  | _ => .error .mistyped

def asOptionalStr : Json F → Except LoadError (Option String)
  | .null => .ok none
  | .str s => .ok (some s)
  | _ => .error .mistyped

def asInt : Json F → Except LoadError Int
  | .int n => .ok n
  | _ => .error .mistyped

def asBool : Json F → Except LoadError Bool
  | .bool b => .ok b
  | _ => .error .mistyped

def asFloat : Json F → Except LoadError (PyFloat F)
  | .float x => .ok x
  | _ => .error .mistyped

def asList : Json F → Except LoadError (List (Json F))
  | .list xs => .ok xs
  | _ => .error .mistyped

def asDict : Json F → Except LoadError (Dict String (Json F))
  | .dict ms => .ok ms
  | _ => .error .mistyped

/-- `v[k]`. -/
def item (v : Json F) (k : String) : Except LoadError (Json F) :=
  (Json.getItem v k).mapError .python

/-- `v.get(k, default)`. -/
def get (v : Json F) (k : String) (default : Json F) : Except LoadError (Json F) :=
  (Json.getD v k default).mapError .python

/-- `v.items()`. -/
def items : Json F → Except LoadError (Dict String (Json F))
  | .dict ms => .ok ms
  | _ => .error (.python .attributeError)

end Loading

/-- `CheckType(value)`. -/
def CheckType.ofValue (v : Json F) : Except LoadError CheckType :=
  match v with
  | .str s =>
    match [CheckType.checklist, .command, .predicate, .llmReview, .manual].find? (·.value = s) with
    | some type => .ok type
    | none => .error (.python .valueError)
  | _ => .error (.python .valueError)

/-- `Check.from_dict`, with the id that it makes up for a check that has none. -/
def Check.fromDict (newId : String) (d : Json F) : Except LoadError (Check (Json F)) := do
  let type ← (← Loading.item d "type") |> CheckType.ofValue
  let payload ← Loading.get d "payload" (.dict [])
  let blocking ← (← Loading.get d "blocking" (.bool true)) |> Loading.asBool
  let id ← (← Loading.get d "id" (.str newId)) |> Loading.asStr
  pure { type, payload, blocking, id }

def RunEntry.toDict (e : RunEntry (Json F) (PyFloat F)) : Json F :=
  .dict [("entry_id", .str e.entryId), ("node_id", .str e.nodeId),
    ("entered_at", .float e.enteredAt), ("checks", .list e.checks),
    ("dynamic_checks", .list (e.dynamicChecks.map Check.toDict)),
    ("attempts", .dict (e.attempts.mapVals .int))]

def RunEntry.fromDict (newId : String) (d : Json F) :
    Except LoadError (RunEntry (Json F) (PyFloat F)) := do
  let entryId ← (← Loading.item d "entry_id") |> Loading.asStr
  let nodeId ← (← Loading.item d "node_id") |> Loading.asStr
  let enteredAt ← (← Loading.item d "entered_at") |> Loading.asFloat
  let checks ← (← Loading.get d "checks" (.list [])) |> Loading.asList
  let dynamicChecks ← (← Loading.get d "dynamic_checks" (.list [])) |> Loading.asList
  let dynamicChecks ← dynamicChecks.mapM (Check.fromDict newId)
  let attempts ← (← Loading.get d "attempts" (.dict [])) |> Loading.asDict
  let attempts ← attempts.mapM fun p => (Loading.asInt p.2).map (p.1, ·)
  pure { entryId, nodeId, enteredAt, checks, dynamicChecks, attempts }

namespace Record
variable {F T : Type}

def toDict (I : IsoTimes T) (s : Record F T) : Json F :=
  .dict [("run_id", .str s.runId), ("pipeline_name", .str s.pipelineName),
    ("started_at", .str (I.isoformat s.startedAt)), ("state", .str s.state),
    ("current_stage", noneOr s.currentStage), ("current_stage_index", .int s.currentStageIndex),
    ("paused_at_stage", noneOr s.pausedAtStage), ("data", .dict s.data),
    ("errors", .list s.errors), ("runbook_hash", noneOr s.runbookHash),
    ("current_node", noneOr s.currentNode), ("current_entry_id", noneOr s.currentEntryId),
    ("entries", .dict (s.entries.mapVals RunEntry.toDict)),
    ("transitions", .list s.transitions)]

/-- `datetime.fromisoformat(started_raw)`, in UTC if it has no timezone. -/
def started (I : IsoTimes T) (v : Json F) : Except LoadError T :=
  match v with
  | .str raw =>
    match I.fromisoformat raw with
    | some t => .ok (if I.aware t then t else I.replaceUtc t)
    | none => .error (.python .valueError)
  | _ => .error (.python .typeError)

/-- `RunState.from_dict`, at a time and with the id for checks that have none. -/
def fromDict (I : IsoTimes T) (now : T) (newId : String) (d : Json F) :
    Except LoadError (Record F T) := do
  let startedAt ← (← Loading.get d "started_at" (.str (I.isoformat now))) |> started I
  let runId ← (← Loading.item d "run_id") |> Loading.asStr
  let pipelineName ← (← Loading.item d "pipeline_name") |> Loading.asStr
  let state ← (← Loading.get d "state" (.str "pending")) |> Loading.asStr
  let currentStage ← (← Loading.get d "current_stage" .null) |> Loading.asOptionalStr
  let currentStageIndex ← (← Loading.get d "current_stage_index" (.int 0)) |> Loading.asInt
  let pausedAtStage ← (← Loading.get d "paused_at_stage" .null) |> Loading.asOptionalStr
  let data ← (← Loading.get d "data" (.dict [])) |> Loading.asDict
  let errors ← (← Loading.get d "errors" (.list [])) |> Loading.asList
  let runbookHash ← (← Loading.get d "runbook_hash" .null) |> Loading.asOptionalStr
  let currentNode ← (← Loading.get d "current_node" .null) |> Loading.asOptionalStr
  let currentEntryId ← (← Loading.get d "current_entry_id" .null) |> Loading.asOptionalStr
  let entries ← (← Loading.get d "entries" (.dict [])) |> Loading.items
  let entries ← entries.mapM fun p => (RunEntry.fromDict newId p.2).map (p.1, ·)
  let transitions ← (← Loading.get d "transitions" (.list [])) |> Loading.asList
  pure { runId, pipelineName, startedAt, state, currentStage, currentStageIndex, pausedAtStage,
         data, errors, runbookHash, currentNode, currentEntryId, entries, transitions }

end Record

/-- The dictionary that is kept of a transition. -/
def Transition.toDict (t : Transition (Json F) (PyFloat F)) : Json F :=
  .dict [("from", .str t.source), ("to", .str t.target), ("from_entry", noneOr t.fromEntry),
    ("to_entry", .str t.toEntry), ("checks", .list t.checks), ("ts", .float t.ts)]

/-- The state of a run as it is persisted, with the datetime at which the run has started. -/
def RunState.record (s : RunState (Json F) (PyFloat F)) (startedAt : T) : Record F T :=
  { runId := s.runId, pipelineName := s.pipelineName, startedAt, state := s.state.value,
    currentStage := s.currentStage, currentStageIndex := s.currentStageIndex,
    pausedAtStage := s.pausedAtStage, data := s.data, errors := s.errors,
    runbookHash := s.runbookHash, currentNode := s.currentNode,
    currentEntryId := s.currentEntryId, entries := s.entries,
    transitions := s.transitions.map Transition.toDict }

/-- What is stored for a run, whatever calls have been made on it: those of its runbook, and
pipelines, which may be cut off after any of their acts. -/
inductive Stored {D T : Type} [StageData D] (contentHash : Runbook D → Except RunError String)
    (runId : String) : Option (RunState D T) → Prop
  | nothing : Stored contentHash runId none
  | call (rb : Runbook D) (c : RunCall D T) (h : Stored contentHash runId stored) :
      Stored contentHash runId (c.after contentHash rb runId stored)
  | pipeline {ω : Type} (p : Pipeline ω D) (w : ω) {initialData : Dict String D} (hd : initialData.Distinct)
      (resume : Bool) (now : T) (h : Stored contentHash runId stored)
      (ha : a ∈ perform (runPipeline p w initialData runId resume now stored).1)
      (hs : a.saved = some s) : Stored contentHash runId (some s)

/-- What a call on a backend raises. -/
inductive BackendError where
  | os (e : OsError)
  | jsonDecode
  | load (e : LoadError)
deriving DecidableEq

/-- A call on a backend, `isSaved` being its `exists`; a load comes with what `from_dict` would
fill in. -/
inductive BackendCall (F T : Type) where
  | isSaved (runId : String)
  | save (s : Record F T)
  | load (runId : String) (now : T) (newId : String)

inductive BackendAnswer (F T : Type) where
  | found (b : Bool)
  | saved
  | loaded (s : Option (Record F T))
  | raised (e : BackendError)

section
variable {F T : Type} [Json.FloatText F]

/-- `RunState.from_dict(json.loads(text))`. -/
def parseRun (I : IsoTimes T) (now : T) (newId : String) (text : List Char) :
    BackendAnswer F T :=
  match Json.loads text with
  | none => .raised .jsonDecode
  | some d =>
    match Record.fromDict I now newId d with
    | .ok s => .loaded (some s)
    | .error e => .raised (.load e)

/-- `FS.run_dir` below a working directory: the tree with the directory, and its path. -/
def fsRunDir (base : Path) (t : FileTree) (runId : String) : Except OsError (FileTree × Path) := do
  let t ← t.mkdirs base
  let t ← t.mkdirs (base.resolve runId.toList)
  pure (t, base.resolve runId.toList)

/-- A call whose directory cannot be made leaves the tree. -/
def withRunDir (base : Path) (t : FileTree) (runId : String)
    (body : FileTree → Path → FileTree × BackendAnswer F T) : FileTree × BackendAnswer F T :=
  match fsRunDir base t runId with
  | .error e => (t, .raised (.os e))
  | .ok (t, runDir) => body t runDir

/-- A call on a `FileRunStateBackend`. -/
def fileCall (I : IsoTimes T) (base : Path) (t : FileTree) :
    BackendCall F T → FileTree × BackendAnswer F T
  | .isSaved runId => withRunDir base t runId fun t runDir =>
    (t, .found (t.entry (runDir ++ ["run_state.json"])).isSome)
  | .save s => withRunDir base t s.runId fun t runDir =>
    match (t.mkdirs runDir).bind fun t =>
      t.writeText (runDir ++ ["run_state.json"]) (Json.dumpsAscii .default (s.toDict I)) with
    | .error e => (t, .raised (.os e))
    | .ok t => (t, .saved)
  | .load runId now newId => withRunDir base t runId fun t runDir =>
    if (t.entry (runDir ++ ["run_state.json"])).isSome then
      match t.readText (runDir ++ ["run_state.json"]) with
      | .error e => (t, .raised (.os e))
      | .ok text => (t, parseRun I now newId text)
    else (t, .loaded none)

/-- A call on a `SqliteRunStateBackend`: its table of `state_json` by `run_id`. -/
def sqliteCall (I : IsoTimes T) (runs : Dict String (List Char)) :
    BackendCall F T → Dict String (List Char) × BackendAnswer F T
  | .isSaved runId => (runs, .found (runs.lookup runId).isSome)
  | .save s => (runs.set s.runId (Json.dumps .default (s.toDict I)), .saved)
  | .load runId now newId =>
    match runs.lookup runId with
    | none => (runs, .loaded none)
    | some text => (runs, parseRun I now newId text)

/-- What calls answer, one after another. -/
def answers (call : σ → BackendCall F T → σ × BackendAnswer F T) :
    σ → List (BackendCall F T) → List (BackendAnswer F T)
  | _, [] => []
  | s, c :: cs => (call s c).2 :: answers call (call s c).1 cs

end
end Obase.Orchestrator
