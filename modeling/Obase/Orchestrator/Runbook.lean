import Obase.Builtins

namespace Obase.Orchestrator
set_option autoImplicit true

inductive CheckType where
  | checklist
  | command
  | predicate
  | llmReview
  | manual
deriving DecidableEq

def CheckType.value : CheckType → String
  | .checklist => "checklist"
  | .command => "command"
  | .predicate => "predicate"
  | .llmReview => "llm_review"
  | .manual => "manual"

/-- A check; its payload is a Python object of `D`. -/
structure Check (D : Type) where
  type : CheckType
  payload : D
  blocking : Bool
  id : String

structure Node (D : Type) where
  id : String
  prompt : String
  inHook : Option String
  outHook : Option String
  beforeTransfer : List (Check D)

structure Edge where
  fromNode : String
  toNode : String
  condition : String
  hook : Option String
  maxAttempts : Int

structure Runbook (D : Type) where
  name : String
  initial : String
  nodes : Dict String (Node D)
  edges : List Edge
  version : String

inductive RunStatus where
  | pending
  | running
  | paused
  | completed
  | failed
  | blocked
deriving DecidableEq

def RunStatus.value : RunStatus → String
  | .pending => "pending"
  | .running => "running"
  | .paused => "paused"
  | .completed => "completed"
  | .failed => "failed"
  | .blocked => "blocked"

structure RunEntry (D T : Type) where
  entryId : String
  nodeId : String
  enteredAt : T
  checks : List D
  dynamicChecks : List (Check D)
  attempts : Dict String Int

/-- An item of `transitions`. -/
structure Transition (D T : Type) where
  source : String
  target : String
  fromEntry : Option String
  toEntry : String
  checks : List D
  ts : T

structure RunState (D T : Type) where
  runId : String
  pipelineName : String
  startedAt : T
  state : RunStatus
  currentStage : Option String
  currentStageIndex : Int
  pausedAtStage : Option String
  data : Dict String D
  errors : List D
  runbookHash : Option String
  currentNode : Option String
  currentEntryId : Option String
  entries : Dict String (RunEntry D T)
  transitions : List (Transition D T)

inductive RunError where
  | fileNotFound (runId : String)
  | hashMismatch (runId : String) (stored : Option String) (current : String)
  | keyError (key : Option String)
  | python (e : PyError)
  | raised (text : String)
deriving DecidableEq

/-- What the orchestrator does with the objects that checks carry, each step of which may raise:
`result.get("passed", False)` as a condition, `result.get("message", "")`, the item that is kept of
a result, and what `json.loads` makes of the text that `json.dumps` gives for an object. -/
class RunData (D : Type) where
  passed : D → Except RunError Bool
  message : D → Except RunError D
  evidence : String → CheckType → D → Except RunError D
  reload : D → Except RunError D

section
variable {D T : Type}

def Edge.key (e : Edge) : String := e.fromNode ++ "->" ++ e.toNode

/-- The first edge that is listed between two nodes. -/
def Runbook.edgeTo (rb : Runbook D) (node : Option String) (target : String) : Option Edge :=
  rb.edges.find? fun e => some e.fromNode = node ∧ e.toNode = target

/-- Some edge of the runbook leaves the node. -/
def Runbook.leaves (rb : Runbook D) (node : String) : Bool :=
  rb.edges.any fun e => e.fromNode = node

/-- `nodes[current_node]`. -/
def Runbook.node (rb : Runbook D) (node : Option String) : Except RunError (Node D) :=
  match node.bind fun n => rb.nodes.lookup n with
  | some n => .ok n
  | none => .error (.keyError node)

/-- `entries[current_entry_id]`, with the key. -/
def RunState.entry (s : RunState D T) : Except RunError (String × RunEntry D T) :=
  match s.currentEntryId.bind fun i => (s.entries.lookup i).map (i, ·) with
  | some p => .ok p
  | none => .error (.keyError s.currentEntryId)

section
variable [RunData D]

def Check.reload (c : Check D) : Except RunError (Check D) := do
  let payload ← RunData.reload c.payload
  pure { c with payload }

def RunEntry.reload (e : RunEntry D T) : Except RunError (RunEntry D T) := do
  let checks ← e.checks.mapM RunData.reload
  let dynamicChecks ← e.dynamicChecks.mapM Check.reload
  pure { e with checks, dynamicChecks }

def Transition.reload (t : Transition D T) : Except RunError (Transition D T) := do
  let checks ← t.checks.mapM RunData.reload
  pure { t with checks }

/-- What a state that is saved is read back as. -/
def RunState.reload (s : RunState D T) : Except RunError (RunState D T) := do
  let data ← s.data.mapM fun p => (RunData.reload p.2).map (p.1, ·)
  let errors ← s.errors.mapM RunData.reload
  let entries ← s.entries.mapM fun p => p.2.reload.map (p.1, ·)
  let transitions ← s.transitions.mapM Transition.reload
  pure { s with data, errors, entries, transitions }

end
end

section
variable {F : Type} [Json.FloatText F]

/-- Checks whose payloads and results are JSON values. -/
instance : RunData (Json F) where
  passed r := ((Json.getD r "passed" (.bool false)).map Json.truthy).mapError .python
  message r := (Json.getD r "message" (.str "")).mapError .python
  evidence checkId type r :=
    match r with
    | .dict ms =>
      .ok (.dict (Dict.ofPairs ([("check_id", .str checkId), ("type", .str type.value)] ++ ms)))
    | _ => .error (.python .typeError)
  reload v := .ok (Json.roundTrip v)

def noneOr : Option String → Json F
  | some s => .str s
  | none => .null

def Check.toDict (c : Check (Json F)) : Json F :=
  .dict [("id", .str c.id), ("type", .str c.type.value), ("payload", c.payload),
    ("blocking", .bool c.blocking)]

def Node.toDict (n : Node (Json F)) : Json F :=
  .dict [("id", .str n.id), ("prompt", .str n.prompt), ("in_hook", noneOr n.inHook),
    ("out_hook", noneOr n.outHook), ("before_transfer", .list (n.beforeTransfer.map Check.toDict))]

def Edge.toDict (e : Edge) : Json F :=
  .dict [("from_node", .str e.fromNode), ("to_node", .str e.toNode),
    ("condition", .str e.condition), ("hook", noneOr e.hook), ("max_attempts", .int e.maxAttempts)]

/-- The `payload` of `content_hash`. -/
def Runbook.payload (rb : Runbook (Json F)) : Json F :=
  .dict [("name", .str rb.name), ("initial", .str rb.initial), ("version", .str rb.version),
    ("nodes", .dict (rb.nodes.mapVals Node.toDict)), ("edges", .list (rb.edges.map Edge.toDict))]

/-- `json.dumps(payload, sort_keys=True, ensure_ascii=False)`. -/
def Runbook.raw (rb : Runbook (Json F)) : Option (List Char) :=
  (Json.sortKeys rb.payload).map fun w => Json.dumps .default w

def Runbook.contentHash (sha256Hash : List UInt8 → List UInt8) (rb : Runbook (Json F)) :
    Except RunError String :=
  match rb.raw with
  | some raw => .ok (String.ofList ((hex (sha256Hash (utf8 raw))).toList.take 16))
  | none => .error (.python .typeError)

end

end Obase.Orchestrator
