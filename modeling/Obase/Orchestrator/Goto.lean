import Obase.Orchestrator.Runbook

namespace Obase.Orchestrator
set_option autoImplicit true

/-- What a call does with the state that it has loaded: it ends without a save, or saves a state and
ends then. -/
inductive Effect (D T R : Type) where
  | keep (r : Except RunError R)
  | save (s : RunState D T) (r : Except RunError R)

section
variable {D T R : Type} [RunData D]

/-- The persisted state after a call, and what the call returns; a save that raises writes
nothing. -/
def Effect.commit (stored : Option (RunState D T)) :
    Effect D T R → Option (RunState D T) × Except RunError R
  | .keep r => (stored, r)
  | .save s r =>
    match s.reload with
    | .ok s' => (some s', r)
    | .error e => (stored, .error e)

/-- `_require_state`, and the rest of the call on the state. -/
def withState (runId : String) (stored : Option (RunState D T))
    (body : RunState D T → Effect D T R) : Option (RunState D T) × Except RunError R :=
  match stored with
  | some s => (body s).commit stored
  | none => (none, .error (.fileNotFound runId))

/-- A run that starts at the initial node. -/
def startBody (contentHash : Runbook D → Except RunError String) (rb : Runbook D)
    (runId entryId : String) (now : T) : Effect D T (RunState D T) :=
  match contentHash rb with
  | .error e => .keep (.error e)
  | .ok hash =>
    let s : RunState D T :=
      { runId, pipelineName := rb.name, startedAt := now, state := .running,
        currentStage := none, currentStageIndex := 0, pausedAtStage := none, data := [],
        errors := [], runbookHash := some hash, currentNode := some rb.initial,
        currentEntryId := some entryId,
        entries := [(entryId, ⟨entryId, rb.initial, now, [], [], []⟩)], transitions := [] }
    .save s (.ok s)

def startRunbook (contentHash : Runbook D → Except RunError String) (rb : Runbook D)
    (runId : String) (resume : Bool) (entryId : String) (now : T)
    (stored : Option (RunState D T)) : Option (RunState D T) × Except RunError (RunState D T) :=
  match resume, stored with
  | true, some existing =>
    match contentHash rb with
    | .error e => (stored, .error e)
    | .ok hash =>
      if existing.runbookHash = some hash then (stored, .ok existing)
      else (stored, .error (.hashMismatch runId existing.runbookHash hash))
  | _, _ => (startBody contentHash rb runId entryId now).commit stored

/-- What `check_runner` is given besides the check. -/
structure CheckContext (D : Type) where
  runId : String
  node : Option String
  agent : D

/-- A call of `hook_runner`. -/
inductive HookCall where
  | outHook (hook runId target : String)
  | edgeHook (hook runId : String)
  | inHook (hook runId node : String)

/-- The callbacks of one `runbook_goto`; a runner of checks may answer each call in its own way. -/
structure Callbacks (D : Type) where
  checkRunner : Nat → Check D → CheckContext D → Except RunError D
  hookRunner : Option (HookCall → Except RunError Unit)
  recordFailure : Option (Option String → D → D → Except RunError Unit)
  agent : D

inductive GotoResult (D : Type) where
  | refused (reason : String)
  | blocked (reason : String)
  | failed (reason : String) (failedCheck : D) (stayIn : Option String) (evidence : List D)
  | ok (source target entryId prompt : String)

/-- How the checks of a node end: a blocking one fails, all have run, or an exception is raised. -/
inductive CheckRun (D : Type) where
  | failed (result : D) (evidence : List D)
  | passed (evidence : List D)
  | raised (e : RunError)

/-- The loop over the checks, of which `n` have run. -/
def runChecks (cb : Callbacks D) (ctx : CheckContext D) (n : Nat) (evidence : List D) :
    List (Check D) → CheckRun D
  | [] => .passed evidence
  | chk :: chks =>
    let item : Except RunError (D × D × Bool) := do
      let result ← cb.checkRunner n chk ctx
      let kept ← RunData.evidence chk.id chk.type result
      let passed ← if chk.blocking then RunData.passed result else pure true
      pure (result, kept, passed)
    match item with
    | .error e => .raised e
    | .ok (result, kept, passed) =>
      let evidence := evidence ++ [kept]
      if passed then runChecks cb ctx (n + 1) evidence chks
      else .failed result evidence

/-- `record_failure(current_node, result.get("message", ""), result)`, if there is one. -/
def noteFailure (cb : Callbacks D) (node : Option String) (result : D) : Except RunError Unit :=
  match cb.recordFailure with
  | none => pure ()
  | some record => do
    let message ← RunData.message result
    record node message result

/-- A hook that is named, and not by the empty string, is run if there is a runner. -/
def runHook (runner : Option (HookCall → Except RunError Unit)) (hook : Option String)
    (call : String → HookCall) : Except RunError Unit :=
  match runner, hook with
  | some run, some h => if h = "" then pure () else run (call h)
  | _, _ => pure ()

/-- The move to the target of an edge, once the checks have passed. -/
def gotoMove (rb : Runbook D) (s : RunState D T) (edge : Edge) (node : Node D) (target : String)
    (cb : Callbacks D) (evidence : List D) (newEntryId : String) (now : T) :
    Except RunError (RunState D T × Node D) := do
  runHook cb.hookRunner node.outHook (.outHook · s.runId target)
  runHook cb.hookRunner edge.hook (.edgeHook · s.runId)
  let s := { s with
    transitions := s.transitions ++
      [⟨edge.fromNode, target, s.currentEntryId, newEntryId, evidence, now⟩]
    currentNode := some target
    currentEntryId := some newEntryId
    entries := s.entries.set newEntryId ⟨newEntryId, target, now, [], [], []⟩ }
  let targetNode ← rb.node (some target)
  runHook cb.hookRunner targetNode.inHook (.inHook · s.runId target)
  pure (if rb.leaves target then s else { s with state := .completed }, targetNode)

/-- `runbook_goto` after its load. -/
def gotoBody (rb : Runbook D) (target : String) (cb : Callbacks D) (newEntryId : String) (now : T)
    (s : RunState D T) : Effect D T (GotoResult D) :=
  if s.state ≠ .running then .keep (.ok (.refused ("invalid state: " ++ s.state.value)))
  else
    match rb.edgeTo s.currentNode target with
    | none =>
      .keep (.ok (.refused ("no edge " ++ s.currentNode.getD "None" ++ " -> " ++ target)))
    | some edge =>
      match s.entry with
      | .error e => .keep (.error e)
      | .ok (id, entry) =>
        let attempts := (entry.attempts.lookup edge.key).getD 0
        if edge.maxAttempts ≤ attempts then
          .save { s with state := .blocked } (.ok (.blocked "max_attempts exceeded"))
        else
          match rb.node s.currentNode with
          | .error e => .keep (.error e)
          | .ok node =>
            match runChecks cb ⟨s.runId, s.currentNode, cb.agent⟩ 0 []
              (node.beforeTransfer ++ entry.dynamicChecks) with
            | .raised e => .keep (.error e)
            | .failed result evidence =>
              let entry := { entry with
                attempts := entry.attempts.set edge.key (attempts + 1)
                checks := entry.checks ++ evidence }
              .save { s with entries := s.entries.set id entry } <| do
                noteFailure cb s.currentNode result
                pure (.failed "before_transfer failed" result s.currentNode evidence)
            | .passed evidence =>
              match gotoMove rb s edge node target cb evidence newEntryId now with
              | .error e => .keep (.error e)
              | .ok (s', targetNode) =>
                .save s' (.ok (.ok edge.fromNode target newEntryId targetNode.prompt))

def runbookGoto (rb : Runbook D) (runId target : String) (cb : Callbacks D) (newEntryId : String)
    (now : T) (stored : Option (RunState D T)) :
    Option (RunState D T) × Except RunError (GotoResult D) :=
  withState runId stored (gotoBody rb target cb newEntryId now)

/-- `register_dynamic_check` after its load. -/
def registerBody (check : Check D) (s : RunState D T) : Effect D T Unit :=
  match s.entry with
  | .error e => .keep (.error e)
  | .ok (id, entry) =>
    let entry := { entry with dynamicChecks := entry.dynamicChecks ++ [check] }
    .save { s with entries := s.entries.set id entry } (.ok ())

def registerDynamicCheck (runId : String) (check : Check D) (stored : Option (RunState D T)) :
    Option (RunState D T) × Except RunError Unit :=
  withState runId stored (registerBody check)

/-- What `runbook_current` returns. -/
structure Current where
  runId : String
  node : Option String
  entryId : Option String
  prompt : String
  state : RunStatus
  allowedNext : List String

def runbookCurrent (rb : Runbook D) (runId : String) (stored : Option (RunState D T)) :
    Except RunError Current :=
  match stored with
  | none => .error (.fileNotFound runId)
  | some s => do
    let node ← rb.node s.currentNode
    pure ⟨runId, s.currentNode, s.currentEntryId, node.prompt, s.state,
      (rb.edges.filter fun e => some e.fromNode = s.currentNode).map Edge.toNode⟩

end

/-- The calls on one run, with the ids they generate and their clocks. -/
inductive RunCall (D T : Type) where
  | start (resume : Bool) (entryId : String) (now : T)
  | goto (target : String) (cb : Callbacks D) (newEntryId : String) (now : T)
  | register (check : Check D)

/-- The persisted state after a call. -/
def RunCall.after {D T : Type} [RunData D] (contentHash : Runbook D → Except RunError String)
    (rb : Runbook D) (runId : String) (stored : Option (RunState D T)) :
    RunCall D T → Option (RunState D T)
  | .start resume entryId now => (startRunbook contentHash rb runId resume entryId now stored).1
  | .goto target cb newEntryId now => (runbookGoto rb runId target cb newEntryId now stored).1
  | .register check => (registerDynamicCheck runId check stored).1

end Obase.Orchestrator
