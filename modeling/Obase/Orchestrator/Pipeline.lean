import Mathlib.Data.List.Dedup
import Obase.Orchestrator.Runbook

namespace Obase.Orchestrator
set_option autoImplicit true

/-- What `OrchestratorContext` tells a stage. -/
structure StageContext where
  runId : String
  pipelineName : String
  stageName : String

/-- How a call of a stage's function ends: it returns a result or `None`, raises `PauseRequested`,
`BudgetExceeded` or another exception, or raises what `run_pipeline` does not catch. -/
inductive StageOutcome (D : Type) where
  | returned (result : Option (Dict String D))
  | paused (reason : String) (resumeData : Dict String D)
  | overBudget (error : String)
  | failed (error : String)
  | raised (text : String)

/-- A stage; its function may answer differently on every occasion of `ω` and at every attempt. -/
structure Stage (ω D : Type) where
  name : String
  func : ω → Nat → StageContext → Dict String D → StageOutcome D
  maxRetries : Int
  inputKeys : Option (List String)
  outputKeys : Option (List String)

structure Pipeline (ω D : Type) where
  name : String
  stages : List (Stage ω D)

inductive PipelineError where
  | fileNotFound
  | indexError
  | unexpectedKeys (stage : String) (extraKeys outputKeys : List String)
  | missingKeys (stage : String) (missing outputKeys : List String)
  | run (e : RunError)
  | raised (text : String)

/-- The items of `errors`, as Python objects. -/
class StageData (D : Type) extends RunData D where
  attemptError (stage : String) (attempt : Nat) (error : String) : D
  budgetError (stage error : String) : D

instance [Json.FloatText F] : StageData (Json F) where
  attemptError stage attempt error :=
    .dict [("stage", .str stage), ("attempt", .int attempt), ("error", .str error)]
  budgetError stage error :=
    .dict [("stage", .str stage), ("error", .str error), ("type", .str "BudgetExceeded")]

/-- What `run_pipeline` does that can be seen from outside: it saves the state, calls a stage's
function, or saves the state that a stage's result has been merged into. -/
inductive PipelineAct (D T : Type) where
  | save (s : RunState D T)
  | execute (idx : Int)
  | merge (idx : Int) (s : RunState D T)

section
variable {ω D T : Type}

/-- `_filter_input`. -/
def filterInput (data : Dict String D) (keys : List String) : Dict String D :=
  Dict.ofPairs (keys.filterMap fun k => (data.lookup k).map (k, ·))

/-- `data.update(new)`. -/
def updateData (data new : Dict String D) : Dict String D :=
  new.foldl (fun d p => d.set p.1 p.2) data

/-- How the attempts at a stage end. -/
inductive StageRun (D : Type) where
  | returned (result : Dict String D)
  | exhausted
  | paused (resumeData : Dict String D)
  | overBudget (error : String)
  | raised (text : String)

/-- `sorted` of a set of keys. -/
def sortedSet (keys : List String) : List String :=
  keys.dedup.mergeSort fun a b => decide (a ≤ b)

/-- The keys of a result against the `output_keys` of its stage. -/
def checkOutput (stage : Stage ω D) (result : Dict String D) : Except PipelineError Unit :=
  match stage.outputKeys with
  | none => .ok ()
  | some outputKeys =>
    let extraKeys := sortedSet (result.keys.filter fun k => k ∉ outputKeys)
    let missing := sortedSet (outputKeys.filter fun k => k ∉ result.keys)
    if extraKeys ≠ [] then .error (.unexpectedKeys stage.name extraKeys outputKeys)
    else if missing ≠ [] then .error (.missingKeys stage.name missing outputKeys)
    else .ok ()

section
variable [StageData D]

/-- The attempts at a stage that are left, with how many calls they make and the errors they add. -/
def runAttempts (stage : Stage ω D) (w : ω) (ctx : StageContext) (input : Dict String D) :
    Nat → Nat → Nat × List D × StageRun D
  | 0, _ => (0, [], .exhausted)
  | left + 1, attempts =>
    match stage.func w attempts ctx input with
    | .returned (some result) => (1, [], .returned result)
    | .returned none => (1, [], .exhausted)
    | .paused _ resumeData => (1, [], .paused resumeData)
    | .overBudget error => (1, [], .overBudget error)
    | .raised text => (1, [], .raised text)
    | .failed error =>
      let (calls, errors, r) := runAttempts stage w ctx input left (attempts + 1)
      (calls + 1, StageData.attemptError stage.name (attempts + 1) error :: errors, r)

/-- The loop over the stages from an index on. -/
def runStages (p : Pipeline ω D) (w : ω) (idx : Int) (s : RunState D T) :
    List (Stage ω D) → List (PipelineAct D T) × Except PipelineError (RunState D T)
  | [] =>
    let s := { s with state := .completed }
    ([.save s], .ok s)
  | stage :: stages =>
    let s := { s with currentStage := some stage.name, currentStageIndex := idx }
    let input := match stage.inputKeys with
      | some keys => filterInput s.data keys
      | none => s.data
    let (calls, errors, r) :=
      runAttempts stage w ⟨s.runId, p.name, stage.name⟩ input (stage.maxRetries + 1).toNat 0
    let acts := .save s :: List.replicate calls (.execute idx)
    let s := { s with errors := s.errors ++ errors }
    match r with
    | .raised text => (acts, .error (.raised text))
    | .paused resumeData =>
      let s := { s with
        data := updateData s.data resumeData, state := .paused, pausedAtStage := some stage.name }
      (acts ++ [.save s], .ok s)
    | .overBudget error =>
      let s := { s with
        state := .failed, errors := s.errors ++ [StageData.budgetError stage.name error] }
      (acts ++ [.save s], .ok s)
    | .exhausted =>
      let s := { s with state := .failed }
      (acts ++ [.save s], .ok s)
    | .returned result =>
      match checkOutput stage result with
      | .error e => (acts, .error e)
      | .ok () =>
        let s := { s with data := updateData s.data result }
        let (later, r) := runStages p w (idx + 1) s stages
        (acts ++ .merge idx s :: later, r)

/-- `stages[idx]` for the `idx` from a start on; a negative index counts from the end. -/
def stagesFrom (stages : List α) (start : Int) : Option (List α) :=
  if 0 ≤ start then some (stages.drop start.toNat)
  else if 0 ≤ stages.length + start then
    some (stages.drop (stages.length + start).toNat ++ stages)
  else none

/-- `run_pipeline` on what is stored for the run, as the acts that it performs if every save
succeeds, and what it returns. -/
def runPipeline (p : Pipeline ω D) (w : ω) (initialData : Dict String D) (runId : String)
    (resume : Bool) (now : T) (stored : Option (RunState D T)) :
    List (PipelineAct D T) × Except PipelineError (RunState D T) :=
  let start : Except PipelineError (RunState D T × Int) :=
    match resume, stored with
    | true, none => .error .fileNotFound
    | true, some s =>
      .ok ({ s with state := .running, pausedAtStage := none }, s.currentStageIndex)
    | false, _ =>
      .ok ({ runId, pipelineName := p.name, startedAt := now, state := .running,
             currentStage := none, currentStageIndex := 0, pausedAtStage := none,
             data := initialData, errors := [], runbookHash := none, currentNode := none,
             currentEntryId := none, entries := [], transitions := [] }, 0)
  match start with
  | .error e => ([], .error e)
  | .ok (s, startIndex) =>
    match stagesFrom p.stages startIndex with
    | none => ([.save s], .error .indexError)
    | some stages =>
      let (acts, r) := runStages p w startIndex s stages
      (.save s :: acts, r)

/-- The acts up to the first save that raises, each with the state that can be read back. -/
def perform : List (PipelineAct D T) → List (PipelineAct D T)
  | [] => []
  | .execute idx :: acts => .execute idx :: perform acts
  | .save s :: acts =>
    match s.reload with
    | .ok s' => .save s' :: perform acts
    | .error _ => []
  | .merge idx s :: acts =>
    match s.reload with
    | .ok s' => .merge idx s' :: perform acts
    | .error _ => []

end

/-- The state that an act leaves stored. -/
def PipelineAct.saved : PipelineAct D T → Option (RunState D T)
  | .save s => some s
  | .execute _ => none
  | .merge _ s => some s

/-- The last of some acts that is a save. -/
def lastSave (acts : List (PipelineAct D T)) : Option (PipelineAct D T) :=
  (acts.filter fun a => a.saved.isSome).getLast?

/-- The state that is stored after some acts. -/
def lastSaved (acts : List (PipelineAct D T)) : Option (RunState D T) :=
  (lastSave acts).bind PipelineAct.saved

end

/-- A call of `run_pipeline`; it is cut off after some of its acts, or is not if it has no more. -/
structure PipelineCall (ω D T : Type) where
  resume : Bool
  initialData : Dict String D
  world : ω
  now : T
  cut : Nat

/-- The acts that a call performs after those of the calls before it. -/
def PipelineCall.acts {ω D T : Type} [StageData D] (c : PipelineCall ω D T) (p : Pipeline ω D)
    (runId : String) (journal : List (PipelineAct D T)) : List (PipelineAct D T) :=
  (perform (runPipeline p c.world c.initialData runId c.resume c.now (lastSaved journal)).1).take
    c.cut

end Obase.Orchestrator
