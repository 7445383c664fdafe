import Mathlib.Algebra.Ring.Nat
import Obase.DepthFirst
import Obase.Dict
import Obase.Fallible

namespace Obase.WorkflowEngine
set_option autoImplicit true

/-- `CycleError`, for an edge back to a node or after the count of the nodes. -/
inductive CycleError where
  | involving (node : String)
  | notAllProcessed
deriving DecidableEq

/-- What a sort raises; `limit` where it takes more steps than it may. -/
inductive Raised where
  | limit
  | cycleError (e : CycleError)
deriving DecidableEq

inductive Color where
  | white
  | gray
  | black
deriving DecidableEq

/-- `color.get(node, WHITE)`. -/
def colorOf (color : Dict String Color) (node : String) : Color :=
  (color.lookup node).getD .white

/-- `adj`, a `defaultdict` of lists. -/
def adjacency (edges : List (String × String)) : Dict String (List String) :=
  edges.foldl (fun adj e => adj.set e.1 ((adj.lookup e.1).getD [] ++ [e.2])) []

def adjacent (edges : List (String × String)) (node : String) : List String :=
  ((adjacency edges).lookup node).getD []

/-- The inner `dfs`, which may not go deeper than the limit. -/
def visit (adj : String → List String) :
    Nat → String → Dict String Color → Except Raised (Dict String Color)
  | 0, _, _ => .error .limit
  | n + 1, node, color =>
    ((adj node).foldlM (fun color nxt =>
      if colorOf color nxt = .gray then .error (.cycleError (.involving nxt))
      else if colorOf color nxt = .white then visit adj n nxt color
      else .ok color) (color.set node .gray)).map fun color => color.set node .black

def detectCycle (limit : Nat) (nodes : List String) (edges : List (String × String)) :
    Except Raised Unit :=
  (nodes.foldlM (fun color n =>
    if colorOf color n = .white then visit (adjacent edges) limit n color else .ok color)
    (Dict.ofPairs (nodes.map fun n => (n, .white)))).map fun _ => ()

/-- `in_degree` before the loop. -/
def inDegrees (nodes : List String) (edges : List (String × String)) : Dict String Int :=
  edges.foldl (fun deg e => deg.set e.2 ((deg.lookup e.2).getD 0 + 1))
    (Dict.ofPairs (nodes.map fun n => (n, 0)))

/-- One edge out of a node of the layer. -/
def release (st : Dict String Int × List String) (nxt : String) : Dict String Int × List String :=
  let deg := (st.1.lookup nxt).getD 0 - 1
  (st.1.set nxt deg, if deg = 0 then st.2 ++ [nxt] else st.2)

/-- The degrees and the queue that a layer leaves. -/
def releaseLayer (adj : String → List String) (deg : Dict String Int) (layer : List String) :
    Dict String Int × List String :=
  layer.foldl (fun st node => (adj node).foldl release st) (deg, [])

/-- The loop `while queue`, which may not go round more often than the limit. -/
def layersFrom (adj : String → List String) :
    Nat → Dict String Int → List String → Except Raised (List (List String))
  | _, _, [] => .ok []
  | 0, _, _ :: _ => .error .limit
  | n + 1, deg, q :: queue =>
    (layersFrom adj n (releaseLayer adj deg (q :: queue)).1
      (releaseLayer adj deg (q :: queue)).2).map fun layers => (q :: queue) :: layers

def topologicalSort (limit : Nat) (nodes : List String) (edges : List (String × String)) :
    Except Raised (List (List String)) := do
  detectCycle limit nodes edges
  let deg := inDegrees nodes edges
  let layers ← layersFrom (adjacent edges) limit deg
    (nodes.filter fun n => (deg.lookup n).getD 0 = 0)
  if (layers.map List.length).sum ≠ nodes.length then .error (.cycleError .notAllProcessed)
  else .ok layers

/-- What `execute` raises: a `ValueError` about `on_error`, or a `WorkflowExecutionError`. -/
inductive Failure (α : Type) where
  | onError (given : String)
  | execution (failedNode : String) (cause : α)

/-- A task that runs `_run_node`: an exception is a value as a result is one. -/
inductive Task (α : Type) where
  | created
  | running (upstream : Dict String α)
  | done (outcome : Except α (String × α))

/-- `execute` between two steps of its tasks: `outputs`, the tasks of the layer with their nodes,
and the layers behind it. Beside it the calls of the executor. -/
structure Execution (α : Type) where
  outputs : Dict String α
  tasks : List (String × Task α)
  rest : List (List String)
  result : Option (Except (Failure α) (Dict String α))
  calls : List (String × Dict String α)

variable {α : Type}

/-- The loop over the layer and the results of its tasks: `outputs` behind it, and the node that has
failed with its exception where it raises. -/
def collect (onError : String) :
    Dict String α → List (String × Except α (String × α)) → Dict String α × Option (String × α)
  | outputs, [] => (outputs, none)
  | outputs, (node, .error outcome) :: rest =>
    if onError = "rollback" then (outputs, some (node, outcome))
    else collect onError (outputs.set node outcome) rest
  | outputs, (_, .ok (nodeId, result)) :: rest => collect onError (outputs.set nodeId result) rest

namespace Execution

/-- The tasks of the next layer are created, or `outputs` is returned. -/
def next (outputs : Dict String α) (calls : List (String × Dict String α)) :
    List (List String) → Execution α
  | [] => ⟨outputs, [], [], some (.ok outputs), calls⟩
  | layer :: rest => ⟨outputs, layer.map fun n => (n, .created), rest, none, calls⟩

/-- What follows the loop over the results: the tasks that an exception would cancel are done. -/
def proceed (calls : List (String × Dict String α)) (rest : List (List String)) :
    Dict String α × Option (String × α) → Execution α
  | (outputs, none) => next outputs calls rest
  | (outputs, some (node, outcome)) =>
    ⟨outputs, [], rest, some (.error (.execution node outcome)), calls⟩

/-- The call of `execute`. -/
def start (layers : List (List String)) (onError : String) (completed : Option (Dict String α)) :
    Execution α :=
  if onError = "rollback" ∨ onError = "continue" then next (completed.getD []) [] layers
  else ⟨completed.getD [], [], layers, some (.error (.onError onError)), []⟩

end Execution

/-- The steps: a task starts with a copy of `outputs`, its executor returns or raises, or
`asyncio.gather` returns the outcomes of all. -/
inductive Step (executor : String → Dict String α → Except α α) (onError : String) :
    Execution α → Execution α → Prop
  | begin (h : s.tasks[i]? = some (node, .created)) :
      Step executor onError s
        { s with
          tasks := s.tasks.set i (node, .running s.outputs)
          calls := s.calls ++ [(node, s.outputs)] }
  | finish (h : s.tasks[i]? = some (node, .running upstream)) :
      Step executor onError s
        { s with
          tasks := s.tasks.set i
            (node, .done ((executor node upstream).map fun result => (node, result))) }
  | gather (results : List (String × Except α (String × α))) (h : s.result = none)
      (ht : s.tasks = results.map fun p => (p.1, .done p.2)) :
      Step executor onError s (.proceed s.calls s.rest (collect onError s.outputs results))

/-- So many steps. -/
inductive Steps (executor : String → Dict String α → Except α α) (onError : String) :
    Nat → Execution α → Execution α → Prop
  | refl : Steps executor onError 0 s s
  | tail (h : Steps executor onError n s s') (hs : Step executor onError s' s'') :
      Steps executor onError (n + 1) s s''

end Obase.WorkflowEngine
