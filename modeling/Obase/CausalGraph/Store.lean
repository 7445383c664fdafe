import Obase.DiGraph
import Obase.Runtime

namespace Obase.CausalGraph
set_option autoImplicit true
open Json

/-- The value of an attribute: JSON, a tuple, or a dictionary whose keys are tuples. -/
inductive Attr (F : Type) where
  | json (v : Json F)
  | tuple (xs : List (Json F))
  | table (rows : List (List (Json F) × Json F))

/-- The graph and the number of its version. -/
structure Store (ν F : Type) where
  graph : DiGraph ν (Attr F)
  version : Nat

def Store.new : Store ν F := ⟨DiGraph.empty, 1⟩

/-- What a call raises. -/
inductive Failure (ν : Type) where
  | causalGraphError (parent child : ν)
  | keyError (node : ν)
  | raised (e : PyError)

/-- What iterating over a value yields. -/
def elements : Json F → Except PyError (List (Json F))
  | .list xs => .ok xs
  | .str s => .ok (s.toList.map fun c => .str (String.singleton c))
  | .dict ms => .ok (ms.map fun p => .str p.1)
  | _ => .error .typeError

/-- `a, b = v`. -/
def unpack (v : Json F) : Except PyError (Json F × Json F) :=
  match elements v with
  | .ok [a, b] => .ok (a, b)
  | .ok _ => .error .valueError
  | .error e => .error e

section
variable [Builtins F]

/-- `k == k'` of two tuples. -/
def sameStates : List (Json F) → List (Json F) → Bool
  | [], [] => true
  | v :: vs, w :: ws => scalarEq v w && sameStates vs ws
  | _, _ => false

/-- `rows[k] = v`. -/
def assign (k : List (Json F)) (v : Json F) :
    List (List (Json F) × Json F) → List (List (Json F) × Json F)
  | [] => [(k, v)]
  | r :: rows => if sameStates r.1 k then (r.1, v) :: rows else r :: assign k v rows

/-- `{tuple(k): float(v) for k, v in cf}`, from the rows that are there already. -/
def readRows (rows : List (List (Json F) × Json F)) :
    List (Json F) → Except PyError (List (List (Json F) × Json F))
  | [] => .ok rows
  | item :: items => do
    let (k, v) ← unpack item
    let k ← elements k
    let x ← toFloat v
    if k.all hashable then readRows (assign k (.float x) rows) items else .error .typeError

/-- The items of a dictionary with `float` of their values. -/
def floatValues (items : List (κ × Json F)) : Except PyError (List (κ × Json F)) :=
  items.mapM fun p => (toFloat p.2).map fun x => (p.1, .float x)

/-- The dictionary that `add_node` makes of `cond_fail`. -/
def convertCondFail : Attr F → Except PyError (Attr F)
  | .json (.list items) => (readRows [] items).map .table
  | .json (.dict ms) => (floatValues ms).map fun ms => .json (.dict ms)
  | .table rows => (floatValues rows).map .table
  | _ => .error .attributeError

def floatOf : Attr F → Except PyError (Attr F)
  | .json v => (toFloat v).map fun x => .json (.float x)
  | _ => .error .typeError

/-- A keyword argument that is not `None`, converted and added to the attributes. -/
def addGiven (kwargs : Dict String (Attr F)) (k : String)
    (convert : Attr F → Except PyError (Attr F)) (attrs : Dict String (Attr F)) :
    Except PyError (Dict String (Attr F)) :=
  match kwargs.lookup k with
  | none | some (.json .null) => .ok attrs
  | some v => (convert v).map fun w => Dict.set k w attrs

/-- The attributes that `add_node` passes on to the graph. -/
def nodeAttrs (kwargs : Dict String (Attr F)) : Except PyError (Dict String (Attr F)) := do
  let attrs := Dict.erase "cond_fail" (Dict.erase "p_fail" kwargs)
  let attrs ← addGiven kwargs "p_fail" floatOf attrs
  addGiven kwargs "cond_fail" convertCondFail attrs

variable [DecidableEq ν]

def Store.addNode (s : Store ν F) (node : ν) (kwargs : Dict String (Attr F)) :
    Except PyError (Store ν F) :=
  if "self" ∈ Dict.keys kwargs ∨ "node" ∈ Dict.keys kwargs then .error .typeError
  else
    match nodeAttrs kwargs with
    | .error e => .error e
    | .ok attrs =>
      if "node_for_adding" ∈ Dict.keys attrs then .error .typeError
      else .ok ⟨s.graph.addNode node attrs, s.version + 1⟩

/-- The names of parameters, which cannot be attributes of an edge. -/
def edgeParameters : List String := ["self", "parent", "child", "u_of_edge", "v_of_edge"]

/-- No attribute has the name of a parameter. -/
def Callable (kwargs : Dict String (Attr F)) : Prop := ∀ k ∈ Dict.keys kwargs, k ∉ edgeParameters

instance (kwargs : Dict String (Attr F)) : Decidable (Callable kwargs) :=
  inferInstanceAs (Decidable (∀ k ∈ Dict.keys kwargs, k ∉ edgeParameters))

def Store.addEdge (s : Store ν F) (parent child : ν) (kwargs : Dict String (Attr F)) :
    Except (Failure ν) Unit × Store ν F :=
  if Callable kwargs then
    let g := s.graph.addEdge parent child kwargs
    if g.isDag then (.ok (), ⟨g, s.version + 1⟩)
    else (.error (.causalGraphError parent child), { s with graph := g.removeEdge parent child })
  else (.error (.raised .typeError), s)

/-- The event that `record_failure` appends. -/
def failureEvent (message result : Json F) (extra : Dict String (Json F)) (now : F) : Json F :=
  .dict (Dict.update [("ts", .float (.finite now)), ("message", message),
    ("result", if truthy result then result else .dict [])] extra)

/-- Append an event to those of a node that is there. -/
def Store.appendEvent (s : Store ν F) (node : ν) (event : Json F) :
    Except PyError (Store ν F) :=
  let attrs := (s.graph.nodes.lookup node).getD []
  match (attrs.lookup "failure_events").getD (.json (.list [])) with
  | .json (.list events) =>
    .ok { s with
      graph := s.graph.setNode node
        (Dict.set "failure_events" (.json (.list (events ++ [event]))) attrs) }
  | _ => .error .attributeError

def Store.recordFailure (s : Store ν F) (node : ν) (message result : Json F)
    (extra : Dict String (Json F)) (now : F) : Except PyError (Store ν F) :=
  if node ∈ Dict.keys s.graph.nodes then
    s.appendEvent node (failureEvent message result extra now)
  else
    (s.addNode node []).bind fun s =>
      s.appendEvent node (failureEvent message result extra now)

/-- The loop of `mutilated_copy` over the nodes. -/
def copyNodes (s : Store ν F) : List (ν × Dict String (Attr F)) → Except PyError (Store ν F)
  | [] => .ok s
  | p :: ps =>
    match s.addNode p.1 p.2 with
    | .ok s => copyNodes s ps
    | .error e => .error e

/-- The loop of `mutilated_copy` over the edges. -/
def copyEdges (target : ν) (s : Store ν F) :
    List ((ν × ν) × Dict String (Attr F)) → Except (Failure ν) (Store ν F)
  | [] => .ok s
  | p :: ps =>
    if p.1.2 = target then copyEdges target s ps
    else
      match s.addEdge p.1.1 p.1.2 p.2 with
      | (.ok (), s) => copyEdges target s ps
      | (.error e, _) => .error e

def Store.mutilatedCopy (s : Store ν F) (target : ν) : Except (Failure ν) (Store ν F) :=
  if target ∈ Dict.keys s.graph.nodes then
    match copyNodes .new s.graph.nodes with
    | .ok copy => copyEdges target copy s.graph.listEdges
    | .error e => .error (.raised e)
  else .error (.keyError target)

section
variable (name : Json F → Except PyError ν)

/-- The loop of `from_dict` over the nodes; `name` is the node that a JSON value is, or what hashing
it raises. -/
def loadNodes (s : Store ν F) : List (String × Json F) → Except PyError (Store ν F)
  | [] => .ok s
  | (node, .dict attrs) :: ps => do
    let node ← name (.str node)
    let s ← s.addNode node (Dict.mapVals .json attrs)
    loadNodes s ps
  | _ :: _ => .error .typeError

/-- The loop of `from_dict` over the edges. -/
def loadEdges (s : Store ν F) : List (Json F) → Except (Failure ν) (Store ν F)
  | [] => .ok s
  | item :: items =>
    match (unpack item).bind fun p => (name p.1).bind fun u => (name p.2).map fun v => (u, v) with
    | .error e => .error (.raised e)
    | .ok (u, v) =>
      match s.addEdge u v [] with
      | (.ok (), s) => loadEdges s items
      | (.error e, _) => .error e

/-- `(data.get("nodes") or {}).items()`. -/
def nodeItems (data : Json F) : Except PyError (List (String × Json F)) := do
  let nodes ← getD data "nodes" .null
  if truthy nodes then
    match nodes with
    | .dict ms => .ok ms
    | _ => .error .attributeError
  else .ok []

/-- What the loop over `data.get("edges") or []` yields. -/
def edgeItems (data : Json F) : Except PyError (List (Json F)) := do
  let edges ← getD data "edges" .null
  if truthy edges then elements edges else .ok []

def fromDict (data : Json F) : Except (Failure ν) (Store ν F) :=
  match (nodeItems data).bind (loadNodes name .new) with
  | .error e => .error (.raised e)
  | .ok s =>
    match edgeItems data with
    | .error e => .error (.raised e)
    | .ok items => loadEdges name s items

/-- What `deserialize` is given. -/
inductive Data (F : Type) where
  | value (v : Json F)
  | text (cs : List Char)

def Store.deserialize (s : Store ν F) (data : Data F) : Except (Failure ν) (Store ν F) :=
  match data with
  | .value v => (fromDict name v).map fun loaded => { s with graph := loaded.graph }
  | .text cs =>
    match loads cs with
    | some v => (fromDict name v).map fun loaded => { s with graph := loaded.graph }
    | none => .error (.raised .valueError)

end

/-- A call. What follows a call of `mutilated_copy` may be called on the copy. -/
inductive Op (ν F : Type) where
  | addNode (node : ν) (kwargs : Dict String (Attr F))
  | addEdge (parent child : ν) (kwargs : Dict String (Attr F))
  | recordFailure (node : ν) (message result : Json F) (extra : Dict String (Json F)) (now : F)
  | deserialize (data : Data F)
  | mutilatedCopy (target : ν) (onCopy : Bool)

variable (name : Json F → Except PyError ν)

/-- The store that the next call is made on. -/
def Op.run (s : Store ν F) : Op ν F → Store ν F
  | .addNode node kwargs =>
    match s.addNode node kwargs with
    | .ok t => t
    | .error _ => s
  | .addEdge parent child kwargs => (s.addEdge parent child kwargs).2
  | .recordFailure node message result extra now =>
    match s.recordFailure node message result extra now with
    | .ok t => t
    | .error _ => s
  | .deserialize data =>
    match s.deserialize name data with
    | .ok t => t
    | .error _ => s
  | .mutilatedCopy target onCopy =>
    match s.mutilatedCopy target with
    | .ok copy => if onCopy then copy else s
    | .error _ => s

/-- The calls, each with the store that it leads to. -/
def states (s : Store ν F) : List (Op ν F) → List (Op ν F × Store ν F)
  | [] => []
  | op :: ops => (op, op.run name s) :: states (op.run name s) ops

/-- A call leads from one store to the next. -/
def Step (s : Store ν F) (op : Op ν F) (t : Store ν F) : Prop := t = op.run name s

end

/-- The node that a string is; other nodes are left to whoever has them. -/
def stringName : Json F → Except PyError String
  | .str s => .ok s
  | _ => .error .typeError

end Obase.CausalGraph
