import Obase.GraphStorage.Node
import Obase.Separated

namespace Obase.GraphStorage
set_option autoImplicit true
open Json

/-- The files of the root directory, under their names. -/
abbrev Files := Dict String (List Char)

def isAlnum (c : Char) : Bool :=
  ('A' ≤ c && c ≤ 'Z') || ('a' ≤ c && c ≤ 'z') || ('0' ≤ c && c ≤ '9')

def isWord (c : Char) : Bool := isAlnum c || c == '_' || c == '-'

/-- `re.fullmatch(r"[A-Za-z0-9][A-Za-z0-9_-]{0,63}", node_id)`. -/
def isSimple (id : String) : Bool :=
  match id.toList with
  | [] => false
  | c :: cs => isAlnum c && cs.length ≤ 63 && cs.all isWord

/-- `re.sub(r"[^A-Za-z0-9._-]+", "_", text)`, inside a run that is replaced or outside. -/
def squeeze (inRun : Bool) : List Char → List Char
  | [] => []
  | c :: cs =>
    if isWord c || c == '.' then c :: squeeze false cs
    else if inRun then squeeze true cs
    else '_' :: squeeze true cs

def readable (id : String) : List Char :=
  let cs := (Text.trim (fun c => c == '.' || c == '_' || c == '-')
    (squeeze false id.toList)).take 64
  if cs.isEmpty then "node".toList else cs

section
variable (sha256 : List UInt8 → List UInt8)

def suffix (id : String) : List Char := (hex (sha256 (utf8 id.toList))).toList.take 12

/-- The name of the page of an unusual id, and of a page of an older version. -/
def hashedName (id : String) : List Char := readable id ++ '-' :: suffix sha256 id

def markdown (name : List Char) : String := String.ofList (name ++ ".md".toList)

/-- `_filename`. -/
def filename (id : String) : String :=
  if isSimple id then markdown id.toList else markdown (hashedName sha256 id)

def legacy (id : String) : String := markdown (hashedName sha256 id)

def candidates (id : String) : List String :=
  if filename sha256 id = legacy sha256 id then [filename sha256 id]
  else [filename sha256 id, legacy sha256 id]

variable {F : Type} [FloatText F]

/-- `save_node`: the name of the page, and the files. -/
def saveNode (files : Files) (n : GraphNode F) : String × Files :=
  (filename sha256 n.nodeId, Dict.set (filename sha256 n.nodeId) (page n) files)

/-- The loop of `get_node` over the paths. -/
def getFrom (files : Files) (id canonical : String) :
    List String → Except PyError (Option (GraphNode F))
  | [] => .ok none
  | path :: paths =>
    match files.lookup path with
    | none => getFrom files id canonical paths
    | some content =>
      match decode (firstLine content) with
      | .error e => .error e
      | .ok none =>
        if path = canonical then .error .valueError else getFrom files id canonical paths
      | .ok (some node) =>
        if node.nodeId.1 = id then .ok (some node)
        else if path = canonical then .error .valueError
        else getFrom files id canonical paths

def getNode (files : Files) (id : String) : Except PyError (Option (GraphNode F)) :=
  if Text.notBlank id.toList then
    getFrom files id (filename sha256 id) (candidates sha256 id)
  else .error .valueError

variable (F) in
/-- The loop of `delete_node` over the paths. -/
def deleteFrom (id : String) :
    List String → Files → Bool → Except PyError Bool × Files
  | [], files, removed => (.ok removed, files)
  | path :: paths, files, removed =>
    match files.lookup path with
    | none => deleteFrom id paths files removed
    | some content =>
      match decode (F := F) (firstLine content) with
      | .error e => (.error e, files)
      | .ok none => deleteFrom id paths files removed
      | .ok (some node) =>
        if node.nodeId.1 = id then deleteFrom id paths (Dict.erase path files) true
        else deleteFrom id paths files removed

variable (F) in
def deleteNode (files : Files) (id : String) : Except PyError Bool × Files :=
  if Text.notBlank id.toList then deleteFrom F id (candidates sha256 id) files false
  else (.error .valueError, files)

/-- The loop of `load_all` over the pages. -/
def collect (nodesById : Dict String (GraphNode F)) :
    List (String × List Char) → Except PyError (Dict String (GraphNode F))
  | [] => .ok nodesById
  | p :: ps =>
    match decode (firstLine p.2) with
    | .error e => .error e
    | .ok none => collect nodesById ps
    | .ok (some node) => collect (Dict.set node.nodeId.1 node nodesById) ps

/-- `root.glob("*.md")`, sorted by name. -/
def pages (files : Files) : List (String × List Char) :=
  (files.filter fun p => ".md".toList.isSuffixOf p.1.toList).insertionSort keyLe

def loadAll (files : Files) : Except PyError (List (GraphNode F)) :=
  match collect [] (pages files) with
  | .error e => .error e
  | .ok nodesById =>
    .ok ((nodesById.map Prod.snd).mergeSort fun a b => decide (a.nodeId.1 ≤ b.nodeId.1))

/-- A call that changes the store. -/
inductive Op (F : Type) where
  | save (n : GraphNode F)
  | delete (id : String)

def Op.id : Op F → String
  | .save n => n.nodeId
  | .delete id => id

def Op.run (files : Files) : Op F → Files
  | .save n => (saveNode sha256 files n).2
  | .delete id => (deleteNode sha256 F files id).2

/-- The files after some calls on an empty root. -/
def runAll (ops : List (Op F)) : Files := ops.foldl (Op.run sha256) []

end

/-- What a call does to a map of the nodes under their ids. -/
def Op.apply (m : String → Option (GraphNode F)) : Op F → String → Option (GraphNode F)
  | .save n => Function.update m n.nodeId (some n)
  | .delete id => Function.update m id none

/-- The nodes that were saved last under their ids and not deleted. -/
def saved (ops : List (Op F)) : String → Option (GraphNode F) := ops.foldl Op.apply fun _ => none

/-- A call on one of the ids, a saved node having strings for its fields. -/
def Op.Within (ids : Set String) : Op F → Prop
  | .save n => n.nodeId.1 ∈ ids ∧ n.Plain
  | .delete id => id ∈ ids

section
variable {F : Type} [FloatText F] (sha256 : List UInt8 → List UInt8)

/-- The store answers about the ids as the map does, and no call on one of them changes the answer
about another. -/
structure IsMap (ids : Set String) (files : Files) (m : String → Option (GraphNode F)) : Prop where
  get : ∀ id ∈ ids, getNode sha256 files id = .ok (m id)
  delete : ∀ id ∈ ids, (deleteNode sha256 F files id).1 = .ok (m id).isSome
  load : ∃ ns, loadAll files = .ok ns ∧ ns.Pairwise (fun a b => a.nodeId.1 < b.nodeId.1) ∧
    ∀ n, n ∈ ns ↔ m n.nodeId = some n
  frame : ∀ op : Op F, op.Within ids → ∀ id ∈ ids, id ≠ op.id →
    getNode (F := F) sha256 (op.run sha256 files) id = getNode sha256 files id

/-- The pages of the files are those of the nodes of the map. -/
structure Stored (ids : Set String) (files : Files) (m : String → Option (GraphNode F)) :
    Prop where
  distinct : Dict.Distinct files
  known : ∀ id n, m id = some n → n.nodeId.1 = id ∧ id ∈ ids ∧ n.Plain
  lookup_iff : ∀ name content, files.lookup name = some content ↔
    ∃ n, m n.nodeId = some n ∧ name = filename sha256 n.nodeId ∧ content = page n

end

end Obase.GraphStorage
