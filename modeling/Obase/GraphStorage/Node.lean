import Obase.Json.Canonical
import Obase.Runtime

namespace Obase.GraphStorage
set_option autoImplicit true
open Json

/-- A text that is not blank. -/
abbrev NonBlank := {s : String // Text.notBlank s.toList = true}

/-- A directed relation from its owning node to its target. -/
structure GraphRelation where
  target : NonBlank
  type : NonBlank
deriving DecidableEq

/-- A node and the provenance attached to it. Nothing is checked of its notes. -/
structure GraphNode (F : Type) where
  nodeId : NonBlank
  filePath : String
  contentHash : String
  summary : String
  crux : String
  relations : List GraphRelation
  customNotes : Json F

def GraphRelation.toDict (r : GraphRelation) : Json F :=
  .dict [("target", .str r.target), ("type", .str r.type)]

def GraphNode.toDict (n : GraphNode F) : Json F :=
  .dict [("node_id", .str n.nodeId), ("file_path", .str n.filePath),
    ("content_hash", .str n.contentHash), ("summary", .str n.summary), ("crux", .str n.crux),
    ("relations", .list (n.relations.map GraphRelation.toDict)), ("custom_notes", n.customNotes)]

/-- A string that is not blank, or a `ValueError`. -/
def nonBlank : Json F → Except PyError NonBlank
  | .str s => if h : Text.notBlank s.toList = true then .ok ⟨s, h⟩ else .error .valueError
  | _ => .error .valueError

/-- A string, or a `ValueError`. -/
def text : Json F → Except PyError String
  | .str s => .ok s
  | _ => .error .valueError

/-- `GraphRelation(**v)`. -/
def GraphRelation.ofDict (v : Json F) : Except PyError GraphRelation :=
  match v with
  | .dict ms =>
    if ∀ k ∈ Dict.keys ms, k = "target" ∨ k = "type" then
      match ms.lookup "target" with
      | some target => do
        let target ← nonBlank target
        let type ← nonBlank ((ms.lookup "type").getD (.str "depends_on"))
        return ⟨target, type⟩
      | none => .error .typeError
    else .error .typeError
  | _ => .error .typeError

/-- `v.get(k, default)` of a list, or a `ValueError`. -/
def items : Json F → Except PyError (List (Json F))
  | .list xs => .ok xs
  | _ => .error .valueError

/-- The node that the metadata describe. -/
def GraphNode.ofDict (value : Json F) : Except PyError (GraphNode F) :=
  match value with
  | .dict ms => do
    let get (k : String) := (ms.lookup k).getD (.str "")
    let relations ← items ((ms.lookup "relations").getD (.list []))
    let nodeId ← getItem value "node_id"
    let relations ← relations.mapM GraphRelation.ofDict
    let nodeId ← nonBlank nodeId
    let filePath ← text (get "file_path")
    let contentHash ← text (get "content_hash")
    let summary ← text (get "summary")
    let crux ← text (get "crux")
    return ⟨nodeId, filePath, contentHash, summary, crux, relations, get "custom_notes"⟩
  | _ => .error .valueError

def marker : List Char := "<!-- obase-graph-node:v1:".toList

def markerEnd : List Char := " -->".toList

section
variable [FloatText F]

/-- `_encode`. -/
def encode (n : GraphNode F) : List Char :=
  Base64.unpadded (utf8 (dumps .compact (arrange n.toDict)))

/-- `json.loads(payload.decode("utf-8"))`. -/
def loadText (bytes : List UInt8) : Except PyError (Json F) :=
  match (utf8Decode bytes).bind loads with
  | some v => .ok v
  | none => .error .valueError

/-- `_decode`: `None` of a line that is no header, else a node or a `ValueError`. -/
def decode (firstLine : List Char) : Except PyError (Option (GraphNode F)) :=
  if marker.isPrefixOf firstLine && markerEnd.isSuffixOf firstLine then
    let encoded := (firstLine.take (firstLine.length - markerEnd.length)).drop marker.length
    match (b64decode encoded).bind fun payload => (loadText payload).bind GraphNode.ofDict with
    | .ok node => .ok (some node)
    | .error _ => .error .valueError
  else .ok none

def header (n : GraphNode F) : List Char := marker ++ encode n ++ markerEnd

/-- What `save_node` writes. -/
def page (n : GraphNode F) : List Char :=
  header n ++ "\n\n# ".toList ++ n.nodeId.1.toList ++ "\n\n".toList ++ n.summary.toList ++
    "\n\n## Crux\n\n".toList ++ n.crux.toList ++ "\n\n- File: ".toList ++ n.filePath.toList ++
    "\n- Content hash: ".toList ++ n.contentHash.toList ++ "\n\n## Relations\n\n".toList ++
    n.relations.flatMap fun r =>
      "- [[".toList ++ r.target.1.toList ++ "]] (".toList ++ r.type.1.toList ++ ")\n".toList

/-- `stream.readline().rstrip("\r\n")` of a file that was just opened in text mode. -/
def firstLine (cs : List Char) : List Char :=
  (Text.universalNewlines cs).takeWhile fun c => c != '\n'

end

/-- The notes of the node are a string, as its other fields are. -/
def GraphNode.Plain (n : GraphNode F) : Prop := ∃ s, n.customNotes = .str s

theorem nonBlank_str (s : NonBlank) : nonBlank (.str s : Json F) = .ok s :=
  dif_pos s.2

/-- A relation is read back from its dictionary with sorted keys. -/
theorem GraphRelation.ofDict_arrange (r : GraphRelation) :
    GraphRelation.ofDict (arrange r.toDict : Json F) = .ok r := by
  have hd : Dict.Distinct ([("target", .str r.target), ("type", .str r.type)] :
      Dict String (Json F)) := by
    change ["target", "type"].Nodup
    decide
  rw [toDict, arrange, GraphRelation.ofDict, if_pos, lookup_arrange hd, lookup_arrange hd]
  · change (nonBlank (.str r.target : Json F)).bind (fun target =>
      (nonBlank (.str r.type : Json F)).bind fun type => .ok (GraphRelation.mk target type)) = _
    rw [nonBlank_str, nonBlank_str]
    rfl
  · intro k hk
    rw [mem_keys_arrange] at hk
    simpa using hk

theorem mapM_relations (rs : List GraphRelation) :
    (rs.map fun r => (arrange r.toDict : Json F)).mapM GraphRelation.ofDict = .ok rs := by
  induction rs with
  | nil => rfl
  | cons r rs ih => rw [List.map_cons, List.mapM_cons, GraphRelation.ofDict_arrange, ih]; rfl

/-- A node is read back from its dictionary with sorted keys. -/
theorem GraphNode.ofDict_arrange {n : GraphNode F} (h : n.Plain) :
    GraphNode.ofDict (arrange n.toDict) = .ok n := by
  obtain ⟨notes, hn⟩ := h
  obtain ⟨nodeId, filePath, contentHash, summary, crux, relations, customNotes⟩ := n
  change customNotes = .str notes at hn
  subst hn
  have hd : Dict.Distinct ([("node_id", .str nodeId), ("file_path", .str filePath),
      ("content_hash", .str contentHash), ("summary", .str summary), ("crux", .str crux),
      ("relations", .list (relations.map GraphRelation.toDict)), ("custom_notes", .str notes)] :
      Dict String (Json F)) := by
    change ["node_id", "file_path", "content_hash", "summary", "crux", "relations",
      "custom_notes"].Nodup
    decide
  rw [toDict, arrange, GraphNode.ofDict]
  dsimp only
  rw [getItem]
  simp only [lookup_arrange hd]
  change ((List.mapM GraphRelation.ofDict (arrangeList (relations.map GraphRelation.toDict))).bind
    fun rs => (nonBlank (.str nodeId : Json F)).bind fun id => .ok
      (GraphNode.mk id filePath contentHash summary crux rs (.str notes))) = _
  rw [arrangeList_eq, List.map_map]
  have hm := mapM_relations (F := F) relations
  change (List.mapM GraphRelation.ofDict
    (relations.map fun r => (arrange r.toDict : Json F))).bind _ = _
  rw [hm, nonBlank_str]
  rfl

theorem GraphRelation.toDict_distinct (r : GraphRelation) : (r.toDict : Json F).Distinct := by
  refine ⟨?_, trivial, trivial, trivial⟩
  change ["target", "type"].Nodup
  decide

theorem GraphNode.toDict_distinct {n : GraphNode F} (h : n.Plain) : n.toDict.Distinct := by
  obtain ⟨notes, hn⟩ := h
  rw [toDict, hn]
  refine ⟨?_, trivial, trivial, trivial, trivial, trivial, ?_, trivial, trivial⟩
  · change ["node_id", "file_path", "content_hash", "summary", "crux", "relations",
      "custom_notes"].Nodup
    decide
  · rw [Value.Distinct, distinctList_iff]
    intro v hv
    obtain ⟨r, -, rfl⟩ := List.mem_map.1 hv
    exact r.toDict_distinct

section
variable [FloatText F]

theorem loadText_arrange {n : GraphNode F} (h : n.Plain) :
    loadText (utf8 (dumps .compact (arrange n.toDict))) = .ok (arrange n.toDict) := by
  have hb := Value.build_of_distinct _ (arrange_ordered (GraphNode.toDict_distinct h)).distinct
  rw [loadText, utf8Decode_utf8, Option.bind_some, loads_dumps, hb]

theorem read_encode {n : GraphNode F} (h : n.Plain) :
    ((b64decode (encode n)).bind fun payload => (loadText payload).bind GraphNode.ofDict) =
      .ok n := by
  rw [encode, b64decode_unpadded, Except.bind, loadText_arrange h, Except.bind,
    GraphNode.ofDict_arrange h]

/-- A node is read back from the header that it is written in. -/
theorem decode_header {n : GraphNode F} (h : n.Plain) : decode (header n) = .ok (some n) := by
  have hp : marker.isPrefixOf (header n) = true := by
    rw [List.isPrefixOf_iff_prefix, header, List.append_assoc]
    exact List.prefix_append ..
  have hs : markerEnd.isSuffixOf (header n) = true := by
    rw [List.isSuffixOf_iff_suffix, header]
    exact List.suffix_append ..
  have ht : (header n).length - markerEnd.length = (marker ++ encode n).length := by
    rw [header, List.length_append, Nat.add_sub_cancel]
  have he : ((header n).take ((header n).length - markerEnd.length)).drop marker.length =
      encode n := by
    rw [ht, header, List.take_left, List.drop_left]
  rw [decode, hp, hs, Bool.and_self, if_pos rfl]
  dsimp only
  rw [he, read_encode h]

theorem header_no_newline (n : GraphNode F) : ∀ c ∈ header n, c ≠ '\r' ∧ c ≠ '\n' := by
  intro c hc
  rw [header, List.mem_append, List.mem_append] at hc
  rcases hc with (hc | hc) | hc
  · exact Text.forall_mem_of_all (P := fun c => c ≠ '\r' ∧ c ≠ '\n') (by decide) c hc
  · have hd := (Base64.unpadded_isDigit _ c hc).1.1
    constructor
    · rintro rfl
      exact absurd hd (by decide)
    · rintro rfl
      exact absurd hd (by decide)
  · exact Text.forall_mem_of_all (P := fun c => c ≠ '\r' ∧ c ≠ '\n') (by decide) c hc

/-- The first line of a page is its header, whatever is written below. -/
theorem firstLine_page (n : GraphNode F) : firstLine (page n) = header n := by
  have hcr : '\r' ∉ header n := fun h => (header_no_newline n _ h).1 rfl
  have hn : ∀ c ∈ header n, (c != '\n') = true := fun c hc =>
    bne_iff_ne.2 (header_no_newline n c hc).2
  rw [firstLine, page]
  simp only [List.append_assoc]
  rw [Text.universalNewlines_append_of_no_cr hcr, List.takeWhile_append_of_pos hn]
  exact List.append_nil _

theorem decode_page {n : GraphNode F} (h : n.Plain) :
    decode (firstLine (page n)) = .ok (some n) := by
  rw [firstLine_page, decode_header h]

end

end Obase.GraphStorage
