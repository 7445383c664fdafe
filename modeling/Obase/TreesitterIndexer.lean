import Mathlib.Data.List.Forall2
import Obase.Builtins
import Obase.RoseTree

namespace Obase.TreesitterIndexer
set_option autoImplicit true
open RoseTree

inductive SymbolKind where
  | function
  | classKind
  | method
deriving DecidableEq

/-- `SymbolRecord`. -/
structure SymbolRecord where
  name : List Char
  kind : SymbolKind
  path : String
  language : String
  line : Nat
  column : Nat
  signature : List Char

/-- What the walk reads of a node of the syntax tree; its bytes are those of the UTF-8 text. -/
structure Node where
  type : String
  isNamed : Bool
  startByte : Nat
  endByte : Nat
  startPoint : Nat × Nat
deriving DecidableEq

abbrev Tree := RoseTree Node

/-- `_LANG_QUERIES`. -/
def langQueries : List (String × List String) :=
  [("python", ["function_definition", "class_definition"]),
    ("typescript", ["function_declaration", "class_declaration", "method_definition"]),
    ("javascript", ["function_declaration", "class_declaration", "method_definition"]),
    ("go", ["function_declaration", "type_declaration"]),
    ("rust", ["function_item", "struct_item"]),
    ("java", ["method_declaration", "class_declaration"]),
    ("c", ["function_definition"]),
    ("cpp", ["function_definition", "class_specifier"]),
    ("ruby", ["method", "class"]),
    ("csharp", ["method_declaration", "class_declaration"])]

/-- `_LANG_QUERIES.get(language, ())`. -/
def queries (language : String) : List String := (langQueries.lookup language).getD []

/-- `source[start:stop]`. -/
def slice (source : List Char) (start stop : Nat) : List Char := (source.take stop).drop start

/-- `sub in text`. -/
def occurs (sub text : String) : Bool := sub.toList <:+: text.toList

/-- `_ts_name_node`. -/
def nameNode (children : List Tree) : Option Node :=
  match children.find? fun t => t.label.type ∈ ["identifier", "name", "type_identifier"] with
  | some t => some t.label
  | none => (children.find? fun t => t.label.isNamed).map label

/-- `_ts_signature`, `none` for an `IndexError`. -/
def signature (source : List Char) (n : Node) : Option (List Char) :=
  (Text.splitlines (slice source n.startByte n.endByte)).head?.map fun line => line.take 120

def kindOf (type : String) (parent : Option String) : SymbolKind :=
  if occurs "class" type then .classKind
  else if occurs "method" type ∨ parent.any (fun p => p ∈ ["class_body", "class_definition"]) then
    .method
  else .function

section
variable (source : List Char) (path language : String)

/-- The record of a node, if it gets one. -/
def ownRecord (n : Node) (children : List Tree) (parent : Option String) :
    Option (List SymbolRecord) :=
  if n.type ∈ queries language then
    match nameNode children with
    | some m => (signature source n).map fun sig =>
        [⟨slice source m.startByte m.endByte, kindOf n.type parent, path, language,
          n.startPoint.1 + 1, n.startPoint.2, sig⟩]
    | none => some []
  else some []

mutual

/-- `_walk_ts`: the records that it appends, `none` where it raises. -/
def walkTs : Tree → Option String → Nat → Option (List SymbolRecord)
  | .node n children, parent, depth =>
    if 12 < depth then some []
    else do
      let own ← ownRecord source path language n children parent
      let below ← walkChildren children (some n.type) (depth + 1)
      pure (own ++ below)

def walkChildren : List Tree → Option String → Nat → Option (List SymbolRecord)
  | [], _, _ => some []
  | t :: ts, parent, depth => do
    let first ← walkTs t parent depth
    let rest ← walkChildren ts parent depth
    pure (first ++ rest)

end
end

/-- The text of the bytes of a node. -/
def TextOf (source : List Char) (n : Node) (text : List Char) : Prop :=
  ∃ pre post, source = pre ++ text ++ post ∧ (utf8 pre).length = n.startByte ∧
    (utf8 (pre ++ text)).length = n.endByte

/-- A tree over the bytes of a source: the nodes have texts, and definitions have some text. -/
def TreeOver (source : List Char) (language : String) (t : Tree) : Prop :=
  t.height ≤ 13 ∧ ∀ s, Within s t → ∃ text, TextOf source s.label text ∧
    (s.label.type ∈ queries language → text ≠ [])

def isDefinition (language : String) (t : Tree) : Bool :=
  t.label.type ∈ queries language ∧ (nameNode t.children).isSome

/-- The record of a definition has its name and the first line of it. -/
def Describes (source : List Char) (d : Tree) (r : SymbolRecord) : Prop :=
  ∃ m text, nameNode d.children = some m ∧ TextOf source m r.name ∧ TextOf source d.label text ∧
    (Text.splitlines text).head?.map (fun line => line.take 120) = some r.signature

/-- The walk finds the definitions of a tree. -/
def Extracts (source : List Char) (path language : String) (t : Tree) : Prop :=
  ∃ records, walkTs source path language t none 0 = some records ∧
    List.Forall₂ (Describes source) (t.preorder.filter fun d => isDefinition language d) records

theorem length_le_length_utf8 (cs : List Char) : cs.length ≤ (utf8 cs).length := by
  induction cs with
  | nil => exact Nat.le_refl 0
  | cons c cs ih =>
    have hpos := c.utf8Size_pos
    rw [utf8_cons, List.length_append, String.length_utf8EncodeChar, List.length_cons]
    omega

theorem length_utf8_of_ascii {cs : List Char} (h : ∀ c ∈ cs, c.toNat < 128) :
    (utf8 cs).length = cs.length := by
  rw [utf8_ascii h, List.length_map]

theorem eq_nil_of_utf8_length {cs ds : List Char}
    (h : (utf8 (cs ++ ds)).length = (utf8 cs).length) : ds = [] := by
  have hle := length_le_length_utf8 ds
  rw [utf8_append, List.length_append] at h
  exact List.length_eq_zero_iff.1 (by omega)

/-- A text begins with only one text of a number of bytes. -/
theorem append_inj_of_utf8_length {p q s t : List Char} (h : p ++ s = q ++ t)
    (hl : (utf8 p).length = (utf8 q).length) : p = q ∧ s = t := by
  have hpq : p = q := by
    rcases List.append_eq_append_iff.1 h with ⟨r, rfl, -⟩ | ⟨r, rfl, -⟩
    · rw [eq_nil_of_utf8_length hl.symm, List.append_nil]
    · rw [eq_nil_of_utf8_length hl, List.append_nil]
  subst hpq
  exact ⟨rfl, List.append_cancel_left h⟩

theorem TextOf.unique {source : List Char} {n : Node} {a b : List Char} (ha : TextOf source n a)
    (hb : TextOf source n b) : a = b := by
  obtain ⟨p, s, rfl, hp, hpa⟩ := ha
  obtain ⟨q, t, he, hq, hqb⟩ := hb
  rw [List.append_assoc, List.append_assoc] at he
  obtain ⟨rfl, hrest⟩ := append_inj_of_utf8_length he (hp.trans hq.symm)
  rw [utf8_append, List.length_append] at hpa hqb
  exact (append_inj_of_utf8_length hrest (by omega)).1

/-- All characters but the last are of one byte. -/
def SingleBytes (source : List Char) : Prop := ∀ c ∈ source.dropLast, c.toNat < 128

/-- The bytes of a node are its characters where only the last one of the source is longer. -/
theorem slice_of_textOf {source text : List Char} {n : Node} (hs : SingleBytes source)
    (h : TextOf source n text) : slice source n.startByte n.endByte = text := by
  obtain ⟨pre, post, rfl, hstart, hend⟩ := h
  rw [slice, ← hstart, ← hend]
  rcases List.eq_nil_or_concat' post with rfl | ⟨post, c, rfl⟩
  · rw [List.append_nil] at hs ⊢
    rw [List.take_of_length_le (length_le_length_utf8 _)]
    rcases List.eq_nil_or_concat' text with rfl | ⟨text, c, rfl⟩
    · rw [List.append_nil]
      exact List.drop_eq_nil_of_le (length_le_length_utf8 pre)
    · rw [← List.append_assoc, SingleBytes, List.dropLast_concat] at hs
      rw [length_utf8_of_ascii fun c hc => hs c (List.mem_append_left _ hc), List.drop_left]
  · rw [← List.append_assoc, SingleBytes, List.dropLast_concat] at hs
    have hpt (c : Char) (hc : c ∈ pre ++ text) : c.toNat < 128 := hs c (List.mem_append_left _ hc)
    have hp (c : Char) (hc : c ∈ pre) : c.toNat < 128 := hpt c (List.mem_append_left _ hc)
    rw [length_utf8_of_ascii hpt, length_utf8_of_ascii hp, List.take_left, List.drop_left]

theorem splitlines_ne_nil {text : List Char} (h : text ≠ []) : Text.splitlines text ≠ [] := by
  rw [Text.splitlines]
  cases hu : Text.universalNewlines text with
  | nil =>
    exfalso
    revert hu
    fun_cases Text.universalNewlines text <;> simp_all
  | cons c cs => exact Text.lines_ne_nil

/-- What the walk of a tree gives, and that of its children. -/
def Finds (source : List Char) (language : String) (ds : List Tree)
    (r : Option (List SymbolRecord)) : Prop :=
  ∃ records, r = some records ∧
    List.Forall₂ (Describes source) (ds.filter fun d => isDefinition language d) records

theorem Finds.append {source : List Char} {language : String} {ds es : List Tree}
    {r q : Option (List SymbolRecord)} (h : Finds source language ds r)
    (k : Finds source language es q) :
    Finds source language (ds ++ es) (do
      let a ← r
      let b ← q
      pure (a ++ b)) := by
  obtain ⟨a, rfl, ha⟩ := h
  obtain ⟨b, rfl, hb⟩ := k
  refine ⟨a ++ b, rfl, ?_⟩
  rw [List.filter_append]
  exact List.rel_append ha hb

theorem mem_of_nameNode {children : List Tree} {m : Node} (h : nameNode children = some m) :
    ∃ t ∈ children, t.label = m := by
  rw [nameNode] at h
  split at h
  · rename_i t ht
    exact ⟨t, List.mem_of_find?_eq_some ht, Option.some.inj h⟩
  · obtain ⟨t, ht, he⟩ := Option.map_eq_some_iff.1 h
    exact ⟨t, List.mem_of_find?_eq_some ht, he⟩

theorem isDefinition_node (language : String) (n : Node) (children : List Tree) :
    isDefinition language (.node n children) =
      decide (n.type ∈ queries language ∧ (nameNode children).isSome = true) :=
  rfl

/-- The record of a node is right where slices of the source are. -/
theorem finds_ownRecord {source : List Char} {language : String}
    (hs : queries language ≠ [] → SingleBytes source) (path : String)
    {n : Node} {children : List Tree} (parent : Option String)
    (ht : ∀ s, Within s (.node n children) → ∃ text, TextOf source s.label text ∧
      (s.label.type ∈ queries language → text ≠ [])) :
    Finds source language [.node n children]
      (ownRecord source path language n children parent) := by
  rw [ownRecord]
  by_cases hq : n.type ∈ queries language
  · rw [if_pos hq]
    cases hm : nameNode children with
    | none =>
      refine ⟨[], rfl, ?_⟩
      rw [List.filter_cons_of_neg]
      · exact .nil
      · rw [isDefinition_node, hm, decide_eq_true_eq]
        exact fun h => (nomatch h.2)
    | some m =>
      have hsb := hs (List.ne_nil_of_mem hq)
      obtain ⟨t, htm, rfl⟩ := mem_of_nameNode hm
      obtain ⟨name, hname, -⟩ := ht t (.child htm (.refl t))
      obtain ⟨text, htext, hne⟩ := ht (.node n children) (.refl _)
      obtain ⟨line, lines, hl⟩ := List.exists_cons_of_ne_nil (splitlines_ne_nil (hne hq))
      have hslice : slice source n.startByte n.endByte = text := slice_of_textOf hsb htext
      have hsig : signature source n = some (line.take 120) := by
        rw [signature, hslice, hl]
        rfl
      dsimp only
      rw [hsig, slice_of_textOf hsb hname]
      refine ⟨_, rfl, ?_⟩
      rw [List.filter_cons_of_pos]
      · refine .cons ⟨t.label, text, hm, hname, htext, ?_⟩ .nil
        rw [hl]
        rfl
      · rw [isDefinition_node, hm, decide_eq_true_eq]
        exact ⟨hq, rfl⟩
  · rw [if_neg hq]
    refine ⟨[], rfl, ?_⟩
    rw [List.filter_cons_of_neg]
    · exact .nil
    · rw [isDefinition_node, decide_eq_true_eq]
      exact fun h => hq h.1

theorem finds_walkTs {source : List Char} {language : String}
    (hs : queries language ≠ [] → SingleBytes source) (path : String) {t : Tree}
    (ht : ∀ s, Within s t → ∃ text, TextOf source s.label text ∧
      (s.label.type ∈ queries language → text ≠ [])) (parent : Option String) {depth : Nat}
    (hd : depth + t.height ≤ 13) :
    Finds source language t.preorder (walkTs source path language t parent depth) := by
  induction t using RoseTree.ind generalizing parent depth with
  | node n children ih =>
    have hchildren {ts : List Tree} (hsub : ∀ c ∈ ts, c ∈ children) :
        Finds source language (preorder.preorders ts)
          (walkChildren source path language ts (some n.type) (depth + 1)) := by
      induction ts with
      | nil => exact ⟨[], rfl, .nil⟩
      | cons c ts ihts =>
        rw [List.forall_mem_cons] at hsub
        rw [preorder.preorders, walkChildren]
        refine (ih c hsub.1 (fun s hw => ht s (.child hsub.1 hw)) _ ?_).append (ihts hsub.2)
        have hle := heights_le_iff.1 (Nat.le_refl _) c hsub.1
        rw [height] at hd
        omega
    have hown := finds_ownRecord hs path parent ht
    rw [preorder, walkTs, if_neg]
    · exact hown.append (hchildren fun c hc => hc)
    · rw [height] at hd
      omega

/-- A definition, and its name, of the bytes between two places. -/
def sample (type : String) (startByte endByte : Nat) : Tree :=
  .node ⟨type, true, startByte, endByte, (0, 0)⟩
    [.node ⟨"identifier", true, startByte, endByte, (0, 0)⟩ []]

theorem sample_over {source text : List Char} (type : String) {startByte endByte : Nat}
    (ht : TextOf source ⟨"identifier", true, startByte, endByte, (0, 0)⟩ text) (hne : text ≠ [])
    (language : String) : TreeOver source language (sample type startByte endByte) := by
  refine ⟨by simp [sample, height, height.heights], fun s hs => ⟨text, ?_, fun _ => hne⟩⟩
  rcases within_node.1 hs with rfl | ⟨t, hm, hs⟩
  · exact ht
  · rw [List.mem_singleton.1 hm] at hs
    rcases within_node.1 hs with rfl | ⟨t, hm, -⟩
    · exact ht
    · cases hm

/-- The name of a sample is what a slice gives. -/
theorem name_of_extracts {source text : List Char} {path language type : String}
    {startByte endByte : Nat} (htype : type ∈ queries language)
    (h : Extracts source path language (sample type startByte endByte))
    (ht : TextOf source ⟨"identifier", true, startByte, endByte, (0, 0)⟩ text) :
    slice source startByte endByte = text := by
  obtain ⟨records, hw, hr⟩ := h
  have hname : nameNode [.node ⟨"identifier", true, startByte, endByte, (0, 0)⟩ []] =
      some ⟨"identifier", true, startByte, endByte, (0, 0)⟩ := rfl
  have hleaf (parent : Option String) : walkChildren source path language
      [.node ⟨"identifier", true, startByte, endByte, (0, 0)⟩ []] parent 1 = some [] := by
    simp [walkChildren, walkTs, ownRecord, nameNode]
  have hdefs : (sample type startByte endByte).preorder.filter
      (fun d => isDefinition language d) = [sample type startByte endByte] := by
    have hpre : (sample type startByte endByte).preorder = [sample type startByte endByte,
        .node ⟨"identifier", true, startByte, endByte, (0, 0)⟩ []] := rfl
    rw [hpre, List.filter_cons_of_pos, List.filter_cons_of_neg, List.filter_nil]
    · rw [isDefinition_node, decide_eq_true_eq]
      exact fun h => (nomatch h.2)
    · rw [sample, isDefinition_node, hname, decide_eq_true_eq]
      exact ⟨htype, rfl⟩
  rw [hdefs] at hr
  obtain ⟨r, rest, hd, hnil, rfl⟩ := List.forall₂_cons_left_iff.1 hr
  rw [List.forall₂_nil_left_iff.1 hnil, sample, walkTs, if_neg (by decide), ownRecord,
    if_pos htype, hname, hleaf] at hw
  obtain ⟨m, def₀, hm, htext, -⟩ := hd
  cases hname.symm.trans hm
  rw [ht.unique htext]
  cases hsig : signature source ⟨type, true, startByte, endByte, (0, 0)⟩ with
  | none =>
    rw [hsig] at hw
    cases hw
  | some sig =>
    rw [hsig] at hw
    cases hw
    rfl

/-- A source with a longer character before its last one has a tree with a wrong name. -/
theorem singleBytes_of_extracts {source : List Char} {path language type : String}
    (htype : type ∈ queries language)
    (h : ∀ t, TreeOver source language t → Extracts source path language t) :
    SingleBytes source := by
  intro c hc
  by_contra hlong
  obtain ⟨pre, mid, he⟩ := List.append_of_mem hc
  have hne : source ≠ [] := by
    rintro rfl
    cases hc
  have hsource : source = (pre ++ [c]) ++ (mid ++ [source.getLast hne]) := by
    rw [← List.append_assoc, List.append_assoc pre, List.singleton_append, ← he,
      List.dropLast_append_getLast]
  have hrest : mid ++ [source.getLast hne] ≠ [] := by simp
  generalize mid ++ [source.getLast hne] = rest at hsource hrest
  have htext (m : Node) (hstart : m.startByte = (utf8 (pre ++ [c])).length)
      (hend : m.endByte = (utf8 source).length) : TextOf source m rest := by
    refine ⟨pre ++ [c], [], ?_, hstart.symm, ?_⟩
    · rw [List.append_nil]
      exact hsource
    · rw [← hsource, hend]
  have hover := sample_over type (htext ⟨"identifier", true, (utf8 (pre ++ [c])).length,
    (utf8 source).length, (0, 0)⟩ rfl rfl) hrest language
  have hslice := name_of_extracts htype (h _ hover) (htext _ rfl rfl)
  have hlen := congrArg List.length hslice
  have hbytes : pre.length + 1 < (utf8 (pre ++ [c])).length := by
    have hle := length_le_length_utf8 pre
    have hpos := c.utf8Size_pos
    have hone : c.utf8Size ≠ 1 := by
      rw [Ne, Char.utf8Size_eq_one_iff]
      exact fun hv => hlong (Nat.lt_succ_of_le (UInt32.le_iff_toNat_le.1 hv))
    rw [utf8_append, List.length_append, utf8_cons, List.length_append,
      String.length_utf8EncodeChar]
    omega
  have hsl := congrArg List.length hsource
  have hpos := List.length_pos_iff.2 hrest
  rw [slice, List.length_drop, List.length_take] at hlen
  simp only [List.length_append, List.length_singleton] at hsl
  omega

/-- The walk finds what is there if and only if places of bytes are places of characters. -/
theorem extracts_iff (source : List Char) (path language : String) :
    (∀ t, TreeOver source language t → Extracts source path language t) ↔
      queries language = [] ∨ SingleBytes source := by
  constructor
  · intro h
    cases hq : queries language with
    | nil => exact .inl rfl
    | cons type types =>
      have hm : type ∈ queries language := by
        rw [hq]
        exact .head _
      exact .inr (singleBytes_of_extracts hm h)
  · rintro hs t ⟨hh, ht⟩
    exact finds_walkTs hs.resolve_left path ht none (by omega)

/-- One accented letter before a definition shifts its name. -/
theorem accent_shifts : TreeOver ['é', 'f', 'o', 'o'] "python" (sample "function_definition" 2 5) ∧
    ¬ Extracts ['é', 'f', 'o', 'o'] "a.py" "python" (sample "function_definition" 2 5) := by
  have ht : TextOf ['é', 'f', 'o', 'o'] ⟨"identifier", true, 2, 5, (0, 0)⟩ ['f', 'o', 'o'] :=
    ⟨['é'], [], rfl, by decide +kernel, by decide +kernel⟩
  refine ⟨sample_over _ ht (by decide) _, fun h => ?_⟩
  have hs := name_of_extracts (by decide) h ht
  revert hs
  decide

end Obase.TreesitterIndexer
