import Obase.Dict
import Obase.Fallible
import Obase.Separated
import Obase.Text

namespace Obase.ToolSchema
set_option autoImplicit true
open Text

/-- `Args:`. -/
def argsHeader : List Char := ['A', 'r', 'g', 's', ':']

/-- `_SECTION_HEADERS`. -/
def sectionHeaders : List (List Char) :=
  [['R', 'e', 't', 'u', 'r', 'n', 's', ':'], ['R', 'a', 'i', 's', 'e', 's', ':'],
    ['Y', 'i', 'e', 'l', 'd', 's', ':'], ['E', 'x', 'a', 'm', 'p', 'l', 'e', 's', ':'],
    ['N', 'o', 't', 'e', ':'], ['N', 'o', 't', 'e', 's', ':']]

/-- The variables of `_parse_docstring_args`. -/
structure Scan where
  inArgs : Bool
  result : Dict String String
  currentArg : Option (List Char)
  currentDesc : List (List Char)
  argIndent : Option Nat

def Scan.start : Scan := ⟨false, [], none, [], none⟩

/-- `" ".join(current_desc).strip()`. -/
def joined (desc : List (List Char)) : String := String.ofList (strip ([' '].intercalate desc))

/-- The result with the current argument in it, unless that has no name. -/
def Scan.flush (s : Scan) : Dict String String :=
  match s.currentArg with
  | none => s.result
  | some name =>
    if name = [] then s.result else s.result.set (String.ofList name) (joined s.currentDesc)

/-- `len(line) - len(line.lstrip())`. -/
def indentation (line : List Char) : Nat := line.length - (line.dropWhile isSpace).length

/-- The name before the first colon. -/
def entryName (stripped : List Char) : List Char := strip (stripped.takeWhile (· ≠ ':'))

/-- What follows the first colon, as the first lines of a description. -/
def entryDesc (stripped : List Char) : List (List Char) :=
  let rest := strip (stripped.dropWhile (· ≠ ':')).tail
  if rest = [] then [] else [rest]

/-- The body of the loop over the lines; `none` for the `break`. -/
def Scan.step (s : Scan) (line : List Char) : Option Scan :=
  let stripped := strip line
  if stripped = argsHeader then some { s with inArgs := true }
  else if s.inArgs = false then some s
  else if stripped = [] then some s
  else if stripped ∈ sectionHeaders then none
  else
    let indent := indentation line
    let argIndent := s.argIndent.getD indent
    if indent = argIndent ∧ ':' ∈ stripped then
      some ⟨true, s.flush, some (entryName stripped), entryDesc stripped, some argIndent⟩
    else if argIndent < indent ∧ s.currentArg ≠ none then
      some ⟨true, s.result, s.currentArg, s.currentDesc ++ [stripped], some argIndent⟩
    else some ⟨true, s.result, s.currentArg, s.currentDesc, some argIndent⟩

def scan : Scan → List (List Char) → Scan
  | s, [] => s
  | s, line :: lines =>
    match s.step line with
    | none => s
    | some t => scan t lines

/-- `_parse_docstring_args`. -/
def parseDocstringArgs (docstring : List Char) : Dict String String :=
  (scan .start (docstring.splitOn '\n')).flush

inductive Kind where
  | positionalOnly
  | positionalOrKeyword
  | varPositional
  | keywordOnly
  | varKeyword
deriving DecidableEq

/-- A type hint: its `__name__`, or else its text, and whether its `__origin__` is `tuple`. -/
structure Annot where
  typeName : String
  tupleOrigin : Bool

structure Parameter (V : Type) where
  name : String
  kind : Kind
  hint : Option Annot
  default : Option V

structure Function (V : Type) where
  name : String
  doc : Option (List Char)
  parameters : List (Parameter V)

structure Field (V : Type) where
  name : String
  annot : Annot
  default : Option V
  description : String

/-- `_FORBIDDEN_TYPE_HINTS`. -/
def forbiddenTypeHints : Dict String String :=
  [("Path", "use str instead"), ("datetime", "use ISO 8601 string instead"),
    ("date", "use ISO 8601 string instead"), ("bytes", "use base64-encoded str instead"),
    ("tuple", "use list or separate parameters")]

/-- `_validate_param_type`; an error is the message of a `RuntimeError`. -/
def validateParamType (name : String) (annot : Annot) (fnName : String) : Except String Unit :=
  match forbiddenTypeHints.lookup annot.typeName with
  | some hint => .error (fnName ++ ": parameter '" ++ name ++ "' has forbidden type '" ++
      annot.typeName ++ "' (" ++ hint ++ ")")
  | none =>
    if annot.tupleOrigin then .error (fnName ++ ": parameter '" ++ name ++
      "' type tuple not allowed (LLM struggles with tuples). " ++
      "Use list or split into multiple params.")
    else .ok ()

/-- The loop of `build_args_model` over the parameters of a signature. -/
def argsFields (fnName : String) (docstringArgs : Dict String String) :
    List (Parameter V) → Except String (List (Field V))
  | [] => .ok []
  | p :: ps =>
    if p.kind ≠ .keywordOnly then .error (fnName ++ ": parameter '" ++ p.name ++
      "' must be keyword-only (use * separator). This is required for stable LLM tool calls.")
    else
      match p.hint with
      | none => .error (fnName ++ ": parameter '" ++ p.name ++ "' missing type annotation")
      | some annot => do
        validateParamType p.name annot fnName
        let fields ← argsFields fnName docstringArgs ps
        .ok (⟨p.name, annot, p.default, (docstringArgs.lookup p.name).getD ""⟩ :: fields)

/-- The fields that `build_args_model` makes a model of. -/
def buildArgsModel (fn : Function V) : Except String (List (Field V)) :=
  argsFields fn.name (parseDocstringArgs (fn.doc.getD [])) fn.parameters

/-- A line: its text and the space around it. -/
structure Line where
  pad : List Char
  text : List Char
  trail : List Char
  pad_space : ∀ c ∈ pad, isSpace c = true
  trail_space : ∀ c ∈ trail, isSpace c = true
  trimmed : text ≠ [] → Trimmed isSpace text
  one_line : '\n' ∉ pad ++ (text ++ trail)

def Line.chars (l : Line) : List Char := l.pad ++ (l.text ++ l.trail)

/-- How deep a line is. -/
def Line.indent (l : Line) : Nat := l.pad.length

/-- A parameter of an `Args:` section with its names this deep: the line with its name, and the
lines below that its description goes on in. -/
structure Param (depth : Nat) where
  line : Line
  name : List Char
  rest : List Char
  reads : line.text = name ++ ':' :: rest
  name_trimmed : Trimmed isSpace name
  name_colon : ':' ∉ name
  at_depth : line.indent = depth
  more : List Line
  deeper : ∀ l ∈ more, l.text ≠ [] → depth < l.indent

def Param.lines (p : Param depth) : List Line := p.line :: p.more

/-- The lines of a description, without blank ones. -/
def Param.desc (p : Param depth) : List (List Char) :=
  (strip p.rest :: p.more.map Line.text).filter (· ≠ [])

/-- A docstring up to the end of its `Args:` section. -/
structure Opening where
  summary : List Line
  summary_other : ∀ l ∈ summary, l.text ≠ argsHeader
  header : Line
  reads : header.text = argsHeader
  blank : List Line
  blank_text : ∀ l ∈ blank, l.text = []
  depth : Nat
  deeper : header.indent < depth
  params : List (Param depth)
  distinct : (params.map Param.name).Nodup

def Opening.lines (o : Opening) : List Line :=
  o.summary ++ o.header :: (o.blank ++ o.params.flatMap Param.lines)

/-- The map from each parameter to its description. -/
def Opening.descriptions (o : Opening) : Dict String String :=
  o.params.map fun p => (String.ofList p.name, String.ofList ([' '].intercalate p.desc))

/-- The first line of another section: a word and a colon. -/
structure Heading (indent : Nat) where
  line : Line
  word : List Char
  reads : line.text = word ++ [':']
  word_ne_nil : word ≠ []
  word_chars : ∀ c ∈ word, isSpace c = false ∧ c ≠ ':'
  other : line.text ≠ argsHeader
  at_indent : line.indent = indent

structure Section (indent : Nat) where
  heading : Heading indent
  content : List Line
  deeper : ∀ l ∈ content, l.text ≠ [] → indent < l.indent

def Section.lines (s : Section indent) : List Line := s.heading.line :: s.content

section
variable (o : Opening) (ss : List (Section o.header.indent))

def docstring : List Char :=
  ['\n'].intercalate ((o.lines ++ ss.flatMap Section.lines).map Line.chars)

/-- The parser reads the `Args:` section of the docstring and nothing else, and so do the
descriptions of the fields of a function with the docstring. -/
def Right : Prop :=
  (∀ name, (parseDocstringArgs (docstring o ss)).lookup name = o.descriptions.lookup name) ∧
    ∀ (V : Type) (fn : Function V) fields, fn.doc = some (docstring o ss) →
      buildArgsModel fn = .ok fields →
        ∀ f ∈ fields, f.description = (o.descriptions.lookup f.name).getD ""

/-- No line of the section reads as a header that the parser knows. -/
def Opening.Clear : Prop :=
  ∀ p ∈ o.params, ∀ l ∈ p.lines, l.text ≠ argsHeader ∧ l.text ∉ sectionHeaders

/-- The lines that say something, up to the first header that the parser knows. -/
def heard (ls : List Line) : List Line :=
  (ls.takeWhile fun l => l.text ∉ sectionHeaders).filter fun l => l.text ≠ [] ∧ l.text ≠ argsHeader

/-- The first of the other sections has a header that the parser knows. -/
def Ends (hs : List (Heading d)) : Prop := ∀ h ∈ hs.head?, h.line.text ∈ sectionHeaders

/-- The other sections say nothing that looks like a part of the `Args:` section. -/
def Quiet : Prop :=
  ∀ l ∈ heard (ss.flatMap Section.lines), o.params ≠ [] ∧
    (l.indent < o.depth ∨ l.indent = o.depth ∧ ':' ∉ l.text)

end

theorem Line.strip_chars (l : Line) : strip l.chars = l.text := by
  by_cases ht : l.text = []
  · rw [chars, ht, List.nil_append, strip, trim, List.dropWhile_eq_nil_iff.2]
    · rfl
    · intro c hc
      rcases List.mem_append.1 hc with hc | hc
      · exact l.pad_space c hc
      · exact l.trail_space c hc
  · exact trim_of_trimmed (l.trimmed ht) l.pad_space l.trail_space

theorem Line.indentation_chars (l : Line) (h : l.text ≠ []) : indentation l.chars = l.indent := by
  obtain ⟨c, hc, hs, -⟩ := l.trimmed h
  obtain ⟨cs, ht⟩ : ∃ cs, l.text = c :: cs := List.head?_eq_some_iff.1 hc
  rw [indentation, chars, ht, List.dropWhile_append_of_pos l.pad_space, List.cons_append,
    List.dropWhile_cons_of_neg (by rw [hs]; exact Bool.false_ne_true), List.length_append, indent]
  omega

/-- Every line of a text is one. -/
theorem exists_line {cs : List Char} (h : '\n' ∉ cs) : ∃ l : Line, l.chars = cs := by
  obtain ⟨w, w', he, hw, hw'⟩ := trim_split isSpace cs
  exact ⟨⟨w, trim isSpace cs, w', hw, hw', fun ht => trim_trimmed ht, he ▸ h⟩, he.symm⟩

variable {s t : Scan} {l : Line} {d : Nat}

theorem step_blank (h : l.text = []) : s.step l.chars = some s := by
  rw [Scan.step, l.strip_chars, h, if_neg (by decide), if_pos rfl]
  by_cases hi : s.inArgs = false
  · rw [if_pos hi]
  · rw [if_neg hi]

theorem step_header (h : l.text = argsHeader) :
    s.step l.chars = some { s with inArgs := true } := by
  rw [Scan.step, l.strip_chars, if_pos h]

theorem step_out (hs : s.inArgs = false) (h : l.text ≠ argsHeader) : s.step l.chars = some s := by
  rw [Scan.step, l.strip_chars, if_neg h, if_pos hs]

theorem step_break (hs : s.inArgs = true) (h : l.text ∈ sectionHeaders) :
    s.step l.chars = none := by
  have ha : l.text ≠ argsHeader := by
    intro he
    rw [he] at h
    revert h
    decide
  have hn : l.text ≠ [] := by
    intro he
    rw [he] at h
    revert h
    decide
  rw [Scan.step, l.strip_chars, if_neg ha, if_neg (by rw [hs]; decide), if_neg hn, if_pos h]

/-- A line that is read for what it says. -/
structure Line.Says (l : Line) : Prop where
  text : l.text ≠ []
  args : l.text ≠ argsHeader
  unlisted : l.text ∉ sectionHeaders

/-- What a step does with a line that is read for what it says. -/
theorem step_line (hs : s.inArgs = true) (h : l.Says) : s.step l.chars =
    if l.indent = s.argIndent.getD l.indent ∧ ':' ∈ l.text then
      some ⟨true, s.flush, some (entryName l.text), entryDesc l.text,
        some (s.argIndent.getD l.indent)⟩
    else if s.argIndent.getD l.indent < l.indent ∧ s.currentArg ≠ none then
      some ⟨true, s.result, s.currentArg, s.currentDesc ++ [l.text],
        some (s.argIndent.getD l.indent)⟩
    else some ⟨true, s.result, s.currentArg, s.currentDesc, some (s.argIndent.getD l.indent)⟩ := by
  rw [Scan.step, l.strip_chars, if_neg h.args, if_neg (by rw [hs]; decide), if_neg h.text,
    if_neg h.unlisted, l.indentation_chars h.text]

theorem step_entry (hs : s.inArgs = true) (h : l.Says) (hd : s.argIndent.getD l.indent = l.indent)
    (hc : ':' ∈ l.text) : s.step l.chars =
      some ⟨true, s.flush, some (entryName l.text), entryDesc l.text, some l.indent⟩ := by
  rw [step_line hs h, hd, if_pos ⟨rfl, hc⟩]

theorem step_more (hs : s.inArgs = true) (h : l.Says) (hd : s.argIndent = some d)
    (hl : d < l.indent) {name : List Char} (hn : s.currentArg = some name) : s.step l.chars =
      some ⟨true, s.result, some name, s.currentDesc ++ [l.text], some d⟩ := by
  rw [step_line hs h, hd, Option.getD_some, if_neg fun he => absurd he.1 (by omega),
    if_pos ⟨hl, by rw [hn]; exact Option.some_ne_none _⟩, hn]

theorem step_skip (hs : s.inArgs = true) (h : l.Says) (hd : s.argIndent = some d)
    (hl : l.indent < d ∨ l.indent = d ∧ ':' ∉ l.text) : s.step l.chars = some s := by
  rw [step_line hs h, hd, Option.getD_some, if_neg fun he => ?_, if_neg fun he => ?_]
  · obtain ⟨a, r, n, ds, i⟩ := s
    cases hs
    cases hd
    rfl
  · obtain ⟨he, -⟩ := he
    omega
  · rcases hl with hl | hl
    · obtain ⟨he, -⟩ := he
      omega
    · exact hl.2 he.2

theorem scan_append {ls : List (List Char)} (h : ls.foldlM Scan.step s = some t)
    (ms : List (List Char)) : scan s (ls ++ ms) = scan t ms := by
  induction ls generalizing s with
  | nil =>
    cases h
    rfl
  | cons l ls ih =>
    rw [List.foldlM_cons] at h
    obtain ⟨u, hu, h⟩ := Option.bind_eq_some_iff.1 h
    rw [List.cons_append, scan, hu]
    exact ih h

theorem foldlM_blank {ls : List Line} (h : ∀ l ∈ ls, l.text = []) :
    (ls.map Line.chars).foldlM Scan.step s = some s := by
  induction ls with
  | nil => rfl
  | cons l ls ih =>
    rw [List.map_cons, List.foldlM_cons, step_blank (h l (.head _))]
    exact ih fun l hl => h l (.tail _ hl)

theorem foldlM_summary {ls : List Line} (hs : s.inArgs = false)
    (h : ∀ l ∈ ls, l.text ≠ argsHeader) :
    (ls.map Line.chars).foldlM Scan.step s = some s := by
  induction ls with
  | nil => rfl
  | cons l ls ih =>
    rw [List.map_cons, List.foldlM_cons, step_out hs (h l (.head _))]
    exact ih fun l hl => h l (.tail _ hl)

/-- The scan where the parameters begin. -/
def opened : Scan := ⟨true, [], none, [], none⟩

/-- The scan of a docstring is one of its parameters and the other sections. -/
theorem scan_docstring (o : Opening) (ls : List Line) :
    scan .start ((o.lines ++ ls).map Line.chars) =
      scan opened ((o.params.flatMap Param.lines ++ ls).map Line.chars) := by
  rw [Opening.lines, List.append_assoc, List.map_append,
    scan_append (foldlM_summary rfl o.summary_other), List.cons_append, List.map_cons, scan,
    step_header o.reads, List.append_assoc, List.map_append, List.map_append]
  exact scan_append (foldlM_blank o.blank_text) _

theorem splitOn_docstring (o : Opening) (ss : List (Section o.header.indent)) :
    (docstring o ss).splitOn '\n' = (o.lines ++ ss.flatMap Section.lines).map Line.chars := by
  apply List.splitOn_intercalate
  · intro cs hc
    obtain ⟨l, -, rfl⟩ := List.mem_map.1 hc
    exact l.one_line
  · rw [Opening.lines]
    simp

theorem parse_docstring (o : Opening) (ss : List (Section o.header.indent)) :
    parseDocstringArgs (docstring o ss) =
      (scan opened ((o.params.flatMap Param.lines ++ ss.flatMap Section.lines).map
        Line.chars)).flush := by
  rw [parseDocstringArgs, splitOn_docstring, scan_docstring]

theorem before_colon {name : List Char} (hc : ':' ∉ name) :
    ∀ c ∈ name, decide (c ≠ ':') = true := by
  intro c hm
  rw [decide_eq_true_eq]
  rintro rfl
  exact hc hm

theorem entryName_append {name rest : List Char} (ht : Trimmed isSpace name) (hc : ':' ∉ name) :
    entryName (name ++ ':' :: rest) = name := by
  rw [entryName, List.takeWhile_append_of_pos (before_colon hc),
    List.takeWhile_cons_of_neg (by decide), List.append_nil, strip_of_trimmed ht]

section
variable (p : Param d)

theorem Param.colon_mem : ':' ∈ p.line.text := by
  rw [p.reads]
  exact List.mem_append_right _ (List.mem_cons_self ..)

theorem Param.entryName_text : entryName p.line.text = p.name := by
  rw [p.reads, entryName_append p.name_trimmed p.name_colon]

theorem Param.entryDesc_text :
    entryDesc p.line.text = if strip p.rest = [] then [] else [strip p.rest] := by
  rw [entryDesc, p.reads, List.dropWhile_append_of_pos (before_colon p.name_colon),
    List.dropWhile_cons_of_neg (by decide), List.tail_cons]

theorem Param.desc_eq :
    p.desc = entryDesc p.line.text ++ (p.more.map Line.text).filter (· ≠ []) := by
  rw [desc, entryDesc_text]
  by_cases h : strip p.rest = []
  · rw [if_pos h, List.filter_cons_of_neg (by rw [h]; decide), List.nil_append]
  · rw [if_neg h, List.filter_cons_of_pos (by rw [decide_eq_true_eq]; exact h)]
    rfl

theorem Param.text_ne_nil : p.line.text ≠ [] := List.ne_nil_of_mem p.colon_mem

/-- The scan after the lines of a parameter. -/
def Scan.enter (s : Scan) (p : Param d) : Scan := ⟨true, s.flush, some p.name, p.desc, some d⟩

end

theorem foldlM_more {name : List Char} {r : Dict String String} {ls : List Line}
    (hd : ∀ l ∈ ls, l.text ≠ [] → d < l.indent)
    (hl : ∀ l ∈ ls, l.text ≠ argsHeader ∧ l.text ∉ sectionHeaders) (ds : List (List Char)) :
    (ls.map Line.chars).foldlM Scan.step ⟨true, r, some name, ds, some d⟩ =
      some ⟨true, r, some name, ds ++ (ls.map Line.text).filter (· ≠ []), some d⟩ := by
  induction ls generalizing ds with
  | nil => rw [List.map_nil, List.map_nil, List.filter_nil, List.append_nil]; rfl
  | cons l ls ih =>
    have ih := ih (fun l hm => hd l (.tail _ hm)) fun l hm => hl l (.tail _ hm)
    rw [List.map_cons, List.foldlM_cons, List.map_cons]
    by_cases ht : l.text = []
    · rw [step_blank ht, List.filter_cons_of_neg (by rw [ht]; decide)]
      exact ih ds
    · have hs : l.Says := ⟨ht, (hl l (.head _)).1, (hl l (.head _)).2⟩
      rw [step_more rfl hs rfl (hd l (.head _) ht) rfl,
        List.filter_cons_of_pos (by rw [decide_eq_true_eq]; exact ht)]
      have h := ih (ds ++ [l.text])
      rw [List.append_assoc] at h
      exact h

theorem foldlM_param (p : Param d) (hs : s.inArgs = true) (hd : s.argIndent.getD d = d)
    (hl : ∀ l ∈ p.lines, l.text ≠ argsHeader ∧ l.text ∉ sectionHeaders) :
    (p.lines.map Line.chars).foldlM Scan.step s = some (s.enter p) := by
  have hp : p.line.Says := ⟨p.text_ne_nil, (hl _ (.head _)).1, (hl _ (.head _)).2⟩
  rw [Param.lines, List.map_cons, List.foldlM_cons,
    step_entry hs hp (by rw [p.at_depth, hd]) p.colon_mem, p.entryName_text, p.at_depth]
  have h := @foldlM_more d p.name s.flush p.more p.deeper (fun l hm => hl l (.tail _ hm))
    (entryDesc p.line.text)
  rw [← p.desc_eq] at h
  exact h

theorem foldlM_params (ps : List (Param d)) (hs : s.inArgs = true) (hd : s.argIndent.getD d = d)
    (hl : ∀ p ∈ ps, ∀ l ∈ p.lines, l.text ≠ argsHeader ∧ l.text ∉ sectionHeaders) :
    ((ps.flatMap Param.lines).map Line.chars).foldlM Scan.step s =
      some (ps.foldl Scan.enter s) := by
  induction ps generalizing s with
  | nil => rfl
  | cons p ps ih =>
    rw [List.flatMap_cons, List.map_append, List.foldlM_append,
      foldlM_param p hs hd (hl p (.head _))]
    exact ih rfl rfl fun q hq => hl q (.tail _ hq)

theorem trimmed_intercalate {ds : List (List Char)} (hn : ds ≠ [])
    (hd : ∀ d ∈ ds, Trimmed isSpace d) : Trimmed isSpace ([' '].intercalate ds) := by
  induction ds with
  | nil => exact (hn rfl).elim
  | cons d ds ih =>
    cases ds with
    | nil =>
      rw [List.intercalate_singleton]
      exact hd d (.head _)
    | cons e ds =>
      obtain ⟨c, hc, hcs, -⟩ := hd d (.head _)
      obtain ⟨-, -, -, f, hf, hfs⟩ := ih (List.cons_ne_nil _ _) fun d hm => hd d (.tail _ hm)
      rw [List.intercalate_cons_cons]
      refine ⟨c, ?_, hcs, f, ?_, hfs⟩
      · rw [List.append_assoc, List.head?_append, hc, Option.some_or]
      · rw [List.getLast?_append, hf, Option.some_or]

theorem strip_strip (cs : List Char) : strip (strip cs) = strip cs := by
  by_cases h : strip cs = []
  · rw [h]
    rfl
  · exact strip_of_trimmed (trim_trimmed h)

theorem joined_eq {ds : List (List Char)} (hd : ∀ d ∈ ds, Trimmed isSpace d) :
    joined ds = String.ofList ([' '].intercalate ds) := by
  by_cases hn : ds = []
  · subst hn
    rfl
  · rw [joined, strip_of_trimmed (trimmed_intercalate hn hd)]

theorem Param.trimmed_desc (p : Param d) : ∀ ds ∈ p.desc, Trimmed isSpace ds := by
  intro ds hm
  rw [Param.desc, List.mem_filter, decide_eq_true_eq] at hm
  obtain ⟨hm, hn⟩ := hm
  rcases List.mem_cons.1 hm with rfl | hm
  · exact trim_trimmed hn
  · obtain ⟨l, -, rfl⟩ := List.mem_map.1 hm
    exact l.trimmed hn

theorem flush_enter (s : Scan) (p : Param d) : (s.enter p).flush =
    s.flush.set (String.ofList p.name) (String.ofList ([' '].intercalate p.desc)) := by
  rw [← joined_eq p.trimmed_desc, Scan.flush, Scan.enter]
  exact if_neg p.name_trimmed.ne_nil

theorem flush_foldl (ps : List (Param d)) : (ps.foldl Scan.enter s).flush =
    (ps.map fun p => (String.ofList p.name, String.ofList ([' '].intercalate p.desc))).foldl
      (fun m q => m.set q.1 q.2) s.flush := by
  induction ps generalizing s with
  | nil => rfl
  | cons p ps ih => rw [List.foldl_cons, ih, flush_enter, List.map_cons, List.foldl_cons]

theorem distinct_descriptions (o : Opening) : Dict.Distinct o.descriptions := by
  have hi : Function.Injective String.ofList := fun _ _ h => String.ofList_injective h
  have h := o.distinct.map hi
  rw [List.map_map] at h
  rw [Dict.Distinct, Opening.descriptions, Dict.keys, List.map_map]
  exact h

theorem flush_params (o : Opening) : (o.params.foldl Scan.enter opened).flush = o.descriptions := by
  rw [flush_foldl]
  exact Dict.ofPairs_of_distinct (distinct_descriptions o)

theorem inArgs_foldl (ps : List (Param d)) (hs : s.inArgs = true) :
    (ps.foldl Scan.enter s).inArgs = true := by
  induction ps generalizing s with
  | nil => exact hs
  | cons p ps ih => exact ih rfl

theorem argIndent_foldl {ps : List (Param d)} (hn : ps ≠ []) :
    (ps.foldl Scan.enter s).argIndent = some d := by
  obtain ⟨qs, q, rfl⟩ := ps.eq_nil_or_concat.resolve_left hn
  rw [List.concat_eq_append, List.foldl_concat]
  rfl

theorem heard_cons (l : Line) (ls : List Line) : heard (l :: ls) =
    if l.text ∈ sectionHeaders then [] else
      if l.text ≠ [] ∧ l.text ≠ argsHeader then l :: heard ls else heard ls := by
  by_cases hl : l.text ∈ sectionHeaders
  · rw [if_pos hl, heard,
      List.takeWhile_cons_of_neg (by rw [decide_eq_true_eq]; exact not_not_intro hl)]
    rfl
  · rw [if_neg hl, heard, List.takeWhile_cons_of_pos (by rw [decide_eq_true_eq]; exact hl),
      List.filter_cons]
    by_cases hs : l.text ≠ [] ∧ l.text ≠ argsHeader
    · rw [if_pos hs, if_pos (by rw [decide_eq_true_eq]; exact hs)]
      rfl
    · rw [if_neg hs, if_neg (by rw [decide_eq_true_eq]; exact hs)]
      rfl

/-- Lines that say nothing to the scan leave it as it is. -/
theorem scan_quiet (hs : s.inArgs = true) {ls : List Line}
    (h : ∀ l ∈ heard ls, ∃ d, s.argIndent = some d ∧ (l.indent < d ∨ l.indent = d ∧ ':' ∉ l.text)) :
    scan s (ls.map Line.chars) = s := by
  induction ls with
  | nil => rfl
  | cons l ls ih =>
    rw [heard_cons] at h
    rw [List.map_cons, scan]
    by_cases hl : l.text ∈ sectionHeaders
    · rw [step_break hs hl]
    · rw [if_neg hl] at h
      by_cases ht : l.text ≠ [] ∧ l.text ≠ argsHeader
      · rw [if_pos ht] at h
        obtain ⟨d, hd, hq⟩ := h l (.head _)
        rw [step_skip hs ⟨ht.1, ht.2, hl⟩ hd hq]
        exact ih fun l hm => h l (.tail _ hm)
      · rw [if_neg ht] at h
        have hstep : s.step l.chars = some s := by
          rcases not_and_or.1 ht with ht | ht
          · exact step_blank (not_not.1 ht)
          · rw [step_header (not_not.1 ht), ← hs]
        rw [hstep]
        exact ih h

/-- The parser reads the `Args:` section of a docstring whose other sections are quiet. -/
theorem parse_of_quiet {o : Opening} {ss : List (Section o.header.indent)} (hc : o.Clear)
    (hq : Quiet o ss) : parseDocstringArgs (docstring o ss) = o.descriptions := by
  rw [parse_docstring, List.map_append, scan_append (foldlM_params o.params rfl rfl hc),
    scan_quiet (inArgs_foldl _ rfl), flush_params]
  intro l hl
  obtain ⟨hn, hq⟩ := hq l hl
  exact ⟨o.depth, argIndent_foldl hn, hq⟩

theorem description_argsFields {fnName : String} {m : Dict String String} {ps : List (Parameter V)}
    {fields : List (Field V)} (h : argsFields fnName m ps = .ok fields) :
    ∀ f ∈ fields, f.description = (m.lookup f.name).getD "" := by
  induction ps generalizing fields with
  | nil =>
    cases h
    intro f hf
    cases hf
  | cons p ps ih =>
    rw [argsFields] at h
    by_cases hk : p.kind ≠ .keywordOnly
    · rw [if_pos hk] at h
      cases h
    · rw [if_neg hk] at h
      cases ha : p.hint with
      | none =>
        rw [ha] at h
        cases h
      | some annot =>
        rw [ha] at h
        obtain ⟨_, -, h⟩ := bind_ok h
        obtain ⟨gs, hg, h⟩ := bind_ok h
        cases h
        intro f hf
        rcases List.mem_cons.1 hf with rfl | hf
        · rfl
        · exact ih hg f hf

/-- The fields of a function show what the parser reads. -/
theorem right_of_lookup {o : Opening} {ss : List (Section o.header.indent)}
    (h : ∀ name, (parseDocstringArgs (docstring o ss)).lookup name = o.descriptions.lookup name) :
    Right o ss := by
  refine ⟨h, fun V fn fields hf hb f hm => ?_⟩
  rw [description_argsFields hb f hm, hf, Option.getD_some, h]

theorem mem_keys_flush {k : String} : k ∈ Dict.keys s.flush ↔
    k ∈ Dict.keys s.result ∨ ∃ n, s.currentArg = some n ∧ n ≠ [] ∧ k = String.ofList n := by
  cases hn : s.currentArg with
  | none =>
    rw [Scan.flush, hn]
    exact ⟨.inl, fun h => h.resolve_right fun ⟨_, he, _⟩ => (nomatch he)⟩
  | some n =>
    rw [Scan.flush, hn]
    by_cases he : n = []
    · rw [he]
      refine ⟨.inl, fun h => h.resolve_right ?_⟩
      rintro ⟨_, hs, hne, -⟩
      cases hs
      exact hne rfl
    · dsimp only
      rw [if_neg he, Dict.mem_keys_set]
      constructor
      · rintro (rfl | h)
        · exact .inr ⟨n, rfl, he, rfl⟩
        · exact .inl h
      · rintro (h | ⟨_, hs, -, rfl⟩)
        · exact .inr h
        · cases hs
          exact .inl rfl

/-- A step keeps the entries that are there, or begins a new one. -/
theorem step_cases {line : List Char} (h : s.step line = some t) :
    t.result = s.result ∧ t.currentArg = s.currentArg ∨
      t.result = s.flush ∧ t.currentArg = some (entryName (strip line)) ∧
        strip line ≠ argsHeader ∧ strip line ≠ [] := by
  rw [Scan.step] at h
  by_cases ha : strip line = argsHeader
  · rw [if_pos ha] at h
    cases h
    exact .inl ⟨rfl, rfl⟩
  rw [if_neg ha] at h
  by_cases hs : s.inArgs = false
  · rw [if_pos hs] at h
    cases h
    exact .inl ⟨rfl, rfl⟩
  rw [if_neg hs] at h
  by_cases ht : strip line = []
  · rw [if_pos ht] at h
    cases h
    exact .inl ⟨rfl, rfl⟩
  rw [if_neg ht] at h
  by_cases hl : strip line ∈ sectionHeaders
  · rw [if_pos hl] at h
    cases h
  rw [if_neg hl] at h
  dsimp only at h
  split at h
  · cases h
    exact .inr ⟨rfl, rfl, ha, ht⟩
  · split at h
    · cases h
      exact .inl ⟨rfl, rfl⟩
    · cases h
      exact .inl ⟨rfl, rfl⟩

theorem keys_scan {k : String} (h : k ∈ Dict.keys s.flush) (ls : List (List Char)) :
    k ∈ Dict.keys (scan s ls).flush := by
  induction ls generalizing s with
  | nil => exact h
  | cons l ls ih =>
    rw [scan]
    cases hs : s.step l with
    | none => exact h
    | some t =>
      apply ih
      rw [mem_keys_flush]
      rcases step_cases hs with ⟨hr, hc⟩ | ⟨hr, -⟩
      · rw [hr, hc]
        exact mem_keys_flush.1 h
      · rw [hr]
        exact .inl h

theorem not_mem_flush {k : List Char} (hr : String.ofList k ∉ Dict.keys s.result)
    (hc : s.currentArg ≠ some k) : String.ofList k ∉ Dict.keys s.flush := by
  rw [mem_keys_flush]
  rintro (hm | ⟨n, hn, -, he⟩)
  · exact hr hm
  · rw [String.ofList_injective he] at hc
    exact hc hn

/-- A name that no line brings has no entry. -/
theorem absent_scan {k : List Char} {ls : List Line} (hr : String.ofList k ∉ Dict.keys s.result)
    (hc : s.currentArg ≠ some k)
    (h : ∀ l ∈ ls, l.text = [] ∨ l.text = argsHeader ∨ entryName l.text ≠ k) :
    String.ofList k ∉ Dict.keys (scan s (ls.map Line.chars)).flush := by
  induction ls generalizing s with
  | nil => exact not_mem_flush hr hc
  | cons l ls ih =>
    rw [List.map_cons, scan]
    cases hs : s.step l.chars with
    | none => exact not_mem_flush hr hc
    | some t =>
      have hl := fun l hm => h l (.tail _ hm)
      rcases step_cases hs with ⟨hr', hc'⟩ | ⟨hr', hc', ha, ht⟩
      · rw [← hr'] at hr
        rw [← hc'] at hc
        exact ih hr hc hl
      · have hf := not_mem_flush hr hc
        rw [← hr'] at hf
        rw [l.strip_chars] at hc' ha ht
        apply ih hf _ hl
        rw [hc']
        intro he
        exact ((h l (.head _)).resolve_left ht).resolve_left ha (Option.some_inj.1 he)

/-- How many characters a description takes up. -/
def descWeight : List (List Char) → Nat
  | [] => 0
  | d :: ds => d.length + 1 + descWeight ds

def textWeight (cs : List Char) : Nat := if cs = [] then 0 else cs.length + 1

/-- How many characters a map takes up. -/
def dictWeight : Dict String String → Nat
  | [] => 0
  | (k, v) :: m => k.toList.length + 1 + textWeight v.toList + dictWeight m

def Scan.weight (s : Scan) : Nat :=
  dictWeight s.result +
    match s.currentArg with
    | none => 0
    | some name => name.length + 1 + descWeight s.currentDesc

/-- What a line brings to the map of the parameters with names this deep. -/
def Line.cost (d : Nat) (l : Line) : Nat :=
  if l.text = [] then 0
  else if l.indent = d then (entryName l.text).length + 1 + descWeight (entryDesc l.text)
  else l.text.length + 1

def linesCost (d : Nat) : List Line → Nat
  | [] => 0
  | l :: ls => l.cost d + linesCost d ls

theorem descWeight_append (ds es : List (List Char)) :
    descWeight (ds ++ es) = descWeight ds + descWeight es := by
  induction ds with
  | nil => rw [List.nil_append, descWeight, Nat.zero_add]
  | cons d ds ih => rw [List.cons_append, descWeight, descWeight, ih, ← Nat.add_assoc]

theorem linesCost_append (ls ms : List Line) :
    linesCost d (ls ++ ms) = linesCost d ls + linesCost d ms := by
  induction ls with
  | nil => rw [List.nil_append, linesCost, Nat.zero_add]
  | cons l ls ih => rw [List.cons_append, linesCost, linesCost, ih, Nat.add_assoc]

theorem dictWeight_set_le (k v : String) (m : Dict String String) :
    dictWeight (m.set k v) ≤ dictWeight m + (k.toList.length + 1 + textWeight v.toList) := by
  induction m with
  | nil =>
    rw [Dict.set, dictWeight, Nat.add_comm]
    exact Nat.le_refl _
  | cons q m ih =>
    obtain ⟨k', v'⟩ := q
    rw [Dict.set]
    by_cases hk : k' = k
    · rw [if_pos hk, dictWeight, dictWeight, hk]
      omega
    · rw [if_neg hk, dictWeight, dictWeight]
      omega

theorem dictWeight_perm {m n : Dict String String} (h : m.Perm n) :
    dictWeight m = dictWeight n := by
  induction h with
  | nil => rfl
  | cons q _ ih => rw [dictWeight, dictWeight, ih]
  | swap q r m =>
    rw [dictWeight, dictWeight, dictWeight, dictWeight]
    omega
  | trans _ _ ih ih' => rw [ih, ih']

theorem length_intercalate {ds : List (List Char)} (hn : ds ≠ []) :
    ([' '].intercalate ds).length + 1 = descWeight ds := by
  induction ds with
  | nil => exact (hn rfl).elim
  | cons d ds ih =>
    cases ds with
    | nil => rw [List.intercalate_singleton, descWeight, descWeight]
    | cons e ds =>
      have ih := ih (List.cons_ne_nil _ _)
      rw [List.intercalate_cons_cons, List.length_append, List.length_append, List.length_singleton,
        descWeight]
      omega

theorem length_strip_le (cs : List Char) : (strip cs).length ≤ cs.length := by
  obtain ⟨w, w', he, -⟩ := trim_split isSpace cs
  have hl := congrArg List.length he
  rw [List.length_append, List.length_append] at hl
  rw [strip]
  omega

theorem textWeight_joined_le (ds : List (List Char)) :
    textWeight (joined ds).toList ≤ descWeight ds := by
  rw [joined, String.toList_ofList, textWeight]
  by_cases hn : ds = []
  · subst hn
    exact Nat.le_refl 0
  · have hl := length_strip_le ([' '].intercalate ds)
    have hd := length_intercalate hn
    split <;> omega

theorem weight_flush_le (s : Scan) : dictWeight s.flush ≤ s.weight := by
  rw [Scan.flush, Scan.weight]
  cases s.currentArg with
  | none => exact Nat.le_refl _
  | some name =>
    dsimp only
    split
    · omega
    · have h := dictWeight_set_le (String.ofList name) (joined s.currentDesc) s.result
      have hj := textWeight_joined_le s.currentDesc
      rw [String.toList_ofList] at h
      omega

/-- An entry takes up no more than its line. -/
theorem entry_le {text : List Char} (h : ':' ∈ text) :
    (entryName text).length + 1 + descWeight (entryDesc text) ≤ text.length + 1 := by
  have hn := length_strip_le (text.takeWhile (· ≠ ':'))
  have hr := length_strip_le (text.dropWhile (· ≠ ':')).tail
  have hd : descWeight (entryDesc text) ≤ (strip (text.dropWhile (· ≠ ':')).tail).length + 1 := by
    rw [entryDesc]
    split
    · exact Nat.zero_le _
    · exact Nat.le_refl _
  have ht := congrArg List.length (List.takeWhile_append_dropWhile (p := (· ≠ ':')) (l := text))
  have hne : text.dropWhile (· ≠ ':') ≠ [] := by
    intro he
    have := List.dropWhile_eq_nil_iff.1 he ':' h
    revert this
    decide
  have hl := List.length_pos_iff.2 hne
  rw [List.length_append] at ht
  rw [List.length_tail] at hr
  rw [entryName]
  omega

theorem weight_eq {name : List Char} (h : s.currentArg = some name) :
    s.weight = dictWeight s.result + (name.length + 1 + descWeight s.currentDesc) := by
  rw [Scan.weight, h]

theorem weight_mk_desc (a : Bool) (i : Option Nat) :
    (Scan.mk a s.result s.currentArg s.currentDesc i).weight = s.weight := rfl

/-- A line that is not shallower than the parameters adds at most its cost. -/
theorem step_weight (hs : s.inArgs = true) (hi : ∀ i, s.argIndent = some i → d ≤ i) (h : l.Says)
    (hd : d ≤ l.indent) : ∃ t i, s.step l.chars = some t ∧ t.inArgs = true ∧
      t.argIndent = some i ∧ d ≤ i ∧ t.weight ≤ s.weight + l.cost d := by
  have hle : d ≤ s.argIndent.getD l.indent := by
    cases ha : s.argIndent with
    | none => exact hd
    | some i => exact hi i ha
  rw [step_line hs h]
  by_cases he : l.indent = s.argIndent.getD l.indent ∧ ':' ∈ l.text
  · rw [if_pos he]
    refine ⟨_, _, rfl, rfl, rfl, hle, ?_⟩
    have hf := weight_flush_le s
    have hc : (entryName l.text).length + 1 + descWeight (entryDesc l.text) ≤ l.cost d := by
      rw [Line.cost, if_neg h.text]
      split
      · exact Nat.le_refl _
      · exact entry_le he.2
    rw [weight_eq rfl]
    dsimp only
    omega
  · rw [if_neg he]
    by_cases hm : s.argIndent.getD l.indent < l.indent ∧ s.currentArg ≠ none
    · rw [if_pos hm]
      refine ⟨_, _, rfl, rfl, rfl, hle, ?_⟩
      obtain ⟨name, hn⟩ := Option.ne_none_iff_exists'.1 hm.2
      have hc : l.cost d = l.text.length + 1 := by
        rw [Line.cost, if_neg h.text, if_neg (by omega)]
      have hw : descWeight (s.currentDesc ++ [l.text]) =
          descWeight s.currentDesc + (l.text.length + 1) := descWeight_append _ _
      have ht (a : Bool) (i : Option Nat) :
          (Scan.mk a s.result s.currentArg (s.currentDesc ++ [l.text]) i).weight =
            dictWeight s.result + (name.length + 1 + descWeight (s.currentDesc ++ [l.text])) :=
        weight_eq hn
      rw [ht, weight_eq hn, hc, hw]
      omega
    · rw [if_neg hm]
      exact ⟨_, _, rfl, rfl, rfl, hle, by rw [weight_mk_desc]; omega⟩

theorem cost_pos (h : l.text ≠ []) : 0 < l.cost d := by
  rw [Line.cost, if_neg h]
  split <;> omega

/-- What the scan has come to after lines none of which is shallower than the parameters. -/
structure Reached (d : Nat) (ls : List Line) (s u : Scan) : Prop where
  inArgs : u.inArgs = true
  depth : ∀ i, u.argIndent = some i → d ≤ i
  weight_le : u.weight ≤ s.weight + linesCost d ls
  weight_lt : (∃ l ∈ ls, l.text = argsHeader) → u.weight < s.weight + linesCost d ls
  kept : u.argIndent = none → s.argIndent = none
  silent : u.argIndent = none → ∀ l ∈ ls, l.text = [] ∨ l.text = argsHeader
  unlisted : ∀ l ∈ ls, l.text ∉ sectionHeaders

theorem Reached.cons {u : Scan} {ls : List Line} (h : Reached d ls t u)
    (hl : l.text ∉ sectionHeaders) (hw : t.weight ≤ s.weight + l.cost d)
    (ha : l.text = argsHeader → t.weight < s.weight + l.cost d)
    (hi : t.argIndent = none → s.argIndent = none ∧ (l.text = [] ∨ l.text = argsHeader)) :
    Reached d (l :: ls) s u := by
  have hle := h.weight_le
  refine ⟨h.inArgs, h.depth, ?_, ?_, fun hu => (hi (h.kept hu)).1, fun hu => ?_, ?_⟩
  · rw [linesCost]
    omega
  · rw [linesCost]
    rintro ⟨m, hm, hma⟩
    rcases List.mem_cons.1 hm with rfl | hm
    · have hlt := ha hma
      omega
    · have hlt := h.weight_lt ⟨m, hm, hma⟩
      omega
  · exact List.forall_mem_cons.2 ⟨(hi (h.kept hu)).2, h.silent hu⟩
  · exact List.forall_mem_cons.2 ⟨hl, h.unlisted⟩

theorem text_ne_nil_of_listed (h : l.text ∈ sectionHeaders) : l.text ≠ [] := by
  intro hn
  rw [hn] at h
  revert h
  decide

/-- A step at a line that does not end the scan. -/
theorem step_unlisted (hs : s.inArgs = true) (hi : ∀ i, s.argIndent = some i → d ≤ i)
    (hl : l.text ∉ sectionHeaders) (hd : l.text ≠ [] → d ≤ l.indent) :
    ∃ t, s.step l.chars = some t ∧ t.inArgs = true ∧ (∀ i, t.argIndent = some i → d ≤ i) ∧
      t.weight ≤ s.weight + l.cost d ∧
      (l.text = argsHeader → t.weight < s.weight + l.cost d) ∧
      (t.argIndent = none → s.argIndent = none ∧ (l.text = [] ∨ l.text = argsHeader)) := by
  by_cases hn : l.text = []
  · refine ⟨s, step_blank hn, hs, hi, Nat.le_add_right _ _, fun ha => ?_, fun h => ⟨h, .inl hn⟩⟩
    rw [hn] at ha
    cases ha
  · by_cases ha : l.text = argsHeader
    · have hp := @cost_pos l d hn
      refine ⟨s, ?_, hs, hi, by omega, fun _ => by omega, fun h => ⟨h, .inr ha⟩⟩
      rw [step_header ha, ← hs]
    · obtain ⟨t, i, ht, hta, hti, hdi, hw⟩ := step_weight hs hi ⟨hn, ha, hl⟩ (hd hn)
      refine ⟨t, ht, hta, fun j hj => ?_, hw, fun h => (ha h).elim, fun h => ?_⟩
      · rw [hti] at hj
        cases hj
        exact hdi
      · rw [hti] at h
        cases h

/-- A scan of lines none of which is shallower than the parameters ends at a header in them, and
then it has not read them all, or goes through them. -/
theorem steps_weight {ls : List Line} (hs : s.inArgs = true)
    (hi : ∀ i, s.argIndent = some i → d ≤ i) (hd : ∀ l ∈ ls, l.text ≠ [] → d ≤ l.indent) :
    (∃ u, (∀ ms, scan s (ls.map Line.chars ++ ms) = u) ∧ u.weight < s.weight + linesCost d ls) ∨
      ∃ u, (ls.map Line.chars).foldlM Scan.step s = some u ∧ Reached d ls s u := by
  induction ls generalizing s with
  | nil =>
    refine .inr ⟨s, rfl, hs, hi, Nat.le_refl _, ?_, id, ?_, ?_⟩
    · rintro ⟨_, hm, -⟩
      cases hm
    · exact fun _ _ hm => (nomatch hm)
    · exact fun _ hm => (nomatch hm)
  | cons l ls ih =>
    by_cases hl : l.text ∈ sectionHeaders
    · refine .inl ⟨s, fun ms => ?_, ?_⟩
      · rw [List.map_cons, List.cons_append, scan, step_break hs hl]
      · have hp := @cost_pos l d (text_ne_nil_of_listed hl)
        rw [linesCost]
        omega
    · obtain ⟨t, ht, hta, hti, hw, hlt, hnone⟩ := step_unlisted hs hi hl (hd l (.head _))
      rcases ih hta hti fun m hm => hd m (.tail _ hm) with ⟨u, hu, hlt'⟩ | ⟨u, hu, hr⟩
      · refine .inl ⟨u, fun ms => ?_, ?_⟩
        · rw [List.map_cons, List.cons_append, scan, ht]
          exact hu ms
        · rw [linesCost]
          omega
      · refine .inr ⟨u, ?_, hr.cons hl hw hlt hnone⟩
        rw [List.map_cons, List.foldlM_cons, ht]
        exact hu

theorem linesCost_more {ls : List Line} (hd : ∀ l ∈ ls, l.text ≠ [] → d < l.indent) :
    linesCost d ls = descWeight ((ls.map Line.text).filter (· ≠ [])) := by
  induction ls with
  | nil => rfl
  | cons l ls ih =>
    rw [linesCost, ih fun m hm => hd m (.tail _ hm), List.map_cons, Line.cost]
    by_cases ht : l.text = []
    · rw [if_pos ht, List.filter_cons_of_neg (by rw [ht]; decide), Nat.zero_add]
    · have hl := hd l (.head _) ht
      rw [if_neg ht, if_neg (by omega),
        List.filter_cons_of_pos (by rw [decide_eq_true_eq]; exact ht), descWeight]

theorem linesCost_param (p : Param d) :
    linesCost d p.lines = p.name.length + 1 + descWeight p.desc := by
  rw [Param.lines, linesCost, linesCost_more p.deeper, Line.cost, if_neg p.text_ne_nil,
    if_pos p.at_depth, p.entryName_text, p.desc_eq, descWeight_append, ← Nat.add_assoc]

theorem textWeight_intercalate {ds : List (List Char)} (hd : ∀ d ∈ ds, Trimmed isSpace d) :
    textWeight ([' '].intercalate ds) = descWeight ds := by
  by_cases hn : ds = []
  · subst hn
    rfl
  · rw [textWeight, if_neg (trimmed_intercalate hn hd).ne_nil, length_intercalate hn]

/-- The map of the parameters takes up what their lines bring. -/
theorem dictWeight_params (ps : List (Param d)) :
    dictWeight (ps.map fun p => (String.ofList p.name, String.ofList ([' '].intercalate p.desc))) =
      linesCost d (ps.flatMap Param.lines) := by
  induction ps with
  | nil => rfl
  | cons p ps ih =>
    rw [List.map_cons, dictWeight, ih, List.flatMap_cons, linesCost_append, linesCost_param,
      String.toList_ofList, String.toList_ofList, textWeight_intercalate p.trimmed_desc]

theorem distinct_flush (h : Dict.Distinct s.result) : Dict.Distinct s.flush := by
  rw [Scan.flush]
  cases s.currentArg with
  | none => exact h
  | some n =>
    dsimp only
    split
    · exact h
    · exact h.set _ _

theorem distinct_scan (h : Dict.Distinct s.result) (ls : List (List Char)) :
    Dict.Distinct (scan s ls).flush := by
  induction ls generalizing s with
  | nil => exact distinct_flush h
  | cons l ls ih =>
    rw [scan]
    cases hs : s.step l with
    | none => exact distinct_flush h
    | some t =>
      apply ih
      rcases step_cases hs with ⟨hr, -⟩ | ⟨hr, -⟩
      · rw [hr]
        exact h
      · rw [hr]
        exact distinct_flush h

/-- The section of a heading, without a content. -/
def Heading.bare (h : Heading d) : Section d := ⟨h, [], fun _ hm => (nomatch hm)⟩

theorem lines_bare (hs : List (Heading d)) :
    (hs.map Heading.bare).flatMap Section.lines = hs.map Heading.line := by
  induction hs with
  | nil => rfl
  | cons h hs ih => rw [List.map_cons, List.flatMap_cons, ih]; rfl

theorem Heading.entryName_text (h : Heading d) : entryName h.line.text = h.word := by
  have ht : Trimmed isSpace h.word := by
    obtain ⟨c, cs, he⟩ := List.exists_cons_of_ne_nil h.word_ne_nil
    exact ⟨c, by rw [he]; rfl, (h.word_chars c (by rw [he]; exact .head _)).1, _,
      List.getLast?_eq_some_getLast h.word_ne_nil,
      (h.word_chars _ (List.getLast_mem h.word_ne_nil)).1⟩
  rw [h.reads, entryName_append ht fun hm => (h.word_chars _ hm).2 rfl]

theorem Heading.colon_mem (h : Heading d) : ':' ∈ h.line.text := by
  rw [h.reads]
  exact List.mem_append_right _ (List.mem_singleton_self _)

theorem Heading.toSays (h : Heading d) (hl : h.line.text ∉ sectionHeaders) : h.line.Says :=
  ⟨List.ne_nil_of_mem h.colon_mem, h.other, hl⟩

/-- A parser that is right about a docstring whose other sections are empty has read every line of
its `Args:` section. -/
theorem clear_of_lookup {o : Opening} (hs : List (Heading o.header.indent))
    (h : ∀ name, (parseDocstringArgs (docstring o (hs.map Heading.bare))).lookup name =
      o.descriptions.lookup name) : o.Clear := by
  have hp := parse_docstring o (hs.map Heading.bare)
  rw [lines_bare] at hp
  have hd : ∀ l ∈ o.params.flatMap Param.lines, l.text ≠ [] → o.depth ≤ l.indent := by
    intro l hl ht
    obtain ⟨p, -, hl⟩ := List.mem_flatMap.1 hl
    rcases List.mem_cons.1 hl with rfl | hl
    · exact Nat.le_of_eq p.at_depth.symm
    · exact Nat.le_of_lt (p.deeper l hl ht)
  have hw : dictWeight (parseDocstringArgs (docstring o (hs.map Heading.bare))) =
      opened.weight + linesCost o.depth (o.params.flatMap Param.lines) := by
    have hdistinct : Dict.Distinct (parseDocstringArgs (docstring o (hs.map Heading.bare))) := by
      rw [hp]
      exact @distinct_scan opened List.nodup_nil _
    rw [dictWeight_perm (Dict.perm_of_lookup hdistinct (distinct_descriptions o) h),
      Opening.descriptions, dictWeight_params]
    exact (Nat.zero_add _).symm
  rw [hp] at hw
  rcases steps_weight (s := opened) rfl (fun i hi => (nomatch hi)) hd with
    ⟨u, hu, hlt⟩ | ⟨u, hu, hr⟩
  · rw [List.map_append, hu] at hw
    have := weight_flush_le u
    omega
  · cases hi : u.argIndent with
    | some i =>
      have hq : scan u ((hs.map Heading.line).map Line.chars) = u := by
        apply scan_quiet hr.inArgs
        intro l hl
        have hm := (List.takeWhile_prefix _).subset (List.mem_filter.1 hl).1
        obtain ⟨a, -, rfl⟩ := List.mem_map.1 hm
        have hdepth := hr.depth i hi
        have hat := a.at_indent
        have hlt := o.deeper
        exact ⟨i, hi, .inl (by omega)⟩
      rw [List.map_append, scan_append hu, hq] at hw
      have hle := weight_flush_le u
      intro p hp l hl
      have hm : l ∈ o.params.flatMap Param.lines := List.mem_flatMap.2 ⟨p, hp, hl⟩
      refine ⟨fun ha => ?_, hr.unlisted l hm⟩
      have := hr.weight_lt ⟨l, hm, ha⟩
      omega
    | none =>
      intro p hpm
      have hsilent := hr.silent hi
      have hline : p.line.text = argsHeader :=
        (hsilent _ (List.mem_flatMap.2 ⟨p, hpm, .head _⟩)).resolve_left p.text_ne_nil
      have habsent : String.ofList p.name ∉
          Dict.keys (parseDocstringArgs (docstring o (hs.map Heading.bare))) := by
        rw [hp]
        refine absent_scan (fun hm => (nomatch hm)) (fun he => (nomatch he)) fun l hl => ?_
        rcases List.mem_append.1 hl with hl | hl
        · exact (hsilent l hl).imp_right .inl
        · obtain ⟨a, -, rfl⟩ := List.mem_map.1 hl
          refine .inr (.inr fun he => a.other ?_)
          rw [a.entryName_text] at he
          have hn := p.entryName_text
          rw [hline] at hn
          rw [a.reads, he, ← hn]
          decide
      have hmem : String.ofList p.name ∈ Dict.keys o.descriptions := by
        rw [Opening.descriptions, Dict.keys, List.map_map]
        exact List.mem_map_of_mem hpm
      obtain ⟨v, hv⟩ := Dict.mem_keys_iff.1 hmem
      rw [← h] at hv
      exact (habsent (Dict.mem_keys_iff.2 ⟨v, hv⟩)).elim

/-- A line of spaces and a text. -/
def indented (n : Nat) (text : List Char) (ht : text ≠ [] → Trimmed isSpace text)
    (hn : '\n' ∉ text) : Line :=
  ⟨List.replicate n ' ', text, [], fun c hc => by rw [List.eq_of_mem_replicate hc]; decide,
    fun _ hc => (nomatch hc), ht, fun hm => by
      rcases List.mem_append.1 hm with hm | hm
      · have := List.eq_of_mem_replicate hm
        revert this
        decide
      · rw [List.append_nil] at hm
        exact hn hm⟩

theorem indent_indented {text : List Char} {ht : text ≠ [] → Trimmed isSpace text}
    {hn : '\n' ∉ text} (n : Nat) : (indented n text ht hn).indent = n := List.length_replicate

/-- A line with an entry for a name that is none of these. -/
theorem exists_fresh_entry (n : Nat) (names : List (List Char)) : ∃ l : Line, l.Says ∧
    l.indent = n ∧ ':' ∈ l.text ∧ entryName l.text ≠ [] ∧ entryName l.text ∉ names := by
  have hx : ∀ c ∈ List.replicate (names.flatten.length + 1) 'x', c = 'x' :=
    fun c hc => List.eq_of_mem_replicate hc
  have ht : Trimmed isSpace (List.replicate (names.flatten.length + 1) 'x') :=
    ⟨'x', rfl, by decide, 'x', by rw [List.getLast?_replicate]; rfl, by decide⟩
  have hc : ':' ∉ List.replicate (names.flatten.length + 1) 'x' := by
    intro hm
    have := hx _ hm
    revert this
    decide
  have hname := @entryName_append _ [] ht hc
  have hhead : ∀ h ∈ argsHeader :: sectionHeaders, h.head? ≠ some 'x' := by decide
  refine ⟨indented n (List.replicate (names.flatten.length + 1) 'x' ++ [':'])
    (fun _ => ⟨'x', rfl, by decide, ':', by rw [List.getLast?_concat], by decide⟩) ?_,
    ⟨?_, fun he => ?_, fun hm => ?_⟩, indent_indented n, ?_, ?_, ?_⟩
  · rw [List.mem_append, not_or]
    refine ⟨fun hm => ?_, by decide⟩
    have := hx _ hm
    revert this
    decide
  · exact List.append_ne_nil_of_right_ne_nil _ (List.cons_ne_nil _ _)
  · exact hhead _ (.head _) (he ▸ rfl)
  · exact hhead _ (.tail _ hm) rfl
  · exact List.mem_append_right _ (List.mem_singleton_self _)
  · change entryName (_ ++ [':']) ≠ []
    rw [hname]
    exact ht.ne_nil
  · change entryName (_ ++ [':']) ∉ names
    rw [hname]
    intro hm
    have hl := (List.sublist_flatten_of_mem hm).length_le
    rw [List.length_replicate] at hl
    omega

theorem mem_keys_of_step {k : List Char} (h : s.step l.chars = some t) (hk : t.currentArg = some k)
    (hn : k ≠ []) (ls : List Line) :
    String.ofList k ∈ Dict.keys (scan s ((l :: ls).map Line.chars)).flush := by
  rw [List.map_cons, scan, h]
  exact keys_scan (mem_keys_flush.2 (.inr ⟨k, hk, hn, rfl⟩)) _

theorem lookup_ne_none {m : Dict String String} {k : String} (h : k ∈ Dict.keys m) :
    m.lookup k ≠ none := by
  obtain ⟨v, hv⟩ := Dict.mem_keys_iff.1 h
  rw [hv]
  exact Option.some_ne_none v

/-- Where the first of the other sections has a header that the parser does not know, its content
or the header itself may become an entry. -/
theorem ends_of_right {o : Opening} (hc : o.Clear) {hs : List (Heading o.header.indent)}
    (h : ∀ ss, ss.map Section.heading = hs → Right o ss) : Ends hs := by
  intro a ha
  by_contra hl
  obtain ⟨hs, rfl⟩ := List.head?_eq_some_iff.1 ha
  by_cases hn : o.params = []
  · have hright := (h ((a :: hs).map Heading.bare) (by rw [List.map_map]; exact List.map_id _)).1
      (String.ofList a.word)
    rw [parse_docstring, lines_bare, hn, List.flatMap_nil, List.nil_append, List.map_cons,
      Opening.descriptions, hn] at hright
    refine lookup_ne_none (mem_keys_of_step (step_entry rfl (a.toSays hl) rfl a.colon_mem) ?_
      a.word_ne_nil _) hright
    rw [a.entryName_text]
  · obtain ⟨l, hsays, hindent, hcolon, hname, hfresh⟩ :=
      exists_fresh_entry o.depth (o.params.map Param.name)
    have hdeep := o.deeper
    have hat := a.at_indent
    have hright := (h (⟨a, [l], fun m hm _ => ?_⟩ :: hs.map Heading.bare) ?_).1
      (String.ofList (entryName l.text))
    · have hskip := step_skip (s := o.params.foldl Scan.enter opened) (inArgs_foldl _ rfl)
        (a.toSays hl) (argIndent_foldl hn) (.inl (by omega))
      rw [parse_docstring, List.map_append, scan_append (foldlM_params o.params rfl rfl hc),
        List.flatMap_cons, Section.lines, List.cons_append, List.map_cons, scan, hskip] at hright
      have hnone : o.descriptions.lookup (String.ofList (entryName l.text)) = none := by
        apply Dict.lookup_eq_none_of_not_mem
        rw [Opening.descriptions, Dict.keys, List.map_map]
        intro hm
        obtain ⟨p, hp, he⟩ := List.mem_map.1 hm
        exact hfresh (String.ofList_injective he ▸ List.mem_map_of_mem hp)
      rw [hnone] at hright
      refine lookup_ne_none (mem_keys_of_step (step_entry (inArgs_foldl _ rfl) hsays ?_ hcolon) rfl
        hname _) hright
      rw [argIndent_foldl hn, hindent, Option.getD_some]
    · rw [List.mem_singleton.1 hm, hindent]
      exact o.deeper
    · rw [List.map_cons, List.map_map]
      exact congrArg (a :: ·) (List.map_id _)

theorem quiet_of_ends {o : Opening} {ss : List (Section o.header.indent)}
    (h : Ends (ss.map Section.heading)) : Quiet o ss := by
  cases ss with
  | nil => exact fun _ hm => (nomatch hm)
  | cons s ss =>
    intro l hl
    rw [List.flatMap_cons, Section.lines, List.cons_append, heard_cons,
      if_pos (h s.heading rfl)] at hl
    cases hl

/-- The parser is right about an `Args:` section, whatever the other sections with these headers
say, just where no line of it reads as a header that the parser knows and the header after it is
one that it knows. It is also right where what the other sections say is quiet. -/
theorem parser_right_iff (o : Opening) (hs : List (Heading o.header.indent)) :
    ((∀ ss, ss.map Section.heading = hs → Right o ss) ↔ o.Clear ∧ Ends hs) ∧
      ∀ ss, ss.map Section.heading = hs → o.Clear → Quiet o ss → Right o ss := by
  have hquiet (ss : List (Section o.header.indent)) (hc : o.Clear) (hq : Quiet o ss) :
      Right o ss := by
    apply right_of_lookup
    intro name
    rw [parse_of_quiet hc hq]
  refine ⟨⟨fun h => ?_, ?_⟩, fun ss _ hc hq => hquiet ss hc hq⟩
  · have hc : o.Clear := by
      apply clear_of_lookup hs
      exact (h _ (by rw [List.map_map]; exact List.map_id _)).1
    exact ⟨hc, ends_of_right hc h⟩
  · rintro ⟨hc, he⟩ ss rfl
    exact hquiet ss hc (quiet_of_ends he)

/-- A docstring with one parameter. -/
def queryOpening : Opening where
  summary := []
  summary_other _ h := (nomatch h)
  header := indented 0 argsHeader (fun _ => ⟨'A', rfl, by decide, ':', rfl, by decide⟩) (by decide)
  reads := rfl
  blank := []
  blank_text _ h := (nomatch h)
  depth := 4
  deeper := by decide
  params := [{
    line := indented 4 ['q', ':', ' ', 't', 'e', 'x', 't']
      (fun _ => ⟨'q', rfl, by decide, 't', rfl, by decide⟩) (by decide)
    name := ['q']
    rest := [' ', 't', 'e', 'x', 't']
    reads := rfl
    name_trimmed := ⟨'q', rfl, by decide, 'q', rfl, by decide⟩
    name_colon := by decide
    at_depth := by decide
    more := []
    deeper := fun _ h => (nomatch h) }]
  distinct := by decide

/-- A section with the header `Example:` and one line. -/
def exampleSection : Section queryOpening.header.indent where
  heading := {
    line := indented 0 ['E', 'x', 'a', 'm', 'p', 'l', 'e', ':']
      (fun _ => ⟨'E', rfl, by decide, ':', rfl, by decide⟩) (by decide)
    word := ['E', 'x', 'a', 'm', 'p', 'l', 'e']
    reads := rfl
    word_ne_nil := List.cons_ne_nil _ _
    word_chars := forall_mem_of_all (by decide)
    other := by decide
    at_indent := rfl }
  content := [indented 4 ['k', ':', ' ', '1']
    (fun _ => ⟨'k', rfl, by decide, '1', rfl, by decide⟩) (by decide)]
  deeper := by decide

/-- A line of an example becomes a parameter. -/
theorem example_read : ¬ Right queryOpening [exampleSection] := by
  intro h
  have hk := h.1 "k"
  revert hk
  decide +kernel

end Obase.ToolSchema
