import Obase.PyStr
import Obase.RoseTree

namespace Obase.SympyRuntime
set_option autoImplicit true
open RoseTree

/-- The classes of `ast` nodes: those that the visitor knows, and the others by name. -/
inductive Kind where
  | name (id : String)
  | attributeAccess (attr : String)
  | call
  | lambda
  | importing (names : List String)
  | importFrom (module : Option String)
  | functionDef
  | asyncFunctionDef
  | classDef
  | forLoop
  | whileLoop
  | withBlock
  | expressionStatement
  | module
  | other (name : String)
deriving DecidableEq

/-- A syntax tree; the first child of a call is what it calls. -/
abbrev Ast := RoseTree Kind

/-- The nodes that occur below an expression. -/
def Kind.IsExpression : Kind → Prop
  | .name _ | .attributeAccess _ | .call | .lambda | .other _ => True
  | _ => False

/-- The nodes whose methods go on to the children where they reject nothing. -/
def Kind.Recurses : Kind → Prop
  | .name _ | .attributeAccess _ | .call | .lambda | .other _ | .expressionStatement
  | .module => True
  | _ => False

theorem Kind.IsExpression.recurses {kind : Kind} (h : kind.IsExpression) : kind.Recurses := by
  cases kind <;> trivial

/-- The `SymPyRuntimeError` of a rejected text, with what its message names. -/
inductive SymPyError where
  | length (n : Nat) (limit : Int)
  | depth (n limit : Int)
  | importing (mod : String)
  | importFrom (module : String)
  | call (id : String)
  | name (id : String)
  | attributeAccess (attr : String)
  | definition (kind : Kind)
  | evaluation

inductive Raised where
  | sympy (e : SymPyError)
  | other (e : String)

/-- The fields of `RuntimeConfig` that the check of a text reads. -/
structure RuntimeConfig where
  maxExpressionDepth : Int
  maxStringLength : Int
  allowedModules : List String
  forbiddenNames : List String

def RuntimeConfig.default : RuntimeConfig where
  maxExpressionDepth := 50
  maxStringLength := 10000
  allowedModules := ["sympy"]
  forbiddenNames := ["exec", "eval", "compile", "import", "__import__", "globals", "locals",
    "vars", "dir", "getattr", "setattr", "delattr", "open", "os", "sys", "subprocess", "shutil",
    "pathlib"]

def bannedCalls : List String :=
  ["exec", "eval", "compile", "__import__", "open", "globals", "locals", "vars", "getattr",
    "setattr", "delattr"]

/-- `name.split(".")[0]`. -/
def topModule (name : String) : String := .ofList (name.toList.takeWhile fun c => c != '.')

/-- The name that a call calls directly. -/
def calledName : List Ast → Option String
  | .node (.name id) _ :: _ => some id
  | _ => none

section
variable (config : RuntimeConfig)

/-- What the method for a node rejects; the others go on to the children of the node. -/
def inspect (kind : Kind) (children : List Ast) : Except SymPyError Bool :=
  match kind with
  | .importing names =>
    match names.find? fun name => topModule name ∉ config.allowedModules with
    | some name => .error (.importing (topModule name))
    | none => .ok false
  | .importFrom none => .ok false
  | .importFrom (some module) =>
    if module ≠ "" ∧ topModule module ∉ config.allowedModules then .error (.importFrom module)
    else .ok false
  | .call =>
    match calledName children with
    | some id => if id ∈ bannedCalls then .error (.call id) else .ok true
    | none => .ok true
  | .name id => if id ∈ config.forbiddenNames then .error (.name id) else .ok true
  | .attributeAccess attr =>
    if attr.toList.head? = some '_' then .error (.attributeAccess attr) else .ok true
  | .functionDef | .asyncFunctionDef | .classDef | .forLoop | .whileLoop | .withBlock | .lambda =>
    .error (.definition kind)
  | .expressionStatement | .module | .other _ => .ok true

mutual

/-- `_SafeVisitor.visit`, with the depth before and after it. -/
def visit : Ast → Int → Except SymPyError Unit × Int
  | .node kind children, depth =>
    if config.maxExpressionDepth < depth + 1 then
      (.error (.depth (depth + 1) config.maxExpressionDepth), depth + 1)
    else
      match inspect config kind children with
      | .error e => (.error e, depth + 1 - 1)
      | .ok false => (.ok (), depth + 1 - 1)
      | .ok true =>
        let (r, depth) := genericVisit children (depth + 1)
        (r, depth - 1)

def genericVisit : List Ast → Int → Except SymPyError Unit × Int
  | [], depth => (.ok (), depth)
  | t :: ts, depth =>
    match visit t depth with
    | (.ok (), depth) => genericVisit ts depth
    | (.error e, depth) => (.error e, depth)

end
end

/-- What `ast.parse` does with a text. -/
inductive Parsed where
  | tree (t : Ast)
  | syntaxError
  | other (e : String)

/-- `ast.parse` in its two modes, which build the same tree for the same expression. -/
structure Parser where
  exec : PyStr → Parsed
  eval : PyStr → Parsed
  expression : ∀ code t, eval code = .tree t → ∀ s, Within s t → s.label.IsExpression
  same : ∀ code t, eval code = .tree t →
    exec code = .tree (.node .module [.node .expressionStatement [t]])

/-- `_validate_ast`. -/
def validateAst (P : Parser) (config : RuntimeConfig) (code : PyStr) : Except Raised Ast :=
  if config.maxStringLength < code.length then
    .error (.sympy (.length code.length config.maxStringLength))
  else
    match P.exec code with
    | .syntaxError => .error (.sympy .evaluation)
    | .other e => .error (.other e)
    | .tree treeExec =>
      match visit config treeExec 0 with
      | (.error e, _) => .error (.sympy e)
      | (.ok (), _) =>
        match P.eval code with
        | .syntaxError => .error (.sympy .evaluation)
        | .other e => .error (.other e)
        | .tree t => .ok t

/-- A name, call, attribute or function that the filter is there to keep out. -/
def Offends (config : RuntimeConfig) : Ast → Prop
  | .node (.name id) _ => id ∈ config.forbiddenNames
  | .node .call children => ∃ id ∈ bannedCalls, calledName children = some id
  | .node (.attributeAccess attr) _ => attr.toList.head? = some '_'
  | .node .lambda _ => True
  | _ => False

/-- The text is an expression that the filter is there to let through, with its tree. -/
structure Admissible (P : Parser) (config : RuntimeConfig) (code : PyStr) (t : Ast) : Prop where
  short : code.length ≤ config.maxStringLength
  parses : P.eval code = .tree t
  shallow : t.height + 2 ≤ config.maxExpressionDepth
  clean : ∀ s, Within s t → ¬ Offends config s

theorem inspect_of_recurses {config : RuntimeConfig} {kind : Kind} {children : List Ast}
    (hk : kind.Recurses) : (Offends config (.node kind children) ∧
      ∃ e, inspect config kind children = .error e) ∨
    (¬ Offends config (.node kind children) ∧ inspect config kind children = .ok true) := by
  cases kind with
  | name id =>
    by_cases h : id ∈ config.forbiddenNames
    · exact .inl ⟨h, _, if_pos h⟩
    · exact .inr ⟨h, if_neg h⟩
  | attributeAccess attr =>
    by_cases h : attr.toList.head? = some '_'
    · exact .inl ⟨h, _, if_pos h⟩
    · exact .inr ⟨h, if_neg h⟩
  | call =>
    rw [inspect, Offends]
    cases calledName children with
    | none => exact .inr ⟨fun ⟨_, _, h⟩ => (nomatch h), rfl⟩
    | some id =>
      by_cases h : id ∈ bannedCalls
      · exact .inl ⟨⟨id, h, rfl⟩, _, if_pos h⟩
      · refine .inr ⟨?_, if_neg h⟩
        rintro ⟨_, hb, he⟩
        cases he
        exact h hb
  | lambda => exact .inl ⟨trivial, _, rfl⟩
  | other name => exact .inr ⟨id, rfl⟩
  | expressionStatement => exact .inr ⟨id, rfl⟩
  | module => exact .inr ⟨id, rfl⟩
  | _ => exact hk.elim

/-- The visitor goes through an expression that is not too deep and in which nothing offends,
and then its depth is what it was. -/
structure Filtered (config : RuntimeConfig) (good : Prop) (depth : Int)
    (r : Except SymPyError Unit × Int) : Prop where
  ok : good → r = (.ok (), depth)
  error : ¬ good → ∃ e, r.1 = .error e

def Passes (config : RuntimeConfig) (depth : Int) (t : Ast) : Prop :=
  depth + t.height ≤ config.maxExpressionDepth ∧ ∀ s, Within s t → ¬ Offends config s

theorem passes_node {config : RuntimeConfig} {depth : Int} {kind : Kind} {children : List Ast} :
    Passes config depth (.node kind children) ↔
      depth + 1 ≤ config.maxExpressionDepth ∧ ¬ Offends config (.node kind children) ∧
        ∀ c ∈ children, Passes config (depth + 1) c := by
  have hheight : depth + height (.node kind children) ≤ config.maxExpressionDepth ↔
      depth + 1 ≤ config.maxExpressionDepth ∧
        ∀ c ∈ children, depth + 1 + height c ≤ config.maxExpressionDepth := by
    have hle := @heights_le_iff _ children (config.maxExpressionDepth - depth - 1).toNat
    rw [height, Int.natCast_add]
    constructor
    · intro h
      refine ⟨by omega, fun c hc => ?_⟩
      have := hle.1 (by omega) c hc
      omega
    · rintro ⟨hd, h⟩
      have := hle.2 fun c hc => by
        have := h c hc
        omega
      omega
  rw [Passes, hheight]
  constructor
  · rintro ⟨⟨hd, hc⟩, ho⟩
    exact ⟨hd, ho _ (.refl _), fun c hm => ⟨hc c hm, fun s hs => ho s (.child hm hs)⟩⟩
  · rintro ⟨hd, ho, hc⟩
    refine ⟨⟨hd, fun c hm => (hc c hm).1⟩, fun s hs => ?_⟩
    rcases within_node.1 hs with rfl | ⟨c, hm, hs⟩
    · exact ho
    · exact (hc c hm).2 s hs

theorem genericVisit_filtered {config : RuntimeConfig} {depth : Int} {ts : List Ast}
    (h : ∀ t ∈ ts, Filtered config (Passes config depth t) depth (visit config t depth)) :
    Filtered config (∀ t ∈ ts, Passes config depth t) depth (genericVisit config ts depth) := by
  induction ts with
  | nil => exact ⟨fun _ => rfl, fun hn => (hn fun _ ht => (nomatch ht)).elim⟩
  | cons t ts ih =>
    rw [List.forall_mem_cons] at h
    rw [List.forall_mem_cons]
    by_cases ht : Passes config depth t
    · have hrec := ih h.2
      rw [genericVisit, h.1.ok ht]
      exact ⟨fun hg => hrec.ok hg.2, fun hn => hrec.error fun hts => hn ⟨ht, hts⟩⟩
    · obtain ⟨e, he⟩ := h.1.error ht
      refine ⟨fun hg => (ht hg.1).elim, fun _ => ⟨e, ?_⟩⟩
      rw [genericVisit]
      rcases hv : visit config t depth with ⟨r, depth'⟩
      rw [hv] at he
      cases he
      rfl

theorem visit_filtered (config : RuntimeConfig) (t : Ast)
    (ht : ∀ s, Within s t → s.label.Recurses) (depth : Int) :
    Filtered config (Passes config depth t) depth (visit config t depth) := by
  induction t using RoseTree.ind generalizing depth with
  | node kind children ih =>
    have hchild (c : Ast) (hc : c ∈ children) :
        Filtered config (Passes config (depth + 1) c) (depth + 1) (visit config c (depth + 1)) :=
      ih c hc (fun s hs => ht s (.child hc hs)) (depth + 1)
    have hgen := genericVisit_filtered hchild
    have hpass := @passes_node config depth kind children
    rw [visit]
    by_cases hd : config.maxExpressionDepth < depth + 1
    · rw [if_pos hd]
      exact ⟨fun hg => (not_le.2 hd (hpass.1 hg).1).elim, fun _ => ⟨_, rfl⟩⟩
    · have hk : kind.Recurses := ht _ (.refl _)
      rw [if_neg hd]
      have hi := @inspect_of_recurses config kind children hk
      rcases hi with ⟨ho, e, he⟩ | ⟨ho, he⟩
      · rw [he]
        exact ⟨fun hg => ((hpass.1 hg).2.1 ho).elim, fun _ => ⟨e, rfl⟩⟩
      · rw [he]
        dsimp only
        constructor
        · intro hg
          rw [hgen.ok (hpass.1 hg).2.2]
          dsimp only
          rw [Int.add_sub_cancel]
        · intro hn
          exact hgen.error fun hc => hn (hpass.2 ⟨not_lt.1 hd, ho, hc⟩)

/-- The visitor lets the tree of a text pass. -/
def Accepts (config : RuntimeConfig) (t : Ast) : Prop := (visit config t 0).1 = .ok ()

theorem accepts_iff {config : RuntimeConfig} {t : Ast}
    (ht : ∀ s, Within s t → s.label.Recurses) : Accepts config t ↔ Passes config 0 t := by
  have hf := visit_filtered config t ht 0
  constructor
  · intro h
    by_contra hp
    obtain ⟨e, he⟩ := hf.error hp
    rw [Accepts, he] at h
    cases h
  · intro h
    rw [Accepts, hf.ok h]

/-- The module around an expression takes two levels. -/
theorem accepts_module {config : RuntimeConfig} {t : Ast}
    (ht : ∀ s, Within s t → s.label.IsExpression) :
    Accepts config (.node .module [.node .expressionStatement [t]]) ↔
      t.height + 2 ≤ config.maxExpressionDepth ∧ ∀ s, Within s t → ¬ Offends config s := by
  rw [accepts_iff, passes_node, List.forall_mem_singleton, passes_node, List.forall_mem_singleton,
    Passes]
  · constructor
    · rintro ⟨-, -, -, -, hd, ho⟩
      exact ⟨by omega, ho⟩
    · rintro ⟨hd, ho⟩
      exact ⟨by omega, id, by omega, id, by omega, ho⟩
  · intro s hs
    rcases within_node.1 hs with rfl | ⟨c, hc, hs⟩
    · trivial
    · rw [List.mem_singleton.1 hc] at hs
      rcases within_node.1 hs with rfl | ⟨c, hc, hs⟩
      · trivial
      · rw [List.mem_singleton.1 hc] at hs
        exact (ht s hs).recurses

/-- What the filter is for: the trees of the admissible texts come back, and the other texts are
reported. -/
structure Filters (P : Parser) (config : RuntimeConfig) (code : PyStr) : Prop where
  returned : ∀ t, validateAst P config code = .ok t ↔ Admissible P config code t
  reported : (∀ t, ¬ Admissible P config code t) →
    ∃ e, validateAst P config code = .error (.sympy e)

/-- `ast.parse` raises nothing but `SyntaxError` where the filter calls it. -/
def ParsesOrRejects (P : Parser) (config : RuntimeConfig) (code : PyStr) : Prop :=
  (∀ e, P.exec code ≠ .other e) ∧
    ∀ t, P.exec code = .tree t → Accepts config t → ∀ e, P.eval code ≠ .other e

/-- What becomes of a text whose statements have been parsed. -/
theorem validateAst_of_tree {P : Parser} {config : RuntimeConfig} {code : PyStr} {t : Ast}
    (hl : code.length ≤ config.maxStringLength) (hx : P.exec code = .tree t) :
    (¬ Accepts config t ∧ ∃ e, validateAst P config code = .error (.sympy e)) ∨
      (Accepts config t ∧ validateAst P config code =
        match P.eval code with
        | .syntaxError => .error (.sympy .evaluation)
        | .other e => .error (.other e)
        | .tree t => .ok t) := by
  rw [validateAst, if_neg (not_lt.2 hl), hx, Accepts]
  rcases hv : visit config t 0 with ⟨e | u, depth⟩
  · refine .inl ⟨fun h => (nomatch h), e, ?_⟩
    simp only [hv]
  · refine .inr ⟨rfl, ?_⟩
    simp only [hv]

theorem validateAst_eq_ok_iff {P : Parser} {config : RuntimeConfig} {code : PyStr} {t : Ast} :
    validateAst P config code = .ok t ↔ Admissible P config code t := by
  by_cases hl : code.length ≤ config.maxStringLength
  · cases hx : P.exec code with
    | syntaxError =>
      rw [validateAst, if_neg (not_lt.2 hl), hx]
      refine ⟨fun h => (nomatch h), fun h => ?_⟩
      rw [P.same code t h.parses] at hx
      cases hx
    | other e =>
      rw [validateAst, if_neg (not_lt.2 hl), hx]
      refine ⟨fun h => (nomatch h), fun h => ?_⟩
      rw [P.same code t h.parses] at hx
      cases hx
    | tree tx =>
      have hmod (he : P.eval code = .tree t) : Accepts config tx ↔
          t.height + 2 ≤ config.maxExpressionDepth ∧ ∀ s, Within s t → ¬ Offends config s := by
        have hsame := P.same code t he
        rw [hx] at hsame
        cases hsame
        exact accepts_module (P.expression code t he)
      rcases validateAst_of_tree hl hx with ⟨hn, e, he⟩ | ⟨ha, he⟩
      · rw [he]
        refine ⟨fun h => (nomatch h), fun h => ?_⟩
        exact (hn ((hmod h.parses).2 ⟨h.shallow, h.clean⟩)).elim
      · rw [he]
        constructor
        · intro h
          cases hv : P.eval code with
          | syntaxError =>
            rw [hv] at h
            cases h
          | other e =>
            rw [hv] at h
            cases h
          | tree te =>
            rw [hv] at h
            cases h
            obtain ⟨hd, ho⟩ := (hmod hv).1 ha
            exact ⟨hl, hv, hd, ho⟩
        · intro h
          rw [h.parses]
  · rw [validateAst, if_pos (not_le.1 hl)]
    exact ⟨fun h => (nomatch h), fun h => (hl h.short).elim⟩

/-- The filter works unless `ast.parse` raises something that it does not expect. -/
theorem validateAst_filters_iff (P : Parser) (config : RuntimeConfig) (code : PyStr) :
    Filters P config code ↔
      config.maxStringLength < code.length ∨ ParsesOrRejects P config code := by
  constructor
  · intro h
    by_cases hl : config.maxStringLength < code.length
    · exact .inl hl
    · have hout (e : String) : validateAst P config code ≠ .error (.other e) := by
        intro he
        have hn (t : Ast) : ¬ Admissible P config code t := by
          rw [← h.returned, he]
          exact fun h => (nomatch h)
        obtain ⟨e', he'⟩ := h.reported hn
        rw [he'] at he
        cases he
      refine .inr ⟨fun e hx => hout e ?_, fun t hx ha e hv => hout e ?_⟩
      · rw [validateAst, if_neg hl, hx]
      · rcases validateAst_of_tree (not_lt.1 hl) hx with ⟨hn, -⟩ | ⟨-, he⟩
        · exact (hn ha).elim
        · rw [he, hv]
  · intro h
    refine ⟨fun t => validateAst_eq_ok_iff, fun hn => ?_⟩
    by_cases hl : config.maxStringLength < code.length
    · exact ⟨_, if_pos hl⟩
    · obtain ⟨hexec, heval⟩ := h.resolve_left hl
      cases hx : P.exec code with
      | syntaxError =>
        rw [validateAst, if_neg hl, hx]
        exact ⟨_, rfl⟩
      | other e => exact (hexec e hx).elim
      | tree tx =>
        rcases validateAst_of_tree (not_lt.1 hl) hx with ⟨-, he⟩ | ⟨ha, he⟩
        · exact he
        · cases hv : P.eval code with
          | syntaxError =>
            rw [hv] at he
            exact ⟨_, he⟩
          | other e => exact (heval tx hx ha e hv).elim
          | tree t =>
            rw [hv] at he
            exact (hn t (validateAst_eq_ok_iff.1 he)).elim

/-- A parser of the texts of one surrogate: they cannot be encoded. -/
def surrogateParser : Parser where
  exec _ := .other "UnicodeEncodeError"
  eval _ := .other "UnicodeEncodeError"
  expression _ _ h := (nomatch h)
  same _ _ h := (nomatch h)

/-- A text with a lone surrogate is neither let through nor reported. -/
theorem surrogate_escapes : ¬ Filters surrogateParser .default [.surrogate 0] := by
  intro h
  obtain ⟨e, he⟩ := h.reported fun t ha => (nomatch ha.parses)
  cases he

end Obase.SympyRuntime
