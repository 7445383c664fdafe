import Mathlib.Logic.Relation
import Obase.Dict
import Obase.Fallible
import Obase.Run
import Obase.Text

namespace Obase.ToolRegistry
set_option autoImplicit true
open Text

inductive ToolPermission where
  | read
  | write
deriving DecidableEq

inductive ToolStability where
  | stable
  | beta
  | experimental
deriving DecidableEq

inductive ToolError where
  | conflict (fullName : String)
  | notKeywordOnly (fn param : String)
  | annotationMissing (fn param : String)
  | forbiddenType (fn param typeName advice : String)
  | tupleType (fn param : String)
  | nameTooLongForOpenAI (nameSafe : String)
  | nameTooLongForAnthropic (nameSafe : String)
  | raised (text : String)
deriving DecidableEq

/-- A type hint, by its `__name__` (or its text, if it has none) and whether its `__origin__` is
`tuple`. -/
structure Annotation where
  typeName : String
  tupleOrigin : Bool
deriving DecidableEq

structure Parameter (D : Type) where
  name : String
  keywordOnly : Bool
  default : Option D

/-- A function that is registered: what `register` and `inspect` read of it. -/
structure ToolFn (D : Type) where
  module : String
  name : String
  doc : Option String
  parameters : List (Parameter D)
  typeHints : Except ToolError (Dict String Annotation)

structure ToolMeta (D : Type) where
  name : String
  fn : ToolFn D
  permission : ToolPermission
  stability : ToolStability
  description : String
  requiresSecrets : List String

/-- The arguments of `register`. -/
structure RegisterCall (D : Type) where
  fn : ToolFn D
  permission : ToolPermission
  stability : ToolStability
  requiresSecrets : Option (List String)

section
variable {D : Type}

/-- The name that a function is registered under; the modules of a layer share one prefix. -/
def fullName (fn : ToolFn D) : String :=
  let head := String.ofList ((fn.module.toList.splitOn '.').headD [])
  if head ∈ ["oprim", "oskill", "omodul"] then head ++ "." ++ fn.name
  else fn.module ++ "." ++ fn.name

def register (c : RegisterCall D) (tools : Dict String (ToolMeta D)) :
    Except ToolError (Dict String (ToolMeta D)) :=
  let full := fullName c.fn
  if full ∈ tools.keys then .error (.conflict full)
  else
    let description :=
      String.ofList (((strip (c.fn.doc.getD "").toList).splitOn '\n').headD [])
    .ok (tools.set full
      ⟨full, c.fn, c.permission, c.stability, description, c.requiresSecrets.getD []⟩)

/-- The registry after a call; a conflict leaves it as it is. -/
def RegisterStep (tools : Dict String (ToolMeta D)) (c : RegisterCall D)
    (tools' : Dict String (ToolMeta D)) : Prop :=
  tools' = match register c tools with
    | .ok new => new
    | .error _ => tools

/-- The registries that sequences of calls lead to. -/
def Registered (tools : Dict String (ToolMeta D)) : Prop :=
  Run.Reaches RegisterStep (fun _ _ => True) [] tools

end

/-- The loop variables of `_parse_docstring_args`. -/
structure ArgsScan where
  inArgs : Bool
  argIndent : Option Nat
  currentArg : Option (List Char)
  currentDesc : List (List Char)
  result : Dict (List Char) (List Char)

/-- `if current_arg: result[current_arg] = " ".join(current_desc).strip()`. -/
def ArgsScan.close (s : ArgsScan) : ArgsScan :=
  match s.currentArg with
  | some (c :: cs) =>
    { s with result := s.result.set (c :: cs) (strip (List.intercalate [' '] s.currentDesc)) }
  | _ => s

def sectionHeaders : List String :=
  ["Returns:", "Raises:", "Yields:", "Examples:", "Note:", "Notes:"]

def scanArgs (s : ArgsScan) : List (List Char) → ArgsScan
  | [] => s
  | line :: lines =>
    let stripped := strip line
    if stripped = "Args:".toList then scanArgs { s with inArgs := true } lines
    else if !s.inArgs then scanArgs s lines
    else if stripped = [] then scanArgs s lines
    else if String.ofList stripped ∈ sectionHeaders then s
    else
      let indent := line.length - (line.dropWhile isSpace).length
      let argIndent := s.argIndent.getD indent
      let s := { s with argIndent := some argIndent }
      if indent = argIndent ∧ ':' ∈ stripped then
        let start := strip ((stripped.dropWhile (· ≠ ':')).drop 1)
        scanArgs { s.close with
          currentArg := some (strip (stripped.takeWhile (· ≠ ':')))
          currentDesc := if start = [] then [] else [start] } lines
      else if argIndent < indent ∧ s.currentArg.isSome then
        scanArgs { s with currentDesc := s.currentDesc ++ [stripped] } lines
      else scanArgs s lines

def parseDocstringArgs (docstring : List Char) : Dict (List Char) (List Char) :=
  (scanArgs ⟨false, none, none, [], []⟩ (docstring.splitOn '\n')).close.result

def forbiddenTypeHints : Dict String String :=
  [("Path", "use str instead"), ("datetime", "use ISO 8601 string instead"),
    ("date", "use ISO 8601 string instead"), ("bytes", "use base64-encoded str instead"),
    ("tuple", "use list or separate parameters")]

def validateParamType (name : String) (annot : Annotation) (fnName : String) :
    Except ToolError Unit :=
  match forbiddenTypeHints.lookup annot.typeName with
  | some advice => .error (.forbiddenType fnName name annot.typeName advice)
  | none => if annot.tupleOrigin then .error (.tupleType fnName name) else .ok ()

/-- A field of the model of the arguments. -/
structure ArgField (D : Type) where
  name : String
  annotation : Annotation
  default : Option D
  description : String

/-- What `pydantic` makes of the fields: the model, and its JSON schema. -/
structure Pydantic (D M : Type) where
  createModel : String → List (ArgField D) → Except ToolError M
  modelJsonSchema : M → Except ToolError D

section
variable {D M : Type}

def argField (fnName : String) (typeHints : Dict String Annotation)
    (docArgs : Dict (List Char) (List Char)) (param : Parameter D) :
    Except ToolError (ArgField D) :=
  if !param.keywordOnly then .error (.notKeywordOnly fnName param.name)
  else
    match typeHints.lookup param.name with
    | none => .error (.annotationMissing fnName param.name)
    | some annot => do
      validateParamType param.name annot fnName
      pure ⟨param.name, annot, param.default,
        String.ofList ((docArgs.lookup param.name.toList).getD [])⟩

def buildArgsModel (py : Pydantic D M) (fn : ToolFn D) : Except ToolError M := do
  let typeHints ← fn.typeHints
  let docArgs := parseDocstringArgs (fn.doc.getD "").toList
  let fields ← fn.parameters.mapM (argField fn.name typeHints docArgs)
  py.createModel (fn.name ++ "_args") fields

/-- `{"type": "function", "function": {"name": ..., "description": ..., "parameters": ...}}`. -/
structure OpenaiTool (D : Type) where
  type : String
  name : String
  description : String
  parameters : D

structure AnthropicTool (D : Type) where
  name : String
  description : String
  inputSchema : D

/-- `meta.name.replace(".", "__")`. -/
def nameSafe (name : String) : String := String.ofList (replace ['.'] ['_', '_'] name.toList)

def toOpenaiTool (py : Pydantic D M) (tool : ToolMeta D) : Except ToolError (OpenaiTool D) := do
  let argsModel ← buildArgsModel py tool.fn
  if 64 < (nameSafe tool.name).length then .error (.nameTooLongForOpenAI (nameSafe tool.name))
  else
    let parameters ← py.modelJsonSchema argsModel
    pure ⟨"function", nameSafe tool.name, tool.description, parameters⟩

def toAnthropicTool (py : Pydantic D M) (tool : ToolMeta D) :
    Except ToolError (AnthropicTool D) := do
  let argsModel ← buildArgsModel py tool.fn
  if 64 < (nameSafe tool.name).length then .error (.nameTooLongForAnthropic (nameSafe tool.name))
  else
    let inputSchema ← py.modelJsonSchema argsModel
    pure ⟨nameSafe tool.name, tool.description, inputSchema⟩

end

end Obase.ToolRegistry

namespace Obase
set_option autoImplicit true

/-- A character is replaced wherever it stands. -/
theorem Text.replace_char (c : Char) (new cs : List Char) :
    replace [c] new cs = cs.flatMap fun d => if d = c then new else [d] := by
  induction cs with
  | nil => rfl
  | cons d cs ih =>
    rw [replace] at ih
    rw [replace, replaceFrom, List.flatMap_cons, ← ih]
    by_cases h : d = c
    · have hp : [c].isPrefixOf (d :: cs) = true := by simp [h]
      rw [if_pos hp, if_pos h]
      rfl
    · have hp : ¬ [c].isPrefixOf (d :: cs) = true := by simpa using fun he => h he.symm
      rw [if_neg hp, if_neg h]
      rfl

namespace ToolRegistry
open Text

/-- A dot of a name is exchanged for two underscores. -/
inductive Exchange : String → String → Prop
  | mk (u v : List Char) :
      Exchange (String.ofList (u ++ '.' :: v)) (String.ofList (u ++ '_' :: '_' :: v))

/-- One name can be turned into the other by exchanging dots and pairs of underscores. -/
def Confusable (n m : String) : Prop := Relation.EqvGen Exchange n m

/-- No underscore of the name stands before another one or before a dot. -/
def Plain (n : String) : Prop :=
  ¬ ['_', '_'] <:+: n.toList ∧ ¬ ['_', '.'] <:+: n.toList

/-- `wire_name.replace("__", ".")`. -/
def recover (wireName : String) : String :=
  String.ofList (replace ['_', '_'] ['.'] wireName.toList)

theorem toList_nameSafe (n : String) :
    (nameSafe n).toList = n.toList.flatMap fun d => if d = '.' then ['_', '_'] else [d] := by
  rw [nameSafe, String.toList_ofList, replace_char]

theorem Exchange.nameSafe_eq {n m : String} (h : Exchange n m) : nameSafe n = nameSafe m := by
  cases h with
  | mk u v =>
    rw [← String.toList_inj, toList_nameSafe, toList_nameSafe]
    simp

/-- Each dot of a name is exchanged in turn. -/
theorem confusable_replaced (u v : List Char) :
    Confusable (String.ofList (u ++ v))
      (String.ofList (u ++ v.flatMap fun d => if d = '.' then ['_', '_'] else [d])) := by
  induction v generalizing u with
  | nil => exact .refl _
  | cons c v ih =>
    by_cases hc : c = '.'
    · have hnext := ih (u ++ ['_', '_'])
      have hfirst : Confusable (String.ofList (u ++ '.' :: v))
          (String.ofList (u ++ '_' :: '_' :: v)) := .rel _ _ (.mk u v)
      rw [hc]
      refine hfirst.trans _ _ _ ?_
      change Confusable _ _
      simpa using hnext
    · have hnext := ih (u ++ [c])
      simpa [hc] using hnext

theorem confusable_nameSafe (n : String) : Confusable n (nameSafe n) := by
  have h := confusable_replaced [] n.toList
  rw [List.nil_append, List.nil_append, ← toList_nameSafe, String.ofList_toList,
    String.ofList_toList] at h
  exact h

/-- Two names are written alike exactly when one can be turned into the other. -/
theorem nameSafe_eq_iff {n m : String} : nameSafe n = nameSafe m ↔ Confusable n m := by
  constructor
  · intro h
    have hm := (confusable_nameSafe m).symm
    rw [← h] at hm
    exact (confusable_nameSafe n).trans _ _ _ hm
  · intro h
    induction h with
    | rel n m h => exact h.nameSafe_eq
    | refl n => rfl
    | symm n m _ ih => exact ih.symm
    | trans n m k _ _ ih ih' => exact ih.trans ih'

theorem replace_back {n : List Char} (h : ¬ ['_', '_'] <:+: n) (h' : ¬ ['_', '.'] <:+: n) :
    replace ['_', '_'] ['.'] (n.flatMap fun d => if d = '.' then ['_', '_'] else [d]) = n := by
  induction n with
  | nil => rfl
  | cons c n ih =>
    have ht := ih (fun hi => h (hi.trans (List.suffix_cons c n).isInfix))
      (fun hi => h' (hi.trans (List.suffix_cons c n).isInfix))
    rw [replace] at ht
    by_cases hc : c = '.'
    · rw [hc, List.flatMap_cons, if_pos rfl, replace, List.cons_append, List.cons_append,
        List.nil_append, replaceFrom, if_pos (by simp), replaceFrom_skip]
      exact congrArg _ ht
    · have hp : ¬ ['_', '_'].isPrefixOf
          (c :: n.flatMap fun d => if d = '.' then ['_', '_'] else [d]) = true := by
        intro hp
        cases n with
        | nil => simp at hp
        | cons d n =>
          by_cases hd : d = '.'
          · have hc : '_' = c := by simpa [hd] using hp
            exact h' ⟨[], n, by rw [← hc, hd]; rfl⟩
          · have hc : '_' = c ∧ '_' = d := by simpa [hd] using hp
            exact h ⟨[], n, by rw [← hc.1, ← hc.2]; rfl⟩
      rw [List.flatMap_cons, if_neg hc, replace, List.cons_append, List.nil_append, replaceFrom,
        if_neg hp, ht]

theorem recover_nameSafe {n : String} (h : Plain n) : recover (nameSafe n) = n := by
  rw [recover, toList_nameSafe, replace_back h.1 h.2, String.ofList_toList]

section
variable {D M : Type}

/-- A tool is registered under its name. -/
theorem Registered.name_eq {tools : Dict String (ToolMeta D)} (h : Registered tools) :
    ∀ n tool, tools.lookup n = some tool → tool.name = n := by
  refine Run.Reaches.invariant (I := fun tools : Dict String (ToolMeta D) =>
    ∀ n tool, tools.lookup n = some tool → tool.name = n) h (fun _ _ h => nomatch h) ?_
  intro tools c tools' hI _ hstep n tool hn
  rw [RegisterStep, register] at hstep
  dsimp only at hstep
  by_cases hm : fullName c.fn ∈ tools.keys
  · rw [if_pos hm] at hstep
    subst hstep
    exact hI n tool hn
  · rw [if_neg hm] at hstep
    subst hstep
    by_cases he : n = fullName c.fn
    · rw [he, Dict.lookup_set_self] at hn
      cases hn
      exact he.symm
    · rw [Dict.lookup_set_ne he] at hn
      exact hI n tool hn

theorem toOpenaiTool_name {py : Pydantic D M} {tool : ToolMeta D} {o : OpenaiTool D}
    (h : toOpenaiTool py tool = .ok o) : o.name = nameSafe tool.name := by
  rw [toOpenaiTool] at h
  obtain ⟨argsModel, -, h⟩ := bind_ok h
  split at h
  · cases h
  · obtain ⟨parameters, -, h⟩ := bind_ok h
    cases h
    rfl

theorem toAnthropicTool_name {py : Pydantic D M} {tool : ToolMeta D} {a : AnthropicTool D}
    (h : toAnthropicTool py tool = .ok a) : a.name = nameSafe tool.name := by
  rw [toAnthropicTool] at h
  obtain ⟨argsModel, -, h⟩ := bind_ok h
  split at h
  · cases h
  · obtain ⟨inputSchema, -, h⟩ := bind_ok h
    cases h
    rfl

/-- What the wire names of the tools of a registry tell. -/
structure WireNames (py : Pydantic D M) (tools : Dict String (ToolMeta D)) : Prop where
  same : ∀ n tool o a, tools.lookup n = some tool → toOpenaiTool py tool = .ok o →
    toAnthropicTool py tool = .ok a → o.name = a.name
  alike : ∀ n tool o n' tool' o', tools.lookup n = some tool → toOpenaiTool py tool = .ok o →
    tools.lookup n' = some tool' → toOpenaiTool py tool' = .ok o' →
      (o.name = o'.name ↔ Confusable n n')
  recovered : ∀ n tool o, tools.lookup n = some tool → toOpenaiTool py tool = .ok o → Plain n →
    recover o.name = n

/-- Both schemas of a registered tool have one name; two tools share it exactly when dots and pairs
of underscores can be exchanged to turn one name into the other, and the name of a tool without
such pairs is read off it. -/
theorem registered_wireNames (py : Pydantic D M) {tools : Dict String (ToolMeta D)}
    (h : Registered tools) : WireNames py tools := by
  refine ⟨?_, ?_, ?_⟩
  · intro n tool o a _ ho ha
    rw [toOpenaiTool_name ho, toAnthropicTool_name ha]
  · intro n tool o n' tool' o' hn ho hn' ho'
    rw [toOpenaiTool_name ho, toOpenaiTool_name ho', h.name_eq n tool hn, h.name_eq n' tool' hn',
      nameSafe_eq_iff]
  · intro n tool o hn ho hp
    rw [toOpenaiTool_name ho, h.name_eq n tool hn, recover_nameSafe hp]

end

def bareFn (module name : String) : ToolFn Unit := ⟨module, name, none, [], .ok []⟩

def bareTool (module name full : String) : ToolMeta Unit :=
  ⟨full, bareFn module name, .read, .stable, "", []⟩

def registerBare (module name : String) : RegisterCall Unit :=
  ⟨bareFn module name, .read, .stable, none⟩

def barePydantic : Pydantic Unit Unit := ⟨fun _ _ => .ok (), fun _ => .ok ()⟩

/-- A function of a package whose name looks like that of a function of its module. -/
def lookAlikes : Dict String (ToolMeta Unit) :=
  [("a.b__c", bareTool "a" "b__c" "a.b__c"), ("a.b.c", bareTool "a.b" "c" "a.b.c")]

theorem lookAlikes_registered : Registered lookAlikes := by
  have h : Registered [("a.b__c", bareTool "a" "b__c" "a.b__c")] :=
    (Run.Reaches.refl []).tail (a := registerBare "a" "b__c") trivial rfl
  exact h.tail (a := registerBare "a.b" "c") trivial rfl

theorem registered_wireNames_lookAlikes : WireNames barePydantic lookAlikes :=
  registered_wireNames barePydantic lookAlikes_registered

theorem wireNames_collide : ¬ ∀ tools : Dict String (ToolMeta Unit), Registered tools →
    ∀ n tool o n' tool' o', tools.lookup n = some tool → toOpenaiTool barePydantic tool = .ok o →
      tools.lookup n' = some tool' → toOpenaiTool barePydantic tool' = .ok o' → n ≠ n' →
        o.name ≠ o'.name := by
  intro h
  exact h lookAlikes lookAlikes_registered "a.b__c" (bareTool "a" "b__c" "a.b__c")
    ⟨"function", "a__b__c", "", ()⟩ "a.b.c" (bareTool "a.b" "c" "a.b.c")
    ⟨"function", "a__b__c", "", ()⟩ rfl rfl rfl rfl (by decide) rfl

end ToolRegistry
end Obase
