import Mathlib.Data.List.Sort
import Obase.Dict
import Obase.Operators
import Obase.Text
import Obase.WholeWords

namespace Obase.SmtSolver
set_option autoImplicit true
open Operators WholeWords

/-- What `eval` and z3 raise. -/
inductive Raised where
  | valueError
  | typeError
  | syntaxError
  | nameError
  | z3Exception
  | other (name : String)
deriving DecidableEq

/-- The exceptions that `check_satisfiability` catches. -/
def Raised.caught : Raised → Bool
  | other _ => false
  | _ => true

/-- The characters that `\w` matches. -/
structure WordChars where
  word : Char → Bool
  word_ascii : ∀ c, c.toNat < 128 → word c = (c.isAlphanum || c == '_')

/-- A name with the keys it is subscripted with, a number or a truth value. -/
inductive Atom where
  | name (id : List Char) (keys : List (List Char))
  | number (text : List Char)
  | bool (b : Bool)
deriving DecidableEq

/-- Digits, with single underscores between them: the rest of such a text, and whether a digit is
before it. -/
def digitsFrom (digit : Char → Bool) : Bool → List Char → Bool
  | after, [] => after
  | after, c :: cs =>
    if digit c then digitsFrom digit true cs else after && c = '_' && digitsFrom digit false cs

def digitPart (digit : Char → Bool) (cs : List Char) : Bool := digitsFrom digit false cs

def isHexDigit (c : Char) : Bool :=
  c.isDigit || ('a'.toNat ≤ c.toNat && c.toNat ≤ 'f'.toNat) ||
    ('A'.toNat ≤ c.toNat && c.toNat ≤ 'F'.toNat)

/-- A number with a prefix for its base, which an underscore may follow. -/
def isBased : List Char → Bool
  | '0' :: x :: cs =>
    let digits := if cs.head? = some '_' then cs.tail else cs
    if x = 'x' ∨ x = 'X' then digitPart isHexDigit digits
    else if x = 'o' ∨ x = 'O' then digitPart (fun c => c.isDigit && c ≠ '8' && c ≠ '9') digits
    else if x = 'b' ∨ x = 'B' then digitPart (fun c => c = '0' || c = '1') digits
    else false
  | _ => false

/-- A decimal integer: only zero begins with a zero. -/
def isDecimal (w : List Char) : Bool :=
  digitPart Char.isDigit w && (w.head? ≠ some '0' || w.all fun c => c = '0' || c = '_')

def isMantissa (w : List Char) : Bool :=
  let whole := w.takeWhile (· ≠ '.')
  match w.dropWhile (· ≠ '.') with
  | [] => digitPart Char.isDigit whole
  | _ :: fraction =>
    (whole.isEmpty || digitPart Char.isDigit whole) &&
      (fraction.isEmpty || digitPart Char.isDigit fraction) && !(whole.isEmpty && fraction.isEmpty)

def isExponent (c : Char) : Bool := c = 'e' || c = 'E'

/-- A floating-point number: it has a point or an exponent. -/
def isFloat (w : List Char) : Bool :=
  let mantissa := w.takeWhile fun c => !isExponent c
  match w.dropWhile fun c => !isExponent c with
  | [] => '.' ∈ mantissa && isMantissa mantissa
  | _ :: exponent =>
    isMantissa mantissa &&
      digitPart Char.isDigit
        (if exponent.head? = some '+' ∨ exponent.head? = some '-' then exponent.tail else exponent)

/-- The text is an integer or a floating-point number. -/
def isNumber (w : List Char) : Bool := isBased w || isDecimal w || isFloat w

def keywords : List String :=
  ["False", "None", "True", "and", "as", "assert", "async", "await", "break", "class", "continue",
    "def", "del", "elif", "else", "except", "finally", "for", "from", "global", "if", "import",
    "in", "is", "lambda", "nonlocal", "not", "or", "pass", "raise", "return", "try", "while",
    "with", "yield"]

/-- A word as an item, `none` for a keyword that is not an operator or a truth value. -/
def wordItem (w : List Char) : Option (Item Atom) :=
  if String.ofList w = "and" then some (.op .and)
  else if String.ofList w = "or" then some (.op .or)
  else if String.ofList w = "not" then some (.op .not)
  else if String.ofList w = "if" then some .ifWord
  else if String.ofList w = "else" then some .elseWord
  else if String.ofList w = "True" then some (.atom (.bool true))
  else if String.ofList w = "False" then some (.atom (.bool false))
  else if String.ofList w ∈ keywords then none
  else some (.atom (.name w []))

/-- A symbol of one character. -/
def single : Char → Option (Item Atom)
  | '<' => some (.op .lt)
  | '>' => some (.op .gt)
  | '|' => some (.op .bitOr)
  | '^' => some (.op .bitXor)
  | '&' => some (.op .bitAnd)
  | '+' => some (.op .add)
  | '-' => some (.op .sub)
  | '*' => some (.op .mul)
  | '@' => some (.op .matMul)
  | '/' => some (.op .div)
  | '%' => some (.op .mod)
  | '~' => some (.op .invert)
  | '(' => some .opening
  | ')' => some .closing
  | _ => none

/-- A symbol of two characters. -/
def double : Char → Char → Option Op
  | '<', '=' => some .le
  | '>', '=' => some .ge
  | '=', '=' => some .eq
  | '!', '=' => some .ne
  | '<', '<' => some .shiftLeft
  | '>', '>' => some .shiftRight
  | '*', '*' => some .pow
  | '/', '/' => some .floorDiv
  | _, _ => none

/-- What is read but may go on: a number, a symbol, or a subscript up to a place in it. -/
inductive Pending where
  | nothing
  | number (w : List Char)
  | symbol (c : Char)
  | bracket
  | quote
  | key (k : List Char)
  | quoted (k : List Char)

/-- The items that have been read, the last one first, and what may go on. -/
structure Lexer where
  out : List (Item Atom)
  pending : Pending

/-- The items with the one that does not go on. -/
def Lexer.flush (s : Lexer) : Option (List (Item Atom)) :=
  match s.pending with
  | .nothing => some s.out
  | .number w => if isNumber w then some (.atom (.number w) :: s.out) else none
  | .symbol c => (single c).map (· :: s.out)
  | _ => none

/-- The number may go on with a sign. -/
def exponentOpen (w : List Char) : Bool :=
  (w.getLast?.map isExponent).getD false && w.take 2 ≠ ['0', 'x'] && w.take 2 ≠ ['0', 'X']

/-- A word that does not go on with a number. -/
def Lexer.word (s : Lexer) (w : List Char) : Option Lexer := do
  let out ← s.flush
  if (w.head?.map Char.isDigit).getD false then some ⟨out, .number w⟩
  else
    let item ← wordItem w
    some ⟨item :: out, .nothing⟩

/-- A character that does not go on with a number. -/
def Lexer.other (s : Lexer) (c : Char) : Option Lexer := do
  let out ← s.flush
  if c = ' ' ∨ c = '\t' ∨ c = '\x0c' then some ⟨out, .nothing⟩
  else if c = '.' then some ⟨out, .number ['.']⟩
  else if c = '[' then some ⟨out, .bracket⟩
  else some ⟨out, .symbol c⟩

/-- The tokens of an expression on one line: names, numbers, operators and subscripts by a word in
quotes. -/
def Lexer.step (s : Lexer) : Piece → Option Lexer
  | .word w =>
    match s.pending with
    | .number n =>
      if n.getLast? = some '.' ∨ (w.head?.map Char.isDigit).getD false then
        some ⟨s.out, .number (n ++ w)⟩
      else none
    | .quote => some ⟨s.out, .key w⟩
    | .bracket | .key _ | .quoted _ => none
    | _ => s.word w
  | .other c =>
    match s.pending with
    | .number n =>
      if c = '.' ∨ (c = '+' ∨ c = '-') ∧ exponentOpen n then some ⟨s.out, .number (n ++ [c])⟩
      else s.other c
    | .symbol d =>
      match double d c with
      | some o => some ⟨.op o :: s.out, .nothing⟩
      | none => s.other c
    | .bracket => if c = '\'' then some ⟨s.out, .quote⟩ else none
    | .quote => none
    | .key k => if c = '\'' then some ⟨s.out, .quoted k⟩ else none
    | .quoted k =>
      match s.out with
      | .atom (.name id keys) :: out =>
        if c = ']' then some ⟨.atom (.name id (keys ++ [k])) :: out, .nothing⟩ else none
      | _ => none
    | .nothing => s.other c

/-- The items of an expression in pieces, `none` for a `SyntaxError`. -/
def lex (ps : List Piece) : Option (List (Item Atom)) :=
  (ps.foldlM Lexer.step ⟨[], .nothing⟩).bind fun s => s.flush.map List.reverse

/-- The syntax tree of an expression, `none` for a `SyntaxError`. -/
def read (W : WordChars) (text : List Char) : Option (Operators.Tree Atom) :=
  (lex (pieces W.word text)).bind parse

/-- `declared`. -/
def declaredName : List Char := ['d', 'e', 'c', 'l', 'a', 'r', 'e', 'd']

/-- `declared[{token!r}]`, in pieces. -/
def bracket (token : List Char) : List Piece :=
  [.other '[', .other '\'', .word token, .other '\'', .other ']']

def replacement (token : List Char) : List Piece := .word declaredName :: bracket token

/-- `sorted(declared, key=len, reverse=True)`. -/
def order (names : List String) : List (List Char) :=
  (names.map String.toList).insertionSort fun a b => b.length ≤ a.length

/-- The text of an assertion with each declared name replaced, one after another. -/
def substituted (W : WordChars) (names : List String) (text : List Char) : List Char :=
  (order names).foldl
    (fun text token => replaceWord W.word token ((replacement token).flatMap Piece.text) text) text

inductive Answer where
  | sat
  | unsat
  | unknown

/-- The package z3 with the values of expressions: the symbols of each sort, numbers, operators,
what a solver takes for a constraint, its answer on the constraints, and the declarations of its
model with what `model.eval(d).as_long()` gives. Values made without symbols are plain. -/
structure Z3 (V : Type) extends Algebra V Raised where
  const : String → String → V
  number : List Char → V
  add : V → Except Raised Unit
  check : List V → Answer
  decls : List V → List (String × Except Raised Int)
  plain : V → Prop
  plain_number : ∀ w, plain (number w)
  plain_bool : ∀ b, plain (ofBool b)
  plain_sign : ∀ o v w, plain v → signOp o v = .ok w → plain w
  plain_pair : ∀ o u v w, plain u → plain v → pairOp o u v = .ok w → plain w
  decls_plain : ∀ vs, (∀ v ∈ vs, plain v) → decls vs = []

structure Payload where
  status : String
  satisfiable : Option Bool
  model : Option (Dict String Int)

section
variable (Z : Z3 V) (W : WordChars)

/-- What an atom evaluates to: a symbol cannot be subscripted. -/
def leafValue (names : Dict String V) : Atom → Except Raised V
  | .name id keys =>
    match names.lookup (String.ofList id) with
    | none => .error .nameError
    | some v => if keys = [] then .ok v else .error .typeError
  | .number w => .ok (Z.number w)
  | .bool b => .ok (Z.ofBool b)

/-- `eval(expr, {"__builtins__": {}}, names)`. -/
def evalText (names : Dict String V) (text : List Char) : Except Raised V :=
  match read W text with
  | none => .error .syntaxError
  | some t => t.eval Z.toAlgebra (leafValue Z names)

/-- The symbols of the declarations. -/
def declare : Dict String V → List (String × String) → Except Raised (Dict String V)
  | declared, [] => .ok declared
  | declared, (name, type) :: ds =>
    if type = "Bool" ∨ type = "Int" ∨ type = "Real" then
      declare (declared.set name (Z.const type name)) ds
    else .error .valueError

/-- The constraints that are added to the solver. -/
def constraints (declared : Dict String V) (assertions : List (List Char)) :
    Except Raised (List V) :=
  assertions.mapM fun expr => do
    let v ← evalText Z W declared (substituted W (Dict.keys declared) expr)
    Z.add v
    pure v

/-- The body of the `try` of `check_satisfiability`. -/
def added (declarations : List (String × String)) (assertions : List (List Char)) :
    Except Raised (List V) := do
  let declared ← declare Z [] declarations
  constraints Z W declared assertions

/-- The payload for the answer of the solver. -/
def answered (vs : List V) : Except Raised Payload :=
  match Z.check vs with
  | .sat => do
    let model ← (Z.decls vs).mapM fun d => d.2.map fun v => (d.1, v)
    pure ⟨"sat", some true, some (Dict.ofPairs model)⟩
  | .unsat => .ok ⟨"unsat", some false, none⟩
  | .unknown => .ok ⟨"unknown", none, none⟩

def checkSatisfiability (available : Bool) (declarations : List (String × String))
    (assertions : List (List Char)) : Except Raised Payload :=
  if available = false then .ok ⟨"unavailable", none, none⟩
  else
    match added Z W declarations assertions with
    | .error e => if e.caught then .ok ⟨"error", none, none⟩ else .error e
    | .ok vs => answered Z vs

/-- The declarations have distinct names that are identifiers, and types that are known. -/
structure Declares (declarations : List (String × String)) : Prop where
  distinct : (declarations.map Prod.fst).Nodup
  identifier : ∀ d ∈ declarations, IsWord W.word d.1.toList ∧
    (d.1.toList.head?.map Char.isDigit).getD false = false ∧ d.1 ∉ keywords
  sort : ∀ d ∈ declarations, d.2 = "Bool" ∨ d.2 = "Int" ∨ d.2 = "Real"

/-- Each name with its own symbol. -/
def symbols (declarations : List (String × String)) : Dict String V :=
  declarations.map fun d => (d.1, Z.const d.2 d.1)

/-- The assertion is an expression with names, numbers and operators, and its value, with every name
standing for its own symbol, is one that the solver takes. -/
structure Means (declarations : List (String × String)) (expr : List Char) (v : V) : Prop where
  unsubscripted : '[' ∉ expr
  value : evalText Z W (symbols Z declarations) expr = .ok v
  added : Z.add v = .ok ()

/-- The constraints are the values of the assertions and the status is the answer on them, with a
model for `sat`. -/
def Right (declarations : List (String × String)) (assertions : List (List Char)) (vs : List V) :
    Prop :=
  added Z W declarations assertions = .ok vs ∧ ∃ p,
    checkSatisfiability Z W true declarations assertions = .ok p ∧
      match Z.check vs with
      | .sat => p.status = "sat" ∧ p.satisfiable = some true ∧ ∃ model,
          (Z.decls vs).mapM (fun d => d.2.map fun v => (d.1, v)) = .ok model ∧
            p.model = some (Dict.ofPairs model)
      | .unsat => p = ⟨"unsat", some false, none⟩
      | .unknown => p = ⟨"unknown", none, none⟩

/-- The evaluation of the assertion comes to a name. -/
def Loads (declarations : List (String × String)) (expr : List Char) : Prop :=
  ∃ t, read W expr = some t ∧
    ∃ id keys, .name id keys ∈ t.reads Z.toAlgebra (leafValue Z (symbols Z declarations))

/-- A number of the assertion has a declared name right after its point. -/
def Glued (declarations : List (String × String)) (expr : List Char) : Prop :=
  ∃ d ∈ declarations, [.other '.', .word d.1.toList] <:+: pieces W.word expr

end

/-- What a piece becomes under the substitutions of some words, one after another. -/
def expand (words : List (List Char)) (p : Piece) : List Piece :=
  words.foldl (fun ps w => ps.flatMap (substitute w (replacement w))) [p]

/-- The keys that a name ends with. -/
def keysOf : List (List Char) → List Char → List (List Char)
  | [], _ => []
  | w :: ws, n => if w = n then keysOf ws declaredName ++ [n] else keysOf ws n

theorem expand_cons (w : List Char) (ws : List (List Char)) (p : Piece) :
    expand (w :: ws) p = (substitute w (replacement w) p).flatMap (expand ws) := by
  have hf (ps : List Piece) : ws.foldl (fun ps w => ps.flatMap (substitute w (replacement w))) ps =
      ps.flatMap (expand ws) := by
    induction ws generalizing ps with
    | nil => exact (List.flatMap_singleton' ps).symm
    | cons v vs ih =>
      rw [List.foldl_cons, ih, List.flatMap_assoc]
      congr 1
      funext q
      rw [expand, List.foldl_cons, List.flatMap_singleton, ih]
  rw [expand, List.foldl_cons, List.flatMap_singleton, hf]

theorem expand_other (ws : List (List Char)) (c : Char) : expand ws (.other c) = [.other c] := by
  induction ws with
  | nil => rfl
  | cons w ws ih =>
    rw [expand_cons, substitute, if_neg fun h => (by cases h), List.flatMap_singleton, ih]

theorem expand_not_mem {ws : List (List Char)} {n : List Char} (h : n ∉ ws) :
    expand ws (.word n) = [.word n] := by
  induction ws with
  | nil => rfl
  | cons w ws ih =>
    rw [List.mem_cons, not_or] at h
    rw [expand_cons, substitute, if_neg fun he => h.1 (Piece.word.inj he), List.flatMap_singleton,
      ih h.2]

theorem keysOf_not_mem {ws : List (List Char)} {n : List Char} (h : n ∉ ws) : keysOf ws n = [] := by
  induction ws with
  | nil => rfl
  | cons w ws ih =>
    rw [List.mem_cons, not_or] at h
    rw [keysOf, if_neg fun he => h.1 he.symm, ih h.2]

/-- A word that is replaced becomes `declared` with keys. -/
theorem expand_mem {ws : List (List Char)} (hn : ws.Nodup) {n : List Char} (h : n ∈ ws) :
    expand ws (.word n) = .word declaredName :: (keysOf ws n).flatMap bracket := by
  induction ws generalizing n with
  | nil => cases h
  | cons w ws ih =>
    obtain ⟨hw, hn⟩ := List.nodup_cons.1 hn
    rw [expand_cons, substitute, keysOf]
    by_cases he : w = n
    · subst he
      have hb : (bracket w).flatMap (expand ws) = bracket w := by
        rw [bracket, List.flatMap_cons, List.flatMap_cons, List.flatMap_cons, List.flatMap_cons,
          List.flatMap_singleton, expand_other, expand_other, expand_other, expand_not_mem hw]
        rfl
      have hd : expand ws (.word declaredName) =
          .word declaredName :: (keysOf ws declaredName).flatMap bracket := by
        by_cases hd : declaredName ∈ ws
        · exact ih hn hd
        · rw [expand_not_mem hd, keysOf_not_mem hd]
          rfl
      rw [if_pos rfl, if_pos rfl, replacement, List.flatMap_cons, hd, hb, List.flatMap_append,
        List.flatMap_singleton]
      rfl
    · rw [if_neg fun h => he (Piece.word.inj h).symm, if_neg he, List.flatMap_singleton,
        ih hn ((List.mem_cons.1 h).resolve_left fun h => he h.symm)]

theorem keysOf_ne_nil {ws : List (List Char)} {n : List Char} (h : n ∈ ws) : keysOf ws n ≠ [] := by
  induction ws with
  | nil => cases h
  | cons w ws ih =>
    rw [keysOf]
    by_cases he : w = n
    · rw [if_pos he]
      exact List.append_ne_nil_of_right_ne_nil _ (List.cons_ne_nil _ _)
    · rw [if_neg he]
      exact ih ((List.mem_cons.1 h).resolve_left fun h => he h.symm)

section
variable {W : WordChars}

theorem word_ascii_eq {c : Char} (hc : c.toNat < 128) {b : Bool}
    (h : (c.isAlphanum || c == '_') = b) : W.word c = b := by
  rw [W.word_ascii c hc, h]

theorem isWord_declared : IsWord W.word declaredName := by
  have hd : ∀ c ∈ declaredName, c.toNat < 128 ∧ (c.isAlphanum || c == '_') = true :=
    Text.forall_mem_of_all (by decide)
  exact ⟨List.cons_ne_nil _ _, fun c hc => word_ascii_eq (hd c hc).1 (hd c hc).2⟩

theorem cut_replacement {w : List Char} (hw : IsWord W.word w) (qs : List Piece)
    (h : Cut W.word qs) : Cut W.word (replacement w ++ qs) := by
  refine ⟨isWord_declared, fun v hv => (nomatch hv), word_ascii_eq (by decide) (by decide),
    word_ascii_eq (by decide) (by decide), hw, fun v hv => (nomatch hv),
    word_ascii_eq (by decide) (by decide), word_ascii_eq (by decide) (by decide), h⟩

theorem pieces_foldl {ws : List (List Char)} (hw : ∀ w ∈ ws, IsWord W.word w) (text : List Char) :
    pieces W.word (ws.foldl (fun text w =>
      replaceWord W.word w ((replacement w).flatMap Piece.text) text) text) =
        (pieces W.word text).flatMap (expand ws) := by
  induction ws generalizing text with
  | nil => exact (List.flatMap_singleton' _).symm
  | cons w ws ih =>
    rw [List.foldl_cons, ih fun v hv => hw v (.tail _ hv),
      pieces_replaceWord (hw w (.head _)) (cut_replacement (hw w (.head _))), List.flatMap_assoc]
    congr 1
    funext p
    rw [expand_cons]

theorem mem_order {names : List String} {n : String} : n.toList ∈ order names ↔ n ∈ names := by
  rw [order, List.mem_insertionSort, List.mem_map]
  constructor
  · rintro ⟨m, hm, he⟩
    rwa [← String.toList_inj.1 he]
  · exact fun h => ⟨n, h, rfl⟩

theorem nodup_order {names : List String} (h : names.Nodup) : (order names).Nodup :=
  (List.perm_insertionSort _ _).nodup_iff.2 (h.map fun _ _ he => String.toList_inj.1 he)

/-- The pieces of an assertion after the substitution of the declared names. -/
theorem pieces_substituted {names : List String} (hn : ∀ n ∈ names, IsWord W.word n.toList)
    (text : List Char) : pieces W.word (substituted W names text) =
      (pieces W.word text).flatMap (expand (order names)) := by
  apply pieces_foldl
  intro w hw
  rw [order, List.mem_insertionSort] at hw
  obtain ⟨n, hm, rfl⟩ := List.mem_map.1 hw
  exact hn n hm

end

theorem mem_of_digitsFrom {digit : Char → Bool} {after : Bool} {cs : List Char}
    (h : digitsFrom digit after cs = true) : ∀ c ∈ cs, digit c = true ∨ c = '_' := by
  induction cs generalizing after with
  | nil => exact fun _ hc => (by cases hc)
  | cons c cs ih =>
    rw [digitsFrom] at h
    rw [List.forall_mem_cons]
    by_cases hd : digit c = true
    · rw [if_pos hd] at h
      exact ⟨.inl hd, ih h⟩
    · rw [if_neg hd, Bool.and_eq_true, Bool.and_eq_true, decide_eq_true_eq] at h
      exact ⟨.inr h.1.2, ih h.2⟩

theorem not_mem_of_digitPart {digit : Char → Bool} {cs : List Char} {c : Char}
    (h : digitPart digit cs = true) (hd : digit c = false) (hc : c ≠ '_') : c ∉ cs := by
  intro hm
  rcases mem_of_digitsFrom h c hm with h | h
  · rw [hd] at h
    cases h
  · exact hc h

theorem l_not_mem_based {w : List Char} (h : isBased w = true) : 'l' ∉ w := by
  have hdigits {digit : Char → Bool} {cs : List Char} (hd : digit 'l' = false)
      (h : digitPart digit (if cs.head? = some '_' then cs.tail else cs) = true) : 'l' ∉ cs := by
    have hn := not_mem_of_digitPart h hd (by decide)
    intro hm
    split at hn
    · rename_i hh
      obtain ⟨ds, rfl⟩ := List.head?_eq_some_iff.1 hh
      exact hn ((List.mem_cons.1 hm).resolve_left (by decide))
    · exact hn hm
  cases w with
  | nil => cases h
  | cons a w =>
    cases w with
    | nil =>
      rw [isBased] at h
      · cases h
      · exact fun _ _ he => (nomatch he)
    | cons x cs =>
      by_cases ha : a = '0'
      · subst ha
        rw [isBased] at h
        rw [List.mem_cons, List.mem_cons, not_or, not_or]
        by_cases hx : x = 'x' ∨ x = 'X'
        · rw [if_pos hx] at h
          exact ⟨by decide, by rcases hx with rfl | rfl <;> decide, hdigits (by decide) h⟩
        · rw [if_neg hx] at h
          by_cases ho : x = 'o' ∨ x = 'O'
          · rw [if_pos ho] at h
            exact ⟨by decide, by rcases ho with rfl | rfl <;> decide, hdigits (by decide) h⟩
          · rw [if_neg ho] at h
            by_cases hb : x = 'b' ∨ x = 'B'
            · rw [if_pos hb] at h
              exact ⟨by decide, by rcases hb with rfl | rfl <;> decide, hdigits (by decide) h⟩
            · rw [if_neg hb] at h
              cases h
      · rw [isBased] at h
        · cases h
        · exact fun y ds he => ha (List.cons.inj he).1

theorem of_dropWhile {p : Char → Bool} {c : Char} {cs w : List Char}
    (h : w.dropWhile p = c :: cs) : p c = false := by
  have hn := List.head?_dropWhile_not p w
  rw [h] at hn
  exact hn

theorem l_not_mem_mantissa {w : List Char} (h : isMantissa w = true) : 'l' ∉ w := by
  rw [isMantissa] at h
  have hdigits {cs : List Char} (h : digitPart Char.isDigit cs = true) : 'l' ∉ cs :=
    not_mem_of_digitPart h (by decide) (by decide)
  have hsplit := List.takeWhile_append_dropWhile (p := (· ≠ '.')) (l := w)
  have hempty {cs : List Char} (h : (cs.isEmpty || digitPart Char.isDigit cs) = true) :
      'l' ∉ cs := by
    rw [Bool.or_eq_true, List.isEmpty_iff] at h
    rcases h with rfl | h
    · exact List.not_mem_nil
    · exact hdigits h
  rw [← hsplit, List.mem_append, not_or]
  cases hd : w.dropWhile (· ≠ '.') with
  | nil =>
    rw [hd] at h
    exact ⟨hdigits h, List.not_mem_nil⟩
  | cons c fraction =>
    rw [hd] at h
    have hc := of_dropWhile hd
    dsimp only at h
    rw [Bool.and_eq_true, Bool.and_eq_true] at h
    refine ⟨hempty h.1.1, fun hm => ?_⟩
    rcases List.mem_cons.1 hm with rfl | hm
    · exact absurd hc (by decide)
    · exact hempty h.1.2 hm

theorem l_not_mem_float {w : List Char} (h : isFloat w = true) : 'l' ∉ w := by
  rw [isFloat] at h
  have hsplit := List.takeWhile_append_dropWhile (p := fun c => !isExponent c) (l := w)
  rw [← hsplit, List.mem_append, not_or]
  cases hd : w.dropWhile fun c => !isExponent c with
  | nil =>
    rw [hd] at h
    dsimp only at h
    rw [Bool.and_eq_true] at h
    exact ⟨l_not_mem_mantissa h.2, List.not_mem_nil⟩
  | cons c exponent =>
    rw [hd] at h
    dsimp only at h
    rw [Bool.and_eq_true] at h
    refine ⟨l_not_mem_mantissa h.1, fun hm => ?_⟩
    have hn := not_mem_of_digitPart h.2 (by decide) (show 'l' ≠ '_' by decide)
    rcases List.mem_cons.1 hm with rfl | hm
    · exact absurd (of_dropWhile hd) (by decide)
    · split at hn
      · rename_i hh
        cases exponent with
        | nil => cases hm
        | cons a exponent =>
          rcases List.mem_cons.1 hm with rfl | hm
          · rcases hh with hh | hh
            · exact absurd (Option.some_inj.1 hh) (by decide)
            · exact absurd (Option.some_inj.1 hh) (by decide)
          · exact hn hm
      · exact hn hm

/-- No number has a letter that is not a digit or a mark of one. -/
theorem l_not_mem_number {w : List Char} (h : isNumber w = true) : 'l' ∉ w := by
  rw [isNumber, Bool.or_eq_true, Bool.or_eq_true] at h
  rcases h with (h | h) | h
  · exact l_not_mem_based h
  · rw [isDecimal, Bool.and_eq_true] at h
    exact not_mem_of_digitPart h.1 (by decide) (by decide)
  · exact l_not_mem_float h

/-- The atom after the substitution of some words. -/
def expandAtom (ws : List (List Char)) : Atom → Atom
  | .name id keys =>
    if keys = [] ∧ id ∈ ws then .name declaredName (keysOf ws id) else .name id keys
  | a => a

def Lexer.map (f : Atom → Atom) (s : Lexer) : Lexer := ⟨s.out.map (Item.map f), s.pending⟩

/-- What may go on is not a subscript. -/
def Pending.Plain : Pending → Prop
  | nothing | number _ | symbol _ => True
  | _ => False

section
variable {ws : List (List Char)} {s t : Lexer}

theorem single_map (f : Atom → Atom) (c : Char) : (single c).map (Item.map f) = single c := by
  unfold single
  split <;> rfl

theorem flush_map (s : Lexer) : (s.map (expandAtom ws)).flush =
    s.flush.map (List.map (Item.map (expandAtom ws))) := by
  obtain ⟨out, pending⟩ := s
  cases pending with
  | nothing => rfl
  | number w =>
    rw [Lexer.flush, Lexer.flush, Lexer.map]
    dsimp only
    split <;> rfl
  | symbol c =>
    rw [Lexer.flush, Lexer.flush, Lexer.map]
    dsimp only
    conv_lhs => rw [← single_map (expandAtom ws) c]
    cases single c <;> rfl
  | bracket => rfl
  | quote => rfl
  | key k => rfl
  | quoted k => rfl

theorem wordItem_map {w : List Char} (hw : w ∉ ws) :
    (wordItem w).map (Item.map (expandAtom ws)) = wordItem w := by
  have he : Item.map (expandAtom ws) (.atom (.name w [])) = .atom (.name w []) := by
    rw [Item.map, expandAtom, if_neg fun h => hw h.2]
  unfold wordItem
  split_ifs
  all_goals first | rfl | exact congrArg some he

theorem word_map {w : List Char} (hw : w ∉ ws) (s : Lexer) :
    (s.map (expandAtom ws)).word w = (s.word w).map (Lexer.map (expandAtom ws)) := by
  rw [Lexer.word, Lexer.word, flush_map]
  cases s.flush with
  | none => rfl
  | some out =>
    change (if _ then _ else _) = Option.map _ (if _ then _ else _)
    split
    · rfl
    · conv_lhs => rw [← wordItem_map hw]
      cases wordItem w <;> rfl

theorem other_map (s : Lexer) (c : Char) :
    (s.map (expandAtom ws)).other c = (s.other c).map (Lexer.map (expandAtom ws)) := by
  rw [Lexer.other, Lexer.other, flush_map]
  cases s.flush with
  | none => rfl
  | some out =>
    change (if _ then _ else if _ then _ else if _ then _ else _) =
      Option.map _ (if _ then _ else if _ then _ else if _ then _ else _)
    split_ifs <;> rfl

/-- Apart from subscripts and the words that are replaced, reading goes on in the same way. -/
theorem step_map {p : Piece} (hs : s.pending.Plain) (hp : ∀ w ∈ ws, p ≠ .word w) :
    (s.map (expandAtom ws)).step p = (s.step p).map (Lexer.map (expandAtom ws)) := by
  obtain ⟨out, pending⟩ := s
  cases p with
  | word w =>
    have hw : w ∉ ws := fun hm => hp w hm rfl
    cases pending with
    | nothing => exact word_map hw _
    | symbol c => exact word_map hw _
    | number n =>
      change (if _ then _ else _) = Option.map _ (if _ then _ else _)
      split_ifs <;> rfl
    | bracket => cases hs
    | quote => cases hs
    | key k => cases hs
    | quoted k => cases hs
  | other c =>
    cases pending with
    | nothing => exact other_map _ c
    | number n =>
      change (if _ then _ else _) = Option.map _ (if _ then _ else _)
      split_ifs
      · rfl
      · exact other_map _ c
    | symbol d =>
      rw [Lexer.step, Lexer.step, Lexer.map]
      dsimp only
      cases double d c with
      | none => exact other_map ⟨out, .symbol d⟩ c
      | some o => rfl
    | bracket => cases hs
    | quote => cases hs
    | key k => cases hs
    | quoted k => cases hs

theorem wordItem_name {w : List Char} (h : String.ofList w ∉ keywords) :
    wordItem w = some (.atom (.name w [])) := by
  have hne (k : String) (hk : k ∈ keywords) : String.ofList w ≠ k := fun he => h (he ▸ hk)
  rw [wordItem, if_neg (hne _ (by decide)), if_neg (hne _ (by decide)), if_neg (hne _ (by decide)),
    if_neg (hne _ (by decide)), if_neg (hne _ (by decide)), if_neg (hne _ (by decide)),
    if_neg (hne _ (by decide)), if_neg h]

/-- The word is an identifier. -/
def IsName (w : List Char) : Prop :=
  (w.head?.map Char.isDigit).getD false = false ∧ String.ofList w ∉ keywords

theorem isName_declared : IsName declaredName := ⟨rfl, by decide +kernel⟩

theorem word_name {w : List Char} (h : IsName w) (s : Lexer) :
    s.word w = s.flush.map fun out => ⟨.atom (.name w []) :: out, .nothing⟩ := by
  rw [Lexer.word, h.1, wordItem_name h.2]
  cases s.flush <;> rfl

theorem step_word_number {n w : List Char} (h : IsName w) (hs : s.pending = .number n) :
    s.step (.word w) =
      if n.getLast? = some '.' then some ⟨s.out, .number (n ++ w)⟩ else none := by
  obtain ⟨out, pending⟩ := s
  cases hs
  rw [Lexer.step, h.1]
  by_cases hl : n.getLast? = some '.'
  · rw [if_pos hl]
    exact if_pos (.inl hl)
  · rw [if_neg hl]
    exact if_neg fun hc => hc.elim hl fun hf => (by cases hf)

theorem step_word {w : List Char} (hs : s.pending.Plain) (hn : ∀ n, s.pending ≠ .number n) :
    s.step (.word w) = s.word w := by
  obtain ⟨out, pending⟩ := s
  cases pending with
  | nothing => rfl
  | symbol c => rfl
  | number n => exact (hn n rfl).elim
  | bracket => cases hs
  | quote => cases hs
  | key k => cases hs
  | quoted k => cases hs

theorem foldlM_keys (id : List Char) (out : List (Item Atom)) (ks keys : List (List Char)) :
    (keys.flatMap bracket).foldlM Lexer.step ⟨.atom (.name id ks) :: out, .nothing⟩ =
      some ⟨.atom (.name id (ks ++ keys)) :: out, .nothing⟩ := by
  induction keys generalizing ks with
  | nil => rw [List.append_nil]; rfl
  | cons k keys ih =>
    have hk : (bracket k).foldlM Lexer.step ⟨.atom (.name id ks) :: out, .nothing⟩ =
        some ⟨.atom (.name id (ks ++ [k])) :: out, .nothing⟩ := rfl
    rw [List.flatMap_cons, List.foldlM_append, hk, List.append_cons ks k keys]
    exact ih _

/-- Reading goes on with a number that ends with its point. -/
def Lexer.Dotted (s : Lexer) : Prop := ∃ n, s.pending = .number n ∧ n.getLast? = some '.'

theorem word_pending {w : List Char} (h : s.word w = some t) :
    t.pending = .nothing ∨ t.pending = .number w := by
  rw [Lexer.word] at h
  obtain ⟨out, -, h⟩ := Option.bind_eq_some_iff.1 h
  split at h
  · cases h
    exact .inr rfl
  · obtain ⟨item, -, h⟩ := Option.bind_eq_some_iff.1 h
    cases h
    exact .inl rfl

theorem other_pending {c : Char} (hc : c ≠ '[') (h : s.other c = some t) :
    c = '.' ∧ t.pending = .number ['.'] ∨
      c ≠ '.' ∧ (t.pending = .nothing ∨ t.pending = .symbol c) := by
  rw [Lexer.other] at h
  obtain ⟨out, -, h⟩ := Option.bind_eq_some_iff.1 h
  by_cases hs : c = ' ' ∨ c = '\t' ∨ c = '\x0c'
  · rw [if_pos hs] at h
    cases h
    exact .inr ⟨by rcases hs with rfl | rfl | rfl <;> decide, .inl rfl⟩
  · rw [if_neg hs] at h
    by_cases hd : c = '.'
    · rw [if_pos hd] at h
      cases h
      exact .inl ⟨hd, rfl⟩
    · rw [if_neg hd, if_neg hc] at h
      cases h
      exact .inr ⟨hd, .inr rfl⟩

theorem double_dot (d : Char) : double d '.' = none := by
  unfold double
  split
  all_goals first | rfl | simp_all

/-- What a piece that opens no subscript leads to. -/
theorem step_plain {W : WordChars} {p : Piece} (hs : s.pending.Plain) (hb : p ≠ .other '[')
    (hw : ∀ w, p = .word w → IsWord W.word w) (h : s.step p = some t) :
    t.pending.Plain ∧ (t.Dotted ↔ p = .other '.') := by
  have hlast (n w : List Char) (hw : IsWord W.word w) : (n ++ w).getLast? ≠ some '.' := by
    rw [List.getLast?_append, List.getLast?_eq_some_getLast hw.1, Option.some_or]
    intro he
    have hc := hw.2 _ (List.getLast_mem hw.1)
    rw [Option.some_inj.1 he, word_ascii_eq (by decide) (show _ = false by decide)] at hc
    cases hc
  have hnum {n w : List Char} (hw : IsWord W.word w) (ht : t.pending = .number (n ++ w)) :
      t.pending.Plain ∧ (t.Dotted ↔ Piece.word w = .other '.') := by
    refine ⟨by rw [ht]; trivial, fun ⟨m, hm, hd⟩ => ?_, fun he => (nomatch he)⟩
    rw [ht] at hm
    cases hm
    exact (hlast _ _ hw hd).elim
  have hnone {q : Piece} (hq : q ≠ .other '.') (ht : t.pending = .nothing) :
      t.pending.Plain ∧ (t.Dotted ↔ q = .other '.') := by
    refine ⟨by rw [ht]; trivial, fun ⟨m, hm, _⟩ => ?_, fun he => (hq he).elim⟩
    rw [ht] at hm
    cases hm
  have hother {c : Char} (hc : c ≠ '[') {s : Lexer} (h : s.other c = some t) :
      t.pending.Plain ∧ (t.Dotted ↔ Piece.other c = .other '.') := by
    rcases other_pending hc h with ⟨rfl, ht⟩ | ⟨hd, ht | ht⟩
    · exact ⟨by rw [ht]; trivial, fun _ => rfl, fun _ => ⟨_, ht, rfl⟩⟩
    · exact hnone (fun he => hd (Piece.other.inj he)) ht
    · refine ⟨by rw [ht]; trivial, fun ⟨m, hm, _⟩ => ?_, fun he => (hd (Piece.other.inj he)).elim⟩
      rw [ht] at hm
      cases hm
  obtain ⟨out, pending⟩ := s
  cases p with
  | word w =>
    have hww := hw w rfl
    have hword (h : Lexer.word ⟨out, pending⟩ w = some t) :
        t.pending.Plain ∧ (t.Dotted ↔ Piece.word w = .other '.') := by
      rcases word_pending h with ht | ht
      · exact hnone (fun he => (nomatch he)) ht
      · exact hnum (n := []) hww ht
    cases pending with
    | nothing => exact hword h
    | symbol c => exact hword h
    | number n =>
      rw [Lexer.step] at h
      dsimp only at h
      split at h
      · cases h
        exact hnum hww rfl
      · cases h
    | bracket => cases hs
    | quote => cases hs
    | key k => cases hs
    | quoted k => cases hs
  | other c =>
    have hc : c ≠ '[' := fun he => hb (he ▸ rfl)
    cases pending with
    | nothing => exact hother hc h
    | number n =>
      rw [Lexer.step] at h
      dsimp only at h
      split at h
      · rename_i hc
        cases h
        refine ⟨trivial, fun ⟨m, hm, hd⟩ => ?_, fun he => ⟨_, rfl, ?_⟩⟩
        · cases hm
          rw [List.getLast?_concat] at hd
          rw [Option.some_inj.1 hd]
        · rw [List.getLast?_concat, Piece.other.inj he]
      · exact hother hc h
    | symbol d =>
      rw [Lexer.step] at h
      dsimp only at h
      split at h
      · rename_i o hdouble
        cases h
        refine hnone (fun he => ?_) rfl
        rw [Piece.other.inj he, double_dot] at hdouble
        cases hdouble
      · exact hother hc h
    | bracket => cases hs
    | quote => cases hs
    | key k => cases hs
    | quoted k => cases hs

/-- One of the words comes right after a point, which may be the one before the pieces. -/
def GluedFrom (ws : List (List Char)) : Bool → List Piece → Prop
  | _, [] => False
  | dot, .word w :: ps => dot = true ∧ w ∈ ws ∨ GluedFrom ws false ps
  | _, .other c :: ps => GluedFrom ws (c = '.') ps

theorem gluedFrom_iff {dot : Bool} {ps : List Piece} : GluedFrom ws dot ps ↔
    dot = true ∧ (∃ w ∈ ws, ps.head? = some (.word w)) ∨
      ∃ w ∈ ws, [.other '.', .word w] <:+: ps := by
  induction ps generalizing dot with
  | nil =>
    rw [GluedFrom, false_iff]
    rintro (⟨-, w, -, h⟩ | ⟨w, -, h⟩)
    · cases h
    · cases List.infix_nil.1 h
  | cons p ps ih =>
    cases p with
    | word w =>
      rw [GluedFrom, ih]
      constructor
      · rintro (⟨hd, hw⟩ | ⟨hf, -⟩ | ⟨v, hv, hi⟩)
        · exact .inl ⟨hd, w, hw, rfl⟩
        · cases hf
        · exact .inr ⟨v, hv, hi.trans (List.suffix_cons _ _).isInfix⟩
      · rintro (⟨hd, v, hv, he⟩ | ⟨v, hv, hi⟩)
        · cases he
          exact .inl ⟨hd, hv⟩
        · refine .inr (.inr ⟨v, hv, ?_⟩)
          rcases List.infix_cons_iff.1 hi with hp | hi
          · cases (List.cons_prefix_cons.1 hp).1
          · exact hi
    | other c =>
      rw [GluedFrom, ih]
      constructor
      · rintro (⟨hd, w, hw, he⟩ | ⟨v, hv, hi⟩)
        · rw [decide_eq_true_eq] at hd
          obtain ⟨qs, rfl⟩ := List.head?_eq_some_iff.1 he
          exact .inr ⟨w, hw, [], qs, by rw [hd]; rfl⟩
        · exact .inr ⟨v, hv, hi.trans (List.suffix_cons _ _).isInfix⟩
      · rintro (⟨-, v, -, he⟩ | ⟨v, hv, hi⟩)
        · cases he
        · rcases List.infix_cons_iff.1 hi with hp | hi
          · obtain ⟨he, hp⟩ := List.cons_prefix_cons.1 hp
            refine .inl ⟨decide_eq_true (Piece.other.inj he).symm, v, hv, ?_⟩
            obtain ⟨qs, hq⟩ := hp
            rw [← hq]
            rfl
          · exact .inr ⟨v, hv, hi⟩

/-- A number with a declared name after its point is none after the substitution. -/
theorem foldlM_glued {n : List Char} {keys : List (List Char)} (hk : keys ≠ [])
    (hs : s.pending = .number n) (ps : List Piece) :
    (.word declaredName :: keys.flatMap bracket ++ ps).foldlM Lexer.step s = none := by
  obtain ⟨k, keys, rfl⟩ := List.exists_cons_of_ne_nil hk
  rw [List.cons_append, List.foldlM_cons, step_word_number isName_declared hs]
  by_cases hl : n.getLast? = some '.'
  · rw [if_pos hl]
    change (Lexer.step ⟨s.out, .number (n ++ declaredName)⟩ (.other '[')).bind _ = none
    have hnum : isNumber (n ++ declaredName) = false := by
      rw [Bool.eq_false_iff]
      intro h
      exact l_not_mem_number h (List.mem_append_right _ (by decide))
    have hstep : Lexer.step ⟨s.out, .number (n ++ declaredName)⟩ (.other '[') = none := by
      rw [Lexer.step]
      dsimp only
      rw [if_neg fun h => ?_, Lexer.other, Lexer.flush]
      · dsimp only
        rw [hnum]
        rfl
      · rcases h with h | ⟨h | h, -⟩
        · exact absurd h (by decide)
        · exact absurd h (by decide)
        · exact absurd h (by decide)
    rw [hstep]
    rfl
  · rw [if_neg hl]
    rfl

theorem expandAtom_mem {w : List Char} (hw : w ∈ ws) :
    expandAtom ws (.name w []) = .name declaredName (keysOf ws w) := if_pos ⟨rfl, hw⟩

/-- Reading goes on in the same way after the substitution, unless a number is spoilt by it. -/
theorem foldlM_expand {W : WordChars} (hn : ws.Nodup) (hid : ∀ w ∈ ws, IsName w) {ps : List Piece}
    (hc : Cut W.word ps) (hb : .other '[' ∉ ps) (dot : Bool) (hs : s.pending.Plain)
    (hdot : s.Dotted ↔ dot = true) (h : ps.foldlM Lexer.step s = some t) :
    (GluedFrom ws dot ps →
      (ps.flatMap (expand ws)).foldlM Lexer.step (s.map (expandAtom ws)) = none) ∧
    (¬ GluedFrom ws dot ps →
      (ps.flatMap (expand ws)).foldlM Lexer.step (s.map (expandAtom ws)) =
        some (t.map (expandAtom ws))) := by
  induction ps generalizing s dot with
  | nil =>
    cases h
    exact ⟨fun hg => hg.elim, fun _ => rfl⟩
  | cons p ps ih =>
    rw [List.foldlM_cons] at h
    obtain ⟨u, hu, hrest⟩ := Option.bind_eq_some_iff.1 h
    rw [List.mem_cons, not_or] at hb
    have hcps : Cut W.word ps := by
      cases p with
      | word w => exact hc.2.2
      | other c => exact hc.2
    have hww : ∀ w, p = .word w → IsWord W.word w := by
      rintro w rfl
      exact hc.1
    obtain ⟨hup, hud⟩ := step_plain hs (fun he => hb.1 he.symm) hww hu
    cases p with
    | other c =>
      have ih := ih hcps hb.2 (c = '.') hup (by
        rw [hud, decide_eq_true_eq]
        exact ⟨fun he => Piece.other.inj he, fun he => he ▸ rfl⟩) hrest
      rw [GluedFrom, List.flatMap_cons, expand_other, List.singleton_append, List.foldlM_cons,
        step_map hs (fun _ _ => Piece.noConfusion), hu]
      exact ih
    | word w =>
      have ih := ih hcps hb.2 false hup (by
        rw [hud]
        exact ⟨fun he => (by cases he), fun he => (by cases he)⟩) hrest
      rw [GluedFrom, List.flatMap_cons]
      by_cases hw : w ∈ ws
      · rw [expand_mem hn hw]
        by_cases hnum : ∃ n, s.pending = .number n
        · obtain ⟨n, hnum⟩ := hnum
          have hl : n.getLast? = some '.' := by
            by_contra hl
            rw [step_word_number (hid w hw) hnum, if_neg hl] at hu
            cases hu
          have hd : dot = true := hdot.1 ⟨n, hnum, hl⟩
          refine ⟨fun _ => ?_, fun hg => (hg (.inl ⟨hd, hw⟩)).elim⟩
          exact foldlM_glued (s := s.map (expandAtom ws)) (keysOf_ne_nil hw) hnum _
        · have hplain (w : List Char) {s : Lexer} (hs : s.pending.Plain)
              (hnum : ¬ ∃ n, s.pending = .number n) : s.step (.word w) = s.word w :=
            step_word hs fun n hn => hnum ⟨n, hn⟩
          have hd : dot = false := by
            rw [← Bool.not_eq_true, ← hdot]
            rintro ⟨n, hn, -⟩
            exact hnum ⟨n, hn⟩
          rw [hplain w hs hnum, word_name (hid w hw)] at hu
          obtain ⟨out, hout, rfl⟩ := Option.map_eq_some_iff.1 hu
          have hstep : (s.map (expandAtom ws)).step (.word declaredName) =
              some ⟨.atom (.name declaredName []) :: out.map (Item.map (expandAtom ws)),
                .nothing⟩ := by
            rw [hplain declaredName (s := s.map (expandAtom ws)) hs hnum, word_name isName_declared,
              flush_map, hout]
            rfl
          have hall : (.word declaredName :: (keysOf ws w).flatMap bracket).foldlM Lexer.step
              (s.map (expandAtom ws)) =
                some (Lexer.map (expandAtom ws) ⟨.atom (.name w []) :: out, .nothing⟩) := by
            rw [List.foldlM_cons, hstep]
            have hk := foldlM_keys declaredName (out.map (Item.map (expandAtom ws))) []
              (keysOf ws w)
            rw [List.nil_append] at hk
            rw [Lexer.map, List.map_cons, Item.map, expandAtom_mem hw]
            exact hk
          rw [List.foldlM_append, hall]
          refine ⟨fun hg => ih.1 ?_, fun hg => ih.2 fun hf => hg (.inr hf)⟩
          rcases hg with ⟨hd', -⟩ | hg
          · rw [hd] at hd'
            cases hd'
          · exact hg
      · rw [expand_not_mem hw, List.singleton_append, List.foldlM_cons,
          step_map hs (fun v hv he => hw (by rwa [Piece.word.inj he])), hu]
        refine ⟨fun hg => ih.1 ?_, fun hg => ih.2 fun hf => hg (.inr hf)⟩
        exact hg.resolve_left fun hg => hw hg.2

end

section
variable {Z : Z3 V} {W : WordChars} {declarations : List (String × String)}

theorem other_not_mem_pieces {c : Char} {text : List Char} (h : c ∉ text) :
    .other c ∉ pieces W.word text := by
  intro hm
  rw [← text_pieces (W := W.word) text] at h
  exact h (List.mem_flatMap.2 ⟨_, hm, .head _⟩)

theorem keys_symbols : Dict.keys (symbols Z declarations) = declarations.map Prod.fst := by
  rw [symbols, Dict.keys, List.map_map]
  rfl

theorem glued_iff {expr : List Char} : Glued W declarations expr ↔
    GluedFrom (order (declarations.map Prod.fst)) false (pieces W.word expr) := by
  rw [gluedFrom_iff, Glued]
  constructor
  · rintro ⟨d, hd, hi⟩
    exact .inr ⟨_, mem_order.2 (List.mem_map_of_mem hd), hi⟩
  · rintro (⟨hf, -⟩ | ⟨w, hw, hi⟩)
    · cases hf
    · rw [order, List.mem_insertionSort, List.map_map] at hw
      obtain ⟨d, hd, rfl⟩ := List.mem_map.1 hw
      exact ⟨d, hd, hi⟩

/-- The expression that the text with the names replaced is. -/
theorem read_substituted (hd : Declares W declarations) {expr : List Char} (hb : '[' ∉ expr)
    {t : Operators.Tree Atom} (h : read W expr = some t) :
    (Glued W declarations expr →
      read W (substituted W (declarations.map Prod.fst) expr) = none) ∧
    (¬ Glued W declarations expr →
      read W (substituted W (declarations.map Prod.fst) expr) =
        some (t.map (expandAtom (order (declarations.map Prod.fst))))) := by
  have hword : ∀ n ∈ declarations.map Prod.fst, IsWord W.word n.toList := by
    intro n hn
    obtain ⟨d, hd', rfl⟩ := List.mem_map.1 hn
    exact (hd.identifier d hd').1
  have hname : ∀ w ∈ order (declarations.map Prod.fst), IsName w := by
    intro w hw
    rw [order, List.mem_insertionSort, List.map_map] at hw
    obtain ⟨d, hd', rfl⟩ := List.mem_map.1 hw
    obtain ⟨-, hdigit, hk⟩ := hd.identifier d hd'
    exact ⟨hdigit, by rwa [Function.comp_apply, String.ofList_toList]⟩
  rw [read] at h
  obtain ⟨items, hl, hp⟩ := Option.bind_eq_some_iff.1 h
  rw [lex] at hl
  obtain ⟨s, hs, hf⟩ := Option.bind_eq_some_iff.1 hl
  obtain ⟨out, hout, rfl⟩ := Option.map_eq_some_iff.1 hf
  have hdotted : ¬ Lexer.Dotted ⟨[], .nothing⟩ := by
    rintro ⟨_, hn, -⟩
    cases hn
  have hall := foldlM_expand (s := ⟨[], .nothing⟩) (nodup_order hd.distinct) hname
    (cut_pieces expr) (other_not_mem_pieces hb) false trivial
    (iff_of_false hdotted Bool.false_ne_true) hs
  rw [glued_iff, read, lex, pieces_substituted hword]
  constructor
  · intro hg
    rw [show (⟨[], .nothing⟩ : Lexer) = Lexer.map
      (expandAtom (order (declarations.map Prod.fst))) ⟨[], .nothing⟩ from rfl, hall.1 hg]
    rfl
  · intro hg
    rw [show (⟨[], .nothing⟩ : Lexer) = Lexer.map
      (expandAtom (order (declarations.map Prod.fst))) ⟨[], .nothing⟩ from rfl, hall.2 hg,
      Option.bind_some, flush_map, hout, Option.map_some, Option.map_some, Option.bind_some,
      ← List.map_reverse, parse_map, hp]
    rfl

/-- A declared name as the evaluation comes to it. -/
def DeclaredAtom (declarations : List (String × String)) (a : Atom) : Prop :=
  ∃ id, a = .name id [] ∧ id ∈ order (declarations.map Prod.fst)

/-- What the lookup of `declared` and its subscripting raise. -/
def lookupError (names : Dict String V) : Raised :=
  match names.lookup (String.ofList declaredName) with
  | none => .nameError
  | some _ => .typeError

theorem caught_lookupError (names : Dict String V) : (lookupError names).caught = true := by
  rw [lookupError]
  split <;> rfl

theorem leafValue_declared {names : Dict String V} {a : Atom} (h : DeclaredAtom declarations a) :
    leafValue Z names (expandAtom (order (declarations.map Prod.fst)) a) =
      .error (lookupError names) := by
  obtain ⟨id, rfl, hid⟩ := h
  rw [expandAtom_mem hid, leafValue, lookupError]
  cases names.lookup (String.ofList declaredName) with
  | none => rfl
  | some v => exact if_neg (keysOf_ne_nil hid)

theorem expandAtom_of_not {a : Atom} (h : ¬ DeclaredAtom declarations a) :
    expandAtom (order (declarations.map Prod.fst)) a = a := by
  cases a with
  | name id keys =>
    rw [expandAtom, if_neg]
    rintro ⟨rfl, hid⟩
    exact h ⟨id, rfl, hid⟩
  | number w => rfl
  | bool b => rfl

/-- A name that the evaluation comes to, and that has a value, is declared. -/
theorem declaredAtom_of_ok {id : List Char} {keys : List (List Char)} {v : V}
    (h : leafValue Z (symbols Z declarations) (.name id keys) = .ok v) :
    DeclaredAtom declarations (.name id keys) := by
  rw [leafValue] at h
  cases hl : (symbols Z declarations).lookup (String.ofList id) with
  | none =>
    rw [hl] at h
    cases h
  | some w =>
    rw [hl] at h
    dsimp only at h
    split at h
    · rename_i hk
      have hm := Dict.mem_keys_iff.2 ⟨w, hl⟩
      rw [keys_symbols] at hm
      refine ⟨id, by rw [hk], ?_⟩
      have ho := mem_order.2 hm
      rwa [String.toList_ofList] at ho
    · cases h

/-- The evaluation of an assertion after the substitution: it gives the value if it comes to no
name, and else it raises. -/
theorem evalText_substituted (hd : Declares W declarations) {expr : List Char} {v : V}
    (hm : Means Z W declarations expr v) :
    (¬ Loads Z W declarations expr ∧ ¬ Glued W declarations expr →
      evalText Z W (symbols Z declarations) (substituted W (declarations.map Prod.fst) expr) =
        .ok v ∧ Z.plain v) ∧
    (¬ (¬ Loads Z W declarations expr ∧ ¬ Glued W declarations expr) → ∃ e, e.caught = true ∧
      evalText Z W (symbols Z declarations) (substituted W (declarations.map Prod.fst) expr) =
        .error e) := by
  have hv := hm.value
  rw [evalText] at hv
  cases ht : read W expr with
  | none =>
    rw [ht] at hv
    cases hv
  | some t =>
    rw [ht] at hv
    dsimp only at hv
    obtain ⟨hglued, hread⟩ := read_substituted hd hm.unsubscripted ht
    have hout := outcome_eval (P := DeclaredAtom declarations)
      (g := leafValue Z (symbols Z declarations) ∘
        expandAtom (order (declarations.map Prod.fst)))
      (fun a ha => leafValue_declared ha)
      (fun a ha => congrArg (leafValue Z _) (expandAtom_of_not ha)) t hv
    have hloads : Loads Z W declarations expr ↔
        ∃ a ∈ t.reads Z.toAlgebra (leafValue Z (symbols Z declarations)),
          DeclaredAtom declarations a := by
      constructor
      · rintro ⟨t', ht', id, keys, hr⟩
        rw [ht] at ht'
        cases ht'
        obtain ⟨w, hw⟩ := ok_of_mem_reads hv hr
        exact ⟨_, hr, declaredAtom_of_ok hw⟩
      · rintro ⟨a, ha, id, rfl, -⟩
        exact ⟨t, ht, id, [], ha⟩
    constructor
    · rintro ⟨hl, hg⟩
      refine ⟨?_, ?_⟩
      · rw [evalText, hread hg]
        dsimp only
        rw [eval_map]
        exact hout.clean fun a ha hd => hl (hloads.2 ⟨a, ha, hd⟩)
      · refine eval_kept Z.plain_bool Z.plain_sign Z.plain_pair t (fun a ha w hw => ?_) hv
        cases a with
        | name id keys => exact (hl ⟨t, ht, id, keys, ha⟩).elim
        | number n =>
          cases hw
          exact Z.plain_number n
        | bool b =>
          cases hw
          exact Z.plain_bool b
    · intro hn
      by_cases hg : Glued W declarations expr
      · refine ⟨.syntaxError, rfl, ?_⟩
        rw [evalText, hglued hg]
      · refine ⟨lookupError (symbols Z declarations), caught_lookupError _, ?_⟩
        rw [evalText, hread hg]
        dsimp only
        rw [eval_map]
        exact hout.spoilt (hloads.1 (not_not.1 fun hl => hn ⟨hl, hg⟩))

theorem declare_append {declared : Dict String V} {ds : List (String × String)}
    (hs : ∀ d ∈ ds, d.2 = "Bool" ∨ d.2 = "Int" ∨ d.2 = "Real")
    (hn : (Dict.keys declared ++ ds.map Prod.fst).Nodup) :
    declare Z declared ds = .ok (declared ++ symbols Z ds) := by
  induction ds generalizing declared with
  | nil => exact congrArg Except.ok (List.append_nil _).symm
  | cons d ds ih =>
    obtain ⟨name, type⟩ := d
    rw [declare, if_pos (hs _ (.head _))]
    have hk : name ∉ Dict.keys declared := by
      intro hm
      exact (List.nodup_append.1 hn).2.2 _ hm _ (List.mem_cons_self ..) rfl
    rw [Dict.set_of_not_mem hk, ih fun d hd => hs d (.tail _ hd)]
    · rw [List.append_assoc]
      rfl
    · rw [Dict.keys_append, List.append_assoc]
      exact hn

theorem declare_eq (hd : Declares W declarations) :
    declare Z [] declarations = .ok (symbols Z declarations) :=
  declare_append hd.sort hd.distinct

/-- The constraints are the values if the evaluation of no assertion comes to a name. -/
theorem constraints_eq (hd : Declares W declarations) {assertions : List (List Char)} {vs : List V}
    (hm : List.Forall₂ (Means Z W declarations) assertions vs) :
    ((∀ expr ∈ assertions, ¬ Loads Z W declarations expr ∧ ¬ Glued W declarations expr) →
      constraints Z W (symbols Z declarations) assertions = .ok vs ∧ ∀ v ∈ vs, Z.plain v) ∧
    (¬ (∀ expr ∈ assertions, ¬ Loads Z W declarations expr ∧ ¬ Glued W declarations expr) →
      ∃ e, e.caught = true ∧
        constraints Z W (symbols Z declarations) assertions = .error e) := by
  induction hm with
  | nil =>
    exact ⟨fun _ => ⟨rfl, fun _ hv => (nomatch hv)⟩, fun h => (h fun _ he => (nomatch he)).elim⟩
  | @cons expr v assertions vs h _ ih =>
    obtain ⟨hgood, hbad⟩ := evalText_substituted hd h
    rw [constraints, List.mapM_cons, ← constraints, keys_symbols, List.forall_mem_cons]
    constructor
    · rintro ⟨hx, hrest⟩
      obtain ⟨hv, hp⟩ := hgood hx
      obtain ⟨hvs, hps⟩ := ih.1 hrest
      rw [hv, hvs]
      change (Z.add v >>= fun _ => pure v) >>= _ = _ ∧ _
      rw [h.added]
      exact ⟨rfl, List.forall_mem_cons.2 ⟨hp, hps⟩⟩
    · intro hn
      by_cases hx : ¬ Loads Z W declarations expr ∧ ¬ Glued W declarations expr
      · obtain ⟨e, he, hvs⟩ := ih.2 fun hrest => hn ⟨hx, hrest⟩
        refine ⟨e, he, ?_⟩
        rw [(hgood hx).1, hvs]
        change (Z.add v >>= fun _ => pure v) >>= _ = _
        rw [h.added]
        rfl
      · obtain ⟨e, he, hv⟩ := hbad hx
        refine ⟨e, he, ?_⟩
        rw [hv]
        rfl

end

/-- `check_satisfiability` is right about assertions if the evaluation of none of them comes to a
name, and no number in them has a declared name after its point. -/
theorem checkSatisfiability_iff (Z : Z3 V) (W : WordChars) {declarations : List (String × String)}
    (hd : Declares W declarations) {assertions : List (List Char)} {vs : List V}
    (hm : List.Forall₂ (Means Z W declarations) assertions vs) :
    Right Z W declarations assertions vs ↔
      ∀ expr ∈ assertions, ¬ Loads Z W declarations expr ∧ ¬ Glued W declarations expr := by
  have hadded : added Z W declarations assertions =
      constraints Z W (symbols Z declarations) assertions := by
    rw [added, declare_eq hd]
    rfl
  obtain ⟨hgood, hbad⟩ := constraints_eq hd hm
  constructor
  · rintro ⟨hok, -⟩
    by_contra hn
    obtain ⟨e, -, he⟩ := hbad hn
    rw [hadded, he] at hok
    cases hok
  · intro h
    obtain ⟨hok, hplain⟩ := hgood h
    rw [← hadded] at hok
    refine ⟨hok, ?_⟩
    have hc : checkSatisfiability Z W true declarations assertions = answered Z vs := by
      rw [checkSatisfiability, if_neg (by decide), hok]
    rw [hc, answered]
    cases Z.check vs with
    | sat =>
      rw [Z.decls_plain vs hplain]
      exact ⟨_, rfl, rfl, rfl, [], rfl, rfl⟩
    | unsat => exact ⟨_, rfl, rfl⟩
    | unknown => exact ⟨_, rfl, rfl⟩

inductive Value where
  | bool (b : Bool)
  | number (w : List Char)
  | symbol (name : String)
deriving DecidableEq

/-- The package on truth values and Boolean symbols, without operators on them. -/
def booleanZ3 : Z3 Value where
  signOp _ _ := .error .typeError
  pairOp _ _ _ := .error .typeError
  truth
    | .bool b => .ok b
    | .number w => .ok (w ≠ ['0'])
    | .symbol _ => .error .z3Exception
  ofBool := .bool
  const _ := .symbol
  number := .number
  add
    | .number _ => .error .z3Exception
    | _ => .ok ()
  check vs := if .bool false ∈ vs then .unsat else .sat
  decls vs := vs.filterMap fun v =>
    match v with
    | .symbol name => some (name, .error (.other "AttributeError"))
    | _ => none
  plain v := ∀ name, v ≠ .symbol name
  plain_number _ _ h := (nomatch h)
  plain_bool _ _ h := (nomatch h)
  plain_sign _ _ _ _ h := (nomatch h)
  plain_pair _ _ _ _ _ _ h := (nomatch h)
  decls_plain vs h := by
    rw [List.filterMap_eq_nil_iff]
    intro v hv
    cases v with
    | symbol name => exact (h _ hv name rfl).elim
    | bool b => rfl
    | number w => rfl

def isAsciiWord (c : Char) : Bool := c.isAlphanum || c == '_'

def asciiWords : WordChars := ⟨isAsciiWord, fun _ _ => rfl⟩

theorem declares_p : Declares asciiWords [("p", "Bool")] := by
  refine ⟨List.nodup_singleton _, ?_, ?_⟩
  · rw [List.forall_mem_singleton]
    exact ⟨⟨by decide +kernel, Text.forall_mem_of_all (by decide +kernel)⟩, by decide +kernel,
      by decide +kernel⟩
  · rw [List.forall_mem_singleton]
    exact .inl rfl

/-- `True or p` never comes to `p`. -/
theorem true_or_p_right : Right booleanZ3 asciiWords [("p", "Bool")]
    [['T', 'r', 'u', 'e', ' ', 'o', 'r', ' ', 'p']] [.bool true] ↔
      ∀ expr ∈ [['T', 'r', 'u', 'e', ' ', 'o', 'r', ' ', 'p']],
        ¬ Loads booleanZ3 asciiWords [("p", "Bool")] expr ∧
          ¬ Glued asciiWords [("p", "Bool")] expr :=
  checkSatisfiability_iff booleanZ3 asciiWords declares_p
    (.cons ⟨by decide, rfl, rfl⟩ .nil)

/-- The name `p` is not found in an assertion that is this name. -/
theorem p_not_found : Declares asciiWords [("p", "Bool")] ∧
    Means booleanZ3 asciiWords [("p", "Bool")] ['p'] (.symbol "p") ∧
      ¬ Right booleanZ3 asciiWords [("p", "Bool")] [['p']] [.symbol "p"] := by
  refine ⟨declares_p, ⟨by decide, rfl, rfl⟩, ?_⟩
  rintro ⟨h, -⟩
  have he : added booleanZ3 asciiWords [("p", "Bool")] [['p']] = .error .nameError := rfl
  rw [he] at h
  cases h

end Obase.SmtSolver
