import Obase.Text
import Obase.Json.Dumps

namespace Obase.Json
set_option autoImplicit true

def isWs (c : Char) : Bool :=
  c == ' ' || c == '\t' || c == '\n' || c == '\r'

def skipWs (cs : List Char) : List Char := cs.dropWhile isWs

def hexValue (c : Char) : Option Nat :=
  if c.isDigit then some (c.toNat - '0'.toNat)
  else if 'a' ≤ c ∧ c ≤ 'f' then some (c.toNat - 'a'.toNat + 10)
  else if 'A' ≤ c ∧ c ≤ 'F' then some (c.toNat - 'A'.toNat + 10)
  else none

def hex4 (a b c d : Char) : Option Nat := do
  let a ← hexValue a
  let b ← hexValue b
  let c ← hexValue c
  let d ← hexValue d
  some (((a * 16 + b) * 16 + c) * 16 + d)

def unescape : Char → Option Char
  | '"' => some '"'
  | '\\' => some '\\'
  | '/' => some '/'
  | 'b' => some '\x08'
  | 'f' => some '\x0c'
  | 'n' => some '\n'
  | 'r' => some '\r'
  | 't' => some '\t'
  | _ => none

def push (c : Char) (r : Option (List Char × List Char)) : Option (List Char × List Char) :=
  r.map fun p => (c :: p.1, p.2)

/-- The characters of a string literal after its opening quote, and what follows it. An escaped
lone surrogate is refused here: no UTF-8 encoder takes the string it stands for. -/
def readString : List Char → Option (List Char × List Char)
  | [] => none
  | '"' :: cs => some ([], cs)
  | '\\' :: 'u' :: a :: b :: c :: d :: cs =>
    match hex4 a b c d with
    | none => none
    | some hi =>
      if 0xD800 ≤ hi ∧ hi < 0xDC00 then
        match cs with
        | '\\' :: 'u' :: e :: f :: g :: h :: cs =>
          match hex4 e f g h with
          | none => none
          | some lo =>
            if 0xDC00 ≤ lo ∧ lo < 0xE000 then
              push (Char.ofNat (0x10000 + (hi - 0xD800) * 0x400 + (lo - 0xDC00))) (readString cs)
            else none
        | _ => none
      else if 0xDC00 ≤ hi ∧ hi < 0xE000 then none
      else push (Char.ofNat hi) (readString cs)
  | '\\' :: c :: cs =>
    match unescape c with
    | none => none
    | some c => push c (readString cs)
  | c :: cs => if c.toNat < 0x20 ∨ c = '\\' then none else push c (readString cs)

def keyword (word : List Char) (v : Json F) (cs : List Char) : Option (Json F × List Char) :=
  if word.isPrefixOf cs then some (v, cs.drop word.length) else none

section
variable [FloatText F]

def readNumber (cs : List Char) : Option (Json F × List Char) :=
  let tok := cs.takeWhile isNumberChar
  let rest := cs.dropWhile isNumberChar
  if isIntLiteral tok then some (.int (intOfLiteral tok), rest)
  else if isFloatLiteral tok then some (.float (FloatText.ofLiteral tok), rest)
  else none

mutual
/-- One value and the text after it. Every call consumes a character, so the length of the text
is fuel enough. -/
def readValue : Nat → List Char → Option (Json F × List Char)
  | 0, _ => none
  | n + 1, cs =>
    match cs with
    | 'n' :: cs => keyword "ull".toList .null cs
    | 't' :: cs => keyword "rue".toList (.bool true) cs
    | 'f' :: cs => keyword "alse".toList (.bool false) cs
    | 'N' :: cs => keyword "aN".toList (.float .nan) cs
    | 'I' :: cs => keyword "nfinity".toList (.float .inf) cs
    | '"' :: cs => (readString cs).map fun p => (.str (String.ofList p.1), p.2)
    | '[' :: cs =>
      match skipWs cs with
      | ']' :: cs => some (.list [], cs)
      | cs => (readItems n cs).map fun p => (.list p.1, p.2)
    | '{' :: cs =>
      match skipWs cs with
      | '}' :: cs => some (.dict [], cs)
      | cs => (readMembers n cs).map fun p => (.dict p.1, p.2)
    | '-' :: 'I' :: cs => keyword "nfinity".toList (.float .negInf) cs
    | cs => readNumber cs
def readItems : Nat → List Char → Option (List (Json F) × List Char)
  | 0, _ => none
  | n + 1, cs =>
    match readValue n cs with
    | none => none
    | some (v, cs) =>
      match skipWs cs with
      | ']' :: cs => some ([v], cs)
      | ',' :: cs => (readItems n (skipWs cs)).map fun p => (v :: p.1, p.2)
      | _ => none
def readMembers : Nat → List Char → Option (List (String × Json F) × List Char)
  | 0, _ => none
  | n + 1, cs =>
    match cs with
    | '"' :: cs =>
      match readString cs with
      | none => none
      | some (k, cs) =>
        match skipWs cs with
        | ':' :: cs =>
          match readValue n (skipWs cs) with
          | none => none
          | some (v, cs) =>
            match skipWs cs with
            | '}' :: cs => some ([(String.ofList k, v)], cs)
            | ',' :: cs =>
              (readMembers n (skipWs cs)).map fun p => ((String.ofList k, v) :: p.1, p.2)
            | _ => none
        | _ => none
    | _ => none
end

/-- `json.loads`, `none` for a `JSONDecodeError`. Whitespace around the document is dropped. -/
def loads (cs : List Char) : Option (Json F) :=
  let cs := Text.trim isWs cs
  match readValue (cs.length + 1) cs with
  | some (v, []) => some v.build
  | _ => none

end

end Obase.Json
