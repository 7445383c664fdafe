import Mathlib.Data.List.Sort
import Obase.Json.Number

namespace Obase
set_option autoImplicit true

/-- A dictionary key that `json.dumps` accepts. -/
inductive Key (F : Type) where
  | str (s : String)
  | int (n : Int)
  | float (x : PyFloat F)
  | bool (b : Bool)
  | none

/-- Keys have a JSON text, and Python's `<` between two of them, `none` where it raises. -/
class DictKey (κ : Type) where
  text : κ → String
  lt : κ → κ → Option Bool

namespace Json

/-- The text of a float in JSON, `float.__repr__` for the finite ones. -/
def floatText [FloatText F] : PyFloat F → List Char
  | .finite x => FloatText.repr x
  | .inf => ['I', 'n', 'f', 'i', 'n', 'i', 't', 'y']
  | .negInf => ['-', 'I', 'n', 'f', 'i', 'n', 'i', 't', 'y']
  | .nan => ['N', 'a', 'N']

/-- A number on the extended line: `-1` and `1` in the first place are the infinities. -/
def floatRank [FloatText F] : PyFloat F → Option (Int × ℚ)
  | .finite x => some (0, FloatText.val x)
  | .inf => some (1, 0)
  | .negInf => some (-1, 0)
  | .nan => none

def rankLt (x y : Option (Int × ℚ)) : Bool :=
  match x, y with
  | some x, some y => x.1 < y.1 || (x.1 == y.1 && x.2 < y.2)
  | _, _ => false

def keyRank [FloatText F] : Key F → Option (Int × ℚ)
  | .int n => some (0, n)
  | .bool b => some (0, if b then 1 else 0)
  | .float x => floatRank x
  | _ => none

def keyLt [FloatText F] : Key F → Key F → Option Bool
  | .str a, .str b => some (a < b)
  | .str _, _ | _, .str _ | .none, _ | _, .none => none
  | a, b => some (rankLt (keyRank a) (keyRank b))

def keyText [FloatText F] : Key F → String
  | .str s => s
  | .int n => n.repr
  | .float x => String.ofList (floatText x)
  | .bool b => if b then "true" else "false"
  | .none => "null"

instance : DictKey String := ⟨fun s => s, fun a b => some (decide (a < b))⟩

instance [FloatText F] : DictKey (Key F) := ⟨keyText, keyLt⟩

/-- Sort the items of one dictionary by key, unless two keys do not compare. -/
def sortMembers [DictKey κ] (ms : List (κ × α)) : Option (List (κ × α)) :=
  if ms.Pairwise fun p q => (DictKey.lt p.1 q.1).isSome ∧ (DictKey.lt q.1 p.1).isSome then
    some (ms.insertionSort fun p q => DictKey.lt q.1 p.1 ≠ some true)
  else none

mutual
/-- `sort_keys=True`: every dictionary inside the value in the order of its keys. -/
def sortKeys [DictKey κ] : Value κ F → Option (Value κ F)
  | .list xs => (sortKeysList xs).map .list
  | .dict ms => do
    let ms ← sortKeysMembers ms
    (sortMembers ms).map .dict
  | .null => some .null
  | .bool b => some (.bool b)
  | .int n => some (.int n)
  | .float x => some (.float x)
  | .str s => some (.str s)
def sortKeysList [DictKey κ] : List (Value κ F) → Option (List (Value κ F))
  | [] => some []
  | v :: vs => do
    let w ← sortKeys v
    let ws ← sortKeysList vs
    some (w :: ws)
def sortKeysMembers [DictKey κ] : List (κ × Value κ F) → Option (List (κ × Value κ F))
  | [] => some []
  | (k, v) :: ms => do
    let w ← sortKeys v
    let ws ← sortKeysMembers ms
    some ((k, w) :: ws)
end

/-- The escape of one character of a string under `ensure_ascii=False`. -/
def escapeChar (c : Char) : List Char :=
  if c = '"' then ['\\', '"']
  else if c = '\\' then ['\\', '\\']
  else if c = '\n' then ['\\', 'n']
  else if c = '\r' then ['\\', 'r']
  else if c = '\t' then ['\\', 't']
  else if c = '\x0c' then ['\\', 'f']
  else if c = '\x08' then ['\\', 'b']
  else if c.toNat < 0x20 then
    ['\\', 'u', '0', '0', Nat.digitChar (c.toNat / 16), Nat.digitChar (c.toNat % 16)]
  else [c]

def stringText (s : String) : List Char :=
  '"' :: (s.toList.flatMap escapeChar ++ ['"'])

/-- The separators of `json.dumps`: `(", ", ": ")`, or `(",", ":")` for the compact form. -/
inductive Spacing where
  | default
  | compact

def Spacing.gap : Spacing → List Char
  | .default => [' ']
  | .compact => []

mutual
def dumps [FloatText F] (sp : Spacing) : Json F → List Char
  | .null => "null".toList
  | .bool true => "true".toList
  | .bool false => "false".toList
  | .int n => intText n
  | .float x => floatText x
  | .str s => stringText s
  | .list xs => '[' :: dumpsItems sp xs
  | .dict ms => '{' :: dumpsMembers sp ms
def dumpsItems [FloatText F] (sp : Spacing) : List (Json F) → List Char
  | [] => [']']
  | v :: vs => dumps sp v ++ dumpsItemsTail sp vs
def dumpsItemsTail [FloatText F] (sp : Spacing) : List (Json F) → List Char
  | [] => [']']
  | v :: vs => ',' :: (sp.gap ++ (dumps sp v ++ dumpsItemsTail sp vs))
def dumpsMembers [FloatText F] (sp : Spacing) : List (String × Json F) → List Char
  | [] => ['}']
  | (k, v) :: ms => stringText k ++ ':' :: (sp.gap ++ (dumps sp v ++ dumpsMembersTail sp ms))
def dumpsMembersTail [FloatText F] (sp : Spacing) : List (String × Json F) → List Char
  | [] => ['}']
  | (k, v) :: ms =>
    ',' :: (sp.gap ++ (stringText k ++ ':' :: (sp.gap ++ (dumps sp v ++ dumpsMembersTail sp ms))))
end

/-- The escape `\u` and four hexadecimal digits. -/
def unicodeEscape (n : Nat) : List Char :=
  ['\\', 'u', Nat.digitChar (n / 4096), Nat.digitChar (n / 256 % 16), Nat.digitChar (n / 16 % 16),
    Nat.digitChar (n % 16)]

/-- The escape of one character of a string under `ensure_ascii=True`. -/
def escapeAscii (c : Char) : List Char :=
  if c.toNat < 0x7f then escapeChar c
  else if c.toNat < 0x10000 then unicodeEscape c.toNat
  else
    unicodeEscape (0xD800 + (c.toNat - 0x10000) / 0x400) ++
      unicodeEscape (0xDC00 + (c.toNat - 0x10000) % 0x400)

def stringAscii (s : String) : List Char :=
  '"' :: (s.toList.flatMap escapeAscii ++ ['"'])

mutual
/-- The writer over the text of a string. -/
def dumpsWith [FloatText F] (str : String → List Char) (sp : Spacing) : Json F → List Char
  | .null => "null".toList
  | .bool true => "true".toList
  | .bool false => "false".toList
  | .int n => intText n
  | .float x => floatText x
  | .str s => str s
  | .list xs => '[' :: dumpsItemsWith str sp xs
  | .dict ms => '{' :: dumpsMembersWith str sp ms
def dumpsItemsWith [FloatText F] (str : String → List Char) (sp : Spacing) :
    List (Json F) → List Char
  | [] => [']']
  | v :: vs => dumpsWith str sp v ++ dumpsItemsTailWith str sp vs
def dumpsItemsTailWith [FloatText F] (str : String → List Char) (sp : Spacing) :
    List (Json F) → List Char
  | [] => [']']
  | v :: vs => ',' :: (sp.gap ++ (dumpsWith str sp v ++ dumpsItemsTailWith str sp vs))
def dumpsMembersWith [FloatText F] (str : String → List Char) (sp : Spacing) :
    List (String × Json F) → List Char
  | [] => ['}']
  | (k, v) :: ms =>
    str k ++ ':' :: (sp.gap ++ (dumpsWith str sp v ++ dumpsMembersTailWith str sp ms))
def dumpsMembersTailWith [FloatText F] (str : String → List Char) (sp : Spacing) :
    List (String × Json F) → List Char
  | [] => ['}']
  | (k, v) :: ms =>
    ',' :: (sp.gap ++
      (str k ++ ':' :: (sp.gap ++ (dumpsWith str sp v ++ dumpsMembersTailWith str sp ms))))
end

/-- `json.dumps(v)` of a value with string keys, under `ensure_ascii=True`. -/
def dumpsAscii [FloatText F] (sp : Spacing) (v : Json F) : List Char := dumpsWith stringAscii sp v

mutual
theorem dumps_eq [FloatText F] (sp : Spacing) :
    ∀ v : Json F, dumps sp v = dumpsWith stringText sp v
  | .null | .bool true | .bool false | .int _ | .float _ | .str _ => by simp only [dumps, dumpsWith]
  | .list xs => by rw [dumps, dumpsWith, dumpsItems_eq sp xs]
  | .dict ms => by rw [dumps, dumpsWith, dumpsMembers_eq sp ms]
theorem dumpsItems_eq [FloatText F] (sp : Spacing) :
    ∀ vs : List (Json F), dumpsItems sp vs = dumpsItemsWith stringText sp vs
  | [] => rfl
  | v :: vs => by rw [dumpsItems, dumpsItemsWith, dumps_eq sp v, dumpsItemsTail_eq sp vs]
theorem dumpsItemsTail_eq [FloatText F] (sp : Spacing) :
    ∀ vs : List (Json F), dumpsItemsTail sp vs = dumpsItemsTailWith stringText sp vs
  | [] => rfl
  | v :: vs => by rw [dumpsItemsTail, dumpsItemsTailWith, dumps_eq sp v, dumpsItemsTail_eq sp vs]
theorem dumpsMembers_eq [FloatText F] (sp : Spacing) :
    ∀ ms : List (String × Json F), dumpsMembers sp ms = dumpsMembersWith stringText sp ms
  | [] => rfl
  | (k, v) :: ms => by
    rw [dumpsMembers, dumpsMembersWith, dumps_eq sp v, dumpsMembersTail_eq sp ms]
theorem dumpsMembersTail_eq [FloatText F] (sp : Spacing) :
    ∀ ms : List (String × Json F), dumpsMembersTail sp ms = dumpsMembersTailWith stringText sp ms
  | [] => rfl
  | (k, v) :: ms => by
    rw [dumpsMembersTail, dumpsMembersTailWith, dumps_eq sp v, dumpsMembersTail_eq sp ms]
end

/-- The value as the encoder sees it, each key replaced by its text. -/
def keyTexts [DictKey κ] (v : Value κ F) : Json F := v.mapKeys DictKey.text

/-- `json.dumps(v, sort_keys=True, ensure_ascii=False, separators=(",", ":"))`. -/
def dumpsSorted [FloatText F] [DictKey κ] (v : Value κ F) : Option (List Char) :=
  (sortKeys v).map fun w => dumps .compact (keyTexts w)

/-- What `json.loads(json.dumps(v))` returns. -/
def roundTrip [DictKey κ] (v : Value κ F) : Json F := (keyTexts v).build

end Json
end Obase
