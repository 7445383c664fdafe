import Obase.Casing
import Obase.Dict
import Obase.FileTree
import Obase.Partition
import Obase.Path
import Obase.Text

namespace Obase.KnowledgeStore
set_option autoImplicit true
open Text (partition)

/-- A value of the front matter. -/
inductive Field where
  | none
  | bool (b : Bool)
  | int (n : Int)
  | str (s : String)
  | list (xs : List String)
deriving DecidableEq

abbrev FrontMatter := Dict String Field

/-- What `repr` writes for a character between quotes of a kind. -/
def reprChar (printable : Char → Bool) (quote c : Char) : List Char :=
  if c = quote ∨ c = '\\' then ['\\', c]
  else if c = '\t' then ['\\', 't']
  else if c = '\n' then ['\\', 'n']
  else if c = '\r' then ['\\', 'r']
  else if printable c then [c]
  else
    let digits := Nat.toDigits 16 c.toNat
    let padded (n : Nat) : List Char := List.replicate (n - digits.length) '0' ++ digits
    if c.toNat < 0x100 then '\\' :: 'x' :: padded 2
    else if c.toNat < 0x10000 then '\\' :: 'u' :: padded 4
    else '\\' :: 'U' :: padded 8

/-- `repr` of a text, given the characters that `str.isprintable` holds of. -/
def reprStr (printable : Char → Bool) (s : String) : List Char :=
  let quote := if '\'' ∈ s.toList ∧ '"' ∉ s.toList then '"' else '\''
  quote :: s.toList.flatMap (reprChar printable quote) ++ [quote]

/-- `", ".join`. -/
def joinComma (xs : List (List Char)) : List Char := [',', ' '].intercalate xs

/-- `str`, of a value of the front matter. -/
def Field.text (printable : Char → Bool) : Field → List Char
  | .none => "None".toList
  | .bool true => "True".toList
  | .bool false => "False".toList
  | .int n => n.repr.toList
  | .str s => s.toList
  | .list xs => '[' :: joinComma (xs.map (reprStr printable)) ++ [']']

/-- Whether `if` takes the value as true. -/
def Field.truthy : Field → Bool
  | .none => false
  | .bool b => b
  | .int n => n ≠ 0
  | .str s => s ≠ ""
  | .list xs => xs ≠ []

/-- `", ".join` of a value that is true. -/
def Field.join : Field → Option (List Char)
  | .list xs => some (joinComma (xs.map String.toList))
  | .str s => some (joinComma (s.toList.map fun c => [c]))
  | _ => Option.none

def delimiter : List Char := "---".toList

section
variable (U : Casing) (printable : Char → Bool)

/-- The line of a list, where it is not empty. -/
def listLine (name : String) (v : Field) : Option (List (List Char)) :=
  if v.truthy then v.join.map fun cs => [name.toList ++ ": [".toList ++ cs ++ [']']]
  else some []

/-- The line of a value. -/
def fieldLine (name : String) (cs : List Char) : List Char := name.toList ++ ": ".toList ++ cs

/-- The lines of `_serialize_frontmatter` between the two delimiters. -/
def frontLines (fm : FrontMatter) : Option (List (List Char)) := do
  let get (name : String) (default : Field) : Field := (fm.lookup name).getD default
  let covers ← listLine "covers" (get "covers" .none)
  let dependsOn ← listLine "depends_on" (get "depends_on" .none)
  let reason := get "stale_reason" .none
  return [fieldLine "id" ((get "id" (.str "")).text printable),
      fieldLine "type" ((get "type" (.str "")).text printable)] ++ covers ++ dependsOn ++
    [fieldLine "auto_update" (U.lower ((get "auto_update" (.bool true)).text printable)),
      fieldLine "stale" (U.lower ((get "stale" (.bool false)).text printable))] ++
    (if reason.truthy then [fieldLine "stale_reason" (reason.text printable)] else []) ++
    [fieldLine "last_synced_at" ((get "last_synced_at" (.str "")).text printable),
      fieldLine "schema_version" ((get "schema_version" (.int 1)).text printable)]

/-- `_serialize_frontmatter`, which fails where a list is no list of texts. -/
def serializeFrontmatter (fm : FrontMatter) (body : List Char) : Option (List Char) :=
  (frontLines U printable fm).map fun ls =>
    ['\n'].intercalate ([delimiter] ++ ls ++ [delimiter, [], Text.strip body]) ++ ['\n']

end

/-- `strip("'\"")`. -/
def stripQuotes (cs : List Char) : List Char := Text.trim (fun c => c ∈ ['\'', '"']) cs

/-- Whether a text starts and ends as a list does. -/
def bracketed (cs : List Char) : Prop := cs.head? = some '[' ∧ cs.getLast? = some ']'

instance (cs : List Char) : Decidable (bracketed cs) := inferInstanceAs (Decidable (_ ∧ _))

/-- The items of a list without its brackets. -/
def parseItems (cs : List Char) : List String :=
  ((cs.splitOn ',').filter Text.notBlank).map fun x => String.ofList (stripQuotes (Text.strip x))

/-- The value of a line, where the spaces around it are removed already. -/
def parseValue (v : List Char) : Field :=
  if v = "true".toList then .bool true
  else if v = "false".toList then .bool false
  else if bracketed v then .list (parseItems v.tail.dropLast)
  else .str (String.ofList v)

def parseLine (line : List Char) : Option (String × Field) :=
  (partition [':'] line).map fun (k, v) =>
    (String.ofList (Text.strip k), parseValue (Text.strip v))

/-- `_parse_frontmatter`. -/
def parseFrontmatter (text : List Char) : Option (FrontMatter × List Char) := do
  if !delimiter.isPrefixOf text then none
  let (_, rest) ← partition delimiter text
  let (front, body) ← partition delimiter rest
  return (Dict.ofPairs ((Text.splitlines (Text.strip front)).filterMap parseLine),
    Text.strip body)

/-- What a call raises. -/
inductive Failure where
  | os (e : OsError)
  | valueError
  | keyError
  | typeError
deriving DecidableEq

/-- What `time.gmtime` would tell. -/
structure Time where
  year : Nat
  month : Nat
  day : Nat
  hour : Nat
  minute : Nat
  second : Nat

def twoDigits (n : Nat) : List Char :=
  if n < 10 then '0' :: n.repr.toList else n.repr.toList

/-- `time.strftime("%Y-%m-%dT%H:%M:%SZ")`. -/
def Time.strftime (t : Time) : String :=
  String.ofList (t.year.repr.toList ++ '-' :: twoDigits t.month ++ '-' :: twoDigits t.day ++
    'T' :: twoDigits t.hour ++ ':' :: twoDigits t.minute ++ ':' :: twoDigits t.second ++ ['Z'])

def safe (id : String) : String := safeName ['/', ':', '\\'] id

/-- `_path`. -/
def path (base : Path) (id : String) : Path := base ++ [safe id ++ ".md"]

/-- The parameters of `write`, which no keyword argument can name. -/
def parameters : List String := ["self", "id_", "type_", "body"]

/-- The keyword arguments that `write` takes out. -/
def popped : List String :=
  ["covers", "depends_on", "last_synced_commit", "stale", "stale_reason", "auto_update",
    "schema_version"]

/-- The fields that `write` sets itself. -/
def known (id : String) (type : Field) (kwargs : FrontMatter) (now : Time) : FrontMatter :=
  let pop (name : String) (default : Field) : String × Field :=
    (name, (kwargs.lookup name).getD default)
  [("id", .str id), ("type", type), pop "covers" (.list []), pop "depends_on" (.list []),
    pop "last_synced_commit" (.str ""), ("last_synced_at", .str now.strftime),
    pop "stale" (.bool false), pop "stale_reason" .none, pop "auto_update" (.bool true),
    pop "schema_version" (.int 1)]

/-- The front matter that `write` makes of its arguments. -/
def frontmatterOf (id : String) (type : Field) (kwargs : FrontMatter) (now : Time) : FrontMatter :=
  Dict.update (known id type kwargs now) (kwargs.filter fun p => p.1 ∉ popped)

/-- `_atomic_write`. -/
def atomicWrite (t : FileTree) (p : Path) (content : List Char) :
    Except Failure Unit × FileTree :=
  let tmp := p.withSuffix ".tmp".toList
  if '\x00' ∈ p.name.toList then (.error .valueError, t)
  else
    match t.put tmp content with
    | .error e => (.error (.os e), t)
    | .ok t =>
      match t.replace tmp p with
      | .error e => (.error (.os e), t)
      | .ok t => (.ok (), t)

/-- The front matter and the body of a document. -/
abbrev Doc := FrontMatter × List Char

section
variable (U : Casing) (printable : Char → Bool) (base : Path)

def write (t : FileTree) (id : String) (type : Field) (body : List Char) (kwargs : FrontMatter)
    (now : Time) : Except Failure Unit × FileTree :=
  if kwargs.any fun p => p.1 ∈ parameters then (.error .typeError, t)
  else
    match serializeFrontmatter U printable (frontmatterOf id type kwargs now) body with
    | none => (.error .typeError, t)
    | some content => atomicWrite t (path base id) content

def read (t : FileTree) (id : String) : Option Doc :=
  if '\x00' ∈ id.toList then none
  else
    match t.readText (path base id) with
    | .error _ => none
    | .ok cs => parseFrontmatter (Text.universalNewlines cs)

def delete (t : FileTree) (id : String) : Except Failure Bool × FileTree :=
  if '\x00' ∈ id.toList ∨ (t.entry (path base id)).isNone then (.ok false, t)
  else
    match t.unlink (path base id) with
    | .error e => (.error (.os e), t)
    | .ok t => (.ok true, t)

/-- `write` of a document that was read, with some of its front matter changed. -/
def rewrite (t : FileTree) (id : String) (doc : Doc) (now : Time) :
    Except Failure Bool × FileTree :=
  match doc.1.lookup "type" with
  | none => (.error .keyError, t)
  | some type =>
    match write U printable base t id type doc.2 doc.1 now with
    | (.error e, t) => (.error e, t)
    | (.ok (), t) => (.ok true, t)

def markStale (t : FileTree) (id reason : String) (now : Time) : Except Failure Bool × FileTree :=
  match read base t id with
  | none => (.ok false, t)
  | some (fm, body) =>
    let stale := Dict.set "stale" (.bool true) fm
    let reason := if reason = "" then Field.none else .str reason
    rewrite U printable base t id (Dict.set "stale_reason" reason stale, body) now

def markFresh (t : FileTree) (id : String) (now : Time) : Except Failure Bool × FileTree :=
  match read base t id with
  | none => (.ok false, t)
  | some (fm, body) =>
    let fresh := Dict.set "stale_reason" .none (Dict.set "stale" (.bool false) fm)
    rewrite U printable base t id (Dict.set "last_synced_at" (.str now.strftime) fresh, body) now

end

end Obase.KnowledgeStore
