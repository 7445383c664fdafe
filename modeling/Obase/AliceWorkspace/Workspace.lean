import Obase.AliceWorkspace.Files
import Obase.Json.Canonical

namespace Obase.AliceWorkspace
set_option autoImplicit true
open Json

/-- An argument that is a string, or that is none. -/
inductive Arg where
  | str (s : PyStr)
  | other

/-- The `created_at` of a call: an aware one by its second in UTC, which can be out of range. -/
inductive CreatedAt where
  | absent
  | naive
  | aware (second : Int)
  | other

structure Arguments where
  relativePath : Arg
  title : Arg
  content : Arg
  kind : Arg := .str (PyStr.ofChars ['r', 'e', 'p', 'o', 'r', 't'])
  /-- `list(source_refs)`, `none` where it raises. -/
  sourceRefs : Option (List Arg) := some []
  createdAt : CreatedAt := .absent

/-- The seconds from the start of the year 1 to the end of the year 9999. -/
def maxSecond : Int := 315537897600

def utcIso (S : System) : CreatedAt → Except Failure String
  | .absent => .ok (S.isoformat S.now)
  | .naive => .error (.workspaceError "timestamps must include a timezone")
  | .aware second =>
    if 0 ≤ second ∧ second < maxSecond then .ok (S.isoformat second)
    else .error (.python .overflowError)
  | .other => .error (.python .attributeError)

def isCommitHash (cs : List Char) : Bool :=
  cs.all (fun c => c.isDigit || ('a' ≤ c && c ≤ 'f')) && 40 ≤ cs.length && cs.length ≤ 64

def gitHead : GitRun → Except Failure (Option (List Char))
  | .unavailable => .ok none
  | .undecodable => .error .unicodeError
  | .done returncode stdout =>
    let value := Text.strip stdout
    .ok (if returncode = 0 ∧ isCommitHash value then some value else none)

/-- The parts of `PurePosixPath(s)`, of one that is not absolute. -/
def pathParts (s : PyStr) : List PyStr :=
  (s.splitOn (.char '/')).filter fun n => n ≠ [] ∧ n ≠ PyStr.ofChars ['.']

def gitName : PyStr := PyStr.ofChars ['.', 'g', 'i', 't']

def aliceName : PyStr := PyStr.ofChars ['.', 'a', 'l', 'i', 'c', 'e']

def reservedTopLevel : List PyStr := [gitName, aliceName]

def requestedParts : Arg → Except Failure (List PyStr)
  | .other => .error (.workspaceError "artifact path must be a relative POSIX path")
  | .str s =>
    if .char '\\' ∈ s ∨ .char '\x00' ∈ s then
      .error (.workspaceError "artifact path must be a relative POSIX path")
    else if s.head? = some (.char '/') ∨ pathParts s = [] ∨
        ∃ part ∈ pathParts s, part ∈ [[], PyStr.ofChars ['.'], PyStr.ofChars ['.', '.']] then
      .error (.workspaceError
        "artifact path must not be absolute or traverse parent directories")
    else if (pathParts s).headD [] ∈ reservedTopLevel then
      .error (.workspaceError "artifact path uses a reserved workspace directory")
    else .ok (pathParts s)

/-- A string that is not blank and not longer than a bound. -/
def shortText (bound : Nat) (message : String) : Arg → Except Failure PyStr
  | .str s => if s.strip = [] ∨ bound < s.length then .error (.workspaceError message) else .ok s
  | .other => .error (.workspaceError message)

def encodedContent : Arg → Except Failure (List UInt8)
  | .other => .error (.workspaceError "artifact content must be text")
  | .str s =>
    match s.encode with
    | none => .error .unicodeError
    | some bytes =>
      if 8 * 1024 * 1024 < bytes.length then
        .error (.workspaceError "artifact exceeds the 8 MiB safety limit")
      else .ok bytes

def sourceRefs : Option (List Arg) → Except Failure (List PyStr)
  | none => .error (.python .typeError)
  | some refs => refs.mapM
    (shortText 2000 "source_refs must contain non-empty strings up to 2000 characters")

/-- The arguments of a call that have passed its checks. -/
structure Document where
  parts : List PyStr
  title : PyStr
  encoded : List UInt8
  kind : PyStr
  refs : List PyStr
deriving DecidableEq

def checked (a : Arguments) : Except Failure Document := do
  let parts ← requestedParts a.relativePath
  let title ← shortText 300 "artifact title must contain 1..300 characters" a.title
  let encoded ← encodedContent a.content
  let kind ← shortText 40 "artifact kind must be a short non-empty string" a.kind
  let refs ← sourceRefs a.sourceRefs
  return { parts, title, encoded, kind, refs }

def stateDir (root : FsPath) : FsPath := root ++ [aliceName]

def metadataPath (root : FsPath) : FsPath :=
  stateDir root ++ [PyStr.ofChars "workspace.json".toList]

def artifactLog (root : FsPath) : FsPath :=
  stateDir root ++ [PyStr.ofChars "artifacts.jsonl".toList]

/-- Where a document goes, its directory made. -/
def destination (S : System) (root : FsPath) (parts : List PyStr) : Call FsPath := do
  let destination ← resolve S (root ++ parts)
  require (root <+: destination) (.workspaceError "artifact path escapes the workspace root")
  require (destination ≠ root)
    (.workspaceError "artifact path collides with workspace metadata")
  let metadata ← resolve S (metadataPath root)
  let log ← resolve S (artifactLog root)
  require (destination ∉ [metadata, log])
    (.workspaceError "artifact path collides with workspace metadata")
  mkdirs S destination.dropLast
  let destination ← resolve S destination
  require (root <+: destination ∧ S.isLink destination = false)
    (.workspaceError "artifact path changed to an unsafe location")
  return destination

def isSlugChar (c : Char) : Bool := ('a' ≤ c && c ≤ 'z') || c.isDigit

/-- A full match of `_WORKSPACE_ID`. -/
def isWorkspaceId (cs : List Char) : Bool :=
  cs.all (fun c => isSlugChar c || c == '.' || c == '_' || c == '-') && cs.length ≤ 64 &&
    cs.head?.any isSlugChar && cs.getLast?.any isSlugChar

def Arg.strip : Arg → PyStr
  | .str s => s.strip
  | .other => []

/-- `exists()`. -/
def pathExists (S : System) (files : Files) (p : FsPath) : Bool := ((S.real p).bind files).isSome

/-- A record of the manifest; its path is there by the names below the root. -/
structure Record (F : Type) where
  schemaVersion : Int
  workspaceId : Json F
  artifactPath : List PyStr
  title : PyStr
  kind : PyStr
  bytes : Nat
  sha256 : String
  sourceRefs : List PyStr
  createdAt : String
  gitHead : Option (List Char)

/-- `as_posix()`. -/
def asPosix (names : List PyStr) : PyStr := [CodePoint.char '/'].intercalate names

/-- The record as JSON, `none` where one of its strings has no encoding. -/
def Record.json (r : Record F) : Option (Json F) := do
  let path ← (asPosix r.artifactPath).chars
  let title ← r.title.chars
  let kind ← r.kind.chars
  let refs ← r.sourceRefs.mapM PyStr.chars
  return .dict [
    ("schema_version", .int r.schemaVersion),
    ("workspace_id", r.workspaceId),
    ("artifact_path", .str (String.ofList path)),
    ("title", .str (String.ofList title)),
    ("kind", .str (String.ofList kind)),
    ("bytes", .int r.bytes),
    ("sha256", .str r.sha256),
    ("source_refs", .list (refs.map fun ref => .str (String.ofList ref))),
    ("created_at", .str r.createdAt),
    ("git_head", match r.gitHead with
      | some head => .str (String.ofList head)
      | none => .null)]

/-- `_canonical_json(v) + "\n"`. -/
def canonicalLine [FloatText F] (v : Json F) : List Char := dumps .compact (arrange v) ++ ['\n']

/-- `(_canonical_json(record) + "\n").encode("utf-8")`. -/
def Record.line [FloatText F] (r : Record F) : Except Failure (List UInt8) :=
  match r.json with
  | some v => .ok (utf8 (canonicalLine v))
  | none => .error .unicodeError

/-- `json.loads(path.read_text(encoding="utf-8"))`, of what is in the file. -/
def loadText [Builtins F] (bytes : List UInt8) : Except Failure (Json F) :=
  match utf8Decode bytes with
  | none => .error .unicodeError
  | some cs =>
    match loads (Text.universalNewlines cs) with
    | none => .error .jsonDecodeError
    | some v => .ok v

/-- `existing.get(key) == text`. -/
def hasText [Builtins F] (existing : Json F) (key : String) (text : PyStr) : Except Failure Bool :=
  (existing.getD key .null).mapError Failure.python |>.map fun v =>
    match v with
    | .str s => PyStr.ofChars s.toList == text
    | _ => false

/-- The metadata that a workspace gets. -/
def initialMetadata (workspaceId title : List Char) (createdAt : String) : Json F := .dict [
  ("schema_version", .int 1),
  ("workspace_id", .str (String.ofList workspaceId)),
  ("title", .str (String.ofList title)),
  ("created_at", .str createdAt)]

def workspaceIdOf [Builtins F] (bytes : List UInt8) : Except Failure (Json F) := do
  let v ← loadText bytes
  (v.getItem "workspace_id").mapError .python

def readMetadata [Builtins F] (S : System) (root : FsPath) : Call (Json F) := do
  try
    let metadata ← readBytes S (metadataPath root)
    MonadExcept.ofExcept (loadText metadata)
  catch e =>
    throw (if e = .osError ∨ e = .jsonDecodeError then
      .workspaceError "existing workspace metadata is unreadable" else e)

/-- `initialize`. -/
def initializeWorkspace [Builtins F] (S : System) (root : FsPath) (workspaceId title : Arg)
    (createdAt : CreatedAt) : Call (Json F) := do
  require (workspaceId.strip.chars.any isWorkspaceId)
    (.workspaceError "workspace_id must be a lowercase path-safe slug")
  require (title.strip ≠ [] ∧ title.strip.length ≤ 200)
    (.workspaceError "title must contain 1..200 characters")
  require (S.isLink (stateDir root) = false)
    (.workspaceError "workspace state directory escapes the workspace root")
  let directory ← resolve S (stateDir root)
  require (root <+: directory)
    (.workspaceError "workspace state directory escapes the workspace root")
  mkdirs S directory
  require (S.isLink (metadataPath root) = false)
    (.workspaceError "workspace metadata must not be a symbolic link")
  if pathExists S (← get) (metadataPath root) then
    let existing ← readMetadata S root
    let sameId ← MonadExcept.ofExcept (hasText existing "workspace_id" workspaceId.strip)
    require sameId (.workspaceError "workspace already initialized with a different id")
    let sameTitle ← MonadExcept.ofExcept (hasText existing "title" title.strip)
    require sameTitle (.workspaceError "workspace title is immutable after initialization")
    return existing
  else
    let createdAt ← MonadExcept.ofExcept (utcIso S createdAt)
    let metadataFile ← resolve S (metadataPath root)
    match workspaceId.strip.chars, title.strip.chars with
    | some workspaceId, some title =>
      atomicWrite S metadataFile
        (utf8 (canonicalLine (initialMetadata workspaceId title createdAt : Json F)))
      return initialMetadata workspaceId title createdAt
    | _, _ => throw .unicodeError

def makeRecord [Builtins F] (S : System) (root : FsPath) (doc : Document) (createdAt : CreatedAt)
    (destination : FsPath) : Call (Record F) := do
  let metadata ← readBytes S (metadataPath root)
  let workspaceId ← MonadExcept.ofExcept (workspaceIdOf metadata)
  let createdAt ← MonadExcept.ofExcept (utcIso S createdAt)
  let head ← MonadExcept.ofExcept (gitHead S.git)
  return {
    schemaVersion := 1
    workspaceId
    artifactPath := destination.drop root.length
    title := doc.title.strip
    kind := doc.kind.strip
    bytes := doc.encoded.length
    sha256 := hex (S.sha256 doc.encoded)
    sourceRefs := doc.refs
    createdAt
    gitHead := head }

/-- The manifest, open to append to. -/
def openManifest (S : System) (root : FsPath) : Call FsPath := do
  let directory ← resolve S (stateDir root)
  mkdirs S directory
  require (S.isLink (artifactLog root) = false)
    (.workspaceError "artifact manifest path escapes the workspace root")
  let log ← resolve S (artifactLog root)
  require (root <+: log) (.workspaceError "artifact manifest path escapes the workspace root")
  openAppend S log
  return log

def appendRecord [Builtins F] (S : System) (root : FsPath) (record : Record F) : Call Unit := do
  let log ← openManifest S root
  let line ← MonadExcept.ofExcept record.line
  append log line

/-- A document with its place, once nothing stands in the way of writing it. -/
def prepare (S : System) (root : FsPath) (a : Arguments) : Call (Document × FsPath) := do
  require (isFile S (← get) (metadataPath root))
    (.workspaceError "initialize the research workspace before saving documents")
  let doc ← MonadExcept.ofExcept (checked a)
  let destination ← destination S root doc.parts
  return (doc, destination)

/-- The record of a document that is written. -/
def recordDocument [Builtins F] (S : System) (root : FsPath) (doc : Document)
    (createdAt : CreatedAt) (destination : FsPath) : Call (Record F) := do
  let record ← makeRecord S root doc createdAt destination
  appendRecord S root record
  return record

def saveDocument [Builtins F] (S : System) (root : FsPath) (a : Arguments) : Call (Record F) := do
  let (doc, destination) ← prepare S root a
  atomicWrite S destination doc.encoded
  recordDocument S root doc a.createdAt destination

end Obase.AliceWorkspace
