import Mathlib.Data.List.Lex
import Mathlib.Data.List.Sort
import Mathlib.Data.String.Basic
import Obase.Builtins
import Obase.FileTree
import Obase.Json.Indent

namespace Obase.TeamRegistry
set_option autoImplicit true
open Json

/-- What a call raises. -/
inductive Failure where
  | os (e : OsError)
  | python (e : PyError)

abbrev Message (F : Type) := Dict String (Json F)

/-- `uuid.uuid4().hex[:8]` and `_now_iso()`, at a call. -/
structure Stamp where
  id : String
  now : String

/-- `list(v)`. -/
def elements : Json F → Except PyError (List (Json F))
  | .list xs => .ok xs
  | .str s => .ok (s.toList.map fun c => .str (String.singleton c))
  | .dict ms => .ok (ms.map fun p => .str p.1)
  | _ => .error .typeError

/-- `v == s`. -/
def isText (v : Json F) (s : String) : Bool :=
  match v with
  | .str s' => s' == s
  | _ => false

def makeMessage (fromAgent : String) (recipient content : Json F) (msgType : String)
    (requestId : Option String) (kw : Message F) (stamp : Stamp) : Message F :=
  Dict.update [("type", .str msgType), ("from", .str fromAgent), ("to", recipient), ("content", content),
    ("request_id", .str ((requestId.filter (· ≠ "")).getD stamp.id)), ("timestamp", .str stamp.now)]
    (kw.filter fun p => match p.2 with
      | .null => false
      | _ => true)

/-- A message with what `send_message` adds to it. -/
def stamped (msg : Message F) (stamp : Stamp) : Message F :=
  let msg := if "request_id" ∈ Dict.keys msg then msg
    else Dict.set "request_id" (.str stamp.id) msg
  if "timestamp" ∈ Dict.keys msg then msg else Dict.set "timestamp" (.str stamp.now) msg

/-- The files that an inbox is searched for. -/
def jsonExt : List Char := ".json".toList

section
variable [Builtins F]

def saveJson (t : FileTree) (p : Path) (v : Json F) : Except Failure FileTree :=
  (t.put p (dumpsIndent 2 0 v)).mapError .os

def loadJson (t : FileTree) (p : Path) : Option (Json F) :=
  match t.readText p with
  | .ok cs => loads (Text.universalNewlines cs)
  | .error _ => none

def fileName (msg : Message F) : List Char :=
  format ((msg.lookup "request_id").getD .null) ++ jsonExt

variable (dir : Path)

/-- Where the inbox of an agent lies. -/
def inbox (agent : String) : Path := Path.resolve (dir ++ ["inboxes"]) agent.toList

/-- `_inbox_dir`, in the directory of a team. -/
def inboxDir (t : FileTree) (agent : Json F) : Except Failure Path × FileTree :=
  match t.mkdirs dir with
  | .error e => (.error (.os e), t)
  | .ok t =>
    match agent with
    | .str a =>
      if '\x00' ∈ a.toList then (.error (.python .valueError), t)
      else
        match t.mkdirs (inbox dir a) with
        | .error e => (.error (.os e), t)
        | .ok t => (.ok (inbox dir a), t)
    | _ => (.error (.python .typeError), t)

def sendMessage (t : FileTree) (msg : Message F) (stamp : Stamp) :
    Except Failure (Message F) × FileTree :=
  let msg := stamped msg stamp
  let recipient := (msg.lookup "to").getD .null
  if truthy recipient then
    match inboxDir dir t recipient with
    | (.error e, t) => (.error e, t)
    | (.ok box, t) =>
      if '\x00' ∈ fileName msg then (.error (.python .valueError), t)
      else
        match saveJson t (Path.resolve box (fileName msg)) (.dict msg) with
        | .ok t => (.ok msg, t)
        | .error e => (.error e, t)
  else (.error (.python .valueError), t)

/-- The message in a file, where there is one. -/
def message (t : FileTree) (p : Path) : Option (Json F) := (loadJson t p).filter truthy

/-- The loop of `receive_messages`. -/
def receiveFrom (limit : Int) (t : FileTree) (msgs : List (Json F)) :
    List Path → Except Failure (List (Json F)) × FileTree
  | [] => (.ok msgs, t)
  | f :: fs =>
    let msgs := msgs ++ (message t f).toList
    match t.unlink f with
    | .error e => (.error (.os e), t)
    | .ok t => if limit ≤ msgs.length then (.ok msgs, t) else receiveFrom limit t msgs fs

/-- The files of an inbox, in the order of their names. -/
def inboxFiles (t : FileTree) (box : Path) : List Path :=
  (t.glob box jsonExt).insertionSort (· ≤ ·)

def receiveMessages (t : FileTree) (agent : String) (limit : Int) :
    Except Failure (List (Json F)) × FileTree :=
  match inboxDir dir t (.str agent : Json F) with
  | (.error e, t) => (.error e, t)
  | (.ok box, t) => receiveFrom limit t [] (inboxFiles t box)

def listMembers (t : FileTree) : Except Failure (List (Json F)) × FileTree :=
  match t.mkdirs dir with
  | .error e => (.error (.os e), t)
  | .ok t =>
    match (loadJson t (dir ++ ["config.json"]) : Option (Json F)) with
    | some cfg =>
      if truthy cfg then (((getD cfg "members" (.list [])).bind elements).mapError .python, t)
      else (.ok [], t)
    | none => (.ok [], t)

variable (fromAgent content : String) (stamps : Nat → Stamp)

/-- The message that a broadcast sends to a member. -/
def broadcastMessage (name : Json F) (k : Nat) : Message F :=
  makeMessage fromAgent name (.str content) "broadcast" none [] (stamps k)

/-- The loop of `broadcast`: what was sent, and what it raised. -/
def broadcastTo (t : FileTree) (sent : List (Message F)) :
    List (Json F) → (List (Message F) × Option Failure) × FileTree
  | [] => ((sent, none), t)
  | m :: ms =>
    match getItem m "name" with
    | .error e => ((sent, some (.python e)), t)
    | .ok name =>
      if isText name fromAgent then broadcastTo t sent ms
      else
        match sendMessage dir t (broadcastMessage fromAgent content stamps name sent.length)
          (stamps sent.length) with
        | (.ok msg, t) => broadcastTo t (sent ++ [msg]) ms
        | (.error e, t) => ((sent, some e), t)

end

inductive Call (F : Type) where
  | sendMessage (msg : Message F) (stamp : Stamp)
  | broadcast (fromAgent content : String) (stamps : Nat → Stamp)
  | receiveMessages (agent : String) (limit : Int)

/-- The files, the messages that were sent and those that each agent has received. -/
structure State (F : Type) where
  tree : FileTree
  sent : List (Message F)
  received : List (String × Json F)

variable [Builtins F]

def Call.step (dir : Path) (s : State F) : Call F → State F
  | .sendMessage msg stamp =>
    match TeamRegistry.sendMessage dir s.tree msg stamp with
    | (.ok msg, t) => { s with tree := t, sent := s.sent ++ [msg] }
    | (.error _, t) => { s with tree := t }
  | .broadcast fromAgent content stamps =>
    match listMembers dir s.tree with
    | (.ok members, t) =>
      let r := broadcastTo dir fromAgent content stamps t [] members
      { s with tree := r.2, sent := s.sent ++ r.1.1 }
    | (.error _, t) => { s with tree := t }
  | .receiveMessages agent limit =>
    match TeamRegistry.receiveMessages dir s.tree agent limit with
    | (.ok msgs, t) => { s with tree := t, received := s.received ++ msgs.map fun m => (agent, m) }
    | (.error _, t) => { s with tree := t }

end Obase.TeamRegistry
