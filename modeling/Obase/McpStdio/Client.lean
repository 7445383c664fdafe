import Mathlib.Data.List.Infix
import Obase.Json.Number

namespace Obase.McpStdio
set_option autoImplicit true
open Json (FloatText)

/-- How a call ends, a `StdioMcpError` with its text. -/
inductive Outcome (F : Type) where
  | returned (result : Json F)
  | raised (text : String)

inductive Future (F : Type) where
  | pending
  | done (outcome : Outcome F)
  | cancelled

/-- `set_exception` of a future that is not done. -/
def Future.fail (text : String) : Future F → Future F
  | .pending => .done (.raised text)
  | future => future

/-- `StdioMcpClient`: its futures by the ids of their requests, and the ids that wait in
`_pending`. -/
structure Client (F : Type) where
  name : String
  alive : Bool
  reading : Bool
  nextId : Nat
  pending : List Nat
  futures : Dict Nat (Future F)

/-- The number that a key equals, `none` for a value that is no key; `True` equals one. -/
def hashKey [FloatText F] : Json F → Option (Option ℚ)
  | .bool b => some (some b.toNat)
  | .int n => some (some n)
  | .float (.finite x) => some (some (FloatText.val x))
  | .list _ => none
  | .dict _ => none
  | _ => some none

def isIdText : Json F → Bool
  | .str s => s == "id"
  | _ => false

/-- `"id" in frame`, `none` for a `TypeError`. -/
def containsId : Json F → Option Bool
  | .dict ms => some (ms.lookup "id").isSome
  | .list xs => some (xs.any isIdText)
  | .str s => some (decide ("id".toList <:+: s.toList))
  | _ => none

namespace Client

/-- `_pending.pop`. -/
def pop (c : Client F) (key : Option ℚ) : Option Nat × Client F :=
  match c.pending.find? fun (rid : Nat) => key = some (rid : ℚ) with
  | none => (none, c)
  | some rid => (some rid, { c with pending := c.pending.erase rid })

def answer (c : Client F) (frame : Dict String (Json F)) : Outcome F :=
  if (frame.lookup "error").isSome then .raised (c.name ++ ": MCP 请求失败")
  else .returned ((frame.lookup "result").getD .null)

/-- The future of a request gets its answer unless it is done. -/
def settle (c : Client F) (rid : Nat) (frame : Dict String (Json F)) : Client F :=
  match c.futures.lookup rid with
  | some .pending => { c with futures := Dict.set rid (.done (c.answer frame)) c.futures }
  | _ => c

/-- `_dispatch`, `none` for a `TypeError`. -/
def dispatch [FloatText F] (c : Client F) (frame : Json F) : Option (Client F) :=
  match containsId frame with
  | none => none
  | some false => some c
  | some true =>
    match frame with
    | .dict ms =>
      match hashKey ((ms.lookup "id").getD .null) with
      | none => none
      | some key =>
        match c.pop key with
        | (none, c) => some c
        | (some rid, c) => some (c.settle rid ms)
    | _ => none

/-- The end of `_read_loop`. -/
def close (c : Client F) : Client F :=
  { c with
    reading := false
    pending := []
    futures := c.futures.map fun p =>
      (p.1, if p.1 ∈ c.pending then p.2.fail (c.name ++ ": 连接关闭") else p.2) }

/-- What `_read_loop` does with a frame. -/
def read [FloatText F] (c : Client F) (frame : Json F) : Client F :=
  match c.dispatch frame with
  | none => c.close
  | some c => c

/-- What `_request` registers. -/
def register (c : Client F) : Client F :=
  { c with
    nextId := c.nextId + 1
    pending := c.pending ++ [c.nextId]
    futures := Dict.set c.nextId .pending c.futures }

end Client

/-- A call of `_request`, with the text of its time-out. -/
structure Call where
  method : String
  timeout : String

/-- The client with its calls: those that wait for the lock, the one that holds it, those that have
an id, and how calls have ended; and the frames that came after each id was given. -/
structure World (F : Type) where
  client : Client F
  queued : List Call
  draining : Option Nat
  calls : Dict Nat Call
  ended : Dict Nat (Outcome F)
  heard : Dict Nat (List (Json F))

inductive Event (F : Type) where
  | call (c : Call)
  | send
  | drained (error : Option String)
  | resume (rid : Nat)
  | timeout (rid : Nat)
  | frame (f : Json F)
  | closed
  | exited

namespace World

def init (name : String) : World F := ⟨⟨name, true, true, 1, [], []⟩, [], none, [], [], []⟩

def future (w : World F) (rid : Nat) : Option (Future F) := w.client.futures.lookup rid

/-- The call that waits for its future. -/
def waiting (w : World F) (rid : Nat) : Option Call :=
  if w.draining = some rid ∨ (w.ended.lookup rid).isSome then none else w.calls.lookup rid

def timeoutText (w : World F) (c : Call) : String :=
  w.client.name ++ ": " ++ c.method ++ " 超时 (" ++ c.timeout ++ "s)"

/-- `wait_for` gives up on a future that is not done. -/
def cancel (c : Client F) (rid : Nat) : Client F :=
  match c.futures.lookup rid with
  | some .pending => { c with futures := Dict.set rid .cancelled c.futures }
  | _ => c

def step [FloatText F] (w : World F) : Event F → Option (World F)
  | .call c => some (if w.client.alive then { w with queued := w.queued ++ [c] } else w)
  | .send =>
    match w.draining, w.queued with
    | none, c :: queued => some
      { w with
        client := w.client.register
        queued := queued
        draining := some w.client.nextId
        calls := Dict.set w.client.nextId c w.calls
        heard := Dict.set w.client.nextId [] w.heard }
    | _, _ => none
  | .drained error =>
    match w.draining, error with
    | none, _ => none
    | some _, none => some { w with draining := none }
    | some rid, some text =>
      some { w with draining := none, ended := Dict.set rid (.raised text) w.ended }
  | .resume rid =>
    match w.waiting rid, w.future rid with
    | some _, some (.done o) => some { w with ended := Dict.set rid o w.ended }
    | _, _ => none
  | .timeout rid =>
    match w.waiting rid with
    | none => none
    | some c => some
      { w with
        client := cancel w.client rid
        ended := Dict.set rid (.raised (w.timeoutText c)) w.ended }
  | .frame f =>
    if w.client.reading then
      some { w with client := w.client.read f, heard := Dict.mapVals (· ++ [f]) w.heard }
    else none
  | .closed => if w.client.reading then some { w with client := w.client.close } else none
  | .exited => some { w with client := { w.client with alive := false } }

end World
end Obase.McpStdio
