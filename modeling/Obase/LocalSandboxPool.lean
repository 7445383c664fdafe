import Mathlib.Data.List.Infix
import Obase.Builtins
import Obase.Concrete
import Obase.Json.Glued
import Obase.Json.Loads
import Obase.Partition

namespace Obase.LocalSandboxPool
set_option autoImplicit true
open Json Text

inductive Kind where
  | runtimeError
  | exception (name : List Char)
  | base

/-- An exception, with its text unless `str` of it raises. -/
structure Raised where
  kind : Kind
  text : Option (List Char)

/-- What an untrusted program does: it reads a key of the environment, inside or outside a `try`
that catches a `RuntimeError`, opens or connects a socket, prints, raises, exits by a `SystemExit`
or by `os._exit`, or hangs. -/
inductive Action where
  | read (key : List Char) (caught : Bool)
  | socket
  | print (text : List Char)
  | raise (e : Raised)
  | exit (code : Int)
  | exitNow (code : Int)
  | hang

/-- The interpreter that runs the wrapper: what has been written to its `stdout` for certain, what
is in its buffer, and `_NETWORK_FLAG`. -/
structure Child where
  written : List Char
  buffered : List Char
  network : Bool

inductive End where
  | returned
  | raised (e : Raised)
  | exited (code : Int)
  | exitedNow (code : Int)
  | hung

def networkMark : List Char := "NETWORK_ATTEMPT".toList

def accessPrefix : List Char := "HONEYPOT_ACCESS:".toList

/-- `_audit`, on a socket. -/
def Child.audit (c : Child) : Child :=
  ⟨c.written ++ c.buffered ++ networkMark ++ ['\n'], [], true⟩

/-- The exception of `_EnvGuard`. -/
def honeypotAccess (key : List Char) : Raised := ⟨.runtimeError, some (accessPrefix ++ key)⟩

/-- `exec` of the program. -/
def exec (keys : List (List Char)) : Child → List Action → Child × End
  | c, [] => (c, .returned)
  | c, .read key caught :: rest =>
    if key ∈ keys ∧ caught = false then (c, .raised (honeypotAccess key)) else exec keys c rest
  | c, .socket :: rest => exec keys c.audit rest
  | c, .print text :: rest => exec keys { c with buffered := c.buffered ++ text } rest
  | c, .raise e :: _ => (c, .raised e)
  | c, .exit code :: _ => (c, .exited code)
  | c, .exitNow code :: _ => (c, .exitedNow code)
  | c, .hang :: _ => (c, .hung)

/-- Whether the program comes to read a honeypot key or to open or connect a socket. -/
def attempts (keys : List (List Char)) : List Action → Bool
  | [] => false
  | .read key _ :: rest => decide (key ∈ keys) || attempts keys rest
  | .socket :: _ => true
  | .print _ :: rest => attempts keys rest
  | .raise _ :: _ | .exit _ :: _ | .exitNow _ :: _ | .hang :: _ => false

def payload (access : List (List Char)) (network : Bool) (exitCode : Int) (error : Json F) :
    Json F :=
  .dict [("honeypot_access", .list (access.map fun key => .str (String.ofList key))),
    ("network_attempt", .bool network), ("stdout", .str ""), ("exit_code", .int exitCode),
    ("error", error)]

/-- The result that the wrapper prints, `none` where an exception leaves it before. -/
def result (network : Bool) : End → Option (Json F)
  | .returned => some (payload [] network 0 .null)
  | .raised ⟨.runtimeError, some msg⟩ =>
    if accessPrefix.isPrefixOf msg then
      some (payload [((partition [':'] msg).map Prod.snd).getD []] network 137 .null)
    else some (payload [] network 1 (.str (String.ofList msg)))
  | .raised ⟨.exception name, some text⟩ =>
    some (payload [] network 1 (.str (String.ofList (name ++ ": ".toList ++ text))))
  | _ => none

/-- What is not in the hands of the program: how much of the buffer has been written when the
interpreter ends without a flush, `none` where that ends within a character, and the text on
`stderr`. -/
structure Environment where
  spilled : Option Nat
  stderr : List Char

def Child.visible (c : Child) (env : Environment) : Option (List Char) :=
  env.spilled.map fun n => c.written ++ c.buffered.take n

/-- What a child without a result leaves: its `stdout`, `none` where that ends within a character,
and its exit code, `none` where it hangs. -/
def leave (env : Environment) (c : Child) : End → Option (List Char) × Option Int
  | .exited code => (some (c.written ++ c.buffered), some code)
  | .exitedNow code => (c.visible env, some code)
  | .hung => (c.visible env, none)
  | .returned | .raised _ => (some (c.written ++ c.buffered), some 1)

def output (F : Type) [FloatText F] (env : Environment) (c : Child) (e : End) :
    Option (List Char) × Option Int :=
  match result (F := F) c.network e with
  | some v => (some (c.written ++ c.buffered ++ (dumpsAscii .default v ++ ['\n'])), some 0)
  | none => leave env c e

/-- `SandboxExecutionResult`, without its duration. -/
structure SandboxExecutionResult (F : Type) where
  exitCode : Int
  stdout : List Char
  stderr : List Char
  honeypotAccess : Json F
  networkAttempt : Bool
  timedOut : Bool

def SandboxExecutionResult.hostile [FloatText F] (r : SandboxExecutionResult F) : Bool :=
  truthy r.honeypotAccess || r.networkAttempt

section
variable [Builtins F]

/-- `honeypot_access`, `network_attempt` and the exit code of a payload. -/
def readPayload (exitCode : Int) (payload : Json F) : Except PyError (Json F × Bool × Int) :=
  match payload.getD "honeypot_access" .null, payload.getD "network_attempt" .null,
    payload.getD "exit_code" (.int exitCode) with
  | .ok access, .ok network, .ok code =>
    match toInt code with
    | .ok code => .ok (if truthy access then access else .list [], truthy network, code)
    | .error e => .error e
  | _, _, _ => .error .attributeError

/-- What the last line of `stdout` says. -/
def readStdout (exitCode : Int) (stdout : List Char) : Except PyError (Json F × Bool × Int) :=
  match (splitlines (strip stdout)).getLast? with
  | none => .ok (.list [], false, exitCode)
  | some line =>
    match loads line with
    | none => .ok (.list [], false, exitCode)
    | some payload => readPayload exitCode payload

/-- `run_python`, from the program and the honeypot keys. -/
def runPython (env : Environment) (keys : List (List Char)) (code : List Action) :
    Except PyError (SandboxExecutionResult F) :=
  let (c, e) := exec keys ⟨[], [], false⟩ code
  match output F env c e with
  | (none, _) => .error .valueError
  | (some stdout, none) => .ok
    { exitCode := 124
      stdout := stdout
      stderr := env.stderr
      honeypotAccess := .list []
      networkAttempt := decide (networkMark <:+: stdout ∨ networkMark <:+: env.stderr)
      timedOut := true }
  | (some stdout, some exitCode) =>
    let stdout := universalNewlines stdout
    match readStdout exitCode stdout with
    | .error e => .error e
    | .ok (access, network, exitCode) => .ok
      { exitCode := exitCode
        stdout := stdout
        stderr := env.stderr
        honeypotAccess := access
        networkAttempt := network
        timedOut := false }

end

/-- What a program has printed on the line that the wrapper prints its result on. -/
def lastLine (out : List Char) : List Char :=
  ((universalNewlines out).dropWhile isSpace).rtakeWhile fun c => !isLineBoundary c

section
variable [Builtins F]

/-- A program prints a result of its own on the last line. -/
def Forged (F : Type) [Builtins F] (exitCode : Int) (out : List Char) : Prop :=
  ∃ line, (splitlines (strip (universalNewlines out))).getLast? = some line ∧
    ∃ ms : Dict String (Json F), loads line = some (.dict ms) ∧
      (truthy ((ms.lookup "honeypot_access").getD .null) = true ∨
        truthy ((ms.lookup "network_attempt").getD .null) = true) ∧
      ∃ n, toInt ((ms.lookup "exit_code").getD (.int exitCode)) = .ok n

/-- The exception that leaves a program has the text of one from a honeypot. -/
def End.Honeypot : End → Prop
  | .raised ⟨.runtimeError, some msg⟩ => accessPrefix <+: msg
  | _ => False

/-- The evidence that a program leaves when the wrapper prints no result: a result of its own, or,
where it hangs, its use of a socket or the mark of one that it has printed itself. -/
def Left (F : Type) [Builtins F] (env : Environment) (c : Child) : End → Prop
  | .exited code => Forged F code (c.written ++ c.buffered)
  | .exitedNow code => ∃ out, c.visible env = some out ∧ Forged F code out
  | .hung => ∃ out, c.visible env = some out ∧
    (c.network = true ∨ networkMark <:+: out ∨ networkMark <:+: env.stderr)
  | .returned | .raised _ => Forged F 1 (c.written ++ c.buffered)

/-- There is evidence of what a program did when it ends: the wrapper prints a result, on a line
where the program printed nothing, and the program used a socket or read a honeypot key outside any
`try`; or the evidence is what the program leaves. -/
def Evident (F : Type) [Builtins F] (env : Environment) (c : Child) (e : End) : Prop :=
  if (result (F := F) c.network e).isSome then
    (∀ x ∈ lastLine (c.written ++ c.buffered), isWs x = true) ∧ (c.network = true ∨ e.Honeypot)
  else Left F env c e

/-- The run of a program ends with a result that says it is hostile. -/
def Caught (F : Type) [Builtins F] (env : Environment) (keys : List (List Char))
    (code : List Action) : Prop :=
  ∃ r : SandboxExecutionResult F, runPython env keys code = .ok r ∧ r.hostile = true

end

section
variable [Builtins F]

theorem exec_network {keys : List (List Char)} {c c' : Child} {code : List Action} {e : End}
    (hc : c.network = true → networkMark <:+: c.written) (h : exec keys c code = (c', e)) :
    c'.network = true → networkMark <:+: c'.written := by
  induction code generalizing c with
  | nil =>
    cases h
    exact hc
  | cons a code ih =>
    cases a with
    | read key caught =>
      rw [exec] at h
      split at h
      · cases h
        exact hc
      · exact ih hc h
    | socket =>
      refine ih (fun _ => ?_) h
      exact ⟨c.written ++ c.buffered, ['\n'], rfl⟩
    | print text =>
      rw [exec] at h
      refine ih ?_ h
      exact hc
    | raise e =>
      cases h
      exact hc
    | exit code =>
      cases h
      exact hc
    | exitNow code =>
      cases h
      exact hc
    | hang =>
      cases h
      exact hc

theorem payload_text (access : List (List Char)) (network : Bool) (exitCode : Int)
    (error : Json F) : ∃ t,
      dumpsAscii .default (payload access network exitCode error) = '{' :: '"' :: 'h' :: t :=
  ⟨_, rfl⟩

/-- The last line of what the child prints when there is a result. -/
theorem getLast?_stdout (out : List Char) (ms : List (String × Json F)) :
    (splitlines (strip (universalNewlines
      (out ++ (dumpsAscii .default (.dict ms : Json F) ++ ['\n']))))).getLast? =
        some (lastLine out ++ dumpsAscii .default (.dict ms : Json F)) := by
  have hprint := dumpsAscii_printable .default (.dict ms : Json F)
  have htrim : Trimmed isSpace (dumpsAscii .default (.dict ms : Json F)) :=
    dumpsWith_trimmed quotes_stringAscii .default (.dict ms)
  have hhead : (dumpsAscii .default (.dict ms : Json F) ++ ['\n']).head? ≠ some '\n' := by
    rw [dumpsAscii, dumpsWith, List.cons_append, List.head?_cons, ne_eq, Option.some.injEq]
    decide
  have hne : dumpsAscii .default (.dict ms : Json F) ≠ [] := by
    rw [dumpsAscii, dumpsWith]
    exact List.cons_ne_nil _ _
  have hline : ∀ c ∈ dumpsAscii .default (.dict ms : Json F), isLineBoundary c = false := by
    intro c hc
    obtain ⟨hge, hlt⟩ := hprint c hc
    have hascii : c.toNat < 128 := by omega
    revert hge
    exact forall_ascii (P := fun c => 0x20 ≤ c.toNat → isLineBoundary c = false)
      (by decide +kernel) hascii
  have hcr : '\r' ∉ dumpsAscii .default (.dict ms : Json F) ++ ['\n'] := by
    intro hm
    obtain hm | hm := List.mem_append.1 hm
    · exact absurd (hprint _ hm).1 (by decide)
    · exact absurd hm (by decide)
  rw [universalNewlines_append hhead, universalNewlines_of_no_cr hcr, ← List.append_assoc, strip,
    trim_concat (by decide), trim_append_trimmed htrim, splitlines, universalNewlines_of_no_cr,
    getLast?_lines hline hne]
  · rfl
  · intro hm
    obtain hm | hm := List.mem_append.1 hm
    · exact cr_not_mem_universalNewlines out (List.dropWhile_sublist _ |>.mem hm)
    · exact hcr (List.mem_append_left _ hm)

end

theorem payload_distinct (access : List (List Char)) (network : Bool) (exitCode : Int)
    {error : Json F} (he : error.Distinct) :
    (payload access network exitCode error).Distinct := by
  have hkeys : ∀ access : List (List Char), Value.DistinctList
      (access.map fun key => (.str (String.ofList key) : Json F)) := by
    intro access
    induction access with
    | nil => trivial
    | cons key access ih => exact ⟨trivial, ih⟩
  refine ⟨?_, hkeys access, trivial, trivial, trivial, he, trivial⟩
  change ["honeypot_access", "network_attempt", "stdout", "exit_code", "error"].Nodup
  decide

/-- The wrapper's result has a key exactly when a honeypot's exception left the program. -/
theorem result_payload {network : Bool} {e : End} {v : Json F} (h : result network e = some v) :
    ∃ access exitCode error, v = payload access network exitCode error ∧ error.Distinct ∧
      (access ≠ [] ↔ e.Honeypot) := by
  unfold result at h
  split at h
  · cases h
    exact ⟨[], 0, .null, rfl, trivial, iff_of_false (fun h => h rfl) id⟩
  · rename_i msg
    split at h
    · rename_i hp
      cases h
      exact ⟨_, _, _, rfl, trivial,
        iff_of_true (List.cons_ne_nil _ _) (List.isPrefixOf_iff_prefix.1 hp)⟩
    · rename_i hp
      cases h
      refine ⟨[], _, _, rfl, trivial, iff_of_false (fun h => h rfl) fun hh => hp ?_⟩
      exact List.isPrefixOf_iff_prefix.2 hh
  · cases h
    exact ⟨[], _, _, rfl, trivial, iff_of_false (fun h => h rfl) id⟩
  · cases h

section
variable [Builtins F]

theorem readPayload_payload (code exitCode : Int) (access : List (List Char)) (network : Bool)
    (error : Json F) : readPayload code (payload access network exitCode error) =
      .ok (.list (access.map fun key => .str (String.ofList key)), network, exitCode) := by
  cases access with
  | nil => rfl
  | cons key access => rfl

/-- What is read of the wrapper's result: all of it, or nothing if the program has printed on the
same line. -/
theorem readStdout_payload (out : List Char) (code exitCode : Int) (access : List (List Char))
    (network : Bool) {error : Json F} (he : error.Distinct)
    [Decidable (∀ x ∈ lastLine out, isWs x = true)] :
    readStdout (F := F) code (universalNewlines (out ++
        (dumpsAscii .default (payload access network exitCode error) ++ ['\n']))) =
      if ∀ x ∈ lastLine out, isWs x = true then
        .ok (.list (access.map fun key => .str (String.ofList key)), network, exitCode)
      else .ok (.list [], false, code) := by
  obtain ⟨t, ht⟩ := payload_text access network exitCode error
  have hlast := getLast?_stdout out (F := F) [("honeypot_access", .list (access.map fun key =>
    .str (String.ofList key))), ("network_attempt", .bool network), ("stdout", .str ""),
    ("exit_code", .int exitCode), ("error", error)]
  rw [← payload] at hlast
  rw [readStdout, hlast]
  dsimp only
  by_cases hw : ∀ x ∈ lastLine out, isWs x = true
  · have hload : loads (lastLine out ++ dumpsAscii .default
        (payload access network exitCode error)) =
          some (payload access network exitCode error) := by
      rw [loads_of_blank hw, loads_dumpsAscii,
        Value.build_of_distinct _ (payload_distinct access network exitCode he)]
    rw [if_pos hw, hload]
    exact readPayload_payload ..
  · rw [if_neg hw]
    cases hl : loads (F := F) (lastLine out ++ dumpsAscii .default
        (payload access network exitCode error)) with
    | none => rfl
    | some v => exact (hw (blank_of_loads_glued quotes_stringAscii ht (by decide) hl)).elim

/-- What is read of an object. -/
theorem readPayload_dict (code : Int) (ms : Dict String (Json F)) :
    readPayload code (.dict ms) =
      match toInt ((ms.lookup "exit_code").getD (.int code)) with
      | .ok n => .ok (if truthy ((ms.lookup "honeypot_access").getD .null) then
          (ms.lookup "honeypot_access").getD .null else .list [],
            truthy ((ms.lookup "network_attempt").getD .null), n)
      | .error e => .error e := rfl

theorem truthy_or (v : Json F) : truthy (if truthy v then v else .list []) = truthy v := by
  cases hv : truthy v with
  | true => rw [if_pos rfl, hv]
  | false =>
    rw [if_neg Bool.false_ne_true]
    rfl

/-- Where the wrapper prints no result, what is read is a result of the program's own. -/
theorem readStdout_forged (code : Int) (out : List Char) :
    (∃ access network n, readStdout (F := F) code (universalNewlines out) =
      .ok (access, network, n) ∧ (truthy access || network) = true) ↔ Forged F code out := by
  constructor
  · rintro ⟨access, network, n, h, ht⟩
    rw [readStdout] at h
    split at h
    · cases h
      cases ht
    · rename_i line hline
      split at h
      · cases h
        cases ht
      · rename_i v hv
        cases v with
        | dict ms =>
          rw [readPayload_dict] at h
          split at h
          · rename_i n hn
            cases h
            rw [truthy_or, Bool.or_eq_true] at ht
            exact ⟨line, hline, ms, hv, ht, n, hn⟩
          · cases h
        | null => cases h
        | bool b => cases h
        | int n => cases h
        | float x => cases h
        | str s => cases h
        | list xs => cases h
  · rintro ⟨line, hline, ms, hv, ht, n, hn⟩
    have hread : readStdout (F := F) code (universalNewlines out) =
        .ok (if truthy ((ms.lookup "honeypot_access").getD .null) then
          (ms.lookup "honeypot_access").getD .null else .list [],
            truthy ((ms.lookup "network_attempt").getD .null), n) := by
      rw [readStdout, hline]
      dsimp only
      rw [hv]
      dsimp only
      rw [readPayload_dict, hn]
    refine ⟨_, _, n, hread, ?_⟩
    rw [truthy_or, Bool.or_eq_true]
    exact ht

/-- The runs that end with an exit code are caught by what is read of their `stdout`. -/
theorem caught_of_output {env : Environment} {keys : List (List Char)} {code : List Action}
    {c : Child} {e : End} (he : exec keys ⟨[], [], false⟩ code = (c, e)) {out : List Char}
    {exitCode : Int} (ho : output F env c e = (some out, some exitCode)) :
    Caught F env keys code ↔ ∃ access network n,
      readStdout (F := F) exitCode (universalNewlines out) = .ok (access, network, n) ∧
        (truthy access || network) = true := by
  rw [Caught, runPython, he]
  dsimp only
  rw [ho]
  dsimp only
  constructor
  · rintro ⟨r, hr, hh⟩
    split at hr
    · cases hr
    · rename_i access network n hread
      cases hr
      exact ⟨access, network, n, hread, hh⟩
  · rintro ⟨access, network, n, hread, hh⟩
    rw [hread]
    exact ⟨_, rfl, hh⟩

theorem not_caught_of_cut {env : Environment} {keys : List (List Char)} {code : List Action}
    {c : Child} {e : End} (he : exec keys ⟨[], [], false⟩ code = (c, e)) {exitCode : Option Int}
    (ho : output F env c e = (none, exitCode)) : ¬ Caught F env keys code := by
  rw [Caught, runPython, he]
  dsimp only
  rw [ho]
  rintro ⟨r, hr, -⟩
  cases hr

theorem caught_of_hung {env : Environment} {keys : List (List Char)} {code : List Action}
    {c : Child} {e : End} (he : exec keys ⟨[], [], false⟩ code = (c, e))
    {visible : Option (List Char)} (ho : output F env c e = (visible, none)) :
    Caught F env keys code ↔ ∃ out, visible = some out ∧
      (networkMark <:+: out ∨ networkMark <:+: env.stderr) := by
  rw [Caught, runPython, he]
  dsimp only
  rw [ho]
  cases visible with
  | none =>
    refine iff_of_false ?_ ?_
    · rintro ⟨r, hr, -⟩
      cases hr
    · rintro ⟨out, hout, -⟩
      cases hout
  | some out =>
    constructor
    · rintro ⟨r, hr, hh⟩
      cases hr
      exact ⟨out, rfl, of_decide_eq_true hh⟩
    · rintro ⟨out', hout, hmark⟩
      cases hout
      exact ⟨_, rfl, decide_eq_true hmark⟩

/-- What is caught of a program is what there is evidence of at its end. -/
theorem caught_iff (env : Environment) (keys : List (List Char)) (code : List Action) :
    Caught F env keys code ↔
      Evident F env (exec keys ⟨[], [], false⟩ code).1 (exec keys ⟨[], [], false⟩ code).2 := by
  cases he : exec keys ⟨[], [], false⟩ code with
  | mk c e =>
    have hnet := exec_network (by exact fun h => nomatch h) he
    dsimp only
    cases hr : result (F := F) c.network e with
    | some v =>
      obtain ⟨access, exitCode, error, rfl, hd, hkey⟩ := result_payload hr
      have ho : output F env c e = (some (c.written ++ c.buffered ++ (dumpsAscii .default
          (payload access c.network exitCode error) ++ ['\n'])), some 0) := by
        rw [output, hr]
      rw [caught_of_output he ho, readStdout_payload _ _ _ _ _ hd, Evident, hr,
        Option.isSome_some, if_pos rfl, ← hkey]
      by_cases hw : ∀ x ∈ lastLine (c.written ++ c.buffered), isWs x = true
      · rw [if_pos hw]
        have htruthy : truthy (.list (access.map fun key => .str (String.ofList key)) : Json F) =
            true ↔ access ≠ [] := by
          cases access with
          | nil => exact iff_of_false (fun h => nomatch h) fun h => h rfl
          | cons key access => exact iff_of_true rfl (List.cons_ne_nil key access)
        constructor
        · rintro ⟨_, _, _, h, ht⟩
          cases h
          rw [Bool.or_eq_true, htruthy] at ht
          exact ⟨hw, ht.symm⟩
        · rintro ⟨-, ht⟩
          refine ⟨_, _, _, rfl, ?_⟩
          rw [Bool.or_eq_true, htruthy]
          exact ht.symm
      · rw [if_neg hw]
        refine iff_of_false ?_ fun h => hw h.1
        rintro ⟨_, _, _, h, ht⟩
        cases h
        cases ht
    | none =>
      have ho : output F env c e = leave env c e := by rw [output, hr]
      rw [Evident, hr, Option.isSome_none, if_neg Bool.false_ne_true]
      cases e with
      | returned => cases hr
      | raised e => rw [caught_of_output he ho, Left, readStdout_forged]
      | exited code => rw [caught_of_output he ho, Left, readStdout_forged]
      | exitedNow code =>
        cases hv : c.visible env with
        | none =>
          have ho : output F env c (.exitedNow code) = (none, some code) := by
            rw [ho, leave, hv]
          refine iff_of_false (not_caught_of_cut he ho) ?_
          rintro ⟨out, hout, -⟩
          rw [hv] at hout
          cases hout
        | some out =>
          have ho : output F env c (.exitedNow code) = (some out, some code) := by
            rw [ho, leave, hv]
          rw [caught_of_output he ho, Left, readStdout_forged, hv]
          constructor
          · exact fun h => ⟨out, rfl, h⟩
          · rintro ⟨out', hout, h⟩
            cases hout
            exact h
      | hung =>
        rw [caught_of_hung he ho, Left]
        constructor
        · rintro ⟨out, hv, hmark⟩
          exact ⟨out, hv, .inr hmark⟩
        · rintro ⟨out, hv, hc | hmark⟩
          · obtain ⟨n, -, rfl⟩ := Option.map_eq_some_iff.1 hv
            exact ⟨_, hv, .inl ((hnet hc).trans (List.prefix_append _ _).isInfix)⟩
          · exact ⟨out, hv, hmark⟩

/-- A program that comes to read a honeypot key or to use a socket is found hostile exactly when it
leaves evidence of that. -/
theorem caught_iff_evident (env : Environment) (keys : List (List Char)) (code : List Action) :
    (attempts keys code = true → Caught F env keys code) ↔
      (attempts keys code = true →
        Evident F env (exec keys ⟨[], [], false⟩ code).1 (exec keys ⟨[], [], false⟩ code).2) :=
  imp_congr_right fun _ => caught_iff env keys code

end

/-- A honeypot key that is read within a `try`. -/
theorem read_in_try : ¬ ∀ (env : Environment) (keys : List (List Char)) (code : List Action),
    attempts keys code = true → Caught WholeFloat env keys code := by
  intro h
  have hc := h ⟨some 0, []⟩ ["AWS_SECRET".toList] [.read "AWS_SECRET".toList true] (by decide)
  rw [caught_iff] at hc
  obtain ⟨-, hn | hh⟩ := hc
  · cases hn
  · exact hh

end Obase.LocalSandboxPool
