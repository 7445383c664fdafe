import Obase.Runtime
import Obase.Url.Split

namespace Obase.Executor
set_option autoImplicit true
open Json

structure NetworkPolicy where
  mode : String
  egressAllow : List (List Char)

def NetworkPolicy.allows (p : NetworkPolicy) (host : List Char) (port : Option Int) : Bool :=
  if p.mode = "deny_all" then false
  else
    p.egressAllow.any fun rule =>
      port.elim host (fun n => host ++ ':' :: intText n) == rule ||
        !rule.contains ':' && rule == host

/-- `ResourceEnvelope`, its write scope by the paths as they are written. -/
structure ResourceEnvelope (F : Type) where
  cpuSeconds : PyFloat F
  memoryMb : PyFloat F
  wallclockS : PyFloat F
  network : NetworkPolicy
  writeScope : List (List Char)

/-- The `ValueError` of `validate_envelope`. -/
inductive EnvelopeError where
  | negative
  | unknownMode (mode : String)
  | relativeScope (scope : List Char)

/-- `DEFAULT_ENVELOPE`. -/
def defaultEnvelope [FloatText F] : ResourceEnvelope F where
  cpuSeconds := FloatText.ofLiteral "30.0".toList
  memoryMb := FloatText.ofLiteral "512.0".toList
  wallclockS := FloatText.ofLiteral "60.0".toList
  network := ⟨"deny_all", []⟩
  writeScope := []

def validateEnvelope [Runtime F] (envelope : ResourceEnvelope F) : Except EnvelopeError Unit :=
  if envelope.cpuSeconds.lt (.finite Runtime.zero) || envelope.wallclockS.lt (.finite Runtime.zero) ||
      envelope.memoryMb.lt (.finite Runtime.zero) then
    .error .negative
  else if envelope.network.mode ≠ "deny_all" ∧ envelope.network.mode ≠ "allowlist" then
    .error (.unknownMode envelope.network.mode)
  else
    match envelope.writeScope.find? fun scope => scope.head? != some '/' with
    | some scope => .error (.relativeScope scope)
    | none => .ok ()

/-- An exception: a `TimeoutError`, a `FileNotFoundError` or another `OSError`, another `Exception`
of the interpreter or of somebody else, or one that is no `Exception`. -/
inductive Exn where
  | timeout (text : String)
  | fileNotFound (text : String)
  | osError (name text : String)
  | builtin (e : PyError)
  | other (name text : String)
  | exit
deriving DecidableEq

def Exn.isOSError : Exn → Bool
  | .timeout _ | .fileNotFound _ | .osError .. => true
  | _ => false

/-- `NETWORK_COMMANDS`. -/
def networkCommands : List String :=
  ["curl", "wget", "nc", "ncat", "telnet", "ssh", "scp", "sftp", "ftp", "git fetch", "git pull",
    "git push", "pip install", "pip download", "npm install", "apt-get", "apt ", "yum", "dnf",
    "docker pull", "dig", "nslookup", "ping", "traceroute", "hostname -I", "ifconfig", "ip addr"]

/-- `check_command`, with the command that is banned as its reason. -/
def checkCommand (U : Casing) (command : List Char) : Option String :=
  networkCommands.find? fun banned => banned.toList.isPrefixOf (U.lower (Text.strip command))

/-- How the subprocess of a command ends: it exits, it is killed after the timeout, or an exception
is raised before or after it has started. -/
inductive ProcessEnd where
  | exited (code : Int) (stdout stderr : List UInt8)
  | timedOut
  | raised (started : Bool) (e : Exn)

/-- The `status` of an `ExecutionResult` and of a `SandboxResult`. -/
inductive Status where
  | ok
  | denied
  | blocked
  | timeout
  | honeypotTrip
  | error
deriving DecidableEq

inductive SandboxReason (F : Type) where
  | networkCommand (banned : String)
  | timedOut (timeout : PyFloat F)
  | cannotExecute (e : Exn)

structure SandboxResult (F : Type) where
  status : Status
  exitCode : Option Int
  stdout : List Char
  stderr : List Char
  reason : Option (SandboxReason F)

def ProcessEnd.started : ProcessEnd → Bool
  | .exited .. | .timedOut => true
  | .raised started _ => started

/-- `max_output_chars` characters of what a subprocess has written. -/
def outputText (U : Url.UrlText) (bytes : List UInt8) : List Char := (U.decode bytes).take 20000

/-- `ZeroEgressSandbox.run` from where the subprocess is created. -/
def ProcessEnd.result (U : Url.UrlText) (timeout : PyFloat F) :
    ProcessEnd → Except Exn (SandboxResult F)
  | .exited code stdout stderr =>
    .ok ⟨if code = 0 then .ok else .error, some code, outputText U stdout, outputText U stderr, none⟩
  | .timedOut => .ok ⟨.timeout, none, [], [], some (.timedOut timeout)⟩
  | .raised _ (.fileNotFound text) =>
    .error (.other "SandboxError" ("zero_egress_sandbox: shell unavailable: " ++ text))
  | .raised _ e =>
    if e.isOSError then .ok ⟨.error, none, [], [], some (.cannotExecute e)⟩ else .error e

/-- `ZeroEgressSandbox.run`: whether a subprocess has started, and how the call ends. -/
def sandboxRun (U : Url.UrlText) (command : List Char) (timeout : PyFloat F) (process : ProcessEnd) :
    Bool × Except Exn (SandboxResult F) :=
  if Text.notBlank command then
    match checkCommand U.toCasing command with
    | some banned => (false, .ok ⟨.blocked, none, [], [], some (.networkCommand banned)⟩)
    | none => (process.started, process.result U timeout)
  else
    (false, .error (.other "SandboxError" "zero_egress_sandbox: command must not be empty"))

/-- `command.split()`. -/
def words (command : List Char) : List (List Char) :=
  (Text.lines Text.isSpace command).filter fun word => !word.isEmpty

def isHttp (part : List Char) : Bool :=
  "http://".toList.isPrefixOf part || "https://".toList.isPrefixOf part

/-- `_resolve_egress`, whose `urlparse` raises a `ValueError` on what is no URL. -/
def resolveEgress (U : Url.UrlText) (command : List Char) : Except PyError (Option (List Char)) :=
  match words command with
  | [] => .ok none
  | name :: parts =>
    if name = "curl".toList ∨ name = "wget".toList then
      match parts.find? isHttp with
      | none => .ok none
      | some part =>
        match Url.urlsplit U part with
        | none => .error .valueError
        | some url => .ok (Url.hostname U url.netloc)
    else .ok none

end Obase.Executor
