import Obase.CircuitBreaker.Breaker
import Obase.Executor.Sandbox
import Obase.PermissionContract.Token

namespace Obase.Executor
set_option autoImplicit true
open PermissionContract
open CircuitBreaker (Breaker)

/-- What `getattr(breaker, "is_open", None)` is: nothing, a value, or something to call. -/
inductive IsOpen where
  | absent
  | value (truthy : Bool)
  | callable (result : Except Exn Bool)

/-- The breaker of an executor: a `CircuitBreaker`, or an object of another class. -/
inductive BreakerRef where
  | circuitBreaker (b : Breaker)
  | other (isOpen : IsOpen)

/-- A `CircuitBreaker` has no attribute `is_open`. -/
def BreakerRef.isOpen : BreakerRef → IsOpen
  | .circuitBreaker _ => .absent
  | .other isOpen => isOpen

/-- The call of `acquire` of the rate limiter, if it has any: it raises an exception, or returns
something that cannot or can be awaited. -/
inductive Acquire where
  | absent
  | raised (e : Exn)
  | returned
  | awaitable (result : Option Exn)

inductive FileState where
  | absent
  | content (bytes : List UInt8)
  | unreadable (e : Exn)

/-- What a call meets: the two clocks, the rate limiter, the path of its bait and the exception that
is raised where it is planted, the files when the bait is checked, and the exception that is raised
where an entry is written to the file of the `ActionLog`. -/
structure World (F : Type) where
  now : F
  clock : ℚ
  acquire : Acquire
  baitPath : String
  plant : Option Exn
  files : String → FileState
  write : Option Exn

/-- The text of an `error` or a `reason`, by what it is made of. -/
inductive Failure (F : Type) where
  | invalidEnvelope (e : EnvelopeError)
  | missingToken
  | invalidToken (message : String)
  | lacksCapability (subject : Json F) (required : String) (held : List (Json F))
  | circuitOpen
  | rateLimit (e : Exn)
  | raised (e : Exn)
  | wallclockTimeout (timeout : PyFloat F)
  | honeypotTouched
  | networkDenied (banned : String)
  | egressDenied (host : List Char)

inductive TripReason where
  | removed
  | modified

structure Trip where
  path : String
  reason : TripReason

/-- The `detail` of an entry of the `ActionLog`. -/
inductive Detail (F : Type) where
  | reason (f : Failure F)
  | ended (trips : List Trip) (error : Option (Failure F))
  | command (text : List Char) (trips : List Trip)

structure Entry (F : Type) where
  action : String
  subject : Json F
  capability : String
  outcome : Status
  detail : Detail F

structure ExecutionResult (F α : Type) where
  status : Status
  outcome : Option α
  error : Option (Failure F)
  honeyTrips : List Trip

def ExecutionResult.failed (status : Status) (f : Failure F) : ExecutionResult F α :=
  ⟨status, none, some f, []⟩

/-- A call: whether `fn` or the subprocess was started, the baits it planted, the entries it appended
to the `ActionLog`, and what it returns or raises. -/
structure Report (F α : Type) where
  started : Bool
  baits : List (String × List UInt8)
  entries : List (Entry F)
  result : Except Exn (ExecutionResult F α)

def Report.returned (res : ExecutionResult F α) : Report F α := ⟨false, [], [], .ok res⟩

def Report.raised (e : Exn) : Report F α := ⟨false, [], [], .error e⟩

/-- The arguments that the three paths have in common. -/
structure Call (F : Type) where
  token : List Char
  capability : Option String := none
  envelope : Option (ResourceEnvelope F) := none
  useBreaker : Bool := true
  useHoneypot : Bool := true
  audit : Bool := true

def Call.env [Json.FloatText F] (c : Call F) : ResourceEnvelope F :=
  c.envelope.getD defaultEnvelope

structure HardenedExecutor where
  secret : String
  secret_ne : secret ≠ ""
  breaker : Option BreakerRef := none
  defaultCapability : String := "executor.execute"

/-- The content of a bait. -/
def baitContent : List UInt8 := utf8 "STRATUM_PROBE_<redacted_secret>_DO_NOT_READ".toList

def World.plantBaits (w : World F) (useHoneypot : Bool) :
    Except Exn (List (String × List UInt8)) :=
  if useHoneypot then
    match w.plant with
    | some e => .error e
    | none => .ok [(w.baitPath, baitContent)]
  else .ok []

/-- `check_touched`. -/
def checkTouched (files : String → FileState) :
    List (String × List UInt8) → Except Exn (List Trip)
  | [] => .ok []
  | (path, original) :: baits =>
    match files path with
    | .absent => (checkTouched files baits).map (⟨path, .removed⟩ :: ·)
    | .content bytes =>
      if bytes ≠ original then (checkTouched files baits).map (⟨path, .modified⟩ :: ·)
      else checkTouched files baits
    | .unreadable e => .error e

/-- `_audit`: what `record` raises on an `OSError` of the file is caught, what else is raised is not. -/
def World.audited (w : World F) (audit : Bool) (entry : Entry F) (r : Report F α) : Report F α :=
  if audit then
    { r with
      entries := r.entries ++ [entry]
      result :=
        match w.write with
        | some e => if e.isOSError then r.result else .error e
        | none => r.result }
  else r

/-- A call that is refused with status blocked, and audited. -/
def World.blocked (w : World F) (c : Call F) (action : String) (tok : CapabilityToken F)
    (capability : String) (f : Failure F) : Report F α :=
  w.audited c.audit ⟨action, tok.subject, capability, .blocked, .reason f⟩
    (.returned (.failed .blocked f))

/-- What the baits that were touched make of a result. -/
def ExecutionResult.tripped (res : ExecutionResult F α) (mayTrip : Status → Bool)
    (trips : List Trip) : ExecutionResult F α :=
  if !trips.isEmpty && mayTrip res.status then
    { res with status := .honeypotTrip, error := some .honeypotTouched, honeyTrips := trips }
  else { res with honeyTrips := trips }

/-- What follows the guards: a bait is planted, `fn` or the command runs, the bait is checked, and the
result is audited. The statuses which a touched bait replaces and the entry are those of the path. -/
def World.supervise (w : World F) (c : Call F) (mayTrip : Status → Bool)
    (entry : ExecutionResult F α → Entry F) (run : Bool × Except Exn (ExecutionResult F α)) :
    Report F α :=
  match w.plantBaits c.useHoneypot with
  | .error e => .raised e
  | .ok baits =>
    match run.2 with
    | .error e => ⟨run.1, baits, [], .error e⟩
    | .ok res =>
      match checkTouched w.files baits with
      | .error e => ⟨run.1, baits, [], .error e⟩
      | .ok trips =>
        let res := res.tripped mayTrip trips
        w.audited c.audit (entry res) ⟨run.1, baits, [], .ok res⟩

/-- `required or default`. -/
def orDefault (required : Option String) (default : String) : String :=
  match required with
  | some name => if name = "" then default else name
  | none => default

/-- A `CapabilityDeniedError` or `CapabilityError`, or another exception. -/
inductive VerifyError (F : Type) where
  | denied (f : Failure F)
  | raised (e : PyError)

def checkCapability (tok : CapabilityToken F) (required : String) : Except (VerifyError F) Unit :=
  match hasCapability required tok.capabilities with
  | .ok true => .ok ()
  | .ok false => .error (.denied (.lacksCapability tok.subject required tok.capabilities))
  | .error e => .error (.raised e)

def breakerOpen : Option BreakerRef → Except Exn Bool
  | none => .ok false
  | some breaker =>
    match breaker.isOpen with
    | .absent => .ok false
    | .value truthy => .ok truthy
    | .callable result => result

/-- The exception of `_acquire_rate`, if it raises any. -/
def Acquire.raises : Acquire → Option Exn
  | .absent | .returned => none
  | .raised e => some e
  | .awaitable _ =>
    some (.other "HardenedExecutorError" "hardened_executor: async rate limiter requires aexecute")

/-- The exception of the rate limiter in `aexecute`, if it raises any. -/
def Acquire.raisesAwaited : Acquire → Option Exn
  | .absent | .returned => none
  | .raised e => some e
  | .awaitable result => result

section
variable [Runtime F] (mac : List UInt8 → List UInt8 → List UInt8)

/-- `_verify`. -/
def HardenedExecutor.verify (ex : HardenedExecutor) (token : List Char) (required : Option String)
    (now : F) : Except (VerifyError F) (CapabilityToken F) :=
  if token = [] then .error (.denied .missingToken)
  else
    match verifyCapabilityToken mac ex.secret token none now with
    | .error (.capability message) | .error (.expired message) =>
      .error (.denied (.invalidToken message))
    | .error (.raised e) => .error (.raised e)
    | .ok tok => (checkCapability tok (orDefault required ex.defaultCapability)).map fun _ => tok

/-- The checks of the envelope and the token, which all three paths begin with. -/
def HardenedExecutor.enter (ex : HardenedExecutor) (w : World F) (c : Call F)
    (required : Option String) : Except (Report F α) (CapabilityToken F) :=
  match validateEnvelope c.env with
  | .error e => .error (.returned (.failed .error (.invalidEnvelope e)))
  | .ok _ =>
    match ex.verify mac c.token required w.now with
    | .error (.denied f) => .error (.returned (.failed .denied f))
    | .error (.raised e) => .error (.raised (.builtin e))
    | .ok tok => .ok tok

/-- `use_breaker and self._breaker_open()`. -/
def HardenedExecutor.rejects (ex : HardenedExecutor) (c : Call F) : Except Exn Bool :=
  if c.useBreaker then breakerOpen ex.breaker else .ok false

def HardenedExecutor.passBreaker (ex : HardenedExecutor) (c : Call F) (refusal : Report F α) :
    Except (Report F α) Unit :=
  match ex.rejects c with
  | .error e => .error (.raised e)
  | .ok true => .error refusal
  | .ok false => .ok ()

/-- The rate limiter, whose exceptions are caught if they are any `Exception`. -/
def passRate (raised : Option Exn) (refusal : Exn → Report F α) : Except (Report F α) Unit :=
  match raised with
  | none => .ok ()
  | some .exit => .error (.raised .exit)
  | some e => .error (refusal e)

/-- A call of `fn` in `execute`. -/
def runFn : Option (Except Exn α) → Bool × Except Exn (ExecutionResult F α)
  | none =>
    (false, .ok (.failed .error
      (.raised (.other "HardenedExecutorError" "hardened_executor: fn must be provided"))))
  | some (.ok a) => (true, .ok ⟨.ok, some a, none, []⟩)
  | some (.error .exit) => (true, .error .exit)
  | some (.error e) => (true, .ok (.failed .error (.raised e)))

/-- `asyncio.wait_for` of `fn` in `aexecute`. -/
def awaitFn (timeout : PyFloat F) :
    Option (Except Exn α) → Bool × Except Exn (ExecutionResult F α)
  | some (.error (.timeout _)) => (true, .ok (.failed .timeout (.wallclockTimeout timeout)))
  | fn => runFn fn

/-- The entry of a path that calls `fn`. -/
def fnEntry (action : String) (tok : CapabilityToken F) (capability : String)
    (res : ExecutionResult F α) : Entry F :=
  ⟨action, tok.subject, capability, res.status, .ended res.honeyTrips res.error⟩

/-- `execute`, by how `fn` ends if there is one. -/
def HardenedExecutor.execute (ex : HardenedExecutor) (w : World F) (c : Call F)
    (fn : Option (Except Exn α)) (useRateLimit : Bool) : Report F α :=
  let cap := orDefault c.capability ex.defaultCapability
  guarded (ex.enter mac w c c.capability) fun tok =>
  guarded (ex.passBreaker c (w.blocked c "execute" tok cap .circuitOpen)) fun _ =>
  guarded (passRate (if useRateLimit then w.acquire.raises else none)
    fun e => w.blocked c "execute" tok cap (.rateLimit e)) fun _ =>
  w.supervise c (fun _ => true) (fnEntry "execute" tok cap) (runFn fn)

def HardenedExecutor.aexecute (ex : HardenedExecutor) (w : World F) (c : Call F)
    (fn : Option (Except Exn α)) (timeout : Option (PyFloat F)) (useRateLimit : Bool) : Report F α :=
  let cap := orDefault c.capability ex.defaultCapability
  guarded (ex.enter mac w c c.capability) fun tok =>
  guarded (ex.passBreaker c (w.blocked c "aexecute" tok cap .circuitOpen)) fun _ =>
  guarded (passRate (if useRateLimit then w.acquire.raisesAwaited else none)
    fun e => w.blocked c "aexecute" tok cap (.rateLimit e)) fun _ =>
  w.supervise c (· == .ok) (fnEntry "aexecute" tok cap)
    (awaitFn (timeout.getD c.env.wallclockS) fn)

/-- The network policy in `execute_subprocess`: what a command is refused for, if it is. -/
def checkNetwork (U : Url.UrlText) (policy : NetworkPolicy) (command : List Char) :
    Except PyError (Option (Failure F)) :=
  if policy.mode = "deny_all" then
    .ok ((checkCommand U.toCasing command).map .networkDenied)
  else if policy.mode = "allowlist" then
    match resolveEgress U command with
    | .error e => .error e
    | .ok none => .ok none
    | .ok (some host) => .ok (if policy.allows host none then none else some (.egressDenied host))
  else .ok none

def passNetwork (U : Url.UrlText) (policy : NetworkPolicy) (command : List Char)
    (refusal : Failure F → Report F α) : Except (Report F α) Unit :=
  match checkNetwork U policy command with
  | .error e => .error (.raised (.builtin e))
  | .ok (some f) => .error (refusal f)
  | .ok none => .ok ()

/-- The dictionary that `execute_subprocess` returns, with its other keys those of a sandbox result. -/
def commandResult (r : SandboxResult F) : ExecutionResult F (SandboxResult F) :=
  ⟨r.status, some r, none, []⟩

def commandEntry (tok : CapabilityToken F) (capability : String) (command : List Char)
    (res : ExecutionResult F α) : Entry F :=
  ⟨"subprocess", tok.subject, capability, res.status, .command (command.take 200) res.honeyTrips⟩

/-- `execute_subprocess`, which does not audit that the breaker is open. -/
def HardenedExecutor.executeSubprocess (U : Url.UrlText) (ex : HardenedExecutor) (w : World F)
    (c : Call F) (command : List Char) (process : ProcessEnd) : Report F (SandboxResult F) :=
  let cap := c.capability.getD "executor.subprocess"
  guarded (ex.enter mac w c (some cap)) fun tok =>
  guarded (ex.passBreaker c (.returned (.failed .blocked .circuitOpen))) fun _ =>
  guarded (passNetwork U c.env.network command (w.blocked c "subprocess" tok cap)) fun _ =>
  let run := sandboxRun U command c.env.wallclockS process
  w.supervise c (· == .ok) (commandEntry tok cap command) (run.1, run.2.map commandResult)

end

end Obase.Executor
