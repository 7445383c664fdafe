import Obase.Executor.Guards

namespace Obase.Executor
set_option autoImplicit true
open PermissionContract

/-- The executor uses a `CircuitBreaker`, and that is open. -/
def HardenedExecutor.Opened (ex : HardenedExecutor) (w : World F) (c : Call F) : Prop :=
  c.useBreaker = true ∧
    ∃ b, ex.breaker = some (.circuitBreaker b) ∧ (b.getState w.clock).state = .opened

/-- What lets `fn` or the command start. -/
structure HardenedExecutor.Granted [Runtime F] (mac : List UInt8 → List UInt8 → List UInt8)
    (ex : HardenedExecutor) (w : World F) (c : Call F) (required : String) : Prop where
  envelope : validateEnvelope c.env = .ok ()
  token : ex.Authorised mac c.token required w.now
  breaker : ¬ ex.Opened w c

def Status.Refuses (status : Status) : Prop :=
  status = .denied ∨ status = .blocked ∨ status = .error

/-- The call returns, it starts what is granted alone, and what is not granted it refuses. -/
def Gate (granted : Prop) (r : Report F α) : Prop :=
  ∃ res, r.result = .ok res ∧ (r.started = true → granted) ∧ (¬ granted → res.status.Refuses)

theorem Gate.returning {granted : Prop} : Returning (Gate (F := F) (α := α) granted) :=
  fun _ h => h.imp fun _ h => h.1

theorem gate_refused {granted : Prop} {status : Status} {f : Failure F} (h : status.Refuses) :
    Gate (α := α) granted (.returned (.failed status f)) :=
  ⟨_, rfl, nofun, fun _ => h⟩

section
variable {granted : Prop} {w : World F} {c : Call F} {r : Report F α}

theorem gate_audited_iff {entry : Entry F} :
    Gate granted (w.audited c.audit entry r) ↔ w.WriteSafe c ∧ Gate granted r := by
  simp only [Gate, audited_result_iff, audited_started, and_assoc, exists_and_left]

theorem gate_blocked_iff {tok : CapabilityToken F} {f : Failure F} {action capability : String} :
    Gate granted (w.blocked (α := α) c action tok capability f) ↔ w.WriteSafe c := by
  rw [World.blocked, gate_audited_iff, and_iff_left]
  exact gate_refused (.inr (.inl rfl))

theorem tripped_refuses_iff {res : ExecutionResult F α} {mayTrip : Status → Bool}
    {trips : List Trip} : (res.tripped mayTrip trips).status.Refuses ↔
      res.status.Refuses ∧ ¬ (trips ≠ [] ∧ mayTrip res.status = true) := by
  rw [tripped_status]
  split
  · rename_i h
    exact iff_of_false nofun (fun hr => hr.2 h)
  · rename_i h
    exact (and_iff_left h).symm

theorem gate_supervise_iff {opened : Prop} {mayTrip : Status → Bool}
    {entry : ExecutionResult F α → Entry F} {run : Bool × Except Exn (ExecutionResult F α)} :
    Gate (¬ opened) (w.supervise c mayTrip entry run) ↔
      w.BaitSafe c ∧ ∃ res, run.2 = .ok res ∧ w.WriteSafe c ∧
        (opened → run.1 = false ∧ res.status.Refuses ∧
          ¬ (w.Tripped c ∧ mayTrip res.status = true)) := by
  rw [supervise_iff Gate.returning]
  apply and_congr_right
  intro hb
  obtain ⟨trips, ht, htrip⟩ := trips_of_baitSafe hb
  constructor
  · rintro ⟨res, trips', hr, ht', hg⟩
    rw [ht] at ht'
    cases ht'
    rw [gate_audited_iff] at hg
    obtain ⟨hw, _, he, hs, hn⟩ := hg
    cases he
    refine ⟨res, hr, hw, fun ho => ⟨Bool.eq_false_iff.2 fun h => hs h ho, ?_⟩⟩
    rw [← htrip, ← tripped_refuses_iff]
    exact hn (not_not.2 ho)
  · rintro ⟨res, hr, hw, ho⟩
    refine ⟨res, trips, hr, ht, gate_audited_iff.2 ⟨hw, _, rfl, fun hs ho' => ?_, fun hn => ?_⟩⟩
    · rw [(ho ho').1] at hs
      cases hs
    · rw [tripped_refuses_iff, htrip]
      exact (ho (not_not.1 hn)).2

theorem gate_fn_iff {opened : Prop} {fn : Option (Except Exn α)} {mayTrip : Status → Bool}
    {entry : ExecutionResult F α → Entry F} {run : Bool × Except Exn (ExecutionResult F α)}
    (hf : RunsFn fn run) : Gate (¬ opened) (w.supervise c mayTrip entry run) ↔
      w.WriteSafe c ∧ w.BaitSafe c ∧ fn ≠ some (.error .exit) ∧
        (opened → fn = none ∧ ¬ (w.Tripped c ∧ mayTrip .error = true)) := by
  rw [gate_supervise_iff, ← hf.ends, hf.started, Option.isSome_eq_false_iff, Option.isNone_iff_eq_none]
  constructor
  · rintro ⟨hb, res, hr, hw, ho⟩
    refine ⟨hw, hb, ⟨res, hr⟩, fun hop => ?_⟩
    obtain ⟨hn, -, ht⟩ := ho hop
    obtain ⟨f, hf⟩ := hf.missing hn
    rw [hf] at hr
    cases hr
    exact ⟨hn, ht⟩
  · rintro ⟨hw, hb, ⟨res, hr⟩, ho⟩
    refine ⟨hb, res, hr, hw, fun hop => ?_⟩
    obtain ⟨hn, ht⟩ := ho hop
    obtain ⟨f, hf⟩ := hf.missing hn
    rw [hf] at hr
    cases hr
    exact ⟨hn, .inr (.inr rfl), ht⟩

theorem gate_command_iff {opened : Prop} {U : Url.UrlText} {command : List Char}
    {timeout : PyFloat F} {process : ProcessEnd} {w : World F} {c : Call F}
    {entry : ExecutionResult F (SandboxResult F) → Entry F} :
    Gate (¬ opened) (w.supervise c (· == .ok) entry
        ((sandboxRun U command timeout process).1,
          (sandboxRun U command timeout process).2.map commandResult)) ↔
      w.WriteSafe c ∧ w.BaitSafe c ∧ RunEnds U command process ∧
        (opened → checkCommand U.toCasing command = none → process.started = false) := by
  rw [gate_supervise_iff, ← sandboxRun_ok_iff]
  constructor
  · rintro ⟨hb, res, hm, hw, ho⟩
    obtain ⟨r, hr, -⟩ := map_ok hm
    exact ⟨hw, hb, ⟨r, hr⟩, fun hop => (sandboxRun_status hr).2.2.2.1 (ho hop).1⟩
  · rintro ⟨hw, hb, ⟨r, hr⟩, ho⟩
    refine ⟨hb, commandResult r, by rw [hr]; rfl, hw, fun hop => ?_⟩
    obtain ⟨-, -, hs, hi⟩ := sandboxRun_status hr
    have hidle := hi.2 (ho hop)
    refine ⟨hidle, ?_, ?_⟩
    · exact (hs hidle).elim (fun h => .inr (.inl h)) (fun h => .inr (.inr h))
    · rintro ⟨-, ht⟩
      rcases hs hidle with h | h
      · rw [commandResult, h] at ht
        cases ht
      · rw [commandResult, h] at ht
        cases ht

end

section
variable [Runtime F] {mac : List UInt8 → List UInt8 → List UInt8} {ex : HardenedExecutor}
  {w : World F} {c : Call F} {required : Option String} {body : CapabilityToken F → Report F α}
  {X : Prop}

/-- The checks that the three paths begin with, before a body that is gated on a condition. -/
theorem gate_enter_iff (hb : ∀ tok, Gate (¬ ex.Opened w c) (body tok) ↔ X) :
    Gate (ex.Granted mac w c (orDefault required ex.defaultCapability))
        (guarded (ex.enter mac w c required) body) ↔
      (validateEnvelope c.env = .ok () →
        ex.TokenSafe mac c.token (orDefault required ex.defaultCapability) w.now ∧
        (ex.Authorised mac c.token (orDefault required ex.defaultCapability) w.now → X)) := by
  rw [enter_iff Gate.returning, and_iff_right fun e _ => gate_refused (.inr (.inr rfl))]
  apply imp_congr_right
  intro henv
  rw [and_iff_right fun f _ => gate_refused (.inl rfl)]
  apply and_congr_right
  intro hsafe
  have hg (h : ex.Authorised mac c.token (orDefault required ex.defaultCapability) w.now) :
      ex.Granted mac w c (orDefault required ex.defaultCapability) ↔ ¬ ex.Opened w c :=
    ⟨fun hg => hg.breaker, fun ho => ⟨henv, h, ho⟩⟩
  constructor
  · rintro h ⟨tok, hv, hc⟩
    have hp := h tok (verify_ok_iff.2 ⟨hv, hc⟩)
    rw [hg ⟨tok, hv, hc⟩] at hp
    exact (hb tok).1 hp
  · intro h tok hv
    have ha : ex.Authorised mac c.token (orDefault required ex.defaultCapability) w.now :=
      ⟨tok, verify_ok_iff.1 hv⟩
    rw [hg ha]
    exact (hb tok).2 (h ha)

variable (mac : List UInt8 → List UInt8 → List UInt8) (ex : HardenedExecutor) (w : World F)
  (c : Call F)

/-- Unless the envelope is refused, `_verify` raises nothing that is not caught, and the rest holds if
the token grants the capability. -/
def HardenedExecutor.Safe (required : Option String) (rest : Prop) : Prop :=
  validateEnvelope c.env = .ok () →
    ex.TokenSafe mac c.token (orDefault required ex.defaultCapability) w.now ∧
    (ex.Authorised mac c.token (orDefault required ex.defaultCapability) w.now → rest)

theorem gate_execute_iff (fn : Option (Except Exn α)) (useRateLimit : Bool) :
    Gate (ex.Granted mac w c (orDefault c.capability ex.defaultCapability))
        (ex.execute mac w c fn useRateLimit) ↔
      ex.Safe mac w c c.capability (w.WriteSafe c ∧
        ex.FnSafe w c (if useRateLimit then w.acquire.raises else none) fn
          (ex.Opened w c → fn = none ∧ ¬ w.Tripped c)) := by
  apply gate_enter_iff
  intro tok
  apply fn_path_iff Gate.returning gate_blocked_iff fun e => gate_blocked_iff
  rw [gate_fn_iff (.of_runFn fn), and_iff_left rfl]

theorem gate_aexecute_iff (fn : Option (Except Exn α)) (timeout : Option (PyFloat F))
    (useRateLimit : Bool) :
    Gate (ex.Granted mac w c (orDefault c.capability ex.defaultCapability))
        (ex.aexecute mac w c fn timeout useRateLimit) ↔
      ex.Safe mac w c c.capability (w.WriteSafe c ∧
        ex.FnSafe w c (if useRateLimit then w.acquire.raisesAwaited else none) fn
          (ex.Opened w c → fn = none)) := by
  apply gate_enter_iff
  intro tok
  apply fn_path_iff Gate.returning gate_blocked_iff fun e => gate_blocked_iff
  have ht : ¬ (w.Tripped c ∧ (Status.error == .ok) = true) := fun h => nomatch h.2
  rw [gate_fn_iff (.of_awaitFn _ fn), and_iff_left ht]

theorem gate_subprocess_iff (U : Url.UrlText) (command : List Char) (process : ProcessEnd) :
    Gate (ex.Granted mac w c
          (orDefault (some (c.capability.getD "executor.subprocess")) ex.defaultCapability))
        (ex.executeSubprocess mac U w c command process) ↔
      ex.Safe mac w c (some (c.capability.getD "executor.subprocess"))
        (∃ rejected, ex.rejects c = .ok rejected ∧ (rejected = false →
          w.WriteSafe c ∧ w.CommandSafe U c command process (ex.Opened w c →
            checkCommand U.toCasing command = none → process.started = false))) := by
  apply gate_enter_iff
  intro tok
  rw [passBreaker_iff Gate.returning]
  apply exists_congr
  intro rejected
  apply and_congr_right
  intro _
  rw [and_iff_right fun _ => gate_refused (.inr (.inl rfl))]
  apply imp_congr_right
  intro _
  exact command_path_iff Gate.returning (fun f => gate_blocked_iff) gate_command_iff

/-- The three paths are gated exactly when no collaborator raises what they do not catch and, with a
`CircuitBreaker` that is open, there is nothing to start. -/
theorem gate_iff :
    (∀ (fn : Option (Except Exn α)) (useRateLimit : Bool),
      Gate (ex.Granted mac w c (orDefault c.capability ex.defaultCapability))
          (ex.execute mac w c fn useRateLimit) ↔
        ex.Safe mac w c c.capability (w.WriteSafe c ∧
          ex.FnSafe w c (if useRateLimit then w.acquire.raises else none) fn
            (ex.Opened w c → fn = none ∧ ¬ w.Tripped c))) ∧
    (∀ (fn : Option (Except Exn α)) (timeout : Option (PyFloat F)) (useRateLimit : Bool),
      Gate (ex.Granted mac w c (orDefault c.capability ex.defaultCapability))
          (ex.aexecute mac w c fn timeout useRateLimit) ↔
        ex.Safe mac w c c.capability (w.WriteSafe c ∧
          ex.FnSafe w c (if useRateLimit then w.acquire.raisesAwaited else none) fn
            (ex.Opened w c → fn = none))) ∧
    ∀ (U : Url.UrlText) (command : List Char) (process : ProcessEnd),
      Gate (ex.Granted mac w c
            (orDefault (some (c.capability.getD "executor.subprocess")) ex.defaultCapability))
          (ex.executeSubprocess mac U w c command process) ↔
        ex.Safe mac w c (some (c.capability.getD "executor.subprocess"))
          (∃ rejected, ex.rejects c = .ok rejected ∧ (rejected = false →
            w.WriteSafe c ∧ w.CommandSafe U c command process (ex.Opened w c →
              checkCommand U.toCasing command = none → process.started = false))) :=
  ⟨gate_execute_iff mac ex w c, gate_aexecute_iff mac ex w c, gate_subprocess_iff mac ex w c⟩

end

/-- HMAC-SHA256 under dev-secret, of the payload of one token. -/
def executorMac (_ message : List UInt8) : List UInt8 :=
  knownDigest [
  ("eyJzdWIiOiJ0IiwiY2FwcyI6WyJleGVjdXRvci5leGVjdXRlIl0sImVudiI6bnVsbCwiaXNzIjoib2Jhc2Ui" ++
      "LCJpYXQiOjE3MDAwMDAwMDAuMCwiZXhwIjoxNzAwMDAzNjAwLjAsIm5vbmNlIjoibjEifQ",
    "d1727a4896a0035e1756cc1ef7e88e194b75229a6b2b49968b32ade9afa77b6b")] message

def devExecutor (breaker : Option BreakerRef) : HardenedExecutor where
  secret := "dev-secret"
  secret_ne := by decide
  breaker := breaker

/-- A world without a rate limiter, in which the bait is found in a state. -/
def quietWorld (bait : FileState) : World WholeFloat where
  now := ⟨1700000000⟩
  clock := 10
  acquire := .absent
  baitPath := "/tmp/0a1b2c3d4e5f_.env.probe"
  plant := none
  files _ := bait
  write := none

def executeToken : Except TokenError (List Char) :=
  issueCapabilityToken executorMac "dev-secret" "t" ["executor.execute"] none
    (.finite (⟨3600⟩ : WholeFloat)) "obase" (some "n1") ⟨1700000000⟩ ""

theorem executeToken_verified : ∃ token tok, executeToken = .ok token ∧
    verifyCapabilityToken executorMac "dev-secret" token none (⟨1700000000⟩ : WholeFloat) =
      .ok tok ∧ hasCapability "executor.execute" tok.capabilities = .ok true := by
  have hs : "dev-secret" ≠ "" := by decide
  have hsub : "t" ≠ "" := by decide
  obtain ⟨token, hi, hv⟩ := verify_issued_eq executorMac none (.finite (⟨3600⟩ : WholeFloat)) "obase"
    (some "n1") ⟨1700000000⟩ "" hs hsub (List.cons_ne_nil "executor.execute" [])
  exact ⟨token, _, hi, hv ⟨1700000000⟩ fun _ => by decide +kernel, by decide +kernel⟩

theorem validate_defaultEnvelope :
    validateEnvelope (defaultEnvelope : ResourceEnvelope WholeFloat) = .ok () := by
  have hn : ((defaultEnvelope : ResourceEnvelope WholeFloat).cpuSeconds.lt (.finite Runtime.zero) ||
      (defaultEnvelope : ResourceEnvelope WholeFloat).wallclockS.lt (.finite Runtime.zero) ||
      (defaultEnvelope : ResourceEnvelope WholeFloat).memoryMb.lt (.finite Runtime.zero)) = false := by
    decide +kernel
  rw [validateEnvelope, hn]
  rfl

/-- A breaker that has been open for ten of its thirty seconds. -/
def openBreaker : CircuitBreaker.Breaker := ⟨1, 30, 1, .opened, some 0⟩

/-- `fn` runs although the circuit breaker is open, which has no attribute `is_open`. -/
theorem open_breaker_ignored : ∃ token, executeToken = .ok token ∧
    ¬ Gate
      ((devExecutor (some (.circuitBreaker openBreaker))).Granted executorMac
        (quietWorld (.content baitContent)) { token := token } "executor.execute")
      ((devExecutor (some (.circuitBreaker openBreaker))).execute executorMac
        (quietWorld (.content baitContent)) { token := token } (some (.ok 2)) true) := by
  obtain ⟨token, tok, hi, hv, hc⟩ := executeToken_verified
  refine ⟨token, hi, fun hg => ?_⟩
  have ho : (devExecutor (some (.circuitBreaker openBreaker))).Opened
      (quietWorld (.content baitContent)) { token := token } :=
    ⟨rfl, openBreaker, rfl, by decide +kernel⟩
  obtain ⟨-, hrest⟩ := (gate_execute_iff ..).1 hg validate_defaultEnvelope
  obtain ⟨-, rejected, he, hr⟩ := hrest ⟨tok, hv, hc⟩
  cases he
  obtain ⟨-, -, hrun⟩ := (hr rfl).2 rfl
  cases (hrun ho).1

/-- A token with a full stop and a letter outside ASCII makes `execute` raise. -/
theorem accented_token_escapes :
    ¬ Gate
      ((devExecutor none).Granted executorMac (quietWorld (.content baitContent))
        { token := ['é', '.', 'x'] } "executor.execute")
      ((devExecutor none).execute executorMac (quietWorld (.content baitContent))
        { token := ['é', '.', 'x'] } (some (.ok 2)) true) := by
  intro hg
  obtain ⟨hsafe, -⟩ := (gate_execute_iff ..).1 hg validate_defaultEnvelope
  cases hsafe.ascii (by decide)

end Obase.Executor
