import Obase.Executor.Gate

namespace Obase.Executor
set_option autoImplicit true
open PermissionContract

/-- The call returns and appends one entry, whose outcome is the status that it returns; with a
honeypot, that is honeypot_trip exactly when a bait of the call is removed or modified. -/
def Agrees (w : World F) (c : Call F) (r : Report F α) : Prop :=
  ∃ res entry, r.result = .ok res ∧ r.entries = [entry] ∧ entry.outcome = res.status ∧
    (c.useHoneypot = true → (res.status = .honeypotTrip ↔ Touched w.files r.baits))

section
variable {w : World F} {c : Call F}

theorem Agrees.returning : Returning (Agrees (α := α) w c) :=
  fun _ ⟨res, _, h, _⟩ => ⟨res, h⟩

theorem not_agrees_returned {res : ExecutionResult F α} : ¬ Agrees w c (.returned res) :=
  fun ⟨_, _, _, h, _⟩ => nomatch h

section
variable (ha : c.audit = true) (hw : w.write = none)
include ha hw

theorem agrees_blocked {tok : CapabilityToken F} {f : Failure F} {action capability : String} :
    Agrees w c (w.blocked (α := α) c action tok capability f) := by
  refine ⟨_, _, (audited_result_iff ..).2 ⟨World.writeSafe_of_none hw c, rfl⟩,
    audited_entries _ _ _ _ ha, rfl, fun _ => ?_⟩
  rw [World.blocked, audited_baits]
  apply iff_of_false
  · intro hs
    cases hs
  · rintro ⟨bait, hm, -⟩
    cases hm

theorem agrees_supervise_iff {mayTrip : Status → Bool} {entry : ExecutionResult F α → Entry F}
    {run : Bool × Except Exn (ExecutionResult F α)}
    (he : ∀ res, (entry res).outcome = res.status)
    (hs : ∀ res, run.2 = .ok res → res.status ≠ .honeypotTrip) :
    Agrees w c (w.supervise c mayTrip entry run) ↔
      w.BaitSafe c ∧ ∃ res, run.2 = .ok res ∧ (w.Tripped c → mayTrip res.status = true) := by
  rw [supervise_iff Agrees.returning]
  apply and_congr_right
  intro hb
  obtain ⟨trips, ht, htrip⟩ := trips_of_baitSafe hb
  constructor
  · rintro ⟨res, trips', hr, ht', res', e, hres, -, -, hhon⟩
    rw [ht] at ht'
    cases ht'
    obtain ⟨-, hres⟩ := (audited_result_iff ..).1 hres
    cases hres
    refine ⟨res, hr, fun htp => ?_⟩
    rw [audited_baits, touched_baits_iff hb] at hhon
    have hstatus := (hhon htp.1).2 htp
    rw [tripped_status] at hstatus
    split at hstatus
    · rename_i h
      exact h.2
    · exact (hs res hr hstatus).elim
  · rintro ⟨res, hr, hm⟩
    refine ⟨res, trips, hr, ht, _, _, (audited_result_iff ..).2 ⟨World.writeSafe_of_none hw c, rfl⟩,
      audited_entries _ _ _ _ ha, he _, fun _ => ?_⟩
    rw [audited_baits, touched_baits_iff hb, tripped_status]
    split
    · rename_i h
      exact iff_of_true rfl (htrip.1 h.1)
    · rename_i h
      exact iff_of_false (hs res hr) fun htp => h ⟨htrip.2 htp, hm htp⟩

theorem agrees_fn_iff {fn : Option (Except Exn α)} {mayTrip : Status → Bool} {Y : Prop}
    {entry : ExecutionResult F α → Entry F} {run : Bool × Except Exn (ExecutionResult F α)}
    (hf : RunsFn fn run) (he : ∀ res, (entry res).outcome = res.status)
    (hm : ∀ res, run.2 = .ok res → (mayTrip res.status = true ↔ Y)) :
    Agrees w c (w.supervise c mayTrip entry run) ↔
      True ∧ w.BaitSafe c ∧ fn ≠ some (.error .exit) ∧ (w.Tripped c → Y) := by
  rw [agrees_supervise_iff ha hw he fun res hr => (hf.status res hr).1, ← hf.ends, true_and]
  apply and_congr_right
  intro _
  constructor
  · rintro ⟨res, hr, ht⟩
    exact ⟨⟨res, hr⟩, fun htp => (hm res hr).1 (ht htp)⟩
  · rintro ⟨⟨res, hr⟩, ht⟩
    exact ⟨res, hr, fun htp => (hm res hr).2 (ht htp)⟩

theorem agrees_command_iff {U : Url.UrlText} {command : List Char} {timeout : PyFloat F}
    {process : ProcessEnd} {entry : ExecutionResult F (SandboxResult F) → Entry F}
    (he : ∀ res, (entry res).outcome = res.status) :
    Agrees w c (w.supervise c (· == .ok) entry
        ((sandboxRun U command timeout process).1,
          (sandboxRun U command timeout process).2.map commandResult)) ↔
      True ∧ w.BaitSafe c ∧ RunEnds U command process ∧
        (w.Tripped c → checkCommand U.toCasing command = none ∧
          ∃ stdout stderr, process = .exited 0 stdout stderr) := by
  have hs : ∀ res, (sandboxRun U command timeout process).2.map commandResult = .ok res →
      res.status ≠ .honeypotTrip := by
    intro res hm
    obtain ⟨r, hr, rfl⟩ := map_ok hm
    exact (sandboxRun_status hr).1
  rw [agrees_supervise_iff ha hw he hs, ← sandboxRun_ok_iff, true_and]
  apply and_congr_right
  intro _
  constructor
  · rintro ⟨res, hm, ht⟩
    obtain ⟨r, hr, rfl⟩ := map_ok hm
    refine ⟨⟨r, hr⟩, fun htp => (sandboxRun_status hr).2.1.1 (eq_of_beq (ht htp))⟩
  · rintro ⟨⟨r, hr⟩, ht⟩
    refine ⟨commandResult r, by rw [hr]; rfl, fun htp => ?_⟩
    exact beq_of_eq ((sandboxRun_status hr).2.1.2 (ht htp))

end

end

section
variable [Runtime F] {mac : List UInt8 → List UInt8 → List UInt8} {ex : HardenedExecutor}
  {w : World F} {c : Call F} {tok : CapabilityToken F}
  (hv : verifyCapabilityToken mac ex.secret c.token none w.now = .ok tok)
include hv

theorem agrees_enter_iff {required : Option String} {body : CapabilityToken F → Report F α}
    {X : Prop} (hb : ∀ tok, Agrees w c (body tok) ↔ X) :
    Agrees w c (guarded (ex.enter mac w c required) body) ↔
      validateEnvelope c.env = .ok () ∧
      hasCapability (orDefault required ex.defaultCapability) tok.capabilities = .ok true ∧ X := by
  rw [enter_iff Agrees.returning]
  constructor
  · rintro ⟨hinvalid, hvalid⟩
    cases henv : validateEnvelope c.env with
    | error e => exact (not_agrees_returned (hinvalid e henv)).elim
    | ok u =>
      obtain ⟨hdenied, hsafe, hbody⟩ := hvalid henv
      cases hver : ex.verify mac c.token required w.now with
      | error v =>
        cases v with
        | denied f => exact (not_agrees_returned (hdenied f hver)).elim
        | raised e => exact (verify_safe_iff.2 hsafe e hver).elim
      | ok tok' =>
        obtain ⟨hv', hc⟩ := verify_ok_iff.1 hver
        rw [hv] at hv'
        cases hv'
        exact ⟨rfl, hc, (hb tok).1 (hbody tok hver)⟩
  · rintro ⟨henv, hc, hx⟩
    have hver : ex.verify mac c.token required w.now = .ok tok := verify_ok_iff.2 ⟨hv, hc⟩
    rw [henv, hver]
    refine ⟨nofun, fun _ => ⟨nofun, verify_safe_iff.1 fun e he => ?_, fun tok' _ => (hb tok').2 hx⟩⟩
    rw [hver] at he
    cases he

variable (ha : c.audit = true) (hw : w.write = none)
include ha hw

theorem agrees_execute_iff (fn : Option (Except Exn α)) (useRateLimit : Bool) :
    Agrees w c (ex.execute mac w c fn useRateLimit) ↔
      validateEnvelope c.env = .ok () ∧
      hasCapability (orDefault c.capability ex.defaultCapability) tok.capabilities = .ok true ∧
      ex.FnSafe w c (if useRateLimit then w.acquire.raises else none) fn True := by
  apply agrees_enter_iff hv
  intro tok
  rw [← true_and (ex.FnSafe ..)]
  apply fn_path_iff Agrees.returning (iff_true_intro (agrees_blocked ha hw))
    fun e => iff_true_intro (agrees_blocked ha hw)
  rw [agrees_fn_iff ha hw (.of_runFn fn) (fun _ => rfl) fun _ _ => iff_true_intro rfl, imp_true_iff]

theorem agrees_aexecute_iff (fn : Option (Except Exn α)) (timeout : Option (PyFloat F))
    (useRateLimit : Bool) :
    Agrees w c (ex.aexecute mac w c fn timeout useRateLimit) ↔
      validateEnvelope c.env = .ok () ∧
      hasCapability (orDefault c.capability ex.defaultCapability) tok.capabilities = .ok true ∧
      ex.FnSafe w c (if useRateLimit then w.acquire.raisesAwaited else none) fn
        (w.Tripped c → ∃ a, fn = some (.ok a)) := by
  apply agrees_enter_iff hv
  intro tok
  rw [← true_and (ex.FnSafe ..)]
  apply fn_path_iff Agrees.returning (iff_true_intro (agrees_blocked ha hw))
    fun e => iff_true_intro (agrees_blocked ha hw)
  have hf : RunsFn fn (awaitFn (timeout.getD c.env.wallclockS) fn) := .of_awaitFn _ fn
  exact agrees_fn_iff ha hw hf (fun _ => rfl) fun res hr => beq_iff_eq.trans (hf.status res hr).2

theorem agrees_subprocess_iff (U : Url.UrlText) (command : List Char) (process : ProcessEnd) :
    Agrees w c (ex.executeSubprocess mac U w c command process) ↔
      validateEnvelope c.env = .ok () ∧
      hasCapability (orDefault (some (c.capability.getD "executor.subprocess"))
        ex.defaultCapability) tok.capabilities = .ok true ∧
      ex.rejects c = .ok false ∧ w.CommandSafe U c command process (w.Tripped c →
        checkCommand U.toCasing command = none ∧
          ∃ stdout stderr, process = .exited 0 stdout stderr) := by
  apply agrees_enter_iff hv
  intro tok
  rw [passBreaker_of_not Agrees.returning not_agrees_returned, ← true_and (w.CommandSafe ..)]
  apply and_congr_right
  intro _
  exact command_path_iff Agrees.returning (fun f => iff_true_intro (agrees_blocked ha hw))
    (agrees_command_iff ha hw fun _ => rfl)

/-- With a verified token, a call agrees exactly when the envelope is valid, the capability is granted,
no collaborator raises what its path does not catch, and the path does not go wrong on its own:
`execute_subprocess` where the breaker rejects, and it and `aexecute` where a bait is touched by a
run that does not end well. -/
theorem paths_agree_iff :
    (∀ (fn : Option (Except Exn α)) (useRateLimit : Bool),
      Agrees w c (ex.execute mac w c fn useRateLimit) ↔
        validateEnvelope c.env = .ok () ∧
        hasCapability (orDefault c.capability ex.defaultCapability) tok.capabilities = .ok true ∧
        ex.FnSafe w c (if useRateLimit then w.acquire.raises else none) fn True) ∧
    (∀ (fn : Option (Except Exn α)) (timeout : Option (PyFloat F)) (useRateLimit : Bool),
      Agrees w c (ex.aexecute mac w c fn timeout useRateLimit) ↔
        validateEnvelope c.env = .ok () ∧
        hasCapability (orDefault c.capability ex.defaultCapability) tok.capabilities = .ok true ∧
        ex.FnSafe w c (if useRateLimit then w.acquire.raisesAwaited else none) fn
          (w.Tripped c → ∃ a, fn = some (.ok a))) ∧
    ∀ (U : Url.UrlText) (command : List Char) (process : ProcessEnd),
      Agrees w c (ex.executeSubprocess mac U w c command process) ↔
        validateEnvelope c.env = .ok () ∧
        hasCapability (orDefault (some (c.capability.getD "executor.subprocess"))
          ex.defaultCapability) tok.capabilities = .ok true ∧
        ex.rejects c = .ok false ∧ w.CommandSafe U c command process (w.Tripped c →
          checkCommand U.toCasing command = none ∧
            ∃ stdout stderr, process = .exited 0 stdout stderr) :=
  ⟨agrees_execute_iff hv ha hw, agrees_aexecute_iff hv ha hw, agrees_subprocess_iff hv ha hw⟩

end

/-- `fn` removes the bait and raises a `ValueError`: `execute` reports and records the bait. -/
theorem paths_agree_removed : ∃ token, executeToken = .ok token ∧
    Agrees (quietWorld .absent) { token := token }
      ((devExecutor none).execute executorMac (quietWorld .absent) { token := token }
        (some (.error (.builtin .valueError)) : Option (Except Exn Nat)) true) := by
  obtain ⟨token, tok, hi, hv, hc⟩ := executeToken_verified
  have hsafe : (quietWorld .absent).BaitSafe { token := token } := fun _ => ⟨rfl, nofun⟩
  refine ⟨token, hi, (paths_agree_iff hv rfl rfl).1 _ _ |>.2 ⟨validate_defaultEnvelope, hc, ?_⟩⟩
  exact ⟨false, rfl, fun _ => ⟨nofun, fun _ => ⟨hsafe, nofun, trivial⟩⟩⟩

/-- `fn` removes the bait and raises a `ValueError`: `aexecute` reports the error alone. -/
theorem removed_bait_unreported : ∃ token, executeToken = .ok token ∧
    ¬ Agrees (quietWorld .absent) { token := token }
      ((devExecutor none).aexecute executorMac (quietWorld .absent) { token := token }
        (some (.error (.builtin .valueError)) : Option (Except Exn Nat)) none true) := by
  obtain ⟨token, tok, hi, hv, hc⟩ := executeToken_verified
  refine ⟨token, hi, fun h => ?_⟩
  obtain ⟨-, -, rejected, he, hr⟩ := (agrees_aexecute_iff hv rfl rfl ..).1 h
  cases he
  obtain ⟨-, -, ht⟩ := (hr rfl).2 rfl
  obtain ⟨a, ha⟩ := ht ⟨rfl, nofun⟩
  cases ha

/-- A breaker with an `is_open` that is true makes `execute_subprocess` return without an entry. -/
theorem open_breaker_unaudited : ∃ token, executeToken = .ok token ∧
    ¬ Agrees (quietWorld (.content baitContent))
      { token := token, capability := some "executor.execute" }
      ((devExecutor (some (.other (.value true)))).executeSubprocess executorMac .ascii
        (quietWorld (.content baitContent))
        { token := token, capability := some "executor.execute" } "true".toList
        (.exited 0 [] [])) := by
  obtain ⟨token, tok, hi, hv, hc⟩ := executeToken_verified
  refine ⟨token, hi, fun h => ?_⟩
  obtain ⟨-, -, he, -⟩ := (agrees_subprocess_iff hv rfl rfl ..).1 h
  cases he

end Obase.Executor
