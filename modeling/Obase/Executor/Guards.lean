import Obase.Executor.HardenedExecutor
import Obase.PermissionContract.Raises

namespace Obase.Executor
set_option autoImplicit true
open PermissionContract

/-- A property of calls that do not raise. -/
def Returning (P : Report F α → Prop) : Prop := ∀ r, P r → ∃ res, r.result = .ok res

theorem Returning.not_of_error {P : Report F α → Prop} (h : Returning P) {r : Report F α}
    {e : Exn} (he : r.result = .error e) : ¬ P r := by
  intro hp
  obtain ⟨res, hr⟩ := h r hp
  rw [he] at hr
  cases hr

/-- The bait can be planted, and it can be read when it is checked. -/
def World.BaitSafe (w : World F) (c : Call F) : Prop :=
  c.useHoneypot = true → w.plant = none ∧ ∀ e, w.files w.baitPath ≠ .unreadable e

/-- The bait of the call is removed or modified. -/
def World.Tripped (w : World F) (c : Call F) : Prop :=
  c.useHoneypot = true ∧ w.files w.baitPath ≠ .content baitContent

/-- The write of an entry raises nothing but an `OSError`. -/
def World.WriteSafe (w : World F) (c : Call F) : Prop :=
  c.audit = true → ∀ e, w.write = some e → e.isOSError = true

theorem World.writeSafe_of_none {w : World F} (h : w.write = none) (c : Call F) :
    w.WriteSafe c := by
  intro _ e he
  rw [h] at he
  cases he

def World.baits (w : World F) (c : Call F) : List (String × List UInt8) :=
  if c.useHoneypot then [(w.baitPath, baitContent)] else []

/-- One of the baits is removed or modified. -/
def Touched (files : String → FileState) (baits : List (String × List UInt8)) : Prop :=
  ∃ bait ∈ baits,
    files bait.1 = .absent ∨ ∃ bytes, files bait.1 = .content bytes ∧ bytes ≠ bait.2

theorem checkTouched_ok_iff {files : String → FileState} {baits : List (String × List UInt8)} :
    (∃ trips, checkTouched files baits = .ok trips) ↔
      ∀ bait ∈ baits, ∀ e, files bait.1 ≠ .unreadable e := by
  induction baits with
  | nil => exact iff_of_true ⟨[], rfl⟩ nofun
  | cons bait baits ih =>
    obtain ⟨path, original⟩ := bait
    rw [List.forall_mem_cons, ← ih, checkTouched]
    cases files path with
    | absent =>
      cases checkTouched files baits with
      | error e => exact iff_of_false nofun (fun h => nomatch h.2)
      | ok trips => exact iff_of_true ⟨_, rfl⟩ ⟨nofun, trips, rfl⟩
    | content bytes =>
      dsimp only
      split
      · cases checkTouched files baits with
        | error e => exact iff_of_false nofun (fun h => nomatch h.2)
        | ok trips => exact iff_of_true ⟨_, rfl⟩ ⟨nofun, trips, rfl⟩
      · exact (and_iff_right nofun).symm
    | unreadable e => exact iff_of_false nofun (fun h => h.1 e rfl)

theorem checkTouched_ne_nil {files : String → FileState} {baits : List (String × List UInt8)}
    {trips : List Trip} (h : checkTouched files baits = .ok trips) :
    trips ≠ [] ↔ Touched files baits := by
  induction baits generalizing trips with
  | nil =>
    cases h
    exact iff_of_false (fun hn => hn rfl) nofun
  | cons bait baits ih =>
    obtain ⟨path, original⟩ := bait
    rw [Touched, List.exists_mem_cons_iff]
    rw [checkTouched] at h
    cases hf : files path with
    | absent =>
      rw [hf] at h
      obtain ⟨ts, -, rfl⟩ := map_ok h
      exact iff_of_true (List.cons_ne_nil _ _) (.inl (.inl rfl))
    | content bytes =>
      rw [hf] at h
      dsimp only at h
      split at h
      · rename_i hb
        obtain ⟨ts, -, rfl⟩ := map_ok h
        exact iff_of_true (List.cons_ne_nil _ _) (.inl (.inr ⟨bytes, rfl, hb⟩))
      · rename_i hb
        rw [ih h, or_iff_right]
        · rfl
        · rintro (ha | ⟨bytes', hc, hne⟩)
          · cases ha
          · cases hc
            exact hb hne
    | unreadable e =>
      rw [hf] at h
      cases h

theorem touched_baits_iff {w : World F} {c : Call F} (h : w.BaitSafe c) :
    Touched w.files (w.baits c) ↔ w.Tripped c := by
  rw [Touched, World.baits, World.Tripped]
  cases hc : c.useHoneypot with
  | false => exact iff_of_false nofun nofun
  | true =>
    rw [if_pos rfl, and_iff_right rfl, List.exists_mem_cons_iff, or_iff_left nofun]
    cases hf : w.files w.baitPath with
    | absent => exact iff_of_true (.inl rfl) nofun
    | content bytes =>
      rw [ne_eq, FileState.content.injEq, or_iff_right nofun]
      constructor
      · rintro ⟨bytes', hb, hne⟩ rfl
        cases hb
        exact hne rfl
      · exact fun hne => ⟨bytes, rfl, hne⟩
    | unreadable e => exact ((h hc).2 e hf).elim

theorem plantBaits_eq_ok {w : World F} {c : Call F} {baits : List (String × List UInt8)}
    (h : w.plantBaits c.useHoneypot = .ok baits) : baits = w.baits c := by
  rw [World.plantBaits] at h
  rw [World.baits]
  split at h
  · rename_i hc
    rw [if_pos hc]
    split at h
    · cases h
    · cases h
      rfl
  · rename_i hc
    rw [if_neg hc]
    cases h
    rfl

theorem baitSafe_iff {w : World F} {c : Call F} :
    w.BaitSafe c ↔ w.plantBaits c.useHoneypot = .ok (w.baits c) ∧
      ∃ trips, checkTouched w.files (w.baits c) = .ok trips := by
  rw [checkTouched_ok_iff, World.BaitSafe, World.plantBaits, World.baits]
  cases c.useHoneypot with
  | false =>
    apply iff_of_true
    · intro h
      cases h
    · refine ⟨rfl, fun bait hm => ?_⟩
      cases hm
  | true =>
    rw [if_pos rfl, if_pos rfl, forall_prop_of_true rfl, List.forall_mem_singleton]
    apply and_congr_left
    intro _
    cases w.plant with
    | none => exact iff_of_true rfl rfl
    | some e =>
      apply iff_of_false
      · intro h
        cases h
      · intro h
        cases h

/-- What the check of the bait finds. -/
theorem trips_of_baitSafe {w : World F} {c : Call F} (h : w.BaitSafe c) :
    ∃ trips, checkTouched w.files (w.baits c) = .ok trips ∧ (trips ≠ [] ↔ w.Tripped c) := by
  obtain ⟨-, trips, ht⟩ := baitSafe_iff.1 h
  exact ⟨trips, ht, (checkTouched_ne_nil ht).trans (touched_baits_iff h)⟩

section
variable {P : Report F α → Prop} (hP : Returning P) {w : World F} {c : Call F}
include hP

theorem supervise_iff {mayTrip : Status → Bool} {entry : ExecutionResult F α → Entry F}
    {run : Bool × Except Exn (ExecutionResult F α)} :
    P (w.supervise c mayTrip entry run) ↔ w.BaitSafe c ∧ ∃ res trips, run.2 = .ok res ∧
      checkTouched w.files (w.baits c) = .ok trips ∧
      P (w.audited c.audit (entry (res.tripped mayTrip trips))
        ⟨run.1, w.baits c, [], .ok (res.tripped mayTrip trips)⟩) := by
  rw [World.supervise]
  cases hp : w.plantBaits c.useHoneypot with
  | error e =>
    apply iff_of_false (hP.not_of_error rfl)
    rintro ⟨hb, -⟩
    rw [baitSafe_iff, hp] at hb
    cases hb.1
  | ok baits =>
    obtain rfl := plantBaits_eq_ok hp
    cases hr : run.2 with
    | error e =>
      apply iff_of_false (hP.not_of_error rfl)
      rintro ⟨-, res, trips, he, -⟩
      cases he
    | ok res =>
      dsimp only
      cases ht : checkTouched w.files (w.baits c) with
      | error e =>
        apply iff_of_false (hP.not_of_error rfl)
        rintro ⟨-, res', trips, -, he, -⟩
        cases he
      | ok trips =>
        constructor
        · intro h
          exact ⟨baitSafe_iff.2 ⟨hp, trips, ht⟩, res, trips, rfl, rfl, h⟩
        · rintro ⟨-, res', trips', hr', ht', h⟩
          cases hr'
          cases ht'
          exact h

theorem passBreaker_iff {ex : HardenedExecutor} {refusal : Report F α} {body : Unit → Report F α} :
    P (guarded (ex.passBreaker c refusal) body) ↔ ∃ rejected, ex.rejects c = .ok rejected ∧
      (rejected = true → P refusal) ∧ (rejected = false → P (body ())) := by
  rw [HardenedExecutor.passBreaker]
  cases ex.rejects c with
  | error e =>
    apply iff_of_false (hP.not_of_error rfl)
    rintro ⟨rejected, he, -⟩
    cases he
  | ok rejected =>
    cases rejected with
    | true =>
      constructor
      · intro h
        refine ⟨true, rfl, fun _ => h, fun hf => ?_⟩
        cases hf
      · rintro ⟨rejected, he, h, -⟩
        cases he
        exact h rfl
    | false =>
      constructor
      · intro h
        refine ⟨false, rfl, fun ht => ?_, fun _ => h⟩
        cases ht
      · rintro ⟨rejected, he, -, h⟩
        cases he
        exact h rfl

theorem passBreaker_of_not {ex : HardenedExecutor} {refusal : Report F α}
    {body : Unit → Report F α} (hr : ¬ P refusal) :
    P (guarded (ex.passBreaker c refusal) body) ↔ ex.rejects c = .ok false ∧ P (body ()) := by
  rw [passBreaker_iff hP]
  constructor
  · rintro ⟨rejected, he, hyes, hno⟩
    cases rejected with
    | true => exact (hr (hyes rfl)).elim
    | false => exact ⟨he, hno rfl⟩
  · rintro ⟨he, h⟩
    refine ⟨false, he, fun ht => ?_, fun _ => h⟩
    cases ht

theorem passRate_iff {raised : Option Exn} {refusal : Exn → Report F α} {body : Unit → Report F α} :
    P (guarded (passRate raised refusal) body) ↔ raised ≠ some .exit ∧
      (∀ e, raised = some e → P (refusal e)) ∧ (raised = none → P (body ())) := by
  cases raised with
  | none => exact ⟨fun h => ⟨nofun, nofun, fun _ => h⟩, fun h => h.2.2 rfl⟩
  | some e =>
    have hp (hne : e ≠ .exit) : guarded (passRate (some e) refusal) body = refusal e := by
      cases e with
      | exit => exact (hne rfl).elim
      | timeout | fileNotFound | osError | builtin | other => rfl
    by_cases he : e = .exit
    · subst he
      exact iff_of_false (hP.not_of_error rfl) (fun h => h.1 rfl)
    · rw [hp he]
      constructor
      · intro h
        refine ⟨fun hs => he (Option.some.inj hs), fun e' hs => ?_, nofun⟩
        cases hs
        exact h
      · exact fun h => h.2.1 e rfl

theorem passNetwork_iff {U : Url.UrlText} {policy : NetworkPolicy} {command : List Char}
    {refusal : Failure F → Report F α} {body : Unit → Report F α} :
    P (guarded (passNetwork U policy command refusal) body) ↔
      ∃ refused, checkNetwork U policy command = .ok refused ∧
        (∀ f, refused = some f → P (refusal f)) ∧ (refused = none → P (body ())) := by
  rw [passNetwork]
  cases checkNetwork U policy command with
  | error e =>
    apply iff_of_false (hP.not_of_error rfl)
    rintro ⟨refused, he, -⟩
    cases he
  | ok refused =>
    cases refused with
    | none =>
      constructor
      · exact fun h => ⟨none, rfl, nofun, fun _ => h⟩
      · rintro ⟨refused, he, -, h⟩
        cases he
        exact h rfl
    | some f =>
      constructor
      · intro h
        refine ⟨some f, rfl, fun f' hs => ?_, nofun⟩
        cases hs
        exact h
      · rintro ⟨refused, he, h, -⟩
        cases he
        exact h f rfl

end

/-- The status of a result after the check of the baits. -/
theorem tripped_status (res : ExecutionResult F α) (mayTrip : Status → Bool) (trips : List Trip) :
    (res.tripped mayTrip trips).status =
      if trips ≠ [] ∧ mayTrip res.status = true then .honeypotTrip else res.status := by
  rw [ExecutionResult.tripped]
  cases trips with
  | nil => rfl
  | cons t ts =>
    cases mayTrip res.status with
    | true | false => rfl

section
variable (w : World F) (c : Call F) (entry : Entry F) (r : Report F α)

@[simp] theorem audited_started : (w.audited audit entry r).started = r.started := by
  cases audit with
  | true | false => rfl

@[simp] theorem audited_baits : (w.audited audit entry r).baits = r.baits := by
  cases audit with
  | true | false => rfl

theorem audited_entries (h : c.audit = true) :
    (w.audited c.audit entry r).entries = r.entries ++ [entry] := by
  rw [World.audited, if_pos h]

theorem audited_result_iff {res : ExecutionResult F α} :
    (w.audited c.audit entry r).result = .ok res ↔ w.WriteSafe c ∧ r.result = .ok res := by
  rw [World.audited, World.WriteSafe]
  cases c.audit with
  | false => exact (and_iff_right nofun).symm
  | true =>
    rw [if_pos rfl, forall_prop_of_true rfl]
    dsimp only
    cases w.write with
    | none => exact (and_iff_right nofun).symm
    | some e =>
      dsimp only
      split
      · rename_i he
        rw [and_iff_right]
        intro e' hs
        cases hs
        exact he
      · rename_i he
        exact iff_of_false nofun (fun h => he (h.1 e rfl))

end

theorem checkCapability_ok_iff {tok : CapabilityToken F} {name : String} :
    checkCapability tok name = .ok () ↔ hasCapability name tok.capabilities = .ok true := by
  rw [checkCapability]
  cases hasCapability name tok.capabilities with
  | error e => exact iff_of_false nofun nofun
  | ok granted =>
    cases granted with
    | true => exact iff_of_true rfl rfl
    | false => exact iff_of_false nofun nofun

theorem checkCapability_raises_iff {tok : CapabilityToken F} {name : String} :
    (∀ e, checkCapability tok name ≠ .error (.raised e)) ↔ ¬ StuckOn name tok.capabilities := by
  rw [checkCapability]
  cases h : hasCapability name tok.capabilities with
  | error e => exact iff_of_false (fun hn => hn e rfl) (fun hn => hn (stuckOn_of_hasCapability h))
  | ok granted =>
    have hn : ¬ StuckOn name tok.capabilities := by
      intro hs
      rw [hasCapability_of_stuckOn hs] at h
      cases h
    cases granted with
    | true => exact iff_of_true nofun hn
    | false => exact iff_of_true nofun hn

section
variable [Runtime F] (mac : List UInt8 → List UInt8 → List UInt8) (ex : HardenedExecutor)
  (token : List Char)

/-- The token is verified, and it grants the capability. -/
def HardenedExecutor.Authorised (required : String) (now : F) : Prop :=
  ∃ tok, verifyCapabilityToken mac ex.secret token none now = .ok tok ∧
    hasCapability required tok.capabilities = .ok true

/-- Nothing about the token makes `_verify` raise what its callers do not catch. -/
structure HardenedExecutor.TokenSafe (required : String) (now : F) : Prop where
  ascii : '.' ∈ token → isAscii token = true
  numbers : ¬ SignsOverflow F mac ex.secret token
  strings : ∀ tok, verifyCapabilityToken mac ex.secret token none now = .ok tok →
    ¬ StuckOn required tok.capabilities

variable {mac ex token} {required : Option String} {now : F}

theorem verify_nil : verifyCapabilityToken (F := F) mac ex.secret [] none now =
    .error (.capability "verify_capability_token: empty token") := by
  rw [verifyCapabilityToken, if_pos rfl]

theorem verify_ok_iff {tok : CapabilityToken F} : ex.verify mac token required now = .ok tok ↔
    verifyCapabilityToken mac ex.secret token none now = .ok tok ∧
      hasCapability (orDefault required ex.defaultCapability) tok.capabilities = .ok true := by
  rw [HardenedExecutor.verify]
  split
  · rename_i hn
    rw [hn, verify_nil]
    exact iff_of_false nofun (fun h => nomatch h.1)
  · cases verifyCapabilityToken mac ex.secret token none now with
    | error e =>
      cases e with
      | capability | expired | raised => exact iff_of_false nofun (fun h => nomatch h.1)
    | ok tok' =>
      dsimp only
      rw [← checkCapability_ok_iff]
      constructor
      · intro h
        obtain ⟨u, hu, rfl⟩ := map_ok h
        exact ⟨rfl, hu⟩
      · rintro ⟨he, hc⟩
        cases he
        rw [hc]
        rfl

theorem tokenSafe_iff {name : String} : ex.TokenSafe mac token name now ↔
    (∀ e, verifyCapabilityToken (F := F) mac ex.secret token none now ≠ .error (.raised e)) ∧
      ∀ tok, verifyCapabilityToken mac ex.secret token none now = .ok tok →
        ¬ StuckOn name tok.capabilities := by
  have hr : (∃ e, verifyCapabilityToken (F := F) mac ex.secret token none now =
      .error (.raised e)) ↔ _ := verify_raises_iff now
  rw [← not_exists, hr]
  constructor
  · intro h
    refine ⟨?_, h.strings⟩
    rintro (⟨hd, hf⟩ | hs)
    · rw [h.ascii hd] at hf
      cases hf
    · exact h.numbers hs
  · rintro ⟨hn, hs⟩
    refine ⟨fun hd => Bool.eq_true_of_not_eq_false fun hf => ?_, fun h => hn (.inr h), hs⟩
    exact hn (.inl ⟨hd, hf⟩)

theorem verify_safe_iff : (∀ e, ex.verify mac token required now ≠ .error (.raised e)) ↔
    ex.TokenSafe mac token (orDefault required ex.defaultCapability) now := by
  rw [tokenSafe_iff, HardenedExecutor.verify]
  split
  · rename_i hn
    rw [hn, verify_nil]
    exact iff_of_true nofun ⟨nofun, nofun⟩
  · cases verifyCapabilityToken mac ex.secret token none now with
    | error e =>
      cases e with
      | capability | expired => exact iff_of_true nofun ⟨nofun, nofun⟩
      | raised e => exact iff_of_false (fun h => h e rfl) (fun h => h.1 e rfl)
    | ok tok =>
      dsimp only
      constructor
      · intro h
        refine ⟨nofun, fun tok' he => ?_⟩
        cases he
        rw [← checkCapability_raises_iff]
        intro e he
        exact h e (by rw [he]; rfl)
      · rintro ⟨-, hs⟩ e he
        have hc := checkCapability_raises_iff.2 (hs tok rfl)
        cases hcc : checkCapability tok (orDefault required ex.defaultCapability) with
        | error e' =>
          rw [hcc] at he
          cases he
          exact hc e hcc
        | ok u =>
          rw [hcc] at he
          cases he

variable {P : Report F α → Prop} {w : World F} {c : Call F}
  {body : CapabilityToken F → Report F α}

theorem enter_iff (hP : Returning P) : P (guarded (ex.enter mac w c required) body) ↔
    (∀ e, validateEnvelope c.env = .error e →
      P (.returned (.failed .error (.invalidEnvelope e)))) ∧
    (validateEnvelope c.env = .ok () →
      (∀ f, ex.verify mac c.token required w.now = .error (.denied f) →
        P (.returned (.failed .denied f))) ∧
      ex.TokenSafe mac c.token (orDefault required ex.defaultCapability) w.now ∧
      ∀ tok, ex.verify mac c.token required w.now = .ok tok → P (body tok)) := by
  rw [HardenedExecutor.enter, ← verify_safe_iff]
  cases validateEnvelope c.env with
  | error e =>
    constructor
    · intro h
      refine ⟨fun e' he => ?_, nofun⟩
      cases he
      exact h
    · exact fun h => h.1 e rfl
  | ok u =>
    rw [and_iff_right nofun, forall_prop_of_true rfl]
    dsimp only
    cases ex.verify mac c.token required w.now with
    | error v =>
      cases v with
      | denied f =>
        constructor
        · intro h
          refine ⟨fun f' hf => ?_, nofun, nofun⟩
          cases hf
          exact h
        · exact fun h => h.1 f rfl
      | raised e => exact iff_of_false (hP.not_of_error rfl) (fun h => h.2.1 e rfl)
    | ok tok =>
      constructor
      · intro h
        refine ⟨nofun, nofun, fun tok' ht => ?_⟩
        cases ht
        exact h
      · exact fun h => h.2.2 tok rfl

end

/-- Nothing that `execute` and `aexecute` do not catch is raised by the breaker, and unless it rejects
by the rate limiter, and unless that refuses by the bait or by `fn`; there the rest holds as well. -/
def HardenedExecutor.FnSafe (ex : HardenedExecutor) (w : World F) (c : Call F)
    (limiter : Option Exn) (fn : Option (Except Exn α)) (rest : Prop) : Prop :=
  ∃ rejected, ex.rejects c = .ok rejected ∧ (rejected = false →
    limiter ≠ some .exit ∧
      (limiter = none → w.BaitSafe c ∧ fn ≠ some (.error .exit) ∧ rest))

/-- A command that is not blank and, unless the sandbox refuses it, one whose subprocess raises
nothing but an `OSError` that is no `FileNotFoundError`. -/
def RunEnds (U : Url.UrlText) (command : List Char) (process : ProcessEnd) : Prop :=
  Text.notBlank command = true ∧ (checkCommand U.toCasing command = none →
    ∀ started e, process = .raised started e → e.isOSError = true ∧ ∀ text, e ≠ .fileNotFound text)

/-- Nothing that `execute_subprocess` does not catch is raised by the check of the network, and unless
it refuses by the bait or the command; there the rest holds as well. -/
def World.CommandSafe (U : Url.UrlText) (w : World F) (c : Call F) [Json.FloatText F]
    (command : List Char) (process : ProcessEnd) (rest : Prop) : Prop :=
  ∃ refused, checkNetwork (F := F) U c.env.network command = .ok refused ∧
    (refused = none → w.BaitSafe c ∧ RunEnds U command process ∧ rest)

/-- What the two ways to run `fn` have in common. -/
structure RunsFn (fn : Option (Except Exn α)) (run : Bool × Except Exn (ExecutionResult F α)) :
    Prop where
  ends : (∃ res, run.2 = .ok res) ↔ fn ≠ some (.error .exit)
  started : run.1 = fn.isSome
  missing : fn = none → ∃ f, run.2 = .ok (.failed .error f)
  status : ∀ res, run.2 = .ok res →
    res.status ≠ .honeypotTrip ∧ (res.status = .ok ↔ ∃ a, fn = some (.ok a))

theorem RunsFn.failed {e : Exn} {status : Status} {f : Failure F} (he : e ≠ .exit)
    (ht : status ≠ .honeypotTrip) (ho : status ≠ .ok) :
    RunsFn (α := α) (some (.error e)) (true, .ok (.failed status f)) where
  ends := iff_of_true ⟨_, rfl⟩ fun h => he (Except.error.inj (Option.some.inj h))
  started := rfl
  missing := nofun
  status res h := by
    cases h
    exact ⟨ht, iff_of_false ho nofun⟩

theorem runFn_error {e : Exn} (he : e ≠ .exit) :
    runFn (F := F) (α := α) (some (.error e)) = (true, .ok (.failed .error (.raised e))) := by
  cases e with
  | exit => exact (he rfl).elim
  | timeout | fileNotFound | osError | builtin | other => rfl

theorem runFn_exit : runFn (F := F) (α := α) (some (.error .exit)) = (true, .error .exit) := rfl

theorem RunsFn.of_runFn (fn : Option (Except Exn α)) : RunsFn (F := F) fn (runFn fn) := by
  cases fn with
  | none =>
    refine ⟨iff_of_true ⟨_, rfl⟩ nofun, rfl, fun _ => ⟨_, rfl⟩, fun res h => ?_⟩
    cases h
    exact ⟨nofun, iff_of_false nofun nofun⟩
  | some r =>
    cases r with
    | ok a =>
      refine ⟨iff_of_true ⟨_, rfl⟩ nofun, rfl, nofun, fun res h => ?_⟩
      cases h
      exact ⟨nofun, iff_of_true rfl ⟨a, rfl⟩⟩
    | error e =>
      by_cases he : e = .exit
      · rw [he, runFn_exit]
        refine ⟨iff_of_false ?_ (fun h => h rfl), rfl, nofun, fun res h => ?_⟩
        · rintro ⟨_, hr⟩
          cases hr
        · cases h
      · rw [runFn_error he]
        exact .failed he nofun nofun

theorem RunsFn.of_awaitFn (timeout : PyFloat F) (fn : Option (Except Exn α)) :
    RunsFn fn (awaitFn timeout fn) := by
  rw [awaitFn.eq_def]
  split
  · exact .failed nofun nofun nofun
  · exact .of_runFn fn

theorem result_ok_iff {U : Url.UrlText} {timeout : PyFloat F} {process : ProcessEnd} :
    (∃ r, process.result U timeout = .ok r) ↔ ∀ started e, process = .raised started e →
      e.isOSError = true ∧ ∀ text, e ≠ .fileNotFound text := by
  cases process with
  | exited | timedOut => exact iff_of_true ⟨_, rfl⟩ nofun
  | raised started e =>
    cases e with
    | fileNotFound text =>
      apply iff_of_false
      · rintro ⟨_, hr⟩
        cases hr
      · exact fun h => (h started _ rfl).2 text rfl
    | timeout | osError =>
      apply iff_of_true ⟨_, rfl⟩
      intro started' e' he
      cases he
      exact ⟨rfl, nofun⟩
    | builtin | other | exit =>
      apply iff_of_false
      · rintro ⟨_, hr⟩
        cases hr
      · intro h
        cases (h started _ rfl).1

section
variable {U : Url.UrlText} {command : List Char} {timeout : PyFloat F} {process : ProcessEnd}
  {r : SandboxResult F}

theorem sandboxRun_ok_iff :
    (∃ r, (sandboxRun U command timeout process).2 = .ok r) ↔ RunEnds U command process := by
  rw [sandboxRun, RunEnds]
  split
  · rename_i hb
    rw [and_iff_right hb]
    cases checkCommand U.toCasing command with
    | some banned => exact iff_of_true ⟨_, rfl⟩ nofun
    | none =>
      rw [forall_prop_of_true rfl]
      exact result_ok_iff
  · rename_i hb
    apply iff_of_false
    · rintro ⟨_, hr⟩
      cases hr
    · exact fun h => hb h.1

theorem result_status (h : process.result U timeout = .ok r) :
    r.status ≠ .honeypotTrip ∧
      (r.status = .ok ↔ ∃ stdout stderr, process = .exited 0 stdout stderr) ∧
      (process.started = false → r.status = .error) := by
  cases process with
  | exited code stdout stderr =>
    rw [ProcessEnd.result] at h
    cases h
    by_cases hc : code = 0
    · rw [hc]
      exact ⟨nofun, iff_of_true rfl ⟨_, _, rfl⟩, nofun⟩
    · rw [if_neg hc]
      refine ⟨nofun, iff_of_false nofun ?_, nofun⟩
      rintro ⟨out, err, he⟩
      cases he
      exact hc rfl
  | timedOut =>
    cases h
    exact ⟨nofun, iff_of_false nofun nofun, nofun⟩
  | raised started e =>
    have he : r.status = .error := by
      cases e with
      | fileNotFound => cases h
      | timeout | osError =>
        cases h
        rfl
      | builtin | other | exit => cases h
    rw [he]
    exact ⟨nofun, iff_of_false nofun nofun, fun _ => rfl⟩

/-- What a run of the sandbox that does not raise says about its command. -/
theorem sandboxRun_status (h : (sandboxRun U command timeout process).2 = .ok r) :
    r.status ≠ .honeypotTrip ∧
      (r.status = .ok ↔ checkCommand U.toCasing command = none ∧
        ∃ stdout stderr, process = .exited 0 stdout stderr) ∧
      ((sandboxRun U command timeout process).1 = false →
        r.status = .blocked ∨ r.status = .error) ∧
      ((sandboxRun U command timeout process).1 = false ↔
        (checkCommand U.toCasing command = none → process.started = false)) := by
  rw [sandboxRun] at h ⊢
  split at h
  · rename_i hb
    rw [if_pos hb]
    cases hc : checkCommand U.toCasing command with
    | some banned =>
      rw [hc] at h
      cases h
      exact ⟨nofun, iff_of_false nofun nofun, fun _ => .inl rfl, iff_of_true rfl nofun⟩
    | none =>
      rw [hc] at h
      obtain ⟨ht, hok, hs⟩ := result_status h
      rw [and_iff_right rfl, forall_prop_of_true rfl]
      exact ⟨ht, hok, fun hn => .inr (hs hn), Iff.rfl⟩
  · cases h

end

section
variable {P : Report F α → Prop} (hP : Returning P) {W X : Prop} {ex : HardenedExecutor}
  {w : World F} {c : Call F} {refusal tail : Report F α}
include hP

/-- The guards of `execute` and `aexecute`, where each refusal asks for the same. -/
theorem fn_path_iff {limiter : Option Exn} {fn : Option (Except Exn α)}
    {refuse : Exn → Report F α} (hb : P refusal ↔ W) (hr : ∀ e, P (refuse e) ↔ W)
    (ht : P tail ↔ W ∧ w.BaitSafe c ∧ fn ≠ some (.error .exit) ∧ X) :
    P (guarded (ex.passBreaker c refusal) fun _ => guarded (passRate limiter refuse) fun _ => tail) ↔
      W ∧ ex.FnSafe w c limiter fn X := by
  rw [passBreaker_iff hP, HardenedExecutor.FnSafe, passRate_iff hP, hb, ht]
  constructor
  · rintro ⟨rejected, he, hyes, hno⟩
    have hw : W := by
      cases rejected with
      | true => exact hyes rfl
      | false =>
        cases limiter with
        | none => exact ((hno rfl).2.2 rfl).1
        | some e => exact (hr e).1 ((hno rfl).2.1 e rfl)
    exact ⟨hw, rejected, he, fun h => ⟨(hno h).1, fun hn => ((hno h).2.2 hn).2⟩⟩
  · rintro ⟨hw, rejected, he, hno⟩
    refine ⟨rejected, he, fun _ => hw, fun h => ⟨(hno h).1, fun e _ => (hr e).2 hw, fun hn => ?_⟩⟩
    exact ⟨hw, (hno h).2 hn⟩

/-- The check of the network in `execute_subprocess`, whose refusals all ask for the same. -/
theorem command_path_iff [Json.FloatText F] {U : Url.UrlText} {command : List Char}
    {process : ProcessEnd} {refuse : Failure F → Report F α} (hr : ∀ f, P (refuse f) ↔ W)
    (ht : P tail ↔ W ∧ w.BaitSafe c ∧ RunEnds U command process ∧ X) :
    P (guarded (passNetwork U c.env.network command refuse) fun _ => tail) ↔
      W ∧ w.CommandSafe U c command process X := by
  rw [passNetwork_iff hP, World.CommandSafe, ht]
  constructor
  · rintro ⟨refused, he, hyes, hno⟩
    have hw : W := by
      cases refused with
      | none => exact (hno rfl).1
      | some f => exact (hr f).1 (hyes f rfl)
    exact ⟨hw, refused, he, fun hn => (hno hn).2⟩
  · rintro ⟨hw, refused, he, hno⟩
    exact ⟨refused, he, fun f _ => (hr f).2 hw, fun hn => ⟨hw, hno hn⟩⟩

end

end Obase.Executor
