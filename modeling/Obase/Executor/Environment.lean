import Obase.Executor.Gate
import Obase.Executor.Guards

namespace Obase.Executor
set_option autoImplicit true
open PermissionContract

section
variable [Runtime F] (mac : List UInt8 → List UInt8 → List UInt8) (ex : HardenedExecutor)
  (w : World F) (c : Call F)

/-- The checks of the envelope, the token and the breaker let a command through, and the bait can be
planted. -/
structure HardenedExecutor.Admits : Prop where
  entered : ∃ tok, ex.enter (α := SandboxResult F) mac w c
    (some (c.capability.getD "executor.subprocess")) = .ok tok
  closed : ex.rejects c = .ok false
  planted : ∃ baits, w.plantBaits c.useHoneypot = .ok baits

end

theorem guarded_started_iff {g : Except (Report F α) β} {body : β → Report F α}
    (hg : ∀ r, g = .error r → r.started = false) :
    (guarded g body).started = true ↔ ∃ b, g = .ok b ∧ (body b).started = true := by
  cases g with
  | error r =>
    rw [guarded_error, hg r rfl]
    exact iff_of_false Bool.false_ne_true fun ⟨_, hb, _⟩ => nomatch hb
  | ok b =>
    constructor
    · exact fun h => ⟨b, rfl, h⟩
    · rintro ⟨b', hb, h⟩
      cases hb
      exact h

theorem supervise_started_iff {w : World F} {c : Call F} {mayTrip : Status → Bool}
    {entry : ExecutionResult F α → Entry F} {run : Bool × Except Exn (ExecutionResult F α)} :
    (w.supervise c mayTrip entry run).started = true ↔
      (∃ baits, w.plantBaits c.useHoneypot = .ok baits) ∧ run.1 = true := by
  rw [World.supervise]
  cases w.plantBaits c.useHoneypot with
  | error e =>
    refine iff_of_false Bool.false_ne_true ?_
    rintro ⟨⟨_, hb⟩, -⟩
    cases hb
  | ok baits =>
    rw [and_iff_right ⟨baits, rfl⟩]
    dsimp only
    cases hr : run.2 with
    | error e => rfl
    | ok res =>
      dsimp only
      cases ht : checkTouched w.files baits with
      | error e => rfl
      | ok trips =>
        dsimp only
        rw [audited_started]

section
variable {ex : HardenedExecutor} {w : World F} {c : Call F}

theorem passBreaker_error_started {refusal r : Report F α} (hr : refusal.started = false)
    (h : ex.passBreaker c refusal = .error r) : r.started = false := by
  rw [HardenedExecutor.passBreaker] at h
  split at h
  · cases h
    rfl
  · cases h
    exact hr
  · cases h

theorem passBreaker_ok_iff {refusal : Report F α} {u : Unit} :
    ex.passBreaker c refusal = .ok u ↔ ex.rejects c = .ok false := by
  rw [HardenedExecutor.passBreaker]
  split
  · rename_i h
    rw [h]
    exact iff_of_false (by simp) (by simp)
  · rename_i h
    rw [h]
    exact iff_of_false (by simp) (by simp)
  · rename_i h
    exact iff_of_true rfl h

theorem passNetwork_error_started {U : Url.UrlText} {policy : NetworkPolicy}
    {command : List Char} {refusal : Failure F → Report F α} {r : Report F α}
    (hr : ∀ f, (refusal f).started = false)
    (h : passNetwork U policy command refusal = .error r) : r.started = false := by
  rw [passNetwork] at h
  split at h
  · cases h
    rfl
  · cases h
    exact hr _
  · cases h

theorem passNetwork_ok_iff {U : Url.UrlText} {policy : NetworkPolicy} {command : List Char}
    {refusal : Failure F → Report F α} {u : Unit} :
    passNetwork U policy command refusal = .ok u ↔
      checkNetwork (F := F) U policy command = .ok none := by
  rw [passNetwork]
  split
  · rename_i h
    rw [h]
    exact iff_of_false (by simp) (by simp)
  · rename_i h
    rw [h]
    exact iff_of_false (by simp) (by simp)
  · rename_i h
    exact iff_of_true rfl h

theorem sandboxRun_started_iff {U : Url.UrlText} {command : List Char} {timeout : PyFloat F}
    {process : ProcessEnd} : (sandboxRun U command timeout process).1 = true ↔
      Text.notBlank command = true ∧ checkCommand U.toCasing command = none ∧
        process.started = true := by
  rw [sandboxRun]
  split
  · rename_i hb
    rw [and_iff_right hb]
    cases checkCommand U.toCasing command with
    | some banned => exact iff_of_false Bool.false_ne_true fun h => by cases h.1
    | none => exact (and_iff_right rfl).symm
  · rename_i hb
    exact iff_of_false Bool.false_ne_true fun h => hb h.1

end

section
variable [Runtime F] {mac : List UInt8 → List UInt8 → List UInt8} {ex : HardenedExecutor}
  {w : World F} {c : Call F}

theorem enter_ok {required : Option String} {tok : CapabilityToken F}
    (he : validateEnvelope c.env = .ok ())
    (hv : ex.verify mac c.token required w.now = .ok tok) :
    ex.enter (α := α) mac w c required = .ok tok := by
  rw [HardenedExecutor.enter, he]
  dsimp only
  rw [hv]

theorem enter_error_started {required : Option String} {r : Report F α}
    (h : ex.enter mac w c required = .error r) : r.started = false := by
  rw [HardenedExecutor.enter] at h
  split at h
  · cases h
    rfl
  · split at h
    · cases h
      rfl
    · cases h
      rfl
    · cases h

/-- A process is started for a command exactly if every check lets it through, and then it is the
process that is given. -/
theorem executeSubprocess_started_iff {U : Url.UrlText} {command : List Char}
    {process : ProcessEnd} :
    (ex.executeSubprocess mac U w c command process).started = true ↔ ex.Admits mac w c ∧
      checkNetwork (F := F) U c.env.network command = .ok none ∧ Text.notBlank command = true ∧
        checkCommand U.toCasing command = none ∧ process.started = true := by
  rw [HardenedExecutor.executeSubprocess]
  dsimp only
  rw [guarded_started_iff fun r => enter_error_started]
  constructor
  · rintro ⟨tok, he, h⟩
    rw [guarded_started_iff fun r => passBreaker_error_started rfl] at h
    obtain ⟨_, hb, h⟩ := h
    rw [guarded_started_iff fun r => passNetwork_error_started fun f => audited_started ..] at h
    obtain ⟨_, hn, h⟩ := h
    rw [supervise_started_iff, sandboxRun_started_iff] at h
    exact ⟨⟨⟨tok, he⟩, passBreaker_ok_iff.1 hb, h.1⟩, passNetwork_ok_iff.1 hn, h.2⟩
  · rintro ⟨⟨⟨tok, he⟩, hb, hp⟩, hn, h⟩
    refine ⟨tok, he, ?_⟩
    rw [guarded_started_iff fun r => passBreaker_error_started rfl]
    refine ⟨(), passBreaker_ok_iff.2 hb, ?_⟩
    rw [guarded_started_iff fun r => passNetwork_error_started fun f => audited_started ..]
    refine ⟨(), passNetwork_ok_iff.2 hn, ?_⟩
    rw [supervise_started_iff, sandboxRun_started_iff]
    exact ⟨hp, h⟩

end

end Obase.Executor

namespace Obase.Executor
set_option autoImplicit true
open PermissionContract

/-- The variables of an environment, under their names. -/
abbrev Environ := Dict String String

/-- `"proxy" in key.lower()`. -/
def namesProxy (U : Casing) (key : String) : Bool :=
  decide ("proxy".toList <:+: U.lower key.toList)

/-- The credentials that `sanitized_env` names. -/
def credentialKeys : List String :=
  ["AWS_ACCESS_KEY_ID", "AWS_SECRET_ACCESS_KEY", "OPENAI_API_KEY", "ANTHROPIC_API_KEY",
    "DASHSCOPE_API_KEY"]

/-- `sensitive_prefixes`. -/
def sensitivePrefixes : List String :=
  ["AWS_", "OPENAI_", "ANTHROPIC_", "DASHSCOPE_", "GEMINI_", "DEEPSEEK_", "TOGETHER_", "GROQ_",
    "HF_", "HUGGINGFACE_"]

def startsSensitive (key : String) : Bool :=
  sensitivePrefixes.any fun start => start.toList.isPrefixOf key.toList

/-- `ZeroEgressSandbox.sanitized_env`. -/
def sanitizedEnv (U : Casing) (host : Environ) : Environ :=
  host.filter fun p => !(namesProxy U p.1 || credentialKeys.contains p.1)

/-- `_sanitize_env`. -/
def sanitizeEnv (U : Casing) (env : Environ) : Environ :=
  env.filter fun p => !(namesProxy U p.1 || startsSensitive p.1)

/-- The environment that `execute_subprocess` passes to the sandbox. -/
def cleanEnv (U : Casing) (envVars : Option Environ) (host : Environ) : Environ :=
  match envVars with
  | none => sanitizedEnv U host
  | some env => sanitizeEnv U env

/-- `env or self.sanitized_env()`, which the sandbox creates the process in. -/
def childEnv (U : Casing) (envVars : Option Environ) (host : Environ) : Environ :=
  if (cleanEnv U envVars host).isEmpty then sanitizedEnv U host else cleanEnv U envVars host

/-- A variable that no child is to receive. -/
def Forbidden (U : Casing) (key : String) : Prop :=
  "proxy".toList <:+: U.lower key.toList ∨ ∃ start ∈ sensitivePrefixes, start.toList <+: key.toList

instance (U : Casing) (key : String) : Decidable (Forbidden U key) :=
  inferInstanceAs (Decidable (_ ∨ _))

/-- Something is left of the environment that is given; where none is given, the host has no
sensitive variable but those which the sandbox names. -/
def Cleanable (U : Casing) : Option Environ → Environ → Prop
  | some env, _ => ∃ p ∈ env, ¬ Forbidden U p.1
  | none, host => ∀ p ∈ host, startsSensitive p.1 = true →
      namesProxy U p.1 = true ∨ p.1 ∈ credentialKeys

section
variable [Runtime F] (mac : List UInt8 → List UInt8 → List UInt8) (U : Url.UrlText)
  (ex : HardenedExecutor) (w : World F) (c : Call F) (command : List Char)

/-- `execute_subprocess` in an environment of the host; how the process ends depends on its own. -/
def HardenedExecutor.executeSubprocessIn (spawn : Environ → ProcessEnd)
    (envVars : Option Environ) (host : Environ) : Report F (SandboxResult F) :=
  ex.executeSubprocess mac U w c command (spawn (childEnv U.toCasing envVars host))

/-- The guards let the command through, so that a process is started for it. -/
def HardenedExecutor.Spawns : Prop :=
  ∃ process, (ex.executeSubprocess mac U w c command process).started = true

/-- The process of the command runs in the environment. -/
def HardenedExecutor.RunsIn (envVars : Option Environ) (host env : Environ) : Prop :=
  ∀ spawn, ex.executeSubprocessIn mac U w c command spawn envVars host =
    ex.executeSubprocess mac U w c command (spawn env)

/-- The process runs in what is given but for the forbidden variables, whatever the host's
environment is, and it receives no forbidden variable in any case. -/
structure HardenedExecutor.Isolates (envVars : Option Environ) (host : Environ) : Prop where
  exact : ∀ env, envVars = some env → ex.RunsIn mac U w c command envVars host
    (env.filter fun p => ¬ Forbidden U.toCasing p.1)
  independent : ∀ env, envVars = some env → ∀ host' spawn,
    ex.executeSubprocessIn mac U w c command spawn envVars host' =
      ex.executeSubprocessIn mac U w c command spawn envVars host
  clean : ∃ env, ex.RunsIn mac U w c command envVars host env ∧
    ∀ p ∈ env, ¬ Forbidden U.toCasing p.1

end

theorem forbidden_iff {U : Casing} {key : String} :
    Forbidden U key ↔ (namesProxy U key || startsSensitive key) = true := by
  rw [Forbidden, Bool.or_eq_true, namesProxy, decide_eq_true_eq, startsSensitive,
    List.any_eq_true]
  simp only [List.isPrefixOf_iff_prefix]

/-- What is given is cleaned of what is forbidden. -/
theorem sanitizeEnv_eq (U : Casing) (env : Environ) :
    sanitizeEnv U env = env.filter fun p => ¬ Forbidden U p.1 := by
  rw [sanitizeEnv]
  congr 1
  funext p
  rw [Bool.eq_iff_iff, decide_eq_true_eq, forbidden_iff, Bool.not_eq_true', Bool.not_eq_true]

theorem sanitizeEnv_ne_nil {U : Casing} {env : Environ} :
    sanitizeEnv U env ≠ [] ↔ ∃ p ∈ env, ¬ Forbidden U p.1 := by
  rw [sanitizeEnv_eq, Ne, List.filter_eq_nil_iff]
  simp only [decide_eq_true_eq, not_forall, not_not, exists_prop]

theorem childEnv_none (U : Casing) (host : Environ) : childEnv U none host = sanitizedEnv U host :=
  ite_self _

theorem childEnv_of_ne {U : Casing} {env : Environ} (h : sanitizeEnv U env ≠ []) (host : Environ) :
    childEnv U (some env) host = sanitizeEnv U env :=
  if_neg (by rwa [cleanEnv, List.isEmpty_iff])

theorem childEnv_of_eq {U : Casing} {env : Environ} (h : sanitizeEnv U env = []) (host : Environ) :
    childEnv U (some env) host = sanitizedEnv U host :=
  if_pos (by rwa [cleanEnv, List.isEmpty_iff])

theorem sanitizedEnv_clean_iff {U : Casing} {host : Environ} :
    (∀ p ∈ sanitizedEnv U host, ¬ Forbidden U p.1) ↔ Cleanable U none host := by
  rw [sanitizedEnv, Cleanable, List.forall_mem_filter]
  refine forall₂_congr fun p _ => ?_
  rw [forbidden_iff]
  cases namesProxy U p.1 with
  | true => simp
  | false =>
    rw [Bool.false_or, Bool.false_or, Bool.not_eq_true', Bool.not_eq_true, or_iff_right (by simp)]
    rw [← Bool.not_eq_true, ← Bool.not_eq_true, not_imp_not, List.contains_iff_mem]

theorem sanitizedEnv_cons (U : Casing) (host : Environ) :
    sanitizedEnv U (("", "") :: host) = ("", "") :: sanitizedEnv U host := by
  have hn : namesProxy U "" = false := by
    rw [namesProxy, decide_eq_false_iff_not]
    exact fun h => absurd (List.infix_nil.1 h) (by decide)
  rw [sanitizedEnv, List.filter_cons_of_pos, sanitizedEnv]
  rw [hn]
  decide

section
variable [Runtime F] {mac : List UInt8 → List UInt8 → List UInt8} {U : Url.UrlText}
  {ex : HardenedExecutor} {w : World F} {c : Call F} {command : List Char}

/-- Where a process is started for the command, it is the one that is given. -/
theorem HardenedExecutor.Spawns.started (h : ex.Spawns mac U w c command) (process : ProcessEnd) :
    (ex.executeSubprocess mac U w c command process).started = process.started := by
  obtain ⟨process', h⟩ := h
  obtain ⟨ha, hn, hb, hc, -⟩ := executeSubprocess_started_iff.1 h
  rw [Bool.eq_iff_iff, executeSubprocess_started_iff]
  exact and_iff_right ha |>.trans (and_iff_right hn |>.trans (and_iff_right hb |>.trans
    (and_iff_right hc)))

/-- The process of a command that is let through runs in one environment only. -/
theorem HardenedExecutor.Spawns.runsIn_iff (h : ex.Spawns mac U w c command)
    {envVars : Option Environ} {host env : Environ} :
    ex.RunsIn mac U w c command envVars host env ↔ childEnv U.toCasing envVars host = env := by
  constructor
  · intro hr
    by_contra hne
    have he := hr fun e => if e = env then .raised false .exit else .exited 0 [] []
    rw [HardenedExecutor.executeSubprocessIn, if_neg hne, if_pos rfl] at he
    have hs := congrArg Report.started he
    rw [h.started, h.started] at hs
    cases hs
  · rintro rfl spawn
    rfl

/-- A process is kept from the host's environment and from what is forbidden exactly if something
is left of what is given or, where nothing is, the sandbox names what is sensitive of the host. -/
theorem isolates_iff (h : ex.Spawns mac U w c command) (envVars : Option Environ)
    (host : Environ) :
    ex.Isolates mac U w c command envVars host ↔ Cleanable U.toCasing envVars host := by
  cases envVars with
  | none =>
    rw [← sanitizedEnv_clean_iff, ← childEnv_none]
    constructor
    · intro hiso
      obtain ⟨env, hr, hc⟩ := hiso.clean
      rwa [h.runsIn_iff.1 hr]
    · intro hc
      refine ⟨fun env he => ?_, fun env he => ?_, _, h.runsIn_iff.2 rfl, hc⟩
      · cases he
      · cases he
  | some env =>
    rw [Cleanable, ← sanitizeEnv_ne_nil]
    constructor
    · intro hiso hn
      have hs := sanitizedEnv_cons U.toCasing host
      have hr : ex.RunsIn mac U w c command (some env) (("", "") :: host)
          (childEnv U.toCasing (some env) host) := hiso.independent env rfl (("", "") :: host)
      have he := h.runsIn_iff.1 hr
      rw [childEnv_of_eq hn, childEnv_of_eq hn, hs] at he
      exact List.cons_ne_self _ _ he
    · intro hn
      have hc := childEnv_of_ne hn host
      rw [sanitizeEnv_eq] at hc
      refine ⟨fun env' he => ?_, fun env' he host' spawn => ?_, _, h.runsIn_iff.2 hc, ?_⟩
      · cases he
        exact h.runsIn_iff.2 hc
      · rw [HardenedExecutor.executeSubprocessIn, HardenedExecutor.executeSubprocessIn,
          childEnv_of_ne hn, childEnv_of_ne hn]
      · exact fun p hp => of_decide_eq_true (List.mem_filter.1 hp).2

end

/-- A call of the executor with a token that lets it execute. -/
def trustedCall (token : List Char) (envelope : ResourceEnvelope WholeFloat) : Call WholeFloat where
  token := token
  capability := some "executor.execute"
  envelope := some envelope
  useHoneypot := false
  audit := false

theorem trustedCall_admitted {envelope : ResourceEnvelope WholeFloat}
    (he : validateEnvelope envelope = .ok ()) : ∃ token, executeToken = .ok token ∧
      (devExecutor none).Admits executorMac (quietWorld .absent) (trustedCall token envelope) := by
  obtain ⟨token, tok, hi, hv, hc⟩ := executeToken_verified
  exact ⟨token, hi, ⟨tok, enter_ok he (verify_ok_iff.2 ⟨hv, hc⟩)⟩, rfl, [], rfl⟩

theorem env_spawns : ∃ token, executeToken = .ok token ∧
    (devExecutor none).Spawns executorMac Url.UrlText.ascii (quietWorld .absent)
      (trustedCall token defaultEnvelope) "env".toList := by
  obtain ⟨token, hi, ha⟩ := trustedCall_admitted validate_defaultEnvelope
  have hc : checkCommand Url.UrlText.ascii.toCasing "env".toList = none := by decide +kernel
  have hn : checkNetwork (F := WholeFloat) Url.UrlText.ascii
      (trustedCall token defaultEnvelope).env.network "env".toList = .ok none := by
    have hm : (trustedCall token defaultEnvelope).env.network.mode = "deny_all" := rfl
    rw [checkNetwork, if_pos hm, hc]
    rfl
  exact ⟨token, hi, .exited 0 [] [], executeSubprocess_started_iff.2
    ⟨ha, hn, by decide, hc, rfl⟩⟩

/-- A variable that is let through keeps the child from the host's. -/
theorem isolates_lang : ∃ token, executeToken = .ok token ∧
    (devExecutor none).Isolates executorMac Url.UrlText.ascii (quietWorld .absent)
      (trustedCall token defaultEnvelope) "env".toList (some [("LANG", "C"), ("HF_TOKEN", "x")])
      [("GEMINI_API_KEY", "k")] := by
  obtain ⟨token, hi, hs⟩ := env_spawns
  exact ⟨token, hi, (isolates_iff hs _ _).2 ⟨("LANG", "C"), by simp, by decide +kernel⟩⟩

/-- The host's credential reaches a child whose own environment is empty when it is cleaned. -/
theorem emptied_env_leaks : ∃ token, executeToken = .ok token ∧
    (devExecutor none).Spawns executorMac Url.UrlText.ascii (quietWorld .absent)
      (trustedCall token defaultEnvelope) "env".toList ∧
    ¬ (devExecutor none).Isolates executorMac Url.UrlText.ascii (quietWorld .absent)
      (trustedCall token defaultEnvelope) "env".toList (some [("HTTP_PROXY", "http://p")])
      [("GEMINI_API_KEY", "k")] := by
  obtain ⟨token, hi, hs⟩ := env_spawns
  refine ⟨token, hi, hs, fun hiso => ?_⟩
  have hr := hs.runsIn_iff.1 (hiso.exact _ rfl)
  exact absurd hr (by decide +kernel)

end Obase.Executor
