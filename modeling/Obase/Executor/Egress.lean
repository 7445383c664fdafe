import Obase.Executor.Environment
import Obase.Shell
import Obase.Stripped

namespace Obase.Executor
set_option autoImplicit true
open PermissionContract

def basename (program : List Char) : List Char := program.rtakeWhile (· ≠ '/')

/-- The shell takes the command for one call of `curl` or `wget`, on some arguments. -/
structure Invokes (command : List Char) (args : List (List Char)) : Prop where
  program : ∃ name, Shell.words command = some (name :: args) ∧ '=' ∉ name ∧
    (basename name = "curl".toList ∨ basename name = "wget".toList)

/-- An argument that is a URL with an explicit scheme, in any case. -/
def isUrl (arg : List Char) : Bool := isHttp (arg.map Char.toLower)

def defaultPort (scheme : List Char) : Nat := if scheme = "https".toList then 443 else 80

/-- The host and the port of a URL are allowed by a policy. -/
def NetworkPolicy.allowsUrl (U : Url.UrlText) (policy : NetworkPolicy) (url : List Char) : Bool :=
  match Url.urlsplit U url with
  | none => false
  | some parts =>
    match Url.hostname U parts.netloc, Url.port parts.netloc with
    | some host, some port => policy.allows host (some (port.getD (defaultPort parts.scheme)))
    | _, _ => false

def NetworkPolicy.AllowsAll (U : Url.UrlText) (policy : NetworkPolicy)
    (args : List (List Char)) : Prop :=
  ∀ url ∈ args, isUrl url = true → policy.allowsUrl U url = true

instance (U : Url.UrlText) (policy : NetworkPolicy) (args : List (List Char)) :
    Decidable (policy.AllowsAll U args) :=
  inferInstanceAs (Decidable (∀ url ∈ args, _))

/-- The URL whose host `_resolve_egress` looks up can be split, if there is one. -/
def Splits (U : Url.UrlText) (command : List Char) : Prop :=
  ∀ name parts url, words command = name :: parts →
    name = "curl".toList ∨ name = "wget".toList → parts.find? isHttp = some url →
    ∃ split, Url.urlsplit U url = some split

section
variable [Runtime F] (mac : List UInt8 → List UInt8 → List UInt8) (U : Url.UrlText)
  (ex : HardenedExecutor) (w : World F) (c : Call F) (command : List Char)

/-- The policy of the envelope is what decides about a call: the checks before it let the call
through, the bait can be read, and the log can be written. -/
structure HardenedExecutor.Decides : Prop where
  admits : ex.Admits mac w c
  bait : w.BaitSafe c
  log : w.WriteSafe c
  allowlist : c.env.network.mode = "allowlist"

/-- The command is handed to the shell exactly if all its URLs are allowed, and blocked if not. -/
structure HardenedExecutor.Enforces (args : List (List Char)) : Prop where
  spawns_iff : ex.Spawns mac U w c command ↔ c.env.network.AllowsAll U args
  blocked : ¬ c.env.network.AllowsAll U args → ∀ process, ∃ res,
    (ex.executeSubprocess mac U w c command process).result = .ok res ∧ res.status = .blocked

end

theorem words_append_left {v : List Char} (h : ∀ x ∈ v, Text.isSpace x = true)
    (cs : List Char) : words (v ++ cs) = words cs := by
  induction v with
  | nil => rfl
  | cons x v ih =>
    rw [List.forall_mem_cons] at h
    rw [List.cons_append, words, Text.lines, if_pos h.1]
    exact ih h.2

theorem words_cons {x : Char} (h : Text.isSpace x = false) (cs : List Char) :
    ∃ name parts, words (x :: cs) = name :: parts ∧ name <+: x :: cs ∧
      ∀ y ∈ name, Text.isSpace y = false := by
  have hl := Text.lines_append_left (List.forall_mem_singleton.2 h) (List.cons_ne_nil x []) cs
  rw [List.singleton_append] at hl
  refine ⟨_, (Text.lines Text.isSpace cs).tail.filter fun word => !word.isEmpty, ?_,
    Text.prefix_of_lines_cons hl, ?_⟩
  · rw [words, hl, List.filter_cons_of_pos]
    rfl
  · exact Text.not_boundary_of_mem_lines (hl ▸ List.mem_cons_self)

/-- The first word of a command begins it, but for blanks. -/
theorem prefix_of_words {command name : List Char} {parts : List (List Char)}
    (h : words command = name :: parts) : name <+: Text.strip command := by
  obtain ⟨v, v', he, hv, hv'⟩ := Text.trim_split Text.isSpace command
  rw [← Text.strip] at he
  rw [he, words_append_left hv] at h
  cases hs : Text.strip command with
  | nil =>
    rw [hs, List.nil_append, ← List.append_nil v', words_append_left hv'] at h
    cases h
  | cons x cs =>
    have ht : Text.trim Text.isSpace command ≠ [] := by
      rw [← Text.strip, hs]
      exact List.cons_ne_nil x cs
    obtain ⟨y, hy, hx, -⟩ := Text.trim_trimmed ht
    rw [← Text.strip, hs] at hy
    cases hy
    rw [hs, List.cons_append] at h
    obtain ⟨name', parts', hn, hp, hspace⟩ := words_cons hx (cs ++ v')
    rw [hn] at h
    cases h
    have hcs : x :: cs <+: x :: (cs ++ v') := List.prefix_append (x :: cs) v'
    obtain h | ⟨r, rfl⟩ := List.prefix_or_prefix_of_prefix hp hcs
    · exact h
    · have hr : r <+: v' := (List.prefix_append_right_inj (x :: cs)).1 hp
      cases r with
      | nil => rw [List.append_nil]
      | cons y r =>
        have hy := hv' y (hr.subset (.head _))
        rw [hspace y (List.mem_append_right _ (.head _))] at hy
        cases hy

/-- The firewall knows the two programs by their plain names. -/
theorem checkCommand_of_words {U : Casing} {command name : List Char} {parts : List (List Char)}
    (h : words command = name :: parts) (hn : name = "curl".toList ∨ name = "wget".toList) :
    ∃ banned, checkCommand U command = some banned := by
  obtain ⟨rest, hs⟩ := prefix_of_words h
  have hmem : String.ofList name ∈ networkCommands := by
    rcases hn with rfl | rfl
    · decide
    · decide
  have hname : (∀ x ∈ name, x.toNat < 128) ∧ name.map Char.toLower = name := by
    rcases hn with rfl | rfl
    · exact ⟨Text.forall_mem_of_all (by decide), by decide⟩
    · exact ⟨Text.forall_mem_of_all (by decide), by decide⟩
  rw [checkCommand, ← Option.isSome_iff_exists, List.find?_isSome]
  refine ⟨_, hmem, ?_⟩
  rw [String.toList_ofList, List.isPrefixOf_iff_prefix, ← hs, Casing.lower,
    U.lowerFrom_append_ascii hname.1, hname.2]
  exact List.prefix_append ..

/-- The host is looked up without an exception exactly if the URL can be split. -/
theorem resolveEgress_ok_iff {U : Url.UrlText} {command : List Char} :
    (∃ host, resolveEgress U command = .ok host) ↔ Splits U command := by
  rw [resolveEgress, Splits]
  cases hw : words command with
  | nil => exact iff_of_true ⟨none, rfl⟩ fun _ _ _ h => nomatch h
  | cons name parts =>
    dsimp only
    split
    · rename_i hn
      cases hf : parts.find? isHttp with
      | none =>
        refine iff_of_true ⟨none, rfl⟩ fun name' parts' url he _ hu => ?_
        cases he
        rw [hf] at hu
        cases hu
      | some url =>
        dsimp only
        constructor
        · intro h name' parts' url' he _ hu
          cases he
          rw [hf] at hu
          cases hu
          cases hs : Url.urlsplit U url with
          | none =>
            rw [hs] at h
            obtain ⟨host, h⟩ := h
            cases h
          | some split => exact ⟨split, rfl⟩
        · intro h
          obtain ⟨split, hs⟩ := h name parts url rfl hn hf
          rw [hs]
          exact ⟨_, rfl⟩
    · rename_i hn
      refine iff_of_true ⟨none, rfl⟩ fun name' parts' url he ht _ => ?_
      cases he
      exact (hn ht).elim

theorem resolveEgress_of_checkCommand {U : Url.UrlText} {command : List Char}
    (h : checkCommand U.toCasing command = none) : resolveEgress U command = .ok none := by
  rw [resolveEgress]
  cases hw : words command with
  | nil => rfl
  | cons name parts =>
    refine if_neg fun hn => ?_
    obtain ⟨banned, hb⟩ := checkCommand_of_words (U := U.toCasing) hw hn
    rw [h] at hb
    cases hb

section
variable {U : Url.UrlText} {policy : NetworkPolicy} {command : List Char}

theorem checkNetwork_ok_iff (hm : policy.mode = "allowlist") :
    (∃ refused, checkNetwork (F := F) U policy command = .ok refused) ↔ Splits U command := by
  rw [← resolveEgress_ok_iff, checkNetwork, hm, if_neg (by decide), if_pos rfl]
  cases resolveEgress U command with
  | error e =>
    constructor
    · rintro ⟨_, h⟩
      cases h
    · rintro ⟨_, h⟩
      cases h
  | ok host =>
    cases host with
    | none => exact iff_of_true ⟨_, rfl⟩ ⟨_, rfl⟩
    | some host => exact iff_of_true ⟨_, rfl⟩ ⟨_, rfl⟩

theorem checkNetwork_of_checkCommand (hm : policy.mode = "allowlist")
    (h : checkCommand U.toCasing command = none) :
    checkNetwork (F := F) U policy command = .ok none := by
  rw [checkNetwork, hm, if_neg (by decide), if_pos rfl, resolveEgress_of_checkCommand h]

end

theorem Invokes.notBlank {command : List Char} {args : List (List Char)}
    (h : Invokes command args) : Text.notBlank command = true := by
  obtain ⟨name, hw, -, ht⟩ := h.program
  have hl : 'l' ∈ name ∨ 'w' ∈ name := by
    refine ht.imp (fun he => ?_) fun he => ?_
    · exact (List.rtakeWhile_suffix _ name).subset (he ▸ by decide : 'l' ∈ basename name)
    · exact (List.rtakeWhile_suffix _ name).subset (he ▸ by decide : 'w' ∈ basename name)
  have hm : 'l' ∈ command ∨ 'w' ∈ command :=
    hl.imp (fun h => Shell.mem_of_words hw (.head _) h (by decide))
      fun h => Shell.mem_of_words hw (.head _) h (by decide)
  rw [Text.notBlank, Bool.not_eq_true', List.isEmpty_eq_false_iff, Ne, Text.strip,
    Text.trim_eq_nil_iff]
  intro hs
  rcases hm with hm | hm
  · exact absurd (hs _ hm) (by decide)
  · exact absurd (hs _ hm) (by decide)

def IsBlocked (r : Report F α) : Prop := ∃ res, r.result = .ok res ∧ res.status = .blocked

theorem IsBlocked.returning : Returning (IsBlocked (F := F) (α := α)) :=
  fun _ h => h.imp fun _ h => h.1

theorem isBlocked_blocked {w : World F} {c : Call F} (hw : w.WriteSafe c)
    {action capability : String} {tok : CapabilityToken F} {f : Failure F} :
    IsBlocked (w.blocked (α := α) c action tok capability f) :=
  ⟨_, (audited_result_iff ..).2 ⟨hw, rfl⟩, rfl⟩

section
variable [Runtime F] {mac : List UInt8 → List UInt8 → List UInt8} {U : Url.UrlText}
  {ex : HardenedExecutor} {w : World F} {c : Call F} {command : List Char}

/-- The firewall alone decides whether a command in allowlist mode reaches the shell. -/
theorem HardenedExecutor.Decides.spawns_iff (hd : ex.Decides mac w c)
    (hb : Text.notBlank command = true) :
    ex.Spawns mac U w c command ↔ checkCommand U.toCasing command = none := by
  constructor
  · rintro ⟨process, h⟩
    exact (executeSubprocess_started_iff.1 h).2.2.2.1
  · intro hc
    exact ⟨.timedOut, executeSubprocess_started_iff.2 ⟨hd.admits,
      checkNetwork_of_checkCommand hd.allowlist hc, hb, hc, rfl⟩⟩

/-- A command that the firewall knows is blocked, unless the lookup of its host raises. -/
theorem HardenedExecutor.Decides.blocked_iff (hd : ex.Decides mac w c)
    (hb : Text.notBlank command = true) {banned : String}
    (hc : checkCommand U.toCasing command = some banned) (process : ProcessEnd) :
    IsBlocked (ex.executeSubprocess mac U w c command process) ↔ Splits U command := by
  obtain ⟨tok, he⟩ := hd.admits.entered
  rw [HardenedExecutor.executeSubprocess]
  dsimp only
  rw [he, guarded_ok, passBreaker_iff IsBlocked.returning]
  constructor
  · rintro ⟨rejected, hr, -, h⟩
    have hf : rejected = false := Except.ok.inj (hr.symm.trans hd.admits.closed)
    obtain ⟨refused, hn, -⟩ := (passNetwork_iff IsBlocked.returning).1 (h hf)
    exact (checkNetwork_ok_iff hd.allowlist).1 ⟨refused, hn⟩
  · intro hs
    refine ⟨false, hd.admits.closed, fun h => (by cases h), fun _ => ?_⟩
    obtain ⟨refused, hn⟩ := (checkNetwork_ok_iff (F := F) hd.allowlist).2 hs
    rw [passNetwork_iff IsBlocked.returning]
    refine ⟨refused, hn, fun f _ => isBlocked_blocked hd.log, fun _ => ?_⟩
    obtain ⟨trips, ht, -⟩ := trips_of_baitSafe hd.bait
    have hrun : (sandboxRun U command c.env.wallclockS process).2 =
        .ok ⟨.blocked, none, [], [], some (.networkCommand banned)⟩ := by
      rw [sandboxRun, if_pos hb, hc]
    rw [supervise_iff IsBlocked.returning, hrun]
    refine ⟨hd.bait, _, trips, rfl, ht, _, (audited_result_iff ..).2 ⟨hd.log, rfl⟩, ?_⟩
    rw [tripped_status]
    exact if_neg fun h => by cases h.2

/-- The envelope is enforced exactly if the firewall and its rules agree on the command, and the
lookup of the host does not raise. -/
theorem enforces_iff {args : List (List Char)} (hd : ex.Decides mac w c)
    (hi : Invokes command args) :
    ex.Enforces mac U w c command args ↔
      (checkCommand U.toCasing command = none ↔ c.env.network.AllowsAll U args) ∧
        Splits U command := by
  have hs := hd.spawns_iff (U := U) hi.notBlank
  constructor
  · rintro ⟨hsp, hbl⟩
    refine ⟨hs.symm.trans hsp, ?_⟩
    cases hc : checkCommand U.toCasing command with
    | none => exact resolveEgress_ok_iff.1 ⟨none, resolveEgress_of_checkCommand hc⟩
    | some banned =>
      by_cases ha : c.env.network.AllowsAll U args
      · rw [hs.1 (hsp.2 ha)] at hc
        cases hc
      · exact (hd.blocked_iff hi.notBlank hc .timedOut).1 (hbl ha .timedOut)
  · rintro ⟨ha, hsplit⟩
    refine ⟨hs.trans ha, fun hn process => ?_⟩
    cases hc : checkCommand U.toCasing command with
    | none => exact (hn (ha.1 hc)).elim
    | some banned => exact (hd.blocked_iff hi.notBlank hc process).2 hsplit

end

/-- An envelope that lets commands reach one host. -/
def apiEnvelope : ResourceEnvelope WholeFloat :=
  { (defaultEnvelope : ResourceEnvelope WholeFloat) with
    network := ⟨"allowlist", ["api.example.com".toList]⟩ }

theorem apiEnvelope_decides : ∃ token, executeToken = .ok token ∧
    (devExecutor none).Decides executorMac (quietWorld .absent)
      (trustedCall token apiEnvelope) := by
  have hn : (apiEnvelope.cpuSeconds.lt (.finite Runtime.zero) ||
      apiEnvelope.wallclockS.lt (.finite Runtime.zero) ||
      apiEnvelope.memoryMb.lt (.finite Runtime.zero)) = false := by decide
  have hv : validateEnvelope apiEnvelope = .ok () := by
    rw [validateEnvelope, hn]
    rfl
  obtain ⟨token, hi, ha⟩ := trustedCall_admitted hv
  exact ⟨token, hi, ha, fun h => (by cases h), fun h => (by cases h), rfl⟩

/-- A URL that no rule allows is blocked. -/
theorem enforces_other_host : ∃ token, executeToken = .ok token ∧
    (devExecutor none).Enforces executorMac Url.UrlText.ascii (quietWorld .absent)
      (trustedCall token apiEnvelope) "curl -s 'https://example.org:8443/a b'".toList
      ["-s".toList, "https://example.org:8443/a b".toList] := by
  have ha : ¬ apiEnvelope.network.AllowsAll Url.UrlText.ascii
      ["-s".toList, "https://example.org:8443/a b".toList] := by decide
  obtain ⟨token, hi, hd⟩ := apiEnvelope_decides
  refine ⟨token, hi, (enforces_iff hd ⟨"curl".toList, by decide⟩).2 ⟨?_, ?_⟩⟩
  · exact iff_of_false (by decide) ha
  · exact resolveEgress_ok_iff.1 ⟨none, rfl⟩

/-- A URL that the rules allow is blocked, and one that they do not allow is not blocked where the
program is named by its path. -/
theorem firewall_not_policy : ∃ token, executeToken = .ok token ∧
    ¬ (devExecutor none).Enforces executorMac Url.UrlText.ascii (quietWorld .absent)
      (trustedCall token apiEnvelope) "curl https://api.example.com/".toList
      ["https://api.example.com/".toList] ∧
    ¬ (devExecutor none).Enforces executorMac Url.UrlText.ascii (quietWorld .absent)
      (trustedCall token apiEnvelope) "/usr/bin/curl https://example.org/".toList
      ["https://example.org/".toList] := by
  have ha : apiEnvelope.network.AllowsAll Url.UrlText.ascii
      ["https://api.example.com/".toList] := by decide
  have hn : ¬ apiEnvelope.network.AllowsAll Url.UrlText.ascii
      ["https://example.org/".toList] := by decide
  obtain ⟨token, hi, hd⟩ := apiEnvelope_decides
  refine ⟨token, hi, fun h => ?_, fun h => ?_⟩
  · have hs := (hd.spawns_iff (by decide)).1 (h.spawns_iff.2 ha)
    exact absurd hs (by decide)
  · exact hn (h.spawns_iff.1 ((hd.spawns_iff (by decide)).2 (by decide +kernel)))

end Obase.Executor
