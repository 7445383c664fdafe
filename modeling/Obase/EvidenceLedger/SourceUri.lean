import Mathlib.Data.List.Sort
import Mathlib.Data.Prod.Lex
import Mathlib.Data.String.Basic
import Obase.Url.Split

namespace Obase.EvidenceLedger
set_option autoImplicit true
open Url

/-- What the functions of the ledger raise: `EvidenceRecordError` with its text, or with the line
of the ledger that it is about, and two errors of the library that are not caught. -/
inductive EvidenceError where
  | record (message : String)
  | notStrictJson
  | invalidJson (lineNo : Nat)
  | invalidRecord (lineNo : Nat) (cause : EvidenceError)
  | valueError
  | overflowError
deriving DecidableEq

def allowedSchemes : List (List Char) :=
  ["https".toList, "http".toList, "file".toList, "artifact".toList, "local".toList]

/-- `_SECRET_QUERY_KEYS`. -/
def secretQueryKeys : List (List Char) :=
  ["access_token".toList, "api_key".toList, "apikey".toList, "auth".toList,
    "authorization".toList, "password".toList, "secret".toList, "signature".toList,
    "token".toList]

def isWeb (scheme : List Char) : Bool := ["http".toList, "https".toList].contains scheme

def isDefaultPort (scheme : List Char) (port : Nat) : Bool :=
  (scheme = "http".toList ∧ port = 80) ∨ (scheme = "https".toList ∧ port = 443)

def bracketHost (host : List Char) : List Char :=
  if ':' ∈ host ∧ host.head? ≠ some '[' then '[' :: host ++ [']'] else host

/-- A port is written unless it is zero or that of the scheme. -/
def portSuffix (scheme : List Char) : Option Nat → List Char
  | some port =>
    if port ≠ 0 ∧ ¬ isDefaultPort scheme port then ':' :: Nat.toDigits 10 port else []
  | none => []

def canonicalNetloc (U : UrlText) (scheme netloc : List Char) : Except EvidenceError (List Char) :=
  match hostname U netloc with
  | none => .error (.record "source_uri must have a host and contain no user credentials")
  | some host =>
    if '@' ∈ netloc then
      .error (.record "source_uri must have a host and contain no user credentials")
    else
      match port netloc with
      | none => .error (.record "source_uri has an invalid port")
      | some port => .ok (bracketHost (U.lower host) ++ portSuffix scheme port)

/-- The order of `sorted` on pairs of strings. -/
def pairLe (p q : List Char × List Char) : Prop := toLex p ≤ toLex q

instance : DecidableRel pairLe := fun p q => inferInstanceAs (Decidable (toLex p ≤ toLex q))

instance : Std.Total pairLe := ⟨fun p q => le_total (toLex p) (toLex q)⟩

instance : IsTrans (List Char × List Char) pairLe := ⟨fun _ _ _ hp hq => le_trans hp hq⟩

def canonicalQuery (U : UrlText) (query : List Char) : List Char :=
  urlencode ((parseQsl U.decode query).insertionSort pairLe)

def secretKey (U : UrlText) (query : List Char) : Option (List Char) :=
  ((parseQsl U.decode query).map Prod.fst).find? fun key => secretQueryKeys.contains (U.lower key)

def canonicalParts (U : UrlText) (parts : SplitResult) : Except EvidenceError SplitResult :=
  let scheme := U.lower parts.scheme
  if !allowedSchemes.contains scheme then
    .error (.record "source_uri scheme must be http, https, file, artifact, or local")
  else if isWeb scheme then do
    let netloc ← canonicalNetloc U scheme parts.netloc
    match secretKey U parts.query with
    | some key =>
      .error (.record (String.ofList
        ("source_uri contains a credential query parameter: ".toList ++ key)))
    | none =>
      .ok ⟨scheme, netloc, if parts.path = [] then ['/'] else parts.path,
        canonicalQuery U parts.query, []⟩
  else if '@' ∈ parts.netloc then .error (.record "source_uri must not contain credentials")
  else .ok ⟨scheme, parts.netloc, parts.path, parts.query, []⟩

/-- `_canonical_source_uri`. -/
def canonicalSourceUri (U : UrlText) (value : List Char) : Except EvidenceError (List Char) :=
  if Text.strip value = [] then .error (.record "source_uri is required")
  else
    match urlsplit U (Text.strip value) with
    | none => .error .valueError
    | some parts => (canonicalParts U parts).map urlunsplit

section Netloc
variable {U : UrlText}

theorem canonicalNetloc_ok {scheme netloc new : List Char} :
    canonicalNetloc U scheme netloc = .ok new ↔
      '@' ∉ netloc ∧ (hostinfo netloc).1 ≠ [] ∧ ∃ q, port netloc = some q ∧
        new = bracketHost (lowerHost U (hostinfo netloc).1) ++ portSuffix scheme q := by
  rw [canonicalNetloc]
  cases hn : hostname U netloc with
  | none =>
    apply iff_of_false (fun h => nomatch h)
    rintro ⟨-, hne, -⟩
    obtain ⟨name, hs, -⟩ := hostname_of_ne_nil (U := U) hne
    rw [hn] at hs
    cases hs
  | some name =>
    obtain ⟨hne, hl⟩ := hostname_eq_some hn
    dsimp only
    by_cases ha : '@' ∈ netloc
    · rw [if_pos ha]
      exact iff_of_false (fun h => nomatch h) fun h => h.1 ha
    · rw [if_neg ha]
      cases hp : port netloc with
      | none =>
        apply iff_of_false (fun h => nomatch h)
        rintro ⟨-, -, q, hq, -⟩
        cases hq
      | some q =>
        dsimp only
        rw [hl]
        constructor
        · intro h
          cases h
          exact ⟨ha, hne, q, rfl, rfl⟩
        · rintro ⟨-, -, q', hq, rfl⟩
          cases hq
          rfl

/-- The host of an accepted netloc that has no user. -/
structure Hosted (U : UrlText) (host : List Char) : Prop where
  closed : ']' ∉ host
  user : '@' ∉ host
  literal : ':' ∈ host → U.isIpLiteral host = true
  chars : ∀ c ∈ host, isNetlocChar c = true

theorem hosted_of_valid {netloc : List Char} (ha : '@' ∉ netloc)
    (hc : ∀ c ∈ netloc, isNetlocChar c = true) (hv : validNetloc U netloc = true) :
    Hosted U (hostinfo netloc).1 := by
  by_cases hm : '[' ∈ netloc
  · obtain ⟨host, rest, rfl, hn⟩ := bracketed_of_valid ha hm hv
    have hsub : ∀ c ∈ host, c ∈ '[' :: (host ++ ']' :: rest) := fun c h =>
      .tail _ (List.mem_append_left _ h)
    rw [hostinfo_bracketed ha hn]
    exact ⟨hn, fun h => ha (hsub _ h), fun _ => ((validNetloc_bracketed ha hn).1 hv).2.1,
      fun c h => hc c (hsub c h)⟩
  · have hclose : ']' ∉ netloc := by
      simp only [validNetloc, Bool.and_eq_true, beq_iff_eq, decide_eq_decide] at hv
      exact fun h => hm (hv.1.1.2 h)
    have hsub : ∀ c ∈ (partition ':' netloc).1, c ∈ netloc := fun c h =>
      (partition_fst_initial ':' netloc).subset h
    rw [hostinfo_plain ha hm]
    exact ⟨fun h => hclose (hsub _ h), fun h => ha (hsub _ h),
      fun h => (not_mem_partition_fst ':' netloc h).elim, fun c h => hc c (hsub c h)⟩

theorem Hosted.lower {host : List Char} (h : Hosted U host) : Hosted U (lowerHost U host) where
  closed := fun hm => h.closed (mem_of_mem_lowerHost hm (by decide) (by decide))
  user := fun hm => h.user (mem_of_mem_lowerHost hm (by decide) (by decide))
  literal := fun hm =>
    isIpLiteral_lowerHost (h.literal (mem_of_mem_lowerHost hm (by decide) (by decide)))
  chars := by
    intro c hm
    by_contra hs
    simp only [isNetlocChar, decide_eq_true_eq, not_not] at hs
    have hmark : c.toNat < 128 ∧ c.isLower = false :=
      Text.forall_mem_of_all (P := fun c => c.toNat < 128 ∧ c.isLower = false) (by decide) c hs
    have hc := h.chars c (mem_of_mem_lowerHost hm hmark.1 hmark.2)
    simp only [isNetlocChar, decide_eq_true_eq] at hc
    exact hc hs

theorem bracketHost_address {host : List Char} (h : Hosted U host) (hm : ':' ∈ host)
    (rest : List Char) : bracketHost host ++ rest = '[' :: (host ++ ']' :: rest) := by
  rw [bracketHost, if_pos ⟨hm, U.isIpLiteral_head host (h.literal hm)⟩]
  simp

theorem bracketHost_name {host : List Char} (hm : ':' ∉ host) : bracketHost host = host :=
  if_neg fun h => hm h.1

theorem portSuffix_cases (scheme : List Char) (q : Option Nat) :
    portSuffix scheme q = [] ∨
      ∃ n, q = some n ∧ (n ≠ 0 ∧ ¬ isDefaultPort scheme n) ∧
        portSuffix scheme q = ':' :: Nat.toDigits 10 n := by
  cases q with
  | none => exact .inl rfl
  | some n =>
    rw [portSuffix]
    split
    · rename_i h
      exact .inr ⟨n, rfl, h, rfl⟩
    · exact .inl rfl

theorem mem_portSuffix {scheme : List Char} {q : Option Nat} {c : Char}
    (h : c ∈ portSuffix scheme q) : c = ':' ∨ c.isDigit = true := by
  rcases portSuffix_cases scheme q with he | ⟨n, -, -, he⟩
  · rw [he] at h
    cases h
  · rw [he] at h
    rcases List.mem_cons.1 h with hc | hc
    · exact .inl hc
    · exact .inr (digits_of_toDigits c hc)

theorem not_mem_portSuffix (scheme : List Char) (q : Option Nat) {c : Char} (hc : c ≠ ':')
    (hd : c.isDigit = false) : c ∉ portSuffix scheme q := by
  intro h
  rcases mem_portSuffix h with he | he
  · exact hc he
  · rw [hd] at he
    cases he

theorem portSuffix_head (scheme : List Char) (q : Option Nat) :
    portSuffix scheme q = [] ∨ (portSuffix scheme q).head? = some ':' := by
  rcases portSuffix_cases scheme q with he | ⟨n, -, -, he⟩
  · exact .inl he
  · exact .inr (by rw [he]; rfl)

theorem port_le {netloc : List Char} {n : Nat} (h : port netloc = some (some n)) : n ≤ 65535 := by
  rw [port] at h
  split at h
  · cases h
  · split at h
    · rename_i hp
      cases h
      exact hp.2
    · cases h

/-- The port of a netloc is read back from what is written of it. -/
theorem port_of_suffix {netloc new scheme : List Char} {q : Option Nat}
    (hq : port netloc = some q) (hi : (hostinfo new).2 = (portSuffix scheme q).tail) :
    ∃ q', port new = some q' ∧ portSuffix scheme q' = portSuffix scheme q := by
  rw [port, hi]
  rcases portSuffix_cases scheme q with he | ⟨n, rfl, hn, he⟩
  · rw [he]
    exact ⟨none, rfl, rfl⟩
  · have hd : (Nat.toDigits 10 n).all Char.isDigit = true :=
      List.all_eq_true.2 digits_of_toDigits
    have hp : portNumber (Nat.toDigits 10 n) = n := Nat.ofDigitChars_ten_toDigits
    rw [he, List.tail_cons, if_neg Nat.toDigits_ne_nil, hp, if_pos ⟨hd, port_le hq⟩]
    exact ⟨some n, rfl, he⟩

/-- The host is an address of a later version of IP whose brackets are lost: it has a bracket of
its own and no colon. -/
def LosesBracket (netloc : List Char) : Prop :=
  '[' ∈ (hostinfo netloc).1 ∧ ':' ∉ (hostinfo netloc).1

instance (netloc : List Char) : Decidable (LosesBracket netloc) :=
  inferInstanceAs (Decidable (_ ∧ _))

theorem losesBracket_lower {host : List Char} :
    ('[' ∈ lowerHost U host ∧ ':' ∉ lowerHost U host) ↔ '[' ∈ host ∧ ':' ∉ host := by
  have hi (c : Char) (hc : c.toNat < 128) (hl : c.isLower = false) (hu : c.toLower = c) :
      c ∈ lowerHost U host ↔ c ∈ host :=
    ⟨fun h => mem_of_mem_lowerHost h hc hl, fun h => mem_lowerHost_of_mem h hc hu⟩
  rw [hi '[' (by decide) (by decide) (by decide), hi ':' (by decide) (by decide) (by decide)]

theorem hostinfo_join {host : List Char} (scheme : List Char) (q : Option Nat) (h : Hosted U host)
    (hb : ¬ ('[' ∈ host ∧ ':' ∉ host)) :
    hostinfo (bracketHost host ++ portSuffix scheme q) = (host, (portSuffix scheme q).tail) := by
  have hs : '@' ∉ portSuffix scheme q := not_mem_portSuffix scheme q (by decide) (by decide)
  by_cases hm : ':' ∈ host
  · have ha : '@' ∉ '[' :: (host ++ ']' :: portSuffix scheme q) := by
      simp [h.user, hs]
    rw [bracketHost_address h hm, hostinfo_bracketed ha h.closed]
    rcases portSuffix_cases scheme q with he | ⟨n, -, -, he⟩
    · rw [he]
      rfl
    · rw [he]
      exact congrArg (Prod.mk host) (congrArg Prod.snd (partition_append (x := []) (by simp) _))
  · have ho : '[' ∉ host := fun hin => hb ⟨hin, hm⟩
    have ha : '@' ∉ host ++ portSuffix scheme q := by
      simp [h.user, hs]
    have hb' : '[' ∉ host ++ portSuffix scheme q := by
      simp [ho, not_mem_portSuffix scheme q (c := '[') (by decide) (by decide)]
    rw [bracketHost_name hm, hostinfo_plain ha hb']
    rcases portSuffix_cases scheme q with he | ⟨n, -, -, he⟩
    · rw [he, List.append_nil, partition_of_not_mem hm]
      rfl
    · rw [he, partition_append hm]
      rfl

theorem mem_join {host scheme : List Char} {q : Option Nat} {c : Char}
    (h : c ∈ bracketHost host ++ portSuffix scheme q) :
    c ∈ host ∨ c ∈ ['[', ']', ':'] ∨ c.isDigit = true := by
  rcases List.mem_append.1 h with h | h
  · rw [bracketHost] at h
    split at h
    · simp only [List.cons_append, List.mem_cons, List.mem_append, List.not_mem_nil,
        or_false] at h ⊢
      tauto
    · exact .inl h
  · rcases mem_portSuffix h with rfl | h
    · exact .inr (.inl (by decide))
    · exact .inr (.inr h)

theorem isNetlocChar_of_isDigit {c : Char} (h : c.isDigit = true) : isNetlocChar c = true := by
  by_contra hs
  simp only [isNetlocChar, decide_eq_true_eq, not_not] at hs
  have hf : c.isDigit = false :=
    Text.forall_mem_of_all (P := fun c => c.isDigit = false) (by decide) c hs
  rw [h] at hf
  cases hf

theorem isNetlocChar_join {host scheme : List Char} {q : Option Nat} (h : Hosted U host) :
    ∀ c ∈ bracketHost host ++ portSuffix scheme q, isNetlocChar c = true := by
  intro c hc
  rcases mem_join hc with hc | hc | hc
  · exact h.chars c hc
  · exact Text.forall_mem_of_all (P := fun c => isNetlocChar c = true) (by decide) c hc
  · exact isNetlocChar_of_isDigit hc

theorem hostinfo_subset {netloc : List Char} (ha : '@' ∉ netloc)
    (hv : validNetloc U netloc = true) : (hostinfo netloc).1 ⊆ netloc := by
  by_cases hm : '[' ∈ netloc
  · obtain ⟨host, rest, rfl, hn⟩ := bracketed_of_valid ha hm hv
    rw [hostinfo_bracketed ha hn]
    exact fun c h => .tail _ (List.mem_append_left _ h)
  · rw [hostinfo_plain ha hm]
    exact (partition_fst_initial ':' netloc).subset

theorem checkNetloc_of_valid {netloc : List Char} (h : validNetloc U netloc = true) :
    checkNetloc U netloc = true := by
  rw [validNetloc, Bool.and_eq_true] at h
  exact h.2

theorem checkNetloc_join {netloc : List Char} (scheme : List Char) (q : Option Nat) (ha : '@' ∉ netloc)
    (hc : ∀ c ∈ netloc, isNetlocChar c = true) (hv : validNetloc U netloc = true) :
    checkNetloc U
      (bracketHost (lowerHost U (hostinfo netloc).1) ++ portSuffix scheme q) = true := by
  apply checkNetloc_of_hides (checkNetloc_of_valid hv)
    (isNetlocChar_join (hosted_of_valid ha hc hv).lower)
  intro c hm hh hn
  rcases mem_join hm with hm | hm | hm
  · exact hostinfo_subset ha hv (hides_of_mem_lowerHost hm hh)
  · exact (hn (Text.forall_mem_of_all (P := fun c => c.toNat < 128) (by decide) c hm)).elim
  · exact (hn (ascii_of_isDigit hm)).elim

/-- A canonical netloc is accepted unless it lost a bracket. -/
theorem validNetloc_join_iff {netloc scheme : List Char} {q : Option Nat} (ha : '@' ∉ netloc)
    (hc : ∀ c ∈ netloc, isNetlocChar c = true) (hv : validNetloc U netloc = true) :
    validNetloc U (bracketHost (lowerHost U (hostinfo netloc).1) ++ portSuffix scheme q) = true ↔
      ¬ LosesBracket netloc := by
  have hk := checkNetloc_join scheme q ha hc hv
  have h := (hosted_of_valid ha hc hv).lower
  have hs : '@' ∉ portSuffix scheme q := not_mem_portSuffix scheme q (by decide) (by decide)
  have hcl : ']' ∉ portSuffix scheme q := not_mem_portSuffix scheme q (by decide) (by decide)
  rw [LosesBracket, ← losesBracket_lower (U := U)]
  by_cases hm : ':' ∈ lowerHost U (hostinfo netloc).1
  · have hu : '@' ∉ '[' :: (lowerHost U (hostinfo netloc).1 ++ ']' :: portSuffix scheme q) := by
      simp [h.user, hs]
    rw [bracketHost_address h hm] at hk ⊢
    rw [validNetloc_bracketed hu h.closed]
    exact iff_of_true ⟨portSuffix_head scheme q, h.literal hm, hk⟩ fun hl => hl.2 hm
  · rw [bracketHost_name hm] at hk ⊢
    have hc' : ']' ∉ lowerHost U (hostinfo netloc).1 ++ portSuffix scheme q := by
      simp [h.closed, hcl]
    by_cases ho : '[' ∈ lowerHost U (hostinfo netloc).1
    · apply iff_of_false _ (not_not.2 ⟨ho, hm⟩)
      have hin : '[' ∈ lowerHost U (hostinfo netloc).1 ++ portSuffix scheme q :=
        List.mem_append_left _ ho
      simp [validNetloc, hin, hc']
    · have ho' : '[' ∉ lowerHost U (hostinfo netloc).1 ++ portSuffix scheme q := by
        simp [ho, not_mem_portSuffix scheme q (c := '[') (by decide) (by decide)]
      rw [validNetloc_plain ho' hc']
      exact iff_of_true hk fun hl => ho hl.1

theorem canonicalNetloc_again {scheme netloc new : List Char}
    (hc : ∀ c ∈ netloc, isNetlocChar c = true) (hv : validNetloc U netloc = true)
    (hl : ¬ LosesBracket netloc) (h : canonicalNetloc U scheme netloc = .ok new) :
    canonicalNetloc U scheme new = .ok new := by
  obtain ⟨ha, hne, q, hq, rfl⟩ := canonicalNetloc_ok.1 h
  have hh := (hosted_of_valid ha hc hv).lower
  rw [LosesBracket, ← losesBracket_lower (U := U)] at hl
  have hi := hostinfo_join scheme q hh hl
  obtain ⟨q', hq', he⟩ := port_of_suffix hq (congrArg Prod.snd hi)
  apply canonicalNetloc_ok.2
  refine ⟨?_, ?_, q', hq', ?_⟩
  · intro hin
    rcases mem_join hin with hin | hin | hin
    · exact hh.user hin
    · exact absurd hin (by decide)
    · exact absurd hin (by decide)
  · rw [hi]
    exact lowerHost_ne_nil hne
  · rw [hi, lowerHost_lowerHost, he]

end Netloc

section Parts
variable {U : UrlText}

theorem allowed_ascii : ∀ scheme ∈ allowedSchemes, scheme.head?.any Char.isAlpha = true ∧
    (scheme.all fun c => isSchemeChar c && decide (c.toNat < 128)) = true ∧
    scheme.map Char.toLower = scheme := by
  decide

theorem allowed_chars {scheme : List Char} (h : scheme ∈ allowedSchemes) :
    (scheme.all isSchemeChar = true) ∧ ∀ c ∈ scheme, c.toNat < 128 := by
  have ha := List.all_eq_true.1 (allowed_ascii scheme h).2.1
  simp only [Bool.and_eq_true, decide_eq_true_eq] at ha
  exact ⟨List.all_eq_true.2 fun c hc => (ha c hc).1, fun c hc => (ha c hc).2⟩

theorem lower_allowed {scheme : List Char} (h : scheme ∈ allowedSchemes) :
    U.lower scheme = scheme := by
  rw [U.lower_ascii (allowed_chars h).2, (allowed_ascii scheme h).2.2]

/-- The canonical components, by the kind of scheme. -/
inductive Canonical (U : UrlText) (p : SplitResult) : SplitResult → Prop where
  | web {netloc : List Char} (hs : U.lower p.scheme ∈ allowedSchemes)
      (hw : isWeb (U.lower p.scheme) = true)
      (hn : canonicalNetloc U (U.lower p.scheme) p.netloc = .ok netloc)
      (hk : secretKey U p.query = none) :
      Canonical U p ⟨U.lower p.scheme, netloc, if p.path = [] then ['/'] else p.path,
        canonicalQuery U p.query, []⟩
  | other (hs : U.lower p.scheme ∈ allowedSchemes) (hw : isWeb (U.lower p.scheme) = false)
      (ha : '@' ∉ p.netloc) : Canonical U p ⟨U.lower p.scheme, p.netloc, p.path, p.query, []⟩

theorem allowed_iff {scheme : List Char} :
    ¬ (!allowedSchemes.contains scheme) = true ↔ scheme ∈ allowedSchemes := by
  rw [Bool.not_eq_true, Bool.not_eq_false', List.contains_iff_mem]

theorem canonicalParts_ok {p r : SplitResult} :
    canonicalParts U p = .ok r ↔ Canonical U p r := by
  rw [canonicalParts]
  constructor
  · intro h
    split at h
    · cases h
    · rename_i hs
      split at h
      · rename_i hw
        obtain ⟨netloc, hn, h⟩ := bind_ok h
        split at h
        · cases h
        · rename_i hk
          cases h
          exact .web (allowed_iff.1 hs) hw hn hk
      · rename_i hw
        split at h
        · cases h
        · rename_i ha
          cases h
          exact .other (allowed_iff.1 hs) (Bool.eq_false_iff.2 hw) ha
  · intro h
    cases h with
    | web hs hw hn hk =>
      rw [if_neg (allowed_iff.2 hs), if_pos hw, hn, hk]
      rfl
    | other hs hw ha =>
      rw [if_neg (allowed_iff.2 hs), if_neg (by simp [hw]), if_neg ha]

theorem Canonical.scheme_eq {p r : SplitResult} (h : Canonical U p r) :
    r.scheme = U.lower p.scheme ∧ r.scheme ∈ allowedSchemes := by
  cases h with
  | web hs _ _ _ => exact ⟨rfl, hs⟩
  | other hs _ _ => exact ⟨rfl, hs⟩

theorem canonicalQuery_chars {query : List Char} {c : Char} (h : c ∈ canonicalQuery U query) :
    isQuoted c = true ∨ c = '&' ∨ c = '=' :=
  mem_urlencode h

theorem mark_facts {c : Char} (h : isQuoted c = true ∨ c = '&' ∨ c = '=') :
    c ≠ '#' ∧ Text.isSpace c = false ∧ c ∉ ['\t', '\r', '\n'] := by
  have ha : c.toNat < 128 := by
    rcases h with h | rfl | rfl
    · exact ascii_of_quoted h
    · decide
    · decide
  exact Text.forall_ascii (P := fun c => (isQuoted c = true ∨ c = '&' ∨ c = '=') →
    c ≠ '#' ∧ Text.isSpace c = false ∧ c ∉ ['\t', '\r', '\n']) (by decide +kernel) ha h

variable {x : List Char}

theorem Canonical.netloc_chars {r : SplitResult} (h : Canonical U (components x) r)
    (hv : validNetloc U (components x).netloc = true) :
    ∀ c ∈ r.netloc, isNetlocChar c = true := by
  cases h with
  | web hs hw hn hk =>
    obtain ⟨ha, hne, q, hq, rfl⟩ := canonicalNetloc_ok.1 hn
    exact isNetlocChar_join (hosted_of_valid ha (components_netloc x) hv).lower
  | other hs hw ha => exact components_netloc x

theorem netloc_ne_nil {netloc : List Char} (h : (hostinfo netloc).1 ≠ []) : netloc ≠ [] := by
  rintro rfl
  exact h (by decide)

/-- Canonical components stand for themselves in the canonical text. -/
theorem Canonical.separate {r : SplitResult} (h : Canonical U (components x) r)
    (hv : validNetloc U (components x).netloc = true) : Separate r := by
  have hs := h.scheme_eq.2
  have hn := h.netloc_chars hv
  have hf := allowed_ascii r.scheme hs
  refine ⟨hf.1, (allowed_chars hs).1, hf.2.2, hn, ?_, ?_, ?_, ?_⟩
  · cases h with
    | web hs hw hnet hk =>
      dsimp only
      split
      · decide
      · exact components_path x
    | other hs hw ha => exact components_path x
  · cases h with
    | web hs hw hnet hk => exact fun hm => (mark_facts (canonicalQuery_chars hm)).1 rfl
    | other hs hw ha => exact components_query x
  · cases h with
    | web hs hw hnet hk => rfl
    | other hs hw ha => rfl
  · cases h with
    | web hs hw hnet hk =>
      obtain ⟨-, hne, -⟩ := canonicalNetloc_ok.1 hnet
      intro _
      dsimp only
      split
      · exact .inr rfl
      · rename_i hp
        exact .inr ((components_rooted x (netloc_ne_nil hne)).resolve_left hp)
    | other hs hw ha => exact components_rooted x

theorem isDigit_clean {c : Char} (h : c.isDigit = true) : c ∉ ['\t', '\r', '\n'] :=
  (mark_facts (.inl (by rw [isQuoted, Char.isAlphanum, h, Bool.or_true, Bool.true_or]))).2.2

theorem Canonical.clean {r : SplitResult} (h : Canonical U (components x) r)
    (hv : validNetloc U (components x).netloc = true)
    (hx : ∀ c ∈ x, c ∉ ['\t', '\r', '\n']) : ∀ c ∈ urlunsplit r, c ∉ ['\t', '\r', '\n'] := by
  have hparts : ∀ c ∈ r.netloc ++ r.path ++ r.query, c ∉ ['\t', '\r', '\n'] := by
    have hin (c : Char) (hc : c ∈ (components x).netloc ++ (components x).path ++
        (components x).query) : c ∉ ['\t', '\r', '\n'] := hx c (components_mem hc)
    cases h with
    | web hs hw hn hk =>
      obtain ⟨ha, -, q, -, rfl⟩ := canonicalNetloc_ok.1 hn
      intro c hc
      rcases List.mem_append.1 hc with hc | hc
      · rcases List.mem_append.1 hc with hc | hc
        · rcases mem_join hc with hc | hc | hc
          · intro hm
            have hl : c.toNat < 128 ∧ c.isLower = false :=
              Text.forall_mem_of_all (P := fun c => c.toNat < 128 ∧ c.isLower = false)
                (by decide) c hm
            have hsub := hostinfo_subset ha hv (mem_of_mem_lowerHost hc hl.1 hl.2)
            exact hin c (List.mem_append_left _ (List.mem_append_left _ hsub)) hm
          · exact Text.forall_mem_of_all (P := fun c => c ∉ ['\t', '\r', '\n']) (by decide) c hc
          · exact isDigit_clean hc
        · dsimp only at hc
          split at hc
          · rw [List.mem_singleton.1 hc]
            decide
          · exact hin c (List.mem_append_left _ (List.mem_append_right _ hc))
      · exact (mark_facts (canonicalQuery_chars hc)).2.2
    | other hs hw ha => exact hin
  intro c hc
  rcases mem_urlunsplit (h.separate hv).fragment hc with hc | hc | rfl | rfl | ⟨rfl, -⟩
  · intro hm
    have hf : isSchemeChar c = false :=
      Text.forall_mem_of_all (P := fun c => isSchemeChar c = false) (by decide) c hm
    rw [List.all_eq_true.1 (allowed_chars h.scheme_eq.2).1 c hc] at hf
    cases hf
  · exact hparts c hc
  · decide
  · decide
  · decide

end Parts

end Obase.EvidenceLedger
