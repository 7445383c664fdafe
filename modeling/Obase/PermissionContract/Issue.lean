import Obase.PermissionContract.Token

namespace Obase.PermissionContract
set_option autoImplicit true
open Json

/-- Some call of `issue_capability_token` returned the token. -/
def Issued (F : Type) [Runtime F] (mac : List UInt8 → List UInt8 → List UInt8) (secret : String)
    (token : List Char) : Prop :=
  ∃ (subject : String) (capabilities : List String) (envelopeRef : Option String) (ttl : PyFloat F)
    (issuer : String) (nonce : Option String) (now : F) (drawn : String),
    issueCapabilityToken mac secret subject capabilities envelopeRef ttl issuer nonce now drawn =
      .ok token

/-- A token whose signature fits its payload was issued: nobody without the secret has signed it. -/
def Unforged (F : Type) [Runtime F] (mac : List UInt8 → List UInt8 → List UInt8) (secret : String)
    (token : List Char) : Prop :=
  ∀ payloadB64 signature, token = payloadB64 ++ '.' :: signature →
    sign mac secret payloadB64 = .ok signature → Issued F mac secret token

def RaisesCapabilityError (r : Except TokenError α) : Prop :=
  (∃ message, r = .error (.capability message)) ∨ ∃ message, r = .error (.expired message)

theorem issuedPayload_build (subject : String) (capabilities : List String)
    (envelopeRef : Option String) (issuer : String) (issuedAt expiresAt : PyFloat F)
    (nonce : String) :
    (issuedPayload subject capabilities envelopeRef issuer issuedAt expiresAt nonce).build =
      issuedPayload subject capabilities envelopeRef issuer issuedAt expiresAt nonce := by
  apply Value.build_of_distinct
  have hlist : ∀ ss : List String, Value.DistinctList (ss.map (.str : String → Json F)) := by
    intro ss
    induction ss with
    | nil => trivial
    | cons s ss ih => exact ⟨trivial, ih⟩
  have henv : Value.Distinct (envelopeRef.elim .null .str : Json F) := by
    cases envelopeRef with
    | none => trivial
    | some ref => trivial
  refine ⟨?_, trivial, hlist _, henv, trivial, trivial, trivial, trivial, trivial⟩
  change List.Nodup ["sub", "caps", "env", "iss", "iat", "exp", "nonce"]
  decide

section
variable [Runtime F]

/-- The token has the fields that it was issued with. -/
structure CapabilityToken.Carries (tok : CapabilityToken F) (subject : String)
    (capabilities : List String) (envelopeRef : Option String) (issuer : String)
    (issuedAt expiresAt : PyFloat F) (nonce : String) : Prop where
  subject : tok.subject = .str subject
  capabilities : ∀ v, v ∈ tok.capabilities ↔ ∃ cap ∈ capabilities, v = .str cap
  envelopeRef : tok.envelopeRef = envelopeRef.elim .null .str
  issuer : tok.issuer = .str issuer
  issuedAt : tok.issuedAt = issuedAt
  expiresAt : tok.expiresAt = expiresAt
  nonce : tok.nonce = .str nonce

theorem sign_printable (mac : List UInt8 → List UInt8 → List UInt8) (secret : String)
    {payloadB64 : List Char} (h : Printable payloadB64) :
    sign mac secret payloadB64 =
      .ok (Base64.unpadded (mac (utf8 secret.toList) (utf8 payloadB64))) := by
  rw [sign, encodeAscii_printable h]
  rfl

theorem sign_eq_ok {mac : List UInt8 → List UInt8 → List UInt8} {secret : String}
    {payloadB64 signature : List Char} (h : sign mac secret payloadB64 = .ok signature) :
    Printable signature ∧ '.' ∉ signature := by
  obtain ⟨message, -, rfl⟩ := map_ok h
  exact ⟨unpadded_printable _, fun hm => (Base64.unpadded_isDigit _ _ hm).2.2 rfl⟩

theorem frozenset_strs (ss : List String) :
    frozenset (F := F) (.list (ss.map .str)) = .ok (Runtime.setOrder (ss.map .str)) := by
  apply if_pos
  rw [List.all_map, List.all_eq_true]
  exact fun _ _ => rfl

section
variable (subject : String) (capabilities : List String) (envelopeRef : Option String)
  (issuer : String) (issuedAt expiresAt : PyFloat F) (nonce : String)

/-- What is read back from the payload. -/
def issuedToken : CapabilityToken F :=
  ⟨.str subject, Runtime.setOrder ((capabilities.dedup.insertionSort (· ≤ ·)).map .str),
    envelopeRef.elim .null .str, .str issuer, issuedAt, expiresAt, .str nonce⟩

theorem fromPayload_issuedPayload :
    CapabilityToken.fromPayload
      (issuedPayload subject capabilities envelopeRef issuer issuedAt expiresAt nonce) =
      .ok (issuedToken subject capabilities envelopeRef issuer issuedAt expiresAt nonce) := by
  have hm : CapabilityToken.fromPayload
      (issuedPayload subject capabilities envelopeRef issuer issuedAt expiresAt nonce) =
      (frozenset (.list ((capabilities.dedup.insertionSort (· ≤ ·)).map .str))).map fun caps =>
        ⟨.str subject, caps, envelopeRef.elim .null .str, .str issuer, issuedAt, expiresAt,
          .str nonce⟩ := rfl
  rw [hm, frozenset_strs]
  rfl

theorem issuedToken_carries :
    (issuedToken subject capabilities envelopeRef issuer issuedAt expiresAt nonce).Carries subject
      capabilities envelopeRef issuer issuedAt expiresAt nonce := by
  refine ⟨rfl, fun v => ?_, rfl, rfl, rfl, rfl, rfl⟩
  rw [issuedToken, Runtime.mem_setOrder, List.mem_map]
  constructor
  · rintro ⟨cap, hm, rfl⟩
    rw [List.mem_insertionSort, List.mem_dedup] at hm
    exact ⟨cap, hm, rfl⟩
  · rintro ⟨cap, hm, rfl⟩
    refine ⟨cap, ?_, rfl⟩
    rw [List.mem_insertionSort, List.mem_dedup]
    exact hm

end

section
variable {mac : List UInt8 → List UInt8 → List UInt8} {secret : String}
  {payloadB64 signature : List Char} (revoker : Option CapabilityRevoker) (now : F)

theorem verify_of_no_stop {token : List Char} (h : '.' ∉ token) :
    RaisesCapabilityError (verifyCapabilityToken mac secret token revoker now) := by
  rw [verifyCapabilityToken]
  split
  · exact .inl ⟨_, rfl⟩
  · rw [Separated.rsplit_eq_none.2 h]
    exact .inl ⟨_, rfl⟩

theorem isAscii_split :
    isAscii (payloadB64 ++ '.' :: signature) = (isAscii payloadB64 && isAscii signature) := by
  rw [isAscii, List.all_append, List.all_cons]
  rfl

/-- A text with a full stop and a character outside ASCII is neither encoded nor compared. -/
theorem verify_of_not_ascii (hs : '.' ∉ signature)
    (ha : isAscii (payloadB64 ++ '.' :: signature) = false) :
    ∃ e, verifyCapabilityToken mac secret (payloadB64 ++ '.' :: signature) revoker now =
      .error (.raised e) := by
  have hne : payloadB64 ++ '.' :: signature ≠ [] := by simp
  simp only [verifyCapabilityToken, if_neg hne, Separated.rsplit_append hs]
  rw [isAscii_split, Bool.and_eq_false_iff] at ha
  by_cases hp : isAscii payloadB64 = true
  · have hsig : isAscii signature = false := ha.resolve_left (by simp [hp])
    have hsign : sign mac secret payloadB64 =
        .ok (Base64.unpadded (mac (utf8 secret.toList) (utf8 payloadB64))) := by
      rw [sign, encodeAscii, if_pos hp]
      rfl
    have hc (b : List Char) : compareDigest signature b = .error .typeError := by
      rw [compareDigest, if_neg (by simp [hsig])]
    rw [hsign, Except.bind, hc]
    exact ⟨_, rfl⟩
  · have hsign : sign mac secret payloadB64 = .error .valueError := by
      rw [sign, encodeAscii, if_neg hp]
      rfl
    rw [hsign]
    exact ⟨_, rfl⟩

theorem verify_of_not_signed (hs : '.' ∉ signature)
    (ha : isAscii (payloadB64 ++ '.' :: signature) = true)
    (hn : sign mac secret payloadB64 ≠ .ok signature) :
    verifyCapabilityToken mac secret (payloadB64 ++ '.' :: signature) revoker now =
      .error (.capability "verify_capability_token: signature mismatch") := by
  have hne : payloadB64 ++ '.' :: signature ≠ [] := by simp
  simp only [verifyCapabilityToken, if_neg hne, Separated.rsplit_append hs]
  rw [isAscii_split, Bool.and_eq_true] at ha
  have hsign : sign mac secret payloadB64 =
      .ok (Base64.unpadded (mac (utf8 secret.toList) (utf8 payloadB64))) := by
    rw [sign, encodeAscii, if_pos ha.1]
    rfl
  rw [hsign] at hn ⊢
  have hb : (signature == Base64.unpadded (mac (utf8 secret.toList) (utf8 payloadB64))) = false :=
    beq_false_of_ne fun he => hn (by rw [he])
  rw [Except.bind, compareDigest_printable ha.2 (unpadded_printable _), hb]

theorem verify_of_signed (hs : sign mac secret payloadB64 = .ok signature) :
    verifyCapabilityToken mac secret (payloadB64 ++ '.' :: signature) revoker now =
      openPayload payloadB64 revoker now := by
  obtain ⟨hp, hd⟩ := sign_eq_ok hs
  have hne : payloadB64 ++ '.' :: signature ≠ [] := by simp
  simp only [verifyCapabilityToken, if_neg hne, Separated.rsplit_append hd]
  rw [hs, Except.bind, compareDigest_printable hp.isAscii hp, beq_self_eq_true]

theorem checkLive_eq_ok {tok tok' : CapabilityToken F} (h : tok.checkLive revoker now = .ok tok') :
    tok' = tok ∧ tok.isExpired now = false ∧
      revoker.elim (.ok false) (·.isRevoked tok.nonce) = .ok false := by
  rw [CapabilityToken.checkLive] at h
  split at h
  · cases h
  · rename_i he
    split at h
    · cases h
    · cases h
    · rename_i hr
      cases h
      exact ⟨rfl, Bool.eq_false_iff.2 he, hr⟩

/-- A token that is verified was signed, and has neither expired nor been revoked. -/
theorem verify_eq_ok {token : List Char} {tok : CapabilityToken F}
    (h : verifyCapabilityToken mac secret token revoker now = .ok tok) :
    ∃ payloadB64 signature, token = payloadB64 ++ '.' :: signature ∧
      sign mac secret payloadB64 = .ok signature ∧ readPayload payloadB64 = .ok tok ∧
      tok.isExpired now = false ∧ revoker.elim (.ok false) (·.isRevoked tok.nonce) = .ok false := by
  by_cases hd : '.' ∈ token
  · obtain ⟨payloadB64, signature, rfl, hs, -⟩ := Separated.exists_rsplit hd
    by_cases ha : isAscii (payloadB64 ++ '.' :: signature) = true
    · by_cases hsign : sign mac secret payloadB64 = .ok signature
      · rw [verify_of_signed revoker now hsign, openPayload] at h
        cases hr : readPayload (F := F) payloadB64 with
        | error e =>
          rw [hr] at h
          cases e with
          | valueError | keyError | typeError | attributeError | overflowError => cases h
        | ok tok' =>
          rw [hr] at h
          obtain ⟨rfl, hlive⟩ := checkLive_eq_ok revoker now h
          exact ⟨_, _, rfl, hsign, hr, hlive⟩
      · rw [verify_of_not_signed revoker now hs ha hsign] at h
        cases h
    · obtain ⟨e, he⟩ := verify_of_not_ascii revoker now hs
        (Bool.eq_false_iff.2 ha)
      rw [he] at h
      cases h
  · have hc : RaisesCapabilityError (verifyCapabilityToken mac secret token revoker now) :=
      verify_of_no_stop revoker now hd
    rcases hc with ⟨m, he⟩ | ⟨m, he⟩
    · rw [he] at h
      cases h
    · rw [he] at h
      cases h

end

section
variable (mac : List UInt8 → List UInt8 → List UInt8) {secret subject : String}
  {capabilities : List String} (envelopeRef : Option String) (ttl : PyFloat F) (issuer : String)
  (nonce : Option String) (now : F) (drawn : String) (hs : secret ≠ "") (hsub : subject ≠ "")
  (hcap : capabilities ≠ [])
include hs hsub hcap

/-- The token that is issued to a subject, and what its signature stands under. -/
theorem issue_eq_ok : ∃ payloadB64 signature,
    issueCapabilityToken mac secret subject capabilities envelopeRef ttl issuer nonce now drawn =
        .ok (payloadB64 ++ '.' :: signature) ∧
      sign mac secret payloadB64 = .ok signature ∧
      readPayload payloadB64 = CapabilityToken.fromPayload (issuedPayload subject capabilities
        envelopeRef issuer (.finite now) (expiry now ttl) (chosenNonce nonce drawn)) := by
  have hsign := sign_printable mac secret (unpadded_printable (utf8 (dumpsAscii .compact
    (issuedPayload subject capabilities envelopeRef issuer (.finite now) (expiry now ttl)
      (chosenNonce nonce drawn)))))
  refine ⟨_, _, ?_, hsign, ?_⟩
  · rw [issueCapabilityToken, if_neg hs, if_neg hsub, if_neg hcap]
    dsimp only
    rw [hsign]
  · rw [readPayload, b64decode_unpadded]
    change (loadBytes _).bind _ = _
    rw [loadBytes_dumpsAscii, issuedPayload_build]
    rfl

theorem verify_issued_eq : ∃ token,
    issueCapabilityToken mac secret subject capabilities envelopeRef ttl issuer nonce now drawn =
        .ok token ∧
      ∀ now' : F, ((PyFloat.finite Runtime.zero).lt (expiry now ttl) = true →
          (expiry now ttl).lt (.finite now') = false) →
        verifyCapabilityToken mac secret token none now' = .ok (issuedToken subject capabilities
          envelopeRef issuer (.finite now) (expiry now ttl) (chosenNonce nonce drawn)) := by
  obtain ⟨payloadB64, signature, hi, hsign, hread⟩ :=
    issue_eq_ok mac envelopeRef ttl issuer nonce now drawn hs hsub hcap
  refine ⟨_, hi, fun now' hlive => ?_⟩
  rw [verify_of_signed none now' hsign, openPayload, hread, fromPayload_issuedPayload]
  apply if_neg
  rw [CapabilityToken.isExpired, Bool.and_eq_true]
  rintro ⟨hpos, hlt⟩
  have hlive := hlive hpos
  rw [show (expiry now ttl).lt (.finite now') = true from hlt] at hlive
  cases hlive

/-- A token is verified as long as it has not expired, with the fields that it was issued with. -/
theorem verify_issued : ∃ token,
    issueCapabilityToken mac secret subject capabilities envelopeRef ttl issuer nonce now drawn =
        .ok token ∧
      ∀ now' : F, ((PyFloat.finite Runtime.zero).lt (expiry now ttl) = true →
          (expiry now ttl).lt (.finite now') = false) →
        ∃ tok, verifyCapabilityToken mac secret token none now' = .ok tok ∧
          tok.Carries subject capabilities envelopeRef issuer (.finite now) (expiry now ttl)
            (chosenNonce nonce drawn) := by
  obtain ⟨token, hi, hv⟩ :=
    verify_issued_eq mac envelopeRef ttl issuer nonce now drawn hs hsub hcap
  exact ⟨token, hi, fun now' hlive => ⟨_, hv now' hlive, issuedToken_carries ..⟩⟩

end

/-- Unless it was forged, a token that was not issued is refused with a `CapabilityError` exactly when
it has no full stop or only ASCII characters. -/
theorem verify_refuses_iff {mac : List UInt8 → List UInt8 → List UInt8} {secret : String}
    {token : List Char} (hf : Unforged F mac secret token) (hi : ¬ Issued F mac secret token)
    (revoker : Option CapabilityRevoker) (now : F) :
    RaisesCapabilityError (verifyCapabilityToken mac secret token revoker now) ↔
      '.' ∉ token ∨ isAscii token = true := by
  by_cases hd : '.' ∈ token
  · obtain ⟨payloadB64, signature, rfl, hs, -⟩ := Separated.exists_rsplit hd
    by_cases ha : isAscii (payloadB64 ++ '.' :: signature) = true
    · rw [verify_of_not_signed revoker now hs ha fun he => hi (hf _ _ rfl he)]
      exact iff_of_true (.inl ⟨_, rfl⟩) (.inr ha)
    · have he : ∃ e, verifyCapabilityToken mac secret (payloadB64 ++ '.' :: signature) revoker now =
          .error (.raised e) := verify_of_not_ascii revoker now hs (Bool.eq_false_iff.2 ha)
      obtain ⟨e, he⟩ := he
      rw [he]
      apply iff_of_false
      · rintro (⟨_, h⟩ | ⟨_, h⟩)
        · cases h
        · cases h
      · rintro (h | h)
        · exact h hd
        · exact ha h
  · exact iff_of_true (verify_of_no_stop revoker now hd) (.inl hd)

/-- What is issued is verified until it expires, with its fields; and what was neither issued nor
forged is refused with a `CapabilityError` exactly when it has no full stop or only ASCII
characters. -/
theorem capability_tokens_iff (mac : List UInt8 → List UInt8 → List UInt8) {secret subject : String}
    {capabilities : List String} (envelopeRef : Option String) (ttl : PyFloat F) (issuer : String)
    (nonce : Option String) (now : F) (drawn : String) (hs : secret ≠ "") (hsub : subject ≠ "")
    (hcap : capabilities ≠ []) :
    (∃ token,
      issueCapabilityToken mac secret subject capabilities envelopeRef ttl issuer nonce now drawn =
          .ok token ∧
        ∀ now' : F, ((PyFloat.finite Runtime.zero).lt (expiry now ttl) = true →
            (expiry now ttl).lt (.finite now') = false) →
          ∃ tok, verifyCapabilityToken mac secret token none now' = .ok tok ∧
            tok.Carries subject capabilities envelopeRef issuer (.finite now) (expiry now ttl)
              (chosenNonce nonce drawn)) ∧
    ∀ token, Unforged F mac secret token → ¬ Issued F mac secret token → ∀ now' : F,
      (RaisesCapabilityError (verifyCapabilityToken mac secret token none now') ↔
        '.' ∉ token ∨ isAscii token = true) :=
  ⟨verify_issued mac envelopeRef ttl issuer nonce now drawn hs hsub hcap,
    fun _ hf hi now' => verify_refuses_iff hf hi none now'⟩

theorem Issued.signed {mac : List UInt8 → List UInt8 → List UInt8} {secret : String}
    {token : List Char} (h : Issued F mac secret token) :
    ∃ payloadB64 signature, token = payloadB64 ++ '.' :: signature ∧
      sign mac secret payloadB64 = .ok signature := by
  obtain ⟨subject, capabilities, envelopeRef, ttl, issuer, nonce, now, drawn, hi⟩ := h
  by_cases hs : secret = ""
  · rw [issueCapabilityToken, if_pos hs] at hi
    cases hi
  by_cases hsub : subject = ""
  · rw [issueCapabilityToken, if_neg hs, if_pos hsub] at hi
    cases hi
  by_cases hcap : capabilities = []
  · rw [issueCapabilityToken, if_neg hs, if_neg hsub, if_pos hcap] at hi
    cases hi
  obtain ⟨payloadB64, signature, he, hsign, -⟩ :=
    issue_eq_ok mac envelopeRef ttl issuer nonce now drawn hs hsub hcap
  rw [he] at hi
  cases hi
  exact ⟨_, _, rfl, hsign⟩

/-- What does not end in its signature was neither issued nor forged. -/
theorem unforged_of_rsplit {mac : List UInt8 → List UInt8 → List UInt8} {secret : String}
    {token payloadB64 signature : List Char}
    (h : Separated.rsplit '.' token = some (payloadB64, signature))
    (hn : sign mac secret payloadB64 ≠ .ok signature) :
    Unforged F mac secret token ∧ ¬ Issued F mac secret token := by
  have hsigned : ∀ p s, token = p ++ '.' :: s → sign mac secret p ≠ .ok s := by
    intro p s he hs
    rw [he, Separated.rsplit_append (sign_eq_ok hs).2] at h
    cases h
    exact hn hs
  constructor
  · intro p s he hs
    exact (hsigned p s he hs).elim
  · intro hi
    obtain ⟨p, s, he, hs⟩ := hi.signed
    exact hsigned p s he hs

end

/-- HMAC-SHA256 under dev-secret, of the payload of one token. -/
def sampleMac (_ message : List UInt8) : List UInt8 :=
  knownDigest [
  ("eyJzdWIiOiJzY2hlZHVsZXIiLCJjYXBzIjpbImNhdXNhbF9ncmFwaC53cml0ZSIsImV4ZWN1dG9yLnJlc3" ++
      "RhcnQiXSwiZW52IjpudWxsLCJpc3MiOiJvYmFzZSIsImlhdCI6MTcwMDAwMDAwMC4wLCJleHAiOjE3MDAw" ++
      "MDM2MDAuMCwibm9uY2UiOiJuMSJ9",
      "79d3cae61ab61a0caa1fecae50aec194046d807da90663e85c5e0b82d3949d81")] message

/-- A token for an hour is verified until the hour is over. -/
theorem capability_tokens_scheduler : ∃ token,
    issueCapabilityToken sampleMac "dev-secret" "scheduler"
        ["executor.restart", "causal_graph.write"] none (.finite ⟨3600⟩) "obase" (some "n1")
        (⟨1700000000⟩ : WholeFloat) "" = .ok token ∧
      ∃ tok, verifyCapabilityToken sampleMac "dev-secret" token none
          (⟨1700003600⟩ : WholeFloat) = .ok tok ∧
        tok.Carries "scheduler" ["executor.restart", "causal_graph.write"] none "obase"
          (.finite ⟨1700000000⟩) (.finite ⟨1700003600⟩) "n1" := by
  have hs : "dev-secret" ≠ "" := by decide
  have hsub : "scheduler" ≠ "" := by decide
  have hcap : ["executor.restart", "causal_graph.write"] ≠ [] := List.cons_ne_nil _ _
  obtain ⟨token, hi, hv⟩ := (capability_tokens_iff sampleMac none
    (.finite ⟨3600⟩ : PyFloat WholeFloat) "obase" (some "n1") ⟨1700000000⟩ "" hs hsub hcap).1
  exact ⟨token, hi, hv ⟨1700003600⟩ fun _ => by decide +kernel⟩

/-- A text with a full stop after a letter outside ASCII is refused with another exception. -/
theorem accented_token_raises :
    ¬ ∀ token, Unforged WholeFloat sampleMac "dev-secret" token →
      ¬ Issued WholeFloat sampleMac "dev-secret" token →
      RaisesCapabilityError
        (verifyCapabilityToken sampleMac "dev-secret" token none (⟨1700000000⟩ : WholeFloat)) := by
  intro h
  have hr : Separated.rsplit '.' ['é', '.', 'x'] = some (['é'], ['x']) := by decide
  have hn : sign sampleMac "dev-secret" ['é'] ≠ .ok ['x'] := fun he => nomatch he
  obtain ⟨hf, hi⟩ := unforged_of_rsplit (F := WholeFloat) hr hn
  rcases (verify_refuses_iff hf hi none _).1 (h _ hf hi) with hd | ha
  · exact hd (by decide)
  · cases ha

end Obase.PermissionContract
