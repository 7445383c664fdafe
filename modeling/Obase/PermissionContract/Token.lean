import Mathlib.Data.List.Dedup
import Obase.Runtime
import Obase.Separated

namespace Obase.PermissionContract
set_option autoImplicit true
open Json

/-- `CapabilityToken`. Its fields hold what the payload does, whatever their annotations say, and the
capabilities stand in the order in which their set yields them. -/
structure CapabilityToken (F : Type) where
  subject : Json F
  capabilities : List (Json F)
  envelopeRef : Json F
  issuer : Json F
  issuedAt : PyFloat F
  expiresAt : PyFloat F
  nonce : Json F

/-- `CapabilityError`, its subclass `CapabilityExpiredError`, or another exception. -/
inductive TokenError where
  | capability (message : String)
  | expired (message : String)
  | raised (e : PyError)

/-- `CapabilityRevoker`, by the set of its nonces. -/
structure CapabilityRevoker where
  revoked : List String

/-- `required[:-1]` of a wildcard. -/
def isWildcard (name : List Char) : Bool := ['.', '*'].isSuffixOf name

/-- The comparison of one capability in `has_capability`. -/
def grants (cap required : List Char) : Bool :=
  cap == required || isWildcard required && required.dropLast.isPrefixOf cap ||
    isWildcard cap && cap.dropLast.isPrefixOf required

/-- `has_capability`: an element that is no string has no `startswith` and no `endswith`. -/
def hasCapability (required : String) : List (Json F) → Except PyError Bool
  | [] => .ok false
  | .str cap :: caps =>
    if grants cap.toList required.toList then .ok true else hasCapability required caps
  | _ :: _ => .error .attributeError

section
variable [Runtime F]

/-- `frozenset(v)`. -/
def frozenset : Json F → Except PyError (List (Json F))
  | .list xs => if xs.all hashable then .ok (Runtime.setOrder xs) else .error .typeError
  | .str s => .ok (Runtime.setOrder (s.toList.map fun c => .str (String.singleton c)))
  | .dict ms => .ok (Runtime.setOrder (ms.map fun p => .str p.1))
  | _ => .error .typeError

def CapabilityToken.isExpired (tok : CapabilityToken F) (now : F) : Bool :=
  (PyFloat.finite Runtime.zero).lt tok.expiresAt && tok.expiresAt.lt (.finite now)

def CapabilityToken.fromPayload (payload : Json F) : Except PyError (CapabilityToken F) := do
  let subject ← getItem payload "sub"
  let capabilities ← frozenset (← getD payload "caps" (.list []))
  let envelopeRef ← getD payload "env" .null
  let issuer ← getD payload "iss" (.str "obase")
  let issuedAt ← toFloat (← getD payload "iat" (.float (.finite Runtime.zero)))
  let expiresAt ← toFloat (← getD payload "exp" (.float (.finite Runtime.zero)))
  let nonce ← getD payload "nonce" (.str "")
  return ⟨subject, capabilities, envelopeRef, issuer, issuedAt, expiresAt, nonce⟩

/-- `nonce in self._revoked`. -/
def CapabilityRevoker.isRevoked (r : CapabilityRevoker) : Json F → Except PyError Bool
  | .str nonce => .ok (r.revoked.contains nonce)
  | v => if hashable v then .ok false else .error .typeError

/-- `_sign`, over HMAC-SHA256. -/
def sign (mac : List UInt8 → List UInt8 → List UInt8) (secret : String) (payloadB64 : List Char) :
    Except PyError (List Char) :=
  (encodeAscii payloadB64).map fun message => Base64.unpadded (mac (utf8 secret.toList) message)

/-- The payload that `issue_capability_token` signs. -/
def issuedPayload (subject : String) (capabilities : List String) (envelopeRef : Option String)
    (issuer : String) (issuedAt expiresAt : PyFloat F) (nonce : String) : Json F :=
  .dict [("sub", .str subject),
    ("caps", .list ((capabilities.dedup.insertionSort (· ≤ ·)).map .str)),
    ("env", envelopeRef.elim .null .str), ("iss", .str issuer), ("iat", .float issuedAt),
    ("exp", .float expiresAt), ("nonce", .str nonce)]

/-- `now + ttl_s if ttl_s > 0 else 0.0`. -/
def expiry (now : F) (ttl : PyFloat F) : PyFloat F :=
  if (PyFloat.finite Runtime.zero).lt ttl then Runtime.add (.finite now) ttl
  else .finite Runtime.zero

/-- `nonce or secrets.token_hex(8)`. -/
def chosenNonce (nonce : Option String) (drawn : String) : String :=
  match nonce with
  | some n => if n = "" then drawn else n
  | none => drawn

def issueCapabilityToken (mac : List UInt8 → List UInt8 → List UInt8) (secret subject : String)
    (capabilities : List String) (envelopeRef : Option String) (ttl : PyFloat F) (issuer : String)
    (nonce : Option String) (now : F) (drawn : String) : Except TokenError (List Char) :=
  if secret = "" then
    .error (.capability "issue_capability_token: secret must not be empty")
  else if subject = "" then
    .error (.capability "issue_capability_token: subject must not be empty")
  else if capabilities = [] then
    .error (.capability "issue_capability_token: at least one capability required")
  else
    let payload := issuedPayload subject capabilities envelopeRef issuer (.finite now)
      (expiry now ttl) (chosenNonce nonce drawn)
    let payloadB64 := Base64.unpadded (utf8 (dumpsAscii .compact payload))
    match sign mac secret payloadB64 with
    | .ok signature => .ok (payloadB64 ++ '.' :: signature)
    | .error e => .error (.raised e)

/-- The `except` clause of `verify_capability_token`. -/
def invalidPayload : PyError → TokenError
  | .valueError | .keyError _ | .typeError =>
    .capability "verify_capability_token: invalid payload"
  | e => .raised e

/-- `CapabilityToken.from_payload(json.loads(_b64d(payload_b64)))`. -/
def readPayload (payloadB64 : List Char) : Except PyError (CapabilityToken F) :=
  ((b64decode payloadB64).bind loadBytes).bind CapabilityToken.fromPayload

/-- The checks of expiry and revocation. -/
def CapabilityToken.checkLive (tok : CapabilityToken F) (revoker : Option CapabilityRevoker)
    (now : F) : Except TokenError (CapabilityToken F) :=
  if tok.isExpired now then .error (.expired "verify_capability_token: token expired")
  else
    match revoker.elim (.ok false) (·.isRevoked tok.nonce) with
    | .error e => .error (.raised e)
    | .ok true => .error (.expired "verify_capability_token: token revoked")
    | .ok false => .ok tok

/-- What follows the check of the signature. -/
def openPayload (payloadB64 : List Char) (revoker : Option CapabilityRevoker) (now : F) :
    Except TokenError (CapabilityToken F) :=
  match readPayload payloadB64 with
  | .error e => .error (invalidPayload e)
  | .ok tok => tok.checkLive revoker now

def verifyCapabilityToken (mac : List UInt8 → List UInt8 → List UInt8) (secret : String)
    (token : List Char) (revoker : Option CapabilityRevoker) (now : F) :
    Except TokenError (CapabilityToken F) :=
  if token = [] then .error (.capability "verify_capability_token: empty token")
  else
    match Separated.rsplit '.' token with
    | none => .error (.capability "verify_capability_token: malformed token")
    | some (payloadB64, signature) =>
      match (sign mac secret payloadB64).bind (compareDigest signature) with
      | .error e => .error (.raised e)
      | .ok false => .error (.capability "verify_capability_token: signature mismatch")
      | .ok true => openPayload payloadB64 revoker now

end

end Obase.PermissionContract
