import Obase.Runtime
import Obase.Separated

namespace Obase.Session
set_option autoImplicit true
open Json

structure SignedTokenSession (F : Type) where
  secret : List UInt8
  issuer : String
  leeway : PyFloat F
  revoked : List (Json F)

/-- `TokenError`, its subclasses `TokenExpiredError` and `TokenRevokedError`, or another exception. -/
inductive SessionError where
  | token (message : String)
  | expired (message : String)
  | revoked (message : String)
  | raised (e : PyError)

section
variable [Runtime F]

/-- `_b64`. -/
def b64 (data : Json F) : List Char := Base64.unpadded (utf8 (dumpsAscii .compact data))

variable (mac : List UInt8 → List UInt8 → List UInt8)

/-- `_sign`, over HMAC-SHA256. -/
def SignedTokenSession.sign (m : SignedTokenSession F) (signingInput : List Char) : List Char :=
  Base64.unpadded (mac m.secret (utf8 signingInput))

def header : Json F := .dict [("alg", .str "HS256"), ("typ", .str "JWT")]

/-- The fields of a payload before the claims. -/
def SignedTokenSession.fields (m : SignedTokenSession F) (userId : Json F) (issuedAt : F)
    (expiresAt : PyFloat F) (sid : String) : Dict String (Json F) :=
  [("iss", .str m.issuer), ("sub", userId), ("iat", .float (.finite issuedAt)),
    ("exp", .float expiresAt), ("sid", .str sid)]

/-- `session_id or uuid.uuid4().hex[:16]`. -/
def chosenSid (sessionId : Option String) (drawn : String) : String :=
  match sessionId with
  | some sid => if sid = "" then drawn else sid
  | none => drawn

/-- `create`, at a time and with what `uuid4` draws. -/
def SignedTokenSession.create (m : SignedTokenSession F) (userId : Json F) (ttl : PyFloat F)
    (claims : Dict String (Json F)) (sessionId : Option String) (now : F) (drawn : String) :
    Except SessionError (List Char) :=
  if truthy userId = false then
    .error (.raised .valueError)
  else if ttl.le (.finite Runtime.zero) then
    .error (.raised .valueError)
  else
    let payload := Dict.update
      (m.fields userId now (Runtime.add (.finite now) ttl) (chosenSid sessionId drawn)) claims
    let signingInput := b64 (header : Json F) ++ '.' :: b64 (.dict payload)
    .ok (signingInput ++ '.' :: m.sign mac signingInput)

/-- `sid in self._revoked`. -/
def SignedTokenSession.isRevoked (m : SignedTokenSession F) (sid : Json F) : Except PyError Bool :=
  if hashable sid then .ok (m.revoked.any (scalarEq sid)) else .error .typeError

/-- `payload.get("exp", 0) < now - self._leeway`. -/
def SignedTokenSession.isExpired (m : SignedTokenSession F) (payload : Json F) (now : F) :
    Except PyError Bool :=
  (getD payload "exp" (.int 0)).bind (lessThan · (Runtime.sub (.finite now) m.leeway))

/-- The checks of expiry and revocation. -/
def SignedTokenSession.checkLive (m : SignedTokenSession F) (payload : Json F) (now : F) :
    Except SessionError (Json F) :=
  match m.isExpired payload now with
  | .error e => .error (.raised e)
  | .ok true => .error (.expired "token expired")
  | .ok false =>
    match (getD payload "sid" (.str "")).bind m.isRevoked with
    | .error e => .error (.raised e)
    | .ok true => .error (.revoked "token revoked")
    | .ok false => .ok payload

def SignedTokenSession.verify (m : SignedTokenSession F) (token : List Char) (now : F) :
    Except SessionError (Json F) :=
  match token.splitOn '.' with
  | [head, body, signature] =>
    match compareDigest signature (m.sign mac (head ++ '.' :: body)) with
    | .error e => .error (.raised e)
    | .ok false => .error (.token "signature mismatch")
    | .ok true =>
      match (b64decode body).bind loadBytes with
      | .error _ => .error (.token "invalid payload")
      | .ok payload => m.checkLive payload now
  | _ => .error (.token "malformed token")

def reserved : List String := ["iss", "sub", "iat", "exp", "sid"]

/-- The items of a payload other than the reserved ones. -/
def extras (items : Dict String (Json F)) : Dict String (Json F) :=
  items.filter fun p => !reserved.contains p.1

def SignedTokenSession.refresh (m : SignedTokenSession F) (token : List Char) (ttl : PyFloat F)
    (now now' : F) (drawn : String) : Except SessionError (List Char) :=
  match m.verify mac token now with
  | .error e => .error e
  | .ok payload =>
    match payload with
    | .dict items =>
      match getItem payload "sub" with
      | .error e => .error (.raised e)
      | .ok sub => m.create mac sub ttl (extras items) none now' drawn
    | _ => .error (.raised .attributeError)

end

/-- A dictionary of claims: no key occurs twice in it, nor in a dictionary inside it. -/
structure Claims (F : Type) where
  items : Dict String (Json F)
  distinct : (Value.dict items : Json F).Distinct

/-- The value is the float, or a number equal to it. -/
def SameNumber [FloatText F] (v : Json F) (x : PyFloat F) : Prop :=
  v = .float x ∨ ∃ r, numberRank v = some r ∧ floatRank x = some r

/-- The payload is that of a session, and its other items are the claims. -/
structure Carries [FloatText F] (items : Dict String (Json F)) (issuer userId : String)
    (expiresAt : PyFloat F) (sid : String) (claims : Dict String (Json F)) : Prop where
  iss : items.lookup "iss" = some (.str issuer)
  sub : items.lookup "sub" = some (.str userId)
  exp : ∃ v, items.lookup "exp" = some v ∧ SameNumber v expiresAt
  sid : items.lookup "sid" = some (.str sid)
  extras : extras items = extras claims

/-- The claims give the reserved fields no other values than the session has. -/
structure Harmless [FloatText F] (claims : Dict String (Json F)) (issuer userId : String)
    (expiresAt : PyFloat F) (sid : String) : Prop where
  iss : ∀ v, claims.lookup "iss" = some v → v = .str issuer
  sub : ∀ v, claims.lookup "sub" = some v → v = .str userId
  exp : ∀ v, claims.lookup "exp" = some v → SameNumber v expiresAt
  sid : ∀ v, claims.lookup "sid" = some v → v = .str sid

theorem or_default_iff {o : Option α} {d : α} {P : α → Prop} (hd : P d) :
    (∃ v, o.or (some d) = some v ∧ P v) ↔ ∀ v, o = some v → P v := by
  cases o with
  | none => exact iff_of_true ⟨d, rfl, hd⟩ fun _ hv => nomatch hv
  | some w =>
    constructor
    · rintro ⟨v, hv, hP⟩ u hu
      cases hv
      cases hu
      exact hP
    · intro h
      exact ⟨w, rfl, h w rfl⟩

theorem or_default_eq_iff {o : Option α} {d : α} :
    o.or (some d) = some d ↔ ∀ v, o = some v → v = d := by
  rw [← or_default_iff (P := fun v => v = d) rfl]
  constructor
  · exact fun h => ⟨d, h, rfl⟩
  · rintro ⟨v, hv, rfl⟩
    exact hv

section
variable (m : SignedTokenSession F) (userId : String) (issuedAt : F) (expiresAt : PyFloat F)
  (sid : String) (claims : Claims F)

/-- The items of the payload that `create` signs. -/
def SignedTokenSession.payload : Dict String (Json F) :=
  Dict.update (m.fields (.str userId) issuedAt expiresAt sid) claims.items

/-- The payload is read back as it is. -/
theorem payload_build :
    (Value.dict (m.payload userId issuedAt expiresAt sid claims) : Json F).build =
      .dict (m.payload userId issuedAt expiresAt sid claims) := by
  have hf : Dict.Distinct (m.fields (.str userId) issuedAt expiresAt sid) := by
    change List.Nodup ["iss", "sub", "iat", "exp", "sid"]
    decide
  apply Value.build_of_distinct
  refine ⟨hf.update _, Value.distinctMembers_iff.2 ?_⟩
  intro p hp
  rcases Dict.mem_update hp with ⟨q, hq, he⟩ | ⟨q, hq, he⟩
  · rw [he]
    simp only [SignedTokenSession.fields, List.mem_cons, List.not_mem_nil, or_false] at hq
    rcases hq with rfl | rfl | rfl | rfl | rfl
    all_goals trivial
  · rw [he]
    exact Value.distinctMembers_iff.1 claims.distinct.2 q hq

theorem lookup_payload (k : String) :
    (m.payload userId issuedAt expiresAt sid claims).lookup k =
      (claims.items.lookup k).or ((m.fields (.str userId) issuedAt expiresAt sid).lookup k) :=
  Dict.lookup_update claims.distinct.1 k

theorem extras_payload :
    extras (m.payload userId issuedAt expiresAt sid claims) = extras claims.items := by
  have hr : ∀ k ∈ Dict.keys (m.fields (.str userId) issuedAt expiresAt sid),
      (!reserved.contains k) = true → k ∉ Dict.keys claims.items := by
    intro k hk hn
    have hc : reserved.contains k = true := List.contains_iff_mem.2 hk
    rw [hc] at hn
    cases hn
  exact Dict.filter_update (P := fun k => !reserved.contains k) claims.distinct.1 hr

variable [FloatText F]

/-- A created payload carries the session exactly when the claims do it no harm. -/
theorem carries_iff_harmless :
    Carries (m.payload userId issuedAt expiresAt sid claims) m.issuer userId expiresAt sid
        claims.items ↔
      Harmless claims.items m.issuer userId expiresAt sid := by
  have hlookup := lookup_payload m userId issuedAt expiresAt sid claims
  have hiss := or_default_eq_iff (o := claims.items.lookup "iss") (d := .str m.issuer)
  have hsub := or_default_eq_iff (o := claims.items.lookup "sub") (d := .str userId)
  have hexp := or_default_iff (o := claims.items.lookup "exp") (d := .float expiresAt)
    (P := fun v => SameNumber v expiresAt) (.inl rfl)
  have hsid := or_default_eq_iff (o := claims.items.lookup "sid") (d := .str sid)
  constructor
  · intro h
    refine ⟨hiss.1 ?_, hsub.1 ?_, hexp.1 ?_, hsid.1 ?_⟩
    · exact (hlookup "iss").symm.trans h.iss
    · exact (hlookup "sub").symm.trans h.sub
    · obtain ⟨v, hv, hs⟩ := h.exp
      exact ⟨v, (hlookup "exp").symm.trans hv, hs⟩
    · exact (hlookup "sid").symm.trans h.sid
  · intro h
    obtain ⟨v, hv, hs⟩ := hexp.2 h.exp
    exact ⟨(hlookup "iss").trans (hiss.2 h.iss), (hlookup "sub").trans (hsub.2 h.sub),
      ⟨v, (hlookup "exp").trans hv, hs⟩, (hlookup "sid").trans (hsid.2 h.sid),
      extras_payload m userId issuedAt expiresAt sid claims⟩

end

theorem extras_distinct (claims : Claims F) :
    (Value.dict (extras claims.items) : Json F).Distinct := by
  constructor
  · exact List.Nodup.sublist (List.filter_sublist.map Prod.fst) claims.distinct.1
  · rw [Value.distinctMembers_iff]
    intro p hp
    exact Value.distinctMembers_iff.1 claims.distinct.2 p (List.mem_filter.1 hp).1

/-- The claims of a refreshed token. -/
def Claims.extras (claims : Claims F) : Claims F :=
  ⟨Session.extras claims.items, extras_distinct claims⟩

theorem extras_extras (items : Dict String (Json F)) : extras (extras items) = extras items := by
  rw [extras, extras, List.filter_filter]
  simp only [Bool.and_self]

theorem lookup_extras {k : String} (hk : reserved.contains k = true)
    (items : Dict String (Json F)) : (extras items).lookup k = none := by
  apply Dict.lookup_eq_none_of_not_mem
  intro hm
  obtain ⟨p, hp, rfl⟩ := List.mem_map.1 hm
  have hn := (List.mem_filter.1 hp).2
  rw [hk] at hn
  cases hn

/-- Claims without reserved keys do no harm. -/
theorem extras_harmless [FloatText F] (items : Dict String (Json F)) (issuer userId : String)
    (expiresAt : PyFloat F) (sid : String) :
    Harmless (extras items) issuer userId expiresAt sid := by
  constructor
  · intro v hv
    rw [lookup_extras rfl] at hv
    cases hv
  · intro v hv
    rw [lookup_extras rfl] at hv
    cases hv
  · intro v hv
    rw [lookup_extras rfl] at hv
    cases hv
  · intro v hv
    rw [lookup_extras rfl] at hv
    cases hv

section
variable [Runtime F] {mac : List UInt8 → List UInt8 → List UInt8} (m : SignedTokenSession F)

variable (mac) in
/-- The token of a payload. -/
def SignedTokenSession.signed (data : Json F) : List Char :=
  b64 (header : Json F) ++ '.' :: b64 data ++ '.' ::
    m.sign mac (b64 (header : Json F) ++ '.' :: b64 data)

theorem b64_no_stop (data : Json F) : '.' ∉ b64 data :=
  fun h => (Base64.unpadded_isDigit _ _ h).2.2 rfl

theorem splitOn_parts {head body signature : List Char} (hh : '.' ∉ head) (hb : '.' ∉ body)
    (hs : '.' ∉ signature) :
    (head ++ '.' :: body ++ '.' :: signature).splitOn '.' = [head, body, signature] := by
  rw [List.append_assoc, List.cons_append, Separated.splitOn_field hb,
    List.splitOn_eq_singleton hh, List.splitOn_eq_singleton hs]
  rfl

theorem splitOn_signed (data : Json F) : (m.signed mac data).splitOn '.' =
    [b64 (header : Json F), b64 data,
      m.sign mac (b64 (header : Json F) ++ '.' :: b64 data)] :=
  splitOn_parts (b64_no_stop _) (b64_no_stop data)
    fun h => (Base64.unpadded_isDigit _ _ h).2.2 rfl

theorem load_b64 (data : Json F) : (b64decode (b64 data)).bind loadBytes = .ok data.build := by
  rw [b64, b64decode_unpadded]
  exact loadBytes_dumpsAscii ..

/-- A signed token is verified as far as its payload is live. -/
theorem verify_signed (data : Json F) (now : F) :
    m.verify mac (m.signed mac data) now = m.checkLive data.build now := by
  have hp : Printable (m.sign mac (b64 (header : Json F) ++ '.' :: b64 data)) :=
    unpadded_printable _
  rw [SignedTokenSession.verify, splitOn_signed]
  dsimp only
  rw [compareDigest_printable hp.isAscii hp, beq_self_eq_true]
  dsimp only
  rw [load_b64]

theorem create_eq {userId : String} (hu : userId ≠ "") {ttl : PyFloat F}
    (ht : (PyFloat.finite Runtime.zero).lt ttl = true) (claims : Claims F)
    (sessionId : Option String) (now : F) (drawn : String) :
    m.create mac (.str userId) ttl claims.items sessionId now drawn =
      .ok (m.signed mac (.dict (m.payload userId now (Runtime.add (.finite now) ttl)
        (chosenSid sessionId drawn) claims))) := by
  have hne : truthy (.str userId : Json F) ≠ false := by
    rw [truthy, bne_iff_ne.2 hu]
    decide
  rw [SignedTokenSession.create, if_neg hne, PyFloat.not_le_of_lt ht, if_neg Bool.false_ne_true]
  rfl

/-- A created token is verified as far as its payload is live. -/
theorem verify_created (userId : String) (issuedAt : F) (expiresAt : PyFloat F) (sid : String)
    (claims : Claims F) (now : F) :
    m.verify mac (m.signed mac (.dict (m.payload userId issuedAt expiresAt sid claims))) now =
      m.checkLive (.dict (m.payload userId issuedAt expiresAt sid claims)) now := by
  rw [verify_signed, payload_build]

theorem checkLive_eq_ok {payload payload' : Json F} {now : F}
    (h : m.checkLive payload now = .ok payload') :
    payload' = payload ∧ m.isExpired payload now = .ok false ∧
      (getD payload "sid" (.str "")).bind m.isRevoked = .ok false := by
  rw [SignedTokenSession.checkLive] at h
  split at h
  · cases h
  · cases h
  · rename_i he
    split at h
    · cases h
    · cases h
    · rename_i hr
      cases h
      exact ⟨rfl, he, hr⟩

theorem lessThan_of_same {v : Json F} {x : PyFloat F} (h : SameNumber v x) (y : PyFloat F) :
    lessThan v y = .ok (x.lt y) := by
  rcases h with rfl | ⟨r, hv, hx⟩
  · rfl
  · rw [PyFloat.lt, hx, ← hv]
    cases v with
    | int n => rfl
    | bool b => rfl
    | float z => rfl
    | null | str | list | dict => cases hv

/-- A payload that carries a session is live until the session expires or is revoked. -/
theorem isExpired_of_carries {items claims : Dict String (Json F)} {userId sid : String}
    {expiresAt : PyFloat F} (h : Carries items m.issuer userId expiresAt sid claims) (now : F) :
    m.isExpired (.dict items) now =
      .ok (expiresAt.lt (Runtime.sub (.finite now) m.leeway)) := by
  obtain ⟨v, hv, hs⟩ := h.exp
  rw [SignedTokenSession.isExpired, getD, hv]
  exact lessThan_of_same hs _

theorem isRevoked_of_carries {items claims : Dict String (Json F)} {userId sid : String}
    {expiresAt : PyFloat F} (h : Carries items m.issuer userId expiresAt sid claims) :
    (getD (.dict items) "sid" (.str "")).bind m.isRevoked =
      .ok (m.revoked.any (scalarEq (.str sid))) := by
  rw [getD, h.sid]
  rfl

theorem checkLive_of_carries {items claims : Dict String (Json F)} {userId sid : String}
    {expiresAt : PyFloat F} (h : Carries items m.issuer userId expiresAt sid claims) {now : F}
    (he : expiresAt.lt (Runtime.sub (.finite now) m.leeway) = false)
    (hr : m.revoked.any (scalarEq (.str sid)) = false) :
    m.checkLive (.dict items) now = .ok (.dict items) := by
  rw [SignedTokenSession.checkLive, isExpired_of_carries m h, he]
  dsimp only
  rw [isRevoked_of_carries m h, hr]

variable (mac) in
/-- The token is verified at a time, with a payload that carries the session. -/
def SignedTokenSession.Opens (token : List Char) (now : F) (userId : String)
    (expiresAt : PyFloat F) (sid : String) (claims : Dict String (Json F)) : Prop :=
  ∃ items, m.verify mac token now = .ok (.dict items) ∧
    Carries items m.issuer userId expiresAt sid claims

variable (mac) in
/-- The token is refreshed at a time into one of the same subject and the same other claims. -/
def SignedTokenSession.Refreshes (token : List Char) (now : F) (userId : String)
    (claims : Dict String (Json F)) : Prop :=
  ∀ (ttl : PyFloat F) (now' : F) (drawn : String), (PyFloat.finite Runtime.zero).lt ttl = true →
    ∃ token', m.refresh mac token ttl now now' drawn = .ok token' ∧
      ∀ later : F,
        (Runtime.add (.finite now') ttl).lt (Runtime.sub (.finite later) m.leeway) = false →
        m.revoked.any (scalarEq (.str drawn)) = false →
        m.Opens mac token' later userId (Runtime.add (.finite now') ttl) drawn claims

theorem refreshes_of_opens {token : List Char} {now : F} {userId sid : String} (hu : userId ≠ "")
    {expiresAt : PyFloat F} (claims : Claims F)
    (h : m.Opens mac token now userId expiresAt sid claims.items) :
    m.Refreshes mac token now userId claims.items := by
  obtain ⟨items, hv, hc⟩ := h
  intro ttl now' drawn ht
  refine ⟨m.signed mac (.dict (m.payload userId now' (Runtime.add (.finite now') ttl) drawn
    claims.extras)), ?_, fun later hlate hr => ?_⟩
  · have hsub : getItem (.dict items) "sub" = .ok (.str userId : Json F) := by
      rw [getItem, hc.sub]
    rw [SignedTokenSession.refresh, hv]
    dsimp only
    rw [hsub]
    dsimp only
    rw [hc.extras]
    exact create_eq m hu ht claims.extras none now' drawn
  · have hcarries := (carries_iff_harmless m userId now' (Runtime.add (.finite now') ttl) drawn
      claims.extras).2 (extras_harmless ..)
    refine ⟨_, (verify_created m userId now' _ drawn claims.extras later).trans
      (checkLive_of_carries m hcarries hlate hr), ?_⟩
    exact ⟨hcarries.iss, hcarries.sub, hcarries.exp, hcarries.sid,
      hcarries.extras.trans (extras_extras claims.items)⟩

/-- A created token opens as the session that it was created for exactly when the claims do the
session no harm, and it has neither expired nor been revoked. -/
theorem opens_created_iff (userId : String) (issuedAt : F) (expiresAt : PyFloat F) (sid : String)
    (claims : Claims F) (now : F) :
    m.Opens mac (m.signed mac (.dict (m.payload userId issuedAt expiresAt sid claims))) now userId
        expiresAt sid claims.items ↔
      Harmless claims.items m.issuer userId expiresAt sid ∧
        expiresAt.lt (Runtime.sub (.finite now) m.leeway) = false ∧
        m.revoked.any (scalarEq (.str sid)) = false := by
  constructor
  · rintro ⟨items, ho, hc⟩
    rw [verify_created] at ho
    obtain ⟨hi, hexp, hrev⟩ := checkLive_eq_ok m ho
    cases hi
    rw [isExpired_of_carries m hc] at hexp
    rw [isRevoked_of_carries m hc] at hrev
    exact ⟨(carries_iff_harmless ..).1 hc, Except.ok.inj hexp, Except.ok.inj hrev⟩
  · rintro ⟨hh, hlate, hr⟩
    have hc := (carries_iff_harmless m userId issuedAt expiresAt sid claims).2 hh
    exact ⟨_, (verify_created ..).trans (checkLive_of_carries m hc hlate hr), hc⟩

/-- A created token opens, and is refreshed, as the session that it was created for exactly when the
claims do the session no harm, and it has neither expired nor been revoked. -/
theorem session_iff_harmless (mac : List UInt8 → List UInt8 → List UInt8)
    (m : SignedTokenSession F) {userId : String} (hu : userId ≠ "") {ttl : PyFloat F}
    (ht : (PyFloat.finite Runtime.zero).lt ttl = true) (claims : Claims F)
    (sessionId : Option String) (now : F) (drawn : String) (now' : F) :
    (∃ token, m.create mac (.str userId) ttl claims.items sessionId now drawn = .ok token ∧
        m.Opens mac token now' userId (Runtime.add (.finite now) ttl) (chosenSid sessionId drawn)
          claims.items ∧
        m.Refreshes mac token now' userId claims.items) ↔
      Harmless claims.items m.issuer userId (Runtime.add (.finite now) ttl)
          (chosenSid sessionId drawn) ∧
        (Runtime.add (.finite now) ttl).lt (Runtime.sub (.finite now') m.leeway) = false ∧
        m.revoked.any (scalarEq (.str (chosenSid sessionId drawn))) = false := by
  rw [create_eq m hu ht]
  constructor
  · rintro ⟨token, he, ho, -⟩
    cases he
    exact (opens_created_iff ..).1 ho
  · intro h
    have ho : m.Opens mac _ now' userId _ _ claims.items :=
      (opens_created_iff m userId now _ _ claims now').2 h
    exact ⟨_, rfl, ho, refreshes_of_opens m hu claims ho⟩

end

/-- HMAC-SHA256 under dev-secret, of the signing input of one token. -/
def sessionMac (_ message : List UInt8) : List UInt8 :=
  knownDigest [
  ("eyJhbGciOiJIUzI1NiIsInR5cCI6IkpXVCJ9.eyJpc3MiOiJ2ZXlhIiwic3ViIjoidXNlcl8xIiwiaWF" ++
      "0IjoxNzAwMDAwMDAwLjAsImV4cCI6MTcwMDAwMzYwMC4wLCJzaWQiOiIwMTIzNDU2Nzg5YWJjZGVmIiw" ++
      "icm9sZSI6ImFkbWluIn0",
      "a456d8bb1006dff4af095524353ea1b9f37133a73d577b74e94fe698e0179aa6")] message

def devSession : SignedTokenSession WholeFloat :=
  ⟨utf8 "dev-secret".toList, "veya", .finite ⟨30⟩, []⟩

def roleClaims : Claims WholeFloat :=
  ⟨[("role", .str "admin")], List.nodup_singleton _, trivial, trivial⟩

def subClaims : Claims WholeFloat :=
  ⟨[("sub", .str "admin")], List.nodup_singleton _, trivial, trivial⟩

/-- A token for an hour that carries a role opens until the hour is over, and is refreshed. -/
theorem session_with_role : ∃ token,
    devSession.create sessionMac (.str "user_1") (.finite ⟨3600⟩) roleClaims.items none
        ⟨1700000000⟩ "0123456789abcdef" = .ok token ∧
      devSession.Opens sessionMac token ⟨1700003600⟩ "user_1" (.finite ⟨1700003600⟩)
        "0123456789abcdef" roleClaims.items ∧
      devSession.Refreshes sessionMac token ⟨1700003600⟩ "user_1" roleClaims.items := by
  have hu : "user_1" ≠ "" := by decide
  have ht : (PyFloat.finite Runtime.zero).lt (.finite (⟨3600⟩ : WholeFloat)) = true := by
    decide +kernel
  apply (session_iff_harmless sessionMac devSession hu ht roleClaims none ⟨1700000000⟩
    "0123456789abcdef" ⟨1700003600⟩).2
  refine ⟨⟨nofun, nofun, nofun, nofun⟩, by decide +kernel, rfl⟩

/-- Claims with a subject make the token that of another user. -/
theorem claims_change_subject :
    ¬ ∃ token, devSession.create sessionMac (.str "user_1") (.finite ⟨3600⟩) subClaims.items none
        ⟨1700000000⟩ "0123456789abcdef" = .ok token ∧
      devSession.Opens sessionMac token ⟨1700000000⟩ "user_1" (.finite ⟨1700003600⟩)
        "0123456789abcdef" subClaims.items ∧
      devSession.Refreshes sessionMac token ⟨1700000000⟩ "user_1" subClaims.items := by
  rintro ⟨token, hc, ho, -⟩
  have hu : "user_1" ≠ "" := by decide
  have ht : (PyFloat.finite Runtime.zero).lt (.finite (⟨3600⟩ : WholeFloat)) = true := by
    decide +kernel
  rw [create_eq devSession hu ht] at hc
  cases hc
  have hh := ((opens_created_iff ..).1 ho).1
  injection hh.sub (.str "admin") rfl with hs
  exact absurd hs (by decide)

end Obase.Session
