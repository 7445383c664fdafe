import Obase.Run
import Obase.Session.Token

namespace Obase.Session
set_option autoImplicit true
open Json

section
variable [Runtime F]

/-- `self._revoked.add(sid)`. -/
def SignedTokenSession.add (m : SignedTokenSession F) (sid : Json F) : SignedTokenSession F :=
  if m.revoked.any (scalarEq sid) then m else { m with revoked := m.revoked ++ [sid] }

def SignedTokenSession.revoke (m : SignedTokenSession F) (token : List Char) :
    Except PyError (Bool × SignedTokenSession F) :=
  match token.splitOn '.' with
  | [_, body, _] =>
    match (b64decode body).bind loadBytes with
    | .error _ => .ok (false, m)
    | .ok payload =>
      match getD payload "sid" .null with
      | .error e => .error e
      | .ok sid =>
        if truthy sid = false then .ok (false, m)
        else if hashable sid then .ok (true, m.add sid)
        else .error .typeError
  | _ => .ok (false, m)

def SignedTokenSession.revokeSession (m : SignedTokenSession F) (sessionId : String) :
    SignedTokenSession F := m.add (.str sessionId)

def SignedTokenSession.Revoked (m : SignedTokenSession F) (sid : Json F) : Prop :=
  m.revoked.any (scalarEq sid) = true

/-- The session of a token, whatever its signature: the `sid` of its payload. -/
def sessionOf (token : List Char) : Option (Json F) :=
  match token.splitOn '.' with
  | [_, body, _] =>
    match (b64decode body).bind loadBytes with
    | .ok (.dict items) => items.lookup "sid"
    | _ => none
  | _ => none

variable (mac : List UInt8 → List UInt8 → List UInt8)

/-- The third part of the token is the signature of the other two. -/
def SignedTokenSession.Signs (m : SignedTokenSession F) (token : List Char) : Prop :=
  ∃ head body, token.splitOn '.' = [head, body, m.sign mac (head ++ '.' :: body)]

/-- A manager, with the tokens that its calls have returned. -/
structure Signing (F : Type) where
  manager : SignedTokenSession F
  issued : List (List Char)

inductive SessionAct (F : Type) where
  | create (userId : String) (ttl : PyFloat F) (claims : Claims F) (sessionId : Option String)
      (now : F) (drawn : String)
  | verify (token : List Char) (now : F)
  | refresh (token : List Char) (ttl : PyFloat F) (now now' : F) (drawn : String)
  | revoke (token : List Char)
  | revokeSession (sessionId : String)

/-- The token that a call is given. -/
def SessionAct.token : SessionAct F → Option (List Char)
  | .verify token _ | .refresh token _ _ _ _ | .revoke token => some token
  | .create .. | .revokeSession _ => none

def Signing.returns (s : Signing F) : Except SessionError (List Char) → Signing F
  | .ok token => { s with issued := s.issued ++ [token] }
  | .error _ => s

/-- What a call makes of the manager, whether it returns or raises. -/
def Signing.call (s : Signing F) : SessionAct F → Signing F
  | .create userId ttl claims sessionId now drawn =>
    s.returns (s.manager.create mac (.str userId) ttl claims.items sessionId now drawn)
  | .verify _ _ => s
  | .refresh token ttl now now' drawn =>
    s.returns (s.manager.refresh mac token ttl now now' drawn)
  | .revoke token =>
    match s.manager.revoke token with
    | .ok (_, m) => { s with manager := m }
    | .error _ => s
  | .revokeSession sessionId => { s with manager := s.manager.revokeSession sessionId }

/-- A call by anybody: a token with the signature of its other parts is one that was returned, since
nobody without the secret can make that signature. -/
def Step (s : Signing F) (a : SessionAct F) (t : Signing F) : Prop :=
  (∀ token, a.token = some token → s.manager.Signs mac token → token ∈ s.issued) ∧
    t = s.call mac a

def SessionError.IsTokenError : SessionError → Prop
  | .token _ | .expired _ | .revoked _ => True
  | .raised _ => False

def RaisesTokenError (r : Except SessionError α) : Prop := ∃ e, r = .error e ∧ e.IsTokenError

/-- A call keeps the sessions that are revoked and revokes no other but the one that it names, or
whose token the manager returned; and it raises a `TokenError` on a token of a revoked session. -/
structure Meets (s : Signing F) (a : SessionAct F) (t : Signing F) : Prop where
  kept : ∀ sid, s.manager.Revoked sid → t.manager.Revoked sid
  only : ∀ sid, ¬ s.manager.Revoked sid → t.manager.Revoked sid →
    (∃ sessionId, a = .revokeSession sessionId ∧ scalarEq sid (.str sessionId) = true) ∨
      ∃ token ∈ s.issued, a = .revoke token ∧
        ∃ sid', sessionOf token = some sid' ∧ scalarEq sid sid' = true
  verify : ∀ token now, a = .verify token now →
    ∀ sid, sessionOf token = some sid → s.manager.Revoked sid →
      RaisesTokenError (s.manager.verify mac token now)
  refresh : ∀ token ttl now now' drawn, a = .refresh token ttl now now' drawn →
    ∀ sid, sessionOf token = some sid → s.manager.Revoked sid →
      RaisesTokenError (s.manager.refresh mac token ttl now now' drawn)

/-- Whether `<` compares the value with a float. -/
def isNumber : Json F → Bool
  | .int _ | .bool _ | .float _ => true
  | _ => false

/-- The signature of the token can be compared, and so can its expiry if the signature is right. -/
def SignedTokenSession.Comparable (m : SignedTokenSession F) (token : List Char) : Prop :=
  ∀ head body signature, token.splitOn '.' = [head, body, signature] →
    isAscii signature = true ∧
      (signature = m.sign mac (head ++ '.' :: body) →
        ∀ items : Dict String (Json F), (b64decode body).bind loadBytes = .ok (.dict items) →
          isNumber ((items.lookup "exp").getD (.int 0)) = true)

/-- A token that revokes a session has its signature, and a token of a revoked session can be
compared with what is expected of it. -/
def Checked (s : Signing F) : SessionAct F → Prop
  | .revoke token => ∀ sid, sessionOf token = some sid → truthy sid = true →
      scalarEq sid sid = true → ¬ s.manager.Revoked sid → s.manager.Signs mac token
  | .verify token _ | .refresh token _ _ _ _ => ∀ sid, sessionOf token = some sid →
      s.manager.Revoked sid → s.manager.Comparable mac token
  | .create .. | .revokeSession _ => True

end

theorem scalarEq_number [FloatText F] {v : Json F} {r : Int × ℚ} (h : numberRank v = some r)
    (w : Json F) : scalarEq v w = (numberRank w == some r) := by
  have hgo :
      ((numberRank v).isSome && numberRank v == numberRank w) = (numberRank w == some r) := by
    rw [h, Option.isSome_some, Bool.true_and, Bool.beq_comm]
  rw [← hgo]
  cases v with
  | null | str | list | dict => cases h
  | bool | int | float => rfl

theorem scalarEq_cases [FloatText F] {v w : Json F} (h : scalarEq v w = true) :
    (∃ s, v = .str s ∧ w = .str s) ∨ (v = .null ∧ w = .null) ∨
      ∃ r, numberRank v = some r ∧ numberRank w = some r := by
  have hnum (hn : (numberRank v).isSome && numberRank v == numberRank w) :
      ∃ r, numberRank v = some r ∧ numberRank w = some r := by
    rw [Bool.and_eq_true, Option.isSome_iff_exists, beq_iff_eq] at hn
    obtain ⟨⟨r, hr⟩, he⟩ := hn
    exact ⟨r, hr, he.symm.trans hr⟩
  cases v with
  | str s =>
    cases w with
    | str s' =>
      cases eq_of_beq h
      exact .inl ⟨s, rfl, rfl⟩
    | null | bool | int | float | list | dict => exact .inr (.inr (hnum h))
  | null =>
    cases w with
    | null => exact .inr (.inl ⟨rfl, rfl⟩)
    | str | bool | int | float | list | dict => exact .inr (.inr (hnum h))
  | bool | int | float | list | dict => exact .inr (.inr (hnum h))

/-- Values that are equal are equal to the same values. -/
theorem scalarEq_congr [FloatText F] {v w : Json F} (h : scalarEq v w = true) (u : Json F) :
    scalarEq v u = scalarEq w u := by
  rcases scalarEq_cases h with ⟨s, rfl, rfl⟩ | ⟨rfl, rfl⟩ | ⟨r, hv, hw⟩
  · rfl
  · rfl
  · rw [scalarEq_number hv, scalarEq_number hw]

theorem scalarEq_self_of_eq [FloatText F] {v w : Json F} (h : scalarEq v w = true) :
    scalarEq w w = true := by
  rw [← scalarEq_congr h]
  exact h

theorem hashable_of_scalarEq [FloatText F] {v : Json F} (h : scalarEq v v = true) :
    hashable v = true := by
  cases v with
  | list xs => cases h
  | dict ms => cases h
  | null | bool | int | float | str => rfl

section
variable [Runtime F] {m : SignedTokenSession F}

theorem Revoked.congr {v w : Json F} (h : scalarEq v w = true) : m.Revoked v ↔ m.Revoked w := by
  rw [SignedTokenSession.Revoked, SignedTokenSession.Revoked, funext (scalarEq_congr h)]

theorem hashable_of_revoked {sid : Json F} (h : m.Revoked sid) : hashable sid = true := by
  obtain ⟨w, -, hw⟩ := List.any_eq_true.1 h
  cases sid with
  | list xs =>
    rcases scalarEq_cases hw with ⟨s, he, -⟩ | ⟨he, -⟩ | ⟨r, hr, -⟩
    · cases he
    · cases he
    · cases hr
  | dict ms =>
    rcases scalarEq_cases hw with ⟨s, he, -⟩ | ⟨he, -⟩ | ⟨r, hr, -⟩
    · cases he
    · cases he
    · cases hr
  | null | bool | int | float | str => rfl

/-- A session that is added to those that are revoked is revoked, and no other. -/
theorem revoked_add {sid v : Json F} :
    (m.add sid).Revoked v ↔ m.Revoked v ∨ scalarEq v sid = true ∧ ¬ m.Revoked sid := by
  rw [SignedTokenSession.add]
  split
  · rename_i hr
    exact ⟨.inl, fun h => h.resolve_right fun hn => hn.2 hr⟩
  · rename_i hr
    rw [SignedTokenSession.Revoked, List.any_append, Bool.or_eq_true, List.any_cons, List.any_nil,
      Bool.or_false]
    exact or_congr Iff.rfl (iff_self_and.2 fun _ => hr)

theorem sign_add (mac : List UInt8 → List UInt8 → List UInt8) (sid : Json F)
    (signingInput : List Char) : (m.add sid).sign mac signingInput = m.sign mac signingInput := by
  rw [SignedTokenSession.add]
  split
  · rfl
  · rfl

theorem sessionOf_eq_some {token : List Char} {sid : Json F} (h : sessionOf token = some sid) :
    ∃ head body signature items, token.splitOn '.' = [head, body, signature] ∧
      (b64decode body).bind loadBytes = .ok (.dict items) ∧ items.lookup "sid" = some sid := by
  rw [sessionOf] at h
  split at h
  · rename_i head body signature hs
    split at h
    · rename_i items hb
      exact ⟨head, body, signature, items, hs, hb, h⟩
    · cases h
  · cases h

/-- `revoke` adds the session of the token, unless it is empty or cannot be an element of a set. -/
theorem revoke_session {token : List Char} {sid : Json F} (h : sessionOf token = some sid)
    (ht : truthy sid = true) (hh : hashable sid = true) :
    m.revoke token = .ok (true, m.add sid) := by
  obtain ⟨head, body, signature, items, hs, hb, hl⟩ := sessionOf_eq_some h
  have ht' : truthy sid ≠ false := by rw [ht]; decide
  rw [SignedTokenSession.revoke, hs]
  dsimp only
  rw [hb]
  dsimp only
  rw [getD, hl]
  dsimp only [Option.getD_some]
  rw [if_neg ht', if_pos hh]

theorem revoke_cases {token : List Char} {b : Bool} {m' : SignedTokenSession F}
    (h : m.revoke token = .ok (b, m')) :
    m' = m ∨ ∃ sid, sessionOf token = some sid ∧ truthy sid = true ∧ m' = m.add sid := by
  rw [SignedTokenSession.revoke] at h
  split at h
  · rename_i head body signature hs
    split at h
    · cases h
      exact .inl rfl
    · rename_i payload hb
      cases payload with
      | dict items =>
        rw [getD] at h
        dsimp only at h
        split at h
        · cases h
          exact .inl rfl
        · rename_i ht
          split at h
          · cases h
            cases hl : items.lookup "sid" with
            | none =>
              rw [hl] at ht
              exact absurd rfl ht
            | some sid =>
              rw [hl, Option.getD_some] at ht
              refine .inr ⟨sid, ?_, Bool.eq_true_of_not_eq_false ht, rfl⟩
              rw [sessionOf, hs]
              dsimp only
              rw [hb]
              exact hl
          · cases h
      | null | bool | int | float | str | list => cases h
  · cases h
    exact .inl rfl

variable (mac : List UInt8 → List UInt8 → List UInt8)

theorem lessThan_ok_iff {v : Json F} {y : PyFloat F} :
    (∃ b, lessThan v y = .ok b) ↔ isNumber v = true := by
  cases v with
  | int | bool | float => exact iff_of_true ⟨_, rfl⟩ rfl
  | null | str | list | dict => exact iff_of_false (fun ⟨_, h⟩ => nomatch h) Bool.false_ne_true

theorem isRevoked_sid {items : Dict String (Json F)} {sid : Json F}
    (hl : items.lookup "sid" = some sid) (hr : m.Revoked sid) :
    (getD (.dict items) "sid" (.str "")).bind m.isRevoked = .ok true := by
  rw [getD, hl]
  dsimp only [Option.getD_some, Except.bind]
  rw [SignedTokenSession.isRevoked, if_pos (hashable_of_revoked hr)]
  exact congrArg Except.ok hr

/-- A payload of a revoked session is refused as long as its expiry is a number. -/
theorem checkLive_revoked {items : Dict String (Json F)} {sid : Json F}
    (hl : items.lookup "sid" = some sid) (hr : m.Revoked sid) (now : F) :
    RaisesTokenError (m.checkLive (.dict items) now) ↔
      isNumber ((items.lookup "exp").getD (.int 0)) = true := by
  have hexp : m.isExpired (.dict items) now =
      lessThan ((items.lookup "exp").getD (.int 0)) (Runtime.sub (.finite now) m.leeway) := rfl
  rw [← lessThan_ok_iff (y := Runtime.sub (.finite now) m.leeway), SignedTokenSession.checkLive,
    hexp, isRevoked_sid hl hr]
  cases lessThan ((items.lookup "exp").getD (.int 0)) (Runtime.sub (.finite now) m.leeway) with
  | error e =>
    refine iff_of_false ?_ (by rintro ⟨_, ⟨⟩⟩)
    rintro ⟨_, h, ht⟩
    cases h
    cases ht
  | ok b =>
    refine iff_of_true ?_ ⟨b, rfl⟩
    cases b with
    | true => exact ⟨_, rfl, trivial⟩
    | false => exact ⟨_, rfl, trivial⟩

/-- A token of a revoked session is refused with a `TokenError` as long as it can be compared. -/
theorem verify_revoked {token : List Char} {sid : Json F} (h : sessionOf token = some sid)
    (hr : m.Revoked sid) (now : F) :
    RaisesTokenError (m.verify mac token now) ↔ m.Comparable mac token := by
  obtain ⟨head, body, signature, items, hs, hb, hl⟩ := sessionOf_eq_some h
  have hp : isAscii (m.sign mac (head ++ '.' :: body)) = true := (unpadded_printable _).isAscii
  have hcomp : m.Comparable mac token ↔ isAscii signature = true ∧
      (signature = m.sign mac (head ++ '.' :: body) →
        isNumber ((items.lookup "exp").getD (.int 0)) = true) := by
    constructor
    · intro hc
      obtain ⟨ha, hn⟩ := hc head body signature hs
      exact ⟨ha, fun he => hn he items hb⟩
    · rintro ⟨ha, hn⟩ head' body' signature' hs'
      rw [hs] at hs'
      cases hs'
      refine ⟨ha, fun he items' hb' => ?_⟩
      rw [hb] at hb'
      cases hb'
      exact hn he
  rw [hcomp, SignedTokenSession.verify, hs]
  dsimp only
  by_cases ha : isAscii signature = true
  · rw [compareDigest, if_pos ⟨ha, hp⟩]
    by_cases he : signature = m.sign mac (head ++ '.' :: body)
    · have hbeq : (signature == m.sign mac (head ++ '.' :: body)) = true := beq_iff_eq.2 he
      rw [hbeq]
      dsimp only
      rw [hb]
      dsimp only
      rw [checkLive_revoked hl hr]
      exact ⟨fun hn => ⟨ha, fun _ => hn⟩, fun hn => hn.2 he⟩
    · have hbeq : (signature == m.sign mac (head ++ '.' :: body)) = false :=
        beq_eq_false_iff_ne.2 he
      rw [hbeq]
      exact iff_of_true ⟨_, rfl, trivial⟩ ⟨ha, fun hn => absurd hn he⟩
  · rw [compareDigest, if_neg fun hn => ha hn.1]
    refine iff_of_false ?_ fun hn => ha hn.1
    rintro ⟨_, h, ht⟩
    cases h
    cases ht

theorem verify_eq_ok {token : List Char} {now : F} {payload : Json F}
    (h : m.verify mac token now = .ok payload) : ∃ head body signature,
      token.splitOn '.' = [head, body, signature] ∧
        (b64decode body).bind loadBytes = .ok payload ∧ m.checkLive payload now = .ok payload := by
  rw [SignedTokenSession.verify] at h
  split at h
  · rename_i head body signature hs
    split at h
    · cases h
    · cases h
    · split at h
      · cases h
      · rename_i payload' hb
        obtain ⟨rfl, -, -⟩ := checkLive_eq_ok m h
        exact ⟨head, body, signature, hs, hb, h⟩
  · cases h

/-- `refresh` refuses a token of a revoked session as `verify` does. -/
theorem refresh_revoked {token : List Char} {sid : Json F} (h : sessionOf token = some sid)
    (hr : m.Revoked sid) (ttl : PyFloat F) (now now' : F) (drawn : String) :
    RaisesTokenError (m.refresh mac token ttl now now' drawn) ↔ m.Comparable mac token := by
  rw [← verify_revoked mac h hr now, SignedTokenSession.refresh]
  cases hv : m.verify mac token now with
  | error e =>
    constructor
    · rintro ⟨_, hn, ht⟩
      cases hn
      exact ⟨e, rfl, ht⟩
    · rintro ⟨_, hn, ht⟩
      cases hn
      exact ⟨e, rfl, ht⟩
  | ok payload =>
    obtain ⟨head, body, signature, items, hs, hb, hl⟩ := sessionOf_eq_some h
    obtain ⟨head', body', signature', hs', hb', hc⟩ := verify_eq_ok mac hv
    rw [hs] at hs'
    cases hs'
    rw [hb] at hb'
    cases hb'
    obtain ⟨-, -, hn⟩ := checkLive_eq_ok m hc
    rw [isRevoked_sid hl hr] at hn
    cases hn

theorem signs_signed (data : Json F) : m.Signs mac (m.signed mac data) :=
  ⟨_, _, splitOn_signed m data⟩

theorem create_eq_ok {userId : Json F} {ttl : PyFloat F} {claims : Dict String (Json F)}
    {sessionId : Option String} {now : F} {drawn : String} {token : List Char}
    (h : m.create mac userId ttl claims sessionId now drawn = .ok token) : m.Signs mac token := by
  rw [SignedTokenSession.create] at h
  split at h
  · cases h
  · split at h
    · cases h
    · cases h
      exact signs_signed mac _

theorem refresh_eq_ok {token token' : List Char} {ttl : PyFloat F} {now now' : F} {drawn : String}
    (h : m.refresh mac token ttl now now' drawn = .ok token') : m.Signs mac token' := by
  rw [SignedTokenSession.refresh] at h
  split at h
  · cases h
  · split at h
    · split at h
      · cases h
      · exact create_eq_ok mac h
    · cases h

/-- The manager keeps its key, and has signed the tokens that its calls returned. -/
def Signing.Genuine (s : Signing F) : Prop := ∀ token ∈ s.issued, s.manager.Signs mac token

variable {mac}

theorem signs_add {sid : Json F} {token : List Char} :
    (m.add sid).Signs mac token ↔ m.Signs mac token := by
  rw [SignedTokenSession.Signs, SignedTokenSession.Signs]
  simp only [sign_add]

omit [Runtime F] in
theorem Genuine.returns {s : Signing F} (h : s.Genuine mac) {r : Except SessionError (List Char)}
    (hr : ∀ token, r = .ok token → s.manager.Signs mac token) : (s.returns r).Genuine mac := by
  cases r with
  | error e => exact h
  | ok token =>
    intro token' hm
    rcases List.mem_append.1 hm with hm | hm
    · exact h token' hm
    · rw [List.mem_singleton.1 hm]
      exact hr token rfl

theorem Genuine.add {s : Signing F} (h : s.Genuine mac) (sid : Json F) :
    Signing.Genuine mac { s with manager := s.manager.add sid } :=
  fun token hm => signs_add.2 (h token hm)

theorem Genuine.step {s t : Signing F} {a : SessionAct F} (h : s.Genuine mac)
    (hs : Step mac s a t) : t.Genuine mac := by
  obtain ⟨-, rfl⟩ := hs
  cases a with
  | create userId ttl claims sessionId now drawn =>
    exact Genuine.returns h fun _ he => create_eq_ok mac he
  | verify token now => exact h
  | refresh token ttl now now' drawn => exact Genuine.returns h fun _ he => refresh_eq_ok mac he
  | revoke token =>
    rw [Signing.call]
    split
    · rename_i b m' he
      rcases revoke_cases he with rfl | ⟨sid, -, -, rfl⟩
      · exact h
      · exact Genuine.add h sid
    · exact h
  | revokeSession sessionId => exact Genuine.add h _

/-- `revoke` meets the contract exactly when a token that revokes a session has its signature. -/
theorem meets_revoke {s : Signing F} {token : List Char} (hg : s.Genuine mac)
    (hu : s.manager.Signs mac token → token ∈ s.issued) :
    Meets mac s (.revoke token) (s.call mac (.revoke token)) ↔ Checked mac s (.revoke token) := by
  constructor
  · intro h sid hs ht he hn
    have hr := revoke_session (m := s.manager) hs ht (hashable_of_scalarEq he)
    have hcall : (s.call mac (.revoke token)).manager = s.manager.add sid := by
      rw [Signing.call, hr]
    have hnew : (s.call mac (.revoke token)).manager.Revoked sid := by
      rw [hcall]
      exact revoked_add.2 (.inr ⟨he, hn⟩)
    rcases h.only sid hn hnew with ⟨sessionId, ha, -⟩ | ⟨token', hm, ha, -⟩
    · cases ha
    · cases ha
      exact hg token hm
  · intro h
    refine ⟨?_, ?_, fun _ _ ha => (nomatch ha), fun _ _ _ _ _ ha => (nomatch ha)⟩
    · intro sid hr
      rw [Signing.call]
      split
      · rename_i he
        rcases revoke_cases he with rfl | ⟨sid', -, -, rfl⟩
        · exact hr
        · exact revoked_add.2 (.inl hr)
      · exact hr
    · intro sid hn hr
      rw [Signing.call] at hr
      split at hr
      · rename_i he
        rcases revoke_cases he with rfl | ⟨sid', hs, ht, rfl⟩
        · exact absurd hr hn
        · obtain ⟨heq, hn'⟩ := (revoked_add.1 hr).resolve_left hn
          refine .inr ⟨token, ?_, rfl, sid', hs, heq⟩
          exact hu (h sid' hs ht (scalarEq_self_of_eq heq) hn')
      · exact absurd hr hn

theorem Meets.of_same {s t : Signing F} {a : SessionAct F} (h : t.manager = s.manager)
    (hv : ∀ token now, a = .verify token now →
      ∀ sid, sessionOf token = some sid → s.manager.Revoked sid →
        RaisesTokenError (s.manager.verify mac token now))
    (hf : ∀ token ttl now now' drawn, a = .refresh token ttl now now' drawn →
      ∀ sid, sessionOf token = some sid → s.manager.Revoked sid →
        RaisesTokenError (s.manager.refresh mac token ttl now now' drawn)) : Meets mac s a t := by
  refine ⟨fun sid hr => ?_, fun sid hn hr => ?_, hv, hf⟩
  · rw [h]
    exact hr
  · rw [h] at hr
    exact absurd hr hn

omit [Runtime F] in
theorem manager_returns (s : Signing F) (r : Except SessionError (List Char)) :
    (s.returns r).manager = s.manager := by
  cases r with
  | error e => rfl
  | ok token => rfl

/-- A call of a genuine manager meets the contract exactly when its token is checked. -/
theorem meets_iff {s t : Signing F} {a : SessionAct F} (hg : s.Genuine mac)
    (hs : Step mac s a t) : Meets mac s a t ↔ Checked mac s a := by
  obtain ⟨hu, rfl⟩ := hs
  cases a with
  | create userId ttl claims sessionId now drawn =>
    refine iff_of_true (.of_same (manager_returns ..) ?_ ?_) trivial
    · exact fun _ _ ha => nomatch ha
    · exact fun _ _ _ _ _ ha => nomatch ha
  | verify token now =>
    constructor
    · intro h sid hs hr
      exact (verify_revoked mac hs hr now).1 (h.verify token now rfl sid hs hr)
    · intro h
      refine .of_same rfl ?_ fun _ _ _ _ _ ha => nomatch ha
      intro token' now' ha sid hs hr
      cases ha
      exact (verify_revoked mac hs hr now).2 (h sid hs hr)
  | refresh token ttl now now' drawn =>
    constructor
    · intro h sid hs hr
      exact (refresh_revoked mac hs hr ..).1 (h.refresh token ttl now now' drawn rfl sid hs hr)
    · intro h
      refine .of_same (manager_returns ..) (fun _ _ ha => nomatch ha) ?_
      intro _ _ _ _ _ ha sid hs hr
      cases ha
      exact (refresh_revoked mac hs hr ..).2 (h sid hs hr)
  | revoke token => exact meets_revoke hg (hu token rfl)
  | revokeSession sessionId =>
    refine iff_of_true ⟨?_, ?_, fun _ _ ha => (nomatch ha), fun _ _ _ _ _ ha => (nomatch ha)⟩ trivial
    · exact fun sid hr => revoked_add.2 (.inl hr)
    · intro sid hn hr
      exact .inl ⟨sessionId, rfl, ((revoked_add.1 hr).resolve_left hn).1⟩

/-- In every run of a new manager, all calls meet the contract exactly when each token that revokes
a session has its signature, and each token of a revoked session can be compared. -/
theorem revocation_iff (mac : List UInt8 → List UInt8 → List UInt8) (m : SignedTokenSession F)
    {l : List (SessionAct F × Signing F)} (h : Run.Trace (Step mac) ⟨m, []⟩ l) :
    Run.Along (Meets mac) ⟨m, []⟩ l ↔ Run.Always (Checked mac) ⟨m, []⟩ l := by
  apply h.along_iff (I := Signing.Genuine mac)
  · intro token ht
    cases ht
  · intro s a t hI hs
    exact ⟨Genuine.step hI hs, meets_iff hI hs⟩

end

section
variable [Runtime F] {mac : List UInt8 → List UInt8 → List UInt8} {m : SignedTokenSession F}

theorem sessionOf_signed {items : Dict String (Json F)} {sid : Json F}
    (hb : (Value.dict items : Json F).build = .dict items) (hl : items.lookup "sid" = some sid) :
    sessionOf (m.signed mac (.dict items)) = some sid := by
  rw [sessionOf, splitOn_signed]
  dsimp only
  rw [load_b64, hb]
  exact hl

theorem comparable_signed {items : Dict String (Json F)}
    (hb : (Value.dict items : Json F).build = .dict items)
    (hn : isNumber ((items.lookup "exp").getD (.int 0)) = true) :
    m.Comparable mac (m.signed mac (.dict items)) := by
  intro head body signature hs
  rw [splitOn_signed] at hs
  cases hs
  refine ⟨(unpadded_printable _).isAscii, fun _ items' hi => ?_⟩
  rw [load_b64, hb] at hi
  cases hi
  exact hn

end

/-- The token of an hour's session. -/
def hourToken : List Char :=
  devSession.signed sessionMac (.dict (devSession.payload "user_1" ⟨1700000000⟩
    (.finite ⟨1700003600⟩) "0123456789abcdef" roleClaims))

/-- A session is revoked by its token, which is refused then. -/
theorem revocation_by_token : ∃ l : List (SessionAct WholeFloat × Signing WholeFloat),
    l.map Prod.fst = [.create "user_1" (.finite ⟨3600⟩) roleClaims none ⟨1700000000⟩
      "0123456789abcdef", .revoke hourToken, .verify hourToken ⟨1700000000⟩] ∧
    Run.Trace (Step sessionMac) ⟨devSession, []⟩ l ∧
    Run.Along (Meets sessionMac) ⟨devSession, []⟩ l := by
  have hb := payload_build devSession "user_1" ⟨1700000000⟩ (.finite ⟨1700003600⟩)
    "0123456789abcdef" roleClaims
  have hsid : sessionOf hourToken = some (.str "0123456789abcdef" : Json WholeFloat) :=
    sessionOf_signed hb rfl
  have hcreate : (⟨devSession, []⟩ : Signing WholeFloat).call sessionMac (.create "user_1"
      (.finite ⟨3600⟩) roleClaims none ⟨1700000000⟩ "0123456789abcdef") =
        ⟨devSession, [hourToken]⟩ := by
    have hne : "user_1" ≠ "" := by decide
    have htl : (PyFloat.finite Runtime.zero).lt (.finite (⟨3600⟩ : WholeFloat)) = true := by
      decide +kernel
    have hc : devSession.create sessionMac (.str "user_1") (.finite ⟨3600⟩) roleClaims.items none
        ⟨1700000000⟩ "0123456789abcdef" = .ok hourToken := create_eq devSession hne htl ..
    rw [Signing.call, hc]
    rfl
  have hrevoke : (⟨devSession, [hourToken]⟩ : Signing WholeFloat).call sessionMac
      (.revoke hourToken) = ⟨devSession.add (.str "0123456789abcdef"), [hourToken]⟩ := by
    rw [Signing.call, revoke_session hsid (by decide) rfl]
  have ht : Run.Trace (Step sessionMac) ⟨devSession, []⟩
      [(.create "user_1" (.finite ⟨3600⟩) roleClaims none ⟨1700000000⟩ "0123456789abcdef",
        ⟨devSession, [hourToken]⟩),
      (.revoke hourToken, ⟨devSession.add (.str "0123456789abcdef"), [hourToken]⟩),
      (.verify hourToken ⟨1700000000⟩,
        ⟨devSession.add (.str "0123456789abcdef"), [hourToken]⟩)] := by
    refine ⟨⟨fun _ he => (nomatch he), hcreate.symm⟩, ⟨?_, hrevoke.symm⟩, ⟨?_, rfl⟩, trivial⟩
    · intro token he _
      cases he
      exact .head _
    · intro token he _
      cases he
      exact .head _
  refine ⟨_, rfl, ht, (revocation_iff sessionMac devSession ht).2 ⟨trivial, ?_, ?_, trivial⟩⟩
  · intro sid _ _ _ _
    exact signs_signed sessionMac _
  · intro sid _ _
    exact comparable_signed hb rfl

def knownSid : Json WholeFloat := .dict [("sid", .str "s")]

/-- A token that the manager did not sign and that names a session. -/
def unsignedToken (signature : Char) : List Char :=
  ['x'] ++ '.' :: b64 knownSid ++ '.' :: [signature]

theorem splitOn_unsignedToken {c : Char} (hc : '.' ∉ [c]) :
    (unsignedToken c).splitOn '.' = [['x'], b64 knownSid, [c]] :=
  splitOn_parts (by decide) (b64_no_stop _) hc

theorem sessionOf_unsignedToken {c : Char} (hc : '.' ∉ [c]) :
    sessionOf (unsignedToken c) = some (.str "s" : Json WholeFloat) := by
  rw [sessionOf, splitOn_unsignedToken hc]
  dsimp only
  rw [load_b64]
  rfl

theorem not_signs_unsignedToken {c : Char} (hc : '.' ∉ [c])
    (hn : [c] ≠ devSession.sign sessionMac (['x'] ++ '.' :: b64 knownSid)) :
    ¬ devSession.Signs sessionMac (unsignedToken c) := by
  rintro ⟨head, body, hs⟩
  rw [splitOn_unsignedToken hc] at hs
  injection hs with hh hs
  injection hs with hb hs
  injection hs with hx hs
  subst hh hb
  exact hn hx

/-- An attacker revokes the session whose sid it knows. -/
theorem forged_token_revokes : ∃ l : List (SessionAct WholeFloat × Signing WholeFloat),
    Run.Trace (Step sessionMac) ⟨devSession, []⟩ l ∧
      ¬ Run.Along (Meets sessionMac) ⟨devSession, []⟩ l := by
  have hn := not_signs_unsignedToken (c := 'x') (by decide) (by decide +kernel)
  have ht : Run.Trace (Step sessionMac) (⟨devSession, []⟩ : Signing WholeFloat)
      [(.revoke (unsignedToken 'x'),
        Signing.call sessionMac ⟨devSession, []⟩ (.revoke (unsignedToken 'x')))] := by
    refine ⟨⟨?_, rfl⟩, trivial⟩
    intro token he hs
    cases he
    exact absurd hs hn
  refine ⟨_, ht, fun hm => ?_⟩
  have hc := ((revocation_iff sessionMac devSession ht).1 hm).1
  exact hn (hc (.str "s") (sessionOf_unsignedToken (by decide)) (by decide) (by decide)
    Bool.false_ne_true)

/-- A token of a revoked session whose signature is not ASCII raises a `TypeError`. -/
theorem accented_signature_raises : ∃ l : List (SessionAct WholeFloat × Signing WholeFloat),
    Run.Trace (Step sessionMac) ⟨devSession, []⟩ l ∧
      ¬ Run.Along (Meets sessionMac) ⟨devSession, []⟩ l := by
  have hn := not_signs_unsignedToken (c := 'é') (by decide) (by decide +kernel)
  have ht : Run.Trace (Step sessionMac) (⟨devSession, []⟩ : Signing WholeFloat)
      [(.revokeSession "s", ⟨devSession.revokeSession "s", []⟩),
        (.verify (unsignedToken 'é') ⟨0⟩, ⟨devSession.revokeSession "s", []⟩)] := by
    refine ⟨⟨fun _ he => (nomatch he), rfl⟩, ⟨?_, rfl⟩, trivial⟩
    intro token he hs
    cases he
    exact absurd (signs_add.1 hs) hn
  refine ⟨_, ht, fun hm => ?_⟩
  have hc := ((revocation_iff sessionMac devSession ht).1 hm).2.1
  have hr : (devSession.revokeSession "s").Revoked (.str "s") :=
    revoked_add.2 (.inr ⟨rfl, Bool.false_ne_true⟩)
  have ha := (hc (.str "s") (sessionOf_unsignedToken (by decide)) hr _ _ _
    (splitOn_unsignedToken (by decide))).1
  exact absurd ha (by decide)

end Obase.Session
