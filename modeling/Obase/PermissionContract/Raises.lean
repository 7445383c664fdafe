import Obase.PermissionContract.Issue

namespace Obase.PermissionContract
set_option autoImplicit true
open Json

/-- An element that is no string stands before the first capability that grants the required one. -/
def StuckOn (required : String) (capabilities : List (Json F)) : Prop :=
  ∃ before v after, capabilities = before ++ v :: after ∧ (∀ s, v ≠ .str s) ∧
    ∀ x ∈ before, ∃ cap, x = .str cap ∧ grants cap.toList required.toList = false

theorem hasCapability_of_stuckOn {required : String} {capabilities : List (Json F)}
    (h : StuckOn required capabilities) :
    hasCapability required capabilities = .error .attributeError := by
  obtain ⟨before, v, after, rfl, hv, hb⟩ := h
  induction before with
  | nil =>
    cases v with
    | str s => exact (hv s rfl).elim
    | null | bool | int | float | list | dict => rfl
  | cons x before ih =>
    rw [List.forall_mem_cons] at hb
    obtain ⟨⟨cap, rfl, hc⟩, hb⟩ := hb
    rw [List.cons_append, hasCapability, if_neg (Bool.eq_false_iff.1 hc)]
    exact ih hb

theorem stuckOn_of_hasCapability {required : String} {capabilities : List (Json F)} {e : PyError}
    (h : hasCapability required capabilities = .error e) : StuckOn required capabilities := by
  induction capabilities with
  | nil => cases h
  | cons x xs ih =>
    cases x with
    | str cap =>
      rw [hasCapability] at h
      split at h
      · cases h
      · rename_i hc
        obtain ⟨before, v, after, rfl, hv, hb⟩ := ih h
        refine ⟨.str cap :: before, v, after, rfl, hv, ?_⟩
        rw [List.forall_mem_cons]
        exact ⟨⟨cap, rfl, Bool.eq_false_iff.2 hc⟩, hb⟩
    | null | bool | int | float | list | dict =>
      exact ⟨[], _, xs, rfl, nofun, nofun⟩

section
variable [Runtime F]

/-- `payload.get(k, default)` of a dictionary. -/
def member (ms : List (String × Json F)) (k : String) (default : Json F) : Json F :=
  (ms.lookup k).getD default

/-- The numbers of a payload are reached, and the first that is no float is too large for one. -/
def Overflows (payload : Json F) : Prop :=
  ∃ ms subject capabilities, payload = .dict ms ∧ ms.lookup "sub" = some subject ∧
    frozenset (member ms "caps" (.list [])) = .ok capabilities ∧
    (toFloat (member ms "iat" (.float (.finite Runtime.zero))) = .error .overflowError ∨
      (∃ x, toFloat (member ms "iat" (.float (.finite Runtime.zero))) = .ok x) ∧
        toFloat (member ms "exp" (.float (.finite Runtime.zero))) = .error .overflowError)

theorem frozenset_error {v : Json F} {e : PyError} (h : frozenset v = .error e) : e = .typeError := by
  cases v with
  | list xs =>
    rw [frozenset] at h
    split at h
    · cases h
    · cases h
      rfl
  | str s => cases h
  | dict ms => cases h
  | null | bool | int | float =>
    cases h
    rfl

theorem floatOfInt_error {n : Int} {e : PyError} (h : floatOfInt (F := F) n = .error e) :
    e = .overflowError := by
  rw [floatOfInt] at h
  split at h
  · cases h
  · cases h
    rfl

theorem toFloat_error {v : Json F} {e : PyError} (h : toFloat v = .error e) :
    e = .valueError ∨ e = .typeError ∨ e = .overflowError := by
  cases v with
  | float x => cases h
  | int n => exact .inr (.inr (floatOfInt_error h))
  | bool b => exact .inr (.inr (floatOfInt_error h))
  | str s =>
    rw [toFloat] at h
    split at h
    · cases h
    · cases h
      exact .inl rfl
  | null | list | dict =>
    cases h
    exact .inr (.inl rfl)

theorem fromPayload_dict {ms : List (String × Json F)} {subject : Json F}
    (h : ms.lookup "sub" = some subject) :
    CapabilityToken.fromPayload (.dict ms) =
      (frozenset (member ms "caps" (.list []))).bind fun capabilities =>
        (toFloat (member ms "iat" (.float (.finite Runtime.zero)))).bind fun issuedAt =>
          (toFloat (member ms "exp" (.float (.finite Runtime.zero)))).bind fun expiresAt =>
            .ok ⟨subject, capabilities, member ms "env" .null, member ms "iss" (.str "obase"),
              issuedAt, expiresAt, member ms "nonce" (.str "")⟩ := by
  have hs : getItem (.dict ms) "sub" = .ok subject := by rw [getItem, h]
  rw [CapabilityToken.fromPayload, hs]
  rfl

theorem fromPayload_of_overflows {payload : Json F} (h : Overflows payload) :
    CapabilityToken.fromPayload payload = .error .overflowError := by
  obtain ⟨ms, subject, capabilities, rfl, hs, hc, hi | ⟨⟨x, hi⟩, he⟩⟩ := h
  · rw [fromPayload_dict hs, hc, hi]
    rfl
  · rw [fromPayload_dict hs, hc, hi, he]
    rfl

/-- The exceptions of `from_payload`. -/
theorem fromPayload_error {payload : Json F} {e : PyError}
    (h : CapabilityToken.fromPayload payload = .error e) :
    (∃ message, invalidPayload e = .capability message) ∨
      e = .overflowError ∧ Overflows payload := by
  cases payload with
  | null | bool | int | float | str | list =>
    cases h
    exact .inl ⟨_, rfl⟩
  | dict ms =>
    cases hs : ms.lookup "sub" with
    | none =>
      have hk : getItem (.dict ms) "sub" = .error (.keyError "sub") := by rw [getItem, hs]
      rw [CapabilityToken.fromPayload, hk] at h
      cases h
      exact .inl ⟨_, rfl⟩
    | some subject =>
      rw [fromPayload_dict hs] at h
      cases hc : frozenset (member ms "caps" (.list [])) with
      | error e' =>
        rw [hc] at h
        cases h
        rw [frozenset_error hc]
        exact .inl ⟨_, rfl⟩
      | ok capabilities =>
        rw [hc] at h
        cases hi : toFloat (member ms "iat" (.float (.finite Runtime.zero))) with
        | error e' =>
          rw [hi] at h
          cases h
          rcases toFloat_error hi with rfl | rfl | rfl
          · exact .inl ⟨_, rfl⟩
          · exact .inl ⟨_, rfl⟩
          · exact .inr ⟨rfl, ms, subject, capabilities, rfl, hs, hc, .inl hi⟩
        | ok issuedAt =>
          rw [hi] at h
          cases he : toFloat (member ms "exp" (.float (.finite Runtime.zero))) with
          | error e' =>
            rw [he] at h
            cases h
            rcases toFloat_error he with rfl | rfl | rfl
            · exact .inl ⟨_, rfl⟩
            · exact .inl ⟨_, rfl⟩
            · exact .inr ⟨rfl, ms, subject, capabilities, rfl, hs, hc, .inr ⟨⟨_, hi⟩, he⟩⟩
          | ok expiresAt =>
            rw [he] at h
            cases h

/-- The value that a payload under a signature is decoded to. -/
def decoded (payloadB64 : List Char) : Except PyError (Json F) :=
  (b64decode payloadB64).bind loadBytes

theorem decoded_error {payloadB64 : List Char} {e : PyError}
    (h : decoded (F := F) payloadB64 = .error e) : e = .valueError := by
  rw [decoded, b64decode] at h
  split at h
  · split at h
    · rw [Except.bind, loadBytes] at h
      split at h
      · cases h
      · cases h
        rfl
    · cases h
      rfl
  · cases h
    rfl

/-- A token ends in the signature of a payload that overflows. -/
def SignsOverflow (F : Type) [Runtime F] (mac : List UInt8 → List UInt8 → List UInt8)
    (secret : String) (token : List Char) : Prop :=
  ∃ payloadB64 signature, ∃ payload : Json F, token = payloadB64 ++ '.' :: signature ∧
    sign mac secret payloadB64 = .ok signature ∧ decoded payloadB64 = .ok payload ∧
    Overflows payload

section
variable {mac : List UInt8 → List UInt8 → List UInt8} {secret : String}

theorem openPayload_raises_iff {payloadB64 : List Char} (now : F) :
    (∃ e, openPayload payloadB64 none now = .error (.raised e)) ↔
      ∃ payload : Json F, decoded payloadB64 = .ok payload ∧ Overflows payload := by
  cases hd : decoded (F := F) payloadB64 with
  | error e =>
    have hr : readPayload (F := F) payloadB64 = .error e := by
      change (decoded (F := F) payloadB64).bind _ = _
      rw [hd]
      rfl
    rw [openPayload, hr, decoded_error hd]
    apply iff_of_false
    · rintro ⟨_, he⟩
      cases he
    · rintro ⟨_, he, -⟩
      cases he
  | ok payload =>
    have hr : readPayload (F := F) payloadB64 = CapabilityToken.fromPayload payload := by
      change (decoded (F := F) payloadB64).bind _ = _
      rw [hd]
      rfl
    rw [openPayload, hr]
    cases hf : CapabilityToken.fromPayload payload with
    | error e =>
      rcases fromPayload_error hf with ⟨message, hm⟩ | ⟨rfl, ho⟩
      · dsimp only
        rw [hm]
        apply iff_of_false
        · rintro ⟨_, he⟩
          cases he
        · rintro ⟨_, he, ho⟩
          cases he
          rw [fromPayload_of_overflows ho] at hf
          cases hf
          cases hm
      · exact iff_of_true ⟨_, rfl⟩ ⟨payload, rfl, ho⟩
    | ok tok =>
      apply iff_of_false
      · rintro ⟨e, he⟩
        change tok.checkLive none now = _ at he
        rw [CapabilityToken.checkLive] at he
        split at he
        · cases he
        · cases he
      · rintro ⟨_, he, ho⟩
        cases he
        rw [fromPayload_of_overflows ho] at hf
        cases hf

theorem eq_of_signed {payloadB64 signature p s : List Char} (hs : '.' ∉ signature)
    (he : payloadB64 ++ '.' :: signature = p ++ '.' :: s) (hsign : sign mac secret p = .ok s) :
    payloadB64 = p ∧ signature = s := by
  have hr : Separated.rsplit '.' (payloadB64 ++ '.' :: signature) = some (p, s) := by
    rw [he, Separated.rsplit_append (sign_eq_ok hsign).2]
  rw [Separated.rsplit_append hs] at hr
  cases hr
  exact ⟨rfl, rfl⟩

/-- Exactly when `verify_capability_token` raises something else than a `CapabilityError`. -/
theorem verify_raises_iff {token : List Char} (now : F) :
    (∃ e, verifyCapabilityToken mac secret token none now = .error (.raised e)) ↔
      '.' ∈ token ∧ isAscii token = false ∨ SignsOverflow F mac secret token := by
  by_cases hd : '.' ∈ token
  · obtain ⟨payloadB64, signature, rfl, hs, -⟩ := Separated.exists_rsplit hd
    by_cases ha : isAscii (payloadB64 ++ '.' :: signature) = true
    · have hna : ¬ ('.' ∈ payloadB64 ++ '.' :: signature ∧
          isAscii (payloadB64 ++ '.' :: signature) = false) := by
        rintro ⟨-, hf⟩
        rw [ha] at hf
        cases hf
      rw [or_iff_right hna]
      by_cases hsign : sign mac secret payloadB64 = .ok signature
      · rw [verify_of_signed none now hsign, openPayload_raises_iff]
        constructor
        · rintro ⟨payload, hp, ho⟩
          exact ⟨payloadB64, signature, payload, rfl, hsign, hp, ho⟩
        · rintro ⟨p, s, payload, he, hsign', hp, ho⟩
          obtain ⟨rfl, rfl⟩ := eq_of_signed hs he hsign'
          exact ⟨payload, hp, ho⟩
      · rw [verify_of_not_signed none now hs ha hsign]
        apply iff_of_false nofun
        rintro ⟨p, s, payload, he, hsign', -⟩
        obtain ⟨rfl, rfl⟩ := eq_of_signed hs he hsign'
        exact hsign hsign'
    · have he : ∃ e, verifyCapabilityToken mac secret (payloadB64 ++ '.' :: signature) none now =
          .error (.raised e) := verify_of_not_ascii none now hs (Bool.eq_false_iff.2 ha)
      exact iff_of_true he (.inl ⟨hd, Bool.eq_false_iff.2 ha⟩)
  · apply iff_of_false
    · rintro ⟨e, he⟩
      have hc : RaisesCapabilityError (verifyCapabilityToken mac secret token none now) :=
        verify_of_no_stop none now hd
      rw [he] at hc
      rcases hc with ⟨m, hm⟩ | ⟨m, hm⟩
      · cases hm
      · cases hm
    · rintro (⟨hm, -⟩ | ⟨p, s, payload, rfl, -⟩)
      · exact hd hm
      · exact hd (by simp)

end

end

end Obase.PermissionContract
