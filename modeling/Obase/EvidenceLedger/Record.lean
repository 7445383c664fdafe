import Obase.EvidenceLedger.SourceUri
import Obase.Json.Canonical

namespace Obase.EvidenceLedger
set_option autoImplicit true
open Json

/-- The offset of UTC in an ISO timestamp. -/
def zeroOffset : List Char := ['+', '0', '0', ':', '0', '0']

/-- The datetimes of the interpreter. `toUtc` is `astimezone(timezone.utc)`, `none` where it
overflows; what it returns has a zero offset and is read back from its text. -/
structure Datetimes (T : Type) where
  fromisoformat : List Char → Option T
  aware : T → Bool
  toUtc : T → Option T
  isoformat : T → List Char
  aware_toUtc : ∀ t u : T, toUtc t = some u → aware u = true
  toUtc_toUtc : ∀ t u : T, toUtc t = some u → toUtc u = some u
  isoformat_utc : ∀ t u : T, toUtc t = some u →
    ∃ s, isoformat u = s ++ zeroOffset ∧ '+' ∉ s ∧ 'Z' ∉ s
  fromisoformat_isoformat : ∀ t u : T, toUtc t = some u → fromisoformat (isoformat u) = some u

/-- A clock that knows one instant. -/
def Datetimes.instant (text : List Char) (hplus : '+' ∉ text) (hz : 'Z' ∉ text) :
    Datetimes Unit where
  fromisoformat s := if s = text ++ zeroOffset then some () else none
  aware _ := true
  toUtc := some
  isoformat _ := text ++ zeroOffset
  aware_toUtc _ _ _ := rfl
  toUtc_toUtc _ _ _ := rfl
  isoformat_utc _ _ _ := ⟨text, rfl, hplus, hz⟩
  fromisoformat_isoformat _ _ _ := if_pos rfl

/-- What the ledger takes from the library: URLs, datetimes and `hashlib.sha256`. -/
structure Library (T : Type) where
  url : Url.UrlText
  times : Datetimes T
  sha256 : List UInt8 → List UInt8

/-- `sha256(text.encode()).hexdigest()`. -/
def Library.digest (L : Library T) (text : List Char) : String := hex (L.sha256 (utf8 text))

def maxRecordBytes : Nat := 1000000

/-- The arguments of `build_evidence_record`; `None` is `null`. -/
structure Arguments (F T : Type) where
  sourceType : Obj F
  sourceUri : Obj F
  retrievedAt : Obj F ⊕ T
  payload : Obj F
  query : Obj F
  toolName : Obj F
  metadata : Obj F

/-- The datetime that a timestamp is given as. -/
def parseTimestamp (D : Datetimes T) : Obj F ⊕ T → Except EvidenceError T
  | .inl (.str s) =>
    match D.fromisoformat (Text.replace ['Z'] zeroOffset s.toList) with
    | some t => .ok t
    | none => .error (.record "retrieved_at must be an ISO-8601 timestamp")
  | .inl _ => .error (.record "retrieved_at must be a string or datetime")
  | .inr t => .ok t

/-- `_utc_timestamp`. -/
def utcTimestamp (D : Datetimes T) (value : Obj F ⊕ T) : Except EvidenceError (List Char) := do
  let parsed ← parseTimestamp D value
  if D.aware parsed = false then
    .error (.record "retrieved_at must include an explicit timezone")
  else
    match D.toUtc parsed with
    | some u => .ok (Text.replace zeroOffset ['Z'] (D.isoformat u))
    | none => .error .overflowError

def checkSourceType (value : Obj F) : Except EvidenceError String :=
  match value with
  | .str s =>
    if Text.strip s.toList = [] ∨ 80 < s.length then
      .error (.record "source_type must be a non-empty string of at most 80 characters")
    else .ok (String.ofList (Text.strip s.toList))
  | _ => .error (.record "source_type must be a non-empty string of at most 80 characters")

/-- `None`, or a string of limited length. -/
def isShortText (limit : Nat) : Obj F → Bool
  | .null => true
  | .str s => s.length ≤ limit
  | _ => false

def checkText (limit : Nat) (message : String) (value : Obj F) : Except EvidenceError Unit :=
  if isShortText limit value then .ok () else .error (.record message)

def checkMetadata (value : Obj F) : Except EvidenceError (Obj F) :=
  match value with
  | .null => .ok (.dict [])
  | .dict ms => .ok (.dict ms)
  | _ => .error (.record "metadata must be a JSON object")

def checkSourceUri (U : Url.UrlText) (value : Obj F) : Except EvidenceError (List Char) :=
  match value with
  | .str s => canonicalSourceUri U s.toList
  | _ => .error (.record "source_uri is required")

theorem checkText_ok {limit : Nat} {message : String} {value : Obj F} {x : Unit} :
    checkText limit message value = .ok x ↔ isShortText limit value = true := by
  rw [checkText]
  split
  · rename_i h
    exact iff_of_true rfl h
  · rename_i h
    exact iff_of_false (fun he => nomatch he) h

theorem isShortText_cases {limit : Nat} {v : Obj F} (h : isShortText limit v = true) :
    v = .null ∨ ∃ s, v = .str s := by
  cases v with
  | null => exact .inl rfl
  | str s => exact .inr ⟨s, rfl⟩
  | _ => cases h

theorem checkSourceType_str {v : Obj F} {s : String} (h : checkSourceType v = .ok s) :
    ∃ raw, v = .str raw := by
  cases v with
  | str raw => exact ⟨raw, rfl⟩
  | _ => cases h

theorem checkSourceUri_str {U : Url.UrlText} {v : Obj F} {s : List Char}
    (h : checkSourceUri U v = .ok s) : ∃ raw, v = .str raw ∧ canonicalSourceUri U raw.toList = .ok s := by
  cases v with
  | str raw => exact ⟨raw, rfl, h⟩
  | _ => cases h

theorem utcTimestamp_str {D : Datetimes T} {v : Obj F} {ts : List Char}
    (h : utcTimestamp D (.inl v) = .ok ts) : ∃ raw, v = .str raw := by
  cases v with
  | str raw => exact ⟨raw, rfl⟩
  | _ => cases h

theorem checkMetadata_dict {v m : Obj F} (h : checkMetadata v = .ok m) : ∃ ms, m = .dict ms := by
  cases v with
  | null =>
    cases h
    exact ⟨_, rfl⟩
  | dict ms =>
    cases h
    exact ⟨_, rfl⟩
  | _ => cases h

theorem utcTimestamp_again {D : Datetimes T} {value : Obj F ⊕ T} {ts : List Char}
    (h : utcTimestamp D value = .ok ts) :
    utcTimestamp (F := F) D (.inl (.str (String.ofList ts))) = .ok ts := by
  rw [utcTimestamp] at h
  obtain ⟨t, -, h⟩ := bind_ok h
  split at h
  · cases h
  · split at h
    · rename_i u hu
      cases h
      obtain ⟨s, hs, hplus, hz⟩ := D.isoformat_utc t u hu
      have hto : Text.replace zeroOffset ['Z'] (D.isoformat u) = s ++ ['Z'] := by
        rw [hs]
        exact Text.replace_end hplus ['Z']
      have hfrom : Text.replace ['Z'] zeroOffset (s ++ ['Z']) = D.isoformat u := by
        rw [hs]
        exact Text.replace_end hz _
      have hparse : parseTimestamp (F := F) D
          (.inl (.str (String.ofList (Text.replace zeroOffset ['Z'] (D.isoformat u))))) =
          .ok u := by
        rw [parseTimestamp, hto, String.toList_ofList, hfrom, D.fromisoformat_isoformat t u hu]
      have haware : ¬ D.aware u = false := by
        rw [D.aware_toUtc t u hu]
        simp
      rw [utcTimestamp, hparse]
      dsimp only [bind, Except.bind]
      rw [if_neg haware, D.toUtc_toUtc t u hu]
    · cases h

theorem strip_strip (cs : List Char) : Text.strip (Text.strip cs) = Text.strip cs := by
  by_cases h : Text.strip cs = []
  · rw [h]
    rfl
  · exact Text.strip_of_trimmed (Text.trim_trimmed h)

theorem length_strip_le (cs : List Char) : (Text.strip cs).length ≤ cs.length :=
  le_trans (List.rdropWhile_prefix Text.isSpace _).length_le (List.dropWhile_suffix _).length_le

theorem checkSourceType_again {v : Obj F} {s : String} (h : checkSourceType v = .ok s) :
    checkSourceType (F := F) (.str s) = .ok s := by
  obtain ⟨raw, rfl⟩ := checkSourceType_str h
  rw [checkSourceType] at h ⊢
  split at h
  · cases h
  · rename_i hc
    cases h
    rw [not_or, not_lt] at hc
    have hl := length_strip_le raw.toList
    rw [String.length_toList] at hl
    rw [String.toList_ofList, strip_strip, if_neg]
    rw [not_or, not_lt, String.length_ofList]
    exact ⟨hc.1, le_trans hl hc.2⟩

/-- `record.get(field)`, `none` where the field is missing. -/
def field? (record : List (Key F × Obj F)) (name : String) : Option (Obj F) :=
  (record.find? fun p =>
    match p.1 with
    | .str s => s == name
    | _ => false).map Prod.snd

/-- The fields of a record with string keys. -/
def fieldsOf (d : Dict String (Obj F)) (name : String) : Option (Obj F) := d.lookup name

theorem field?_dictObj (d : Dict String (Obj F)) (name : String) :
    field? (d.map fun p => ((.str p.1 : Key F), p.2)) name = fieldsOf d name := by
  rw [fieldsOf]
  induction d with
  | nil => rfl
  | cons p d ih =>
    obtain ⟨k, v⟩ := p
    rw [field?, List.map_cons, List.find?_cons, List.lookup_cons]
    by_cases hk : name = k
    · subst hk
      simp
    · have hn : (name == k) = false := by simpa using hk
      have hn' : (k == name) = false := by simpa using Ne.symm hk
      dsimp only
      rw [hn, hn']
      exact ih

theorem field?_ofJson (ms : List (String × Json F)) (name : String) :
    field? (Value.mapKeysMembers (.str : String → Key F) ms) name =
      (ms.lookup name).map ofJson := by
  rw [Value.mapKeysMembers_eq]
  have hd := field?_dictObj (Dict.mapVals ofJson ms) name
  rw [fieldsOf, Dict.lookup_mapVals, Dict.mapVals, List.map_map] at hd
  exact hd

def recordOf (evidenceId sourceType sourceUri retrievedAt contentSha256 : String)
    (payload metadata query toolName : Obj F) : Dict String (Obj F) :=
  [("schema_version", .int 1), ("evidence_id", .str evidenceId), ("source_type", .str sourceType),
    ("source_uri", .str sourceUri), ("retrieved_at_utc", .str retrievedAt),
    ("content_sha256", .str contentSha256), ("payload", payload), ("metadata", metadata),
    ("query", query), ("tool_name", toolName)]

theorem recordOf_distinct (i t u r h : String) (p m q n : Obj F) :
    Dict.Distinct (recordOf i t u r h p m q n) := by
  have hk : ["schema_version", "evidence_id", "source_type", "source_uri", "retrieved_at_utc",
      "content_sha256", "payload", "metadata", "query", "tool_name"].Nodup := by decide
  exact hk

section
variable [FloatText F]

/-- `_canonical_json`. -/
def canonicalJson (value : Obj F) : Except EvidenceError (List Char) :=
  match dumpsStrict value with
  | some text => .ok text
  | none => .error .notStrictJson

/-- `json.loads`. -/
def decodeJson (text : List Char) : Except EvidenceError (Obj F) :=
  match loads text with
  | some v => .ok (ofJson v)
  | none => .error .valueError

def identityOf (sourceType sourceUri contentSha256 : String) : Dict String (Obj F) :=
  [("source_type", .str sourceType), ("source_uri", .str sourceUri),
    ("content_sha256", .str contentSha256)]

def buildEvidenceRecord (L : Library T) (a : Arguments F T) :
    Except EvidenceError (Dict String (Obj F)) := do
  let sourceType ← checkSourceType a.sourceType
  checkText 4000 "query must be a string of at most 4000 characters" a.query
  checkText 160 "tool_name must be a string of at most 160 characters" a.toolName
  let metadata ← checkMetadata a.metadata
  let canonicalPayload ← canonicalJson a.payload
  let canonicalMetadata ← canonicalJson metadata
  if maxRecordBytes < byteLen canonicalPayload + byteLen canonicalMetadata then
    .error (.record "payload and metadata exceed 1000000 bytes")
  else
    let source ← checkSourceUri L.url a.sourceUri
    let payloadHash := L.digest canonicalPayload
    let identity ← canonicalJson (F := F)
      (dictObj (identityOf sourceType (String.ofList source) payloadHash))
    let retrievedAt ← utcTimestamp L.times a.retrievedAt
    let payload ← decodeJson canonicalPayload
    let metadata ← decodeJson canonicalMetadata
    .ok (recordOf (L.digest identity) sourceType (String.ofList source) (String.ofList retrievedAt)
      payloadHash payload metadata a.query a.toolName)

/-- `_REQUIRED_FIELDS`. -/
def requiredFields : List String :=
  ["schema_version", "evidence_id", "source_type", "source_uri", "retrieved_at_utc",
    "content_sha256", "payload", "metadata"]

/-- The arguments that a record is rebuilt from. -/
def argumentsOf (get : String → Option (Obj F)) : Arguments F T where
  sourceType := (get "source_type").getD .null
  sourceUri := (get "source_uri").getD .null
  retrievedAt := .inl ((get "retrieved_at_utc").getD .null)
  payload := (get "payload").getD .null
  query := (get "query").getD .null
  toolName := (get "tool_name").getD .null
  metadata := (get "metadata").getD .null

def numberOf : Obj F → Option ℚ
  | .int n => some n
  | .bool b => some (if b then 1 else 0)
  | .float (.finite x) => some (FloatText.val x)
  | _ => none

/-- `v == w` where `w` is a string or an integer. -/
def equals (v w : Obj F) : Bool :=
  match v, w with
  | .str s, .str t => s == t
  | v, .int n => numberOf v == some (n : ℚ)
  | _, _ => false

def sameField (get : String → Option (Obj F)) (rebuilt : Dict String (Obj F)) (name : String) :
    Bool :=
  match get name, rebuilt.lookup name with
  | some v, some w => equals v w
  | _, _ => false

/-- The checks of a record of given fields. -/
def validateFields (L : Library T) (get : String → Option (Obj F)) : Except EvidenceError Unit :=
  if requiredFields.all fun name => (get name).isSome then do
    let rebuilt ← buildEvidenceRecord L (argumentsOf get)
    match ["schema_version", "source_uri", "content_sha256", "evidence_id"].find? fun name =>
        !sameField get rebuilt name with
    | some name => .error (.record ("record integrity check failed for " ++ name))
    | none => .ok ()
  else .error (.record "record is missing required evidence fields")

def validateEvidenceRecord (L : Library T) (record : Obj F) : Except EvidenceError (Obj F) :=
  match record with
  | .dict ms => (validateFields L (field? ms)).map fun _ => record
  | _ => .error (.record "record is missing required evidence fields")

end
end Obase.EvidenceLedger
