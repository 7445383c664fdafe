import Obase.Concrete
import Obase.EvidenceLedger.FixedUri
import Obase.EvidenceLedger.Record

namespace Obase.EvidenceLedger
set_option autoImplicit true
open Json

/-- What `build_evidence_record` makes of its arguments before it puts them together. -/
structure Contents (F : Type) where
  sourceType : String
  sourceUri : String
  retrievedAt : String
  payload : Json F
  metadata : Json F

/-- The contents of a record that is read back from its text. -/
def Contents.reread (c : Contents F) : Contents F :=
  { c with payload := arrange c.payload.build, metadata := arrange c.metadata.build }

theorem Contents.reread_reread (c : Contents F) : c.reread.reread = c.reread := by
  have h (u : Json F) : arrange (arrange u.build).build = arrange u.build :=
    arrange_build_eq_iff.2 (arrange_ordered (Value.build_distinct u))
  rw [Contents.reread, Contents.reread, h, h]

theorem isShortText_ofJson {limit : Nat} {v : Obj F} (h : isShortText limit v = true) :
    ∃ w : Json F, v = ofJson w ∧ strict v = true := by
  rcases isShortText_cases h with rfl | ⟨s, rfl⟩
  · exact ⟨.null, rfl, rfl⟩
  · exact ⟨.str s, rfl, rfl⟩

variable [FloatText F] {L : Library T}

theorem canonicalJson_ok {value : Obj F} {text : List Char} :
    canonicalJson value = .ok text ↔
      strict value = true ∧ ∃ u, tree value = some u ∧ text = dumps .compact u := by
  rw [← dumpsStrict_iff, canonicalJson]
  cases dumpsStrict value with
  | none => exact iff_of_false (fun h => nomatch h) fun h => nomatch h
  | some t => rw [Except.ok.injEq, Option.some.injEq]

theorem decodeJson_dumps (u : Json F) : decodeJson (dumps .compact u) = .ok (ofJson u.build) := by
  rw [decodeJson, loads_dumps]

def identityTree (sourceType sourceUri contentSha256 : String) : Json F :=
  arrange (.dict [("source_type", .str sourceType), ("source_uri", .str sourceUri),
    ("content_sha256", .str contentSha256)])

theorem canonicalJson_identity (sourceType sourceUri contentSha256 : String) :
    canonicalJson (F := F) (dictObj (identityOf sourceType sourceUri contentSha256)) =
      .ok (dumps .compact (identityTree (F := F) sourceType sourceUri contentSha256)) := by
  apply canonicalJson_ok.2
  exact ⟨rfl, _, tree_ofJson (.dict [("source_type", .str sourceType),
    ("source_uri", .str sourceUri), ("content_sha256", .str contentSha256)]), rfl⟩

def Contents.contentSha256 (L : Library T) (c : Contents F) : String :=
  L.digest (dumps .compact c.payload)

def Contents.evidenceId (L : Library T) (c : Contents F) : String :=
  L.digest (dumps .compact
    (identityTree (F := F) c.sourceType c.sourceUri (c.contentSha256 L)))

def Contents.record (L : Library T) (c : Contents F) (query toolName : Obj F) :
    Dict String (Obj F) :=
  recordOf (c.evidenceId L) c.sourceType c.sourceUri c.retrievedAt (c.contentSha256 L)
    (ofJson c.payload.build) (ofJson c.metadata.build) query toolName

/-- The arguments pass every check and have these contents. -/
structure Accepts (L : Library T) (a : Arguments F T) (c : Contents F) : Prop where
  sourceType : checkSourceType a.sourceType = .ok c.sourceType
  query : isShortText 4000 a.query = true
  toolName : isShortText 160 a.toolName = true
  metadata : ∃ m, checkMetadata a.metadata = .ok m ∧ strict m = true ∧ tree m = some c.metadata
  payload : strict a.payload = true ∧ tree a.payload = some c.payload
  size : byteLen (dumps .compact c.payload) + byteLen (dumps .compact c.metadata) ≤ maxRecordBytes
  sourceUri : checkSourceUri L.url a.sourceUri = .ok c.sourceUri.toList
  retrievedAt : utcTimestamp L.times a.retrievedAt = .ok c.retrievedAt.toList

theorem buildEvidenceRecord_ok {a : Arguments F T} {r : Dict String (Obj F)} :
    buildEvidenceRecord L a = .ok r ↔
      ∃ c, Accepts L a c ∧ r = c.record L a.query a.toolName := by
  rw [buildEvidenceRecord]
  constructor
  · intro h
    obtain ⟨sourceType, hst, h⟩ := bind_ok h
    obtain ⟨_, hq, h⟩ := bind_ok h
    obtain ⟨_, ht, h⟩ := bind_ok h
    obtain ⟨m, hm, h⟩ := bind_ok h
    obtain ⟨text, hp, h⟩ := bind_ok h
    obtain ⟨text', hm', h⟩ := bind_ok h
    obtain ⟨hps, u, hpt, rfl⟩ := canonicalJson_ok.1 hp
    obtain ⟨hms, w, hmt, rfl⟩ := canonicalJson_ok.1 hm'
    split at h
    · cases h
    · rename_i hsize
      obtain ⟨source, hu, h⟩ := bind_ok h
      dsimp only at h
      rw [canonicalJson_identity] at h
      obtain ⟨_, hi, h⟩ := bind_ok h
      cases hi
      obtain ⟨ts, hts, h⟩ := bind_ok h
      rw [decodeJson_dumps, decodeJson_dumps] at h
      cases h
      refine ⟨⟨sourceType, String.ofList source, String.ofList ts, u, w⟩, ?_, rfl⟩
      exact ⟨hst, checkText_ok.1 hq, checkText_ok.1 ht, ⟨m, hm, hms, hmt⟩, ⟨hps, hpt⟩,
        not_lt.1 hsize, by rw [hu, String.toList_ofList], by rw [hts, String.toList_ofList]⟩
  · rintro ⟨c, h, rfl⟩
    obtain ⟨m, hm, hms, hmt⟩ := h.metadata
    have hp := canonicalJson_ok.2 ⟨h.payload.1, c.payload, h.payload.2, rfl⟩
    have hm' := canonicalJson_ok.2 ⟨hms, c.metadata, hmt, rfl⟩
    rw [h.sourceType, checkText_ok (x := ()) |>.2 h.query, checkText_ok (x := ()) |>.2 h.toolName,
      hm, hp]
    dsimp only [bind, Except.bind]
    rw [hm']
    dsimp only
    rw [if_neg (not_lt.2 h.size), h.sourceUri]
    dsimp only
    rw [canonicalJson_identity, h.retrievedAt, decodeJson_dumps, decodeJson_dumps]
    dsimp only
    rw [String.ofList_toList, String.ofList_toList]
    rfl

theorem Accepts.unique {a : Arguments F T} {c d : Contents F} (h : Accepts L a c)
    (h' : Accepts L a d) : c = d := by
  obtain ⟨sc, uc, tc, pc, mc⟩ := c
  obtain ⟨sd, ud, td, pd, md⟩ := d
  have hs := h.sourceType.symm.trans h'.sourceType
  have hu := h.sourceUri.symm.trans h'.sourceUri
  have ht := h.retrievedAt.symm.trans h'.retrievedAt
  have hp := h.payload.2.symm.trans h'.payload.2
  obtain ⟨m, hm, -, hmt⟩ := h.metadata
  obtain ⟨m', hm', -, hmt'⟩ := h'.metadata
  have hmm := hm.symm.trans hm'
  cases hmm
  have hmd := hmt.symm.trans hmt'
  simp only [Except.ok.injEq, Option.some.injEq, String.toList_inj] at hs hu ht hp hmd
  rw [hs, hu, ht, hp, hmd]

/-- What a record says agrees with what it is rebuilt to. -/
structure Agrees (L : Library T) (get : String → Option (Obj F)) (c : Contents F) : Prop where
  schemaVersion : ∃ v, get "schema_version" = some v ∧ equals v (.int 1) = true
  sourceUri : get "source_uri" = some (.str c.sourceUri)
  contentSha256 : get "content_sha256" = some (.str (c.contentSha256 L))
  evidenceId : get "evidence_id" = some (.str (c.evidenceId L))

theorem equals_str {v : Obj F} {s : String} : equals v (.str s) = true ↔ v = .str s := by
  cases v with
  | str t =>
    rw [equals, beq_iff_eq, Value.str.injEq]
  | _ => exact iff_of_false (fun h => nomatch h) fun h => nomatch h

theorem equals_one : equals (F := F) (.int 1) (.int 1) = true := by
  simp [equals, numberOf]

theorem sameField_str {get : String → Option (Obj F)} {r : Dict String (Obj F)} {name s : String}
    (h : r.lookup name = some (.str s)) :
    sameField get r name = true ↔ get name = some (.str s) := by
  rw [sameField, h]
  cases get name with
  | none => exact iff_of_false (fun h => nomatch h) fun h => nomatch h
  | some v => rw [equals_str, Option.some.injEq]

theorem validateFields_ok {get : String → Option (Obj F)} :
    validateFields L get = .ok () ↔ (∀ name ∈ requiredFields, (get name).isSome = true) ∧
      ∃ c, Accepts L (argumentsOf get) c ∧ Agrees L get c := by
  rw [validateFields]
  by_cases hreq : (requiredFields.all fun name => (get name).isSome) = true
  · rw [if_pos hreq, and_iff_right (List.all_eq_true.1 hreq)]
    constructor
    · intro h
      obtain ⟨r, hr, h⟩ := bind_ok h
      obtain ⟨c, hc, rfl⟩ := buildEvidenceRecord_ok.1 hr
      refine ⟨c, hc, ?_⟩
      split at h
      · cases h
      · rename_i hf
        simp only [List.find?_eq_none, Bool.not_eq_true', Bool.not_eq_false, List.forall_mem_cons,
          List.not_mem_nil, false_implies, implies_true, and_true] at hf
        obtain ⟨hv, hu, hh, hi⟩ := hf
        refine ⟨?_, (sameField_str rfl).1 hu, (sameField_str rfl).1 hh, (sameField_str rfl).1 hi⟩
        rw [sameField] at hv
        cases hg : get "schema_version" with
        | none =>
          rw [hg] at hv
          cases hv
        | some v =>
          rw [hg] at hv
          exact ⟨v, rfl, hv⟩
    · rintro ⟨c, hc, ⟨v, hg, hv⟩, hu, hh, hi⟩
      rw [buildEvidenceRecord_ok.2 ⟨c, hc, rfl⟩]
      have hf : (["schema_version", "source_uri", "content_sha256", "evidence_id"].find? fun name =>
          !sameField get (c.record L (argumentsOf (T := T) get).query
            (argumentsOf (T := T) get).toolName) name) = none := by
        simp only [List.find?_eq_none, Bool.not_eq_true', Bool.not_eq_false, List.forall_mem_cons,
          List.not_mem_nil, false_implies, implies_true, and_true]
        refine ⟨?_, (sameField_str rfl).2 hu, (sameField_str rfl).2 hh, (sameField_str rfl).2 hi⟩
        rw [sameField, hg]
        exact hv
      dsimp only [bind, Except.bind]
      rw [hf]
  · rw [if_neg hreq]
    apply iff_of_false (fun h => nomatch h)
    rintro ⟨hall, -⟩
    exact hreq (List.all_eq_true.2 hall)

/-- Fields as they come back from the text of a record. -/
structure Reread (get get' : String → Option (Obj F)) : Prop where
  written : ∀ name v, get name = some v → strict v = true ∧ ∃ u, tree v = some u
  decoded : ∀ name v u, get name = some v → tree v = some u → get' name = some (ofJson u.build)
  missing : ∀ name, get name = none → get' name = none

theorem Reread.str {get get' : String → Option (Obj F)} (h : Reread get get') {name s : String}
    (hg : get name = some (.str s)) : get' name = some (.str s) :=
  h.decoded name (.str s) (.str s) hg rfl

theorem Reread.getD_null {get get' : String → Option (Obj F)} (h : Reread get get') (name : String) :
    ∃ u, tree ((get name).getD .null) = some u ∧ strict ((get name).getD .null) = true ∧
      (get' name).getD .null = ofJson u.build := by
  cases hg : get name with
  | none =>
    rw [h.missing name hg]
    exact ⟨.null, rfl, rfl, rfl⟩
  | some v =>
    obtain ⟨hs, u, hu⟩ := h.written name v hg
    rw [h.decoded name v u hg hu]
    exact ⟨u, hu, hs, rfl⟩

theorem Reread.str_getD {get get' : String → Option (Obj F)} (h : Reread get get') {name s : String}
    (hg : (get name).getD .null = .str s) : (get' name).getD .null = .str s := by
  cases hn : get name with
  | none =>
    rw [hn] at hg
    cases hg
  | some v =>
    rw [hn, Option.getD_some] at hg
    rw [hg] at hn
    rw [h.str hn]
    rfl

theorem Reread.isShortText {get get' : String → Option (Obj F)} (h : Reread get get')
    {limit : Nat} {name : String} (hs : isShortText limit ((get name).getD .null) = true) :
    isShortText limit ((get' name).getD .null) = true := by
  obtain ⟨u, hu, -, he⟩ := h.getD_null name
  rcases isShortText_cases hs with hn | ⟨s, hn⟩
  · rw [hn] at hu
    cases hu
    rw [he]
    rfl
  · rw [h.str_getD hn, ← hn]
    exact hs

theorem tree_isDict {ms : List (Key F × Obj F)} {u : Json F} (h : tree (.dict ms) = some u) :
    ∃ ns, u = .dict ns := by
  obtain ⟨w, hw, rfl⟩ := Option.map_eq_some_iff.1 h
  obtain ⟨ns, os, rfl, -⟩ := sortKeys_dict hw
  exact ⟨_, rfl⟩

theorem tree_build {v : Obj F} {u : Json F} (hs : strict v = true) (ht : tree v = some u) :
    strict (ofJson u.build) = true ∧ tree (ofJson u.build) = some (arrange u.build) := by
  obtain ⟨w, hw, rfl⟩ := Option.map_eq_some_iff.1 ht
  exact ⟨strict_build (strict_sortKeys hs hw), tree_ofJson _⟩

theorem checkMetadata_reread {v m : Obj F} {u w : Json F} (h : checkMetadata v = .ok m)
    (hs : strict m = true) (hm : tree m = some w) (hu : tree v = some u) :
    ∃ m', checkMetadata (ofJson u.build) = .ok m' ∧ strict m' = true ∧
      tree m' = some (arrange w.build) := by
  cases v with
  | null =>
    cases h
    cases hu
    cases hm
    exact ⟨.dict [], rfl, rfl, rfl⟩
  | dict ms =>
    cases h
    cases hm.symm.trans hu
    obtain ⟨ns, rfl⟩ := tree_isDict hu
    have hb := tree_build hs hu
    exact ⟨_, rfl, hb.1, hb.2⟩
  | _ => cases h

/-- The arguments of a record that is read back are accepted as those of the record were. -/
theorem Accepts.reread {get get' : String → Option (Obj F)} (h : Reread get get')
    {c : Contents F} (hc : Accepts L (argumentsOf get) c) :
    Accepts L (argumentsOf get') c.reread := by
  obtain ⟨raw, hraw⟩ := checkSourceType_str hc.sourceType
  obtain ⟨uri, huri, -⟩ := checkSourceUri_str hc.sourceUri
  obtain ⟨ts, hts⟩ := utcTimestamp_str hc.retrievedAt
  obtain ⟨m, hm, hms, hmt⟩ := hc.metadata
  obtain ⟨u, hu, -, hmeta⟩ := h.getD_null "metadata"
  obtain ⟨w, hw, hws, hpay⟩ := h.getD_null "payload"
  have hpt := hc.payload.2
  dsimp only [argumentsOf] at hraw huri hpt
  cases hw.symm.trans hpt
  constructor
  · have hst := hc.sourceType
    dsimp only [argumentsOf] at hst ⊢
    rw [h.str_getD hraw, ← hraw]
    exact hst
  · exact h.isShortText hc.query
  · exact h.isShortText hc.toolName
  · have hr := checkMetadata_reread hm hms hmt hu
    dsimp only [argumentsOf]
    rw [hmeta]
    exact hr
  · dsimp only [argumentsOf]
    rw [hpay]
    exact tree_build hws hw
  · exact le_trans (Nat.add_le_add (byteLen_rewritten _) (byteLen_rewritten _)) hc.size
  · have hsu := hc.sourceUri
    dsimp only [argumentsOf] at hsu ⊢
    rw [h.str_getD huri, ← huri]
    exact hsu
  · have hra := hc.retrievedAt
    dsimp only [argumentsOf] at hra ⊢
    rw [h.str_getD hts, ← hts]
    exact hra

theorem Contents.evidenceId_congr {c d : Contents F} (hs : c.sourceType = d.sourceType)
    (hu : c.sourceUri = d.sourceUri) (hh : c.contentSha256 L = d.contentSha256 L) :
    c.evidenceId L = d.evidenceId L := by
  rw [Contents.evidenceId, Contents.evidenceId, hs, hu, hh]

theorem equals_one_reread {v : Obj F} (h : equals v (.int 1) = true) :
    ∃ u, tree v = some u ∧ equals (ofJson u.build) (.int 1) = true := by
  cases v with
  | int n => exact ⟨.int n, rfl, h⟩
  | bool b => exact ⟨.bool b, rfl, h⟩
  | float x => exact ⟨.float x, rfl, h⟩
  | _ => cases h

/-- A record that is read back is valid exactly when the digest of its payload is still the one
that it was given. -/
theorem validateFields_reread_iff {get get' : String → Option (Obj F)} (h : Reread get get')
    {c : Contents F} (hreq : ∀ name ∈ requiredFields, (get name).isSome = true)
    (hc : Accepts L (argumentsOf get) c) (ha : Agrees L get c) :
    validateFields L get' = .ok () ↔ c.reread.contentSha256 L = c.contentSha256 L := by
  have hc' := hc.reread h
  have hhash := h.str ha.contentSha256
  rw [validateFields_ok]
  constructor
  · rintro ⟨-, d, hd, hag⟩
    cases hd.unique hc'
    have hs := hag.contentSha256
    rw [hhash, Option.some.injEq, Value.str.injEq] at hs
    exact hs.symm
  · intro he
    constructor
    · intro name hn
      obtain ⟨v, hv⟩ := Option.isSome_iff_exists.1 (hreq name hn)
      obtain ⟨-, u, hu⟩ := h.written name v hv
      rw [h.decoded name v u hv hu]
      rfl
    · refine ⟨c.reread, hc', ?_, h.str ha.sourceUri, ?_, ?_⟩
      · obtain ⟨v, hv, hone⟩ := ha.schemaVersion
        obtain ⟨u, hu, hone'⟩ := equals_one_reread hone
        exact ⟨_, h.decoded _ v u hv hu, hone'⟩
      · rw [he]
        exact hhash
      · rw [Contents.evidenceId_congr (c := c.reread) (d := c) rfl rfl he]
        exact h.str ha.evidenceId

theorem tree_member {d : Dict String (Obj F)} {u : Json F} (h : tree (dictObj d) = some u)
    {name : String} {v : Obj F} (hv : d.lookup name = some v) : ∃ w, tree v = some w := by
  obtain ⟨w, hw, rfl⟩ := Option.map_eq_some_iff.1 h
  obtain ⟨ns, os, rfl, -, hns⟩ := sortKeys_dict hw
  obtain ⟨q, -, -, hs⟩ := forall₂_left hns
    (List.mem_map_of_mem (f := fun p => ((.str p.1 : Key F), p.2)) (Dict.lookup_mem hv))
  exact ⟨keyTexts q.2, congrArg (Option.map keyTexts) hs⟩

/-- A record comes back from its text with each field as it comes back from its own. -/
theorem reread_dictObj {d : Dict String (Obj F)} (hd : Dict.Distinct d) {u : Json F}
    (hs : strict (dictObj d) = true) (ht : tree (dictObj d) = some u) :
    ∃ ms, ofJson u.build = .dict ms ∧ Reread (fieldsOf d) (field? ms) := by
  obtain ⟨ms, hms, -, hl⟩ := tree_dict hd ht
  have hget (name : String) : field? (Value.mapKeysMembers (.str : String → Key F) ms) name =
      (((fieldsOf d name).bind tree).map Value.build).map ofJson := by
    rw [field?_ofJson, hl, fieldsOf]
  refine ⟨Value.mapKeysMembers .str ms, ?_, ?_, ?_, ?_⟩
  · rw [hms]
    rfl
  · intro name v hv
    refine ⟨?_, tree_member ht hv⟩
    have hm := strictMembers_iff.1 hs (.str name, v)
      (List.mem_map_of_mem (f := fun p => ((.str p.1 : Key F), p.2)) (Dict.lookup_mem hv))
    exact hm.2
  · intro name v w hv hw
    rw [hget, hv, Option.bind_some, hw]
    rfl
  · intro name hn
    rw [hget, hn]
    rfl

theorem validate_ok {ms : List (Key F × Obj F)} :
    validateEvidenceRecord L (.dict ms) = .ok (.dict ms) ↔ validateFields L (field? ms) = .ok () := by
  rw [validateEvidenceRecord]
  cases validateFields L (field? ms) with
  | error e => exact iff_of_false (fun h => nomatch h) fun h => nomatch h
  | ok x => exact iff_of_true rfl rfl

theorem validate_dictObj {d : Dict String (Obj F)} :
    validateEvidenceRecord L (dictObj d) = .ok (dictObj d) ↔
      validateFields L (fieldsOf d) = .ok () := by
  rw [dictObj, validate_ok]
  have hf : field? (d.map fun p => ((.str p.1 : Key F), p.2)) = fieldsOf d :=
    funext (field?_dictObj d)
  rw [hf]

/-- Two different texts with one digest. -/
def Library.Collides (L : Library T) (s t : List Char) : Prop := s ≠ t ∧ L.digest s = L.digest t

/-- The payload's text is the text of what it is decoded to: the keys of each dictionary, in the
order that `sort_keys` gives them, have increasing texts. The order of numbers is not that of
their texts. -/
def KeepsText (L : Library T) (payload : Obj F) : Prop :=
  ∀ u, tree payload = some u →
    Ordered u ∨ L.Collides (dumps .compact u) (dumps .compact (arrange u.build))

theorem keepsText_iff {payload : Obj F} {u : Json F} (h : tree payload = some u) :
    KeepsText L payload ↔
      L.digest (dumps .compact (arrange u.build)) = L.digest (dumps .compact u) := by
  rw [KeepsText, h]
  constructor
  · intro hk
    rcases hk u rfl with ho | hc
    · rw [dumps_arrange_build_iff.2 ho]
    · exact hc.2.symm
  · intro he w hw
    cases hw
    by_cases ho : Ordered u
    · exact .inl ho
    · exact .inr ⟨fun ht => ho (dumps_arrange_build_iff.1 ht.symm), he.symm⟩

/-- `build_evidence_record` on the fields of a record. -/
def rebuild (L : Library T) (record : Obj F) : Except EvidenceError (Dict String (Obj F)) :=
  match record with
  | .dict ms => buildEvidenceRecord L (argumentsOf (field? ms))
  | _ => .error (.record "record is missing required evidence fields")

/-- A record that is accepted and is rebuilt to the same identity. -/
structure Verifies (L : Library T) (record : Obj F) (r : Dict String (Obj F)) : Prop where
  accepted : validateEvidenceRecord L record = .ok record
  rebuilt : ∃ r', rebuild L record = .ok r' ∧
    r'.lookup "evidence_id" = r.lookup "evidence_id" ∧
      r'.lookup "content_sha256" = r.lookup "content_sha256"

/-- The record verifies, and so does what its text is decoded to. -/
def SelfVerifying (L : Library T) (r : Dict String (Obj F)) : Prop :=
  Verifies L (dictObj r) r ∧ ∃ text v, canonicalJson (dictObj r) = .ok text ∧
    loads text = some v ∧ Verifies L (ofJson v) r

/-- The arguments have the same type of source, canonical URI and payload, as JSON values. -/
def SameContent (L : Library T) (a a' : Arguments F T) : Prop :=
  checkSourceType a.sourceType = checkSourceType a'.sourceType ∧
    checkSourceUri L.url a.sourceUri = checkSourceUri L.url a'.sourceUri ∧
      (tree a.payload).map (fun u => arrange u.build) =
        (tree a'.payload).map fun u => arrange u.build

def SteadyArguments (L : Library T) (a : Arguments F T) : Prop :=
  KeepsText L a.payload ∧ ∀ uri, a.sourceUri = .str uri → SteadyUri L.url uri.toList

theorem fieldsOf_record (c : Contents F) (query toolName : Obj F) :
    fieldsOf (c.record L query toolName) "source_uri" = some (.str c.sourceUri) ∧
      fieldsOf (c.record L query toolName) "content_sha256" = some (.str (c.contentSha256 L)) ∧
        fieldsOf (c.record L query toolName) "evidence_id" = some (.str (c.evidenceId L)) :=
  ⟨rfl, rfl, rfl⟩

/-- The arguments of a record that was built are accepted if its URI is. -/
theorem Accepts.record {a : Arguments F T} {c : Contents F} (h : Accepts L a c) {uri : String}
    (hu : canonicalSourceUri L.url c.sourceUri.toList = .ok uri.toList) :
    Accepts L (argumentsOf (fieldsOf (c.record L a.query a.toolName)))
      { c.reread with sourceUri := uri } := by
  obtain ⟨m, hm, hms, hmt⟩ := h.metadata
  constructor
  · exact checkSourceType_again h.sourceType
  · exact h.query
  · exact h.toolName
  · obtain ⟨ms, rfl⟩ := checkMetadata_dict hm
    obtain ⟨ns, hns⟩ := tree_isDict hmt
    have hb := tree_build hms hmt
    refine ⟨ofJson c.metadata.build, ?_, hb.1, hb.2⟩
    change checkMetadata (ofJson c.metadata.build) = _
    rw [hns]
    rfl
  · exact tree_build h.payload.1 h.payload.2
  · exact le_trans (Nat.add_le_add (byteLen_rewritten _) (byteLen_rewritten _)) h.size
  · exact hu
  · have ht := utcTimestamp_again h.retrievedAt
    rw [String.ofList_toList] at ht
    exact ht

theorem requiredFields_record (c : Contents F) (query toolName : Obj F) :
    ∀ name ∈ requiredFields, (fieldsOf (c.record L query toolName) name).isSome = true := by
  intro name hn
  simp only [requiredFields, List.mem_cons, List.not_mem_nil, or_false] at hn
  rcases hn with rfl | rfl | rfl | rfl | rfl | rfl | rfl | rfl <;> rfl

/-- A record that was built is valid exactly when its payload keeps its text and its canonical URI
is canonical. -/
theorem validateFields_record_iff {a : Arguments F T} {c : Contents F} (h : Accepts L a c) :
    validateFields L (fieldsOf (c.record L a.query a.toolName)) = .ok () ↔
      KeepsText L a.payload ∧
        canonicalSourceUri L.url c.sourceUri.toList = .ok c.sourceUri.toList := by
  obtain ⟨hu, hh, hi⟩ := fieldsOf_record (L := L) c a.query a.toolName
  rw [validateFields_ok, keepsText_iff h.payload.2]
  constructor
  · rintro ⟨-, d, hd, hag⟩
    have huri := hag.sourceUri
    rw [hu, Option.some.injEq, Value.str.injEq] at huri
    have hcanon : canonicalSourceUri L.url c.sourceUri.toList = .ok c.sourceUri.toList := by
      have hs := hd.sourceUri
      rw [← huri] at hs
      exact hs
    refine ⟨?_, hcanon⟩
    cases hd.unique (h.record hcanon)
    have hcontent := hag.contentSha256
    rw [hh, Option.some.injEq, Value.str.injEq] at hcontent
    exact hcontent.symm
  · rintro ⟨hk, hcanon⟩
    have hrec := h.record hcanon
    have he : c.reread.contentSha256 L = c.contentSha256 L := hk
    rw [← he] at hh
    rw [← Contents.evidenceId_congr (c := c.reread) (d := c) rfl rfl he] at hi
    exact ⟨requiredFields_record c _ _, _, hrec, ⟨_, rfl, equals_one⟩, hu, hh, hi⟩

/-- A record that was built is written. -/
theorem Accepts.written {a : Arguments F T} {c : Contents F} (h : Accepts L a c) :
    strict (dictObj (c.record L a.query a.toolName)) = true ∧
      ∃ u, tree (dictObj (c.record L a.query a.toolName)) = some u := by
  obtain ⟨q, hq, hqs⟩ := isShortText_ofJson h.query
  obtain ⟨n, hn, hns⟩ := isShortText_ofJson h.toolName
  obtain ⟨m, -, hms, hmt⟩ := h.metadata
  have hp := (tree_build h.payload.1 h.payload.2).1
  have hm := (tree_build hms hmt).1
  constructor
  · rw [dictObj, strict, strictMembers_iff, List.forall_mem_map]
    simp only [Contents.record, recordOf, List.forall_mem_cons, List.not_mem_nil, false_implies,
      implies_true, and_true, strict, keyIsFinite, true_and]
    exact ⟨hp, hm, hqs, hns⟩
  · rw [hq, hn]
    exact ⟨_, tree_ofJson (.dict [("schema_version", .int 1), ("evidence_id", .str (c.evidenceId L)),
      ("source_type", .str c.sourceType), ("source_uri", .str c.sourceUri),
      ("retrieved_at_utc", .str c.retrievedAt), ("content_sha256", .str (c.contentSha256 L)),
      ("payload", c.payload.build), ("metadata", c.metadata.build), ("query", q),
      ("tool_name", n)])⟩

theorem verifies_of_accepted {ms : List (Key F × Obj F)} {r : Dict String (Obj F)}
    (h : validateFields L (field? ms) = .ok ())
    (hi : field? ms "evidence_id" = r.lookup "evidence_id")
    (hh : field? ms "content_sha256" = r.lookup "content_sha256") : Verifies L (.dict ms) r := by
  refine ⟨validate_ok.2 h, ?_⟩
  obtain ⟨-, c, hc, hag⟩ := validateFields_ok.1 h
  refine ⟨_, buildEvidenceRecord_ok.2 ⟨c, hc, rfl⟩, ?_, ?_⟩
  · rw [← hi, hag.evidenceId]
    rfl
  · rw [← hh, hag.contentSha256]
    rfl

theorem selfVerifying_iff {a : Arguments F T} {c : Contents F} (h : Accepts L a c) :
    SelfVerifying L (c.record L a.query a.toolName) ↔ KeepsText L a.payload ∧
      canonicalSourceUri L.url c.sourceUri.toList = .ok c.sourceUri.toList := by
  constructor
  · intro hv
    exact (validateFields_record_iff h).1 (validate_dictObj.1 hv.1.accepted)
  · intro hk
    have hv := (validateFields_record_iff h).2 hk
    have hf : field? ((c.record L a.query a.toolName).map fun p => ((.str p.1 : Key F), p.2)) =
        fieldsOf (c.record L a.query a.toolName) := funext (field?_dictObj _)
    constructor
    · apply verifies_of_accepted
      · rw [hf]
        exact hv
      · rw [hf]
        rfl
      · rw [hf]
        rfl
    · obtain ⟨hs, u, hu⟩ := h.written
      obtain ⟨ms, hms, hr⟩ := reread_dictObj (recordOf_distinct ..) hs hu
      refine ⟨_, u.build, canonicalJson_ok.2 ⟨hs, u, hu, rfl⟩, loads_dumps .compact u, ?_⟩
      obtain ⟨hreq, d, hd, hag⟩ := validateFields_ok.1 hv
      have hd' : d = c.reread := hd.unique (h.record hk.2)
      rw [hms]
      apply verifies_of_accepted
      · apply (validateFields_reread_iff hr hreq hd hag).2
        rw [hd', Contents.reread_reread]
      · exact hr.str rfl
      · exact hr.str rfl

theorem selfVerifying_steady_iff {a : Arguments F T} {c : Contents F} (h : Accepts L a c) :
    SelfVerifying L (c.record L a.query a.toolName) ↔ SteadyArguments L a := by
  obtain ⟨raw, hraw, hcanon⟩ := checkSourceUri_str h.sourceUri
  rw [selfVerifying_iff h, canonicalSourceUri_again_iff hcanon, SteadyArguments, hraw]
  apply and_congr_right
  intro _
  constructor
  · intro hs uri he
    cases he
    exact hs
  · intro hs
    exact hs raw rfl

theorem evidenceId_of_sameContent {a a' : Arguments F T} {c c' : Contents F} (h : Accepts L a c)
    (h' : Accepts L a' c') (hk : KeepsText L a.payload) (hk' : KeepsText L a'.payload)
    (hs : SameContent L a a') : c.evidenceId L = c'.evidenceId L := by
  obtain ⟨hst, hsu, hp⟩ := hs
  rw [h.sourceType, h'.sourceType, Except.ok.injEq] at hst
  rw [h.sourceUri, h'.sourceUri, Except.ok.injEq, String.toList_inj] at hsu
  rw [h.payload.2, h'.payload.2, Option.map_some, Option.map_some, Option.some.injEq] at hp
  apply Contents.evidenceId_congr hst hsu
  rw [Contents.contentSha256, Contents.contentSha256, ← (keepsText_iff h.payload.2).1 hk,
    ← (keepsText_iff h'.payload.2).1 hk', hp]

/-- Two records verify, and have one identity if they have one content, exactly when their payloads
keep their texts and their URIs are steady; and a canonical URI is canonical exactly when it is
that of a steady one. -/
theorem evidence_identity_iff (L : Library T) {a a' : Arguments F T} {r r' : Dict String (Obj F)}
    (h : buildEvidenceRecord L a = .ok r) (h' : buildEvidenceRecord L a' = .ok r') :
    (SelfVerifying L r ∧ SelfVerifying L r' ∧
        (SameContent L a a' → r.lookup "evidence_id" = r'.lookup "evidence_id") ↔
      SteadyArguments L a ∧ SteadyArguments L a') ∧
    ∀ value uri, canonicalSourceUri L.url value = .ok uri →
      (canonicalSourceUri L.url uri = .ok uri ↔ SteadyUri L.url value) := by
  obtain ⟨c, hc, rfl⟩ := buildEvidenceRecord_ok.1 h
  obtain ⟨c', hc', rfl⟩ := buildEvidenceRecord_ok.1 h'
  refine ⟨?_, fun _ _ hv => canonicalSourceUri_again_iff hv⟩
  rw [selfVerifying_steady_iff hc, selfVerifying_steady_iff hc']
  constructor
  · rintro ⟨hs, hs', -⟩
    exact ⟨hs, hs'⟩
  · rintro ⟨hs, hs'⟩
    refine ⟨hs, hs', fun hcontent => ?_⟩
    have hid := evidenceId_of_sameContent hc hc' hs.1 hs'.1 hcontent
    change some (Value.str (c.evidenceId L)) = some (Value.str (c'.evidenceId L))
    rw [hid]

def sampleDigest : List UInt8 → List UInt8 := knownDigest [
  ("null",
      "74234e98afe7498fb5daf1f36ac2d78acc339464f950703b8c019892f982b90b"),
  ("\x7b\"content_sha256\":\"74234e98afe7498fb5daf1f36ac2d78acc339464f950703b8c019892f98" ++
      "2b90b\",\"source_type\":\"web\",\"source_uri\":\"local:a\"\x7d",
      "aa35e1b4cf772a5dca2840f805d84224ee1fdc71586224f64dabc5613e14e271"),
  ("true",
      "b5bea41b6c623f7c09f1bf24dcae58ebab3c0cdd90ad966bc43a45b44867e12b"),
  ("\x7b\"content_sha256\":\"b5bea41b6c623f7c09f1bf24dcae58ebab3c0cdd90ad966bc43a45b4486" ++
      "7e12b\",\"source_type\":\"web\",\"source_uri\":\"local:a\"\x7d",
      "f5f512f704ac2b7de68f1cf11dbcb8ba1a78a160100276d6183e8564c07ce945"),
  ("\x7b\"2\":null,\"10\":null\x7d",
      "32ce6229c4ffe23c47132793b8af3f92ff2ff0f500470758f51bff15e565ff6c"),
  ("\x7b\"10\":null,\"2\":null\x7d",
      "c7e17e909e96be5714890cfc14fa6c23eb62cee2cf81b588a23dce39cb983cae"),
  ("\x7b\"content_sha256\":\"32ce6229c4ffe23c47132793b8af3f92ff2ff0f500470758f51bff15e56" ++
      "5ff6c\",\"source_type\":\"web\",\"source_uri\":\"local:a\"\x7d",
      "3f3ccc41e6f521371973084b7b97cec5bebfca37ce710b283fdeda61079df446")]

theorem sampleDigest_injective : Function.Injective sampleDigest :=
  knownDigest_injective (by decide) (by decide)

def sampleLibrary : Library Unit where
  url := Url.UrlText.ascii
  times := .instant "2024-01-01T00:00:00".toList (by decide) (by decide)
  sha256 := sampleDigest

def sampleArguments (payload query : Obj WholeFloat) : Arguments WholeFloat Unit where
  sourceType := .str "web"
  sourceUri := .str "local:a"
  retrievedAt := .inr ()
  payload := payload
  query := query
  toolName := .null
  metadata := .null

def sampleContents (payload : Json WholeFloat) : Contents WholeFloat :=
  ⟨"web", "local:a", "2024-01-01T00:00:00Z", payload, .dict []⟩

theorem sampleArguments_accepted {payload : Obj WholeFloat} (query : Obj WholeFloat) {u : Json WholeFloat}
    (hs : strict payload = true) (hu : tree payload = some u)
    (hl : byteLen (dumps .compact u) ≤ 1000) (hq : isShortText 4000 query = true) :
    Accepts sampleLibrary (sampleArguments payload query) (sampleContents u) where
  sourceType := rfl
  query := hq
  toolName := rfl
  metadata := ⟨.dict [], rfl, rfl, rfl⟩
  payload := ⟨hs, hu⟩
  size := by
    have hm : byteLen (dumps .compact (.dict [] : Json WholeFloat)) = 2 := by decide
    change byteLen (dumps .compact u) + byteLen (dumps .compact (.dict [])) ≤ maxRecordBytes
    rw [hm, maxRecordBytes]
    omega
  sourceUri := by
    change canonicalSourceUri sampleLibrary.url "local:a".toList = .ok "local:a".toList
    rfl
  retrievedAt := by
    change utcTimestamp (F := WholeFloat) sampleLibrary.times (.inr ()) =
      .ok "2024-01-01T00:00:00Z".toList
    rfl

theorem sampleDigest_ne {s t : List Char} (h : s ≠ t) :
    sampleLibrary.digest s ≠ sampleLibrary.digest t := by
  intro he
  exact h (utf8_injective (sampleDigest_injective (hex_injective he)))

/-- Two records of one page, fetched for different queries. -/
theorem evidence_identity_null :
    (SelfVerifying sampleLibrary ((sampleContents .null).record sampleLibrary .null .null) ∧
        SelfVerifying sampleLibrary ((sampleContents .null).record sampleLibrary (.str "q") .null) ∧
        (SameContent sampleLibrary (sampleArguments .null .null)
            (sampleArguments .null (.str "q")) →
          ((sampleContents .null).record sampleLibrary .null .null).lookup "evidence_id" =
            ((sampleContents .null).record sampleLibrary (.str "q") .null).lookup
              "evidence_id") ↔
      SteadyArguments sampleLibrary (sampleArguments .null .null) ∧
        SteadyArguments sampleLibrary (sampleArguments .null (.str "q"))) ∧
    ∀ value uri, canonicalSourceUri sampleLibrary.url value = .ok uri →
      (canonicalSourceUri sampleLibrary.url uri = .ok uri ↔ SteadyUri sampleLibrary.url value) :=
  evidence_identity_iff sampleLibrary
    (buildEvidenceRecord_ok.2 ⟨_, sampleArguments_accepted _ rfl rfl (by decide) rfl, rfl⟩)
    (buildEvidenceRecord_ok.2 ⟨_, sampleArguments_accepted _ rfl rfl (by decide) rfl, rfl⟩)

def numberedPayload : Obj WholeFloat := .dict [(.int 2, .null), (.int 10, .null)]

/-- A record with numbered keys is refused as soon as it is built, and the fragment of a URI leaves
a blank behind. -/
theorem built_record_is_refused :
    (∃ r, buildEvidenceRecord sampleLibrary (sampleArguments numberedPayload .null) = .ok r ∧
      validateEvidenceRecord sampleLibrary (dictObj r) ≠ .ok (dictObj r)) ∧
    canonicalSourceUri sampleLibrary.url "local:a #x".toList = .ok "local:a ".toList ∧
      canonicalSourceUri sampleLibrary.url "local:a ".toList = .ok "local:a".toList := by
  refine ⟨?_, rfl, rfl⟩
  have hu : tree numberedPayload = some (.dict [("2", .null), ("10", .null)]) := rfl
  have ha := sampleArguments_accepted .null rfl hu (by decide) rfl
  refine ⟨_, buildEvidenceRecord_ok.2 ⟨_, ha, rfl⟩, ?_⟩
  intro hv
  have hk := ((validateFields_record_iff ha).1 (validate_dictObj.1 hv)).1
  have hd := (keepsText_iff hu).1 hk
  exact sampleDigest_ne (by decide) hd

end Obase.EvidenceLedger
