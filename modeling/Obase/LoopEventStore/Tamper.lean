import Obase.Concrete
import Obase.Json.Lexical
import Obase.LoopEventStore.Store
import Obase.Separated

namespace Obase.LoopEventStore
set_option autoImplicit true
open Json

section
variable [Builtins F]

/-- The row has the field types of the documented format. -/
structure EventRow (row : Json F) : Prop where
  seq : ∃ n, row.getItem "seq" = .ok (.int n)
  id : ∃ s, row.getItem "id" = .ok (.str s)
  ts : ∃ x, row.getItem "ts" = .ok (.float x)
  type : ∃ s, row.getItem "type" = .ok (.str s)

/-- The rows hold the same event, up to the order of the keys in the payload. -/
structure SameEvent (row row' : Json F) : Prop where
  seq : row.getItem "seq" = row'.getItem "seq"
  id : row.getItem "id" = row'.getItem "id"
  ts : row.getItem "ts" = row'.getItem "ts"
  type : row.getItem "type" = row'.getItem "type"
  payload : ∃ v w, row.getD "payload" (.dict []) = .ok v ∧
    row'.getD "payload" (.dict []) = .ok w ∧ sortKeys v = sortKeys w

/-- The text of a float. -/
def IsFloatStr (F : Type) [Builtins F] (cs : List Char) : Prop := ∃ x : PyFloat F, floatStr x = cs

/-- No part of the id behind its first `|`, and no part of the type before its last one, can be
taken for the timestamp. -/
def Unambiguous (row : Json F) : Prop :=
  ∀ eventId eventType, row.getItem "id" = .ok (.str eventId) →
    row.getItem "type" = .ok (.str eventType) →
    (∀ s ∈ (eventId.toList.splitOn '|').tail, ¬ IsFloatStr F s) ∧
      ∀ s ∈ (eventType.toList.splitOn '|').dropLast, ¬ IsFloatStr F s

/-- `_verify_rows` reports ok. -/
def Passes (sha256Hash : List UInt8 → List UInt8) (schemaVersion : Int) (rows : List (Json F)) :
    Prop :=
  ∃ r, verifyRows sha256Hash schemaVersion rows = .ok r ∧ r.ok = true

instance (sha256Hash : List UInt8 → List UInt8) (schemaVersion : Int) (rows : List (Json F)) :
    Decidable (Passes sha256Hash schemaVersion rows) :=
  decidable_of_iff
    ((verifyRows sha256Hash schemaVersion rows).toOption.map VerifyResult.ok = some true) (by
      rw [Passes]
      cases verifyRows sha256Hash schemaVersion rows with
      | error e => simp [Except.toOption]
      | ok r => simp [Except.toOption])

theorem bar_stringOnly : StringOnly '|' := ⟨by decide, by decide, by decide, rfl⟩

theorem bar_not_numberChar {cs : List Char} (h : ∀ c ∈ cs, isNumberChar c = true) : '|' ∉ cs := by
  intro hm
  cases h _ hm

theorem bar_not_mem_floatStr {s : List Char} (h : IsFloatStr F s) : '|' ∉ s := by
  obtain ⟨x, rfl⟩ := h
  cases x with
  | finite x => exact bar_not_numberChar (floatLiteral_numberChars (FloatText.repr_literal x))
  | inf => exact (by decide : '|' ∉ ['i', 'n', 'f'])
  | negInf => exact (by decide : '|' ∉ ['-', 'i', 'n', 'f'])
  | nan => exact (by decide : '|' ∉ ['n', 'a', 'n'])

theorem floatStr_injective {x y : PyFloat F} (h : floatStr x = floatStr y) : x = y := by
  have hl (z : F) {s : List Char} (hz : FloatText.repr z = s) : isFloatLiteral s = true :=
    hz ▸ FloatText.repr_literal z
  cases x with
  | finite x =>
    cases y with
    | finite y =>
      have hx := FloatText.ofLiteral_repr x
      rw [show FloatText.repr x = FloatText.repr y from h, FloatText.ofLiteral_repr] at hx
      exact hx.symm
    | inf => cases hl x h
    | negInf => cases hl x h
    | nan => cases hl x h
  | inf =>
    cases y with
    | finite y => cases hl y h.symm
    | inf => rfl
    | negInf => cases h
    | nan => cases h
  | negInf =>
    cases y with
    | finite y => cases hl y h.symm
    | inf => cases h
    | negInf => rfl
    | nan => cases h
  | nan =>
    cases y with
    | finite y => cases hl y h.symm
    | inf => cases h
    | negInf => cases h
    | nan => rfl

end

mutual
theorem mapKeys_id : ∀ v : Json F, v.mapKeys (DictKey.text (κ := String)) = v
  | .null | .bool _ | .int _ | .float _ | .str _ => rfl
  | .list xs => by rw [Value.mapKeys, mapKeysList_id xs]
  | .dict ms => by rw [Value.mapKeys, mapKeysMembers_id ms]
theorem mapKeysList_id : ∀ vs : List (Json F),
    Value.mapKeysList (DictKey.text (κ := String)) vs = vs
  | [] => rfl
  | v :: vs => by rw [Value.mapKeysList, mapKeys_id v, mapKeysList_id vs]
theorem mapKeysMembers_id : ∀ ms : List (String × Json F),
    Value.mapKeysMembers (DictKey.text (κ := String)) ms = ms
  | [] => rfl
  | (k, v) :: ms => by
    rw [Value.mapKeysMembers, mapKeys_id v, mapKeysMembers_id ms]
    rfl
end

section
variable [Builtins F] {sha256Hash : List UInt8 → List UInt8}

theorem dumpsSorted_json {v : Json F} {body : List Char} :
    dumpsSorted v = some body ↔ ∃ w, sortKeys v = some w ∧ dumps .compact w = body := by
  rw [dumpsSorted, Option.map_eq_some_iff]
  simp only [keyTexts, mapKeys_id]

/-- Two ends `type|body` of one text have the same body, since no document ends in another
behind a `|`. -/
theorem body_unique {x x' : List Char} {v w : Json F}
    (h : x ++ '|' :: dumps .compact v = x' ++ '|' :: dumps .compact w) : x = x' ∧ v = w := by
  have hn {as : List Char} {v w : Json F} (h : dumps .compact v = as ++ '|' :: dumps .compact w) :
      False := by
    have hs := scan_dumps .compact v
    rw [h] at hs
    exact scan_suffix bar_stringOnly hs (scan_dumps .compact w)
  rcases List.append_eq_append_iff.1 h with ⟨as, hx, hr⟩ | ⟨as, hx, hr⟩
  · cases as with
    | nil =>
      injection hr with _ hr
      exact ⟨by rw [hx, List.append_nil], dumps_injective _ hr⟩
    | cons a as =>
      injection hr with _ hr
      exact (hn hr).elim
  · cases as with
    | nil =>
      injection hr with _ hr
      exact ⟨by rw [hx, List.append_nil], (dumps_injective _ hr).symm⟩
    | cons a as =>
      injection hr with _ hr
      exact (hn hr).elim

theorem bar_not_mem_intText (n : Int) : '|' ∉ intText n :=
  bar_not_numberChar (intLiteral_numberChars (intText_literal n))

theorem bar_not_mem_hex (bs : List UInt8) : '|' ∉ (hex bs).toList := by
  intro h
  rcases hex_digits bs _ h with h | h
  · cases h
  · revert h
    decide

/-- The text that is digested for the event with `i` rows before it, `w` its sorted payload. -/
def eventText (p : String) (i : Nat) (eventId : String) (x : PyFloat F) (eventType : String)
    (w : Json F) : List Char :=
  p.toList ++ '|' :: (intText (i + 1) ++ '|' :: (eventId.toList ++ '|' ::
    (floatStr x ++ '|' :: (eventType.toList ++ '|' :: dumps .compact w))))

/-- An event row that is accepted, with its fields and the text its hash is of. -/
theorem link_event {schemaVersion : Int} {p : String} {i : Nat} {row : Json F}
    (he : EventRow row) (hl : Link sha256Hash schemaVersion p i row) :
    ∃ eventId x eventType v w, row.getItem "seq" = .ok (.int (i + 1)) ∧
      row.getItem "id" = .ok (.str eventId) ∧ row.getItem "ts" = .ok (.float x) ∧
      row.getItem "type" = .ok (.str eventType) ∧ row.getD "payload" (.dict []) = .ok v ∧
      sortKeys v = some w ∧
      rowHash row = hex (sha256Hash (utf8 (eventText p i eventId x eventType w))) := by
  obtain ⟨f, h, hf, -, -, hseq, hh, hline⟩ := hl
  obtain ⟨-, ⟨s, hs, hsv⟩, hid, ⟨t, ht, htv⟩, htype, hpay, -, -⟩ := fields_cases hf
  obtain ⟨n, hn⟩ := he.seq
  obtain ⟨eventId, hid'⟩ := he.id
  obtain ⟨x, hx⟩ := he.ts
  obtain ⟨eventType, htype'⟩ := he.type
  rw [hn] at hs
  rw [hx] at ht
  cases hs
  cases ht
  cases hsv
  cases htv
  rw [hid] at hid'
  rw [htype] at htype'
  injection hid' with hid'
  injection htype' with htype'
  obtain ⟨raw, hraw, rfl⟩ := Option.map_eq_some_iff.1 hline
  obtain ⟨body, hbody, rfl⟩ := Option.map_eq_some_iff.1 hraw
  obtain ⟨w, hw, rfl⟩ := dumpsSorted_json.1 hbody
  refine ⟨eventId, f.ts, eventType, f.payload, w, ?_, ?_, hx, ?_, hpay, hw, ?_⟩
  · rw [hn, hseq]
  · rw [hid, hid']
  · rw [htype, htype']
  · rw [rowHash_of_fields hf hh, hid', htype', hseq]
    rfl

theorem eventText_inj {p p' eventId eventId' eventType eventType' : String} {i i' : Nat}
    {x x' : PyFloat F} {w w' : Json F} (hp : '|' ∉ p.toList) (hp' : '|' ∉ p'.toList)
    (hid : ∀ s ∈ (eventId.toList.splitOn '|').tail, ¬ IsFloatStr F s)
    (htype : ∀ s ∈ (eventType.toList.splitOn '|').dropLast, ¬ IsFloatStr F s)
    (h : eventText p i eventId x eventType w = eventText p' i' eventId' x' eventType' w') :
    p = p' ∧ i = i' ∧ eventId = eventId' ∧ x = x' ∧ eventType = eventType' ∧ w = w' := by
  obtain ⟨hpp, h⟩ := Separated.append_sep_inj hp hp' h
  obtain ⟨hii, h⟩ := Separated.append_sep_inj (bar_not_mem_intText _) (bar_not_mem_intText _) h
  have hb : (eventId.toList ++ '|' :: (floatStr x ++ '|' :: eventType.toList)) ++
        '|' :: dumps .compact w =
      (eventId'.toList ++ '|' :: (floatStr x' ++ '|' :: eventType'.toList)) ++
        '|' :: dumps .compact w' := by
    simpa using h
  obtain ⟨hf, rfl⟩ := body_unique hb
  obtain ⟨hi, hx, ht⟩ := Separated.field_unique (T := IsFloatStr F)
    (fun _ => bar_not_mem_floatStr) ⟨x, rfl⟩ ⟨x', rfl⟩ hid htype hf
  have hn := intText_injective hii
  exact ⟨String.toList_inj.1 hpp, by omega, String.toList_inj.1 hi, floatStr_injective hx,
    String.toList_inj.1 ht, rfl⟩

variable (sha256Hash) in
/-- A link between event rows, from a hash without a separator. -/
def EventLink (schemaVersion : Int) (p : String) (i : Nat) (row : Json F) : Prop :=
  Link sha256Hash schemaVersion p i row ∧ '|' ∉ p.toList ∧ EventRow row

theorem chained_eventLink {schemaVersion : Int} {p : String} {i : Nat} {rows : List (Json F)}
    (hp : '|' ∉ p.toList) (he : ∀ row ∈ rows, EventRow row)
    (h : HashChain.Chained (Link sha256Hash schemaVersion) rowHash p i rows) :
    HashChain.Chained (EventLink sha256Hash schemaVersion) rowHash p i rows := by
  induction rows generalizing p i with
  | nil => trivial
  | cons row rows ih =>
    obtain ⟨hl, h⟩ := h
    have her := he row (.head _)
    refine ⟨⟨hl, hp, her⟩, ih ?_ (fun r hr => he r (.tail _ hr)) h⟩
    obtain ⟨_, _, _, _, _, -, -, -, -, -, -, hh⟩ := link_event her hl
    rw [hh]
    exact bar_not_mem_hex _

/-- A row that cannot be read in two ways is bound by its hash. -/
theorem binding_of_unambiguous (hsha : Function.Injective sha256Hash) {schemaVersion : Int}
    {row : Json F} (hu : Unambiguous row) :
    HashChain.Binding (EventLink sha256Hash schemaVersion) rowHash SameEvent row := by
  rintro p i p' i' row' ⟨hl, hp, he⟩ ⟨hl', hp', he'⟩ hd
  obtain ⟨eventId, x, eventType, v, w, hseq, hid, hts, htype, hpay, hw, hh⟩ := link_event he hl
  obtain ⟨eventId', x', eventType', v', w', hseq', hid', hts', htype', hpay', hw', hh'⟩ :=
    link_event he' hl'
  rw [hh, hh'] at hd
  obtain ⟨h₁, h₂⟩ := hu eventId eventType hid htype
  obtain ⟨rfl, rfl, rfl, rfl, rfl, rfl⟩ :=
    eventText_inj hp hp' h₁ h₂ (utf8_injective (hsha (hex_injective hd)))
  refine ⟨rfl, rfl, ⟨?_, ?_, ?_, ?_, v, v', hpay, hpay', by rw [hw, hw']⟩⟩
  · rw [hseq, hseq']
  · rw [hid, hid']
  · rw [hts, hts']
  · rw [htype, htype']

/-- The row of an event as a writer that keeps to the format leaves it. -/
def plainRow (schemaVersion : Int) (p : String) (i : Nat) (eventId : String) (x : PyFloat F)
    (eventType : String) (payload : Json F) (hash : String) : Json F :=
  .dict [("v", .int schemaVersion), ("seq", .int (i + 1)), ("id", .str eventId), ("ts", .float x),
    ("type", .str eventType), ("payload", payload), ("prev_hash", .str p), ("hash", .str hash)]

theorem fields_plainRow (schemaVersion : Int) (p : String) (i : Nat) (eventId : String)
    (x : PyFloat F) (eventType : String) (payload : Json F) (hash : String) :
    fields (plainRow schemaVersion p i eventId x eventType payload hash) =
      .ok ⟨schemaVersion, i + 1, .str eventId, x, .str eventType, payload, .str hash, .str p⟩ := rfl

omit [Builtins F] in
theorem plainRow_event (schemaVersion : Int) (p : String) (i : Nat) (eventId : String)
    (x : PyFloat F) (eventType : String) (payload : Json F) (hash : String) :
    EventRow (plainRow schemaVersion p i eventId x eventType payload hash) :=
  ⟨⟨_, rfl⟩, ⟨_, rfl⟩, ⟨_, rfl⟩, ⟨_, rfl⟩⟩

theorem link_plainRow {schemaVersion : Int} {p : String} {i : Nat} (eventId : String)
    (x : PyFloat F) (eventType : String) {v w : Json F} (hw : sortKeys v = some w) :
    Link sha256Hash schemaVersion p i (plainRow schemaVersion p i eventId x eventType v
      (hex (sha256Hash (utf8 (eventText p i eventId x eventType w))))) := by
  refine ⟨_, _, fields_plainRow .., rfl, rfl, rfl, rfl, ?_⟩
  rw [lineHash, hashText, dumpsSorted_json.2 ⟨w, hw, rfl⟩]
  rfl

theorem forall₂_append_cons {R : α → β → Prop} {as : List α} {bs : List β} {a : α} {b : β}
    {as' : List α} {bs' : List β} (hl : as.length = bs.length)
    (h : List.Forall₂ R (as ++ a :: as') (bs ++ b :: bs')) : R a b := by
  induction as generalizing bs with
  | nil =>
    rw [List.eq_nil_of_length_eq_zero hl.symm] at h
    cases h with
    | cons hr _ => exact hr
  | cons c as ih =>
    cases bs with
    | nil => cases hl
    | cons d bs =>
      cases h with
      | cons _ h => exact ih (by simpa using hl) h

/-- A row that can be read in two ways can be exchanged for another one of the same hash. -/
theorem exists_altered {schemaVersion : Int} {p : String} {i : Nat} {row : Json F}
    (he : EventRow row) (hl : Link sha256Hash schemaVersion p i row) (hu : ¬ Unambiguous row) :
    ∃ row', EventRow row' ∧ Link sha256Hash schemaVersion p i row' ∧ rowHash row' = rowHash row ∧
      row.getItem "id" ≠ row'.getItem "id" := by
  obtain ⟨eventId, x, eventType, v, w, -, hid, -, htype, -, hw, hh⟩ := link_event he hl
  obtain ⟨x', hs⟩ : ∃ x' : PyFloat F, floatStr x' ∈ (eventId.toList.splitOn '|').tail ∨
      floatStr x' ∈ (eventType.toList.splitOn '|').dropLast := by
    by_contra hc
    refine hu fun e t he ht => ?_
    rw [hid] at he
    rw [htype] at ht
    cases he
    cases ht
    refine ⟨?_, ?_⟩
    · rintro _ hm ⟨x', rfl⟩
      exact hc ⟨x', .inl hm⟩
    · rintro _ hm ⟨x', rfl⟩
      exact hc ⟨x', .inr hm⟩
  obtain ⟨e, t, heq, hne⟩ := Separated.exists_other_field (t := floatStr x)
    (bar_not_mem_floatStr ⟨x, rfl⟩) hs
  have htext : eventText p i eventId x eventType w =
      eventText p i (String.ofList e) x' (String.ofList t) w := by
    have hb := congrArg (fun cs => p.toList ++ '|' :: (intText (i + 1) ++ '|' ::
      (cs ++ '|' :: dumps .compact w))) heq
    simpa [eventText] using hb
  refine ⟨_, plainRow_event .., link_plainRow (String.ofList e) x' (String.ofList t) hw,
    ?_, ?_⟩
  · rw [hh, htext]
    rfl
  · rw [hid]
    intro h
    have hi : eventId = String.ofList e := by
      injection h with h
      injection h
    rw [hi, String.toList_ofList] at hne
    exact hne rfl

/-- Where no two texts share a digest, the hash of the last row of a stream of event rows fixes
every event in it exactly when no row can be read in two ways. -/
theorem head_hash_binds_iff (hsha : Function.Injective sha256Hash) {schemaVersion : Int}
    {rows : List (Json F)} (hne : rows ≠ []) (hv : Passes sha256Hash schemaVersion rows)
    (he : ∀ row ∈ rows, EventRow row) :
    (∀ rows' : List (Json F), rows' ≠ [] → Passes sha256Hash schemaVersion rows' →
        (∀ row ∈ rows', EventRow row) →
        rows'.getLast?.map rowHash = rows.getLast?.map rowHash →
        List.Forall₂ SameEvent rows rows') ↔
      ∀ row ∈ rows, Unambiguous row := by
  have hg : '|' ∉ genesis.toList := by decide
  have hv := verifyRows_ok_iff.1 hv
  constructor
  · intro h row hm
    by_contra hu
    obtain ⟨as, bs, rfl⟩ := List.append_of_mem hm
    obtain ⟨ha, hl, hb⟩ := HashChain.chained_append.1 hv
    obtain ⟨row', he', hl', hh, hid⟩ := exists_altered (he row hm) hl hu
    have hv' : Verified sha256Hash schemaVersion (as ++ row' :: bs) :=
      HashChain.chained_append.2 ⟨ha, hl', by rw [hh]; exact hb⟩
    have hf := h (as ++ row' :: bs) (by simp) (verifyRows_ok_iff.2 hv') ?_ ?_
    · exact hid (forall₂_append_cons rfl hf).id
    · intro r hr
      rcases List.mem_append.1 hr with hr | hr
      · exact he r (List.mem_append_left _ hr)
      · rcases List.mem_cons.1 hr with rfl | hr
        · exact he'
        · exact he r (List.mem_append_right _ (.tail _ hr))
    · cases bs with
      | nil => simp [hh]
      | cons b bs => simp [List.getLast?_append]
  · intro hu rows' hne' hv' he' hlast
    refine HashChain.Chained.agree (chained_eventLink hg he hv)
      (chained_eventLink hg he' (verifyRows_ok_iff.1 hv'))
      (fun row hr => binding_of_unambiguous hsha (hu row hr)) hne hne' ?_
    rw [HashChain.headDigest, HashChain.headDigest, hlast]

end
section

/-- SHA-256 on the texts of the rows below. -/
def eventDigest : List UInt8 → List UInt8 := knownDigest [
  ("genesis|1|6ba7b814-9dad-41d1-80b4-00c04fd430c8|1690000000.0|goal_added|\x7b\"goal_id" ++
      "\":\"g1\"\x7d",
      "03066704238f26a623f9dc32c51fe6e9c53e5907a05a44c8f7bc7046640f3be5"),
  ("genesis|1|6ba7b814-9dad-41d1-80b4-00c04fd430c8|1690000000.0|note|1.0|x|\x7b\x7d",
      "ce53d14ac164e8b65b84e21c137c12805fb5fb46199364b7828dc78894b12958")]

theorem eventDigest_injective : Function.Injective eventDigest :=
  knownDigest_injective (by decide) (by decide)

def goalRow : Json WholeFloat :=
  plainRow 1 genesis 0 "6ba7b814-9dad-41d1-80b4-00c04fd430c8" (.finite ⟨1690000000⟩) "goal_added"
    (.dict [("goal_id", .str "g1")])
    "03066704238f26a623f9dc32c51fe6e9c53e5907a05a44c8f7bc7046640f3be5"

theorem head_hash_binds_goalRow :
    (∀ rows' : List (Json WholeFloat), rows' ≠ [] → Passes eventDigest 1 rows' →
        (∀ row ∈ rows', EventRow row) →
        rows'.getLast?.map rowHash = [goalRow].getLast?.map rowHash →
        List.Forall₂ SameEvent [goalRow] rows') ↔
      ∀ row ∈ [goalRow], Unambiguous row :=
  head_hash_binds_iff eventDigest_injective (by simp) (by decide +kernel)
    (by simp [goalRow, plainRow_event])

/-- A row as it was appended, its type holding the text of a float between two separators. -/
def noteRow : Json WholeFloat :=
  plainRow 1 genesis 0 "6ba7b814-9dad-41d1-80b4-00c04fd430c8" (.finite ⟨1690000000⟩)
    "note|1.0|x" (.dict []) "ce53d14ac164e8b65b84e21c137c12805fb5fb46199364b7828dc78894b12958"

/-- The same row with its id, time and type exchanged. -/
def alteredRow : Json WholeFloat :=
  plainRow 1 genesis 0 "6ba7b814-9dad-41d1-80b4-00c04fd430c8|1690000000.0|note" (.finite ⟨1⟩) "x"
    (.dict []) "ce53d14ac164e8b65b84e21c137c12805fb5fb46199364b7828dc78894b12958"

theorem head_hash_not_binding : Function.Injective eventDigest ∧
    Passes eventDigest 1 [noteRow] ∧ Passes eventDigest 1 [alteredRow] ∧
    EventRow noteRow ∧ EventRow alteredRow ∧ rowHash alteredRow = rowHash noteRow ∧
    ¬ List.Forall₂ SameEvent [noteRow] [alteredRow] := by
  refine ⟨eventDigest_injective, by decide +kernel, by decide +kernel, plainRow_event ..,
    plainRow_event .., rfl, ?_⟩
  intro h
  have he := (forall₂_append_cons (show ([] : List (Json WholeFloat)).length =
    ([] : List (Json WholeFloat)).length from rfl) h).type
  injection he with he
  injection he with he
  revert he
  decide

end
end Obase.LoopEventStore
