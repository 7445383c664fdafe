import Obase.Concrete
import Obase.LoopEventStore.Log
import Obase.LoopEventStore.Store

namespace Obase.LoopEventStore
set_option autoImplicit true
open Json Text

section
variable [Builtins F] (sha256Hash : List UInt8 → List UInt8)

/-- The items of a row in the order in which `_make_row` sets them. -/
def rowMembers (schemaVersion : Int) (c : Call F) (payload seq prevHash : Json F) (hash : String) :
    Dict String (Json F) :=
  [("v", .int schemaVersion), ("seq", seq), ("id", .str c.eventId.text),
    ("ts", .float (.finite c.ts)), ("type", .str c.eventType), ("payload", payload),
    ("prev_hash", prevHash)] ++
    (match c.dedupeId with
      | some d => [("dedupe_id", .str d)]
      | none => []) ++
    [("hash", .str hash)]

/-- The hash of a call's row behind a row of hash `p`, as the one with `n` rows before it. -/
def callHash [DictKey κ] (p : String) (n : Nat) (c : Call F) (payload : Value κ F) :
    Option String :=
  lineHash sha256Hash (.str p) (.int (n + 1)) (.str c.eventId.text) (.finite c.ts)
    (.str c.eventType) payload

/-- The documents that a sequence of calls should leave in the file, in the order of the calls. -/
def idealLog (schemaVersion : Int) : String → Nat → List (Nat × Call F) → Option (List (Json F))
  | _, _, [] => some []
  | p, n, (_, c) :: cs => do
    let h ← callHash sha256Hash p n c c.body
    let docs ← idealLog schemaVersion h (n + 1) cs
    return .dict (rowMembers schemaVersion c (keyTexts c.body) (.int (n + 1)) (.str p) h) :: docs

/-- `str.splitlines` leaves the line of the call whole. -/
def Call.Unbroken (c : Call F) : Prop :=
  LoopEventStore.Unbroken (F := F) (.str c.eventType) ∧ LoopEventStore.Unbroken (keyTexts c.body)

/-- The payload sorts to the same text before and after its trip through JSON. -/
def Call.Stable (c : Call F) : Prop := dumpsSorted c.body = dumpsSorted (roundTrip c.body)

instance (c : Call F) : Decidable c.Unbroken := inferInstanceAs (Decidable (_ ∧ _))

instance (c : Call F) : Decidable c.Stable :=
  inferInstanceAs (Decidable (dumpsSorted c.body = dumpsSorted (roundTrip c.body)))

end

mutual
theorem mapKeys_ofJson [FloatText F] : ∀ v : Json F,
    (v.mapKeys Key.str).mapKeys (DictKey.text (κ := Key F)) = v
  | .null | .bool _ | .int _ | .float _ | .str _ => rfl
  | .list xs => by rw [Value.mapKeys, Value.mapKeys, mapKeysList_ofJson xs]
  | .dict ms => by rw [Value.mapKeys, Value.mapKeys, mapKeysMembers_ofJson ms]
theorem mapKeysList_ofJson [FloatText F] : ∀ vs : List (Json F),
    Value.mapKeysList (DictKey.text (κ := Key F)) (Value.mapKeysList Key.str vs) = vs
  | [] => rfl
  | v :: vs => by
    rw [Value.mapKeysList, Value.mapKeysList, mapKeys_ofJson v, mapKeysList_ofJson vs]
theorem mapKeysMembers_ofJson [FloatText F] : ∀ ms : List (String × Json F),
    Value.mapKeysMembers (DictKey.text (κ := Key F)) (Value.mapKeysMembers Key.str ms) = ms
  | [] => rfl
  | (k, v) :: ms => by
    rw [Value.mapKeysMembers, Value.mapKeysMembers, mapKeys_ofJson v, mapKeysMembers_ofJson ms]
    rfl
end

section
variable [Builtins F] {sha256Hash : List UInt8 → List UInt8}

theorem keyTexts_ofJson (v : Json F) : keyTexts (ofJson v) = v := mapKeys_ofJson v

/-- The document of a row that `_make_row` has made. -/
theorem makeRow_doc {schemaVersion : Int} {c : Call F} {seq prevHash : Json F} {row : Row F}
    (h : makeRow sha256Hash schemaVersion c seq prevHash = .ok row) :
    ∃ g, lineHash sha256Hash prevHash seq (.str c.eventId.text) (.finite c.ts) (.str c.eventType)
        c.body = some g ∧
      keyTexts (.dict row) =
        .dict (rowMembers schemaVersion c (keyTexts c.body) seq prevHash g) := by
  rw [makeRow] at h
  split at h
  · cases h
  · rename_i g hg
    refine ⟨g, hg, ?_⟩
    cases h
    have hs := keyTexts_ofJson seq
    have hp := keyTexts_ofJson prevHash
    rw [keyTexts] at hs hp ⊢
    cases hd : c.dedupeId with
    | none =>
      simp only [rowMembers, hd, Value.mapKeys, Value.mapKeysMembers, List.cons_append,
        List.nil_append, hs, hp, keyTexts]
      rfl
    | some d =>
      simp only [rowMembers, hd, Value.mapKeys, Value.mapKeysMembers, List.cons_append,
        List.nil_append, hs, hp, keyTexts]
      rfl

omit [Builtins F] in
theorem rowMembers_distinct (schemaVersion : Int) (c : Call F) (payload seq prevHash : Json F)
    (hash : String) :
    Dict.Distinct (rowMembers schemaVersion c payload seq prevHash hash) := by
  cases hd : c.dedupeId with
  | none =>
    simp only [Dict.Distinct, rowMembers, hd, Dict.keys, List.map, List.cons_append,
      List.nil_append]
    decide
  | some d =>
    simp only [Dict.Distinct, rowMembers, hd, Dict.keys, List.map, List.cons_append,
      List.nil_append]
    decide

omit [Builtins F] in
theorem build_rowMembers (schemaVersion : Int) (c : Call F) (payload seq prevHash : Json F)
    (hash : String) :
    (Value.dict (rowMembers schemaVersion c payload seq prevHash hash)).build =
      .dict (rowMembers schemaVersion c payload.build seq.build prevHash.build hash) := by
  have hb : Value.buildMembers (rowMembers schemaVersion c payload seq prevHash hash) =
      rowMembers schemaVersion c payload.build seq.build prevHash.build hash := by
    cases hd : c.dedupeId with
    | none => simp only [rowMembers, hd, List.cons_append, List.nil_append, Value.buildMembers,
        Value.build]
    | some d => simp only [rowMembers, hd, List.cons_append, List.nil_append, Value.buildMembers,
        Value.build]
  rw [Value.build, hb, Dict.ofPairs_of_distinct (rowMembers_distinct ..)]

theorem fields_rowMembers (schemaVersion n : Int) (c : Call F) (payload : Json F)
    (p hash : String) :
    fields (.dict (rowMembers schemaVersion c payload (.int n) (.str p) hash)) =
      .ok ⟨schemaVersion, n, .str c.eventId.text, .finite c.ts, .str c.eventType, payload,
        .str hash, .str p⟩ := by
  cases hd : c.dedupeId with
  | none => simp only [rowMembers, hd]; rfl
  | some d => simp only [rowMembers, hd]; rfl

omit [Builtins F] in
theorem rowHash_rowMembers (schemaVersion : Int) (c : Call F) (payload seq prevHash : Json F)
    (hash : String) :
    rowHash (.dict (rowMembers schemaVersion c payload seq prevHash hash)) = hash := by
  cases hd : c.dedupeId with
  | none => simp only [rowMembers, hd]; rfl
  | some d => simp only [rowMembers, hd]; rfl

theorem link_rowMembers_iff {schemaVersion : Int} {c : Call F} {payload : Json F} {p hash : String}
    {n : Nat} :
    Link sha256Hash schemaVersion p n
        (.dict (rowMembers schemaVersion c payload (.int (n + 1)) (.str p) hash)) ↔
      callHash sha256Hash p n c payload = some hash := by
  rw [Link, fields_rowMembers]
  constructor
  · rintro ⟨f, h, hf, -, -, -, hh, hl⟩
    cases hf
    cases hh
    exact hl
  · intro h
    exact ⟨_, hash, rfl, rfl, rfl, rfl, rfl, h⟩

theorem idealLog_cons {schemaVersion : Int} {p : String} {n : Nat} {q : Nat × Call F}
    {cs : List (Nat × Call F)} {docs : List (Json F)}
    (h : idealLog sha256Hash schemaVersion p n (q :: cs) = some docs) :
    ∃ g docs', callHash sha256Hash p n q.2 q.2.body = some g ∧
      idealLog sha256Hash schemaVersion g (n + 1) cs = some docs' ∧
      docs = .dict (rowMembers schemaVersion q.2 (keyTexts q.2.body) (.int (n + 1)) (.str p) g) ::
        docs' := by
  simp only [idealLog, Option.bind_eq_bind, Option.bind_eq_some_iff, Option.pure_def,
    Option.some.injEq] at h
  obtain ⟨g, hg, docs', hd, rfl⟩ := h
  exact ⟨g, docs', hg, hd, rfl⟩

theorem build_callDoc (schemaVersion : Int) (c : Call F) (n : Int) (p hash : String) :
    (Value.dict (rowMembers schemaVersion c (keyTexts c.body) (.int n) (.str p) hash)).build =
      .dict (rowMembers schemaVersion c (roundTrip c.body) (.int n) (.str p) hash) := by
  rw [build_rowMembers]
  rfl

/-- The ideal log of stable calls is a verified stream. -/
theorem verified_idealLog {schemaVersion : Int} {p : String} {n : Nat} {cs : List (Nat × Call F)}
    {docs : List (Json F)} (h : idealLog sha256Hash schemaVersion p n cs = some docs)
    (hs : ∀ q ∈ cs, q.2.Stable) :
    HashChain.Chained (Link sha256Hash schemaVersion) rowHash p n (docs.map Value.build) := by
  induction cs generalizing p n docs with
  | nil =>
    cases h
    trivial
  | cons q cs ih =>
    obtain ⟨g, docs', hg, hd, rfl⟩ := idealLog_cons h
    rw [List.map_cons, build_callDoc, HashChain.Chained, link_rowMembers_iff, rowHash_rowMembers]
    refine ⟨?_, ih hd fun r hr => hs r (.tail _ hr)⟩
    have hq : dumpsSorted q.2.body = dumpsSorted (roundTrip q.2.body) := hs q (.head _)
    rw [callHash, lineHash, hashText, hq] at hg
    exact hg

theorem lineHash_inj (hsha : Function.Injective sha256Hash) [DictKey κ] [DictKey κ']
    {prevHash seq eventId : Json F} {ts : PyFloat F} {eventType : Json F} {v : Value κ F}
    {w : Value κ' F} {g : String}
    (hv : lineHash sha256Hash prevHash seq eventId ts eventType v = some g)
    (hw : lineHash sha256Hash prevHash seq eventId ts eventType w = some g) :
    dumpsSorted v = dumpsSorted w := by
  simp only [lineHash, hashText, Option.map_map, Option.map_eq_some_iff, Function.comp] at hv hw
  obtain ⟨b, hb, rfl⟩ := hv
  obtain ⟨b', hb', he⟩ := hw
  have ht := utf8_injective (hsha (hex_injective he))
  simp only [List.append_cancel_left_eq, List.cons.injEq, true_and] at ht
  rw [hb, hb', ht]

/-- Where no two texts share a digest, an ideal log verifies for stable calls only. -/
theorem stable_of_verified (hsha : Function.Injective sha256Hash) {schemaVersion : Int}
    {p : String} {n : Nat} {cs : List (Nat × Call F)} {docs : List (Json F)}
    (h : idealLog sha256Hash schemaVersion p n cs = some docs)
    (hv : HashChain.Chained (Link sha256Hash schemaVersion) rowHash p n (docs.map Value.build)) :
    ∀ q ∈ cs, q.2.Stable := by
  induction cs generalizing p n docs with
  | nil => simp
  | cons q cs ih =>
    obtain ⟨g, docs', hg, hd, rfl⟩ := idealLog_cons h
    rw [List.map_cons, build_callDoc, HashChain.Chained, link_rowMembers_iff,
      rowHash_rowMembers] at hv
    intro r hr
    rcases List.mem_cons.1 hr with rfl | hr
    · exact lineHash_inj hsha hg hv.1
    · exact ih hd hv.2 r hr

/-- A row holds the event of a call. -/
def Records (q : Nat × Call F) (row : Json F) : Prop :=
  row.getItem "type" = .ok (.str q.2.eventType) ∧
    row.getItem "payload" = .ok (roundTrip q.2.body)

/-- The seq, prev_hash and hash of a row behind one of hash `p`. -/
def Follows (p : String) (n : Nat) (row : Json F) : Prop :=
  row.getItem "seq" = .ok (.int (n + 1)) ∧ row.getItem "prev_hash" = .ok (.str p) ∧
    row.getItem "hash" = .ok (.str (rowHash row))

theorem idealLog_records {schemaVersion : Int} {p : String} {n : Nat} {cs : List (Nat × Call F)}
    {docs : List (Json F)} (h : idealLog sha256Hash schemaVersion p n cs = some docs) :
    List.Forall₂ Records cs (docs.map Value.build) := by
  induction cs generalizing p n docs with
  | nil =>
    cases h
    exact .nil
  | cons q cs ih =>
    obtain ⟨g, docs', -, hd, rfl⟩ := idealLog_cons h
    rw [List.map_cons, build_callDoc]
    exact .cons ⟨rfl, rfl⟩ (ih hd)

theorem idealLog_follows {schemaVersion : Int} {p : String} {n : Nat} {cs : List (Nat × Call F)}
    {docs : List (Json F)} (h : idealLog sha256Hash schemaVersion p n cs = some docs) :
    HashChain.Chained Follows rowHash p n (docs.map Value.build) := by
  induction cs generalizing p n docs with
  | nil =>
    cases h
    trivial
  | cons q cs ih =>
    obtain ⟨g, docs', -, hd, rfl⟩ := idealLog_cons h
    rw [List.map_cons, build_callDoc, HashChain.Chained, rowHash_rowMembers]
    refine ⟨⟨rfl, rfl, ?_⟩, ih hd⟩
    rw [rowHash_rowMembers]
    cases hc : q.2.dedupeId with
    | none => simp only [rowMembers, hc]; rfl
    | some d => simp only [rowMembers, hc]; rfl

omit [Builtins F] in
theorem not_boundary_rowKeys {schemaVersion : Int} {c : Call F} {payload seq prevHash : Json F}
    {hash : String} : ∀ p ∈ rowMembers schemaVersion c payload seq prevHash hash,
      ∀ e ∈ stringText p.1, isLineBoundary e = false := by
  have hk : ∀ k ∈ ["v", "seq", "id", "ts", "type", "payload", "prev_hash", "dedupe_id", "hash"],
      ((stringText k).all fun e => decide (isLineBoundary e = false)) = true := by decide
  intro p hp
  refine Text.forall_mem_of_all (hk p.1 ?_)
  cases hd : c.dedupeId with
  | none =>
    simp only [rowMembers, hd, List.append_nil, List.cons_append, List.nil_append, List.mem_cons,
      List.not_mem_nil, or_false] at hp
    rcases hp with rfl | rfl | rfl | rfl | rfl | rfl | rfl | rfl <;> simp
  | some d =>
    simp only [rowMembers, hd, List.cons_append, List.nil_append, List.mem_cons,
      List.not_mem_nil, or_false] at hp
    rcases hp with rfl | rfl | rfl | rfl | rfl | rfl | rfl | rfl | rfl <;> simp

/-- The line of an unbroken call is whole if the hash it follows is. -/
theorem unbroken_callDoc {schemaVersion n : Int} {c : Call F} {p : String} {bs : List UInt8}
    (hc : c.Unbroken) (hd : c.dedupeId = none) (hp : Unbroken (F := F) (.str p)) :
    Unbroken (.dict (rowMembers schemaVersion c (keyTexts c.body) (.int n) (.str p)
      (hex bs))) := by
  refine unbroken_dict not_boundary_rowKeys ?_
  intro q hq
  simp only [rowMembers, hd, List.append_nil, List.cons_append, List.nil_append, List.mem_cons,
    List.not_mem_nil, or_false] at hq
  rcases hq with rfl | rfl | rfl | rfl | rfl | rfl | rfl | rfl
  · exact unbroken_int _
  · exact unbroken_int _
  · exact unbroken_str fun e he => not_boundary_hexDigit (c.eventId.hexDigits e he)
  · exact unbroken_float _
  · exact hc.1
  · exact hc.2
  · exact hp
  · exact unbroken_hex _

theorem callHash_hex [DictKey κ] {p : String} {n : Nat} {c : Call F} {v : Value κ F} {g : String}
    (h : callHash sha256Hash p n c v = some g) : ∃ bs, g = hex bs := by
  obtain ⟨raw, -, rfl⟩ := Option.map_eq_some_iff.1 h
  exact ⟨_, rfl⟩

/-- The next row goes behind a row of hash `p`, with `n` rows before it. -/
def HeadAt (text : List Char) (p : String) (n : Nat) : Prop :=
  headLink (F := F) (readHead text) = .ok (.int n, .str p)

theorem headAt_nil : HeadAt (F := F) [] genesis 0 := rfl

theorem headAt_concat {schemaVersion : Int} {n : Nat} {c : Call F} {payload prevHash : Json F}
    {hash : String} (docs : List (Json F))
    (hu : Unbroken (.dict (rowMembers schemaVersion c payload (.int n) prevHash hash))) :
    HeadAt (F := F)
      (fileText (docs ++ [.dict (rowMembers schemaVersion c payload (.int n) prevHash hash)]))
      hash n := by
  rw [HeadAt, readHead_fileText_concat docs hu, build_rowMembers, headLink]
  cases hd : c.dedupeId with
  | none => simp only [rowMembers, hd]; rfl
  | some d => simp only [rowMembers, hd]; rfl

/-- One append behind a head that is read right writes the next document of the ideal log. -/
theorem nextRow_ideal {schemaVersion : Int} {text : List Char} {p : String} {n : Nat} {c : Call F}
    {row : Row F} (hh : HeadAt (F := F) text p n)
    (h : nextRow sha256Hash schemaVersion text c = .ok row) :
    ∃ g, callHash sha256Hash p n c c.body = some g ∧
      keyTexts (.dict row) =
        .dict (rowMembers schemaVersion c (keyTexts c.body) (.int (n + 1)) (.str p) g) := by
  rw [nextRow, hh] at h
  exact makeRow_doc h

theorem nextRow_doc {schemaVersion : Int} {text : List Char} {c : Call F} {row : Row F}
    (h : nextRow sha256Hash schemaVersion text c = .ok row) :
    ∃ seq prevHash g, keyTexts (.dict row) =
      .dict (rowMembers schemaVersion c (keyTexts c.body) seq prevHash g) := by
  obtain ⟨⟨s, p⟩, -, h⟩ := bind_ok h
  obtain ⟨q, -, h⟩ := bind_ok h
  obtain ⟨g, -, hd⟩ := makeRow_doc h
  exact ⟨q, p, g, hd⟩

theorem append_text_of_none {w w' : World F} {i : Nat} {c : Call F} {row : Row F}
    (hd : c.dedupeId = none) (h : w.append sha256Hash i c = (w', .ok row)) :
    nextRow sha256Hash (w.stores i).schemaVersion w.text c = .ok row ∧
      w'.text = w.text ++ (rowText row ++ ['\n']) ∧ w'.stores = w.stores := by
  rw [World.append_of_none w i hd] at h
  split at h
  · cases h
  · rename_i r hr
    cases h
    exact ⟨hr, rfl, rfl⟩

theorem appendAll_cons {w w' : World F} {q : Nat × Call F} {cs : List (Nat × Call F)}
    {rows : List (Row F)} (h : w.appendAll sha256Hash (q :: cs) = some (w', rows)) :
    ∃ w₁ row rows', w.append sha256Hash q.1 q.2 = (w₁, .ok row) ∧
      w₁.appendAll sha256Hash cs = some (w', rows') ∧ rows = row :: rows' := by
  rw [World.appendAll] at h
  split at h
  · cases h
  · rename_i w₁ row hw
    obtain ⟨⟨_, rows'⟩, ha, he⟩ := Option.map_eq_some_iff.1 h
    cases he
    exact ⟨w₁, row, rows', hw, ha, rfl⟩

/-- Calls that return leave the documents of their rows in the file, whatever head each has
read. -/
theorem appendAll_written {w w' : World F} {cs : List (Nat × Call F)} {rows : List (Row F)}
    {docs : List (Json F)} (hd : ∀ q ∈ cs, q.2.dedupeId = none) (ht : w.text = fileText docs)
    (h : w.appendAll sha256Hash cs = some (w', rows)) :
    w'.text = fileText (docs ++ rows.map fun row => keyTexts (.dict row)) ∧
      List.Forall₂ (fun q row => ∃ sv seq p g, keyTexts (.dict row) =
        .dict (rowMembers sv q.2 (keyTexts q.2.body) seq p g)) cs rows := by
  induction cs generalizing w docs rows with
  | nil =>
    cases h
    exact ⟨by rw [List.map_nil, List.append_nil, ht], .nil⟩
  | cons q cs ih =>
    obtain ⟨w₁, row, rows', hw, ha, rfl⟩ := appendAll_cons h
    obtain ⟨hn, ht₁, -⟩ := append_text_of_none (hd q (.head _)) hw
    rw [ht, rowText, ← fileText_concat] at ht₁
    obtain ⟨ht', hf⟩ := ih (fun r hr => hd r (.tail _ hr)) ht₁ ha
    rw [List.append_assoc] at ht'
    obtain ⟨seq, p, g, hdoc⟩ := nextRow_doc hn
    exact ⟨ht', .cons ⟨_, seq, p, g, hdoc⟩ hf⟩

/-- Unbroken calls leave the ideal log. -/
theorem appendAll_ideal {schemaVersion : Int} {w w' : World F} {cs : List (Nat × Call F)}
    {rows : List (Row F)} {docs : List (Json F)} {p : String} {n : Nat}
    (hv : ∀ i, (w.stores i).schemaVersion = schemaVersion)
    (hd : ∀ q ∈ cs, q.2.dedupeId = none) (hu : ∀ q ∈ cs, q.2.Unbroken)
    (ht : w.text = fileText docs) (hh : HeadAt (F := F) w.text p n)
    (hp : Unbroken (F := F) (.str p)) (h : w.appendAll sha256Hash cs = some (w', rows)) :
    idealLog sha256Hash schemaVersion p n cs =
        some (rows.map fun row => keyTexts (.dict row)) ∧
      ∀ row ∈ rows, Unbroken (keyTexts (.dict row)) := by
  induction cs generalizing w docs rows p n with
  | nil =>
    cases h
    exact ⟨rfl, by simp⟩
  | cons q cs ih =>
    obtain ⟨w₁, row, rows', hw, ha, rfl⟩ := appendAll_cons h
    obtain ⟨hn, ht₁, hs⟩ := append_text_of_none (hd q (.head _)) hw
    rw [hv] at hn
    obtain ⟨g, hg, hdoc⟩ := nextRow_ideal hh hn
    obtain ⟨bs, rfl⟩ := callHash_hex hg
    have hub : Unbroken (.dict (rowMembers schemaVersion q.2 (keyTexts q.2.body)
        (.int ((n : Int) + 1)) (.str p) (hex bs))) :=
      unbroken_callDoc (hu q (.head _)) (hd q (.head _)) hp
    rw [ht, rowText, ← fileText_concat, hdoc] at ht₁
    have hh₁ := headAt_concat (n := n + 1) docs hub
    rw [Nat.cast_succ, ← ht₁] at hh₁
    obtain ⟨hl, hr⟩ := ih (fun i => by rw [hs, hv]) (fun r hr => hd r (.tail _ hr))
      (fun r hr => hu r (.tail _ hr)) ht₁ hh₁ (unbroken_hex bs) ha
    refine ⟨?_, ?_⟩
    · obtain ⟨i, c⟩ := q
      simp only [idealLog, hg, hl, List.map_cons, hdoc, Option.bind_eq_bind, Option.bind_some,
        Option.pure_def]
    · intro r hr'
      rcases List.mem_cons.1 hr' with rfl | hr'
      · rw [hdoc]
        exact hub
      · exact hr r hr'

omit [Builtins F] in
theorem exists_of_forall₂ {R : α → β → Prop} {as : List α} {bs : List β} {a : α}
    (h : List.Forall₂ R as bs) (ha : a ∈ as) : ∃ b ∈ bs, R a b := by
  induction h with
  | nil => cases ha
  | cons hr _ ih =>
    rcases List.mem_cons.1 ha with rfl | ha
    · exact ⟨_, .head _, hr⟩
    · obtain ⟨b, hb, hab⟩ := ih ha
      exact ⟨b, .tail _ hb, hab⟩

theorem unbroken_genesis : Unbroken (F := F) (.str genesis) :=
  unbroken_str (Text.forall_mem_of_all (by decide))

theorem unbroken_of_callDoc {sv : Int} {c : Call F} {seq p : Json F} {g : String}
    (h : Unbroken (.dict (rowMembers sv c (keyTexts c.body) seq p g))) : c.Unbroken :=
  ⟨h.of_mem (p := ("type", .str c.eventType)) (by simp [rowMembers]),
    h.of_mem (p := ("payload", keyTexts c.body)) (by simp [rowMembers])⟩

variable (sha256Hash) in
/-- The file is a log of the calls: it replays and verifies, its rows are the events in order with
their seqs and prev_hashes in sequence, and `count` counts them. -/
structure LogOf (schemaVersion : Int) (text : List Char) (cs : List (Nat × Call F)) : Prop where
  rows : ∃ rows, replay sha256Hash schemaVersion text = .ok rows ∧
    List.Forall₂ Records cs rows ∧ HashChain.Chained Follows rowHash genesis 0 rows
  verify : ∃ r, verify (F := F) sha256Hash schemaVersion text = .ok r ∧ r.ok = true
  count : count text = cs.length

theorem verify_fileText_iff {schemaVersion : Int} {docs : List (Json F)} :
    (∃ r, verify (F := F) sha256Hash schemaVersion (fileText docs) = .ok r ∧ r.ok = true) ↔
      Verified sha256Hash schemaVersion (docs.map Value.build) := by
  rw [verify, readAll_fileText]
  exact verifyRows_ok_iff

theorem verifyRows_of_verified {schemaVersion : Int} {rows : List (Json F)}
    (h : Verified sha256Hash schemaVersion rows) :
    verifyRows sha256Hash schemaVersion rows =
      .ok ⟨true, rows.length, none, none, rows.head?.bind seqOf, rows.getLast?.bind seqOf⟩ := by
  have hl := verifyLoop_none_iff (n := 1).2 h
  rw [Nat.cast_zero] at hl
  rw [verifyRows, hl]

/-- Appends by any instances, in any order, leave a log of the calls when no type or payload holds
a line boundary of `str.splitlines` and every payload is stable. Where no two texts share a digest
they do so in no other case. -/
theorem World.appendAll_log {schemaVersion : Int} {w w' : World F} {cs : List (Nat × Call F)}
    {rows : List (Row F)} (hw : w.text = [])
    (hv : ∀ i, (w.stores i).schemaVersion = schemaVersion) (hd : ∀ q ∈ cs, q.2.dedupeId = none)
    (h : w.appendAll sha256Hash cs = some (w', rows)) :
    ((∀ q ∈ cs, q.2.Unbroken ∧ q.2.Stable) → LogOf sha256Hash schemaVersion w'.text cs) ∧
      (Function.Injective sha256Hash → LogOf sha256Hash schemaVersion w'.text cs →
        ∀ q ∈ cs, q.2.Unbroken ∧ q.2.Stable) := by
  have hempty : w.text = fileText ([] : List (Json F)) := hw
  obtain ⟨ht, hrows⟩ := appendAll_written hd hempty h
  rw [List.nil_append] at ht
  have hideal (hu : ∀ q ∈ cs, q.2.Unbroken) :=
    appendAll_ideal hv hd hu hempty (hw ▸ headAt_nil) unbroken_genesis h
  constructor
  · intro hc
    obtain ⟨hl, hub⟩ := hideal fun q hq => (hc q hq).1
    have hver := verified_idealLog hl fun q hq => (hc q hq).2
    rw [ht]
    refine ⟨⟨_, ?_, idealLog_records hl, idealLog_follows hl⟩, verify_fileText_iff.2 hver, ?_⟩
    · rw [replay, readAll_fileText]
      simp only [verifyRows_of_verified hver]
    · rw [count_fileText_eq_iff.2, List.length_map, hrows.length_eq]
      intro doc hm
      obtain ⟨row, hr, rfl⟩ := List.mem_map.1 hm
      exact hub row hr
  · intro hsha hlog
    have hcount := hlog.count
    rw [ht, hrows.length_eq] at hcount
    have hub := count_fileText_eq_iff.1 (by rw [hcount, List.length_map])
    have hu : ∀ q ∈ cs, q.2.Unbroken := by
      intro q hq
      obtain ⟨row, hr, sv, seq, p, g, hdoc⟩ := exists_of_forall₂ hrows hq
      exact unbroken_of_callDoc (hdoc ▸ hub _ (List.mem_map_of_mem hr))
    have hver := hlog.verify
    rw [ht] at hver
    have hs := stable_of_verified hsha (hideal hu).1 (verify_fileText_iff.1 hver)
    exact fun q hq => ⟨hu q hq, hs q hq⟩

end
section

/-- No file yet, and instances of schema version 1 that have read nothing. -/
def freshWorld : World WholeFloat := ⟨none, fun _ => ⟨eventSchemaVersion, none⟩⟩

def sampleCall (ts : Int) (eventType : String)
    (payload : Dict (Key WholeFloat) (Value (Key WholeFloat) WholeFloat))
    (dedupeId : Option String) : Call WholeFloat :=
  ⟨eventType, some payload, dedupeId, ⟨"6ba7b814-9dad-41d1-80b4-00c04fd430c8",
    Text.forall_mem_of_all (by decide)⟩, ⟨ts⟩⟩

/-- SHA-256 on the texts of `sampleCalls`. -/
def sampleDigest : List UInt8 → List UInt8 := knownDigest [
  ("genesis|1|6ba7b814-9dad-41d1-80b4-00c04fd430c8|1690000000.0|goal_added|\x7b\"goal_id" ++
      "\":\"g1\"\x7d",
      "03066704238f26a623f9dc32c51fe6e9c53e5907a05a44c8f7bc7046640f3be5"),
  ("03066704238f26a623f9dc32c51fe6e9c53e5907a05a44c8f7bc7046640f3be5|2|6ba7b814-9dad-41d" ++
      "1-80b4-00c04fd430c8|1690000001.0|todo_updated|\x7b\"status\":\"done\",\"todo_id\":\"" ++
      "t1\"\x7d",
      "242f2c1e5635199687c8ffca56de19b319c0d2bf12fe1c6386a431a2f7cf58ab")]

def sampleCalls : List (Nat × Call WholeFloat) :=
  [(0, sampleCall 1690000000 "goal_added" [(.str "goal_id", .str "g1")] none),
    (1, sampleCall 1690000001 "todo_updated"
      [(.str "todo_id", .str "t1"), (.str "status", .str "done")] none)]

theorem World.appendAll_log_sample : ∃ w' rows,
    freshWorld.appendAll sampleDigest sampleCalls = some (w', rows) ∧
      LogOf sampleDigest eventSchemaVersion w'.text sampleCalls := by
  obtain ⟨⟨w', rows⟩, h⟩ := Option.isSome_iff_exists.1
    (show (freshWorld.appendAll sampleDigest sampleCalls).isSome = true by decide +kernel)
  exact ⟨w', rows, h,
    (World.appendAll_log rfl (fun _ => rfl) (by decide) h).1 (by decide +kernel)⟩

/-- SHA-256 on the texts of the two calls below. -/
def brokenDigest : List UInt8 → List UInt8 := knownDigest [
  ("genesis|1|6ba7b814-9dad-41d1-80b4-00c04fd430c8|1690000000.0|\u2028|\x7b\x7d",
      "93c475283b33ef1873b0151c28e6c2a182abd383d7e565c5c5582f8ad5fd31fe"),
  ("genesis|1|6ba7b814-9dad-41d1-80b4-00c04fd430c8|1690000000.0|goal_added|\x7b\"9\":tru" ++
      "e,\"10\":true\x7d",
      "f0d6e401362fb8b05976326c9390429d241d65fab176cf1e271f13731ad02eaa"),
  ("genesis|1|6ba7b814-9dad-41d1-80b4-00c04fd430c8|1690000000.0|goal_added|\x7b\"10\":tr" ++
      "ue,\"9\":true\x7d",
      "c6413fe628de8d04348441249800551c2777516c505b7c1ddb777cd05ef1910d")]

def separatorCall : Call WholeFloat := sampleCall 1690000000 "\u2028" [] none

def intKeysCall : Call WholeFloat :=
  sampleCall 1690000000 "goal_added" [(.int 10, .bool true), (.int 9, .bool true)] none

/-- One append of a type that holds U+2028 is counted twice; one of a payload with the integer
keys 10 and 9 does not verify. -/
theorem World.appendAll_not_log :
    (∃ w' rows, freshWorld.appendAll brokenDigest [(0, separatorCall)] = some (w', rows) ∧
      ¬ LogOf brokenDigest eventSchemaVersion w'.text [(0, separatorCall)]) ∧
    ∃ w' rows, freshWorld.appendAll brokenDigest [(0, intKeysCall)] = some (w', rows) ∧
      ¬ LogOf brokenDigest eventSchemaVersion w'.text [(0, intKeysCall)] := by
  constructor
  · have hc : (freshWorld.appendAll brokenDigest [(0, separatorCall)]).map
        (fun p => count p.1.text) = some 2 := by decide +kernel
    obtain ⟨⟨w', rows⟩, h, hc⟩ := Option.map_eq_some_iff.1 hc
    refine ⟨w', rows, h, fun hl => ?_⟩
    rw [hl.count] at hc
    cases hc
  · have hc : (freshWorld.appendAll brokenDigest [(0, intKeysCall)]).map (fun p =>
        (verify (F := WholeFloat) brokenDigest eventSchemaVersion p.1.text).toOption.map
          VerifyResult.ok) = some (some false) := by decide +kernel
    obtain ⟨⟨w', rows⟩, h, hc⟩ := Option.map_eq_some_iff.1 hc
    refine ⟨w', rows, h, fun hl => ?_⟩
    obtain ⟨r, hr, hok⟩ := hl.verify
    rw [hr] at hc
    simp [Except.toOption, hok] at hc

end
end Obase.LoopEventStore
