import Obase.LoopEventStore.Append
import Obase.Run

namespace Obase.LoopEventStore
set_option autoImplicit true
open Json Text

section
variable [Builtins F] (sha256Hash : List UInt8 → List UInt8)

/-- The dedupe id of a row of the file. -/
def dedupeOf (row : Json F) : Option String :=
  match row.getD "dedupe_id" .null with
  | .ok (.str d) => some d
  | _ => none

/-- The dedupe ids of the rows of a file, in order. -/
def dedupeIds (F : Type) [Builtins F] (text : List Char) : List String :=
  match readAll (F := F) text with
  | .ok rows => rows.filterMap dedupeOf
  | .error _ => []

/-- An append step: an instance and its call. -/
def AppendStep (w : World F) (q : Nat × Call F) (w' : World F) : Prop :=
  (w.append sha256Hash q.1 q.2).1 = w'

/-- The instance can tell whether the file has the dedupe id: its map lists it, or the map has
still to be loaded and no character but the newline ends a line of the file. -/
def Informed (w : World F) (q : Nat × Call F) : Prop :=
  ∀ d, q.2.dedupeId = some d →
    match (w.stores q.1).dedupeMap with
    | some m => d ∈ dedupeIds F w.text → d ∈ Dict.keys m
    | none => ∀ c ∈ w.text, isLineBoundary c = true → c = '\n'

end

section
variable [Builtins F] {sha256Hash : List UInt8 → List UInt8}

/-- The document of the row of some call. -/
def IsCallDoc (doc : Json F) : Prop :=
  ∃ schemaVersion c payload seq prevHash hash,
    doc = .dict (rowMembers schemaVersion c payload seq prevHash hash)

omit [Builtins F] in
theorem lookup_dedupe_rowMembers (schemaVersion : Int) (c : Call F) (payload seq prevHash : Json F)
    (hash : String) :
    (rowMembers schemaVersion c payload seq prevHash hash).lookup "dedupe_id" =
      c.dedupeId.map .str := by
  cases hd : c.dedupeId with
  | none => simp only [rowMembers, hd]; rfl
  | some d => simp only [rowMembers, hd]; rfl

omit [Builtins F] in
theorem dedupeOf_rowMembers (schemaVersion : Int) (c : Call F) (payload seq prevHash : Json F)
    (hash : String) :
    dedupeOf (.dict (rowMembers schemaVersion c payload seq prevHash hash)) = c.dedupeId := by
  rw [dedupeOf, getD, lookup_dedupe_rowMembers]
  cases c.dedupeId with
  | none => rfl
  | some d => rfl

/-- The dedupe ids of the rows that documents decode to. -/
def docIds (docs : List (Json F)) : List String := docs.filterMap fun doc => dedupeOf doc.build

omit [Builtins F] in
theorem docIds_concat (docs : List (Json F)) (doc : Json F) :
    docIds (docs ++ [doc]) = docIds docs ++ (dedupeOf doc.build).toList := by
  rw [docIds, List.filterMap_append, docIds]
  cases h : dedupeOf doc.build with
  | none => simp [h]
  | some d => simp [h]

theorem dedupeIds_fileText (docs : List (Json F)) : dedupeIds F (fileText docs) = docIds docs := by
  rw [dedupeIds, readAll_fileText]
  simp only [List.filterMap_map, Function.comp_def, docIds]

/-- A cached row is a row of the file under its dedupe id. -/
def Cached (docs : List (Json F)) (m : Dict String (Row F)) : Prop :=
  ∀ d r, m.lookup d = some r →
    roundTrip (.dict r) ∈ docs.map Value.build ∧ dedupeOf (roundTrip (.dict r)) = some d

theorem Cached.nil (docs : List (Json F)) : Cached docs [] := by
  intro d r h
  cases h

theorem Cached.concat {docs : List (Json F)} {m : Dict String (Row F)} (h : Cached docs m)
    (doc : Json F) : Cached (docs ++ [doc]) m := by
  intro d r hr
  obtain ⟨hm, hd⟩ := h d r hr
  exact ⟨by rw [List.map_append]; exact List.mem_append_left _ hm, hd⟩

theorem Cached.set {docs : List (Json F)} {m : Dict String (Row F)} (h : Cached docs m) {d : String}
    {r : Row F} (hr : roundTrip (.dict r) ∈ docs.map Value.build)
    (hd : dedupeOf (roundTrip (.dict r)) = some d) : Cached docs (m.set d r) := by
  intro d' r' hl
  by_cases he : d' = d
  · subst he
    rw [Dict.lookup_set_self] at hl
    cases hl
    exact ⟨hr, hd⟩
  · rw [Dict.lookup_set_ne he] at hl
    exact h d' r' hl

/-- A decoded row is what the file holds of itself in memory. -/
theorem roundTrip_ofJson {doc : Json F} {ms : List (String × Json F)} (h : doc.build = .dict ms) :
    roundTrip (.dict (Value.mapKeysMembers .str ms) : Value (Key F) F) = .dict ms := by
  have hk : keyTexts (.dict (Value.mapKeysMembers .str ms) : Value (Key F) F) = .dict ms :=
    keyTexts_ofJson (.dict ms)
  rw [roundTrip, hk, ← h, Value.build_of_distinct _ (Value.build_distinct doc)]

omit [Builtins F] in
theorem lookup_set_isSome {m : Dict String (Row F)} {d d' : String} (r : Row F)
    (h : (m.lookup d').isSome = true) : ((m.set d r).lookup d').isSome = true := by
  by_cases he : d' = d
  · subst he
    rw [Dict.lookup_set_self]
    rfl
  · rw [Dict.lookup_set_ne he]
    exact h

/-- Scanning the lines of a written file puts every dedupe id of it into the map, with its row. -/
theorem loadDedupe_docs {all docs : List (Json F)} {m : Dict String (Row F)}
    (hdocs : ∀ doc ∈ docs, IsCallDoc doc) (hsub : ∀ doc ∈ docs, doc ∈ all) (hm : Cached all m) :
    (loadDedupe m (docs.map (dumps .default))).2 = none ∧
      Cached all (loadDedupe m (docs.map (dumps .default))).1 ∧
      ∀ d, (m.lookup d).isSome = true ∨ d ∈ docIds docs →
        ((loadDedupe m (docs.map (dumps .default))).1.lookup d).isSome = true := by
  induction docs generalizing m with
  | nil => exact ⟨rfl, hm, fun d h => h.elim id (by simp [docIds])⟩
  | cons doc docs ih =>
    obtain ⟨sv, c, payload, seq, prevHash, hash, rfl⟩ := hdocs doc (.head _)
    have ht := dumps_trimmed .default
      (.dict (rowMembers sv c payload seq prevHash hash) : Json F)
    have hne : (dumps .default (.dict (rowMembers sv c payload seq prevHash hash))).isEmpty =
      false := List.isEmpty_eq_false_iff.2 ht.ne_nil
    have hrest := fun doc hd => hdocs doc (.tail _ hd)
    have hsub' := fun doc hd => hsub doc (.tail _ hd)
    have hb := build_rowMembers sv c payload seq prevHash hash
    rw [List.map_cons, loadDedupe, strip_of_trimmed ht, hne, if_neg Bool.false_ne_true, loads_dumps,
      hb]
    simp only [lookup_dedupe_rowMembers]
    have hid : dedupeOf (Value.dict (rowMembers sv c payload seq prevHash hash)).build =
        c.dedupeId := by
      rw [hb, dedupeOf_rowMembers]
    cases hc : c.dedupeId with
    | none =>
      rw [hc] at hid
      obtain ⟨h₁, h₂, h₃⟩ := ih hrest hsub' hm
      refine ⟨h₁, h₂, fun d hd => h₃ d ?_⟩
      simpa only [docIds, List.filterMap_cons, hid] using hd
    | some e =>
      rw [hc] at hid
      have hrt := roundTrip_ofJson hb
      have hset := hm.set (d := e) (r := Value.mapKeysMembers .str
          (rowMembers sv c payload.build seq.build prevHash.build hash)) (by
          rw [hrt, ← hb]
          exact List.mem_map_of_mem (hsub _ (.head _))) (by
          rw [hrt, dedupeOf_rowMembers, hc])
      obtain ⟨h₁, h₂, h₃⟩ := ih hrest hsub' hset
      refine ⟨h₁, h₂, fun d hd => h₃ d ?_⟩
      simp only [docIds, List.filterMap_cons, hid, List.mem_cons] at hd
      rcases hd with hd | rfl | hd
      · exact .inl (lookup_set_isSome _ hd)
      · exact .inl (by rw [Dict.lookup_set_self]; rfl)
      · exact .inr hd

/-- What every run keeps: the file holds rows of calls, no dedupe id twice, and every map holds
rows of the file. -/
structure DedupeInv (w : World F) (docs : List (Json F)) : Prop where
  text : w.text = fileText docs
  rows : ∀ doc ∈ docs, IsCallDoc doc
  nodup : (docIds docs).Nodup
  cached : ∀ i m, (w.stores i).dedupeMap = some m → Cached docs m

theorem unbroken_of_text {docs : List (Json F)}
    (h : ∀ c ∈ fileText docs, isLineBoundary c = true → c = '\n') : ∀ doc ∈ docs, Unbroken doc := by
  intro doc hd c hc
  rw [Bool.eq_false_iff]
  intro hb
  have hm : c ∈ fileText docs :=
    List.mem_flatMap.2 ⟨_, List.mem_map_of_mem hd, List.mem_append_left _ hc⟩
  have hn := newline_not_mem_dumps .default doc c hc
  rw [h c hm hb] at hn
  cases hn

/-- An informed instance finds the row of a dedupe id if the file has one, and nothing but rows of
the file. -/
theorem findDedupe_informed {w : World F} {docs : List (Json F)} {i : Nat} {c : Call F} {d : String}
    (hi : DedupeInv w docs) (hk : Informed w (i, c)) (hd : c.dedupeId = some d) :
    ∃ m, findDedupe (w.stores i).dedupeMap w.text d = (m, .ok (m.lookup d)) ∧ Cached docs m ∧
      (d ∈ docIds docs → (m.lookup d).isSome = true) := by
  have hk := hk d hd
  simp only at hk
  cases hc : (w.stores i).dedupeMap with
  | some m =>
    rw [hc] at hk
    refine ⟨m, rfl, hi.cached i m hc, fun hm => ?_⟩
    rw [hi.text, dedupeIds_fileText] at hk
    obtain ⟨p, hp, he⟩ := List.mem_map.1 (hk hm)
    rw [List.lookup_isSome_iff]
    exact ⟨p, hp, by simp [he]⟩
  | none =>
    rw [hc, hi.text] at hk
    have hl := loadDedupe_docs (m := []) hi.rows (fun _ h => h) (Cached.nil docs)
    rw [← splitlines_fileText (unbroken_of_text hk), ← hi.text] at hl
    obtain ⟨h₁, h₂, h₃⟩ := hl
    refine ⟨(loadDedupe [] (splitlines w.text)).1, ?_, h₂, fun hm => h₃ d (.inr hm)⟩
    rw [findDedupe]
    cases he : loadDedupe ([] : Dict String (Row F)) (splitlines w.text) with
    | mk m e =>
      rw [he] at h₁
      subst h₁
      rfl

theorem DedupeInv.update {w : World F} {docs docs' : List (Json F)} {i : Nat} {v : Int}
    {m : Dict String (Row F)} {text : List Char} (hi : DedupeInv w docs) (ht : text = fileText docs')
    (hr : ∀ doc ∈ docs', IsCallDoc doc)
    (hn : (docIds docs').Nodup)
    (hs : ∀ m, Cached docs m → Cached docs' m) (hm : Cached docs' m) :
    DedupeInv ⟨some text, Function.update w.stores i ⟨v, some m⟩⟩ docs' := by
  refine ⟨ht, hr, hn, fun j n hj => ?_⟩
  by_cases he : j = i
  · subst he
    simp only [Function.update_self, Option.some.injEq] at hj
    exact hj ▸ hm
  · simp only [Function.update_of_ne he] at hj
    exact hs n (hi.cached j n hj)

/-- The document that an append adds. -/
theorem nextRow_callDoc {schemaVersion : Int} {text : List Char} {c : Call F} {row : Row F}
    (h : nextRow sha256Hash schemaVersion text c = .ok row) :
    IsCallDoc (keyTexts (.dict row) : Json F) ∧
      dedupeOf (keyTexts (.dict row) : Json F).build = c.dedupeId := by
  obtain ⟨seq, prevHash, g, hdoc⟩ := nextRow_doc h
  refine ⟨⟨_, _, _, _, _, _, hdoc⟩, ?_⟩
  rw [hdoc, build_rowMembers, dedupeOf_rowMembers]

/-- One append of an informed instance keeps the invariant. -/
theorem DedupeInv.step {w w' : World F} {docs : List (Json F)} {q : Nat × Call F}
    (hi : DedupeInv w docs) (hk : Informed w q) (h : AppendStep sha256Hash w q w') :
    ∃ docs', DedupeInv w' docs' := by
  obtain ⟨i, c⟩ := q
  rw [AppendStep] at h
  subst h
  have hconcat (row : Row F) : w.text ++ (rowText row ++ ['\n']) =
      fileText (docs ++ [keyTexts (.dict row)]) := by
    rw [hi.text, fileText_concat]
    rfl
  have hrows {row : Row F} (hr : IsCallDoc (keyTexts (.dict row) : Json F)) :
      ∀ doc ∈ docs ++ [keyTexts (.dict row)], IsCallDoc doc := by
    intro doc hd
    rcases List.mem_append.1 hd with hd | hd
    · exact hi.rows doc hd
    · rw [List.mem_singleton.1 hd]
      exact hr
  cases hd : c.dedupeId with
  | none =>
    rw [World.append_of_none w i hd]
    cases hn : nextRow sha256Hash (w.stores i).schemaVersion w.text c with
    | error e => exact ⟨docs, hi.text, hi.rows, hi.nodup, hi.cached⟩
    | ok row =>
      obtain ⟨hr, hid⟩ := nextRow_callDoc hn
      rw [hd] at hid
      refine ⟨docs ++ [keyTexts (.dict row)], hconcat row, hrows hr, ?_, fun j m hj =>
        (hi.cached j m hj).concat _⟩
      rw [docIds_concat, hid, Option.toList_none, List.append_nil]
      exact hi.nodup
  | some d =>
    obtain ⟨m, hf, hm, hfound⟩ := findDedupe_informed hi hk hd
    rw [World.append_of_some w i hd, hf]
    dsimp only
    cases hl : m.lookup d with
    | some r => exact ⟨docs, hi.update hi.text hi.rows hi.nodup (fun _ h => h) hm⟩
    | none =>
      have hnew : d ∉ docIds docs := by
        intro hin
        rw [hl] at hfound
        cases hfound hin
      cases hn : nextRow sha256Hash (w.stores i).schemaVersion w.text c with
      | error e => exact ⟨docs, hi.update hi.text hi.rows hi.nodup (fun _ h => h) hm⟩
      | ok row =>
        obtain ⟨hr, hid⟩ := nextRow_callDoc hn
        rw [hd] at hid
        refine ⟨docs ++ [keyTexts (.dict row)], hi.update (hconcat row) (hrows hr) ?_
          (fun m h => h.concat _) ((hm.concat _).set ?_ hid)⟩
        · rw [docIds_concat, hid, Option.toList_some]
          exact hi.nodup.append (List.nodup_singleton d)
            (List.disjoint_singleton.2 hnew)
        · rw [List.map_append]
          exact List.mem_append_right _ (.head _)

variable (sha256Hash) in
/-- The dedupe contract in a state: no dedupe id is on two rows of the file, and an informed
instance that is called with one of them returns its row and adds none. -/
structure DedupeContract (w : World F) : Prop where
  unique : (dedupeIds F w.text).Nodup
  idempotent : ∀ i (c : Call F) d, c.dedupeId = some d → Informed w (i, c) →
    d ∈ dedupeIds F w.text → ∃ rows stored row, readAll w.text = .ok rows ∧ stored ∈ rows ∧
      dedupeOf stored = some d ∧ (w.append sha256Hash i c).2 = .ok row ∧
      roundTrip (.dict row) = stored ∧ (w.append sha256Hash i c).1.text = w.text

theorem DedupeInv.contract {w : World F} {docs : List (Json F)} (hi : DedupeInv w docs) :
    DedupeContract sha256Hash w := by
  constructor
  · rw [hi.text, dedupeIds_fileText]
    exact hi.nodup
  · intro i c d hd hk hm
    rw [hi.text, dedupeIds_fileText] at hm
    obtain ⟨m, hf, hc, hfound⟩ := findDedupe_informed hi hk hd
    obtain ⟨row, hr⟩ := Option.isSome_iff_exists.1 (hfound hm)
    obtain ⟨hin, hid⟩ := hc d row hr
    refine ⟨docs.map Value.build, _, row, by rw [hi.text, readAll_fileText], hin, hid, ?_, rfl, ?_⟩
    · rw [World.append_of_some w i hd, hf]
      dsimp only
      rw [hr]
    · rw [World.append_of_some w i hd, hf]
      dsimp only
      rw [hr]
      rfl

/-- In every run from an empty file in which only informed instances append under a dedupe id, the
dedupe contract holds in every state. -/
theorem dedupe_contract_of_informed {w₀ w : World F} (ht : w₀.text = [])
    (hm : ∀ i, (w₀.stores i).dedupeMap = none)
    (h : Run.Reaches (AppendStep sha256Hash) Informed w₀ w) : DedupeContract sha256Hash w := by
  have h₀ : ∃ docs, DedupeInv w₀ docs := by
    refine ⟨[], ht, by simp, List.nodup_nil, fun i m hi => ?_⟩
    rw [hm] at hi
    cases hi
  have hinv : ∃ docs, DedupeInv w docs := by
    refine h.invariant (I := fun w => ∃ docs, DedupeInv w docs) h₀ ?_
    rintro w q w' ⟨docs, hi⟩ hk hs
    exact hi.step hk hs
  obtain ⟨docs, hi⟩ := hinv
  exact hi.contract

end
section

/-- SHA-256 on the texts of the rows below. -/
def dedupeDigest : List UInt8 → List UInt8 := knownDigest [
  ("genesis|1|6ba7b814-9dad-41d1-80b4-00c04fd430c8|1690000000.0|goal_added|\x7b\x7d",
      "fa7db4145d64b45e34ffe8c00ca7666b39eabef254891c0d1e75ee1bcf3a7beb"),
  ("fa7db4145d64b45e34ffe8c00ca7666b39eabef254891c0d1e75ee1bcf3a7beb|2|6ba7b814-9dad-41d" ++
      "1-80b4-00c04fd430c8|1690000001.0|goal_added|\x7b\x7d",
      "fff864c044311cf18ec1c6707c1b62c9fd52fe10b163b386e4b45f4c287fd1d0"),
  ("fff864c044311cf18ec1c6707c1b62c9fd52fe10b163b386e4b45f4c287fd1d0|3|6ba7b814-9dad-41d" ++
      "1-80b4-00c04fd430c8|1690000002.0|goal_added|\x7b\x7d",
      "8b46a03dc58e2f9a2970e2de0fdd3d45ca095e4927567a5b0c33e87cf0126cb2")]

def addGoal (ts : Int) (dedupeId : String) : Call WholeFloat :=
  sampleCall ts "goal_added" [] (some dedupeId)

def firstAppend : World WholeFloat :=
  (freshWorld.append dedupeDigest 0 (addGoal 1690000000 "a")).1

theorem dedupe_contract_retry : DedupeContract dedupeDigest
    (firstAppend.append dedupeDigest 1 (addGoal 1690000001 "a")).1 := by
  refine dedupe_contract_of_informed (show freshWorld.text = [] from rfl) (fun _ => rfl)
    (((Run.Reaches.refl _).tail (a := (0, addGoal 1690000000 "a")) (t := freshWorld) ?_ rfl).tail
      (a := (1, addGoal 1690000001 "a")) ?_ rfl)
  · intro d hd c hc
    cases hc
  · intro d hd
    have hc : ∀ c ∈ firstAppend.text, isLineBoundary c = true → c = '\n' :=
      Text.forall_mem_of_all (by decide +kernel)
    exact hc

/-- Instance 0 loads its map before instance 1 appends under `b`, and then appends under `b`. -/
def duplicateCalls : List (Nat × Call WholeFloat) :=
  [(0, addGoal 1690000000 "a"), (1, addGoal 1690000001 "b"), (0, addGoal 1690000002 "b")]

theorem dedupe_duplicate_verifies : ∃ w rows,
    freshWorld.appendAll dedupeDigest duplicateCalls = some (w, rows) ∧
      (∃ r, verify (F := WholeFloat) dedupeDigest eventSchemaVersion w.text = .ok r ∧
        r.ok = true) ∧
      ¬ (dedupeIds WholeFloat w.text).Nodup := by
  have hc : (freshWorld.appendAll dedupeDigest duplicateCalls).map (fun p =>
      ((verify (F := WholeFloat) dedupeDigest eventSchemaVersion p.1.text).toOption.map
        VerifyResult.ok, dedupeIds WholeFloat p.1.text)) =
      some (some true, ["a", "b", "b"]) := by decide +kernel
  obtain ⟨⟨w, rows⟩, h, hc⟩ := Option.map_eq_some_iff.1 hc
  injection hc with hv hd
  refine ⟨w, rows, h, ?_, by rw [hd]; decide⟩
  cases hr : verify (F := WholeFloat) dedupeDigest eventSchemaVersion w.text with
  | error e =>
    rw [hr] at hv
    cases hv
  | ok r =>
    rw [hr] at hv
    exact ⟨r, rfl, by simpa [Except.toOption] using hv⟩

end
end Obase.LoopEventStore
