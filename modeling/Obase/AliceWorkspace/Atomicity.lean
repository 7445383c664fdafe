import Obase.AliceWorkspace.Workspace
import Obase.Concrete
import Obase.Json.RoundTrip
import Obase.LastLine
import Obase.Separated

namespace Obase.AliceWorkspace
set_option autoImplicit true
open Effect Json

/-- The lines of a file, a character for each byte. -/
def fileLines (bytes : List UInt8) : List (List Char) :=
  Text.lines Text.isNewline (bytes.map fun b => Char.ofNat b.toNat)

/-- The manifest, where the links lead. -/
def manifest (S : System) (root : FsPath) : Option FsPath := S.real (artifactLog root)

/-- What is in the files other than the manifest. -/
def documents (S : System) (root : FsPath) (files : Files) : FsPath → Option (List UInt8) :=
  fun q => if manifest S root = some q then none else files.text q

def manifestLines (S : System) (root : FsPath) (files : Files) : List (List Char) :=
  fileLines (((manifest S root).bind files.text).getD [])

/-- One document is written, at the place that the record names, and one line of the manifest. -/
structure Saved (S : System) (root : FsPath) (a : Arguments) (files : Files) (record : Record F)
    (t : Files) : Prop where
  below : record.artifactPath ≠ []
  outside : ∀ name ∈ reservedTopLevel, ¬ root ++ [name] <+: root ++ record.artifactPath
  document : ∃ s content, a.content = .str s ∧ s.encode = some content ∧
    documents S root t = fun q =>
      if q = root ++ record.artifactPath then some content else documents S root files q
  line : ∃ l, manifestLines S root t = manifestLines S root files ++ [l]

/-- A call that raises changes no document and no line of the manifest; one that returns adds one
line and writes one document, below the root and outside of the reserved directories. -/
def Atomic (S : System) (root : FsPath) (a : Arguments) (files : Files) :
    EStateM.Result Failure Files (Record F) → Prop
  | .ok record t => Saved S root a files record t
  | .error _ t => documents S root t = documents S root files ∧
      manifestLines S root t = manifestLines S root files

/-- A workspace that `initialize` has made, with a manifest that can be made. -/
structure Initialised (F : Type) [Builtins F] (S : System) (root : FsPath) (files : Files) :
    Prop where
  metadata : ∃ m bytes, S.real (metadataPath root) = some m ∧ files.text m = some bytes ∧
    ∃ v : Json F, workspaceIdOf bytes = .ok v
  directory : ∃ d, S.real (stateDir root) = some d ∧ ∀ q, q <+: d → files q = some .directory
  manifest : ∀ l, manifest S root = some l → S.creates l = true

/-- The checks on the arguments and on the place of the document pass, and its directory can be
made. -/
structure Placed (S : System) (root : FsPath) (a : Arguments) (files : Files) (doc : Document)
    (p : FsPath) : Prop where
  initialised : isFile S files (metadataPath root) = true
  checked : checked a = .ok doc
  resolved : S.real (root ++ doc.parts) = some p
  inside : root <+: p
  not_root : p ≠ root
  metadata : ∃ m, S.real (metadataPath root) = some m ∧ p ≠ m
  manifest : ∃ l, manifest S root = some l ∧ p ≠ l
  no_link : S.isLink p = false
  clear : Clear S files p.dropLast

/-- The call comes to write the document. -/
structure Writes (S : System) (root : FsPath) (a : Arguments) (files : Files) (doc : Document)
    (p : FsPath) : Prop extends Placed S root a files doc p where
  writable : Writable S files p

/-- The checks that come after the document is written pass. -/
structure Recordable (S : System) (root : FsPath) (createdAt : CreatedAt) (files : Files)
    (doc : Document) (p : FsPath) : Prop where
  created : ∃ s, utcIso S createdAt = .ok s
  head : ∃ h, gitHead S.git = .ok h
  no_link : S.isLink (artifactLog root) = false
  manifest : ∃ l, manifest S root = some l ∧ root <+: l ∧ files l ≠ some .directory ∧
    ¬ l <+: p.dropLast
  title : doc.title.Encodable
  kind : doc.kind.Encodable
  refs : ∀ ref ∈ doc.refs, ref.Encodable
  path : ∀ name ∈ p.drop root.length, name.Encodable

section
variable {S : System} {root p : FsPath} {a : Arguments} {files t : Files} {doc : Document}

theorem destination_ok {parts : List PyStr} : destination S root parts files = .ok p t ↔
    (S.real (root ++ parts) = some p ∧ root <+: p ∧ p ≠ root ∧
      (∃ m, S.real (metadataPath root) = some m ∧ p ≠ m) ∧
      (∃ l, manifest S root = some l ∧ p ≠ l) ∧ S.isLink p = false ∧ Clear S files p.dropLast) ∧
      t = files.withDirectories p.dropLast := by
  rw [destination]
  simp only [bind_eq_ok, require_ok, resolve_ok, mkdirs_ok, manifest]
  constructor
  · rintro ⟨q, _, ⟨hq, rfl⟩, ⟨⟩, _, ⟨hin, rfl⟩, ⟨⟩, _, ⟨hne, rfl⟩, m, _, ⟨hm, rfl⟩, l, _,
      ⟨hl, rfl⟩, ⟨⟩, _, ⟨hmem, rfl⟩, ⟨⟩, _, ⟨hc, rfl⟩, r, _, ⟨hr, rfl⟩, ⟨⟩, _, ⟨hr', rfl⟩, ho⟩
    have he : r = q := by
      rw [S.real_real _ _ hq] at hr
      exact (Option.some.inj hr).symm
    cases ho
    rw [List.mem_cons, List.mem_singleton, not_or] at hmem
    subst he
    exact ⟨⟨hq, hin, hne, ⟨m, hm, hmem.1⟩, ⟨l, hl, hmem.2⟩, hr'.2, hc⟩, rfl⟩
  · rintro ⟨⟨hq, hin, hne, ⟨m, hm, hpm⟩, ⟨l, hl, hpl⟩, hlink, hc⟩, rfl⟩
    have hmem : p ∉ [m, l] := by
      rw [List.mem_cons, List.mem_singleton, not_or]
      exact ⟨hpm, hpl⟩
    exact ⟨p, _, ⟨hq, rfl⟩, ⟨⟩, _, ⟨hin, rfl⟩, ⟨⟩, _, ⟨hne, rfl⟩, m, _, ⟨hm, rfl⟩, l, _,
      ⟨hl, rfl⟩, ⟨⟩, _, ⟨hmem, rfl⟩, ⟨⟩, _, ⟨hc, rfl⟩, p, _, ⟨S.real_real _ _ hq, rfl⟩, ⟨⟩, _,
      ⟨⟨hin, hlink⟩, rfl⟩, rfl⟩

theorem keeps_destination (S : System) (root : FsPath) (parts : List PyStr) :
    Keeps Files.text (destination S root parts) := by
  refine (keeps_resolve _ S _).bind fun _ _ _ _ => (keeps_require _ _).bind fun _ _ _ _ =>
    (keeps_require _ _).bind fun _ _ _ _ => (keeps_resolve _ S _).bind fun _ _ _ _ =>
    (keeps_resolve _ S _).bind fun _ _ _ _ => (keeps_require _ _).bind fun _ _ _ _ =>
    (keeps_mkdirs S _).bind fun _ _ _ _ => (keeps_resolve _ S _).bind fun _ _ _ _ =>
    (keeps_require _ _).bind fun _ _ _ _ => keeps_pure _

theorem ofExcept_ok {r : Except Failure α} {x : α} :
    (MonadExcept.ofExcept r : Call α) files = .ok x t ↔ r = .ok x ∧ t = files := by
  cases r with
  | error e => exact ⟨fun h => (nomatch h), fun h => (nomatch h.1)⟩
  | ok y =>
    constructor
    · intro h
      cases h
      exact ⟨rfl, rfl⟩
    · rintro ⟨h, rfl⟩
      cases h
      rfl

theorem prepare_ok : prepare S root a files = .ok (doc, p) t ↔
    Placed S root a files doc p ∧ t = files.withDirectories p.dropLast := by
  rw [prepare]
  simp only [bind_eq_ok, require_ok, ofExcept_ok, destination_ok]
  constructor
  · rintro ⟨_, _, hg, ⟨⟩, _, ⟨hi, rfl⟩, _, _, ⟨hc, rfl⟩, _, _, ⟨hd, rfl⟩, ho⟩
    cases hg
    cases ho
    obtain ⟨hq, hin, hne, hm, hl, hlink, hclear⟩ := hd
    exact ⟨⟨hi, hc, hq, hin, hne, hm, hl, hlink, hclear⟩, rfl⟩
  · rintro ⟨h, rfl⟩
    exact ⟨files, files, rfl, ⟨⟩, _, ⟨h.initialised, rfl⟩, doc, _, ⟨h.checked, rfl⟩, p, _,
      ⟨⟨h.resolved, h.inside, h.not_root, h.metadata, h.manifest, h.no_link, h.clear⟩, rfl⟩, rfl⟩

theorem keeps_prepare (S : System) (root : FsPath) (a : Arguments) :
    Keeps Files.text (prepare S root a) := by
  have hget : Keeps Files.text (get : Call Files) := fun _ => rfl
  exact hget.bind fun _ _ _ _ => (keeps_require _ _).bind fun _ _ _ _ =>
    (keeps_ofExcept _).bind fun _ _ _ _ => (keeps_destination S root _).bind fun _ _ _ _ =>
    keeps_pure _

/-- A call that does not come to write the document changes no file. -/
theorem saveDocument_of_not_writes [Builtins F] (h : ∀ doc p, ¬ Writes S root a files doc p) :
    ∃ e t, (saveDocument S root a files : EStateM.Result _ _ (Record F)) = .error e t ∧
      t.text = files.text := by
  cases hp : prepare S root a files with
  | error e t =>
    exact ⟨e, t, bind_of_error hp, (keeps_prepare S root a).eq_of_error hp⟩
  | ok d t =>
    obtain ⟨doc, p⟩ := d
    obtain ⟨hplaced, rfl⟩ := prepare_ok.1 hp
    have hkept := (keeps_prepare S root a).eq_of_ok hp
    cases hw : atomicWrite S p doc.encoded (files.withDirectories p.dropLast) with
    | error e t =>
      refine ⟨e, t, ?_, (atomicWrite_error hw).trans hkept⟩
      exact (bind_of_ok hp).trans (bind_of_error hw)
    | ok u t =>
      have hwr := (writable_withDirectories hplaced.clear).1 (atomicWrite_ok.1 hw).1
      exact (h doc p ⟨hplaced, hwr⟩).elim

/-- A call that comes to write the document goes on from there. -/
theorem saveDocument_of_writes [Builtins F] (h : Writes S root a files doc p) :
    (saveDocument S root a files : EStateM.Result _ _ (Record F)) =
      recordDocument S root doc a.createdAt p (files.written p doc.encoded) := by
  have hw : atomicWrite S p doc.encoded (files.withDirectories p.dropLast) =
      .ok () (files.written p doc.encoded) :=
    atomicWrite_ok.2 ⟨(writable_withDirectories h.clear).2 h.writable,
      (written_withDirectories ..).symm⟩
  exact (bind_of_ok (prepare_ok.2 ⟨h.toPlaced, rfl⟩)).trans (bind_of_ok hw)

theorem exists_mapM_chars {refs : List PyStr} :
    (∃ texts, refs.mapM PyStr.chars = some texts) ↔ ∀ ref ∈ refs, ref.Encodable := by
  induction refs with
  | nil => exact ⟨fun _ => List.forall_mem_nil _, fun _ => ⟨[], rfl⟩⟩
  | cons ref refs ih =>
    rw [List.forall_mem_cons, ← ih, PyStr.encodable_iff, List.mapM_cons]
    simp only [Option.bind_eq_bind, Option.bind_eq_some_iff, Option.pure_def, Option.some.injEq]
    constructor
    · exact fun ⟨_, x, hx, xs, hxs, _⟩ => ⟨⟨x, hx⟩, xs, hxs⟩
    · exact fun ⟨⟨x, hx⟩, xs, hxs⟩ => ⟨_, x, hx, xs, hxs, rfl⟩

theorem encodable_asPosix {names : List PyStr} :
    (asPosix names).Encodable ↔ ∀ name ∈ names, name.Encodable := by
  constructor
  · exact fun h name hn c hc => h c ((Separated.infix_intercalate hn).subset hc)
  · intro h c hc
    obtain he | ⟨name, hn, hc⟩ := Separated.mem_intercalate hc
    · cases he
    · exact h name hn c hc

/-- A record has a line where all of its strings have an encoding. -/
theorem exists_line_iff [FloatText F] {r : Record F} : (∃ line, r.line = .ok line) ↔
    (∀ name ∈ r.artifactPath, name.Encodable) ∧ r.title.Encodable ∧ r.kind.Encodable ∧
      ∀ ref ∈ r.sourceRefs, ref.Encodable := by
  rw [← encodable_asPosix, PyStr.encodable_iff, PyStr.encodable_iff, PyStr.encodable_iff,
    ← exists_mapM_chars]
  have hj : (∃ line, r.line = .ok line) ↔ ∃ v, r.json = some v := by
    rw [Record.line]
    cases r.json with
    | none => exact ⟨fun ⟨_, h⟩ => (nomatch h), fun ⟨_, h⟩ => (nomatch h)⟩
    | some v => exact ⟨fun _ => ⟨v, rfl⟩, fun _ => ⟨_, rfl⟩⟩
  rw [hj, Record.json]
  simp only [Option.bind_eq_bind, Option.bind_eq_some_iff, Option.pure_def, Option.some.injEq]
  constructor
  · exact fun ⟨_, x, hx, y, hy, z, hz, xs, hxs, _⟩ => ⟨⟨x, hx⟩, ⟨y, hy⟩, ⟨z, hz⟩, xs, hxs⟩
  · exact fun ⟨⟨x, hx⟩, ⟨y, hy⟩, ⟨z, hz⟩, xs, hxs⟩ => ⟨_, x, hx, y, hy, z, hz, xs, hxs, rfl⟩

theorem line_eq [FloatText F] {r : Record F} {line : List UInt8} (h : r.line = .ok line) :
    ∃ v : Json F, line = utf8 (canonicalLine v) := by
  rw [Record.line] at h
  cases hj : r.json with
  | none =>
    rw [hj] at h
    cases h
  | some v =>
    rw [hj] at h
    cases h
    exact ⟨_, rfl⟩

theorem isNewline_byte (b : UInt8) :
    Text.isNewline (Char.ofNat b.toNat) = true ↔ b = 10 := by
  have hall : ∀ n < 256, Text.isNewline (Char.ofNat n) = true ↔ n = 10 := by
    decide +kernel
  rw [hall _ (UInt8.toNat_lt b), ← UInt8.toNat_inj]
  rfl

theorem newline_not_mem_utf8 [FloatText F] (v : Json F) :
    (10 : UInt8) ∉ utf8 (dumps .compact (arrange v)) := by
  intro h
  obtain ⟨c, hc, he⟩ := exists_mem_of_mem_utf8 (by decide) h
  have hge := dumps_ge .compact _ c hc
  rw [he] at hge
  exact absurd hge (by decide)

/-- No line is left open at the end of a file. -/
def Ended (bytes : List UInt8) : Prop := ∀ b, bytes.getLast? = some b → b = 10

section
variable [FloatText F] (v : Json F) {bytes : List UInt8}

theorem document_chars :
    ∀ c ∈ (utf8 (dumps .compact (arrange v))).map (fun b => Char.ofNat b.toNat),
      Text.isNewline c = false := by
  intro c hc
  obtain ⟨b, hb, rfl⟩ := List.mem_map.1 hc
  rw [Bool.eq_false_iff, Ne, isNewline_byte]
  rintro rfl
  exact newline_not_mem_utf8 v hb

theorem map_line : (bytes ++ utf8 (canonicalLine v)).map (fun b => Char.ofNat b.toNat) =
    bytes.map (fun b => Char.ofNat b.toNat) ++
      ((utf8 (dumps .compact (arrange v))).map (fun b => Char.ofNat b.toNat) ++ ['\n']) := by
  rw [canonicalLine, utf8_append, List.map_append, List.map_append]
  rfl

/-- A whole line at the end of a file that a whole line ends is a line more. -/
theorem fileLines_append (h : Ended bytes) :
    ∃ l, fileLines (bytes ++ utf8 (canonicalLine v)) = fileLines bytes ++ [l] := by
  rw [fileLines, map_line]
  refine ⟨_, Text.lines_append_line rfl (document_chars v) fun c hc => ?_⟩
  rw [List.getLast?_map, Option.map_eq_some_iff] at hc
  obtain ⟨b, hb, rfl⟩ := hc
  exact (isNewline_byte b).2 (h b hb)

/-- After a line that is open, the line goes on that one. -/
theorem length_fileLines_append (h : ¬ Ended bytes) :
    (fileLines (bytes ++ utf8 (canonicalLine v))).length =
      (fileLines bytes).length := by
  rw [Ended] at h
  push Not at h
  obtain ⟨b, hb, hn⟩ := h
  obtain ⟨bs, rfl⟩ := List.getLast?_eq_some_iff.1 hb
  rw [fileLines, fileLines, map_line, List.map_append]
  apply Text.length_lines_append_line rfl (document_chars v)
  rw [Bool.eq_false_iff, Ne, isNewline_byte]
  exact hn

end
section
variable [Builtins F] {createdAt : CreatedAt}

/-- The record of a document. -/
def recordOf (S : System) (root : FsPath) (doc : Document) (p : FsPath) (v : Json F) (s : String)
    (head : Option (List Char)) : Record F where
  schemaVersion := 1
  workspaceId := v
  artifactPath := p.drop root.length
  title := doc.title.strip
  kind := doc.kind.strip
  bytes := doc.encoded.length
  sha256 := hex (S.sha256 doc.encoded)
  sourceRefs := doc.refs
  createdAt := s
  gitHead := head

theorem makeRecord_ok {r : Record F} : makeRecord S root doc createdAt p files = .ok r t ↔
    (∃ m bytes v s head, S.real (metadataPath root) = some m ∧ files.text m = some bytes ∧
      workspaceIdOf bytes = .ok v ∧ utcIso S createdAt = .ok s ∧ gitHead S.git = .ok head ∧
      r = recordOf S root doc p v s head) ∧ t = files := by
  rw [makeRecord]
  simp only [bind_eq_ok, readBytes_ok, ofExcept_ok]
  constructor
  · rintro ⟨bytes, _, ⟨⟨m, hm, hb⟩, rfl⟩, v, _, ⟨hv, rfl⟩, s, _, ⟨hs, rfl⟩, head, _, ⟨hh, rfl⟩,
      ho⟩
    cases ho
    exact ⟨⟨m, bytes, v, s, head, hm, hb, hv, hs, hh, rfl⟩, rfl⟩
  · rintro ⟨⟨m, bytes, v, s, head, hm, hb, hv, hs, hh, rfl⟩, rfl⟩
    exact ⟨bytes, _, ⟨⟨m, hm, hb⟩, rfl⟩, v, _, ⟨hv, rfl⟩, s, _, ⟨hs, rfl⟩, head, _, ⟨hh, rfl⟩, rfl⟩

theorem keeps_makeRecord (v : Files → γ) : Keeps v
    (makeRecord S root doc createdAt p : Call (Record F)) :=
  (keeps_readBytes v S _).bind fun _ _ _ _ => (keeps_ofExcept _).bind fun _ _ _ _ =>
    (keeps_ofExcept _).bind fun _ _ _ _ => (keeps_ofExcept _).bind fun _ _ _ _ => keeps_pure _

/-- The directory of the workspace is there. -/
def Made (S : System) (root : FsPath) (files : Files) : Prop :=
  ∃ d, S.real (stateDir root) = some d ∧ ∀ q, q <+: d → files q = some .directory

theorem openManifest_ok {l : FsPath} (h : Made S root files) : openManifest S root files = .ok l t ↔
    (S.isLink (artifactLog root) = false ∧ manifest S root = some l ∧ root <+: l ∧
      files l ≠ some .directory ∧ (files l = none → S.creates l = true)) ∧
      t = files.set l (.file ((files.text l).getD [])) := by
  obtain ⟨d, hd, hmade⟩ := h
  rw [openManifest, bind_of_ok (resolve_ok.2 ⟨hd, rfl⟩), bind_of_ok (mkdirs_made hmade)]
  simp only [bind_eq_ok, require_ok, resolve_ok, openAppend_ok, manifest]
  constructor
  · rintro ⟨⟨⟩, _, ⟨hlink, rfl⟩, l, _, ⟨hl, rfl⟩, ⟨⟩, _, ⟨hin, rfl⟩, ⟨⟩, _, ⟨hn, hc, rfl⟩, ho⟩
    cases ho
    exact ⟨⟨hlink, hl, hin, hn, hc⟩, rfl⟩
  · rintro ⟨⟨hlink, hl, hin, hn, hc⟩, rfl⟩
    exact ⟨⟨⟩, _, ⟨hlink, rfl⟩, l, _, ⟨hl, rfl⟩, ⟨⟩, _, ⟨hin, rfl⟩, ⟨⟩, _, ⟨hn, hc, rfl⟩, rfl⟩

theorem appendRecord_ok {r : Record F} {u : Unit} (h : Made S root files) :
    appendRecord S root r files = .ok u t ↔ ∃ l line, (S.isLink (artifactLog root) = false ∧
      manifest S root = some l ∧ root <+: l ∧ files l ≠ some .directory ∧
      (files l = none → S.creates l = true)) ∧ r.line = .ok line ∧
      t = files.set l (.file ((files.text l).getD [] ++ line)) := by
  rw [appendRecord]
  simp only [bind_eq_ok, openManifest_ok h, ofExcept_ok]
  constructor
  · rintro ⟨l, _, ⟨hl, rfl⟩, line, _, ⟨hline, rfl⟩, ha⟩
    rw [append_file] at ha
    cases ha
    exact ⟨l, line, hl, hline, rfl⟩
  · rintro ⟨l, line, hl, hline, rfl⟩
    exact ⟨l, _, ⟨hl, rfl⟩, line, _, ⟨hline, rfl⟩, append_file ..⟩

/-- What the law says of the files. -/
def view (S : System) (root : FsPath) (files : Files) :
    (FsPath → Option (List UInt8)) × List (List Char) :=
  (documents S root files, manifestLines S root files)

theorem view_congr (h : t.text = files.text) : view S root t = view S root files :=
  congrArg (fun texts : FsPath → Option (List UInt8) =>
    ((fun q => if manifest S root = some q then none else texts q),
      fileLines (((manifest S root).bind texts).getD []))) h

theorem view_keeps {x : Call α} (h : Keeps Files.text x) : Keeps (view S root) x :=
  fun files => view_congr (h files)

theorem keeps_openAppend {l : FsPath} (h : manifest S root = some l) :
    Keeps (view S root) (openAppend S l) := by
  intro files
  cases ho : openAppend S l files with
  | ok u t =>
    obtain ⟨-, -, rfl⟩ := openAppend_ok.1 ho
    rw [after, view, view, manifestLines, manifestLines, h]
    refine Prod.ext (funext fun q => ?_) ?_
    · change (if manifest S root = some q then none else (files.set l _).text q) =
        if manifest S root = some q then none else files.text q
      rw [text_set_file, h]
      by_cases hq : some l = some q
      · rw [if_pos hq, if_pos hq]
      · rw [if_neg hq, if_neg hq, if_neg fun he => hq (congrArg some he.symm)]
    · dsimp only
      rw [Option.bind_some, Option.bind_some, text_set_file, if_pos rfl]
      rfl
  | error e t => exact congrArg (view S root) (openAppend_error ho)

theorem keeps_openManifest : Keeps (view S root) (openManifest S root) :=
  (keeps_resolve _ S _).bind fun _ _ _ _ => (view_keeps (keeps_mkdirs S _)).bind fun _ _ _ _ =>
    (keeps_require _ _).bind fun _ _ _ _ => (keeps_resolve _ S _).bind fun _ _ _ h =>
    (keeps_require _ _).bind fun _ _ _ _ => (keeps_openAppend (resolve_ok.1 h).1).bind
    fun _ _ _ _ => keeps_pure _

theorem appendRecord_error {r : Record F} {e : Failure} (hm : Made S root files)
    (h : appendRecord S root r files = .error e t) : view S root t = view S root files := by
  cases ho : openManifest S root files with
  | error e' t' =>
    rw [appendRecord, bind_of_error ho] at h
    cases h
    exact keeps_openManifest.eq_of_error ho
  | ok l t' =>
    have hk := keeps_openManifest.eq_of_ok ho
    obtain ⟨-, rfl⟩ := (openManifest_ok hm).1 ho
    rw [appendRecord, bind_of_ok ho] at h
    cases hl : r.line with
    | error e' =>
      rw [hl] at h
      cases h
      exact hk
    | ok line =>
      rw [hl, bind_of_ok (ofExcept_ok.2 ⟨rfl, rfl⟩), append_file] at h
      cases h

/-- A record that is not made or not appended changes no document and no line. -/
theorem recordDocument_error {e : Failure} (hm : Made S root files)
    (h : (recordDocument S root doc createdAt p files : EStateM.Result _ _ (Record F)) =
      .error e t) : view S root t = view S root files := by
  rw [recordDocument] at h
  cases hr : (makeRecord S root doc createdAt p files : EStateM.Result _ _ (Record F)) with
  | error e' t' =>
    rw [bind_of_error hr] at h
    cases h
    exact (keeps_makeRecord _).eq_of_error hr
  | ok r t' =>
    obtain ⟨-, rfl⟩ := makeRecord_ok.1 hr
    rw [bind_of_ok hr] at h
    cases ha : appendRecord S root r t' with
    | error e' u =>
      rw [bind_of_error ha] at h
      cases h
      exact appendRecord_error hm ha
    | ok _ u =>
      rw [bind_of_ok ha] at h
      cases h

theorem recordDocument_ok {r : Record F} : recordDocument S root doc createdAt p files = .ok r t ↔
    makeRecord S root doc createdAt p files = .ok r files ∧
      appendRecord S root r files = .ok () t := by
  rw [recordDocument, bind_eq_ok]
  constructor
  · rintro ⟨r', _, hr, h⟩
    obtain ⟨-, rfl⟩ := makeRecord_ok.1 hr
    obtain ⟨⟨⟩, _, ha, ho⟩ := bind_eq_ok.1 h
    cases ho
    exact ⟨hr, ha⟩
  · rintro ⟨hr, ha⟩
    exact ⟨r, files, hr, bind_eq_ok.2 ⟨(), t, ha, rfl⟩⟩

end

section
variable [Builtins F]

theorem Writes.text (h : Writes S root a files doc p) (q : FsPath) :
    (files.written p doc.encoded).text q = if q = p then some doc.encoded else files.text q :=
  text_written h.clear q

theorem Writes.made (h : Writes S root a files doc p) (hm : Made S root files) :
    Made S root (files.written p doc.encoded) := by
  obtain ⟨d, hd, hmade⟩ := hm
  refine ⟨d, hd, fun q hq => ?_⟩
  have hw : files.withDirectories p.dropLast q = some .directory := by
    rw [Files.withDirectories]
    split
    · rfl
    · exact hmade q hq
  rw [Files.written, Files.set, if_neg]
  · exact hw
  · rintro rfl
    exact h.writable.not_directory hw

/-- What is at another place once the document is written. -/
theorem written_ne (files : Files) {q : FsPath} (h : q ≠ p) (content : List UInt8) :
    files.written p content q = if q <+: p.dropLast then some .directory else files q := if_neg h

/-- A record is made and appended where the checks for it pass. -/
theorem exists_recordDocument_iff (hi : Initialised F S root files)
    (h : Writes S root a files doc p) :
    (∃ (r : Record F) (t : Files), recordDocument S root doc a.createdAt p
      (files.written p doc.encoded) = .ok r t) ↔
      Recordable S root a.createdAt files doc p := by
  have hm := h.made hi.directory
  obtain ⟨l', hl', hpl⟩ := h.manifest
  simp only [recordDocument_ok, makeRecord_ok, appendRecord_ok hm]
  constructor
  · rintro ⟨r, t, ⟨⟨m, bytes, v, s, head, -, -, -, hs, hh, hr⟩, -⟩, l, line,
      ⟨hlink, hl, hin, hn, -⟩, hline, -⟩
    cases hl'.symm.trans hl
    rw [written_ne files (Ne.symm hpl)] at hn
    obtain ⟨hpath, htitle, hkind, hrefs⟩ := exists_line_iff.1 ⟨line, hline⟩
    rw [hr] at hpath htitle hkind hrefs
    refine ⟨⟨s, hs⟩, ⟨head, hh⟩, hlink, ⟨l', hl', hin, fun hd => hn ?_, fun hd => hn (if_pos hd)⟩,
      PyStr.encodable_strip.1 htitle, PyStr.encodable_strip.1 hkind, hrefs, hpath⟩
    rw [hd, ite_self]
  · intro hr
    obtain ⟨m, bytes, hmeta, hb, v, hv⟩ := hi.metadata
    obtain ⟨s, hs⟩ := hr.created
    obtain ⟨head, hh⟩ := hr.head
    obtain ⟨l, hl, hin, hn, hp⟩ := hr.manifest
    cases hl'.symm.trans hl
    obtain ⟨m', hm', hpm⟩ := h.metadata
    cases hmeta.symm.trans hm'
    have hw := written_ne files (Ne.symm hpl) doc.encoded
    rw [if_neg hp] at hw
    have hbytes : (files.written p doc.encoded).text m = some bytes := by
      rw [h.text, if_neg (Ne.symm hpm)]
      exact hb
    obtain ⟨line, hline⟩ := (exists_line_iff (r := recordOf S root doc p v s head)).2
      ⟨hr.path, PyStr.encodable_strip.2 hr.title, PyStr.encodable_strip.2 hr.kind, hr.refs⟩
    exact ⟨_, _, ⟨⟨m, bytes, v, s, head, hmeta, hbytes, hv, hs, hh, rfl⟩, trivial⟩, l', line,
      ⟨hr.no_link, hl', hin, hw ▸ hn, fun _ => hi.manifest l' hl'⟩, hline, rfl⟩

/-- What a recorded document leaves behind. -/
theorem recordDocument_text {r : Record F} (hi : Made S root files)
    (h : Writes S root a files doc p)
    (hr : recordDocument S root doc a.createdAt p (files.written p doc.encoded) = .ok r t) :
    r.artifactPath = p.drop root.length ∧ ∃ l, ∃ v : Json F, manifest S root = some l ∧ p ≠ l ∧
      ∀ q, t.text q = if q = l then
          some ((files.text l).getD [] ++ utf8 (canonicalLine v))
        else if q = p then some doc.encoded else files.text q := by
  obtain ⟨hmake, happend⟩ := recordDocument_ok.1 hr
  obtain ⟨⟨m, bytes, v, s, head, -, -, -, -, -, rfl⟩, -⟩ := makeRecord_ok.1 hmake
  obtain ⟨l, line, ⟨-, hl, -⟩, hline, rfl⟩ := (appendRecord_ok (h.made hi)).1 happend
  obtain ⟨w, rfl⟩ := line_eq hline
  obtain ⟨l', hl', hpl⟩ := h.manifest
  cases hl'.symm.trans hl
  refine ⟨rfl, l, w, hl, hpl, fun q => ?_⟩
  rw [text_set_file, h.text, h.text, if_neg (Ne.symm hpl)]

theorem checked_createdAt (a : Arguments) (createdAt : CreatedAt) :
    checked { a with createdAt } = checked a := rfl

theorem checked_content (h : checked a = .ok doc) :
    ∃ s, a.content = .str s ∧ s.encode = some doc.encoded := by
  rw [checked] at h
  obtain ⟨parts, -, h⟩ := bind_ok h
  obtain ⟨title, -, h⟩ := bind_ok h
  obtain ⟨encoded, he, h⟩ := bind_ok h
  obtain ⟨kind, -, h⟩ := bind_ok h
  obtain ⟨refs, -, h⟩ := bind_ok h
  cases h
  unfold encodedContent at he
  split at he
  · cases he
  · rename_i s hs
    split at he
    · cases he
    · rename_i bytes hb
      split at he
      · cases he
      · cases he
        exact ⟨s, hs, hb⟩

theorem Writes.unique {doc' : Document} {q : FsPath} (h : Writes S root a files doc p)
    (h' : Writes S root a files doc' q) : doc' = doc ∧ q = p := by
  have hd := h.checked.symm.trans h'.checked
  cases hd
  have hp := h.resolved.symm.trans h'.resolved
  cases hp
  exact ⟨rfl, rfl⟩

theorem append_drop_of_prefix {q : FsPath} (h : root <+: q) : root ++ q.drop root.length = q := by
  obtain ⟨ns, rfl⟩ := h
  rw [List.drop_left]

/-- A document that is recorded is saved as the law says where it is outside of the reserved
directories and no line of the manifest is left open. -/
theorem saved_iff {r : Record F} (hi : Made S root files) (h : Writes S root a files doc p)
    (hr : recordDocument S root doc a.createdAt p (files.written p doc.encoded) = .ok r t) :
    Saved S root a files r t ↔ (∀ name ∈ reservedTopLevel, ¬ root ++ [name] <+: p) ∧
      ∀ l bytes, manifest S root = some l → files.text l = some bytes → Ended bytes := by
  obtain ⟨hpath, l, v, hl, hpl, htext⟩ := recordDocument_text hi h hr
  have hroot : root ++ r.artifactPath = p := by
    rw [hpath]
    exact append_drop_of_prefix h.inside
  have hlines : manifestLines S root t =
      fileLines ((files.text l).getD [] ++ utf8 (canonicalLine v)) := by
    rw [manifestLines, hl, Option.bind_some, htext, if_pos rfl]
    rfl
  have hlines' : manifestLines S root files = fileLines ((files.text l).getD []) := by
    rw [manifestLines, hl]
    rfl
  have hended : Ended ((files.text l).getD []) ↔
      ∀ l bytes, manifest S root = some l → files.text l = some bytes → Ended bytes := by
    constructor
    · intro he l' bytes hl' hb
      cases hl.symm.trans hl'
      rwa [hb] at he
    · intro he
      cases hb : files.text l with
      | none => exact fun b hb => (nomatch hb)
      | some bytes => exact he l bytes hl hb
  rw [← hended]
  constructor
  · intro hs
    refine ⟨hroot ▸ hs.outside, ?_⟩
    by_contra hn
    obtain ⟨m, hm⟩ := hs.line
    have hlen := length_fileLines_append v hn
    rw [← hlines, ← hlines', hm, List.length_append] at hlen
    exact Nat.succ_ne_self _ hlen
  · rintro ⟨hout, he⟩
    obtain ⟨s, hs, henc⟩ := checked_content h.checked
    refine ⟨?_, hroot.symm ▸ hout, ⟨s, doc.encoded, hs, henc, ?_⟩, ?_⟩
    · intro hnil
      rw [hnil, List.append_nil] at hroot
      exact h.not_root hroot.symm
    · funext q
      rw [hroot, documents, documents, hl, htext]
      by_cases hq : q = l
      · rw [if_pos (congrArg some hq.symm), if_neg (hq ▸ Ne.symm hpl),
          if_pos (congrArg some hq.symm)]
      · have hlq : ¬ some l = some q := fun he => hq (Option.some.inj he).symm
        rw [if_neg hlq, if_neg hq, if_neg hlq]
    · rw [hlines, hlines']
      exact fileLines_append v he

/-- A document that is written changes nothing only where it was there. -/
theorem written_kept_iff (h : Writes S root a files doc p) :
    view S root (files.written p doc.encoded) = view S root files ↔
      files.text p = some doc.encoded := by
  obtain ⟨l, hl, hpl⟩ := h.manifest
  have hpl' : ¬ manifest S root = some p := by
    rw [hl]
    exact fun he => hpl (Option.some.inj he).symm
  constructor
  · intro hv
    have hp := congrFun (congrArg Prod.fst hv) p
    change (if manifest S root = some p then none else (files.written p doc.encoded).text p) =
      if manifest S root = some p then none else files.text p at hp
    rw [if_neg hpl', if_neg hpl', h.text, if_pos rfl] at hp
    exact hp.symm
  · intro hp
    apply view_congr
    funext q
    rw [h.text]
    split
    · rename_i hq
      rw [hq, hp]
    · rfl

/-- What the law comes to where the document is written. -/
theorem atomic_iff_of_writes (hi : Initialised F S root files) (h : Writes S root a files doc p) :
    Atomic S root a files (saveDocument S root a files : EStateM.Result _ _ (Record F)) ↔
      (Recordable S root a.createdAt files doc p →
        (∀ name ∈ reservedTopLevel, ¬ root ++ [name] <+: p) ∧
        ∀ l bytes, manifest S root = some l → files.text l = some bytes → Ended bytes) ∧
      (¬ Recordable S root a.createdAt files doc p → files.text p = some doc.encoded) := by
  have hrec := exists_recordDocument_iff hi h
  rw [saveDocument_of_writes h]
  cases hr : (recordDocument S root doc a.createdAt p (files.written p doc.encoded) :
    EStateM.Result _ _ (Record F)) with
  | ok r t =>
    have hr' := hrec.1 ⟨r, t, hr⟩
    rw [Atomic, saved_iff hi.directory h hr]
    exact ⟨fun hs => ⟨fun _ => hs, fun hn => (hn hr').elim⟩, fun hs => hs.1 hr'⟩
  | error e t =>
    have hn : ¬ Recordable S root a.createdAt files doc p := by
      intro hr'
      obtain ⟨r, u, hok⟩ := hrec.2 hr'
      rw [hr] at hok
      cases hok
    have hview := recordDocument_error (h.made hi.directory) hr
    rw [Atomic, ← Prod.mk.injEq]
    change view S root t = view S root files ↔ _
    rw [hview, written_kept_iff h]
    exact ⟨fun hk => ⟨fun hr' => (hn hr').elim, fun _ => hk⟩, fun hk => hk.2 hn⟩

/-- The call keeps the law unless it comes to write the document: then either the record can be
appended, the place is outside of the reserved directories and no line of the manifest is left
open, or the document is there already. -/
theorem saveDocument_atomic_iff (hi : Initialised F S root files) :
    Atomic S root a files (saveDocument S root a files : EStateM.Result _ _ (Record F)) ↔
      ∀ doc p, Writes S root a files doc p →
        (Recordable S root a.createdAt files doc p →
          (∀ name ∈ reservedTopLevel, ¬ root ++ [name] <+: p) ∧
          ∀ l bytes, manifest S root = some l → files.text l = some bytes → Ended bytes) ∧
        (¬ Recordable S root a.createdAt files doc p → files.text p = some doc.encoded) := by
  by_cases hw : ∃ doc p, Writes S root a files doc p
  · obtain ⟨doc, p, hw⟩ := hw
    rw [atomic_iff_of_writes hi hw]
    constructor
    · intro h doc' q hw'
      obtain ⟨rfl, rfl⟩ := hw.unique hw'
      exact h
    · exact fun h => h doc p hw
  · push Not at hw
    obtain ⟨e, t, he, ht⟩ := saveDocument_of_not_writes (F := F) hw
    rw [he]
    exact ⟨fun _ doc p h => (hw doc p h).elim, fun _ => Prod.mk.inj (view_congr ht)⟩

end

end

/-- A line is read back without the order of the keys. -/
theorem loadText_canonicalLine [Builtins F] (v : Json F) :
    loadText (utf8 (canonicalLine v)) = .ok (arrange v).build := by
  have hcr : '\r' ∉ canonicalLine v := by
    intro hm
    obtain hm | hm := List.mem_append.1 hm
    · exact absurd (dumps_ge .compact _ _ hm) (by decide)
    · cases List.mem_singleton.1 hm
  have hl : (loads (canonicalLine v) : Option (Json F)) = loads (dumps .compact (arrange v)) := by
    rw [loads, loads, canonicalLine, Text.trim_concat rfl]
  rw [loadText, utf8Decode_utf8]
  dsimp only
  rw [Text.universalNewlines_of_no_cr hcr, hl, loads_dumps]

theorem loadText_of_distinct [Builtins F] {v : Json F} (h : v.Distinct) :
    loadText (utf8 (canonicalLine v)) = .ok (arrange v) := by
  rw [loadText_canonicalLine, Value.build_of_distinct _ (arrange_ordered h).distinct]

theorem initialMetadata_distinct (workspaceId title : List Char) (createdAt : String) :
    (initialMetadata workspaceId title createdAt : Json F).Distinct := by
  rw [initialMetadata, Value.Distinct]
  refine ⟨?_, trivial, trivial, trivial, trivial, trivial⟩
  change ["schema_version", "workspace_id", "title", "created_at"].Nodup
  decide

/-- The identity of a workspace is read from the metadata it gets. -/
theorem workspaceIdOf_initialMetadata [Builtins F] (workspaceId title : List Char)
    (createdAt : String) : (workspaceIdOf (utf8 (canonicalLine
      (initialMetadata workspaceId title createdAt : Json F))) : Except Failure (Json F)) =
      .ok (.str (String.ofList workspaceId)) := by
  have hd := initialMetadata_distinct (F := F) workspaceId title createdAt
  have hl := lookup_arrange hd.1 "workspace_id"
  rw [workspaceIdOf, loadText_of_distinct hd, initialMetadata, arrange]
  change (Json.getItem _ "workspace_id").mapError Failure.python = _
  rw [Json.getItem, hl]
  rfl

/-- A machine without links on which every path can be made. -/
def plainSystem : System where
  real := some
  isLink _ := false
  creates _ := true
  temporary files p :=
    let t := p.dropLast ++ [PyStr.ofChars ['.', 't', 'm', 'p']]
    if files t = none then some t else none
  sha256 := knownDigest
    [("# Notes", "360aa5ebfa18efd19f60eb2432c11d53e21586ff3a392ca246980970de15f0c4")]
  isoformat _ := "2026-01-01T00:00:00+00:00"
  now := 63902822400
  git := .unavailable
  real_real _ _ _ := rfl
  temporary_free files p t h := by
    dsimp only at h
    split at h
    · rename_i hn
      cases h
      exact hn
    · cases h

def notesRoot : FsPath := [PyStr.ofChars ['w', 's']]

def notesFiles : Files := fun q =>
  if q = metadataPath notesRoot then
    some (.file (utf8 (canonicalLine
      (initialMetadata ['w'] ['W'] "2026-01-01T00:00:00+00:00" : Json WholeFloat))))
  else if q <+: stateDir notesRoot then some .directory
  else none

def notesArguments : Arguments where
  relativePath := .str (PyStr.ofChars ['n', 'o', 't', 'e', 's'])
  title := .str (PyStr.ofChars ['N', 'o', 't', 'e', 's'])
  content := .str (PyStr.ofChars ['#', ' ', 'N', 'o', 't', 'e', 's'])

def notesDocument : Document where
  parts := [PyStr.ofChars ['n', 'o', 't', 'e', 's']]
  title := PyStr.ofChars ['N', 'o', 't', 'e', 's']
  encoded := utf8 ['#', ' ', 'N', 'o', 't', 'e', 's']
  kind := PyStr.ofChars ['r', 'e', 'p', 'o', 'r', 't']
  refs := []

theorem notes_initialised : Initialised WholeFloat plainSystem notesRoot notesFiles := by
  refine ⟨⟨_, _, rfl, text_eq_some.2 (if_pos rfl), _, workspaceIdOf_initialMetadata ..⟩,
    ⟨_, rfl, fun q hq => ?_⟩, fun _ _ => rfl⟩
  have hall : ∀ q ∈ (stateDir notesRoot).inits, notesFiles q = some .directory := by
    decide
  exact hall q ((List.mem_inits ..).2 hq)

theorem notes_writes (createdAt : CreatedAt) : Writes plainSystem notesRoot
    { notesArguments with createdAt } notesFiles notesDocument
    (notesRoot ++ notesDocument.parts) := by
  have hclear : Clear plainSystem notesFiles notesRoot := by
    intro q hq
    have hall : ∀ q ∈ notesRoot.inits, notesFiles q = some .directory := by decide
    exact .inl (hall q ((List.mem_inits ..).2 hq))
  have hchecked : checked notesArguments = .ok notesDocument := by decide
  exact {
    initialised := by decide
    checked := (checked_createdAt ..).trans hchecked
    resolved := rfl
    inside := List.prefix_append ..
    not_root := by decide
    metadata := ⟨_, rfl, by decide⟩
    manifest := ⟨_, rfl, by decide⟩
    no_link := rfl
    clear := hclear
    writable := ⟨hclear, by decide, by decide +kernel⟩ }

theorem notes_recordable : Recordable plainSystem notesRoot .absent notesFiles notesDocument
    (notesRoot ++ notesDocument.parts) where
  created := ⟨_, rfl⟩
  head := ⟨_, rfl⟩
  no_link := rfl
  manifest := ⟨_, rfl, by decide, by decide +kernel, by decide +kernel⟩
  title := PyStr.encodable_ofChars _
  kind := PyStr.encodable_ofChars _
  refs := List.forall_mem_nil _
  path := List.forall_mem_singleton.2 (PyStr.encodable_ofChars _)

/-- A document is saved. -/
theorem notes_saved : Atomic plainSystem notesRoot notesArguments notesFiles
    (saveDocument plainSystem notesRoot notesArguments notesFiles :
      EStateM.Result _ _ (Record WholeFloat)) := by
  rw [saveDocument_atomic_iff notes_initialised]
  intro doc p h
  obtain ⟨rfl, rfl⟩ := (notes_writes .absent).unique h
  refine ⟨fun _ => ⟨by decide, fun l bytes hl hb => ?_⟩,
    fun hn => (hn notes_recordable).elim⟩
  have hnone : notesFiles (artifactLog notesRoot) = none := by decide
  have hlog : artifactLog notesRoot = l := Option.some.inj hl
  rw [text_eq_some, ← hlog, hnone] at hb
  cases hb

/-- A `created_at` without a timezone is refused once the document is written. -/
theorem naive_saved : Initialised WholeFloat plainSystem notesRoot notesFiles ∧
    ¬ Atomic plainSystem notesRoot { notesArguments with createdAt := .naive } notesFiles
      (saveDocument plainSystem notesRoot { notesArguments with createdAt := .naive } notesFiles :
        EStateM.Result _ _ (Record WholeFloat)) := by
  refine ⟨notes_initialised, ?_⟩
  rw [atomic_iff_of_writes notes_initialised (notes_writes .naive)]
  intro h
  have hn : notesFiles (notesRoot ++ notesDocument.parts) = none := by decide
  have hr : ¬ Recordable plainSystem notesRoot .naive notesFiles
      notesDocument (notesRoot ++ notesDocument.parts) := by
    intro hr
    obtain ⟨s, hs⟩ := hr.created
    cases hs
  have hs := text_eq_some.1 (h.2 hr)
  rw [hn] at hs
  cases hs

end Obase.AliceWorkspace
