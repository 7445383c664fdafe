import Obase.KeyedStore
import Obase.KnowledgeStore.Parse
import Obase.KnowledgeStore.Store

namespace Obase.KnowledgeStore
set_option autoImplicit true

variable {base : Path} {t t' : FileTree}

/-- The directory of the store is there, with nothing but files in it. -/
structure Flat (base : Path) (t : FileTree) : Prop where
  above : ∀ q, q <+: base → t.content q = none
  below : ∀ n, t.isDir (base ++ [n]) = false

theorem Flat.root (base : Path) : Flat base (FileTree.root base) := by
  refine ⟨fun q _ => FileTree.root_content base q, fun n => ?_⟩
  rw [Bool.eq_false_iff, Ne, FileTree.isDir_iff, FileTree.root_entry, if_neg]
  · exact fun he => nomatch he
  · intro hp
    have hlen := hp.length_le
    rw [List.length_append, List.length_singleton] at hlen
    omega

theorem not_prefix_base (n : String) : ¬ base ++ [n] <+: base := by
  intro hp
  have hlen := hp.length_le
  rw [List.length_append, List.length_singleton] at hlen
  omega

theorem path_eq_iff {a b : String} : path base a = path base b ↔ safe a = safe b := by
  constructor
  · intro h
    injection List.append_cancel_left h with h
    have hl := congrArg String.toList h
    rw [String.toList_append, String.toList_append] at hl
    exact String.toList_inj.1 (List.append_cancel_right hl)
  · exact fun h => by rw [path, path, h]

/-- The name that a file has before it is complete. -/
def tmpName (id : String) : String :=
  String.ofList ((safe id ++ ".md").toList.take
    ((safe id ++ ".md").length - (path [] id).suffix.length) ++ ".tmp".toList)

theorem withSuffix_path (id : String) :
    (path base id).withSuffix ".tmp".toList = base ++ [tmpName id] := by
  rw [Path.withSuffix, Path.suffix, path, List.dropLast_concat, Path.name_append, tmpName,
    Path.suffix, path, Path.name_append]

theorem tmpName_ne (id other : String) : tmpName id ≠ safe other ++ ".md" := by
  intro h
  have hl := congrArg (fun s : String => s.toList.getLast?) h
  simp [tmpName] at hl

theorem nul_mem_path (base : Path) {id : String} :
    '\x00' ∈ (path base id).name.toList ↔ '\x00' ∈ id.toList := by
  rw [path, Path.name_append, String.toList_append, List.mem_append, safe, safeName,
    String.toList_ofList, List.mem_map]
  constructor
  · rintro (⟨c, hc, he⟩ | h)
    · split at he
      · exact absurd he (by decide)
      · exact he ▸ hc
    · exact absurd h (by decide)
  · exact fun h => .inl ⟨_, h, if_neg (by decide)⟩

/-- What is written is there, and files under other names stay. -/
theorem Flat.atomicWrite (h : Flat base t) {id : String} (hn : '\x00' ∉ id.toList)
    (content : List Char) : ∃ t', atomicWrite t (path base id) content = (.ok (), t') ∧
      Flat base t' ∧ t'.entry (path base id) = some (.file content) ∧
      ∀ other, safe other ≠ safe id → t'.entry (path base other) = t.entry (path base other) := by
  have hdrop : (base ++ [tmpName id]).dropLast = base := List.dropLast_concat
  have hne (other : String) : path base other ≠ base ++ [tmpName id] := by
    intro he
    injection List.append_cancel_left he with he
    exact tmpName_ne id other he.symm
  obtain ⟨t₁, hput⟩ := FileTree.put_of_free (p := base ++ [tmpName id])
    (fun q hq => h.above q (hdrop ▸ hq)) (h.below _) (hdrop.symm ▸ not_prefix_base _) content
  obtain ⟨-, -, -, he₁⟩ := FileTree.put_ok hput
  have hnp (n : String) : ¬ base ++ [n] <+: base ++ [tmpName id] ∨ n = tmpName id := by
    by_cases hn : n = tmpName id
    · exact .inr hn
    · refine .inl fun hp => hn ?_
      have he := hp.eq_of_length (by simp only [List.length_append, List.length_singleton])
      injection List.append_cancel_left he with he
  have hc₁ : t₁.content (base ++ [tmpName id]) = some content := by
    rw [FileTree.content_eq_some, he₁, if_pos rfl]
  have hpath (other : String) : t₁.entry (path base other) = t.entry (path base other) := by
    rw [he₁, if_neg (hne other), if_neg]
    exact (hnp _).resolve_right fun he => tmpName_ne id other he.symm
  have hd₁ : t₁.isDir (path base id) = false := by
    have hd := h.below (safe id ++ ".md")
    rw [Bool.eq_false_iff, Ne, FileTree.isDir_iff] at hd ⊢
    exact fun he => hd ((hpath id).symm.trans he)
  have hrep : ∃ t', t₁.replace (base ++ [tmpName id]) (path base id) = .ok t' := by
    rw [FileTree.replace, hc₁]
    dsimp only
    rw [hd₁]
    exact ⟨_, rfl⟩
  obtain ⟨t', hrep⟩ := hrep
  obtain ⟨cs, hcs, -, he⟩ := FileTree.replace_ok hrep
  cases hc₁.symm.trans hcs
  refine ⟨t', ?_, ⟨fun q hq => ?_, fun n => ?_⟩, ?_, fun other ho => ?_⟩
  · rw [KnowledgeStore.atomicWrite, if_neg fun hm => hn ((nul_mem_path base).1 hm),
      withSuffix_path, hput]
    dsimp only
    rw [hrep]
  · have hq₁ : q ≠ path base id := by
      rintro rfl
      exact not_prefix_base _ hq
    have hq₂ : q ≠ base ++ [tmpName id] := by
      rintro rfl
      exact not_prefix_base _ hq
    rw [FileTree.content, he, if_neg hq₁, if_neg hq₂, he₁, if_neg hq₂,
      if_pos (hq.trans (List.prefix_append ..))]
  · rw [Bool.eq_false_iff, Ne, FileTree.isDir_iff, he]
    split
    · rintro ⟨⟩
    · split
      · rintro ⟨⟩
      · rename_i hm
        have hn' : n ≠ tmpName id := fun hn => hm (by rw [hn])
        have hd := h.below n
        rw [Bool.eq_false_iff, Ne, FileTree.isDir_iff] at hd
        rw [he₁, if_neg hm, if_neg ((hnp n).resolve_right hn')]
        exact hd
  · rw [he, if_pos rfl]
  · rw [he, if_neg fun hp => ho (path_eq_iff.1 hp), if_neg (hne other), hpath]

theorem Flat.delete (h : Flat base t) (id : String) : ∃ r t', delete base t id = (.ok r, t') ∧
    Flat base t' ∧
      (∀ other, safe other ≠ safe id → t'.entry (path base other) = t.entry (path base other)) ∧
      ('\x00' ∉ id.toList → t'.entry (path base id) = none) := by
  rw [KnowledgeStore.delete]
  by_cases hs : '\x00' ∈ id.toList ∨ (t.entry (path base id)).isNone
  · rw [if_pos hs]
    refine ⟨_, t, rfl, h, fun _ _ => rfl, fun hn => ?_⟩
    exact Option.isNone_iff_eq_none.1 (hs.resolve_left hn)
  · rw [if_neg hs]
    have hu : t.unlink (path base id) = .ok (Dict.erase (path base id) t) := by
      rw [FileTree.unlink, path, h.below]
      rfl
    obtain ⟨-, he⟩ := FileTree.unlink_ok hu
    rw [hu]
    refine ⟨_, _, rfl, ⟨fun q hq => ?_, fun n => ?_⟩, fun other ho => ?_, fun _ => ?_⟩
    · have hne : q ≠ path base id := by
        rintro rfl
        exact not_prefix_base _ hq
      have habove := h.above q hq
      rw [FileTree.content] at habove ⊢
      rw [he, if_neg hne]
      exact habove
    · have hd := h.below n
      rw [Bool.eq_false_iff, Ne, FileTree.isDir_iff] at hd ⊢
      rw [he]
      split
      · rintro ⟨⟩
      · exact hd
    · rw [he, if_neg fun hp => ho (path_eq_iff.1 hp)]
    · rw [he, if_pos rfl]

/-- What `write` does, or that it raises and changes nothing. -/
theorem Flat.write (h : Flat base t) (U : Casing) (printable : Char → Bool) (id : String)
    (type : Field) (body : List Char) (kwargs : FrontMatter) (now : Time) :
    (∃ content t', serializeFrontmatter U printable (frontmatterOf id type kwargs now) body =
        some content ∧ (∀ p ∈ kwargs, p.1 ∉ parameters) ∧ '\x00' ∉ id.toList ∧
        KnowledgeStore.write U printable base t id type body kwargs now = (.ok (), t') ∧
        Flat base t' ∧ t'.entry (path base id) = some (.file content) ∧
        ∀ other, safe other ≠ safe id → t'.entry (path base other) = t.entry (path base other)) ∨
      ∃ e, KnowledgeStore.write U printable base t id type body kwargs now = (.error e, t) ∧
        ∀ t₂, KnowledgeStore.write U printable base t₂ id type body kwargs now =
          (.error e, t₂) := by
  by_cases hp : (kwargs.any fun p => p.1 ∈ parameters) = true
  · have he (t : FileTree) : KnowledgeStore.write U printable base t id type body kwargs now =
        (.error .typeError, t) := if_pos hp
    exact .inr ⟨_, he t, he⟩
  · cases hs : serializeFrontmatter U printable (frontmatterOf id type kwargs now) body with
    | none =>
      have he (t : FileTree) : KnowledgeStore.write U printable base t id type body kwargs now =
          (.error .typeError, t) := by
        rw [KnowledgeStore.write, if_neg hp, hs]
      exact .inr ⟨_, he t, he⟩
    | some content =>
      by_cases hn : '\x00' ∈ id.toList
      · have he (t : FileTree) : KnowledgeStore.write U printable base t id type body kwargs now =
            (.error .valueError, t) := by
          rw [KnowledgeStore.write, if_neg hp, hs]
          exact if_pos ((nul_mem_path base).2 hn)
        exact .inr ⟨_, he t, he⟩
      · obtain ⟨t', ha, hf, he, ho⟩ := h.atomicWrite hn content
        refine .inl ⟨content, t', rfl, fun p hm hpar => hp ?_, hn, ?_, hf, he, ho⟩
        · exact List.any_eq_true.2 ⟨p, hm, decide_eq_true hpar⟩
        · rw [KnowledgeStore.write, if_neg hp, hs]
          exact ha

end Obase.KnowledgeStore

namespace Obase.KnowledgeStore
set_option autoImplicit true

inductive Op where
  | write (id : String) (type : Field) (body : List Char) (kwargs : FrontMatter) (now : Time)
  | read (id : String)
  | delete (id : String)

/-- The id that an operation is on. -/
def Op.id : Op → String
  | .write id .. => id
  | .read id => id
  | .delete id => id

variable (U : Casing) (printable : Char → Bool) (base : Path)

def Op.step (t : FileTree) : Op → FileTree
  | .write id type body kwargs now =>
    (KnowledgeStore.write U printable base t id type body kwargs now).2
  | .read _ => t
  | .delete id => (KnowledgeStore.delete base t id).2

/-- The store of the documents by their ids. -/
def keyed : KeyedStore FileTree Op String (Option Doc) where
  start := FileTree.root base
  step t op := op.step U printable base t
  load := read base
  empty := none
  key op := some op.id
  saved a before
    | .write id .. => before || id == a
    | .read _ => before
    | .delete id => before && id != a

variable {U : Casing} {printable : Char → Bool} {base : Path} {a b : String} {t t' : FileTree}

theorem read_nul (h : '\x00' ∈ a.toList) (t : FileTree) : read base t a = none := if_pos h

theorem read_congr (h : t.entry (path base a) = t'.entry (path base a)) :
    read base t a = read base t' a := by
  rw [read, read, FileTree.readText, FileTree.readText, h]

theorem read_none (h : t.entry (path base a) = none) : read base t a = none := by
  rw [read, FileTree.readText, h]
  exact ite_self _

/-- An operation on an id leaves the files under other names. -/
theorem Flat.step_other (h : Flat base t) (U : Casing) (printable : Char → Bool) {op : Op}
    (hk : safe op.id ≠ safe a) :
    Flat base (op.step U printable base t) ∧
      (op.step U printable base t).entry (path base a) = t.entry (path base a) := by
  cases op with
  | write id type body kwargs now =>
    obtain ⟨content, t₁, -, -, -, hw, hf, -, ho⟩ | ⟨e, hw, -⟩ :=
      h.write U printable id type body kwargs now
    · rw [Op.step, hw]
      exact ⟨hf, ho a hk.symm⟩
    · rw [Op.step, hw]
      exact ⟨h, rfl⟩
  | read id => exact ⟨h, rfl⟩
  | delete id =>
    obtain ⟨r, t₁, hd, hf, ho, -⟩ := h.delete id
    rw [Op.step, hd]
    exact ⟨hf, ho a hk.symm⟩

/-- An operation on an id does the same to its file wherever the file is the same. -/
theorem Flat.step_same (h : Flat base t) (h' : Flat base t') {op : Op}
    (hn : '\x00' ∉ op.id.toList)
    (he : t.entry (path base op.id) = t'.entry (path base op.id)) :
    Flat base (op.step U printable base t) ∧ Flat base (op.step U printable base t') ∧
      (op.step U printable base t).entry (path base op.id) =
        (op.step U printable base t').entry (path base op.id) := by
  cases op with
  | write id type body kwargs now =>
    obtain ⟨content, t₁, hs, -, -, hw, hf, hc, -⟩ | ⟨e, hw, hall⟩ :=
      h.write U printable id type body kwargs now
    · obtain ⟨content', t₂, hs', -, -, hw', hf', hc', -⟩ | ⟨e, hw', hall⟩ :=
        h'.write U printable id type body kwargs now
      · cases hs.symm.trans hs'
        rw [Op.step, Op.step, hw, hw']
        exact ⟨hf, hf', hc.trans hc'.symm⟩
      · rw [hall t] at hw
        cases hw
    · rw [Op.step, Op.step, hw, hall t']
      exact ⟨h, h', he⟩
  | read id => exact ⟨h, h', he⟩
  | delete id =>
    obtain ⟨r, t₁, hd, hf, -, hc⟩ := h.delete id
    obtain ⟨r', t₂, hd', hf', -, hc'⟩ := h'.delete id
    rw [Op.step, Op.step, hd, hd']
    exact ⟨hf, hf', (hc hn).trans (hc' hn).symm⟩

/-- Ids with different safe names do not affect each other. -/
theorem unaffected (h : safe a ≠ safe b) : (keyed U printable base).Unaffected a b := by
  by_cases hn : '\x00' ∈ a.toList
  · exact ⟨fun ops _ => (read_nul hn _).trans (read_nul hn _).symm,
      fun ops _ _ => read_nul hn _⟩
  refine ⟨fun ops hon => ?_, fun ops hon hs => ?_⟩
  · refine KeyedStore.load_without (R := fun t t' => Flat base t ∧ Flat base t' ∧
      t.entry (path base a) = t'.entry (path base a)) ⟨.root base, .root base, rfl⟩
      (fun t t' hR => read_congr hR.2.2) ?_ ?_ hon
    · rintro t t' op hk ⟨hf, hf', he⟩
      obtain rfl : op.id = b := Option.some.inj hk
      obtain ⟨hstep, hsame⟩ := hf.step_other U printable h.symm
      exact ⟨hstep, hf', hsame.trans he⟩
    · rintro t t' op (hk | hk) ⟨hf, hf', he⟩
      · obtain rfl : op.id = a := Option.some.inj hk
        exact hf.step_same hf' hn he
      · cases hk
  · have hinv := KeyedStore.invariant (S := keyed U printable base) (a := a) (b := b)
      (P := fun t saved => Flat base t ∧ (saved = false → t.entry (path base a) = none))
      ⟨.root base, fun _ => ?_⟩ ?_ hon
    · exact read_none (hinv.2 hs)
    · rw [keyed, FileTree.root_entry]
      exact if_neg (not_prefix_base _)
    · rintro t saved op hk ⟨hf, he⟩
      obtain hk | hk | hk := hk
      · obtain rfl : op.id = a := Option.some.inj hk
        refine ⟨(hf.step_same hf hn rfl).1, fun hsaved => ?_⟩
        cases op with
        | write id type body kwargs now =>
          exact absurd (beq_self_eq_true id)
            (Bool.eq_false_iff.1 (Bool.or_eq_false_iff.1 hsaved).2)
        | read id => exact he hsaved
        | delete id =>
          obtain ⟨r, t₁, hd, -, -, hc⟩ := hf.delete id
          change (KnowledgeStore.delete base t id).2.entry (path base id) = none
          rw [hd]
          exact hc hn
      · obtain rfl : op.id = b := Option.some.inj hk
        obtain ⟨hstep, hsame⟩ := hf.step_other U printable h.symm
        refine ⟨hstep, fun hsaved => hsame.trans (he ?_)⟩
        cases op with
        | write => exact (Bool.or_eq_false_iff.1 hsaved).1
        | read => exact hsaved
        | delete id =>
          have hne : id ≠ a := fun he => h (congrArg safe he.symm)
          change (saved && id != a) = false at hsaved
          rw [bne_iff_ne.2 hne, Bool.and_true] at hsaved
          exact hsaved
      · cases hk

def noon : Time := ⟨2025, 1, 1, 12, 0, 0⟩

/-- What is written is read. -/
theorem read_note {a b : String} (hn : '\x00' ∉ b.toList) (hs : safe a = safe b)
    (ha : '\x00' ∉ a.toList) :
    read base (write U printable base (FileTree.root base) b (.str "note") [] [] noon).2 a ≠
      none := by
  have hser : ∃ ls, frontLines U printable (frontmatterOf b (.str "note") [] noon) = some ls :=
    ⟨_, rfl⟩
  obtain ⟨ls, hls⟩ := hser
  obtain ⟨h₀, hb⟩ := frontLines_begins hls
  obtain ⟨content, t', hc, -, -, hw, -, he, -⟩ | ⟨e, hw, -⟩ := (Flat.root base).write U
    printable b (.str "note") [] [] noon
  · rw [serializeFrontmatter_eq, hls] at hc
    cases hc
    obtain ⟨fm, body, hp, -⟩ := parse_frame_body h₀ hb []
    rw [hw, read, if_neg ha, path_eq_iff.2 hs, FileTree.readText, he]
    intro hnone
    cases hp.symm.trans hnone
  · have hw' : write U printable base (FileTree.root base) b (.str "note") [] [] noon =
        atomicWrite (FileTree.root base) (path base b) (frame ls (Text.strip [])) := by
      rw [write, serializeFrontmatter_eq, hls]
      rfl
    obtain ⟨t', ha, -⟩ := (Flat.root base).atomicWrite hn (frame ls (Text.strip []))
    rw [hw', ha] at hw
    cases hw

/-- Two ids do not affect each other exactly when their safe names differ or both are no file
names. -/
theorem keyed_apart_iff (hab : a ≠ b) : (keyed U printable base).Apart a b ↔
    safe a ≠ safe b ∨ '\x00' ∈ a.toList := by
  constructor
  · rintro ⟨h, -⟩
    by_contra hc
    push Not at hc
    obtain ⟨hs, hn⟩ := hc
    have hnb : '\x00' ∉ b.toList := by
      rw [← nul_mem_path base, ← path_eq_iff.2 hs, nul_mem_path]
      exact hn
    refine KeyedStore.not_unaffected [.write b (.str "note") [] [] noon] ?_ ?_ ?_ h
    · intro op hm
      obtain rfl := List.mem_singleton.1 hm
      exact .inr (.inl rfl)
    · exact beq_false_of_ne hab.symm
    · exact read_note hnb hs hn
  · rintro h
    by_cases hs : safe a = safe b
    · have hn := h.resolve_left (not_not.2 hs)
      have hnb : '\x00' ∈ b.toList := by
        rw [← nul_mem_path base, ← path_eq_iff.2 hs, nul_mem_path]
        exact hn
      exact ⟨⟨fun ops _ => (read_nul hn _).trans (read_nul hn _).symm,
        fun ops _ _ => read_nul hn _⟩, ⟨fun ops _ => (read_nul hnb _).trans (read_nul hnb _).symm,
        fun ops _ _ => read_nul hnb _⟩⟩
    · exact ⟨unaffected hs, unaffected (Ne.symm hs)⟩

end Obase.KnowledgeStore
