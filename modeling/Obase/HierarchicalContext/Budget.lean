import Obase.HierarchicalContext.Kept

namespace Obase.HierarchicalContext
set_option autoImplicit true

variable {jail : PathJail} {s : State} {t t' : FileTree}

/-- A read returns the text of the file with its line ends translated. -/
theorem read_ok_iff {uri : String} {p : Path} (hp : jail.path uri = .ok p) {layer : Layer}
    {text : List Char} : read jail t uri layer = .ok text ↔
      ∃ cs, t.content (target p layer) = some cs ∧ text = Text.universalNewlines cs := by
  rw [read, hp]
  change (if (t.entry (target p layer)).isNone = true then _ else _) = _ ↔ _
  rw [FileTree.readText, FileTree.content]
  cases t.entry (target p layer) with
  | none => exact iff_of_false (by rintro ⟨⟩) (by rintro ⟨_, ⟨⟩, _⟩)
  | some e =>
    cases e with
    | directory => exact iff_of_false (by rintro ⟨⟩) (by rintro ⟨_, ⟨⟩, _⟩)
    | file cs =>
      constructor
      · intro h
        cases h
        exact ⟨cs, rfl, rfl⟩
      · rintro ⟨cs', h, rfl⟩
        cases h
        rfl

theorem listUris_of_file {pre : String} {p : Path} (hp : jail.path pre = .ok p)
    (hf : t.isFile p = true) : listUris jail t pre = .ok [pre] := by
  rw [listUris, hp]
  exact congrArg Except.ok (if_pos hf)

theorem listUris_of_none {pre : String} {p : Path} (hp : jail.path pre = .ok p)
    (hf : t.isFile p = false) (hd : t.isDir p = false) : listUris jail t pre = .ok [] := by
  rw [listUris, hp, Except.map, hf, hd]
  rfl

/-- The URIs that are listed below a directory are those of the files that have no name of a
sidecar. -/
theorem Grown.listUris_of_dir (h : Grown jail t) {pre : String} {p : Path}
    (hp : jail.path pre = .ok p) (hf : t.isFile p = false) (hd : t.isDir p = true) :
    ∃ us, listUris jail t pre = .ok us ∧ ∀ q, (∃ u ∈ us, jail.path u = .ok q) ↔
      p <+: q ∧ t.isFile q = true ∧ isSidecar q = false := by
  refine ⟨(((t.below p).insertionSort (· ≤ ·)).filter fun p =>
    !(t.isDir p || isSidecar p)).map jail.uri, ?_, fun q => ?_⟩
  · rw [listUris, hp, Except.map, hf, hd]
    rfl
  have hmem (q : Path) : q ∈ ((t.below p).insertionSort (· ≤ ·)).filter (fun p =>
      !(t.isDir p || isSidecar p)) ↔ p <+: q ∧ t.isFile q = true ∧ isSidecar q = false := by
    rw [List.mem_filter, List.mem_insertionSort, FileTree.mem_below]
    constructor
    · rintro ⟨⟨⟨e, he⟩, hpq, -⟩, hq⟩
      rw [Bool.not_eq_true', Bool.or_eq_false_iff] at hq
      refine ⟨hpq, FileTree.isFile_iff.2 ?_, hq.2⟩
      cases e with
      | directory =>
        rw [FileTree.isDir_iff.2 he] at hq
        exact absurd hq.1 (by decide)
      | file cs => exact ⟨cs, FileTree.content_eq_some.2 he⟩
    · rintro ⟨hpq, hq, hs⟩
      obtain ⟨cs, hcs⟩ := FileTree.isFile_iff.1 hq
      have he := FileTree.content_eq_some.1 hcs
      refine ⟨⟨⟨_, he⟩, hpq, ?_⟩, ?_⟩
      · rintro rfl
        rw [hf] at hq
        cases hq
      · rw [hs, FileTree.isDir, he]
        rfl
  have huri (q : Path) (hq : p <+: q ∧ t.isFile q = true ∧ isSidecar q = false) :
      jail.path (jail.uri q) = .ok q := by
    obtain ⟨cs, hcs⟩ := FileTree.isFile_iff.1 hq.2.1
    have hk := FileTree.mem_keys_iff.2 ⟨_, FileTree.content_eq_some.1 hcs⟩
    exact PathJail.Accepts.path_uri ⟨(PathJail.path_ok hp).below.trans hq.1, h.names q hk⟩
  constructor
  · rintro ⟨u, hu, hq⟩
    obtain ⟨q', hq', rfl⟩ := List.mem_map.1 hu
    have hq' := (hmem q').1 hq'
    rw [huri q' hq'] at hq
    cases hq
    exact hq'
  · intro hq
    exact ⟨jail.uri q, List.mem_map_of_mem ((hmem q).2 hq), huri q hq⟩

theorem not_isFile_of_isDir {p : Path} (h : t.isDir p = true) : t.isFile p = false := by
  rw [FileTree.isFile, FileTree.content, FileTree.isDir_iff.1 h]
  rfl

/-- In a kept state, the file of a layer that is read is that of the layer as it was last written,
unless it is a sidecar that is taken for a body. -/
theorem Kept.content (h : Kept jail s) {p : Path} (hp : ∀ n ∈ p, Path.IsName n) (layer : Layer)
    (hl : layer = .L2 → ¬ Clashes p) {text : List Char}
    (ht : s.tree.content (target p layer) = some text) : lastWritten s.puts p layer = some text := by
  obtain ⟨q, layer', he, hq⟩ := h.files _ text ht
  obtain ⟨ha, hpl, -, -⟩ := h.stored q layer' text hq
  obtain ⟨rfl, rfl⟩ := target_inj hp ha.names hl hpl.body he
  exact hq

theorem Kept.lastWritten_clash (h : Kept jail s) {p : Path} (hc : Clashes p) :
    lastWritten s.puts p .L2 = none := by
  cases hl : lastWritten s.puts p .L2 with
  | none => rfl
  | some text => exact ((h.stored p .L2 text hl).2.1.body rfl hc).elim

theorem Kept.readsLast_iff (h : Kept jail s) {uri : String} {p : Path} {layer : Layer}
    (hp : jail.path uri = .ok p) : ReadsLast jail s uri p layer ↔
      ¬ (layer = .L2 ∧ Clashes p ∧ s.tree.isFile p = true) := by
  have hnames := (PathJail.path_ok hp).names
  constructor
  · rintro hr ⟨rfl, hc, hf⟩
    obtain ⟨cs, hcs⟩ := FileTree.isFile_iff.1 hf
    have hl := (hr _).1 ((read_ok_iff hp).2 ⟨cs, hcs, rfl⟩)
    rw [h.lastWritten_clash hc] at hl
    cases hl
  · intro hn text
    rw [read_ok_iff hp]
    constructor
    · rintro ⟨cs, hcs, rfl⟩
      have hl : layer = .L2 → ¬ Clashes p := by
        rintro rfl hc
        exact hn ⟨rfl, hc, FileTree.isFile_iff.2 ⟨cs, hcs⟩⟩
      have hlast := h.content hnames _ hl hcs
      rw [hlast, Text.universalNewlines_of_no_cr (h.stored _ _ _ hlast).2.1.noReturn]
    · intro hlast
      obtain ⟨-, hpl, -, hc⟩ := h.stored _ _ _ hlast
      exact ⟨text, hc, (Text.universalNewlines_of_no_cr hpl.noReturn).symm⟩

theorem Kept.listsBodies_iff (h : Kept jail s) {pre : String} {p : Path}
    (hp : jail.path pre = .ok p) : ListsBodies jail s pre p ↔
      ¬ (Clashes p ∧ s.tree.isFile p = true) := by
  have hfile {q : Path} {text : List Char} (hq : lastWritten s.puts q .L2 = some text) :
      s.tree.isFile q = true ∧ isSidecar q = false := by
    obtain ⟨-, hpl, -, hc⟩ := h.stored q .L2 text hq
    refine ⟨FileTree.isFile_iff.2 ⟨text, hc⟩, ?_⟩
    rw [Bool.eq_false_iff]
    exact fun hs => hpl.body rfl (.inl hs)
  constructor
  · rintro ⟨us, hus, hq⟩ ⟨hc, hf⟩
    rw [listUris_of_file hp hf] at hus
    cases hus
    obtain ⟨-, text, hl⟩ := (hq p).1 ⟨pre, .head _, hp⟩
    rw [h.lastWritten_clash hc] at hl
    cases hl
  · intro hn
    cases hf : s.tree.isFile p with
    | true =>
      have hc : ¬ Clashes p := fun hc => hn ⟨hc, hf⟩
      obtain ⟨cs, hcs⟩ := FileTree.isFile_iff.1 hf
      have hlast := h.content (PathJail.path_ok hp).names .L2 (fun _ => hc) hcs
      refine ⟨[pre], listUris_of_file hp hf, fun q => ?_⟩
      constructor
      · rintro ⟨u, hu, hq⟩
        rw [List.mem_singleton.1 hu, hp] at hq
        cases hq
        exact ⟨List.prefix_refl _, cs, hlast⟩
      · rintro ⟨hpq, text, hq⟩
        refine ⟨pre, .head _, ?_⟩
        by_cases he : q = p
        · rw [hp, he]
        · obtain ⟨cs', hcs'⟩ := FileTree.isFile_iff.1 (hfile hq).1
          have hdir := h.grown.sound.parents q
            (FileTree.mem_keys_iff.2 ⟨_, FileTree.content_eq_some.1 hcs'⟩) p hpq (Ne.symm he)
          rw [not_isFile_of_isDir (FileTree.isDir_iff.2 hdir)] at hf
          cases hf
    | false =>
      cases hd : s.tree.isDir p with
      | true =>
        obtain ⟨us, hus, hq⟩ := h.grown.listUris_of_dir hp hf hd
        refine ⟨us, hus, fun q => (hq q).trans (and_congr_right fun hpq => ?_)⟩
        constructor
        · rintro ⟨hq, hs⟩
          obtain ⟨cs, hcs⟩ := FileTree.isFile_iff.1 hq
          obtain ⟨q', layer, he, hl⟩ := h.files q cs hcs
          obtain ⟨ha, hpl, -, -⟩ := h.stored q' layer cs hl
          by_cases hlayer : layer = .L2
          · subst hlayer
            rw [target, if_pos rfl] at he
            rw [he]
            exact ⟨cs, hl⟩
          · rw [target, if_neg hlayer] at he
            rw [he, isSidecar_sidecar ha.names (hpl.sidecar hlayer) hlayer] at hs
            cases hs
        · rintro ⟨text, hq⟩
          exact hfile hq
      | false =>
        refine ⟨[], listUris_of_none hp hf hd, fun q => ?_⟩
        refine iff_of_false (by rintro ⟨_, ⟨⟩, _⟩) ?_
        rintro ⟨hpq, text, hq⟩
        obtain ⟨cs', hcs'⟩ := FileTree.isFile_iff.1 (hfile hq).1
        by_cases he : q = p
        · rw [← he, (hfile hq).1] at hf
          cases hf
        · have hdir := h.grown.sound.parents q
            (FileTree.mem_keys_iff.2 ⟨_, FileTree.content_eq_some.1 hcs'⟩) p hpq (Ne.symm he)
          rw [FileTree.isDir_iff.2 hdir] at hd
          cases hd

theorem Kept.layered (h : Kept jail s) : Layered jail s := by
  refine ⟨fun uri p layer => h.readsLast_iff, fun pre p => h.listsBodies_iff, ?_⟩
  intro uri layer text hl hr
  cases hp : jail.path uri with
  | error e =>
    rw [read, hp] at hr
    cases hr
  | ok p =>
    have hlast := ((h.readsLast_iff hp).2 (fun hn => hl hn.1) text).1 hr
    exact (h.stored _ _ _ hlast).2.2.1

end Obase.HierarchicalContext
