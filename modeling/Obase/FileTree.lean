import Obase.Dict
import Obase.Fallible
import Obase.Path

namespace Obase
set_option autoImplicit true

/-- What a file operation raises. -/
inductive OsError where
  | fileExists
  | fileNotFound
  | isADirectory
  | notADirectory
deriving DecidableEq

inductive Entry where
  | directory
  | file (cs : List Char)

/-- The files and directories by their paths. -/
abbrev FileTree := Dict Path Entry

namespace FileTree

def entry (t : FileTree) (p : Path) : Option Entry := @List.lookup _ _ instBEqOfDecidableEq p t

/-- The text of a file that is there. -/
def content (t : FileTree) (p : Path) : Option (List Char) :=
  match t.entry p with
  | some (.file cs) => some cs
  | _ => none

def isFile (t : FileTree) (p : Path) : Bool := (t.content p).isSome

def isDir (t : FileTree) (p : Path) : Bool :=
  match t.entry p with
  | some .directory => true
  | _ => false

/-- `mkdir(parents=True, exist_ok=True)`. -/
def mkdirs (t : FileTree) (p : Path) : Except OsError FileTree :=
  if t.isFile p then .error .fileExists
  else if p.inits.any t.isFile then .error .notADirectory
  else .ok (Dict.update t (p.inits.map fun q => (q, .directory)))

/-- `write_text`, in a directory that is there. -/
def writeText (t : FileTree) (p : Path) (cs : List Char) : Except OsError FileTree :=
  if t.isDir p then .error .isADirectory else .ok (Dict.set p (.file cs) t)

/-- The text of a file. -/
def readText (t : FileTree) (p : Path) : Except OsError (List Char) :=
  match t.entry p with
  | some (.file cs) => .ok cs
  | some .directory => .error .isADirectory
  | none => .error .fileNotFound

/-- A file is written, after the directories that lead to it are made. -/
def put (t : FileTree) (p : Path) (cs : List Char) : Except OsError FileTree :=
  (t.mkdirs p.dropLast).bind fun t => t.writeText p cs

/-- `os.replace`, of a file. -/
def replace (t : FileTree) (p q : Path) : Except OsError FileTree :=
  match t.content p with
  | none => .error .fileNotFound
  | some cs =>
    if t.isDir q then .error .isADirectory else .ok (Dict.set q (.file cs) (Dict.erase p t))

/-- `unlink(missing_ok=True)`. -/
def unlink (t : FileTree) (p : Path) : Except OsError FileTree :=
  if t.isDir p then .error .isADirectory else .ok (Dict.erase p t)

/-- `glob("*ext")`. -/
def glob (t : FileTree) (p : Path) (ext : List Char) : List Path :=
  (Dict.keys t).filter fun q => q ≠ [] ∧ q.dropLast = p ∧ ext <:+ q.name.toList

/-- `rglob("*")`. -/
def below (t : FileTree) (p : Path) : List Path :=
  (Dict.keys t).filter fun q => p <+: q ∧ q ≠ p

/-- A tree with the directories that lead to one of them, and no files. -/
def root (p : Path) : FileTree := p.inits.map fun q => (q, .directory)

/-- Every path is there once, and every path that leads to one that is there is a directory. -/
structure Sound (t : FileTree) : Prop where
  distinct : Dict.Distinct t
  parents : ∀ p ∈ Dict.keys t, ∀ q, q <+: p → q ≠ p → t.entry q = some .directory

theorem isDir_iff {t : FileTree} {p : Path} : t.isDir p = true ↔ t.entry p = some .directory := by
  rw [isDir]
  cases t.entry p with
  | none => simp
  | some e =>
    cases e with
    | directory => simp
    | file => simp

theorem content_eq_some {t : FileTree} {p : Path} {cs : List Char} :
    t.content p = some cs ↔ t.entry p = some (.file cs) := by
  rw [content]
  cases t.entry p with
  | none => simp
  | some e =>
    cases e with
    | directory => simp
    | file => simp

theorem isFile_iff {t : FileTree} {p : Path} : t.isFile p = true ↔ ∃ cs, t.content p = some cs :=
  Option.isSome_iff_exists

theorem readText_ok {t : FileTree} {p : Path} {cs : List Char} :
    t.readText p = .ok cs ↔ t.content p = some cs := by
  rw [readText, content]
  cases t.entry p with
  | none => simp
  | some e =>
    cases e with
    | directory => simp
    | file => simp

theorem mem_keys_iff {t : FileTree} {p : Path} : p ∈ Dict.keys t ↔ ∃ e, t.entry p = some e :=
  Dict.mem_keys_iff

theorem mem_below {t : FileTree} {p q : Path} :
    q ∈ t.below p ↔ (∃ e, t.entry q = some e) ∧ p <+: q ∧ q ≠ p := by
  rw [below, List.mem_filter, decide_eq_true_eq, mem_keys_iff]

theorem prefix_dropLast_iff {p q : Path} (h : q ≠ p) : q <+: p.dropLast ↔ q <+: p := by
  constructor
  · exact fun hq => hq.trans (List.dropLast_prefix p)
  · rintro ⟨r, rfl⟩
    have hr : r ≠ [] := by
      rintro rfl
      exact h (List.append_nil q).symm
    rw [List.dropLast_append_of_ne_nil hr]
    exact List.prefix_append ..

theorem inits_nodup (p : Path) : p.inits.Nodup := by
  induction p with
  | nil => exact List.nodup_singleton _
  | cons n p ih =>
    rw [List.inits_cons, List.nodup_cons]
    exact ⟨by simp, ih.map (List.cons_injective)⟩

theorem root_distinct (p : Path) : Dict.Distinct (root p) := by
  rw [Dict.Distinct, Dict.keys, root, List.map_map]
  exact (List.map_id _).symm ▸ inits_nodup p

/-- The directories that lead to a path. -/
theorem root_entry (p q : Path) :
    (root p).entry q = if q <+: p then some .directory else none := by
  split
  · rename_i h
    exact (Dict.lookup_eq_some_iff (root_distinct p)).2
      (List.mem_map.2 ⟨q, (List.mem_inits q p).2 h, rfl⟩)
  · rename_i h
    apply Dict.lookup_eq_none_of_not_mem
    intro hm
    obtain ⟨e, he, rfl⟩ := List.mem_map.1 hm
    obtain ⟨q, hq, rfl⟩ := List.mem_map.1 he
    exact h ((List.mem_inits q p).1 hq)

variable {t t' : FileTree} {p : Path} {cs : List Char}

/-- What making directories does, where no file is in the way. -/
theorem mkdirs_ok (h : t.mkdirs p = .ok t') : (∀ q, q <+: p → t.content q = none) ∧
    t' = Dict.update t (root p) ∧
    ∀ q, t'.entry q = if q <+: p then some .directory else t.entry q := by
  rw [mkdirs] at h
  split at h
  · cases h
  · split at h
    · cases h
    · rename_i hn
      rw [List.any_eq_true] at hn
      push Not at hn
      cases h
      refine ⟨fun q hq => ?_, rfl, fun q => ?_⟩
      · exact Option.not_isSome_iff_eq_none.1 (hn q ((List.mem_inits ..).2 hq))
      · refine (Dict.lookup_update (root_distinct _) q).trans ?_
        change ((root p).entry q).or (t.entry q) = _
        rw [root_entry]
        split
        · rfl
        · rfl

theorem content_mkdirs (h : t.mkdirs p = .ok t') (q : Path) : t'.content q = t.content q := by
  obtain ⟨hn, -, he⟩ := mkdirs_ok h
  rw [content, he]
  by_cases hq : q <+: p
  · rw [if_pos hq, hn q hq]
  · rw [if_neg hq]
    rfl

theorem isDir_mkdirs (h : t.mkdirs p = .ok t') {q : Path} (hq : t.isDir q = true) :
    t'.isDir q = true := by
  obtain ⟨-, -, he⟩ := mkdirs_ok h
  rw [isDir_iff, he]
  split
  · rfl
  · exact isDir_iff.1 hq

theorem Sound.mkdirs (hs : t.Sound) (h : t.mkdirs p = .ok t') : t'.Sound := by
  obtain ⟨-, ht, he⟩ := mkdirs_ok h
  refine ⟨?_, fun q hq r hr hne => ?_⟩
  · rw [ht]
    exact hs.distinct.update _
  · obtain ⟨e, hq⟩ := mem_keys_iff.1 hq
    rw [he] at hq ⊢
    by_cases hqp : q <+: p
    · exact if_pos (hr.trans hqp)
    · rw [if_neg hqp] at hq
      split
      · rfl
      · exact hs.parents q (mem_keys_iff.2 ⟨e, hq⟩) r hr hne

theorem writeText_ok (h : t.writeText p cs = .ok t') : t.isDir p = false ∧
    t' = Dict.set p (.file cs) t ∧
    ∀ q, t'.entry q = if q = p then some (.file cs) else t.entry q := by
  rw [writeText] at h
  split at h
  · cases h
  · rename_i hd
    cases h
    refine ⟨Bool.eq_false_iff.2 hd, rfl, fun q => ?_⟩
    by_cases hq : q = p
    · subst hq
      rw [if_pos rfl]
      exact Dict.lookup_set_self ..
    · rw [if_neg hq]
      exact Dict.lookup_set_ne hq ..

/-- What writing a file does, where no file is in the way and no directory is in its place. -/
theorem put_ok (h : t.put p cs = .ok t') :
    (∀ q, q <+: p → q ≠ p → t.content q = none) ∧ t.isDir p = false ∧
      t' = Dict.set p (.file cs) (Dict.update t (root p.dropLast)) ∧
      ∀ q, t'.entry q = if q = p then some (.file cs)
        else if q <+: p then some .directory else t.entry q := by
  obtain ⟨t₁, hm, hw⟩ := bind_ok h
  obtain ⟨hn, rfl, hm⟩ := mkdirs_ok hm
  obtain ⟨hd, rfl, hw⟩ := writeText_ok hw
  refine ⟨fun q hq hne => hn q ((prefix_dropLast_iff hne).2 hq), ?_, rfl, fun q => ?_⟩
  · rw [Bool.eq_false_iff] at hd ⊢
    rw [Ne, isDir_iff, hm] at hd
    rw [Ne, isDir_iff]
    intro he
    split at hd
    · exact hd rfl
    · exact hd he
  · rw [hw]
    by_cases hq : q = p
    · rw [if_pos hq, if_pos hq]
    · rw [if_neg hq, if_neg hq, ← ite_cond_congr (propext (prefix_dropLast_iff hq)), hm]

theorem mkdirs_of_free (h : ∀ q, q <+: p → t.content q = none) : ∃ t', t.mkdirs p = .ok t' := by
  have hfile {q : Path} (hq : q <+: p) : t.isFile q = false := by
    rw [isFile, h q hq]
    rfl
  have hany : p.inits.any t.isFile = false := by
    rw [List.any_eq_false]
    intro q hq
    rw [hfile ((List.mem_inits ..).1 hq)]
    exact Bool.false_ne_true
  refine ⟨Dict.update t (root p), ?_⟩
  rw [mkdirs, hfile (List.prefix_refl p), hany]
  rfl

/-- Writing a file succeeds where no file is in the way and no directory is in its place. -/
theorem put_of_free (h : ∀ q, q <+: p.dropLast → t.content q = none) (hd : t.isDir p = false)
    (hp : ¬ p <+: p.dropLast) (cs : List Char) : ∃ t', t.put p cs = .ok t' := by
  obtain ⟨t₁, hm⟩ := mkdirs_of_free h
  obtain ⟨-, -, he⟩ := mkdirs_ok hm
  have hd₁ : t₁.isDir p = false := by
    rw [Bool.eq_false_iff, Ne, isDir_iff] at hd ⊢
    rw [he, if_neg hp]
    exact hd
  refine ⟨Dict.set p (.file cs) t₁, ?_⟩
  rw [put, hm]
  change t₁.writeText p cs = _
  rw [writeText, hd₁]
  rfl

/-- Only the file that is written gets another text. -/
theorem content_put (h : t.put p cs = .ok t') (q : Path) :
    t'.content q = if q = p then some cs else t.content q := by
  obtain ⟨hn, -, -, he⟩ := put_ok h
  rw [content, he]
  by_cases hq : q = p
  · rw [if_pos hq, if_pos hq]
  · rw [if_neg hq, if_neg hq]
    by_cases hp : q <+: p
    · rw [if_pos hp, hn q hp hq]
    · rw [if_neg hp]
      rfl

theorem isDir_put (h : t.put p cs = .ok t') {q : Path} (hq : t.isDir q = true) :
    t'.isDir q = true := by
  obtain ⟨-, hd, -, he⟩ := put_ok h
  rw [isDir_iff, he]
  by_cases hqp : q = p
  · rw [hqp, hd] at hq
    cases hq
  · rw [if_neg hqp]
    split
    · rfl
    · exact isDir_iff.1 hq

theorem Sound.put (hs : t.Sound) (h : t.put p cs = .ok t') : t'.Sound := by
  obtain ⟨hn, hd, ht, he⟩ := put_ok h
  refine ⟨?_, fun q hq r hr hne => ?_⟩
  · rw [ht]
    exact (hs.distinct.update _).set _ _
  · obtain ⟨e, hq⟩ := mem_keys_iff.1 hq
    rw [he] at hq ⊢
    by_cases hqp : q <+: p
    · have hrp : r <+: p := hr.trans hqp
      have hrne : r ≠ p := by
        rintro rfl
        exact hne (hr.eq_of_length (Nat.le_antisymm hr.length_le hqp.length_le))
      rw [if_neg hrne, if_pos hrp]
    · have hqne : q ≠ p := by
        rintro rfl
        exact hqp (List.prefix_refl _)
      rw [if_neg hqne, if_neg hqp] at hq
      have hdir := hs.parents q (mem_keys_iff.2 ⟨e, hq⟩) r hr hne
      by_cases hrp : r = p
      · subst hrp
        rw [isDir_iff.2 hdir] at hd
        cases hd
      · rw [if_neg hrp]
        split
        · rfl
        · exact hdir

theorem root_sound (p : Path) : (root p).Sound := by
  refine ⟨root_distinct p, fun q hq r hr _ => ?_⟩
  obtain ⟨e, hq⟩ := mem_keys_iff.1 hq
  rw [root_entry] at hq ⊢
  split at hq
  · rename_i hqp
    exact if_pos (hr.trans hqp)
  · cases hq

theorem root_content (p q : Path) : (root p).content q = none := by
  rw [content, root_entry]
  by_cases h : q <+: p
  · rw [if_pos h]
  · rw [if_neg h]

/-- Removing a file leaves the others. -/
theorem unlink_ok (h : t.unlink p = .ok t') : t' = Dict.erase p t ∧
    ∀ q, t'.entry q = if q = p then none else t.entry q := by
  rw [unlink] at h
  split at h
  · cases h
  · cases h
    refine ⟨rfl, fun q => ?_⟩
    by_cases hq : q = p
    · subst hq
      rw [if_pos rfl]
      exact Dict.lookup_erase_self ..
    · rw [if_neg hq]
      exact Dict.lookup_erase_ne hq ..

/-- What is moved is at its new place only. -/
theorem replace_ok {q : Path} (h : t.replace p q = .ok t') :
    ∃ cs, t.content p = some cs ∧ t.isDir q = false ∧ ∀ r, t'.entry r =
      if r = q then some (.file cs) else if r = p then none else t.entry r := by
  rw [replace] at h
  cases hc : t.content p with
  | none =>
    rw [hc] at h
    cases h
  | some cs =>
    rw [hc] at h
    dsimp only at h
    split at h
    · cases h
    · rename_i hd
      cases h
      refine ⟨cs, rfl, Bool.eq_false_iff.2 hd, fun r => ?_⟩
      by_cases hr : r = q
      · subst hr
        rw [if_pos rfl]
        exact Dict.lookup_set_self ..
      · rw [if_neg hr]
        refine (Dict.lookup_set_ne hr ..).trans ?_
        by_cases hp : r = p
        · subst hp
          rw [if_pos rfl]
          exact Dict.lookup_erase_self ..
        · rw [if_neg hp]
          exact Dict.lookup_erase_ne hp ..

theorem mem_glob {q : Path} {ext : List Char} : q ∈ t.glob p ext ↔
    (∃ e, t.entry q = some e) ∧ q ≠ [] ∧ q.dropLast = p ∧ ext <:+ q.name.toList := by
  rw [glob, List.mem_filter, decide_eq_true_eq, mem_keys_iff]

theorem glob_nodup (h : Dict.Distinct t) (p : Path) (ext : List Char) : (t.glob p ext).Nodup := by
  have hk := List.nodup_iff_pairwise_ne.1 h
  exact hk.filter _

theorem Sound.unlink (hs : t.Sound) (h : t.unlink p = .ok t') : t'.Sound := by
  have hd : t.isDir p = false := by
    rw [FileTree.unlink] at h
    split at h
    · cases h
    · rename_i hd
      exact Bool.eq_false_iff.2 hd
  obtain ⟨ht, he⟩ := unlink_ok h
  refine ⟨?_, fun q hq r hr hne => ?_⟩
  · rw [ht]
    exact hs.distinct.erase _
  · obtain ⟨e, hq⟩ := mem_keys_iff.1 hq
    rw [he] at hq ⊢
    split at hq
    · cases hq
    · have hdir := hs.parents q (mem_keys_iff.2 ⟨e, hq⟩) r hr hne
      rw [if_neg]
      · exact hdir
      · rintro rfl
        rw [isDir_iff.2 hdir] at hd
        cases hd

theorem unlink_of_content (h : t.content p = some cs) : ∃ t', t.unlink p = .ok t' := by
  have hd : t.isDir p ≠ true := by
    rw [Ne, isDir_iff, content_eq_some.1 h]
    exact fun he => (nomatch he)
  exact ⟨_, if_neg hd⟩

/-- The paths directly below a directory do not lead to paths that are no deeper. -/
theorem not_prefix_of_length {q : Path} (hq : q ≠ []) (hp : p.length ≤ q.dropLast.length) :
    ¬ q <+: p := by
  intro h
  have hlen := h.length_le
  have hpos : 0 < q.length := List.length_pos_of_ne_nil hq
  rw [List.length_dropLast] at hp
  omega

end FileTree
end Obase
