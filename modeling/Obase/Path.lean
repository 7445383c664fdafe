import Mathlib.Data.List.Infix
import Obase.Separated

namespace Obase
set_option autoImplicit true

/-- The names that lead from the root of a file system to a file or a directory. -/
abbrev Path := List String

namespace Path

/-- The name of a file or a directory. -/
structure IsName (n : String) : Prop where
  not_empty : n ≠ ""
  not_dot : n ≠ "."
  not_dots : n ≠ ".."
  no_slash : '/' ∉ n.toList
  no_nul : '\x00' ∉ n.toList

/-- The names in a text, without those that stand for the directory itself. -/
def names (cs : List Char) : List String :=
  ((cs.splitOn '/').map String.ofList).filter fun n => n ≠ "" ∧ n ≠ "."

/-- Names are followed one after another, `..` to the parent. -/
def follow (p : Path) (ns : List String) : Path :=
  ns.foldl (fun p n => if n = ".." then p.dropLast else p ++ [n]) p

/-- `(p / text).resolve()`, where no link is on the way. -/
def resolve (p : Path) (cs : List Char) : Path :=
  follow (if cs.head? = some '/' then [] else p) (names cs)

/-- Names with slashes between them. -/
def text (ns : List String) : List Char := ['/'].intercalate (ns.map String.toList)

/-- `name`, of a path from the root. -/
def name (p : Path) : String := p.getLastD ""

/-- `suffix`: the last dot of a name and what follows, where neither end of the name is the dot. -/
def suffix (p : Path) : List Char :=
  match Separated.rsplit '.' p.name.toList with
  | some (stem, ext) => if stem ≠ [] ∧ ext ≠ [] then '.' :: ext else []
  | none => []

/-- `with_suffix`. -/
def withSuffix (p : Path) (ext : List Char) : Path :=
  p.dropLast ++ [String.ofList (p.name.toList.take (p.name.length - p.suffix.length) ++ ext)]

theorem dropLast_append_name {p : Path} (h : p ≠ []) : p.dropLast ++ [p.name] = p := by
  rw [name, List.getLastD_eq_getLast?, List.getLast?_eq_some_getLast h]
  exact List.dropLast_append_getLast h

@[simp] theorem name_append (p : Path) (n : String) : name (p ++ [n]) = n := by
  rw [name, List.getLastD_eq_getLast?, List.getLast?_concat]
  rfl

theorem names_isName {cs : List Char} (h : '\x00' ∉ cs) {n : String} (hn : n ∈ names cs)
    (hd : n ≠ "..") : IsName n := by
  obtain ⟨hm, hne⟩ := List.mem_filter.1 hn
  rw [decide_eq_true_eq] at hne
  obtain ⟨l, hl, rfl⟩ := List.mem_map.1 hm
  refine ⟨hne.1, hne.2, hd, ?_, ?_⟩
  · rw [String.toList_ofList]
    exact Separated.not_mem_splitOn hl
  · rw [String.toList_ofList]
    exact fun hc => h (Separated.mem_of_mem_splitOn hl hc)

theorem follow_drop {P : String → Prop} {k : Nat} {p : Path} {ns : List String}
    (hp : ∀ n ∈ p.drop k, P n) (hns : ∀ n ∈ ns, n ≠ ".." → P n) :
    ∀ n ∈ (follow p ns).drop k, P n := by
  induction ns generalizing p with
  | nil => exact hp
  | cons n ns ih =>
    rw [List.forall_mem_cons] at hns
    rw [follow, List.foldl_cons, ← follow]
    refine ih ?_ hns.2
    split
    · intro m hm
      exact hp m ((p.dropLast_sublist.drop k).subset hm)
    · rename_i hn
      intro m hm
      rw [List.drop_append] at hm
      obtain hm | hm := List.mem_append.1 hm
      · exact hp m hm
      · rw [List.mem_singleton.1 (List.mem_of_mem_drop hm)]
        exact hns.1 hn

/-- Below a directory, what a text resolves to has names only. -/
theorem resolve_drop {p : Path} {cs : List Char} (h : '\x00' ∉ cs) :
    ∀ n ∈ (resolve p cs).drop p.length, IsName n := by
  apply follow_drop
  · split
    · rw [List.drop_nil]
      exact fun n hn => (nomatch hn)
    · rw [List.drop_length]
      exact fun n hn => (nomatch hn)
  · exact fun n => names_isName h

theorem names_text {ns : List String} (h : ∀ n ∈ ns, IsName n) : names (text ns) = ns := by
  cases ns with
  | nil => rfl
  | cons n ns =>
    rw [names, text, List.splitOn_intercalate _ _ (by simp)]
    · rw [List.map_map]
      have hid : (n :: ns).map (String.ofList ∘ String.toList) = n :: ns := by
        refine (List.map_congr_left fun m _ => ?_).trans (List.map_id _)
        exact String.ofList_toList
      rw [hid, List.filter_eq_self]
      intro m hm
      exact decide_eq_true ⟨(h m hm).not_empty, (h m hm).not_dot⟩
    · intro l hl
      obtain ⟨m, hm, rfl⟩ := List.mem_map.1 hl
      exact (h m hm).no_slash

theorem follow_names {p : Path} {ns : List String} (h : ∀ n ∈ ns, IsName n) :
    follow p ns = p ++ ns := by
  induction ns generalizing p with
  | nil => exact (List.append_nil p).symm
  | cons n ns ih =>
    rw [List.forall_mem_cons] at h
    rw [follow, List.foldl_cons, ← follow, if_neg h.1.not_dots, ih h.2, List.append_assoc]
    rfl

theorem text_head {ns : List String} (h : ∀ n ∈ ns, IsName n) : (text ns).head? ≠ some '/' := by
  cases ns with
  | nil => exact fun he => (nomatch he)
  | cons n ns =>
    have hn := h n (.head _)
    rw [text, List.map_cons, Separated.intercalate_cons]
    cases hc : n.toList with
    | nil => exact (hn.not_empty (String.toList_eq_nil_iff.1 hc)).elim
    | cons c cs =>
      intro he
      injection he with he
      subst he
      exact hn.no_slash (hc ▸ List.mem_cons_self)

/-- Names that are written below a directory are found again. -/
theorem resolve_text (p : Path) {ns : List String} (h : ∀ n ∈ ns, IsName n) :
    resolve p (text ns) = p ++ ns := by
  rw [resolve, if_neg (text_head h), names_text h, follow_names h]

theorem resolve_name (p : Path) {n : String} (h : IsName n) : resolve p n.toList = p ++ [n] := by
  have ht : text [n] = n.toList := by
    rw [text, List.map_cons, List.map_nil, Separated.intercalate_cons]
    exact List.append_nil _
  rw [← ht]
  exact resolve_text p (List.forall_mem_singleton.2 h)

theorem nul_not_mem_text {ns : List String} (h : ∀ n ∈ ns, IsName n) : '\x00' ∉ text ns := by
  intro hm
  obtain hc | ⟨l, hl, hm⟩ := Separated.mem_intercalate hm
  · exact absurd hc (by decide)
  · obtain ⟨n, hn, rfl⟩ := List.mem_map.1 hl
    exact (h n hn).no_nul hm

/-- A suffix is found where something stands before it. -/
theorem suffix_eq_iff {p : Path} {ext : List Char} (hd : '.' ∉ ext) (he : ext ≠ []) :
    p.suffix = '.' :: ext ↔ ∃ stem, stem ≠ [] ∧ p.name.toList = stem ++ '.' :: ext := by
  constructor
  · intro h
    by_cases hm : '.' ∈ p.name.toList
    · obtain ⟨stem, ext', hn, -, hr⟩ := Separated.exists_rsplit hm
      rw [suffix, hr] at h
      dsimp only at h
      split at h
      · rename_i hne
        injection h with _ h
        exact ⟨stem, hne.1, h ▸ hn⟩
      · cases h
    · rw [suffix, Separated.rsplit_eq_none.2 hm] at h
      cases h
  · rintro ⟨stem, hs, hn⟩
    rw [suffix, hn, Separated.rsplit_append hd]
    exact if_pos ⟨hs, he⟩

theorem withSuffix_append (p : Path) {stem ext : List Char} (hs : stem ≠ []) (hd : '.' ∉ ext)
    (he : ext ≠ []) (ext' : List Char) :
    withSuffix (p ++ [String.ofList (stem ++ '.' :: ext)]) ext' =
      p ++ [String.ofList (stem ++ ext')] := by
  have hname : name (p ++ [String.ofList (stem ++ '.' :: ext)]) =
      String.ofList (stem ++ '.' :: ext) := name_append ..
  have hsuffix : suffix (p ++ [String.ofList (stem ++ '.' :: ext)]) = '.' :: ext := by
    rw [suffix_eq_iff hd he, hname, String.toList_ofList]
    exact ⟨stem, hs, rfl⟩
  rw [withSuffix, hname, hsuffix, List.dropLast_concat, String.toList_ofList, String.length_ofList,
    List.length_append, Nat.add_sub_cancel, List.take_left]

end Path
end Obase

namespace Obase
set_option autoImplicit true

/-- A text with some characters replaced by underscores, as a chain of `replace` calls does. -/
def safeName (cs : List Char) (key : String) : String :=
  String.ofList (key.toList.map fun c => if c ∈ cs then '_' else c)

theorem mem_safeName {cs : List Char} {key : String} {c : Char}
    (h : c ∈ (safeName cs key).toList) : c = '_' ∨ c ∈ key.toList ∧ c ∉ cs := by
  rw [safeName, String.toList_ofList, List.mem_map] at h
  obtain ⟨d, hd, he⟩ := h
  split at he
  · exact .inl he.symm
  · rename_i hn
    subst he
    exact .inr ⟨hd, hn⟩

theorem safeName_eq_self {cs : List Char} {key : String} (h : ∀ c ∈ cs, c ∉ key.toList) :
    safeName cs key = key := by
  have hmap : (key.toList.map fun c => if c ∈ cs then '_' else c) = key.toList.map id :=
    List.map_congr_left fun c hc => if_neg fun hm => h c hm hc
  rw [safeName, hmap, List.map_id, String.ofList_toList]

/-- A safe text with an extension is a file name. -/
theorem isName_safeName {cs : List Char} (hcs : '/' ∈ cs) {key ext : String}
    (hk : '\x00' ∉ key.toList) (he : 2 < ext.length) (hx : '/' ∉ ext.toList)
    (h0 : '\x00' ∉ ext.toList) : Path.IsName (safeName cs key ++ ext) := by
  have hlen : 2 < (safeName cs key ++ ext).length := by
    rw [String.length_append]
    omega
  refine ⟨?_, ?_, ?_, fun hm => ?_, fun hm => ?_⟩
  · rintro h
    rw [h] at hlen
    exact absurd hlen (by decide)
  · rintro h
    rw [h] at hlen
    exact absurd hlen (by decide)
  · rintro h
    rw [h] at hlen
    exact absurd hlen (by decide)
  · rw [String.toList_append, List.mem_append] at hm
    obtain hm | hm := hm
    · obtain hm | hm := mem_safeName hm
      · exact absurd hm (by decide)
      · exact hm.2 hcs
    · exact hx hm
  · rw [String.toList_append, List.mem_append] at hm
    obtain hm | hm := hm
    · obtain hm | hm := mem_safeName hm
      · exact absurd hm (by decide)
      · exact hk hm.1
    · exact h0 hm

end Obase
