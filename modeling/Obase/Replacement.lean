import Mathlib.Data.List.Infix
import Obase.Text

namespace Obase.Text
set_option autoImplicit true

/-- A text that no occurrence of can touch a marker: it is not in the marker, the marker is not in
it, and none of its ends is an end of the marker. -/
structure Clear (s marker : List Char) : Prop where
  not_empty : s ≠ []
  outside : ¬ s <:+: marker
  around : ¬ marker <:+: s
  before : ∀ u v, s = u ++ v → u ≠ [] → v ≠ [] → ¬ v <+: marker
  after : ∀ u v, s = u ++ v → u ≠ [] → v ≠ [] → ¬ u <:+ marker

/-- A text that has no character in common with the marker is clear of it. -/
theorem Clear.of_disjoint {s marker : List Char} (hs : s ≠ []) (hm : marker ≠ [])
    (h : ∀ c ∈ s, c ∉ marker) : Clear s marker := by
  have hnone {u : List Char} (hu : u ≠ []) (hus : u ⊆ s) (hum : u ⊆ marker) : False := by
    obtain ⟨c, hc⟩ := List.exists_mem_of_ne_nil u hu
    exact h c (hus hc) (hum hc)
  refine ⟨hs, fun hi => hnone hs (List.Subset.refl s) hi.subset,
    fun hi => hnone hm hi.subset (List.Subset.refl marker), fun u v he _ hv hp => ?_,
    fun u v he hu _ hp => ?_⟩
  · exact hnone hv (he ▸ List.subset_append_right u v) hp.subset
  · exact hnone hu (he ▸ List.subset_append_left u v) hp.subset

/-- An occurrence in a text that is put together lies in one of its parts, or over their border. -/
theorem infix_append_cases {s xs ys : List Char} (h : s <:+: xs ++ ys) :
    s <:+: xs ∨ s <:+: ys ∨
      ∃ u v, s = u ++ v ∧ u ≠ [] ∧ v ≠ [] ∧ u <:+ xs ∧ v <+: ys := by
  obtain ⟨l, r, h⟩ := h
  rw [List.append_assoc] at h
  obtain ⟨a, rfl, ha⟩ | ⟨a, rfl, ha⟩ := List.append_eq_append_iff.1 h
  · obtain ⟨b, rfl, hb⟩ | ⟨b, rfl, hb⟩ := List.append_eq_append_iff.1 ha
    · exact .inl ⟨l, b, by rw [List.append_assoc]⟩
    · by_cases ha : a = []
      · rw [ha, List.nil_append]
        exact .inr (.inl ⟨[], r, hb.symm⟩)
      · by_cases hn : b = []
        · rw [hn, List.append_nil]
          exact .inl (List.suffix_append ..).isInfix
        · exact .inr (.inr ⟨a, b, rfl, ha, hn, List.suffix_append .., r, hb.symm⟩)
  · exact .inr (.inl ⟨a, r, by rw [List.append_assoc, ha]⟩)

variable {s marker cs : List Char}

/-- An occurrence near a marker is beside it. -/
theorem Clear.beside (h : Clear s marker) {xs ys : List Char}
    (hs : s <:+: xs ++ (marker ++ ys)) : s <:+: xs ∨ s <:+: ys := by
  obtain hx | hm | ⟨u, v, he, hu, hv, -, hp⟩ := infix_append_cases hs
  · exact .inl hx
  · obtain hm | hy | ⟨u, v, he, hu, hv, hp, -⟩ := infix_append_cases hm
    · exact (h.outside hm).elim
    · exact .inr hy
    · exact (h.after u v he hu hv hp).elim
  · obtain hp | hp := List.prefix_or_prefix_of_prefix hp (List.prefix_append marker ys)
    · exact (h.before u v he hu hv hp).elim
    · exact (h.around (hp.isInfix.trans (he ▸ (List.suffix_append u v).isInfix))).elim

/-- Where an end of the text begins a text with replacements, it began that text before. -/
theorem Clear.prefix_of_replace (h : Clear s marker) {old u v : List Char} (hs : s = u ++ v)
    (hu : u ≠ []) (hp : v <+: replace old marker cs) : v <+: cs := by
  induction cs generalizing u v with
  | nil => exact hp
  | cons c cs ih =>
    cases v with
    | nil => exact List.nil_prefix
    | cons d v =>
      rw [replace, replaceFrom] at hp
      split at hp
      · obtain hp | hp := List.prefix_or_prefix_of_prefix hp (List.prefix_append marker _)
        · exact (h.before u _ hs hu (List.cons_ne_nil d v) hp).elim
        · exact (h.around (hp.isInfix.trans (hs ▸ (List.suffix_append u _).isInfix))).elim
      · obtain ⟨rfl, ht⟩ := List.cons_prefix_cons.1 hp
        refine List.cons_prefix_cons.2 ⟨rfl, ih (u := u ++ [d]) ?_ ?_ ht⟩
        · rw [hs, List.append_assoc]
          rfl
        · exact List.append_ne_nil_of_left_ne_nil hu _

theorem Clear.prefix_of_cons (h : Clear s marker) {old : List Char} {c : Char}
    (hs : s <+: c :: replace old marker cs) : s <+: c :: cs := by
  cases s with
  | nil => exact (h.not_empty rfl).elim
  | cons d v =>
    obtain ⟨rfl, hv⟩ := List.cons_prefix_cons.1 hs
    exact List.cons_prefix_cons.2
      ⟨rfl, h.prefix_of_replace (u := [d]) rfl (List.cons_ne_nil d []) hv⟩

/-- A replacement by the marker makes no occurrence of the text. -/
theorem Clear.of_replaceFrom (h : Clear s marker) {old : List Char} {n : Nat}
    (hs : s <:+: replaceFrom old marker n cs) : s <:+: cs := by
  fun_induction replaceFrom old marker n cs with
  | case1 => exact hs
  | case2 n c cs ih => exact (ih hs).trans (List.suffix_cons c cs).isInfix
  | case3 c cs hp ih =>
    rw [← List.nil_append (marker ++ _)] at hs
    obtain hs | hs := h.beside hs
    · exact (h.not_empty (List.infix_nil.1 hs)).elim
    · exact (ih hs).trans (List.suffix_cons c cs).isInfix
  | case4 c cs hp ih =>
    obtain hs | hs := List.infix_cons_iff.1 hs
    · exact (h.prefix_of_cons hs).isInfix
    · exact (ih hs).trans (List.suffix_cons c cs).isInfix

/-- A text that is replaced by the marker does not occur any more. -/
theorem Clear.not_infix_replace (h : Clear s marker) {n : Nat} :
    ¬ s <:+: replaceFrom s marker n cs := by
  intro hs
  fun_induction replaceFrom s marker n cs with
  | case1 => exact h.not_empty (List.infix_nil.1 hs)
  | case2 n c cs ih => exact ih hs
  | case3 c cs hp ih =>
    rw [← List.nil_append (marker ++ _)] at hs
    obtain hs | hs := h.beside hs
    · exact h.not_empty (List.infix_nil.1 hs)
    · exact ih hs
  | case4 c cs hp ih =>
    obtain hs | hs := List.infix_cons_iff.1 hs
    · exact hp (List.isPrefixOf_iff_prefix.2 (h.prefix_of_cons hs))
    · exact ih hs

/-- Of texts that are replaced by the marker one after another, none that is clear of it occurs in
the end. -/
theorem Clear.not_infix_replaceAll (h : Clear s marker) {olds : List (List Char)} (hm : s ∈ olds)
    (cs : List Char) :
    ¬ s <:+: olds.foldl (fun output old => replace old marker output) cs := by
  have hstays : ∀ (olds : List (List Char)) (cs : List Char), ¬ s <:+: cs →
      ¬ s <:+: olds.foldl (fun output old => replace old marker output) cs := by
    intro olds
    induction olds with
    | nil => exact fun _ hn => hn
    | cons old olds ih => exact fun cs hn => ih _ fun hs => hn (h.of_replaceFrom hs)
  induction olds generalizing cs with
  | nil => cases hm
  | cons old olds ih =>
    rw [List.foldl_cons]
    obtain rfl | hm := List.mem_cons.1 hm
    · exact hstays olds _ h.not_infix_replace
    · exact ih hm _

end Obase.Text
