import Mathlib.Data.List.Infix

namespace Obase.Text
set_option autoImplicit true

/-- A text before and after the first place of a separator, as `split(sep, 1)` cuts it. -/
def partition (sep : List Char) : List Char → Option (List Char × List Char)
  | [] => none
  | c :: cs =>
    if sep.isPrefixOf (c :: cs) then some ([], (c :: cs).drop sep.length)
    else (partition sep cs).map fun (l, r) => (c :: l, r)

theorem partition_cons (sep : List Char) (c : Char) (cs : List Char) :
    partition sep (c :: cs) =
      if sep.isPrefixOf (c :: cs) then some ([], (c :: cs).drop sep.length)
      else (partition sep cs).map fun (l, r) => (c :: l, r) := rfl

/-- A part of a text that lacks a character is on one side of every place where it stands. -/
theorem infix_append_cons {sep l r : List Char} {c : Char} (hc : c ∉ sep)
    (h : sep <:+: l ++ c :: r) : sep <:+: l ∨ sep <:+: r := by
  obtain ⟨x, y, he⟩ := h
  rw [List.append_assoc] at he
  obtain ⟨a, rfl, ha⟩ | ⟨b, rfl, hb⟩ := List.append_eq_append_iff.1 he
  · obtain ⟨b, rfl, hb⟩ | ⟨b, rfl, hb⟩ := List.append_eq_append_iff.1 ha
    · exact .inl ⟨x, b, List.append_assoc ..⟩
    · cases b with
      | nil => exact .inl ⟨x, [], by simp⟩
      | cons d b =>
        injection hb with hd _
        subst hd
        exact (hc (List.mem_append_right _ (.head _))).elim
  · cases b with
    | nil =>
      cases sep with
      | nil => exact .inl (List.nil_infix)
      | cons s sep =>
        injection hb with hd _
        subst hd
        exact (hc (.head _)).elim
    | cons d b =>
      injection hb with _ hb
      exact .inr ⟨b, y, (List.append_assoc ..).trans hb.symm⟩

variable {sep l r cs : List Char}

theorem partition_eq_none (h : sep ≠ []) : partition sep cs = none ↔ ¬ sep <:+: cs := by
  induction cs with
  | nil => exact iff_of_true rfl fun hi => h (List.infix_nil.1 hi)
  | cons c cs ih =>
    rw [partition_cons]
    split
    · rename_i hp
      refine iff_of_false (fun he => nomatch he) (not_not.2 ?_)
      exact (List.isPrefixOf_iff_prefix.1 hp).isInfix
    · rename_i hp
      rw [Option.map_eq_none_iff, ih, List.infix_cons_iff, List.isPrefixOf_iff_prefix] at *
      tauto

theorem partition_ok (h : partition sep cs = some (l, r)) : cs = l ++ sep ++ r := by
  induction cs generalizing l with
  | nil => cases h
  | cons c cs ih =>
    rw [partition_cons] at h
    split at h
    · rename_i hp
      obtain ⟨t, ht⟩ := List.isPrefixOf_iff_prefix.1 hp
      cases h
      rw [← ht, List.drop_left]
      rfl
    · obtain ⟨⟨l', r'⟩, hl, he⟩ := Option.map_eq_some_iff.1 h
      cases he
      rw [ih hl]
      rfl

/-- There is no separator before the first one. -/
theorem partition_first (hs : sep ≠ []) (h : partition sep cs = some (l, r)) : ¬ sep <:+: l := by
  induction cs generalizing l with
  | nil => cases h
  | cons c cs ih =>
    rw [partition_cons] at h
    split at h
    · cases h
      exact fun hi => hs (List.infix_nil.1 hi)
    · rename_i hp
      obtain ⟨⟨l', r'⟩, hl, he⟩ := Option.map_eq_some_iff.1 h
      cases he
      rw [List.infix_cons_iff]
      rintro (hc | hi)
      · apply hp
        rw [List.isPrefixOf_iff_prefix, partition_ok hl, List.append_assoc]
        exact hc.trans (List.prefix_append (c :: l') _)
      · exact ih hl hi

/-- The first place of a separator, where it does not begin before. -/
theorem partition_append (hs : sep ≠ []) (hl : ¬ sep <:+: l ++ sep.dropLast) (r : List Char) :
    partition sep (l ++ (sep ++ r)) = some (l, r) := by
  induction l with
  | nil =>
    obtain ⟨c, cs, rfl⟩ := List.exists_cons_of_ne_nil hs
    have hp : (c :: cs).isPrefixOf (c :: (cs ++ r)) = true :=
      List.isPrefixOf_iff_prefix.2 ⟨r, rfl⟩
    rw [List.nil_append, List.cons_append, partition_cons, if_pos hp, ← List.cons_append,
      List.drop_left]
  | cons c l ih =>
    have hlen : sep.length ≤ (c :: l ++ sep.dropLast).length := by
      rw [List.length_append, List.length_cons, List.length_dropLast]
      omega
    have hx : c :: l ++ sep.dropLast <+: c :: (l ++ (sep ++ r)) := by
      refine ⟨[sep.getLast hs] ++ r, ?_⟩
      rw [List.append_assoc, ← List.append_assoc sep.dropLast, List.dropLast_append_getLast]
      rfl
    have hp : ¬ sep.isPrefixOf (c :: (l ++ (sep ++ r))) = true := by
      intro hp
      exact hl (List.prefix_of_prefix_length_le (List.isPrefixOf_iff_prefix.1 hp) hx hlen).isInfix
    rw [List.cons_append, partition_cons, if_neg hp, ih fun hi => hl (List.infix_cons hi)]
    rfl

/-- What follows a separator does not matter to its first place. -/
theorem partition_append_right (h : partition sep cs = some (l, r)) (ds : List Char) :
    partition sep (cs ++ ds) = some (l, r ++ ds) := by
  induction cs generalizing l with
  | nil => cases h
  | cons c cs ih =>
    have hlen : sep.length ≤ (c :: cs).length := by
      rw [partition_ok h, List.length_append, List.length_append]
      omega
    rw [partition_cons] at h
    rw [List.cons_append, partition_cons]
    split at h
    · rename_i hp
      have hp' : sep <+: c :: (cs ++ ds) :=
        (List.isPrefixOf_iff_prefix.1 hp).trans (List.prefix_append (c :: cs) ds)
      cases h
      rw [if_pos (List.isPrefixOf_iff_prefix.2 hp'), ← List.cons_append,
        List.drop_append_of_le_length hlen]
    · rename_i hp
      obtain ⟨⟨l', r'⟩, hl, he⟩ := Option.map_eq_some_iff.1 h
      cases he
      have hp' : ¬ sep.isPrefixOf (c :: (cs ++ ds)) = true := by
        intro hp'
        apply hp
        have hpre := List.isPrefixOf_iff_prefix.1 hp'
        exact List.isPrefixOf_iff_prefix.2
          (List.prefix_of_prefix_length_le hpre (List.prefix_append (c :: cs) ds) hlen)
      rw [if_neg hp', ih hl]
      rfl

theorem partition_char {c : Char} (hl : c ∉ l) (r : List Char) :
    partition [c] (l ++ c :: r) = some (l, r) := by
  refine partition_append (List.cons_ne_nil _ _) (fun hi => hl ?_) r
  rw [List.dropLast_singleton, List.append_nil] at hi
  exact hi.subset (.head _)

end Obase.Text
