import Mathlib.Data.List.Basic
import Mathlib.Data.List.DropRight

namespace Obase.Separated
set_option autoImplicit true

variable {α : Type} [DecidableEq α] {c : α}

omit [DecidableEq α] in
theorem append_sep_inj {x x' y y' : List α} (hx : c ∉ x) (hx' : c ∉ x')
    (h : x ++ c :: y = x' ++ c :: y') : x = x' ∧ y = y' := by
  induction x generalizing x' with
  | nil =>
    cases x' with
    | nil => exact ⟨rfl, List.tail_eq_of_cons_eq h⟩
    | cons a x' =>
      injection h with ha _
      exact (hx' (ha ▸ List.mem_cons_self)).elim
  | cons a x ih =>
    cases x' with
    | nil =>
      injection h with ha _
      exact (hx (ha ▸ List.mem_cons_self)).elim
    | cons b x' =>
      injection h with ha ht
      obtain ⟨rfl, rfl⟩ := ih (fun hm => hx (.tail _ hm)) (fun hm => hx' (.tail _ hm)) ht
      exact ⟨by rw [ha], rfl⟩

omit [DecidableEq α] in
theorem intercalate_cons (c : α) (p : List α) (ps : List (List α)) :
    [c].intercalate (p :: ps) = p ++ (ps.map (c :: ·)).flatten := by
  induction ps generalizing p with
  | nil => simp
  | cons q ps ih =>
    rw [List.intercalate_cons_cons, ih, List.map_cons, List.flatten_cons]
    simp

omit [DecidableEq α] in
theorem mem_intercalate {a : α} {ps : List (List α)} (h : a ∈ [c].intercalate ps) :
    a = c ∨ ∃ p ∈ ps, a ∈ p := by
  cases ps with
  | nil => cases h
  | cons p ps =>
    rw [intercalate_cons, List.mem_append, List.mem_flatten] at h
    rcases h with h | ⟨q, hq, h⟩
    · exact .inr ⟨p, .head _, h⟩
    · obtain ⟨r, hr, rfl⟩ := List.mem_map.1 hq
      rcases List.mem_cons.1 h with rfl | h
      · exact .inl rfl
      · exact .inr ⟨r, .tail _ hr, h⟩

omit [DecidableEq α] in
theorem infix_intercalate {sep l : List α} {ps : List (List α)} (h : l ∈ ps) :
    l <:+: sep.intercalate ps := by
  induction ps with
  | nil => cases h
  | cons p ps ih =>
    cases ps with
    | nil =>
      obtain rfl := List.mem_singleton.1 h
      exact List.intercalate_singleton ▸ List.infix_refl l
    | cons q ps =>
      rw [List.intercalate_cons_cons]
      obtain rfl | h := List.mem_cons.1 h
      · rw [List.append_assoc]
        exact (List.prefix_append ..).isInfix
      · exact (ih h).trans (List.suffix_append ..).isInfix

theorem infix_of_mem_splitOn {x l : List α} (h : l ∈ x.splitOn c) : l <:+: x := by
  have hi : l <:+: [c].intercalate (x.splitOn c) := infix_intercalate h
  rwa [List.intercalate_splitOn] at hi

theorem splitOn_field {x t y : List α} (ht : c ∉ t) :
    (x ++ c :: (t ++ c :: y)).splitOn c = x.splitOn c ++ t :: y.splitOn c := by
  rw [List.splitOn_append_cons_self, List.splitOn_append_cons_self, List.splitOn_eq_singleton ht]
  rfl

theorem splitOn_inj {x y : List α} (h : x.splitOn c = y.splitOn c) : x = y := by
  have hx : [c].intercalate (x.splitOn c) = x := List.intercalate_splitOn c
  rw [← hx, h, List.intercalate_splitOn]

/-- A field between two others is determined when no piece of them that could stand in its place
is of its kind. -/
theorem field_unique {T : List α → Prop} (hT : ∀ t, T t → c ∉ t) {x t y x' t' y' : List α}
    (ht : T t) (ht' : T t') (hx : ∀ s ∈ (x.splitOn c).tail, ¬ T s)
    (hy : ∀ s ∈ (y.splitOn c).dropLast, ¬ T s)
    (h : x ++ c :: (t ++ c :: y) = x' ++ c :: (t' ++ c :: y')) : x = x' ∧ t = t' ∧ y = y' := by
  have hs := congrArg (List.splitOn c) h
  rw [splitOn_field (hT t ht), splitOn_field (hT t' ht')] at hs
  rcases List.append_eq_append_iff.1 hs with ⟨as, hx', hr⟩ | ⟨as, hx', hr⟩
  · cases as with
    | nil =>
      injection hr with h₁ h₂
      rw [List.append_nil] at hx'
      exact ⟨(splitOn_inj hx').symm, h₁, splitOn_inj h₂⟩
    | cons a as =>
      rw [List.cons_append] at hr
      injection hr with _ h₂
      have hm : t' ∈ (y.splitOn c).dropLast := by
        rw [h₂, List.dropLast_append_of_ne_nil (by simp),
          List.dropLast_cons_of_ne_nil (List.splitOn_ne_nil _ _)]
        simp
      exact (hy t' hm ht').elim
  · cases as with
    | nil =>
      injection hr with h₁ h₂
      rw [List.append_nil] at hx'
      exact ⟨splitOn_inj hx', h₁.symm, (splitOn_inj h₂).symm⟩
    | cons a as =>
      rw [List.cons_append] at hr
      injection hr with h₁ _
      have hm : t' ∈ (x.splitOn c).tail := by
        rw [hx', List.tail_append_of_ne_nil (List.splitOn_ne_nil _ _), h₁]
        simp
      exact (hx t' hm ht').elim

theorem not_mem_splitOn {x l : List α} (h : l ∈ x.splitOn c) : c ∉ l := by
  induction x generalizing l with
  | nil =>
    rw [List.splitOn_nil, List.mem_singleton] at h
    simp [h]
  | cons a x ih =>
    rw [List.splitOn_cons_eq_if_modifyHead] at h
    split at h
    · rcases List.mem_cons.1 h with rfl | h
      · simp
      · exact ih h
    · rename_i ha
      obtain ⟨p, ps, hp⟩ := List.exists_cons_of_ne_nil (List.splitOn_ne_nil c x)
      rw [hp] at h ih
      rw [List.modifyHead_cons, List.mem_cons] at h
      rcases h with rfl | h
      · rw [List.mem_cons, not_or]
        exact ⟨fun he => ha (by simp [he]), ih (.head _)⟩
      · exact ih (.tail _ h)

/-- A text whose pieces fall into two groups is split between them. -/
theorem exists_append_of_splitOn {x : List α} {ps qs : List (List α)}
    (h : x.splitOn c = ps ++ qs) (hp : ps ≠ []) (hq : qs ≠ []) :
    ∃ y z, x = y ++ c :: z ∧ y.splitOn c = ps ∧ z.splitOn c = qs := by
  have hy : ([c].intercalate ps).splitOn c = ps := List.splitOn_intercalate c
    (fun l hl => not_mem_splitOn (x := x) (h ▸ List.mem_append_left _ hl)) hp
  have hz : ([c].intercalate qs).splitOn c = qs := List.splitOn_intercalate c
    (fun l hl => not_mem_splitOn (x := x) (h ▸ List.mem_append_right _ hl)) hq
  refine ⟨_, _, splitOn_inj (c := c) ?_, hy, hz⟩
  rw [List.splitOn_append_cons_self, hy, hz, h]

theorem exists_field {w s : List α} {ps qs : List (List α)} (h : w.splitOn c = ps ++ s :: qs)
    (hp : ps ≠ []) (hq : qs ≠ []) :
    ∃ x y, w = x ++ c :: (s ++ c :: y) ∧ x.splitOn c = ps := by
  obtain ⟨x, z, rfl, hx, hz⟩ := exists_append_of_splitOn h hp (by simp)
  rw [← List.singleton_append] at hz
  obtain ⟨s', y, rfl, hs, -⟩ := exists_append_of_splitOn hz (by simp) hq
  have hc : c ∉ s := not_mem_splitOn (h ▸ List.mem_append_right _ (.head _))
  rw [← List.splitOn_eq_singleton hc] at hs
  exact ⟨x, y, by rw [splitOn_inj hs], hx⟩

/-- Any other piece of the kind can be read as the field. -/
theorem exists_other_field {x t y s : List α} (ht : c ∉ t)
    (hs : s ∈ (x.splitOn c).tail ∨ s ∈ (y.splitOn c).dropLast) :
    ∃ x' y', x ++ c :: (t ++ c :: y) = x' ++ c :: (s ++ c :: y') ∧ x' ≠ x := by
  have hw := splitOn_field (x := x) (y := y) ht
  rcases hs with hs | hs
  · obtain ⟨p, ps, hp⟩ := List.exists_cons_of_ne_nil (List.splitOn_ne_nil c x)
    rw [hp, List.tail_cons] at hs
    obtain ⟨as, bs, rfl⟩ := List.append_of_mem hs
    have hs' : (x ++ c :: (t ++ c :: y)).splitOn c =
        (p :: as) ++ s :: (bs ++ t :: y.splitOn c) := by
      rw [hw, hp]
      simp
    obtain ⟨x', y', he, hx'⟩ := exists_field hs' (by simp) (by simp)
    refine ⟨x', y', he, ?_⟩
    rintro rfl
    rw [hp] at hx'
    simpa using congrArg List.length hx'
  · obtain ⟨as, bs, hy⟩ := List.append_of_mem hs
    obtain ⟨l, hl⟩ : ∃ l, y.splitOn c = as ++ s :: bs ++ [l] :=
      ⟨_, by rw [← hy, List.dropLast_append_getLast (List.splitOn_ne_nil c y)]⟩
    have hs' : (x ++ c :: (t ++ c :: y)).splitOn c =
        (x.splitOn c ++ t :: as) ++ s :: (bs ++ [l]) := by
      rw [hw, hl]
      simp
    obtain ⟨x', y', he, hx'⟩ := exists_field hs' (by simp) (by simp)
    refine ⟨x', y', he, ?_⟩
    rintro rfl
    simpa using congrArg List.length hx'

/-- `x.rsplit(c, 1)` in two parts, `none` where `c` does not occur. -/
def rsplit (c : α) (x : List α) : Option (List α × List α) :=
  if c ∈ x then some ((x.rdropWhile (· ≠ c)).dropLast, x.rtakeWhile (· ≠ c)) else none

theorem rsplit_eq_none {x : List α} : rsplit c x = none ↔ c ∉ x := by
  rw [rsplit, ite_eq_right_iff]
  exact ⟨fun h hm => (nomatch h hm), fun h hm => (h hm).elim⟩

theorem rsplit_append {x y : List α} (hy : c ∉ y) : rsplit c (x ++ c :: y) = some (x, y) := by
  have hm : c ∈ x ++ c :: y := by simp
  have hp : ∀ a ∈ y, decide (a ≠ c) = true :=
    fun a ha => decide_eq_true fun he => hy (he ▸ ha)
  have hdrop : (x ++ c :: y).rdropWhile (· ≠ c) = x ++ [c] := by
    rw [List.rdropWhile, List.reverse_append, List.reverse_cons, List.append_assoc,
      List.dropWhile_append_of_pos fun a ha => hp a (List.mem_reverse.1 ha)]
    simp
  have htake : (x ++ c :: y).rtakeWhile (· ≠ c) = y := by
    rw [List.rtakeWhile, List.reverse_append, List.reverse_cons, List.append_assoc,
      List.takeWhile_append_of_pos fun a ha => hp a (List.mem_reverse.1 ha)]
    simp
  rw [rsplit, if_pos hm, hdrop, htake, List.dropLast_concat]

theorem exists_rsplit {x : List α} (h : c ∈ x) :
    ∃ y z, x = y ++ c :: z ∧ c ∉ z ∧ rsplit c x = some (y, z) := by
  obtain ⟨as, bs, he, has⟩ := List.eq_append_cons_of_mem (List.mem_reverse.2 h)
  have hx : x = bs.reverse ++ c :: as.reverse := by
    rw [← List.reverse_reverse x, he, List.reverse_append, List.reverse_cons, List.append_assoc]
    rfl
  have hc : c ∉ as.reverse := fun hm => has (List.mem_reverse.1 hm)
  exact ⟨bs.reverse, as.reverse, hx, hc, hx ▸ rsplit_append hc⟩

theorem mem_of_mem_splitOn {x l : List α} (h : l ∈ x.splitOn c) {a : α} (ha : a ∈ l) : a ∈ x := by
  have hx : [c].intercalate (x.splitOn c) = x := List.intercalate_splitOn c
  rw [← hx]
  generalize x.splitOn c = ps at h
  cases ps with
  | nil => cases h
  | cons p ps =>
    rw [intercalate_cons, List.mem_append, List.mem_flatten]
    obtain rfl | h := List.mem_cons.1 h
    · exact .inl ha
    · exact .inr ⟨c :: l, List.mem_map_of_mem h, .tail _ ha⟩

end Obase.Separated
