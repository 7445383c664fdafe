import Mathlib.Data.Option.Basic
import Obase.Dict

namespace Obase.Dict
set_option autoImplicit true

/-- What becomes of the value of a key. -/
structure Change (α : Type) where
  fromValue : α
  toValue : α

def Change.swap (c : Change α) : Change α := ⟨c.toValue, c.fromValue⟩

/-- The difference between two dictionaries. -/
structure Diff (κ α : Type) where
  added : Dict κ α
  removed : Dict κ α
  changed : Dict κ (Change α)

section
variable [DecidableEq κ]

/-- The difference from one dictionary to another, with the values that are not equal changed. -/
def diff (eq : α → α → Bool) (a b : Dict κ α) : Diff κ α where
  added := b.filter fun p => p.1 ∉ keys a
  removed := a.filter fun p => p.1 ∉ keys b
  changed := a.filterMap fun p =>
    match b.lookup p.1 with
    | some w => if eq p.2 w then none else some (p.1, ⟨p.2, w⟩)
    | none => none

/-- A dictionary with the removed keys dropped, the added ones added and the changed ones set. -/
def patch (d : Diff κ α) (s : Dict κ α) : Dict κ α :=
  update (update (s.filter fun p => p.1 ∉ keys d.removed) d.added)
    (mapVals Change.toValue d.changed)

/-- The one difference undoes what the other does. -/
structure Inverse (d d' : Diff κ α) : Prop where
  added : ∀ k, d'.added.lookup k = d.removed.lookup k
  removed : ∀ k, d'.removed.lookup k = d.added.lookup k
  changed : ∀ k, d'.changed.lookup k = (d.changed.lookup k).map Change.swap

/-- The difference is a patch from the one dictionary to the other, up to a relation of the values,
and the other difference is the way back. -/
structure Patches (same : α → α → Prop) (a b : Dict κ α) (d d' : Diff κ α) : Prop where
  restores : ∀ k, Option.Rel same ((patch d a).lookup k) (b.lookup k)
  added_removed : (keys d.added).Disjoint (keys d.removed)
  added_changed : (keys d.added).Disjoint (keys d.changed)
  removed_changed : (keys d.removed).Disjoint (keys d.changed)
  inverse : Inverse d d'

theorem lookup_filter_keys (P : κ → Prop) [DecidablePred P] (d : Dict κ α) (k : κ) :
    (d.filter fun p => P p.1).lookup k = if P k then d.lookup k else none := by
  induction d with
  | nil => simp
  | cons p d ih =>
    obtain ⟨a, v⟩ := p
    by_cases hP : P a
    · rw [List.filter_cons_of_pos (by simpa using hP), List.lookup_cons, List.lookup_cons, ih]
      by_cases hk : k = a
      · subst hk
        rw [beq_self_eq_true]
        exact (if_pos hP).symm
      · rw [beq_false_of_ne hk]
    · rw [List.filter_cons_of_neg (by simpa using hP), ih, List.lookup_cons]
      by_cases hk : k = a
      · subst hk
        rw [if_neg hP, if_neg hP]
      · rw [beq_false_of_ne hk]

theorem lookup_only (a b : Dict κ α) (k : κ) :
    (a.filter fun p => p.1 ∉ keys b).lookup k =
      if (b.lookup k).isSome then none else a.lookup k := by
  rw [lookup_filter_keys fun k => k ∉ keys b]
  by_cases hk : k ∈ keys b
  · obtain ⟨v, hv⟩ := mem_keys_iff.1 hk
    rw [if_neg (not_not_intro hk), hv]
    rfl
  · rw [if_pos hk, lookup_eq_none_of_not_mem hk]
    rfl

theorem mem_keys_only {a b : Dict κ α} {k : κ} :
    k ∈ keys (a.filter fun p => p.1 ∉ keys b) ↔ k ∈ keys a ∧ k ∉ keys b := by
  rw [keys, List.mem_map]
  constructor
  · rintro ⟨p, hp, rfl⟩
    obtain ⟨hm, hn⟩ := List.mem_filter.1 hp
    exact ⟨List.mem_map_of_mem hm, of_decide_eq_true hn⟩
  · rintro ⟨hm, hn⟩
    obtain ⟨p, hp, rfl⟩ := List.mem_map.1 hm
    exact ⟨p, List.mem_filter.2 ⟨hp, decide_eq_true hn⟩, rfl⟩

omit [DecidableEq κ] in
theorem Distinct.filter {d : Dict κ α} (h : Distinct d) (P : κ × α → Bool) :
    Distinct (d.filter P) :=
  List.Nodup.sublist (List.filter_sublist.map Prod.fst) h

omit [DecidableEq κ] in
theorem keys_filterMap_sublist {f : κ × α → Option (κ × β)}
    (hf : ∀ p q, f p = some q → q.1 = p.1) (d : Dict κ α) :
    (keys (d.filterMap f)).Sublist (keys d) := by
  induction d with
  | nil => exact .slnil
  | cons p d ih =>
    cases hp : f p with
    | none =>
      rw [List.filterMap_cons_none hp]
      exact ih.cons _
    | some q =>
      rw [List.filterMap_cons_some hp, keys_cons, keys_cons, hf p q hp]
      exact ih.cons_cons _

variable {eq : α → α → Bool} {a b : Dict κ α}

theorem changed_key {p : κ × α} {q : κ × Change α}
    (h : (match b.lookup p.1 with
      | some w => if eq p.2 w then none else some (p.1, (⟨p.2, w⟩ : Change α))
      | none => none) = some q) : q.1 = p.1 := by
  split at h
  · split at h
    · cases h
    · cases h
      rfl
  · cases h

theorem lookup_changed (ha : Distinct a) (k : κ) :
    (diff eq a b).changed.lookup k = (a.lookup k).bind fun v => (b.lookup k).bind fun w =>
      if eq v w then none else some ⟨v, w⟩ := by
  rw [diff, lookup_filterMap (fun _ _ => changed_key) ha]
  cases a.lookup k with
  | none => rfl
  | some v =>
    rw [Option.bind_some, Option.bind_some]
    cases b.lookup k with
    | none => rfl
    | some w =>
      rw [Option.bind_some]
      dsimp only
      split <;> rfl

theorem changed_distinct (ha : Distinct a) : Distinct (diff eq a b).changed :=
  List.Nodup.sublist (keys_filterMap_sublist (fun _ _ => changed_key) a) ha

theorem mem_keys_changed (ha : Distinct a) {k : κ} (h : k ∈ keys (diff eq a b).changed) :
    k ∈ keys a ∧ k ∈ keys b := by
  obtain ⟨c, hc⟩ := mem_keys_iff.1 h
  rw [lookup_changed ha] at hc
  obtain ⟨v, hv, hc⟩ := Option.bind_eq_some_iff.1 hc
  obtain ⟨w, hw, -⟩ := Option.bind_eq_some_iff.1 hc
  exact ⟨mem_keys_iff.2 ⟨v, hv⟩, mem_keys_iff.2 ⟨w, hw⟩⟩

/-- What a difference makes of the dictionary it was taken from. -/
theorem lookup_patch (ha : Distinct a) (hb : Distinct b) (k : κ) :
    (patch (diff eq a b) a).lookup k = (b.lookup k).map fun w =>
      match a.lookup k with
      | some v => if eq v w then v else w
      | none => w := by
  have hadded : Distinct (diff eq a b).added := hb.filter _
  have hkept : (a.filter fun p => p.1 ∉ keys (diff eq a b).removed).lookup k =
      if (b.lookup k).isSome then a.lookup k else none := by
    rw [lookup_only, diff, lookup_only]
    cases a.lookup k <;> cases b.lookup k <;> rfl
  rw [patch, lookup_update (by rw [Distinct, keys_mapVals]; exact changed_distinct ha),
    lookup_update hadded, lookup_mapVals, lookup_changed ha, hkept, diff, lookup_only]
  cases a.lookup k with
  | none => cases b.lookup k <;> rfl
  | some v =>
    cases b.lookup k with
    | none => rfl
    | some w =>
      rw [Option.bind_some, Option.bind_some, Option.map_some]
      dsimp only
      split <;> rfl

theorem inverse_diff (ha : Distinct a) (hb : Distinct b)
    (hsymm : ∀ k v w, a.lookup k = some v → b.lookup k = some w → eq v w = eq w v) :
    Inverse (diff eq a b) (diff eq b a) where
  added _ := rfl
  removed _ := rfl
  changed k := by
    rw [lookup_changed ha, lookup_changed hb]
    cases hv : a.lookup k with
    | none => cases b.lookup k <;> rfl
    | some v =>
      cases hw : b.lookup k with
      | none => rfl
      | some w =>
        rw [Option.bind_some, Option.bind_some, Option.bind_some, Option.bind_some,
          hsymm k v w hv hw]
        split <;> rfl

/-- The difference is a patch exactly where no two values of one key are equal that the relation
tells apart. -/
theorem patches_iff {same : α → α → Prop} (ha : Distinct a) (hb : Distinct b)
    (hrefl : ∀ p ∈ b, same p.2 p.2)
    (hsymm : ∀ k v w, a.lookup k = some v → b.lookup k = some w → eq v w = eq w v) :
    Patches same a b (diff eq a b) (diff eq b a) ↔
      ∀ k v w, a.lookup k = some v → b.lookup k = some w → eq v w = true → same v w := by
  constructor
  · intro h k v w hv hw he
    have hr := h.restores k
    rw [lookup_patch ha hb, hv, hw, Option.map_some] at hr
    dsimp only at hr
    rw [if_pos he] at hr
    cases hr with
    | some hs => exact hs
  · intro h
    refine ⟨fun k => ?_, fun k h₁ h₂ => ?_, fun k h₁ h₂ => ?_, fun k h₁ h₂ => ?_,
      inverse_diff ha hb hsymm⟩
    · rw [lookup_patch ha hb]
      cases hw : b.lookup k with
      | none => exact .none
      | some w =>
        rw [Option.map_some]
        refine .some ?_
        cases hv : a.lookup k with
        | none => exact hrefl _ (lookup_mem hw)
        | some v =>
          dsimp only
          split
          · exact h k v w hv hw ‹_›
          · exact hrefl _ (lookup_mem hw)
    · exact (mem_keys_only.1 h₁).2 (mem_keys_only.1 h₂).1
    · exact (mem_keys_only.1 h₁).2 (mem_keys_changed ha h₂).1
    · exact (mem_keys_only.1 h₁).2 (mem_keys_changed ha h₂).2

end
end Obase.Dict
