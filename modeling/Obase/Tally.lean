import Mathlib.Algebra.BigOperators.Group.List.Basic
import Obase.Dict

namespace Obase
set_option autoImplicit true

variable {κ α σ : Type}

theorem sum_map_sub [AddCommGroup α] (f g : σ → α) (xs : List σ) :
    (xs.map fun x => f x - g x).sum = (xs.map f).sum - (xs.map g).sum := by
  induction xs with
  | nil => exact (sub_zero 0).symm
  | cons x xs ih =>
    rw [List.map_cons, List.map_cons, List.map_cons, List.sum_cons, List.sum_cons, List.sum_cons,
      ih, add_sub_add_comm]

variable [DecidableEq κ]

/-- The sums of the amounts of these items, one for each of their names. -/
def tally [AddMonoid α] (name : σ → κ) (amount : σ → α) (xs : List σ) : Dict κ α :=
  xs.foldl (fun d x => d.set (name x) ((d.lookup (name x)).getD 0 + amount x)) []

variable (name : σ → κ)

theorem tally_concat [AddMonoid α] (amount : σ → α) (xs : List σ) (x : σ) :
    tally name amount (xs ++ [x]) = (tally name amount xs).set (name x)
      (((tally name amount xs).lookup (name x)).getD 0 + amount x) := List.foldl_concat ..

theorem tally_distinct [AddMonoid α] (amount : σ → α) (xs : List σ) :
    (tally name amount xs).Distinct := by
  induction xs using List.reverseRecOn with
  | nil => exact List.nodup_nil
  | append_singleton xs x ih =>
    rw [tally_concat]
    exact ih.set _ _

theorem mem_keys_tally [AddMonoid α] (amount : σ → α) (xs : List σ) (k : κ) :
    k ∈ (tally name amount xs).keys ↔ k ∈ xs.map name := by
  induction xs using List.reverseRecOn with
  | nil => exact Iff.rfl
  | append_singleton xs x ih =>
    rw [tally_concat, Dict.mem_keys_set, ih, List.map_append, List.mem_append, or_comm]
    exact or_congr_right List.mem_singleton.symm

/-- The sum of a name is that of the items of this name. -/
theorem lookup_tally [AddMonoid α] (amount : σ → α) (xs : List σ) (k : κ) :
    ((tally name amount xs).lookup k).getD 0 =
      ((xs.filter fun x => name x = k).map amount).sum := by
  induction xs using List.reverseRecOn with
  | nil => rfl
  | append_singleton xs x ih =>
    rw [tally_concat, List.filter_append, List.map_append, List.sum_append, Dict.lookup_set]
    by_cases hk : name x = k
    · rw [if_pos hk.symm, hk, ih]
      simp [hk]
    · rw [if_neg (Ne.symm hk), ih]
      simp [hk]

theorem sum_set [AddCommMonoid α] (d : Dict κ α) (k : κ) (v : α) :
    ((d.set k ((d.lookup k).getD 0 + v)).map Prod.snd).sum = (d.map Prod.snd).sum + v := by
  induction d with
  | nil => simp [Dict.set]
  | cons p d ih =>
    obtain ⟨k', w⟩ := p
    by_cases hk : k' = k
    · subst hk
      rw [Dict.set, if_pos rfl, List.lookup_cons_self, List.map_cons, List.map_cons, List.sum_cons,
        List.sum_cons, Option.getD_some, add_right_comm]
    · have hk' : (k == k') = false := beq_false_of_ne (Ne.symm hk)
      rw [Dict.set, if_neg hk, List.lookup_cons, hk', List.map_cons, List.map_cons, List.sum_cons,
        List.sum_cons, ih, add_assoc]

/-- The sums of the names add up to that of all items. -/
theorem sum_tally [AddCommMonoid α] (amount : σ → α) (xs : List σ) :
    ((tally name amount xs).map Prod.snd).sum = (xs.map amount).sum := by
  induction xs using List.reverseRecOn with
  | nil => rfl
  | append_singleton xs x ih =>
    rw [tally_concat, sum_set, ih, List.map_append, List.sum_append]
    simp

/-- Amounts that add up to nothing for each name do so for all items. -/
theorem sum_eq_zero_of_names [AddCommMonoid α] (amount : σ → α) (xs : List σ)
    (h : ∀ k, ((xs.filter fun x => name x = k).map amount).sum = 0) : (xs.map amount).sum = 0 := by
  rw [← sum_tally name]
  refine List.sum_eq_zero fun v hv => ?_
  obtain ⟨⟨k, w⟩, hm, rfl⟩ := List.mem_map.1 hv
  have hlookup : (tally name amount xs).lookup k = some w :=
    (Dict.lookup_eq_some_iff (tally_distinct name amount xs)).2 hm
  have hw := lookup_tally name amount xs k
  rw [hlookup, h k] at hw
  exact hw

end Obase
