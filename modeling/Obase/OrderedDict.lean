import Obase.Dict

namespace Obase.Dict
set_option autoImplicit true

section
variable [DecidableEq κ]

/-- A key with its value, behind all others. -/
def putLast (k : κ) (v : α) (d : Dict κ α) : Dict κ α := erase k d ++ [(k, v)]

/-- `d.move_to_end(k)`, where `k` is a key. -/
def moveToEnd (k : κ) (d : Dict κ α) : Dict κ α :=
  match d.lookup k with
  | some v => putLast k v d
  | none => d

/-- The keys behind a key. -/
def behind (k : κ) : Dict κ α → List κ
  | [] => []
  | p :: d => if p.1 = k then keys d else behind k d

theorem behind_cons (k : κ) (p : κ × α) (d : Dict κ α) :
    behind k (p :: d) = if p.1 = k then keys d else behind k d := rfl

end

/-- `d.popitem(last=False)`, while there are more than `n` items. -/
def trim (n : Nat) : Dict κ α → Dict κ α
  | [] => []
  | p :: d => if n < d.length + 1 then trim n d else p :: d

theorem trim_cons (n : Nat) (p : κ × α) (d : Dict κ α) :
    trim n (p :: d) = if n < d.length + 1 then trim n d else p :: d := rfl

theorem trim_suffix (n : Nat) (d : Dict κ α) : trim n d <:+ d := by
  induction d with
  | nil => exact List.suffix_refl _
  | cons p d ih =>
    rw [trim_cons]
    split
    · exact ih.trans (List.suffix_cons p d)
    · exact List.suffix_refl _

theorem length_trim_le (n : Nat) (d : Dict κ α) : (trim n d).length ≤ n := by
  induction d with
  | nil => exact Nat.zero_le n
  | cons p d ih =>
    rw [trim_cons]
    split
    · exact ih
    · rename_i h
      exact Nat.not_lt.1 h

theorem trim_of_le {n : Nat} {d : Dict κ α} (h : d.length ≤ n) : trim n d = d := by
  cases d with
  | nil => rfl
  | cons p d =>
    rw [trim_cons, if_neg]
    exact Nat.not_lt.2 h

theorem Distinct.trim {d : Dict κ α} (h : Distinct d) (n : Nat) : Distinct (Dict.trim n d) :=
  List.Nodup.sublist ((trim_suffix n d).sublist.map Prod.fst) h

variable [DecidableEq κ] {d : Dict κ α} {k k' : κ} {v : α} {n : Nat}

theorem lookup_trim (h : Distinct d) (hk : k ∈ keys (trim n d)) :
    (trim n d).lookup k = d.lookup k := by
  obtain ⟨v, hv⟩ := mem_keys_iff.1 hk
  rw [hv]
  exact ((lookup_eq_some_iff h).2 ((trim_suffix n d).subset (lookup_mem hv))).symm

theorem behind_sublist (k : κ) (d : Dict κ α) : (behind k d).Sublist (keys d) := by
  induction d with
  | nil => exact List.Sublist.refl _
  | cons p d ih =>
    rw [behind_cons]
    split
    · exact List.sublist_cons_self _ _
    · exact ih.trans (List.sublist_cons_self _ _)

theorem not_mem_behind (h : Distinct d) : k ∉ behind k d := by
  induction d with
  | nil => exact List.not_mem_nil
  | cons p d ih =>
    obtain ⟨hp, hd⟩ := List.nodup_cons.1 h
    rw [behind_cons]
    split
    · rename_i he
      exact he ▸ hp
    · exact ih hd

theorem behind_trim (h : Distinct d) (hk : k ∈ keys (trim n d)) :
    behind k (trim n d) = behind k d := by
  induction d with
  | nil => rfl
  | cons p d ih =>
    obtain ⟨hp, hd⟩ := List.nodup_cons.1 h
    rw [trim_cons] at hk ⊢
    split
    · rename_i hn
      rw [if_pos hn] at hk
      rw [ih hd hk, behind_cons, if_neg]
      rintro rfl
      exact hp (((trim_suffix n d).sublist.map Prod.fst).subset hk)
    · rfl

/-- A key that has to go has as many keys behind it as may stay. -/
theorem le_length_behind (hk : k ∈ keys d) (hn : k ∉ keys (trim n d)) :
    n ≤ (behind k d).length := by
  induction d with
  | nil => cases hk
  | cons p d ih =>
    rw [trim_cons] at hn
    split at hn
    · rename_i hl
      rw [behind_cons]
      split
      · rw [keys, List.length_map]
        exact Nat.le_of_lt_succ hl
      · rename_i he
        exact ih ((List.mem_cons.1 hk).resolve_left fun hk => he hk.symm) hn
    · exact (hn hk).elim

theorem length_putLast_of_mem (h : Distinct d) (hk : k ∈ keys d) (v : α) :
    (putLast k v d).length = d.length := by
  rw [putLast, List.length_append, List.length_singleton, length_erase h hk]

theorem moveToEnd_of_lookup (h : d.lookup k = some v) : moveToEnd k d = putLast k v d := by
  rw [moveToEnd, h]

theorem lookup_putLast (k : κ) (v : α) (d : Dict κ α) (k' : κ) :
    (putLast k v d).lookup k' = if k' = k then some v else d.lookup k' := by
  rw [putLast, List.lookup_append]
  split
  · rename_i h
    subst h
    rw [lookup_erase_self, List.lookup_cons_self]
    rfl
  · rename_i h
    rw [lookup_erase_ne h, List.lookup_cons, beq_false_of_ne h]
    exact Option.or_none

theorem mem_keys_putLast : k' ∈ keys (putLast k v d) ↔ k' = k ∨ k' ∈ keys d := by
  rw [putLast, keys_append, List.mem_append, mem_keys_erase]
  by_cases h : k' = k
  · simp [h]
  · simp [h]

theorem Distinct.putLast (h : Distinct d) (k : κ) (v : α) : Distinct (Dict.putLast k v d) := by
  rw [Dict.putLast, Distinct, keys_append, List.nodup_append]
  refine ⟨h.erase k, List.nodup_singleton _, ?_⟩
  rintro a ha b hb rfl
  rw [List.mem_singleton.1 hb] at ha
  exact (mem_keys_erase.1 ha).2 rfl

theorem moveToEnd_set (k : κ) (v : α) (d : Dict κ α) :
    moveToEnd k (set k v d) = putLast k v d := by
  have he : erase k (set k v d) = erase k d :=
    filter_set_of_not (P := fun k' => decide (k' ≠ k)) (by simp) v d
  rw [moveToEnd, lookup_set_self]
  dsimp only
  rw [putLast, he, putLast]

theorem behind_append_of_mem (e : Dict κ α) (hk : k ∈ keys d) :
    behind k (d ++ e) = behind k d ++ keys e := by
  induction d with
  | nil => cases hk
  | cons p d ih =>
    rw [List.cons_append, behind_cons, behind_cons]
    split
    · exact keys_append d e
    · rename_i he
      exact ih ((List.mem_cons.1 hk).resolve_left fun hk => he hk.symm)

theorem behind_of_not_mem (hk : k ∉ keys d) : behind k d = [] := by
  induction d with
  | nil => rfl
  | cons p d ih =>
    rw [keys_cons, List.mem_cons, not_or] at hk
    rw [behind_cons, if_neg fun he => hk.1 he.symm]
    exact ih hk.2

theorem behind_erase_subset (k k' : κ) (d : Dict κ α) : behind k' (erase k d) ⊆ behind k' d := by
  induction d with
  | nil => exact List.Subset.refl _
  | cons p d ih =>
    by_cases hp : p.1 = k
    · rw [erase, List.filter_cons_of_neg (by simpa using hp), ← erase, behind_cons]
      split
      · rename_i he
        rw [behind_of_not_mem]
        · exact List.nil_subset _
        · exact fun hm => (mem_keys_erase.1 hm).2 (he.symm.trans hp)
      · exact ih
    · rw [erase, List.filter_cons_of_pos (by simpa using hp), ← erase, behind_cons, behind_cons]
      split
      · exact (List.filter_sublist.map Prod.fst).subset
      · exact ih

/-- Only the key that is put last comes to be behind another. -/
theorem mem_behind_putLast {x : κ} (h : x ∈ behind k' (putLast k v d)) (hne : k' ≠ k) :
    x = k ∨ x ∈ behind k' d := by
  rw [putLast] at h
  by_cases hk : k' ∈ keys (erase k d)
  · rw [behind_append_of_mem _ hk, List.mem_append] at h
    obtain h | h := h
    · exact .inr (behind_erase_subset k k' d h)
    · exact .inl (List.mem_singleton.1 h)
  · rw [behind_of_not_mem] at h
    · cases h
    · rw [keys_append, List.mem_append, not_or]
      exact ⟨hk, fun hm => hne (List.mem_singleton.1 hm)⟩

theorem behind_putLast_self (k : κ) (v : α) (d : Dict κ α) : behind k (putLast k v d) = [] := by
  have hk : k ∉ keys (erase k d) := fun h => (mem_keys_erase.1 h).2 rfl
  rw [putLast]
  generalize erase k d = e at hk
  induction e with
  | nil => exact if_pos rfl
  | cons p e ih =>
    rw [keys_cons, List.mem_cons, not_or] at hk
    rw [List.cons_append, behind_cons, if_neg fun he => hk.1 he.symm]
    exact ih hk.2

end Obase.Dict
