import Mathlib.Data.List.Basic
import Mathlib.Data.List.Induction
import Mathlib.Data.List.Sort

namespace Obase
set_option autoImplicit true

/-- `min` of `x` and the elements of `xs`: the first of those that none is less than. -/
def least (lt : α → α → Bool) (x : α) (xs : List α) : α :=
  xs.foldl (fun m y => if lt y m then y else m) x

variable {lt : α → α → Bool}

theorem least_concat (x : α) (xs : List α) (y : α) :
    least lt x (xs ++ [y]) = if lt y (least lt x xs) then y else least lt x xs := by
  rw [least, List.foldl_concat]
  rfl

theorem least_mem (x : α) (xs : List α) : least lt x xs ∈ x :: xs := by
  induction xs using List.reverseRecOn with
  | nil => exact .head _
  | append_singleton xs y ih =>
    rw [least_concat]
    split
    · exact .tail _ (List.mem_append_right _ (.head _))
    · exact (List.sublist_append_left (x :: xs) [y]).subset ih

/-- Nothing is less than the least element. -/
theorem not_lt_least (hirrefl : ∀ a, lt a a = false)
    (htrans : ∀ a b c, lt a b = true → lt b c = true → lt a c = true) (x : α) (xs : List α) :
    ∀ y ∈ x :: xs, lt y (least lt x xs) = false := by
  induction xs using List.reverseRecOn with
  | nil =>
    intro y hy
    rw [List.mem_singleton.1 hy]
    exact hirrefl x
  | append_singleton xs y ih =>
    intro z hz
    rw [← List.cons_append, List.mem_append, List.mem_singleton] at hz
    rw [least_concat]
    split
    · rename_i hlt
      obtain hz | rfl := hz
      · refine Bool.eq_false_iff.2 fun h => ?_
        exact absurd (htrans z y _ h hlt) (Bool.eq_false_iff.1 (ih z hz))
      · exact hirrefl z
    · rename_i hlt
      obtain hz | rfl := hz
      · exact ih z hz
      · exact Bool.eq_false_iff.2 hlt

end Obase

namespace Obase
set_option autoImplicit true

/-- The newest elements come first, one for each key. -/
def NewestFirst [LT κ] (key : α → κ) (l : List α) : Prop := l.Pairwise fun a b => key b < key a

/-- The elements that are the first of a list under their keys. -/
def Firsts [DecidableEq κ] (key : α → κ) (l s : List α) : Prop :=
  ∀ x, x ∈ s ↔ l.find? (fun y => key y = key x) = some x

section
variable [LinearOrder κ] {key : α → κ} {l s : List α}

theorem NewestFirst.find?_eq (h : NewestFirst key l) {x : α} (hx : x ∈ l) :
    l.find? (fun y => key y = key x) = some x := by
  induction l with
  | nil => cases hx
  | cons a l ih =>
    obtain ⟨ha, hl⟩ := List.pairwise_cons.1 h
    obtain rfl | hx := List.mem_cons.1 hx
    · exact List.find?_cons_of_pos (by simp)
    · rw [List.find?_cons_of_neg (by simpa using (ha x hx).ne'), ih hl hx]

/-- An element that a list has first under its key, behind those of the list's first part, comes
from the second part. -/
theorem Firsts.mem_drop (h : Firsts key l s) {x : α} (hx : x ∈ s) {n : Nat} (hn : x ∉ l.take n) :
    x ∈ l.drop n ∧ ∀ y ∈ l.take n, key y ≠ key x := by
  have hf := (h x).1 hx
  rw [← List.take_append_drop n l, List.find?_append] at hf
  cases ht : (l.take n).find? fun y => key y = key x with
  | none =>
    rw [ht, Option.none_or] at hf
    refine ⟨List.mem_of_find?_eq_some hf, fun y hy => ?_⟩
    simpa using List.find?_eq_none.1 ht y hy
  | some y =>
    rw [ht, Option.some_or] at hf
    cases hf
    exact (hn (List.mem_of_find?_eq_some ht)).elim

theorem NewestFirst.eq_of_mem_iff {r : List α} (hr : NewestFirst key r) (hs : NewestFirst key s)
    (h : ∀ x, x ∈ r ↔ x ∈ s) : r = s := by
  have : Std.Irrefl fun a b : α => key b < key a := ⟨fun a => lt_irrefl _⟩
  have : Std.Antisymm fun a b : α => key b < key a := ⟨fun a b h h' => (lt_asymm h h').elim⟩
  exact List.Pairwise.eq_of_mem_iff hr hs h

/-- Of a list, the first `n` elements are the `n` newest exactly if they are ordered, and every
other element is older than all of them or replaced by one of them. -/
theorem take_eq_take_iff (hs : NewestFirst key s) (h : Firsts key l s) (n : Nat) :
    l.take n = s.take n ↔ NewestFirst key (l.take n) ∧
      ∀ x ∈ l.drop n, (∃ y ∈ l.take n, key y = key x) ∨ ∀ y ∈ l.take n, key x < key y := by
  constructor
  · intro he
    refine ⟨by rw [he]; exact List.Pairwise.sublist (List.take_sublist n s) hs, fun x hx => ?_⟩
    have hx : x ∈ l := List.mem_of_mem_drop hx
    have hsome : (l.find? fun y => key y = key x).isSome = true :=
      List.find?_isSome.2 ⟨x, hx, decide_eq_true rfl⟩
    obtain ⟨f, hf⟩ := Option.isSome_iff_exists.1 hsome
    have hk : key f = key x := by simpa using List.find?_some hf
    have hfs : f ∈ s := (h f).2 (by rw [hk]; exact hf)
    rw [← List.take_append_drop n s] at hfs
    rcases List.mem_append.1 hfs with hfs | hfs
    · exact .inl ⟨f, by rw [he]; exact hfs, hk⟩
    · refine .inr fun y hy => ?_
      rw [he] at hy
      rw [NewestFirst, ← List.take_append_drop n s, List.pairwise_append] at hs
      rw [← hk]
      exact hs.2.2 y hy f hfs
  · rintro ⟨ht, hd⟩
    classical
    let rest := s.filter fun x => x ∉ l.take n
    have hrest {x : α} : x ∈ rest ↔ x ∈ s ∧ x ∉ l.take n := by
      rw [List.mem_filter, decide_eq_true_eq]
    have hlt {x y : α} (hx : x ∈ rest) (hy : y ∈ l.take n) : key x < key y := by
      obtain ⟨hxs, hxt⟩ := hrest.1 hx
      obtain ⟨hxd, hne⟩ := h.mem_drop hxs hxt
      rcases hd x hxd with ⟨z, hz, hk⟩ | hold
      · exact (hne z hz hk).elim
      · exact hold y hy
    have hsub {x : α} (hx : x ∈ l.take n) : x ∈ s := by
      rw [h x, ← List.take_append_drop n l, List.find?_append, ht.find?_eq hx]
      rfl
    have happ : NewestFirst key (l.take n ++ rest) :=
      List.pairwise_append.2 ⟨ht, List.Pairwise.sublist List.filter_sublist hs,
        fun y hy x hx => hlt hx hy⟩
    have hs' : s = l.take n ++ rest := by
      refine hs.eq_of_mem_iff happ fun x => ?_
      rw [List.mem_append, hrest]
      constructor
      · intro hx
        by_cases hxt : x ∈ l.take n
        · exact .inl hxt
        · exact .inr ⟨hx, hxt⟩
      · rintro (hx | ⟨hx, -⟩)
        · exact hsub hx
        · exact hx
    rcases Nat.le_total n l.length with hn | hn
    · have hlen : (l.take n).length = n := List.length_take_of_le hn
      rw [hs', List.take_append_of_le_length hlen.ge, List.take_take, min_self]
    · have hnil : rest = [] := by
        rw [List.eq_nil_iff_forall_not_mem]
        intro x hx
        obtain ⟨hxs, hxt⟩ := hrest.1 hx
        have hxd := (h.mem_drop hxs hxt).1
        rw [List.drop_eq_nil_of_le hn] at hxd
        cases hxd
      rw [hs', hnil, List.append_nil, List.take_take, min_self]

/-- A stable sort keeps the order of the elements under a key. -/
theorem filter_insertionSort (l : List α) (k : κ) :
    (l.insertionSort fun a b => key a ≤ key b).filter (fun a => key a = k) =
      l.filter fun a => key a = k := by
  have hsub : (l.filter fun a => key a = k).Sublist (l.insertionSort fun a b => key a ≤ key b) := by
    refine List.sublist_insertionSort ?_ List.filter_sublist
    refine List.pairwise_of_forall_mem_list fun a ha b hb => ?_
    have hka := (List.mem_filter.1 ha).2
    have hkb := (List.mem_filter.1 hb).2
    rw [decide_eq_true_eq] at hka hkb
    rw [hka, hkb]
  have hsub' := hsub.filter fun a => key a = k
  simp only [List.filter_filter, Bool.and_self] at hsub'
  refine (hsub'.eq_of_length ?_).symm
  exact ((List.perm_insertionSort _ l).filter _).length_eq.symm

/-- What is last under a key comes first when the elements are pushed in the order of their keys. -/
theorem find?_reverse_insertionSort (l : List α) (k : κ) :
    (l.insertionSort fun a b => key a ≤ key b).reverse.find? (fun a => key a = k) =
      l.reverse.find? fun a => key a = k := by
  rw [← List.head?_filter, ← List.head?_filter, List.filter_reverse, List.filter_reverse,
    filter_insertionSort]

end

end Obase
