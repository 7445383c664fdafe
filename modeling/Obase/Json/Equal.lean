import Mathlib.Data.List.Perm.Subperm
import Obase.Json.Dumps

namespace Obase.Json
set_option autoImplicit true

/-- A number of a document. -/
inductive Number (F : Type) where
  | int (n : Int)
  | float (x : PyFloat F)

def number? : Json F → Option (Number F)
  | .int n => some (.int n)
  | .float x => some (.float x)
  | _ => none

/-- The place of a number or truth value on the extended line. -/
def rank [FloatText F] : Json F → Option (Int × ℚ)
  | .bool b => some (0, if b then 1 else 0)
  | .int n => some (0, n)
  | .float x => floatRank x
  | _ => none

def equalRank (x y : Option (Int × ℚ)) : Bool :=
  match x, y with
  | some x, some y => x == y
  | _, _ => false

def isNan : Json F → Bool
  | .float .nan => true
  | _ => false

section
variable [FloatText F]

mutual
/-- Python's `==`. The truth values are the numbers 0 and 1. -/
def equal : Json F → Json F → Bool
  | .null, .null => true
  | .str s, .str t => s == t
  | .list vs, .list ws => equalItems vs ws
  | .dict ms, .dict ns => ms.length == ns.length && equalMembers ms ns
  | v, w => equalRank (rank v) (rank w)
/-- Inside containers the one object that the decoder gives for a NaN is equal to itself. -/
def equalItems : List (Json F) → List (Json F) → Bool
  | [], [] => true
  | v :: vs, w :: ws => (isNan v && isNan w || equal v w) && equalItems vs ws
  | _, _ => false
def equalMembers : List (String × Json F) → List (String × Json F) → Bool
  | [], _ => true
  | (k, v) :: ms, ns =>
    (match ns.lookup k with
      | some w => isNan v && isNan w || equal v w
      | none => false) && equalMembers ms ns
end

end

section
variable (number : Number F → Number F → Prop)

mutual
/-- Two values are one JSON value, for a given sameness of numbers: no truth value is a number, and
the order of the members of an object does not matter. -/
def Same : Json F → Json F → Prop
  | .null, .null => True
  | .bool b, .bool c => b = c
  | .str s, .str t => s = t
  | .list vs, .list ws => SameItems vs ws
  | .dict ms, .dict ns => (∀ k, k ∈ Dict.keys ms ↔ k ∈ Dict.keys ns) ∧ SameMembers ms ns
  | .int m, w => ∃ n, number? w = some n ∧ number (.int m) n
  | .float x, w => ∃ n, number? w = some n ∧ number (.float x) n
  | _, _ => False
def SameItems : List (Json F) → List (Json F) → Prop
  | [], [] => True
  | v :: vs, w :: ws => Same v w ∧ SameItems vs ws
  | _, _ => False
def SameMembers : List (String × Json F) → List (String × Json F) → Prop
  | [], _ => True
  | (k, v) :: ms, ns => (∃ w, ns.lookup k = some w ∧ Same v w) ∧ SameMembers ms ns
end

end

theorem equalRank_comm (x y : Option (Int × ℚ)) : equalRank x y = equalRank y x := by
  cases x with
  | none => cases y <;> rfl
  | some x =>
    cases y with
    | none => rfl
    | some y => exact BEq.comm

section
variable {F : Type} [FloatText F]

theorem equal_symm_of_scalar {v w : Json F} (h : equal v w = true)
    (hl : ∀ vs ws, v = .list vs → w = .list ws → False)
    (hd : ∀ ms ns, v = .dict ms → w = .dict ns → False) : equal w v = true := by
  rw [← h]
  by_cases hn : v = .null ∧ w = .null
  · rw [hn.1, hn.2]
  by_cases hs : ∃ s t, v = .str s ∧ w = .str t
  · obtain ⟨s, t, rfl, rfl⟩ := hs
    rw [equal, equal]
    exact BEq.comm
  · rw [equal, equal, equalRank_comm]
    · exact fun h h' => hn ⟨h, h'⟩
    · exact fun s t h h' => hs ⟨s, t, h, h'⟩
    · exact hl
    · exact hd
    · exact fun h h' => hn ⟨h', h⟩
    · exact fun s t h h' => hs ⟨t, s, h', h⟩
    · exact fun vs ws h h' => hl ws vs h' h
    · exact fun ms ns h h' => hd ns ms h' h

theorem equalMembers_keys {ms ns : List (String × Json F)} (h : equalMembers ms ns = true)
    {k : String} (hk : k ∈ Dict.keys ms) : k ∈ Dict.keys ns := by
  induction ms with
  | nil => cases hk
  | cons p ms ih =>
    obtain ⟨k', v⟩ := p
    rw [equalMembers, Bool.and_eq_true] at h
    obtain he | hk := List.mem_cons.1 hk
    · cases he
      cases hl : ns.lookup k' with
      | none =>
        rw [hl] at h
        cases h.1
      | some w => exact Dict.mem_keys_iff.2 ⟨w, hl⟩
    · exact ih h.2 hk

theorem equalMembers_iff {ms ns : List (String × Json F)} :
    equalMembers ms ns = true ↔
      ∀ p ∈ ms, ∃ w, ns.lookup p.1 = some w ∧ (isNan p.2 && isNan w || equal p.2 w) = true := by
  induction ms with
  | nil => exact iff_of_true rfl fun _ hm => (nomatch hm)
  | cons p ms ih =>
    obtain ⟨k, v⟩ := p
    rw [equalMembers, Bool.and_eq_true, List.forall_mem_cons, ih]
    cases hl : ns.lookup k with
    | none => exact iff_of_false (fun h => nomatch h.1) fun h => nomatch h.1
    | some w =>
      refine and_congr_left fun _ => ⟨fun h => ⟨w, rfl, h⟩, ?_⟩
      rintro ⟨w, ⟨⟩, h⟩
      exact h

/-- Of two dictionaries of one size, the keys of the one are keys of the other if all its keys
are. -/
theorem keys_subset_of_length {α β : Type} {ms : Dict String α} {ns : Dict String β}
    (hm : Dict.Distinct ms) (hlen : ms.length = ns.length)
    (h : ∀ k ∈ Dict.keys ms, k ∈ Dict.keys ns) {k : String} (hk : k ∈ Dict.keys ns) :
    k ∈ Dict.keys ms := by
  have hp : (Dict.keys ms).Subperm (Dict.keys ns) := List.subperm_of_subset hm h
  refine (hp.perm_of_length_le ?_).mem_iff.2 hk
  rw [Dict.keys, Dict.keys, List.length_map, List.length_map, hlen]

mutual
theorem equal_symm : ∀ v w : Json F, Value.Distinct v → Value.Distinct w → equal v w = true →
    equal w v = true
  | .list vs, .list ws, hv, hw, h => by
    rw [equal] at h ⊢
    exact equalItems_symm vs ws hv hw h
  | .dict ms, .dict ns, hv, hw, h => by
    rw [equal, Bool.and_eq_true, beq_iff_eq] at h ⊢
    obtain ⟨hlen, h⟩ := h
    refine ⟨hlen.symm, equalMembers_iff.2 fun p hp => ?_⟩
    have hkey := keys_subset_of_length hv.1 hlen (fun k => equalMembers_keys h)
      (List.mem_map_of_mem hp)
    obtain ⟨v, hl⟩ := Dict.mem_keys_iff.1 hkey
    refine ⟨v, hl, ?_⟩
    exact equalMembers_symm ms ns hv.2 hw.2 h p.1 v p.2 (Dict.lookup_mem hl)
      ((Dict.lookup_eq_some_iff hw.1).2 hp)
  | .list _, .dict _, _, _, h | .dict _, .list _, _, _, h => nomatch h
  | .null, w, _, _, h | .bool _, w, _, _, h | .int _, w, _, _, h | .float _, w, _, _, h
  | .str _, w, _, _, h =>
    equal_symm_of_scalar h (fun _ _ he _ => nomatch he) fun _ _ he _ => nomatch he
  | v, .null, _, _, h | v, .bool _, _, _, h | v, .int _, _, _, h | v, .float _, _, _, h
  | v, .str _, _, _, h =>
    equal_symm_of_scalar h (fun _ _ _ he => nomatch he) fun _ _ _ he => nomatch he
theorem equalItems_symm : ∀ vs ws : List (Json F), Value.DistinctList vs → Value.DistinctList ws →
    equalItems vs ws = true → equalItems ws vs = true
  | [], [], _, _, _ => rfl
  | v :: vs, w :: ws, hv, hw, h => by
    rw [equalItems, Bool.and_eq_true, Bool.or_eq_true, Bool.and_eq_true] at h ⊢
    obtain ⟨h, hs⟩ := h
    refine ⟨?_, equalItems_symm vs ws hv.2 hw.2 hs⟩
    obtain ⟨hn, hn'⟩ | h := h
    · exact .inl ⟨hn', hn⟩
    · exact .inr (equal_symm v w hv.1 hw.1 h)
  | [], _ :: _, _, _, h => by cases h
  | _ :: _, [], _, _, h => by cases h
theorem equalMembers_symm : ∀ ms ns : List (String × Json F), Value.DistinctMembers ms →
    Value.DistinctMembers ns → equalMembers ms ns = true → ∀ k v w, (k, v) ∈ ms →
    ns.lookup k = some w → (isNan w && isNan v || equal w v) = true
  | (k, v) :: ms, ns, hm, hn, h => by
    rw [equalMembers, Bool.and_eq_true] at h
    intro k' v' w hmem hl
    obtain he | hmem := List.mem_cons.1 hmem
    · cases he
      rw [hl] at h
      dsimp only at h
      rw [Bool.or_eq_true, Bool.and_eq_true] at h ⊢
      obtain ⟨⟨hv, hw⟩ | he, -⟩ := h
      · exact .inl ⟨hw, hv⟩
      · exact .inr (equal_symm v w hm.1 (Value.distinctMembers_iff.1 hn _ (Dict.lookup_mem hl)) he)
    · exact equalMembers_symm ms ns hm.2 hn h.2 k' v' w hmem hl
  | [], _, _, _, _ => nofun
end

theorem equal_comm {v w : Json F} (hv : Value.Distinct v) (hw : Value.Distinct w) :
    equal v w = equal w v := by
  rw [Bool.eq_iff_iff]
  exact ⟨equal_symm v w hv hw, equal_symm w v hw hv⟩

end

section
variable {F : Type} {number : Number F → Number F → Prop}
  (hr : ∀ n, number n n)
include hr

mutual
theorem same_refl : ∀ v : Json F, Value.Distinct v → Same number v v
  | .null, _ => trivial
  | .bool _, _ => rfl
  | .str _, _ => rfl
  | .int n, _ => ⟨.int n, rfl, hr _⟩
  | .float x, _ => ⟨.float x, rfl, hr _⟩
  | .list vs, h => sameItems_refl vs h
  | .dict ms, h =>
    ⟨fun _ => Iff.rfl, sameMembers_refl ms h.2 ms fun _ hp => (Dict.lookup_eq_some_iff h.1).2 hp⟩
theorem sameItems_refl : ∀ vs : List (Json F), Value.DistinctList vs → SameItems number vs vs
  | [], _ => trivial
  | v :: vs, h => ⟨same_refl v h.1, sameItems_refl vs h.2⟩
theorem sameMembers_refl : ∀ ms : List (String × Json F), Value.DistinctMembers ms →
    ∀ ns : List (String × Json F), (∀ p ∈ ms, ns.lookup p.1 = some p.2) → SameMembers number ms ns
  | [], _, _, _ => trivial
  | (_, v) :: ms, h, ns, hl =>
    ⟨⟨v, hl _ (.head _), same_refl v h.1⟩,
      sameMembers_refl ms h.2 ns fun p hp => hl p (.tail _ hp)⟩
end

end

end Obase.Json
