import Mathlib.Data.List.Basic

namespace Obase.MaximalRuns
set_option autoImplicit true

/-- The places from `a` up to `b` are a run that cannot be made longer on either side. -/
structure MaximalRun (v : List Bool) (a b : Nat) : Prop where
  lt : a < b
  inside : ∀ j, a ≤ j → j < b → v[j]? = some true
  left : ∀ j, j + 1 = a → v[j]? ≠ some true
  right : v[b]? ≠ some true

/-- The runs that end from a place on, with the start of the run that the place is in. -/
def runsFrom : List Bool → Nat → Option Nat → List (Nat × Nat)
  | [], _, none => []
  | [], i, some a => [(a, i)]
  | true :: v, i, none => runsFrom v (i + 1) (some i)
  | true :: v, i, some a => runsFrom v (i + 1) (some a)
  | false :: v, i, none => runsFrom v (i + 1) none
  | false :: v, i, some a => (a, i) :: runsFrom v (i + 1) none

/-- The maximal runs of a list, in order. -/
def runs (v : List Bool) : List (Nat × Nat) := runsFrom v 0 none

/-- What the start of the current run says about the places before it. -/
def Open (v : List Bool) (i : Nat) : Option Nat → Prop
  | none => ∀ j, j + 1 = i → v[j]? ≠ some true
  | some a => a < i ∧ (∀ j, a ≤ j → j < i → v[j]? = some true) ∧
      ∀ j, j + 1 = a → v[j]? ≠ some true

theorem MaximalRun.end_ne_of_true {v : List Bool} {a b i : Nat} (h : MaximalRun v a b)
    (hi : v[i]? = some true) : b ≠ i := by
  rintro rfl
  exact h.right hi

theorem MaximalRun.end_ne_of_closed {v : List Bool} {a b i : Nat} (h : MaximalRun v a b)
    (hi : Open v i none) : b ≠ i := by
  rintro rfl
  obtain ⟨c, hc⟩ := Nat.exists_eq_add_of_lt h.lt
  exact hi (a + c) (by omega) (h.inside _ (by omega) (by omega))

/-- A run that ends where the current one does is the current one. -/
theorem MaximalRun.start_eq {v : List Bool} {a b a' : Nat} (h : MaximalRun v a b)
    (hi : Open v b (some a')) : a = a' := by
  obtain ⟨hlt, hin, hleft⟩ := hi
  have hab := h.lt
  rcases Nat.lt_trichotomy a a' with hl | he | hg
  · exact (hleft (a' - 1) (by omega) (h.inside _ (by omega) (by omega))).elim
  · exact he
  · exact (h.left (a - 1) (by omega) (hin _ (by omega) (by omega))).elim

theorem mem_runsFrom {v pre vs : List Bool} (hv : v = pre ++ vs) {start : Option Nat}
    (ho : Open v pre.length start) {a b : Nat} :
    (a, b) ∈ runsFrom vs pre.length start ↔ MaximalRun v a b ∧ pre.length ≤ b := by
  induction vs generalizing pre start with
  | nil =>
    rw [List.append_nil] at hv
    subst hv
    have hend : v[v.length]? ≠ some true := by simp
    have hle {a b : Nat} (h : MaximalRun v a b) : b ≤ v.length := by
      have hlt := h.lt
      have hb := h.inside (b - 1) (by omega) (by omega)
      have := (List.getElem?_eq_some_iff.1 hb).1
      omega
    cases start with
    | none =>
      rw [runsFrom]
      refine ⟨fun h => (nomatch h), fun ⟨h, hb⟩ => ?_⟩
      exact (h.end_ne_of_closed ho (Nat.le_antisymm (hle h) hb)).elim
    | some a' =>
      rw [runsFrom, List.mem_singleton, Prod.mk.injEq]
      constructor
      · rintro ⟨rfl, rfl⟩
        exact ⟨⟨ho.1, ho.2.1, ho.2.2, hend⟩, Nat.le_refl _⟩
      · rintro ⟨h, hb⟩
        obtain rfl := Nat.le_antisymm (hle h) hb
        exact ⟨h.start_eq ho, rfl⟩
  | cons x vs ih =>
    have hx : v[pre.length]? = some x := by simp [hv]
    have hv' : v = (pre ++ [x]) ++ vs := by simp [hv]
    have hnext {start : Option Nat} (ho' : Open v (pre.length + 1) start) :
        (a, b) ∈ runsFrom vs (pre.length + 1) start ↔ MaximalRun v a b ∧ pre.length + 1 ≤ b := by
      have h := @ih (pre ++ [x]) hv' start
      rw [List.length_append, List.length_singleton] at h
      exact h ho'
    have hskip (hne : MaximalRun v a b → b ≠ pre.length) :
        MaximalRun v a b ∧ pre.length + 1 ≤ b ↔ MaximalRun v a b ∧ pre.length ≤ b := by
      constructor
      · exact fun ⟨h, hb⟩ => ⟨h, by omega⟩
      · intro ⟨h, hb⟩
        have := hne h
        exact ⟨h, by omega⟩
    cases x with
    | true =>
      have hne (h : MaximalRun v a b) : b ≠ pre.length := h.end_ne_of_true hx
      cases start with
      | none =>
        rw [runsFrom, hnext, hskip hne]
        refine ⟨by omega, fun j h₁ h₂ => ?_, ho⟩
        rw [Nat.le_antisymm (Nat.lt_succ_iff.1 h₂) h₁]
        exact hx
      | some a' =>
        rw [runsFrom, hnext, hskip hne]
        refine ⟨by have := ho.1; omega, fun j h₁ h₂ => ?_, ho.2.2⟩
        rcases Nat.lt_succ_iff_lt_or_eq.1 h₂ with h₂ | rfl
        · exact ho.2.1 j h₁ h₂
        · exact hx
    | false =>
      have hclosed : Open v (pre.length + 1) none := by
        intro j hj
        rw [Nat.succ.inj hj, hx]
        exact fun h => (nomatch h)
      cases start with
      | none =>
        rw [runsFrom, hnext hclosed, hskip fun h => h.end_ne_of_closed ho]
      | some a' =>
        rw [runsFrom, List.mem_cons, hnext hclosed, Prod.mk.injEq]
        constructor
        · rintro (⟨rfl, rfl⟩ | ⟨h, hb⟩)
          · refine ⟨⟨ho.1, ho.2.1, ho.2.2, ?_⟩, Nat.le_refl _⟩
            rw [hx]
            exact fun h => (nomatch h)
          · exact ⟨h, by omega⟩
        · rintro ⟨h, hb⟩
          rcases Nat.eq_or_lt_of_le hb with rfl | hlt
          · exact .inl ⟨h.start_eq ho, rfl⟩
          · exact .inr ⟨h, hlt⟩

theorem mem_runs {v : List Bool} {a b : Nat} : (a, b) ∈ runs v ↔ MaximalRun v a b := by
  have h := @mem_runsFrom v [] v rfl none (fun j hj => (nomatch hj)) a b
  rw [List.length_nil] at h
  rw [runs, h]
  exact and_iff_left (Nat.zero_le b)

theorem le_of_mem_runsFrom {vs : List Bool} {i : Nat} {start : Option Nat}
    (hs : start.getD i ≤ i) {p : Nat × Nat} (h : p ∈ runsFrom vs i start) :
    start.getD i ≤ p.1 := by
  induction vs generalizing i start with
  | nil =>
    cases start with
    | none => cases h
    | some a =>
      rw [List.mem_singleton.1 h]
      exact Nat.le_refl _
  | cons x vs ih =>
    have hnone (h : p ∈ runsFrom vs (i + 1) none) : i + 1 ≤ p.1 :=
      @ih (i + 1) none (Nat.le_refl _) h
    have hsome {a : Nat} (ha : a ≤ i) (h : p ∈ runsFrom vs (i + 1) (some a)) : a ≤ p.1 :=
      @ih (i + 1) (some a) (Nat.le_succ_of_le ha) h
    cases x with
    | true =>
      cases start with
      | none => exact hsome (Nat.le_refl i) h
      | some a => exact hsome hs h
    | false =>
      cases start with
      | none => exact Nat.le_of_succ_le (hnone h)
      | some a =>
        rcases List.mem_cons.1 h with rfl | h
        · exact Nat.le_refl _
        · exact Nat.le_trans (Nat.le_succ_of_le hs) (hnone h)

/-- The runs come in order, with a gap between one and the next. -/
theorem runsFrom_ordered {vs : List Bool} {i : Nat} {start : Option Nat} :
    (runsFrom vs i start).Pairwise fun p q => p.2 < q.1 := by
  induction vs generalizing i start with
  | nil =>
    cases start with
    | none => exact .nil
    | some a => exact List.pairwise_singleton ..
  | cons x vs ih =>
    cases x with
    | true =>
      cases start with
      | none => exact ih
      | some a => exact ih
    | false =>
      cases start with
      | none => exact ih
      | some a =>
        refine List.pairwise_cons.2 ⟨fun q hq => ?_, ih⟩
        exact @le_of_mem_runsFrom vs (i + 1) none (Nat.le_refl _) q hq

theorem runs_ordered (v : List Bool) : (runs v).Pairwise fun p q => p.2 < q.1 :=
  runsFrom_ordered

theorem covered_runsFrom {vs : List Bool} {i j : Nat} {start : Option Nat}
    (h : (∃ a, start = some a ∧ a ≤ j ∧ j < i) ∨ ∃ k, j = i + k ∧ vs[k]? = some true)
    (hs : start.getD i ≤ i) : ∃ p ∈ runsFrom vs i start, p.1 ≤ j ∧ j < p.2 := by
  induction vs generalizing i start with
  | nil =>
    rcases h with ⟨a, rfl, ha, hi⟩ | ⟨k, -, hk⟩
    · exact ⟨(a, i), List.mem_singleton_self _, ha, hi⟩
    · cases hk
  | cons x vs ih =>
    have htail (h : ∃ k, j = i + k ∧ (x :: vs)[k]? = some true) :
        (j = i ∧ x = true) ∨ ∃ k, j = i + 1 + k ∧ vs[k]? = some true := by
      obtain ⟨k, rfl, hk⟩ := h
      cases k with
      | zero => exact .inl ⟨rfl, by simpa using hk⟩
      | succ k => exact .inr ⟨k, by omega, by simpa using hk⟩
    cases x with
    | true =>
      have hopen {a : Nat} (ha : a ≤ i) (h : (a ≤ j ∧ j < i + 1) ∨
          ∃ k, j = i + 1 + k ∧ vs[k]? = some true) :
          ∃ p ∈ runsFrom vs (i + 1) (some a), p.1 ≤ j ∧ j < p.2 :=
        @ih (i + 1) (some a) (h.imp (fun h => ⟨a, rfl, h⟩) id) (Nat.le_succ_of_le ha)
      cases start with
      | none =>
        apply hopen (Nat.le_refl i)
        rcases h with ⟨a, he, -⟩ | h
        · cases he
        · exact (htail h).imp (fun ⟨he, _⟩ => by omega) id
      | some a =>
        apply hopen hs
        rcases h with ⟨a', he, ha⟩ | h
        · cases he
          exact .inl ⟨ha.1, by omega⟩
        · have ha : a ≤ i := hs
          exact (htail h).imp (fun ⟨he, _⟩ => by omega) id
    | false =>
      have hclosed (h : ∃ k, j = i + k ∧ (false :: vs)[k]? = some true) :
          ∃ p ∈ runsFrom vs (i + 1) none, p.1 ≤ j ∧ j < p.2 :=
        @ih (i + 1) none (.inr ((htail h).resolve_left fun h => (nomatch h.2))) (Nat.le_refl _)
      cases start with
      | none =>
        rcases h with ⟨a, he, -⟩ | h
        · cases he
        · exact hclosed h
      | some a =>
        rcases h with ⟨a', he, ha⟩ | h
        · cases he
          exact ⟨(a, i), .head _, ha⟩
        · obtain ⟨p, hp, hj⟩ := hclosed h
          exact ⟨p, .tail _ hp, hj⟩

theorem true_iff_mem_runs {v : List Bool} {j : Nat} :
    v[j]? = some true ↔ ∃ p ∈ runs v, p.1 ≤ j ∧ j < p.2 := by
  constructor
  · intro h
    exact covered_runsFrom (.inr ⟨j, (Nat.zero_add j).symm, h⟩) (Nat.le_refl _)
  · rintro ⟨p, hp, h₁, h₂⟩
    exact (mem_runs.1 hp).inside j h₁ h₂

/-- A list is known from its length and its runs. -/
theorem runs_injective {v w : List Bool} (hl : v.length = w.length) (h : runs v = runs w) :
    v = w := by
  apply List.ext_getElem hl
  intro j hv hw
  have hj : v[j]? = some true ↔ w[j]? = some true := by
    rw [true_iff_mem_runs, true_iff_mem_runs, h]
  rw [List.getElem?_eq_getElem hv, List.getElem?_eq_getElem hw, Option.some_inj,
    Option.some_inj] at hj
  exact Bool.eq_iff_iff.2 hj

end Obase.MaximalRuns
