import Mathlib.Data.List.Basic

namespace Obase
set_option autoImplicit true

/-- A place in a text: what is before it and what follows. -/
structure Place where
  before : List Char
  rest : List Char

inductive Regex where
  | char (p : Char → Bool)
  | seq (r s : Regex)
  | rep (r : Regex) (lo hi : Nat)
  | start
  | stop

namespace Regex

/-- The places where between `lo` and `hi` repetitions can end, the longest first. -/
def repEnds (f : Place → List Place) (lo : Nat) : Nat → Place → List Place
  | 0, p => if lo = 0 then [p] else []
  | hi + 1, p => (f p).flatMap (repEnds f (lo - 1) hi) ++ if lo = 0 then [p] else []

/-- The places where a match from a place can end; `atEnd` says what may follow a `$`. -/
def ends (atEnd : List Char → Bool) : Regex → Place → List Place
  | char _, ⟨_, []⟩ => []
  | char p, ⟨before, c :: rest⟩ => if p c then [⟨before ++ [c], rest⟩] else []
  | seq r s, place => (ends atEnd r place).flatMap (ends atEnd s)
  | rep r lo hi, place => repEnds (ends atEnd r) lo hi place
  | start, place => if place.before.isEmpty then [place] else []
  | stop, place => if atEnd place.rest then [place] else []

theorem ends_char (atEnd : List Char → Bool) (p : Char → Bool) (before : List Char) (c : Char)
    (rest : List Char) : ends atEnd (char p) ⟨before, c :: rest⟩ =
      if p c then [⟨before ++ [c], rest⟩] else [] := rfl

theorem ends_seq (atEnd : List Char → Bool) (r s : Regex) (place : Place) :
    ends atEnd (seq r s) place = (ends atEnd r place).flatMap (ends atEnd s) := by
  cases place
  rfl

theorem ends_rep (atEnd : List Char → Bool) (r : Regex) (lo hi : Nat) (place : Place) :
    ends atEnd (rep r lo hi) place = repEnds (ends atEnd r) lo hi place := by
  cases place
  rfl

theorem ends_start (atEnd : List Char → Bool) (place : Place) :
    ends atEnd start place = if place.before.isEmpty then [place] else [] := by
  cases place
  rfl

theorem ends_stop (atEnd : List Char → Bool) (place : Place) :
    ends atEnd stop place = if atEnd place.rest then [place] else [] := by
  cases place
  rfl

def matchAt (atEnd : List Char → Bool) (r : Regex) (place : Place) : Bool :=
  !(ends atEnd r place).isEmpty

/-- The expression matches at the start of the text. -/
def isMatch (atEnd : List Char → Bool) (r : Regex) (s : List Char) : Bool := matchAt atEnd r ⟨[], s⟩

/-- The expression matches somewhere in the text. -/
def search (atEnd : List Char → Bool) (r : Regex) (s : List Char) : Bool :=
  (List.range (s.length + 1)).any fun n => matchAt atEnd r ⟨s.take n, s.drop n⟩

/-- No anchor occurs in the expression. -/
def Plain : Regex → Prop
  | char _ => True
  | seq r s => Plain r ∧ Plain s
  | rep r _ _ => Plain r
  | start => False
  | stop => False

/-- A number of repetitions within bounds. -/
def Repeats (P : List Char → Prop) (lo hi : Nat) (u : List Char) : Prop :=
  ∃ us : List (List Char), u = us.flatten ∧ (∀ v ∈ us, P v) ∧ lo ≤ us.length ∧ us.length ≤ hi

/-- The language of an expression without anchors. -/
def Reads : Regex → List Char → Prop
  | char p, u => ∃ c, u = [c] ∧ p c = true
  | seq r s, u => ∃ v w, u = v ++ w ∧ Reads r v ∧ Reads s w
  | rep r lo hi, u => Repeats (Reads r) lo hi u
  | start, u => u = []
  | stop, u => u = []

/-- From the first place to the second the text of the kind is read. -/
def Steps (P : List Char → Prop) (p q : Place) : Prop :=
  ∃ u, P u ∧ p.rest = u ++ q.rest ∧ q.before = p.before ++ u

theorem Steps.nil {P : List Char → Prop} (h : P []) (p : Place) : Steps P p p :=
  ⟨[], h, rfl, (List.append_nil _).symm⟩

theorem Steps.trans {P Q : List Char → Prop} {p q r : Place} (hp : Steps P p q)
    (hq : Steps Q q r) : Steps (fun u => ∃ v w, u = v ++ w ∧ P v ∧ Q w) p r := by
  obtain ⟨u, hu, hr, hb⟩ := hp
  obtain ⟨v, hv, hr', hb'⟩ := hq
  exact ⟨u ++ v, ⟨u, v, rfl, hu, hv⟩, by rw [hr, hr', List.append_assoc],
    by rw [hb', hb, List.append_assoc]⟩

theorem Steps.split {P Q : List Char → Prop} {p r : Place}
    (h : Steps (fun u => ∃ v w, u = v ++ w ∧ P v ∧ Q w) p r) :
    ∃ q, Steps P p q ∧ Steps Q q r := by
  obtain ⟨_, ⟨v, w, rfl, hv, hw⟩, hr, hb⟩ := h
  exact ⟨⟨p.before ++ v, w ++ r.rest⟩, ⟨v, hv, by rw [hr, List.append_assoc], rfl⟩,
    w, hw, rfl, by rw [hb, List.append_assoc]⟩

theorem Steps.mono {P Q : List Char → Prop} {p q : Place} (h : Steps P p q)
    (hi : ∀ u, P u → Q u) : Steps Q p q := by
  obtain ⟨u, hu, hr, hb⟩ := h
  exact ⟨u, hi u hu, hr, hb⟩

theorem Place.eq_of_steps {p q : Place} (h : Steps (· = []) p q) : q = p := by
  obtain ⟨_, rfl, hr, hb⟩ := h
  cases p
  cases q
  rw [List.append_nil] at hb
  cases hr
  cases hb
  rfl

theorem Repeats.nil {P : List Char → Prop} (hi : Nat) : Repeats P 0 hi [] :=
  ⟨[], rfl, by simp, Nat.le_refl 0, Nat.zero_le hi⟩

theorem Repeats.cons {P : List Char → Prop} {u v : List Char} (hu : P u)
    (hv : Repeats P (lo - 1) hi v) : Repeats P lo (hi + 1) (u ++ v) := by
  obtain ⟨us, rfl, hus, hlo, hhi⟩ := hv
  exact ⟨u :: us, rfl, List.forall_mem_cons.2 ⟨hu, hus⟩, by simp; omega, by simp; omega⟩

theorem Repeats.cases {P : List Char → Prop} {u : List Char} (h : Repeats P lo (hi + 1) u) :
    (lo = 0 ∧ u = []) ∨ ∃ v w, u = v ++ w ∧ P v ∧ Repeats P (lo - 1) hi w := by
  obtain ⟨us, rfl, hus, hlo, hhi⟩ := h
  cases us with
  | nil => exact .inl ⟨Nat.le_zero.1 hlo, rfl⟩
  | cons v us =>
    rw [List.forall_mem_cons] at hus
    rw [List.length_cons] at hlo hhi
    exact .inr ⟨v, us.flatten, rfl, hus.1, us, rfl, hus.2, by omega, by omega⟩

theorem mem_repEnds {f : Place → List Place} {P : List Char → Prop}
    (hf : ∀ p q, q ∈ f p ↔ Steps P p q) (hi : Nat) :
    ∀ (lo : Nat) (p q : Place), q ∈ repEnds f lo hi p ↔ Steps (Repeats P lo hi) p q := by
  induction hi with
  | zero =>
    intro lo p q
    rw [repEnds]
    constructor
    · intro h
      split at h
      · rename_i hlo
        rw [List.mem_singleton.1 h, hlo]
        exact .nil (.nil 0) p
      · cases h
    · intro h
      have he : ∀ u, Repeats P lo 0 u → u = [] ∧ lo = 0 := by
        rintro u ⟨us, rfl, -, hlo, hhi⟩
        cases List.length_eq_zero_iff.1 (Nat.le_zero.1 hhi)
        exact ⟨rfl, Nat.le_zero.1 hlo⟩
      have hlo : lo = 0 := by
        obtain ⟨u, hu, -⟩ := h
        exact (he u hu).2
      rw [if_pos hlo, List.mem_singleton]
      exact Place.eq_of_steps (h.mono fun u hu => (he u hu).1)
  | succ hi ih =>
    intro lo p q
    rw [repEnds, List.mem_append, List.mem_flatMap]
    constructor
    · rintro (⟨m, hm, hq⟩ | h)
      · apply (((hf p m).1 hm).trans ((ih _ m q).1 hq)).mono
        rintro _ ⟨v, w, rfl, hv, hw⟩
        exact .cons hv hw
      · split at h
        · rename_i hlo
          rw [List.mem_singleton.1 h, hlo]
          exact .nil (.nil _) p
        · cases h
    · rintro ⟨u, hu, hr, hb⟩
      rcases hu.cases with ⟨hlo, rfl⟩ | ⟨v, w, rfl, hv, hw⟩
      · right
        rw [if_pos hlo, List.mem_singleton]
        exact Place.eq_of_steps ⟨[], rfl, hr, hb⟩
      · left
        obtain ⟨m, hm, hq⟩ := Steps.split (P := P) (Q := Repeats P (lo - 1) hi)
          ⟨v ++ w, ⟨v, w, rfl, hv, hw⟩, hr, hb⟩
        exact ⟨m, (hf p m).2 hm, (ih _ m q).2 hq⟩

/-- The engine finds exactly the ends of the prefixes in the language. -/
theorem mem_ends (atEnd : List Char → Bool) {r : Regex} (hr : r.Plain) (p q : Place) :
    q ∈ ends atEnd r p ↔ Steps r.Reads p q := by
  induction r generalizing p q with
  | char k =>
    obtain ⟨before, rest⟩ := p
    cases rest with
    | nil =>
      constructor
      · intro h
        cases h
      · rintro ⟨_, ⟨c, rfl, -⟩, h, -⟩
        cases h
    | cons c rest =>
      rw [ends_char]
      constructor
      · intro h
        split at h
        · rename_i hc
          rw [List.mem_singleton.1 h]
          exact ⟨[c], ⟨c, rfl, hc⟩, rfl, rfl⟩
        · cases h
      · rintro ⟨_, ⟨d, rfl, hd⟩, h, hb⟩
        obtain ⟨qb, qr⟩ := q
        change c :: rest = d :: qr at h
        change qb = before ++ [d] at hb
        cases h
        rw [if_pos hd, hb]
        exact List.mem_singleton.2 rfl
  | seq r s ihr ihs =>
    rw [ends_seq, List.mem_flatMap]
    constructor
    · rintro ⟨m, hm, hq⟩
      exact ((ihr hr.1 p m).1 hm).trans ((ihs hr.2 m q).1 hq)
    · intro h
      obtain ⟨m, hm, hq⟩ := Steps.split h
      exact ⟨m, (ihr hr.1 p m).2 hm, (ihs hr.2 m q).2 hq⟩
  | rep r lo hi ih =>
    rw [ends_rep]
    exact mem_repEnds (ih hr) hi lo p q
  | start => exact hr.elim
  | stop => exact hr.elim

theorem matchAt_iff (atEnd : List Char → Bool) (r : Regex) (p : Place) :
    matchAt atEnd r p = true ↔ ∃ q, q ∈ ends atEnd r p := by
  rw [matchAt, Bool.not_eq_true', List.isEmpty_eq_false_iff]
  exact ⟨List.exists_mem_of_ne_nil _, fun ⟨q, hq⟩ => List.ne_nil_of_mem hq⟩

theorem isMatch_anchored (atEnd : List Char → Bool) {r : Regex} (hr : r.Plain) (s : List Char) :
    isMatch atEnd (seq start (seq r stop)) s = true ↔
      ∃ u t, s = u ++ t ∧ r.Reads u ∧ atEnd t = true := by
  rw [isMatch, matchAt_iff]
  have hs : ends atEnd (seq start (seq r stop)) ⟨[], s⟩ =
      (ends atEnd r ⟨[], s⟩).flatMap (ends atEnd stop) := by
    rw [ends_seq, ends_start]
    have hseq : ends atEnd (seq r stop) = fun place =>
        (ends atEnd r place).flatMap (ends atEnd stop) := funext fun place => ends_seq ..
    rw [hseq]
    exact List.flatMap_singleton ..
  rw [hs]
  constructor
  · rintro ⟨q, hq⟩
    obtain ⟨m, hm, hq⟩ := List.mem_flatMap.1 hq
    obtain ⟨u, hu, hr, -⟩ := (mem_ends atEnd hr _ m).1 hm
    rw [ends_stop] at hq
    split at hq
    · rename_i he
      exact ⟨u, m.rest, hr, hu, he⟩
    · cases hq
  · rintro ⟨u, t, rfl, hu, ht⟩
    refine ⟨⟨u, t⟩, List.mem_flatMap.2 ⟨⟨u, t⟩, ?_, ?_⟩⟩
    · exact (mem_ends atEnd hr _ _).2 ⟨u, hu, rfl, rfl⟩
    · rw [ends_stop, if_pos ht]
      exact List.mem_singleton.2 rfl

/-- An expression that begins with `^` is found nowhere but at the start. -/
theorem search_start (atEnd : List Char → Bool) (r : Regex) (s : List Char) :
    search atEnd (seq start r) s = isMatch atEnd (seq start r) s := by
  rw [Bool.eq_iff_iff, search, List.any_eq_true]
  constructor
  · rintro ⟨n, hn, hm⟩
    rw [List.mem_range] at hn
    cases n with
    | zero => exact hm
    | succ n =>
      have he : (s.take (n + 1)).isEmpty = false := by
        rw [List.isEmpty_eq_false_iff, ← List.length_pos_iff, List.length_take]
        omega
      rw [matchAt, ends_seq, ends_start, he] at hm
      cases hm
  · intro h
    exact ⟨0, List.mem_range.2 (Nat.succ_pos _), h⟩

end Regex
end Obase
