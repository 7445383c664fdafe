import Mathlib.Data.List.Infix
import Obase.Casing

namespace Obase
set_option autoImplicit true

/-- Two characters alike but for the case of ASCII letters. -/
def sameLetter (a b : Char) : Bool := a.toLower == b.toLower

/-- `cs LIKE ps`: `%` stands for any characters and `_` for one. -/
def like : List Char → List Char → Bool
  | [], cs => cs.isEmpty
  | p :: ps, cs =>
    if p = '%' then cs.tails.any (like ps)
    else
      match cs with
      | [] => false
      | c :: cs => (p = '_' || sameLetter p c) && like ps cs

theorem like_percent {ps cs : List Char} :
    like ('%' :: ps) cs = true ↔ ∃ t, t <:+ cs ∧ like ps t = true := by
  rw [like.eq_def]
  dsimp only
  rw [if_pos rfl, List.any_eq_true]
  simp only [List.mem_tails]

theorem like_cons {p : Char} (hp : p ≠ '%') {ps cs : List Char} :
    like (p :: ps) cs = true ↔
      ∃ c ds, cs = c :: ds ∧ (p = '_' ∨ sameLetter p c = true) ∧ like ps ds = true := by
  rw [like.eq_def]
  dsimp only
  rw [if_neg hp]
  cases cs with
  | nil => exact ⟨fun h => (nomatch h), fun ⟨_, _, h, _⟩ => (nomatch h)⟩
  | cons c cs =>
    rw [Bool.and_eq_true, Bool.or_eq_true, decide_eq_true_eq]
    constructor
    · exact fun h => ⟨c, cs, rfl, h⟩
    · rintro ⟨_, _, he, h⟩
      cases he
      exact h

theorem like_rest (cs : List Char) : like ['%'] cs = true :=
  like_percent.2 ⟨[], List.nil_suffix, rfl⟩

/-- A text is like every pattern that a beginning of it makes. -/
theorem like_of_startsWith {ps cs : List Char} (h : ps <+: cs) : like (ps ++ ['%']) cs = true := by
  obtain ⟨ds, rfl⟩ := h
  induction ps with
  | nil => exact like_rest _
  | cons p ps ih =>
    by_cases hp : p = '%'
    · subst hp
      exact like_percent.2 ⟨ps ++ ds, List.suffix_cons _ _, ih⟩
    · exact (like_cons hp).2 ⟨p, ps ++ ds, rfl, .inr (beq_self_eq_true _), ih⟩

/-- A character that stands for itself only. -/
def Literal (p : Char) : Prop := p ≠ '%' ∧ p ≠ '_' ∧ ∀ c, sameLetter p c = true → p = c

/-- A pattern of characters that stand for themselves is like what begins with it. -/
theorem like_literal_iff {ps cs : List Char} (h : ∀ p ∈ ps, Literal p) :
    like (ps ++ ['%']) cs = true ↔ ps <+: cs := by
  refine ⟨fun hl => ?_, like_of_startsWith⟩
  induction ps generalizing cs with
  | nil => exact List.nil_prefix
  | cons p ps ih =>
    rw [List.forall_mem_cons] at h
    obtain ⟨⟨hpercent, hunderscore, hsame⟩, hps⟩ := h
    obtain ⟨c, ds, rfl, hc, hds⟩ := (like_cons hpercent).1 hl
    obtain rfl := hsame c (hc.resolve_left hunderscore)
    exact (List.prefix_cons_inj _).2 (ih hps hds)

/-- Digits and most signs stand for themselves. -/
theorem literal_of_toLower {p : Char} (hp : p ≠ '%') (hu : p ≠ '_') (hl : p.isAlpha = false) :
    Literal p := by
  refine ⟨hp, hu, fun c h => ?_⟩
  obtain ⟨hup, hlow⟩ : p.isUpper = false ∧ p.isLower = false := Bool.or_eq_false_iff.1 hl
  have hself : p.toLower = p := by
    exact dif_neg (of_decide_eq_false hup)
  rw [sameLetter, beq_iff_eq, hself] at h
  obtain hc | hc := Casing.toLower_eq_or_isLower c
  · exact h.trans hc
  · rw [← h, hlow] at hc
    cases hc

end Obase
