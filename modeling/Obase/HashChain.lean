import Mathlib.Data.List.Forall2
import Mathlib.Data.List.Induction

namespace Obase.HashChain
set_option autoImplicit true

variable {α δ : Type}

/-- Rows chained by their digests: `link p i r` holds between a row, the digest before it and its
position, the first of which are given. -/
def Chained (link : δ → Nat → α → Prop) (digest : α → δ) : δ → Nat → List α → Prop
  | _, _, [] => True
  | p, i, r :: rs => link p i r ∧ Chained link digest (digest r) (i + 1) rs

/-- The digest that the next row is linked to. -/
def headDigest (digest : α → δ) (p : δ) (rs : List α) : δ := (rs.getLast?.map digest).getD p

@[simp] theorem headDigest_nil (digest : α → δ) (p : δ) : headDigest digest p [] = p := rfl

@[simp] theorem headDigest_concat (digest : α → δ) (p : δ) (rs : List α) (r : α) :
    headDigest digest p (rs ++ [r]) = digest r := by
  simp [headDigest]

theorem headDigest_cons (digest : α → δ) (p : δ) (r : α) (rs : List α) :
    headDigest digest p (r :: rs) = headDigest digest (digest r) rs := by
  cases rs with
  | nil => rfl
  | cons s rs => simp [headDigest, List.getLast?_cons]

variable {link : δ → Nat → α → Prop} {digest : α → δ}

theorem chained_append {p : δ} {i : Nat} {rs ss : List α} :
    Chained link digest p i (rs ++ ss) ↔
      Chained link digest p i rs ∧
        Chained link digest (headDigest digest p rs) (i + rs.length) ss := by
  induction rs generalizing p i with
  | nil => simp [Chained]
  | cons r rs ih =>
    rw [List.cons_append, Chained, Chained, ih, headDigest_cons, List.length_cons, and_assoc,
      Nat.add_right_comm, Nat.add_assoc i]

theorem chained_concat {p : δ} {i : Nat} {rs : List α} {r : α} :
    Chained link digest p i (rs ++ [r]) ↔
      Chained link digest p i rs ∧ link (headDigest digest p rs) (i + rs.length) r := by
  rw [chained_append]
  simp [Chained]

theorem Chained.forall {P : α → Prop} {p : δ} {i : Nat} {rs : List α}
    (h : Chained link digest p i rs) (hl : ∀ p i r, link p i r → P r) : ∀ r ∈ rs, P r := by
  induction rs generalizing p i with
  | nil => simp
  | cons r rs ih =>
    intro s hs
    rcases List.mem_cons.1 hs with rfl | hs
    · exact hl _ _ _ h.1
    · exact ih h.2 s hs

/-- A link is binding on a row when no link that reaches the same digest from another row says
anything else. -/
def Binding (link : δ → Nat → α → Prop) (digest : α → δ) (agree : α → α → Prop) (r : α) : Prop :=
  ∀ p i p' i' r', link p i r → link p' i' r' → digest r = digest r' →
    p = p' ∧ i = i' ∧ agree r r'

/-- A chain whose links are binding is determined by its last digest. -/
theorem Chained.agree {agree : α → α → Prop} {g : δ} {rs ss : List α}
    (hr : Chained link digest g 0 rs) (hs : Chained link digest g 0 ss)
    (hb : ∀ r ∈ rs, Binding link digest agree r) (hr₀ : rs ≠ []) (hs₀ : ss ≠ [])
    (he : headDigest digest g rs = headDigest digest g ss) : List.Forall₂ agree rs ss := by
  induction rs using List.reverseRecOn generalizing ss with
  | nil => exact (hr₀ rfl).elim
  | append_singleton rs r ih =>
    obtain ⟨ss, s, rfl⟩ : ∃ ss' s, ss = ss' ++ [s] :=
      ⟨_, _, (List.dropLast_append_getLast hs₀).symm⟩
    rw [headDigest_concat, headDigest_concat] at he
    obtain ⟨hr, hlr⟩ := chained_concat.1 hr
    obtain ⟨hs, hls⟩ := chained_concat.1 hs
    obtain ⟨hp, hi, ha⟩ := hb r (by simp) _ _ _ _ _ hlr hls he
    refine List.rel_append ?_ (.cons ha .nil)
    have hlen : rs.length = ss.length := by omega
    cases rs with
    | nil =>
      rw [List.eq_nil_of_length_eq_zero hlen.symm]
      exact .nil
    | cons a as =>
      refine ih hr hs (fun x hx => hb x (List.mem_append.2 (.inl hx))) (by simp) ?_ hp
      rintro rfl
      cases hlen

end Obase.HashChain
