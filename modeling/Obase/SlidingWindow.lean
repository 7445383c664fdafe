import Mathlib.Algebra.Order.Group.Unbundled.Basic
import Mathlib.Algebra.Order.Monoid.Defs
import Mathlib.Data.List.TakeWhile

namespace Obase.SlidingWindow
set_option autoImplicit true

/-- In sorted times, those after a first one that is late enough are late enough. -/
theorem lt_of_mem_dropWhile [LinearOrder T] {cutoff : T} {times : List T}
    (h : times.Pairwise (· ≤ ·)) {x : T} (hx : x ∈ times.dropWhile (· ≤ cutoff)) : cutoff < x := by
  induction times with
  | nil => cases hx
  | cons y ys ih =>
    obtain ⟨hy, hys⟩ := List.pairwise_cons.1 h
    rw [List.dropWhile_cons] at hx
    split at hx
    · exact ih hys hx
    · rename_i hc
      rw [decide_eq_true_eq, not_le] at hc
      rcases List.mem_cons.1 hx with rfl | hx
      · exact hc
      · exact lt_of_lt_of_le hc (hy x hx)

variable {T : Type} [AddCommGroup T] [LinearOrder T]

/-- The times in the half-open window of length `period` that ends at `t`. -/
def window (period t : T) (times : List T) : List T :=
  times.filter fun x => t - period < x ∧ x ≤ t

/-- No window has more than `rate` of the times. -/
def Bounded (rate : Nat) (period : T) (times : List T) : Prop :=
  ∀ t, (window period t times).length ≤ rate

theorem bounded_nil (rate : Nat) (period : T) : Bounded rate period [] :=
  fun _ => Nat.zero_le rate

theorem window_append (period t : T) (xs ys : List T) :
    window period t (xs ++ ys) = window period t xs ++ window period t ys :=
  List.filter_append ..

/-- A window that ends later holds no more of the times up to now. -/
theorem length_window_le [IsOrderedAddMonoid T] {period now t : T} {times : List T} (ht : now ≤ t)
    (hle : ∀ x ∈ times, x ≤ now) :
    (window period t times).length ≤ (window period now times).length := by
  rw [window, window, ← List.countP_eq_length_filter, ← List.countP_eq_length_filter]
  apply List.countP_mono_left
  intro x hx h
  rw [decide_eq_true_eq] at h ⊢
  exact ⟨lt_of_le_of_lt (sub_le_sub_right ht period) h.1, hle x hx⟩

/-- One more time is added where the window that ends at it has room. -/
theorem Bounded.append [IsOrderedAddMonoid T] {rate : Nat} {period now : T}
    {times : List T} (h : Bounded rate period times) (hle : ∀ x ∈ times, x ≤ now)
    (hroom : (window period now times).length < rate) : Bounded rate period (times ++ [now]) := by
  intro t
  rw [window_append, List.length_append]
  rcases lt_or_ge t now with ht | ht
  · have hnew : window period t [now] = [] := by
      rw [window, List.filter_eq_nil_iff]
      intro x hx
      rw [List.mem_singleton.1 hx, decide_eq_true_eq]
      exact fun hn => absurd hn.2 (not_le_of_gt ht)
    rw [hnew]
    exact h t
  · have hold : (window period t times).length ≤ (window period now times).length :=
      length_window_le ht hle
    have hnew : (window period t [now]).length ≤ 1 := List.length_filter_le ..
    omega

/-- What a window keeps of times whose first part is too old for it. -/
theorem window_of_expired {period now : T} {old rest : List T} (hold : ∀ x ∈ old, x ≤ now - period)
    (hrest : ∀ x ∈ rest, now - period < x ∧ x ≤ now) : window period now (old ++ rest) = rest := by
  have hnone : window period now old = [] := by
    rw [window, List.filter_eq_nil_iff]
    intro x hx
    rw [decide_eq_true_eq]
    exact fun hn => absurd hn.1 (not_lt_of_ge (hold x hx))
  have hall : window period now rest = rest := by
    rw [window, List.filter_eq_self]
    intro x hx
    rw [decide_eq_true_eq]
    exact hrest x hx
  rw [window_append, hnone, hall, List.nil_append]

end Obase.SlidingWindow
