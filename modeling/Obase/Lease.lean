import Mathlib.Logic.Function.Basic
import Mathlib.Order.Lattice
import Obase.Run

namespace Obase.Lease
set_option autoImplicit true

variable {ι T : Type}

/-- A lease that a party has until a time, and for each party the time until which it has one by
its own account. -/
structure State (ι T : Type) where
  lease : Option (ι × T)
  entry : ι → Option T
  clock : T

inductive Act (ι T : Type) where
  | acquire (o : ι) (expiry : T)
  | release (o : ι)
  | expire
  | tick (now : T)

/-- A free lease can be acquired, a party releases no lease but its own, and a lease may end at any
time from its expiry on. -/
inductive Step [DecidableEq ι] [LE T] (s : State ι T) : Act ι T → State ι T → Prop
  | acquire (h : s.lease = none) :
      Step s (.acquire o u) { s with
        lease := some (o, u), entry := Function.update s.entry o (some u) }
  | release :
      Step s (.release o) { s with
        lease := s.lease.filter fun l => l.1 ≠ o, entry := Function.update s.entry o none }
  | expire (h : s.lease = some (o, u)) (hu : u ≤ s.clock) : Step s .expire { s with lease := none }
  | tick (h : s.clock ≤ now) : Step s (.tick now) { s with clock := now }

/-- An entry that has not ended is that of the lease. -/
def Sound [LE T] (s : State ι T) : Prop :=
  ∀ o u, s.entry o = some u → s.lease = some (o, u) ∨ u ≤ s.clock

/-- The party has an entry that has not ended. -/
def Live [LT T] (s : State ι T) (o : ι) : Prop :=
  ∃ u, s.entry o = some u ∧ s.clock < u

theorem Sound.step [DecidableEq ι] [LinearOrder T] {s t : State ι T} {a : Act ι T} (h : Sound s)
    (hs : Step s a t) : Sound t := by
  intro o u hu
  cases hs with
  | @acquire p v hnone =>
    dsimp only at hu
    by_cases ho : o = p
    · subst ho
      rw [Function.update_self] at hu
      rw [← Option.some.inj hu]
      exact .inl rfl
    · rw [Function.update_of_ne ho] at hu
      rcases h o u hu with hl | hl
      · rw [hnone] at hl
        cases hl
      · exact .inr hl
  | @release p =>
    dsimp only at hu
    by_cases ho : o = p
    · subst ho
      rw [Function.update_self] at hu
      cases hu
    · rw [Function.update_of_ne ho] at hu
      apply (h o u hu).imp_left
      intro hl
      dsimp only
      rw [hl, Option.filter_some, if_pos (decide_eq_true ho)]
  | expire hl he =>
    rcases h o u hu with hl' | hl'
    · rw [hl] at hl'
      cases hl'
      exact .inr he
    · exact .inr hl'
  | tick hn => exact (h o u hu).imp_right fun hl => le_trans hl hn

/-- At any time at most one party has an entry that has not ended. -/
theorem Sound.exclusive [LinearOrder T] {s : State ι T} (h : Sound s) {o p : ι} (ho : Live s o)
    (hp : Live s p) : o = p := by
  obtain ⟨u, hu, hlt⟩ := ho
  obtain ⟨v, hv, hlt'⟩ := hp
  have hl := (h o u hu).resolve_right (not_le_of_gt hlt)
  have hl' := (h p v hv).resolve_right (not_le_of_gt hlt')
  rw [hl] at hl'
  cases hl'
  rfl

end Obase.Lease
