import Mathlib.Tactic.Linarith
import Obase.RateLimit

namespace Obase.RateLimit
set_option autoImplicit true

deriving instance DecidableEq for RateLimiter, RateLimitExceeded

/-- A call of `acquire`, with the time at which it is made. -/
structure Call where
  start : ℚ
  timeout : Option ℚ
deriving DecidableEq

def Call.limit (c : Call) : Option Limit := c.timeout.map fun d => ⟨d, c.start + d⟩

/-- What a `Task` is, with the times at which it got the lock, will wake and was over. -/
inductive TimedTask where
  | waiting (c : Call)
  | sleeping (c : Call) (locked wake : ℚ)
  | granted (c : Call) (locked time : ℚ)
  | raised (c : Call) (locked time : ℚ) (e : RateLimitExceeded)
  | cancelled
deriving DecidableEq

/-- A `Loop` whose tasks run when they can: a round takes no time, and the clock moves while there
is none to run. -/
structure Timed where
  limiter : RateLimiter
  lock : Option Nat
  tasks : List TimedTask
  clock : ℚ
  grants : List ℚ
deriving DecidableEq

namespace Timed

def start (l : RateLimiter) (clock : ℚ) : Timed := ⟨l, none, [], clock, []⟩

/-- A round of a call that got the lock at this time. -/
def round (s : Timed) (i : Nat) (c : Call) (locked : ℚ) : Timed :=
  match s.limiter.round c.limit s.clock s.clock with
  | (l, .granted) =>
    ⟨l, none, s.tasks.set i (.granted c locked s.clock), s.clock, s.grants ++ [s.clock]⟩
  | (l, .exceeded e) =>
    ⟨l, none, s.tasks.set i (.raised c locked s.clock e), s.clock, s.grants⟩
  | (l, .sleep d) =>
    ⟨l, some i, s.tasks.set i (.sleeping c locked (s.clock + d)), s.clock, s.grants⟩

/-- The steps: time passes up to the end of a sleep and while no call can take the lock, or a call
takes the step of a `Loop`, a sleep being over exactly at its end. -/
inductive Step (s : Timed) : Option Act → Timed → Prop
  | pass (ht : s.clock ≤ t) (hl : s.lock = none → ∀ c, .waiting c ∉ s.tasks)
      (hw : ∀ c locked wake, .sleeping c locked wake ∈ s.tasks → t ≤ wake) :
      Step s none { s with clock := t }
  | call (timeout : Option ℚ) :
      Step s (some (.call timeout s.clock))
        { s with tasks := s.tasks ++ [.waiting ⟨s.clock, timeout⟩] }
  | enter (hi : s.tasks[i]? = some (.waiting c)) (hl : s.lock = none) :
      Step s (some (.enter i s.clock s.clock)) (s.round i c s.clock)
  | wake (hi : s.tasks[i]? = some (.sleeping c locked s.clock)) :
      Step s (some (.wake i s.clock s.clock)) (s.round i c locked)
  | cancelWaiting (hi : s.tasks[i]? = some (.waiting c)) :
      Step s (some (.cancel i)) { s with tasks := s.tasks.set i .cancelled }
  | cancelSleeping (hi : s.tasks[i]? = some (.sleeping c locked wake)) :
      Step s (some (.cancel i)) { s with tasks := s.tasks.set i .cancelled, lock := none }

end Timed

namespace TimedTask

def call : TimedTask → Option Call
  | waiting c | sleeping c _ _ | granted c _ _ | raised c _ _ _ => some c
  | cancelled => none

/-- The call is over by the deadline, or is not over and has not passed it. -/
def InTime (clock deadline : ℚ) : TimedTask → Prop
  | waiting _ | sleeping _ _ _ => clock ≤ deadline
  | granted _ _ time | raised _ _ time _ => time ≤ deadline
  | cancelled => True

/-- The time at which the wait of the call for the lock has ended, or up to which it has lasted. -/
def lockTime (clock : ℚ) : TimedTask → ℚ
  | waiting _ | cancelled => clock
  | sleeping _ locked _ | granted _ locked _ | raised _ locked _ _ => locked

/-- The clock has not gone past this time for a call that got the lock by its deadline. -/
def Kept (c : Call) (locked time : ℚ) : Prop :=
  locked ≤ time ∧ ∀ d, c.timeout = some d → locked ≤ c.start + d → time ≤ c.start + d

/-- What holds of a call in every run. -/
def Ok (clock : ℚ) : TimedTask → Prop
  | waiting _ | cancelled => True
  | sleeping c locked wake =>
    locked ≤ clock ∧ clock ≤ wake ∧ ∀ d, c.timeout = some d → wake ≤ c.start + d
  | granted c locked time | raised c locked time _ => Kept c locked time

theorem Ok.inTime_iff {t : TimedTask} {clock : ℚ} (h : t.Ok clock) {c : Call}
    (hc : t.call = some c) {d : ℚ} (hd : c.timeout = some d) :
    t.InTime clock (c.start + d) ↔ t.lockTime clock ≤ c.start + d := by
  cases t with
  | waiting c' => exact Iff.rfl
  | cancelled => cases hc
  | sleeping c' locked wake =>
    cases hc
    obtain ⟨hl, hw, hd'⟩ := h
    have hclock := le_trans hw (hd' d hd)
    exact ⟨fun _ => le_trans hl hclock, fun _ => hclock⟩
  | granted c' locked time =>
    cases hc
    exact ⟨fun ht => le_trans h.1 ht, h.2 d hd⟩
  | raised c' locked time e =>
    cases hc
    exact ⟨fun ht => le_trans h.1 ht, h.2 d hd⟩

/-- The call as one of a `Loop`. -/
def untimed : TimedTask → Task
  | waiting c => .waiting c.limit
  | sleeping c _ _ => .sleeping c.limit
  | granted _ _ _ => .granted
  | raised _ _ _ e => .raised e
  | cancelled => .cancelled

end TimedTask

/-- A sleep ends later than it begins, and by the deadline. -/
theorem RateLimiter.round_sleep {l l' : RateLimiter} {limit : Option Limit} {now d : ℚ}
    (h : l.round limit now now = (l', .sleep d)) :
    now ≤ now + d ∧ ∀ m, limit = some m → now + d ≤ m.deadline := by
  rw [round] at h
  split at h
  · cases h
  · rename_i hroom
    have hkept : now - l.period < (l.kept now).head (kept_ne_nil hroom) := by
      have hhead := List.head_dropWhile_not (· ≤ now - l.period) (kept_ne_nil hroom)
      exact not_le.1 (of_decide_eq_false hhead)
    have hpos : (0 : ℚ) < (l.kept now).head (kept_ne_nil hroom) + l.period - now + 1 / 10000 := by
      linarith
    cases limit with
    | none =>
      cases h
      refine ⟨by linarith, fun m hm => ?_⟩
      cases hm
    | some m =>
      dsimp only at h
      split at h
      · cases h
      · rename_i hle
        cases h
        refine ⟨by linarith, fun m' hm => ?_⟩
        cases hm
        exact not_lt.1 hle

namespace Timed

/-- A round of a call that is still in time leaves all calls as they have to be. -/
theorem round_ok {s : Timed} {i : Nat} {c : Call} {locked : ℚ}
    (h : ∀ t ∈ s.tasks, t.Ok s.clock) (hk : TimedTask.Kept c locked s.clock) :
    ∀ t ∈ (s.round i c locked).tasks, t.Ok (s.round i c locked).clock := by
  have hset {t : TimedTask} (ht : t.Ok s.clock) : ∀ u ∈ s.tasks.set i t, u.Ok s.clock := by
    intro u hu
    obtain hu | rfl := List.mem_or_eq_of_mem_set hu
    · exact h u hu
    · exact ht
  rw [round]
  cases hr : s.limiter.round c.limit s.clock s.clock with
  | mk l r =>
    cases r with
    | granted => exact hset hk
    | exceeded e => exact hset hk
    | sleep d =>
      obtain ⟨hle, hd⟩ := RateLimiter.round_sleep hr
      refine hset ⟨hk.1, hle, fun d' hd' => ?_⟩
      have hlimit : c.limit = some ⟨d', c.start + d'⟩ := by rw [Call.limit, hd', Option.map_some]
      exact hd _ hlimit

/-- A step keeps what holds of the calls. -/
theorem Step.ok {s s' : Timed} {a : Option Act} (hs : Step s a s')
    (h : ∀ t ∈ s.tasks, t.Ok s.clock) : ∀ t ∈ s'.tasks, t.Ok s'.clock := by
  cases hs with
  | pass ht hl hw =>
    intro t hm
    have hok := h t hm
    cases t with
    | sleeping c locked wake =>
      exact ⟨le_trans hok.1 ht, hw c locked wake hm, hok.2.2⟩
    | waiting c => trivial
    | cancelled => trivial
    | granted c locked time => exact hok
    | raised c locked time e => exact hok
  | call timeout =>
    intro t hm
    obtain hm | hm := List.mem_append.1 hm
    · exact h t hm
    · rw [List.mem_singleton.1 hm]
      trivial
  | enter hi hl => exact round_ok h ⟨le_refl _, fun _ _ hle => hle⟩
  | @wake i c locked hi =>
    obtain ⟨hl, -, hd⟩ := h _ (List.mem_of_getElem? hi)
    exact round_ok h ⟨hl, fun d hd' _ => hd d hd'⟩
  | cancelWaiting hi =>
    intro t hm
    obtain hm | rfl := List.mem_or_eq_of_mem_set hm
    · exact h t hm
    · trivial
  | cancelSleeping hi =>
    intro t hm
    obtain hm | rfl := List.mem_or_eq_of_mem_set hm
    · exact h t hm
    · trivial

/-- In every run a call meets its deadline exactly when it does not wait for the lock past it. -/
theorem inTime_iff_lockTime {l : RateLimiter} {clock : ℚ} {s : Timed}
    (h : Run.Reaches Step (fun _ _ => True) (start l clock) s) :
    ∀ t ∈ s.tasks, ∀ c, t.call = some c → ∀ d, c.timeout = some d →
      (t.InTime s.clock (c.start + d) ↔ t.lockTime s.clock ≤ c.start + d) := by
  have hok : ∀ t ∈ s.tasks, t.Ok s.clock :=
    h.invariant (I := fun s => ∀ t ∈ s.tasks, t.Ok s.clock) (List.forall_mem_nil _)
      fun _ _ _ hI _ hs => hs.ok hI
  exact fun t ht c hc d hd => (hok t ht).inTime_iff hc hd

/-- A call that gets the lock as it is made. -/
theorem inTime_iff_lockTime_one : ∃ s, Run.Reaches Step (fun _ _ => True) (start oneLimiter 0) s ∧
    ∀ t ∈ s.tasks, ∀ c, t.call = some c → ∀ d, c.timeout = some d →
      (t.InTime s.clock (c.start + d) ↔ t.lockTime s.clock ≤ c.start + d) := by
  have h₁ : Run.Reaches Step (fun _ _ => True) (start oneLimiter 0) _ :=
    (Run.Reaches.refl _).tail trivial (.call (some 0))
  have h₂ := h₁.tail trivial (.enter (i := 0) rfl rfl)
  exact ⟨_, h₂, inTime_iff_lockTime h₂⟩

theorem ten_pos : (0 : ℚ) < 10 := by decide

/-- One slot in ten seconds. -/
def slowLimiter : RateLimiter := ⟨1, 10, [], Int.one_pos, ten_pos⟩

/-- A call with a timeout of a second raises after ten, when the call that has slept with the lock
lets it go. -/
theorem raised_after_deadline : ∃ s,
    Run.Reaches Step (fun _ _ => True) (start slowLimiter 0) s ∧
      ∃ t ∈ s.tasks, t.call = some ⟨0, some 1⟩ ∧ ¬ t.InTime s.clock (0 + 1) := by
  let wake : ℚ := 10 + 1 / 10000
  let l : RateLimiter := { slowLimiter with timestamps := [0] }
  let l' : RateLimiter := { slowLimiter with timestamps := [wake] }
  let first : TimedTask := .granted ⟨0, none⟩ 0 0
  let second : TimedTask := .granted ⟨0, none⟩ 0 wake
  have e₁ : round ⟨slowLimiter, none, [.waiting ⟨0, none⟩], 0, []⟩ 0 ⟨0, none⟩ 0 =
      ⟨l, none, [first], 0, [0]⟩ := by decide +kernel
  have e₂ : round ⟨l, none, [first, .waiting ⟨0, none⟩], 0, [0]⟩ 1 ⟨0, none⟩ 0 =
      ⟨l, some 1, [first, .sleeping ⟨0, none⟩ 0 wake], 0, [0]⟩ := by decide +kernel
  have h₁ : Run.Reaches Step (fun _ _ => True) (start slowLimiter 0) ⟨l, none, [first], 0, [0]⟩ :=
    e₁ ▸ ((Run.Reaches.refl _).tail trivial (.call none)).tail trivial (.enter (i := 0) rfl rfl)
  have h₂ : Run.Reaches Step (fun _ _ => True) (start slowLimiter 0)
      ⟨l, some 1, [first, .sleeping ⟨0, none⟩ 0 wake], 0, [0]⟩ :=
    e₂ ▸ (h₁.tail trivial (.call none)).tail trivial (.enter (i := 1) rfl rfl)
  have h₃ := h₂.tail trivial (.call (some 1))
  have h₄ := h₃.tail trivial (.pass (t := wake) (by decide +kernel) (fun hl => by cases hl)
    fun c locked w hm => by
      simp only [first, List.cons_append, List.nil_append, List.mem_cons, List.not_mem_nil,
        reduceCtorEq, TimedTask.sleeping.injEq, or_false, false_or] at hm
      exact hm.2.2 ▸ le_refl _)
  have e₃ : round ⟨l, some 1, [first, .sleeping ⟨0, none⟩ 0 wake, .waiting ⟨0, some 1⟩], wake,
      [0]⟩ 1 ⟨0, none⟩ 0 = ⟨l', none, [first, second, .waiting ⟨0, some 1⟩], wake, [0, wake]⟩ := by
    decide +kernel
  have e₄ : round ⟨l', none, [first, second, .waiting ⟨0, some 1⟩], wake, [0, wake]⟩ 2
      ⟨0, some 1⟩ wake = ⟨l', none, [first, second, .raised ⟨0, some 1⟩ wake wake ⟨1, 10, 1⟩], wake,
        [0, wake]⟩ := by
    decide +kernel
  have h₅ : Run.Reaches Step (fun _ _ => True) (start slowLimiter 0)
      ⟨l', none, [first, second, .waiting ⟨0, some 1⟩], wake, [0, wake]⟩ :=
    e₃ ▸ h₄.tail trivial (.wake (i := 1) rfl)
  refine ⟨_, e₄ ▸ h₅.tail trivial (.enter (i := 2) rfl rfl),
    .raised ⟨0, some 1⟩ wake wake ⟨1, 10, 1⟩, by simp, rfl, ?_⟩
  show ¬ wake ≤ 0 + 1
  decide +kernel

/-- The state of the loop, which knows no ends of sleeps. -/
def untimed (s : Timed) : Loop :=
  ⟨s.limiter, s.lock, s.tasks.map TimedTask.untimed, s.clock, s.grants⟩

theorem round_untimed (s : Timed) (i : Nat) (c : Call) (locked : ℚ) :
    (s.round i c locked).untimed = s.untimed.round i c.limit s.clock s.clock := by
  have hl : s.untimed.limiter.round c.limit s.clock s.clock =
      s.limiter.round c.limit s.clock s.clock := rfl
  rw [round, Loop.round, hl]
  obtain ⟨l, _ | e | d⟩ := s.limiter.round c.limit s.clock s.clock
  · simp only [untimed, List.map_set, TimedTask.untimed]
  · simp only [untimed, List.map_set, TimedTask.untimed]
  · simp only [untimed, List.map_set, TimedTask.untimed]

theorem getElem?_untimed {s : Timed} {i : Nat} {t : TimedTask} (h : s.tasks[i]? = some t) :
    s.untimed.tasks[i]? = some t.untimed := by
  rw [untimed, List.getElem?_map, h, Option.map_some]

/-- A step is one of the loop, or time that passes. -/
theorem Step.untimed {s s' : Timed} {a : Option Act} (hs : Step s a s') {clock : ℚ} {u : Loop}
    (hc : clock ≤ s.clock)
    (h : Run.Reaches RateLimit.Step (fun _ _ => True) u { s.untimed with clock := clock }) :
    ∃ clock' ≤ s'.clock,
      Run.Reaches RateLimit.Step (fun _ _ => True) u { s'.untimed with clock := clock' } := by
  cases hs with
  | pass ht => exact ⟨clock, le_trans hc ht, h⟩
  | call timeout =>
    refine ⟨s.clock, le_refl _, ?_⟩
    have hcall := h.tail (a := .call timeout s.clock) trivial (.call hc)
    rwa [Timed.untimed, List.map_append]
  | @enter i c hi hl =>
    refine ⟨_, le_refl _, ?_⟩
    have hround := h.tail trivial (.enter (getElem?_untimed hi) hl hc (le_refl _))
    show Run.Reaches RateLimit.Step (fun _ _ => True) u (s.round i c s.clock).untimed
    rw [round_untimed]
    exact hround
  | @wake i c locked hi =>
    refine ⟨_, le_refl _, ?_⟩
    have hround := h.tail trivial (.wake (getElem?_untimed hi) hc (le_refl _))
    show Run.Reaches RateLimit.Step (fun _ _ => True) u (s.round i c locked).untimed
    rw [round_untimed]
    exact hround
  | cancelWaiting hi =>
    refine ⟨clock, hc, ?_⟩
    have hcancel := h.tail trivial (.cancelWaiting (getElem?_untimed hi))
    rwa [Timed.untimed, List.map_set]
  | cancelSleeping hi =>
    refine ⟨clock, hc, ?_⟩
    have hcancel := h.tail trivial (.cancelSleeping (getElem?_untimed hi))
    rwa [Timed.untimed, List.map_set]

/-- Every run with a clock is a run of the loop. -/
theorem reaches_untimed {l : RateLimiter} {clock : ℚ} {s : Timed}
    (h : Run.Reaches Step (fun _ _ => True) (start l clock) s) :
    ∃ clock' ≤ s.clock, Run.Reaches RateLimit.Step (fun _ _ => True) (Loop.start l clock)
      { s.untimed with clock := clock' } := by
  refine h.invariant (I := fun s => ∃ clock' ≤ s.clock, Run.Reaches RateLimit.Step
    (fun _ _ => True) (Loop.start l clock) { s.untimed with clock := clock' })
    ⟨clock, le_refl clock, .refl _⟩ ?_
  rintro s a t ⟨clock', hc, hr⟩ - hs
  exact hs.untimed hc hr

end Timed
end Obase.RateLimit
