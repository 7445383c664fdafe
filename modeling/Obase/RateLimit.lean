import Mathlib.Algebra.Order.Ring.Rat
import Obase.Run
import Obase.SlidingWindow

namespace Obase.RateLimit
set_option autoImplicit true
open SlidingWindow

/-- `RateLimiter`, with its times in seconds of the monotonic clock. -/
structure RateLimiter where
  rate : Int
  period : ℚ
  timestamps : List ℚ
  rate_pos : 0 < rate
  period_pos : 0 < period

/-- `RateLimiter.__init__`, which raises a `ValueError`. -/
def RateLimiter.new (rate : Int) (periodSeconds : ℚ) : Except String RateLimiter :=
  if hr : rate ≤ 0 then .error "rate must be > 0"
  else if hp : periodSeconds ≤ 0 then .error "period_seconds must be > 0"
  else .ok ⟨rate, periodSeconds, [], not_le.1 hr, not_le.1 hp⟩

/-- The timeout of a call of `acquire`, and the time at which it has elapsed. -/
structure Limit where
  timeout : ℚ
  deadline : ℚ

/-- What `RateLimitExceeded` tells of. -/
structure RateLimitExceeded where
  rate : Int
  period : ℚ
  timeout : ℚ

inductive Round where
  | granted
  | exceeded (e : RateLimitExceeded)
  | sleep (seconds : ℚ)

/-- The timestamps that the inner loop leaves. -/
def RateLimiter.kept (l : RateLimiter) (now : ℚ) : List ℚ :=
  l.timestamps.dropWhile (· ≤ now - l.period)

theorem RateLimiter.kept_ne_nil {l : RateLimiter} {now : ℚ}
    (h : ¬ ((l.kept now).length : Int) < l.rate) : l.kept now ≠ [] := by
  intro he
  rw [he] at h
  exact h l.rate_pos

/-- One round of the loop of `acquire`, which reads the clock a second time where it has to wait. -/
def RateLimiter.round (l : RateLimiter) (limit : Option Limit) (now later : ℚ) :
    RateLimiter × Round :=
  if h : ((l.kept now).length : Int) < l.rate then
    ({ l with timestamps := l.kept now ++ [now] }, .granted)
  else
    let sleepFor := (l.kept now).head (kept_ne_nil h) + l.period - now + 1 / 10000
    match limit with
    | some limit =>
      if later + sleepFor > limit.deadline then
        ({ l with timestamps := l.kept now }, .exceeded ⟨l.rate, l.period, limit.timeout⟩)
      else
        ({ l with timestamps := l.kept now }, .sleep sleepFor)
    | none => ({ l with timestamps := l.kept now }, .sleep sleepFor)

/-- A call of `acquire`: it waits for the lock, sleeps with it, or is over. -/
inductive Task where
  | waiting (limit : Option Limit)
  | sleeping (limit : Option Limit)
  | granted
  | raised (e : RateLimitExceeded)
  | cancelled

/-- The calls of `acquire` on a limiter, its lock, the last reading of the clock and the times at
which a slot was granted. -/
structure Loop where
  limiter : RateLimiter
  lock : Option Nat
  tasks : List Task
  clock : ℚ
  grants : List ℚ

def Loop.start (l : RateLimiter) (clock : ℚ) : Loop := ⟨l, none, [], clock, []⟩

/-- A round of the call, which keeps the lock only over a sleep. -/
def Loop.round (s : Loop) (i : Nat) (limit : Option Limit) (now later : ℚ) : Loop :=
  match s.limiter.round limit now later with
  | (l, .granted) => ⟨l, none, s.tasks.set i .granted, now, s.grants ++ [now]⟩
  | (l, .exceeded e) => ⟨l, none, s.tasks.set i (.raised e), later, s.grants⟩
  | (l, .sleep _) => ⟨l, some i, s.tasks.set i (.sleeping limit), later, s.grants⟩

inductive Act where
  | call (timeout : Option ℚ) (now : ℚ)
  | enter (i : Nat) (now later : ℚ)
  | wake (i : Nat) (now later : ℚ)
  | cancel (i : Nat)

/-- What runs between two awaits of a call. A free lock is taken by any call that waits for it, and
a sleep may last for any time. -/
inductive Step (s : Loop) : Act → Loop → Prop
  | call (hn : s.clock ≤ now) :
      Step s (.call timeout now)
        { s with tasks := s.tasks ++ [.waiting (timeout.map fun d => ⟨d, now + d⟩)], clock := now }
  | enter (hi : s.tasks[i]? = some (.waiting limit)) (hl : s.lock = none) (hn : s.clock ≤ now)
      (hn' : now ≤ later) : Step s (.enter i now later) (s.round i limit now later)
  | wake (hi : s.tasks[i]? = some (.sleeping limit)) (hn : s.clock ≤ now) (hn' : now ≤ later) :
      Step s (.wake i now later) (s.round i limit now later)
  | cancelWaiting (hi : s.tasks[i]? = some (.waiting limit)) :
      Step s (.cancel i) { s with tasks := s.tasks.set i .cancelled }
  | cancelSleeping (hi : s.tasks[i]? = some (.sleeping limit)) :
      Step s (.cancel i) { s with tasks := s.tasks.set i .cancelled, lock := none }

/-- The deque holds the last of the granted times, and the others are out of every later window. -/
structure Loop.Sound (s : Loop) : Prop where
  sorted : s.grants.Pairwise (· ≤ ·)
  past : ∀ x ∈ s.grants, x ≤ s.clock
  split : ∃ old, s.grants = old ++ s.limiter.timestamps ∧ ∀ x ∈ old, x ≤ s.clock - s.limiter.period
  bounded : Bounded s.limiter.rate.toNat s.limiter.period s.grants

theorem Loop.start_sound {l : RateLimiter} (h : l.timestamps = []) (clock : ℚ) :
    (Loop.start l clock).Sound where
  sorted := .nil
  past _ hx := nomatch hx
  split := ⟨[], h.symm, fun _ hx => nomatch hx⟩
  bounded := bounded_nil _ _

/-- What pruning at a later time leaves are the granted times of the window that ends then. -/
theorem Loop.Sound.kept {s : Loop} (h : s.Sound) {now : ℚ} (hn : s.clock ≤ now) :
    ∃ old, s.grants = old ++ s.limiter.kept now ∧ (∀ x ∈ old, x ≤ now - s.limiter.period) ∧
      window s.limiter.period now s.grants = s.limiter.kept now := by
  obtain ⟨old, he, hold⟩ := h.split
  have hp := List.takeWhile_append_dropWhile (p := (· ≤ now - s.limiter.period))
    (l := s.limiter.timestamps)
  have hsorted : s.limiter.timestamps.Pairwise (· ≤ ·) := by
    have hs := h.sorted
    rw [he] at hs
    exact (List.pairwise_append.1 hs).2.1
  have hsplit : s.grants = old ++ s.limiter.timestamps.takeWhile (· ≤ now - s.limiter.period) ++
      s.limiter.kept now := by
    rw [List.append_assoc, RateLimiter.kept, hp]
    exact he
  have hexpired : ∀ x ∈ old ++ s.limiter.timestamps.takeWhile (· ≤ now - s.limiter.period),
      x ≤ now - s.limiter.period := by
    intro x hx
    rcases List.mem_append.1 hx with hx | hx
    · exact le_trans (hold x hx) (sub_le_sub_right hn _)
    · have hp := List.mem_takeWhile_imp hx
      exact of_decide_eq_true hp
  refine ⟨_, hsplit, hexpired, ?_⟩
  rw [hsplit]
  apply window_of_expired hexpired
  intro x hx
  refine ⟨lt_of_mem_dropWhile hsorted hx, le_trans (h.past x ?_) hn⟩
  rw [hsplit]
  exact List.mem_append_right _ hx

/-- What a round does to the limiter: it prunes the deque, and adds the time of a grant where there
is room. -/
theorem RateLimiter.round_cases (l : RateLimiter) (limit : Option Limit) (now later : ℚ) :
    (((l.kept now).length : Int) < l.rate ∧
      l.round limit now later = ({ l with timestamps := l.kept now ++ [now] }, .granted)) ∨
    ∃ r, r ≠ .granted ∧ l.round limit now later = ({ l with timestamps := l.kept now }, r) := by
  by_cases h : ((l.kept now).length : Int) < l.rate
  · exact .inl ⟨h, by rw [round, dif_pos h]⟩
  · apply Or.inr
    rw [round, dif_neg h]
    cases limit with
    | none =>
      refine ⟨_, ?_, rfl⟩
      intro hr
      cases hr
    | some limit =>
      dsimp only
      split
      · refine ⟨_, ?_, rfl⟩
        intro hr
        cases hr
      · refine ⟨_, ?_, rfl⟩
        intro hr
        cases hr

/-- A later reading of the clock, with the deque pruned at an earlier one. -/
theorem Loop.Sound.pruned {s s' : Loop} {now : ℚ} (h : s.Sound) (hn : s.clock ≤ now)
    (hn' : now ≤ s'.clock) (hl : s'.limiter = { s.limiter with timestamps := s.limiter.kept now })
    (hg : s'.grants = s.grants) : s'.Sound := by
  obtain ⟨old, he, hold, -⟩ := h.kept hn
  constructor
  · rw [hg]
    exact h.sorted
  · intro x hx
    rw [hg] at hx
    exact le_trans (h.past x hx) (le_trans hn hn')
  · refine ⟨old, ?_, fun x hx => ?_⟩
    · rw [hg, hl]
      exact he
    · rw [hl]
      exact le_trans (hold x hx) (sub_le_sub_right hn' _)
  · rw [hg, hl]
    exact h.bounded

/-- A grant is added to the deque and to the granted times. -/
theorem Loop.Sound.granted {s s' : Loop} {now : ℚ} (h : s.Sound) (hn : s.clock ≤ now)
    (hroom : ((s.limiter.kept now).length : Int) < s.limiter.rate) (hc : s'.clock = now)
    (hl : s'.limiter = { s.limiter with timestamps := s.limiter.kept now ++ [now] })
    (hg : s'.grants = s.grants ++ [now]) : s'.Sound := by
  obtain ⟨old, he, hold, hw⟩ := h.kept hn
  have hpast : ∀ x ∈ s.grants, x ≤ now := fun x hx => le_trans (h.past x hx) hn
  constructor
  · rw [hg, List.pairwise_append]
    refine ⟨h.sorted, List.pairwise_singleton .., fun x hx y hy => ?_⟩
    rw [List.mem_singleton.1 hy]
    exact hpast x hx
  · intro x hx
    rw [hg] at hx
    rw [hc]
    rcases List.mem_append.1 hx with hx | hx
    · exact hpast x hx
    · exact le_of_eq (List.mem_singleton.1 hx)
  · refine ⟨old, ?_, fun x hx => ?_⟩
    · rw [hg, hl, he, List.append_assoc]
    · rw [hc, hl]
      exact hold x hx
  · rw [hg, hl]
    apply h.bounded.append hpast
    rw [hw]
    omega

theorem Loop.Sound.round {s : Loop} {now later : ℚ} (h : s.Sound) (hn : s.clock ≤ now)
    (hn' : now ≤ later) (i : Nat) (limit : Option Limit) : (s.round i limit now later).Sound := by
  rw [Loop.round]
  rcases s.limiter.round_cases limit now later with ⟨hroom, hr⟩ | ⟨r, hr', hr⟩
  · rw [hr]
    exact h.granted hn hroom rfl rfl rfl
  · rw [hr]
    cases r with
    | granted => exact absurd rfl hr'
    | exceeded e => exact h.pruned hn hn' rfl rfl
    | sleep d => exact h.pruned hn hn' rfl rfl

theorem Loop.Sound.step {s t : Loop} {a : Act} (h : s.Sound) (hs : Step s a t) : t.Sound := by
  cases hs with
  | call hn =>
    obtain ⟨old, he, hold⟩ := h.split
    exact ⟨h.sorted, fun x hx => le_trans (h.past x hx) hn,
      ⟨old, he, fun x hx => le_trans (hold x hx) (sub_le_sub_right hn _)⟩, h.bounded⟩
  | enter hi hl hn hn' => exact h.round hn hn' _ _
  | wake hi hn hn' => exact h.round hn hn' _ _
  | cancelWaiting hi => exact ⟨h.sorted, h.past, h.split, h.bounded⟩
  | cancelSleeping hi => exact ⟨h.sorted, h.past, h.split, h.bounded⟩

theorem Step.limiter_eq {s t : Loop} {a : Act} (hs : Step s a t) :
    t.limiter.rate = s.limiter.rate ∧ t.limiter.period = s.limiter.period := by
  have hround (i : Nat) (limit : Option Limit) (now later : ℚ) :
      (s.round i limit now later).limiter.rate = s.limiter.rate ∧
        (s.round i limit now later).limiter.period = s.limiter.period := by
    rw [Loop.round]
    rcases s.limiter.round_cases limit now later with ⟨-, hr⟩ | ⟨r, -, hr⟩
    · rw [hr]
      exact ⟨rfl, rfl⟩
    · rw [hr]
      cases r with
      | granted => exact ⟨rfl, rfl⟩
      | exceeded e => exact ⟨rfl, rfl⟩
      | sleep d => exact ⟨rfl, rfl⟩
  cases hs with
  | call hn => exact ⟨rfl, rfl⟩
  | enter hi hl hn hn' => exact hround _ _ _ _
  | wake hi hn hn' => exact hround _ _ _ _
  | cancelWaiting hi => exact ⟨rfl, rfl⟩
  | cancelSleeping hi => exact ⟨rfl, rfl⟩

theorem RateLimiter.new_ok {rate : Int} {period : ℚ} {l : RateLimiter}
    (h : RateLimiter.new rate period = .ok l) :
    l.rate = rate ∧ l.period = period ∧ l.timestamps = [] := by
  rw [RateLimiter.new] at h
  split at h
  · cases h
  · split at h
    · cases h
    · cases h
      exact ⟨rfl, rfl, rfl⟩

/-- In every run of the calls on a new limiter, no window has more granted times than its rate. -/
theorem granted_window_le_rate {rate : Int} {period : ℚ} {l : RateLimiter} {clock : ℚ} {s : Loop}
    (hl : RateLimiter.new rate period = .ok l)
    (h : Run.Reaches Step (fun _ _ => True) (Loop.start l clock) s) (t : ℚ) :
    ((window period t s.grants).length : Int) ≤ rate := by
  obtain ⟨hrate, hperiod, hempty⟩ := RateLimiter.new_ok hl
  have hinv : s.Sound ∧ s.limiter.rate = rate ∧ s.limiter.period = period := by
    apply h.invariant (I := fun s => s.Sound ∧ s.limiter.rate = rate ∧ s.limiter.period = period)
    · exact ⟨Loop.start_sound hempty clock, hrate, hperiod⟩
    · intro s a t hI _ hs
      obtain ⟨hsound, hr, hp⟩ := hI
      obtain ⟨hr', hp'⟩ := hs.limiter_eq
      exact ⟨hsound.step hs, hr'.trans hr, hp'.trans hp⟩
  obtain ⟨hsound, hr, hp⟩ := hinv
  have hb := hsound.bounded t
  rw [hp, hr] at hb
  have hpos := s.limiter.rate_pos
  omega

def oneLimiter : RateLimiter := ⟨1, 1, [], by decide, by decide⟩

theorem new_oneLimiter : RateLimiter.new 1 1 = .ok oneLimiter := by
  rw [RateLimiter.new, dif_neg (by decide), dif_neg (by decide)]
  rfl

/-- A second call is granted a slot of a limiter of one per second as soon as the first is out of
the window. -/
theorem granted_window_le_rate_two : ∃ s,
    Run.Reaches Step (fun _ _ => True) (Loop.start oneLimiter 0) s ∧ s.grants = [0, 1] ∧
      ((window 1 1 s.grants).length : Int) ≤ 1 := by
  have h₁ : Run.Reaches Step (fun _ _ => True) (Loop.start oneLimiter 0) _ :=
    (Run.Reaches.refl _).tail (a := .call none 0) trivial (.call (le_refl 0))
  have h₂ := h₁.tail (a := .enter 0 0 0) trivial (.enter rfl rfl (le_refl 0) (le_refl 0))
  have h₃ := h₂.tail (a := .call none 1) trivial (.call (by decide))
  have h₄ := h₃.tail (a := .enter 1 1 1) trivial (.enter rfl rfl (le_refl 1) (le_refl 1))
  exact ⟨_, h₄, by decide +kernel, granted_window_le_rate new_oneLimiter h₄ 1⟩

end Obase.RateLimit
