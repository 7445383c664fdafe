import Mathlib.Algebra.Order.Ring.Rat
import Obase.Run

namespace Obase.CircuitBreaker
set_option autoImplicit true

inductive BreakerState where
  | closed
  | opened
  | halfOpen
deriving DecidableEq

/-- `CircuitBreaker`, with its times in seconds of the monotonic clock. -/
structure Breaker where
  failureThreshold : Int
  recoveryTimeout : ℚ
  failureCount : Int
  state : BreakerState
  openedAt : Option ℚ

/-- `CircuitBreaker.__init__`. -/
def Breaker.new (failureThreshold : Int) (recoveryTimeout : ℚ) : Breaker :=
  ⟨failureThreshold, recoveryTimeout, 0, .closed, none⟩

/-- The recovery timeout has elapsed since the breaker opened. -/
def Breaker.elapsed (b : Breaker) (now : ℚ) : Bool :=
  b.openedAt.any fun t => now - t ≥ b.recoveryTimeout

/-- `_get_state`: the breaker afterwards, whose state is returned. -/
def Breaker.getState (b : Breaker) (now : ℚ) : Breaker :=
  if b.state = .opened ∧ b.elapsed now = true then { b with state := .halfOpen } else b

def Breaker.reset (b : Breaker) : Breaker :=
  { b with state := .closed, failureCount := 0, openedAt := none }

/-- `CircuitBreakerOpenError`. -/
structure CircuitBreakerOpenError where
  failureCount : Int

/-- The state check of `call`. -/
def Breaker.check (b : Breaker) (now : ℚ) : Breaker × Except CircuitBreakerOpenError Unit :=
  let b := b.getState now
  if b.state = .opened then (b, .error ⟨b.failureCount⟩) else (b, .ok ())

def Breaker.succeed (b : Breaker) : Breaker :=
  { b with failureCount := 0, state := .closed, openedAt := none }

def Breaker.fail (b : Breaker) (now : ℚ) : Breaker :=
  let b := { b with failureCount := b.failureCount + 1 }
  if b.state = .halfOpen ∨ b.failureCount ≥ b.failureThreshold then
    { b with state := .opened, openedAt := some now }
  else b

/-- How `func` ends: it returns, it raises an exception that is counted, or it raises
`CircuitBreakerOpenError` or is cancelled. -/
inductive Outcome where
  | success
  | failure
  | passed

def Breaker.update (b : Breaker) (now : ℚ) : Outcome → Breaker
  | .success => b.succeed
  | .failure => b.fail now
  | .passed => b

/-- A moment of a run, by the state of the breaker, the number of its changes of state and the
number of its openings before it. -/
structure Stamp where
  state : BreakerState
  period : Nat
  openings : Nat

inductive Phase where
  | admitted
  | running (started : Stamp)
  | over

/-- An invocation of `call` that passed its state check. -/
structure Call where
  admitted : Stamp
  phase : Phase

/-- A start of `func`, with the breaker at that time. -/
structure Start where
  call : Nat
  period : Nat
  breaker : Breaker
  now : ℚ

structure System where
  breaker : Breaker
  calls : List Call
  clock : ℚ
  periods : Nat
  openings : Nat
  starts : List Start

def System.start (b : Breaker) (clock : ℚ) : System := ⟨b, [], clock, 0, 0, []⟩

def System.stamp (s : System) : Stamp := ⟨s.breaker.state, s.periods, s.openings⟩

/-- The breaker is updated at a time. -/
def System.put (s : System) (b : Breaker) (now : ℚ) : System :=
  { s with
    breaker := b
    clock := now
    periods := if b.state = s.breaker.state then s.periods else s.periods + 1
    openings := if b.state = .opened ∧ s.breaker.state ≠ .opened then s.openings + 1
      else s.openings }

inductive Act where
  | enter (now : ℚ)
  | start (i : Nat) (now : ℚ)
  | finish (i : Nat) (outcome : Outcome) (now : ℚ)
  | read (now : ℚ)
  | reset (now : ℚ)

/-- A step of one of the callers: a state check, a start of `func`, the update after its end, a read
of the state or a reset. -/
inductive Step (s : System) : Act → System → Prop
  | rejected (hn : s.clock ≤ now) (h : s.breaker.check now = (b, .error e)) :
      Step s (.enter now) (s.put b now)
  | admitted (hn : s.clock ≤ now) (h : s.breaker.check now = (b, .ok ())) :
      Step s (.enter now)
        { s.put b now with calls := s.calls ++ [⟨(s.put b now).stamp, .admitted⟩] }
  | start (hn : s.clock ≤ now) (hi : s.calls[i]? = some ⟨a, .admitted⟩) :
      Step s (.start i now) { s with
        calls := s.calls.set i ⟨a, .running s.stamp⟩
        clock := now
        starts := s.starts ++ [⟨i, s.periods, s.breaker, now⟩] }
  | finish (hn : s.clock ≤ now) (hi : s.calls[i]? = some ⟨a, .running st⟩) :
      Step s (.finish i outcome now)
        { s.put (s.breaker.update now outcome) now with calls := s.calls.set i ⟨a, .over⟩ }
  | read (hn : s.clock ≤ now) : Step s (.read now) (s.put (s.breaker.getState now) now)
  | reset (hn : s.clock ≤ now) : Step s (.reset now) (s.put s.breaker.reset now)

theorem getState_cases (b : Breaker) (now : ℚ) :
    b.getState now = b ∨ b.state = .opened ∧ b.elapsed now = true ∧
      b.getState now = { b with state := .halfOpen } := by
  rw [Breaker.getState]
  split
  · rename_i h
    exact .inr ⟨h.1, h.2, rfl⟩
  · exact .inl rfl

theorem check_ok {b b' : Breaker} {now : ℚ} (h : b.check now = (b', .ok ())) :
    b' = b.getState now ∧ b'.state ≠ .opened := by
  rw [Breaker.check] at h
  split at h
  · cases h
  · rename_i hs
    cases h
    exact ⟨rfl, hs⟩

theorem check_elapsed {b : Breaker} {now : ℚ} (hs : b.state = .opened)
    (he : b.elapsed now = true) : b.check now = ({ b with state := .halfOpen }, .ok ()) := by
  have hb : b.getState now = { b with state := .halfOpen } := if_pos ⟨hs, he⟩
  rw [Breaker.check, hb]
  rfl

theorem check_error {b b' : Breaker} {now : ℚ} {e : CircuitBreakerOpenError}
    (h : b.check now = (b', .error e)) : b' = b.getState now ∧ b'.state = .opened := by
  rw [Breaker.check] at h
  split at h
  · rename_i hs
    cases h
    exact ⟨rfl, hs⟩
  · cases h

/-- The call started `func` in half-open state after the latest opening. -/
def System.Probed (s : System) (i : Nat) : Prop :=
  ∃ a st, s.calls[i]? = some ⟨a, .running st⟩ ∧ st.state = .halfOpen ∧ st.openings = s.openings

/-- A step leaves the open state by a reset or by the recovery timeout, and returns to the closed
state by a reset or by the success of a call that was started in half-open state after the latest
opening. (A call for which the breaker stayed closed does not return it there.) -/
structure Lawful (s : System) (a : Act) (t : System) : Prop where
  leaves : s.breaker.state = .opened → t.breaker.state ≠ .opened →
    (∃ now, a = .reset now) ∨ t.breaker.state = .halfOpen ∧ s.breaker.elapsed t.clock = true
  closes : s.breaker.state ≠ .closed → t.breaker.state = .closed →
    (∃ now, a = .reset now) ∨ ∃ i now, a = .finish i .success now ∧ s.Probed i

/-- A call that succeeds while the breaker is not closed started `func` when it was not open, and the
breaker has not opened since. -/
def NotStale (s : System) : Act → Prop
  | .finish i .success _ => ∀ a st, s.calls[i]? = some ⟨a, .running st⟩ →
    s.breaker.state = .closed ∨ st.state ≠ .opened ∧ st.openings = s.openings
  | _ => True

/-- What the start of `func` tells of the state of a breaker that has not opened since. -/
structure Follows (s : System) (st : Stamp) : Prop where
  openings : st.openings ≤ s.openings
  closed : st.openings = s.openings → st.state = .closed → s.breaker.state = .closed
  halfOpen : st.openings = s.openings → st.state = .halfOpen → s.breaker.state ≠ .opened

def Tracked (s : System) : Prop :=
  ∀ c ∈ s.calls, ∀ st, c.phase = .running st → Follows s st

/-- A change of state that is none from closed to half-open keeps what is known of the starts. -/
theorem Follows.put {s : System} {st : Stamp} {b : Breaker} {now : ℚ} (h : Follows s st)
    (hb : s.breaker.state = .closed → b.state ≠ .halfOpen) : Follows (s.put b now) st := by
  by_cases ho : b.state = .opened ∧ s.breaker.state ≠ .opened
  · have hp : (s.put b now).openings = s.openings + 1 := if_pos ho
    have hle := h.openings
    constructor
    · omega
    · intro he
      omega
    · intro he
      omega
  · have hp : (s.put b now).openings = s.openings := if_neg ho
    constructor
    · exact h.openings.trans_eq hp.symm
    · intro he hs
      have hc := h.closed (he.trans hp) hs
      have hne : b.state ≠ .opened := fun hb => ho ⟨hb, by rw [hc]; decide⟩
      have hnh := hb hc
      change b.state = .closed
      cases hbs : b.state with
      | closed => rfl
      | opened => exact absurd hbs hne
      | halfOpen => exact absurd hbs hnh
    · intro he hs hbo
      exact ho ⟨hbo, h.halfOpen (he.trans hp) hs⟩

theorem getState_not_halfOpen {b : Breaker} (now : ℚ) (h : b.state = .closed) :
    (b.getState now).state ≠ .halfOpen := by
  rcases getState_cases b now with he | ⟨ho, -⟩
  · rw [he, h]
    decide
  · rw [h] at ho
    cases ho

theorem fail_state (b : Breaker) (now : ℚ) :
    (b.fail now).state = .opened ∨ (b.fail now).state = b.state := by
  rw [Breaker.fail]
  split
  · exact .inl rfl
  · exact .inr rfl

theorem update_not_halfOpen {b : Breaker} (now : ℚ) (outcome : Outcome) (h : b.state = .closed) :
    (b.update now outcome).state ≠ .halfOpen := by
  cases outcome with
  | success =>
    intro he
    cases he
  | failure =>
    rw [Breaker.update]
    rcases fail_state b now with he | he
    · rw [he]
      decide
    · rw [he, h]
      decide
  | passed =>
    rw [Breaker.update, h]
    decide

theorem Tracked.put {s : System} {b : Breaker} {now : ℚ} (h : Tracked s)
    (hb : s.breaker.state = .closed → b.state ≠ .halfOpen) : Tracked (s.put b now) :=
  fun c hc st hst => (h c hc st hst).put hb

theorem Tracked.step {s t : System} {a : Act} (h : Tracked s) (hs : Step s a t) : Tracked t := by
  cases hs with
  | rejected hn hc =>
    obtain ⟨rfl, -⟩ := check_error hc
    exact h.put (getState_not_halfOpen _)
  | @admitted now b hn hc =>
    obtain ⟨hb, -⟩ := check_ok hc
    have hput : Tracked (s.put b now) := h.put (hb ▸ getState_not_halfOpen now)
    intro c hc st hst
    rcases List.mem_append.1 hc with hc | hc
    · have hf := hput c hc st hst
      exact ⟨hf.openings, hf.closed, hf.halfOpen⟩
    · rw [List.mem_singleton.1 hc] at hst
      cases hst
  | start hn hi =>
    intro c hc st hst
    rcases List.mem_or_eq_of_mem_set hc with hc | rfl
    · have hf := h c hc st hst
      exact ⟨hf.openings, hf.closed, hf.halfOpen⟩
    · cases hst
      refine ⟨le_refl _, fun _ hs => hs, fun _ hs => ?_⟩
      change s.breaker.state ≠ .opened
      rw [show s.breaker.state = .halfOpen from hs]
      decide
  | @finish now i outcome a st hn hi =>
    have hput : Tracked (s.put (s.breaker.update now outcome) now) :=
      h.put (update_not_halfOpen now outcome)
    intro c hc st' hst
    rcases List.mem_or_eq_of_mem_set hc with hc | rfl
    · have hf := hput c hc st' hst
      exact ⟨hf.openings, hf.closed, hf.halfOpen⟩
    · cases hst
  | read hn => exact h.put (getState_not_halfOpen _)
  | reset hn =>
    apply h.put
    intro _ he
    cases he

/-- A step that leaves the state as it is, opens the breaker, or lets an open one recover. -/
theorem Lawful.of_put {s t : System} {a : Act} {b : Breaker} (hb : t.breaker = b)
    (h : b.state = s.breaker.state ∨ b.state = .opened ∨
      b.state = .halfOpen ∧ s.breaker.elapsed t.clock = true) : Lawful s a t := by
  constructor
  · intro ho hn
    rw [hb] at hn ⊢
    rcases h with h | h | h
    · exact absurd (h.trans ho) hn
    · exact absurd h hn
    · exact .inr h
  · intro hn hc
    rw [hb] at hc
    rcases h with h | h | ⟨h, -⟩
    · exact absurd (h.symm.trans hc) hn
    · rw [h] at hc
      cases hc
    · rw [h] at hc
      cases hc

theorem getState_lawful {s t : System} {a : Act} {now : ℚ} (hb : t.breaker = s.breaker.getState now)
    (hc : t.clock = now) : Lawful s a t := by
  apply Lawful.of_put hb
  rcases getState_cases s.breaker now with he | ⟨-, helapsed, he⟩
  · exact .inl (congrArg _ he)
  · rw [he, hc]
    exact .inr (.inr ⟨rfl, helapsed⟩)

/-- The success of a call is lawful exactly when the call is not stale. -/
theorem success_lawful_iff {s t : System} {i : Nat} {now : ℚ} {a st : Stamp} (h : Tracked s)
    (hi : s.calls[i]? = some ⟨a, .running st⟩) (ht : t.breaker.state = .closed) :
    Lawful s (.finish i .success now) t ↔ NotStale s (.finish i .success now) := by
  have hf := h _ (List.mem_of_getElem? hi) st rfl
  constructor
  · intro hl a' st' hi'
    rw [hi] at hi'
    cases hi'
    by_cases hc : s.breaker.state = .closed
    · exact .inl hc
    · rcases hl.closes hc ht with ⟨now, hr⟩ | ⟨j, now', he, a'', st'', hi'', hs, ho⟩
      · cases hr
      · cases he
        rw [hi] at hi''
        cases hi''
        refine .inr ⟨?_, ho⟩
        rw [hs]
        decide
  · intro hq
    rcases hq a st hi with hc | ⟨hne, ho⟩
    · constructor
      · intro hopen
        rw [hc] at hopen
        cases hopen
      · exact fun hn => absurd hc hn
    · cases hs : st.state with
      | opened => exact absurd hs hne
      | closed =>
        have hc := hf.closed ho hs
        constructor
        · intro hopen
          rw [hc] at hopen
          cases hopen
        · exact fun hn => absurd hc hn
      | halfOpen =>
        constructor
        · exact fun hopen => absurd hopen (hf.halfOpen ho hs)
        · exact fun _ _ => .inr ⟨i, now, rfl, a, st, hi, hs, ho⟩

theorem Step.lawful_iff {s t : System} {a : Act} (h : Tracked s) (hs : Step s a t) :
    Lawful s a t ↔ NotStale s a := by
  cases hs with
  | rejected hn hc => exact iff_of_true (getState_lawful (check_error hc).1 rfl) trivial
  | admitted hn hc => exact iff_of_true (getState_lawful (check_ok hc).1 rfl) trivial
  | start hn hi => exact iff_of_true (Lawful.of_put rfl (.inl rfl)) trivial
  | @finish now i outcome a st hn hi =>
    cases outcome with
    | success => exact success_lawful_iff h hi rfl
    | failure =>
      refine iff_of_true (Lawful.of_put rfl ?_) trivial
      rcases fail_state s.breaker now with he | he
      · exact .inr (.inl he)
      · exact .inl he
    | passed => exact iff_of_true (Lawful.of_put rfl (.inl rfl)) trivial
  | read hn => exact iff_of_true (getState_lawful rfl rfl) trivial
  | reset hn => exact iff_of_true ⟨fun _ _ => .inl ⟨_, rfl⟩, fun _ _ => .inl ⟨_, rfl⟩⟩ trivial

/-- The changes of state in a run are lawful exactly when no call that succeeds is stale. -/
theorem lawful_iff_not_stale {failureThreshold : Int} {recoveryTimeout clock : ℚ}
    {l : List (Act × System)}
    (h : Run.Trace Step (System.start (.new failureThreshold recoveryTimeout) clock) l) :
    Run.Along Lawful (System.start (.new failureThreshold recoveryTimeout) clock) l ↔
      Run.Always NotStale (System.start (.new failureThreshold recoveryTimeout) clock) l := by
  apply h.along_iff (I := Tracked)
  · exact fun _ hc => (nomatch hc)
  · exact fun s a t hI hs => ⟨hI.step hs, hs.lawful_iff hI⟩

/-- A breaker with threshold one opens, and the probe after 30 seconds closes it. -/
theorem lawful_recovery : ∃ l,
    Run.Trace Step (System.start (.new 1 30) 0) l ∧ l.length = 6 ∧
      Run.Along Lawful (System.start (.new 1 30) 0) l := by
  have h : Run.Trace Step (System.start (.new 1 30) 0) [(.enter 0, _), (.start 0 0, _),
      (.finish 0 .failure 0, _), (.enter 30, _), (.start 1 30, _), (.finish 1 .success 30, _)] :=
    ⟨.admitted (le_refl 0) rfl, .start (le_refl 0) rfl, .finish (le_refl 0) rfl,
      .admitted (by decide) (check_elapsed rfl (by decide +kernel)), .start (le_refl 30) rfl,
      .finish (le_refl 30) rfl, trivial⟩
  refine ⟨_, h, rfl, (lawful_iff_not_stale h).2 ⟨trivial, trivial, trivial, trivial, trivial, ?_,
    trivial⟩⟩
  intro a st hi
  cases hi
  exact .inr ⟨by decide, rfl⟩

/-- A call that was started before the breaker opened closes it when it succeeds late. -/
theorem late_success_closes : ∃ l,
    Run.Trace Step (System.start (.new 1 30) 0) l ∧
      ¬ Run.Along Lawful (System.start (.new 1 30) 0) l := by
  have h : Run.Trace Step (System.start (.new 1 30) 0) [(.enter 0, _), (.enter 0, _),
      (.start 0 0, _), (.start 1 0, _), (.finish 0 .failure 0, _), (.finish 1 .success 0, _)] :=
    ⟨.admitted (le_refl 0) rfl, .admitted (le_refl 0) rfl, .start (le_refl 0) rfl,
      .start (le_refl 0) rfl, .finish (le_refl 0) rfl, .finish (le_refl 0) rfl, trivial⟩
  refine ⟨_, h, fun hl => ?_⟩
  obtain ⟨-, -, -, -, -, hl, -⟩ := hl
  rcases hl.leaves rfl (fun h => nomatch h) with ⟨now, hr⟩ | ⟨hs, -⟩
  · cases hr
  · cases hs

end Obase.CircuitBreaker
