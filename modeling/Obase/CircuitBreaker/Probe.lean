import Mathlib.Data.List.Count
import Obase.CircuitBreaker.Breaker

namespace Obase.CircuitBreaker
set_option autoImplicit true

/-- The breaker is open and its recovery timeout has not elapsed. -/
def Breaker.Rejecting (b : Breaker) (now : ℚ) : Prop := b.state = .opened ∧ b.elapsed now = false

/-- The start is one in a half-open period. -/
def Start.probes (p : Nat) (st : Start) : Bool :=
  st.period = p && st.breaker.state = .halfOpen

theorem Start.probes_iff {p : Nat} {st : Start} :
    st.probes p = true ↔ st.period = p ∧ st.breaker.state = .halfOpen :=
  Bool.and_eq_true_iff.trans (and_congr decide_eq_true_iff decide_eq_true_iff)

/-- No `func` is started while the breaker is open and its recovery timeout has not elapsed, and at
most one between a change to half-open and the next change of state. -/
structure OneProbe (s : System) : Prop where
  rejecting : ∀ st ∈ s.starts, ¬ st.breaker.Rejecting st.now
  probe : ∀ p, s.starts.countP (Start.probes p) ≤ 1

/-- A call passes its state check in a half-open period only as its first one, and starts `func` in
the period of its state check unless the breaker is closed. -/
def Admitting (s : System) : Act → Prop
  | .enter _ => s.breaker.state = .halfOpen → ∀ c ∈ s.calls, c.admitted.period ≠ s.periods
  | .start i _ => ∀ c, s.calls[i]? = some c →
    s.breaker.state = .closed ∨ c.admitted.period = s.periods
  | _ => True

/-- The call passed its state check in the period and has not started `func`. -/
def Call.pending (p : Nat) (c : Call) : Bool :=
  c.admitted.period = p &&
    match c.phase with
    | .admitted => true
    | _ => false

theorem Call.period_of_pending {p : Nat} {c : Call} (h : c.pending p = true) :
    c.admitted.period = p :=
  of_decide_eq_true (Bool.and_eq_true_iff.1 h).1

structure Probing (s : System) : Prop where
  safe : OneProbe s
  started : ∀ st ∈ s.starts, st.period ≤ s.periods
  admitted : ∀ c ∈ s.calls, c.admitted.period ≤ s.periods
  current : ∀ c ∈ s.calls, c.admitted.period = s.periods → s.breaker.state ≠ .opened
  single : s.breaker.state = .halfOpen →
    s.starts.countP (Start.probes s.periods) + s.calls.countP (Call.pending s.periods) ≤ 1
  first : s.breaker.state = .halfOpen → (∀ c ∈ s.calls, c.admitted.period ≠ s.periods) →
    s.starts.countP (Start.probes s.periods) = 0

theorem Probing.start (b : Breaker) (clock : ℚ) : Probing (.start b clock) where
  safe := ⟨fun _ h => (nomatch h), fun _ => Nat.zero_le 1⟩
  started _ h := nomatch h
  admitted _ h := nomatch h
  current _ h := nomatch h
  single _ := Nat.zero_le 1
  first _ _ := rfl

/-- An update of the breaker begins a period in which nothing was admitted or started, or leaves the
state as it is. -/
theorem Probing.put {s : System} (h : Probing s) (b : Breaker) (now : ℚ) :
    Probing (s.put b now) := by
  by_cases hb : b.state = s.breaker.state
  · have hp : (s.put b now).periods = s.periods := if_pos hb
    constructor
    · exact ⟨h.safe.rejecting, h.safe.probe⟩
    · exact hp.symm ▸ h.started
    · exact hp.symm ▸ h.admitted
    · intro c hc he
      rw [hp] at he
      exact hb.symm ▸ h.current c hc he
    · intro hs
      rw [hp]
      exact h.single (hb.symm.trans hs)
    · intro hs hn
      rw [hp] at hn ⊢
      exact h.first (hb.symm.trans hs) hn
  · have hp : (s.put b now).periods = s.periods + 1 := if_neg hb
    have hstarts : s.starts.countP (Start.probes (s.periods + 1)) = 0 := by
      rw [List.countP_eq_zero]
      intro st hst hprobe
      have hperiod := (Start.probes_iff.1 hprobe).1
      have hle := h.started st hst
      omega
    have hcalls : s.calls.countP (Call.pending (s.periods + 1)) = 0 := by
      rw [List.countP_eq_zero]
      intro c hc hpending
      have hperiod := Call.period_of_pending hpending
      have hle := h.admitted c hc
      omega
    constructor
    · exact ⟨h.safe.rejecting, h.safe.probe⟩
    · intro st hst
      rw [hp]
      exact Nat.le_succ_of_le (h.started st hst)
    · intro c hc
      rw [hp]
      exact Nat.le_succ_of_le (h.admitted c hc)
    · intro c hc he
      have hle := h.admitted c hc
      rw [hp] at he
      omega
    · intro _
      rw [hp]
      exact (congrArg₂ (· + ·) hstarts hcalls).trans_le (Nat.zero_le 1)
    · intro _ _
      rw [hp]
      exact hstarts

/-- A call passes its state check, as the first of a half-open period. -/
theorem Probing.enter {s : System} (h : Probing s) (ho : s.breaker.state ≠ .opened)
    (hf : s.breaker.state = .halfOpen → ∀ c ∈ s.calls, c.admitted.period ≠ s.periods) :
    Probing { s with calls := s.calls ++ [⟨s.stamp, .admitted⟩] } := by
  have hnew : (⟨s.stamp, .admitted⟩ : Call) ∈ s.calls ++ [⟨s.stamp, .admitted⟩] :=
    List.mem_append_right _ (.head _)
  constructor
  · exact ⟨h.safe.rejecting, h.safe.probe⟩
  · exact h.started
  · intro c hc
    rcases List.mem_append.1 hc with hc | hc
    · exact h.admitted c hc
    · rw [List.mem_singleton.1 hc]
      exact le_refl s.periods
  · exact fun _ _ _ => ho
  · intro hs
    have hnone : s.calls.countP (Call.pending s.periods) = 0 := by
      rw [List.countP_eq_zero]
      intro c hc hpending
      exact hf hs c hc (Call.period_of_pending hpending)
    have hone : [(⟨s.stamp, .admitted⟩ : Call)].countP (Call.pending s.periods) ≤ 1 :=
      List.countP_le_length
    dsimp only
    rw [h.first hs (hf hs), List.countP_append, hnone]
    omega
  · intro _ hn
    exact absurd rfl (hn _ hnew)

/-- A call goes on: those of a list keep the stamps of their state checks. -/
theorem forall_admitted_set {calls : List Call} {i : Nat} {a : Stamp} {ph ph' : Phase}
    (hi : calls[i]? = some ⟨a, ph⟩) {P : Stamp → Prop} :
    (∀ c ∈ calls.set i ⟨a, ph'⟩, P c.admitted) ↔ ∀ c ∈ calls, P c.admitted := by
  obtain ⟨hlt, hc⟩ := List.getElem?_eq_some_iff.1 hi
  have hmap : (calls.set i ⟨a, ph'⟩).map Call.admitted = calls.map Call.admitted := by
    have hlen : i < (calls.map Call.admitted).length := by rwa [List.length_map]
    have hself : a = (calls.map Call.admitted)[i] := by rw [List.getElem_map, hc]
    rw [List.map_set]
    dsimp only
    rw [hself, List.set_getElem_self]
  rw [← List.forall_mem_map (f := Call.admitted) (P := P), hmap, List.forall_mem_map]

theorem countP_pending_set {calls : List Call} {i p : Nat} {a : Stamp} {ph ph' : Phase}
    (hi : calls[i]? = some ⟨a, ph⟩) :
    (calls.set i ⟨a, ph'⟩).countP (Call.pending p) + (Call.pending p ⟨a, ph⟩).toNat =
      calls.countP (Call.pending p) + (Call.pending p ⟨a, ph'⟩).toNat := by
  obtain ⟨hlt, hc⟩ := List.getElem?_eq_some_iff.1 hi
  have hpos : Call.pending p ⟨a, ph⟩ = true → 0 < calls.countP (Call.pending p) :=
    fun hp => List.countP_pos_iff.2 ⟨_, List.mem_of_getElem? hi, hp⟩
  rw [List.countP_set hlt, hc]
  cases hp : Call.pending p ⟨a, ph⟩ with
  | true =>
    have hpos := hpos hp
    cases Call.pending p ⟨a, ph'⟩ <;> simp <;> omega
  | false => cases Call.pending p ⟨a, ph'⟩ <;> simp

/-- A call that passed its state check starts `func`, in the same period unless the breaker is
closed. -/
theorem Probing.starts {s : System} {i : Nat} {a : Stamp} {now : ℚ} (h : Probing s)
    (hi : s.calls[i]? = some ⟨a, .admitted⟩)
    (ha : s.breaker.state = .closed ∨ a.period = s.periods) :
    Probing { s with
      calls := s.calls.set i ⟨a, .running s.stamp⟩
      clock := now
      starts := s.starts ++ [⟨i, s.periods, s.breaker, now⟩] } := by
  have hopen : s.breaker.state ≠ .opened := by
    rcases ha with ha | ha
    · rw [ha]
      decide
    · exact h.current _ (List.mem_of_getElem? hi) ha
  have hcount (p : Nat) : (s.starts ++ [(⟨i, s.periods, s.breaker, now⟩ : Start)]).countP
      (Start.probes p) = s.starts.countP (Start.probes p) +
        if s.periods = p ∧ s.breaker.state = .halfOpen then 1 else 0 := by
    rw [List.countP_append, List.countP_singleton]
    congr 1
    simp only [Start.probes_iff]
  have hpending (hs : s.breaker.state = .halfOpen) :
      (s.calls.set i ⟨a, .running s.stamp⟩).countP (Call.pending s.periods) + 1 =
        s.calls.countP (Call.pending s.periods) := by
    have ha' : a.period = s.periods := by
      apply ha.resolve_left
      rw [hs]
      decide
    have hset : (s.calls.set i ⟨a, .running s.stamp⟩).countP (Call.pending s.periods) + _ = _ :=
      countP_pending_set hi
    have hold : Call.pending s.periods ⟨a, .admitted⟩ = true := by
      exact Bool.and_eq_true_iff.2 ⟨decide_eq_true ha', rfl⟩
    have hnew : Call.pending s.periods ⟨a, .running s.stamp⟩ = false := Bool.and_false _
    rwa [hold, hnew] at hset
  constructor
  · constructor
    · intro st hst
      rcases List.mem_append.1 hst with hst | hst
      · exact h.safe.rejecting st hst
      · rw [List.mem_singleton.1 hst]
        exact fun hr => hopen hr.1
    · intro p
      dsimp only
      rw [hcount]
      split
      · rename_i hp
        obtain ⟨rfl, hs⟩ := hp
        have hsingle := h.single hs
        have hp := hpending hs
        omega
      · exact h.safe.probe p
  · intro st hst
    rcases List.mem_append.1 hst with hst | hst
    · exact h.started st hst
    · rw [List.mem_singleton.1 hst]
  · exact (forall_admitted_set hi (P := fun st => st.period ≤ s.periods)).2 h.admitted
  · exact (forall_admitted_set hi
      (P := fun st => st.period = s.periods → s.breaker.state ≠ .opened)).2 h.current
  · intro hs
    have hsingle := h.single hs
    have hp := hpending hs
    dsimp only
    rw [hcount, if_pos ⟨rfl, hs⟩]
    omega
  · intro hs hn
    have hnone := (forall_admitted_set hi (P := fun st => st.period ≠ s.periods)).1 hn
    rcases ha with ha | ha
    · rw [ha] at hs
      cases hs
    · exact absurd ha (hnone _ (List.mem_of_getElem? hi))

theorem Probing.finished {s : System} {i : Nat} {a st : Stamp} (h : Probing s)
    (hi : s.calls[i]? = some ⟨a, .running st⟩) :
    Probing { s with calls := s.calls.set i ⟨a, .over⟩ } := by
  have hpending : (s.calls.set i ⟨a, .over⟩).countP (Call.pending s.periods) + _ = _ :=
    countP_pending_set hi
  constructor
  · exact ⟨h.safe.rejecting, h.safe.probe⟩
  · exact h.started
  · exact (forall_admitted_set hi (P := fun st => st.period ≤ s.periods)).2 h.admitted
  · exact (forall_admitted_set hi
      (P := fun st => st.period = s.periods → s.breaker.state ≠ .opened)).2 h.current
  · intro hs
    have hsingle := h.single hs
    have hold : Call.pending s.periods ⟨a, .running st⟩ = false := Bool.and_false _
    have hnew : Call.pending s.periods ⟨a, .over⟩ = false := Bool.and_false _
    rw [hold, hnew] at hpending
    exact (congrArg _ hpending).trans_le hsingle
  · intro hs hn
    exact h.first hs ((forall_admitted_set hi (P := fun st => st.period ≠ s.periods)).1 hn)

theorem Probing.step {s t : System} {a : Act} (h : Probing s) (ha : Admitting s a)
    (hs : Step s a t) : Probing t := by
  cases hs with
  | rejected hn hc => exact h.put _ _
  | @admitted now b hn hc =>
    obtain ⟨hb, ho⟩ := check_ok hc
    refine (h.put b now).enter ho fun hhalf c hcall => ?_
    rcases getState_cases s.breaker now with he | ⟨hopen, -, he⟩
    · have hsame : b = s.breaker := hb.trans he
      have hp : (s.put b now).periods = s.periods := if_pos (congrArg _ hsame)
      rw [hp]
      apply ha _ c hcall
      rw [← hsame]
      exact hhalf
    · have hne : ¬ b.state = s.breaker.state := by
        rw [hopen]
        exact ho
      have hp : (s.put b now).periods = s.periods + 1 := if_neg hne
      have hle := h.admitted c hcall
      rw [hp]
      omega
  | start hn hi => exact h.starts hi (ha _ hi)
  | finish hn hi => exact (h.put _ _).finished hi
  | read hn => exact h.put _ _
  | reset hn => exact h.put _ _

/-- In a run where no call is admitted to a half-open period after its first one, and each starts its
`func` before the breaker changes, nothing is started too early and each recovery has one probe. -/
theorem one_probe {failureThreshold : Int} {recoveryTimeout clock : ℚ} {s : System}
    (h : Run.Reaches Step Admitting
      (System.start (.new failureThreshold recoveryTimeout) clock) s) : OneProbe s := by
  have hs : Probing s := h.invariant (Probing.start _ _) fun _ _ _ hI ha hs => hI.step ha hs
  exact hs.safe

/-- A breaker with threshold one that opened at 0, and then admitted a call after 30 seconds. -/
def recovering : System where
  breaker := ⟨1, 30, 1, .halfOpen, some 0⟩
  calls := [⟨⟨.closed, 0, 0⟩, .over⟩, ⟨⟨.halfOpen, 2, 1⟩, .admitted⟩]
  clock := 30
  periods := 2
  openings := 1
  starts := [⟨0, 0, ⟨1, 30, 0, .closed, none⟩, 0⟩]

theorem recovering_reached :
    Run.Reaches Step Admitting (System.start (.new 1 30) 0) recovering := by
  have h₁ : Run.Reaches Step Admitting (System.start (.new 1 30) 0) _ :=
    (Run.Reaches.refl _).tail (a := Act.enter 0) (fun h => nomatch h) (.admitted (le_refl 0) rfl)
  have h₂ := h₁.tail (a := Act.start 0 0) (fun _ _ => .inl rfl) (.start (le_refl 0) rfl)
  have h₃ := h₂.tail (a := Act.finish 0 .failure 0) trivial (.finish (le_refl 0) rfl)
  have h₄ := h₃.tail (a := Act.enter 30) (fun h => nomatch h)
    (.admitted (by decide) (check_elapsed rfl (by decide +kernel)))
  exact h₄

theorem one_probe_recovering : ∃ s,
    Run.Reaches Step Admitting (System.start (.new 1 30) 0) s ∧ s.starts.length = 2 ∧
      OneProbe s := by
  have h := recovering_reached.tail (a := Act.start 1 30)
    (fun _ hc => .inr (by cases hc; rfl)) (.start (le_refl 30) rfl)
  exact ⟨_, h, rfl, one_probe h⟩

/-- Two calls are both admitted to a half-open period, and both start their `func`. -/
theorem two_probes : ∃ s,
    Run.Reaches Step (fun _ _ => True) (System.start (.new 1 30) 0) s ∧ ¬ OneProbe s := by
  have h₀ : Run.Reaches Step (fun _ _ => True) (System.start (.new 1 30) 0) _ :=
    recovering_reached.mono fun _ _ _ => trivial
  have h₁ := h₀.tail (a := Act.enter 30) trivial (.admitted (le_refl 30) rfl)
  have h₂ := h₁.tail (a := Act.start 1 30) trivial (.start (le_refl 30) rfl)
  have h₃ := h₂.tail (a := Act.start 2 30) trivial (.start (le_refl 30) rfl)
  refine ⟨_, h₃, fun h => ?_⟩
  exact absurd (h.probe 2) (by decide)

/-- A call that was admitted while the breaker was closed starts its `func` when it is open. -/
theorem started_while_open : ∃ s,
    Run.Reaches Step (fun _ _ => True) (System.start (.new 1 30) 0) s ∧ ¬ OneProbe s := by
  have h₁ : Run.Reaches Step (fun _ _ => True) (System.start (.new 1 30) 0) _ :=
    (Run.Reaches.refl _).tail (a := Act.enter 0) trivial (.admitted (le_refl 0) rfl)
  have h₂ := h₁.tail (a := Act.enter 0) trivial (.admitted (le_refl 0) rfl)
  have h₃ := h₂.tail (a := Act.start 0 0) trivial (.start (le_refl 0) rfl)
  have h₄ := h₃.tail (a := Act.finish 0 .failure 0) trivial (.finish (le_refl 0) rfl)
  have h₅ := h₄.tail (a := Act.start 1 0) trivial (.start (le_refl 0) rfl)
  refine ⟨_, h₅, fun h => ?_⟩
  exact h.rejecting ⟨1, 1, ⟨1, 30, 1, .opened, some 0⟩, 0⟩ (.tail _ (.head _))
    ⟨rfl, by decide +kernel⟩

end Obase.CircuitBreaker
