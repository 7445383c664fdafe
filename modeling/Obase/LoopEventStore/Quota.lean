import Mathlib.Algebra.Order.Ring.Rat

namespace Obase.LoopEventStore
set_option autoImplicit true

/-- The events of a tracker in the stream, with their payloads. -/
inductive QuotaEvent (K : Type) where
  | quotaConsumed (goalId : Option String) (costUsd spent budget : K) (note : String)
  | quotaPaused (goalId : Option String) (spent budget : K)
  | quotaResumed (goalId : Option String) (note : String) (spent budget : K)
deriving DecidableEq

structure QuotaEntry (K : Type) where
  costUsd : K
  note : String
  spent : K
  ts : K
deriving DecidableEq

inductive QuotaError (K : Type) where
  | valueError (message : String)
  | pauseRequested (goalId : Option String) (budget : K)
  | budgetExceeded (budget spent : K)
deriving DecidableEq

/-- A tracker and, if it has a store, the events that it has appended. -/
structure QuotaTracker (K : Type) where
  budget : K
  goalId : Option String
  autoPause : Bool
  spent : K
  isPaused : Bool
  entries : List (QuotaEntry K)
  store : Option (List (QuotaEvent K))
deriving DecidableEq

section
variable {K : Type} [Zero K] [Add K] [LinearOrder K]

def QuotaTracker.new (budgetUsd : K) (goalId : Option String)
    (store : Option (List (QuotaEvent K))) (autoPauseOnExceed : Bool) :
    Except (QuotaError K) (QuotaTracker K) :=
  if budgetUsd < 0 then .error (.valueError "budget_usd must be >= 0")
  else .ok ⟨budgetUsd, goalId, autoPauseOnExceed, 0, false, [], store⟩

/-- Append an event that the store takes. -/
def QuotaTracker.emit (q : QuotaTracker K) (e : QuotaEvent K) : QuotaTracker K :=
  { q with store := q.store.map fun es => es ++ [e] }

def QuotaTracker.recordUsage (q : QuotaTracker K) (costUsd : K) (note : String) (now : K) :
    QuotaTracker K × Except (QuotaError K) K :=
  if costUsd < 0 then (q, .error (.valueError "cost_usd must be >= 0"))
  else if q.isPaused then (q, .error (.pauseRequested q.goalId q.budget))
  else
    let q : QuotaTracker K := { q with spent := q.spent + costUsd }
    let q : QuotaTracker K := { q with entries := q.entries ++ [⟨costUsd, note, q.spent, now⟩] }
    let q := q.emit (.quotaConsumed q.goalId costUsd q.spent q.budget note)
    if q.budget < q.spent then
      if q.autoPause then
        let q : QuotaTracker K := { q with isPaused := true }
        (q.emit (.quotaPaused q.goalId q.spent q.budget), .error (.budgetExceeded q.budget q.spent))
      else (q, .error (.budgetExceeded q.budget q.spent))
    else (q, .ok q.spent)

def QuotaTracker.check (q : QuotaTracker K) : Except (QuotaError K) Unit :=
  if q.budget < q.spent then .error (.budgetExceeded q.budget q.spent) else .ok ()

def QuotaTracker.resume (q : QuotaTracker K) (newBudget : Option K) (note : String) :
    QuotaTracker K × Except (QuotaError K) Unit :=
  let wake (q : QuotaTracker K) : QuotaTracker K :=
    if q.isPaused then
      let q : QuotaTracker K := { q with isPaused := false }
      q.emit (.quotaResumed q.goalId note q.spent q.budget)
    else q
  match newBudget with
  | none => (wake q, .ok ())
  | some b =>
    if b < 0 then (q, .error (.valueError "new_budget must be >= 0"))
    else (wake { q with budget := b }, .ok ())

inductive QuotaCall (K : Type) where
  | recordUsage (costUsd : K) (note : String) (now : K)
  | resume (newBudget : Option K) (note : String)
  | check

/-- The tracker after a call, whether it returns or raises. -/
def QuotaTracker.after (q : QuotaTracker K) : QuotaCall K → QuotaTracker K
  | .recordUsage c note now => (q.recordUsage c note now).1
  | .resume b note => (q.resume b note).1
  | .check => q

/-- What the event stream says about a quota. -/
structure QuotaView (K : Type) where
  spent : K
  budget : K
  paused : Bool

def QuotaView.apply (v : QuotaView K) : QuotaEvent K → QuotaView K
  | .quotaConsumed _ _ spent budget _ => ⟨spent, budget, v.paused⟩
  | .quotaPaused _ spent budget => ⟨spent, budget, true⟩
  | .quotaResumed _ _ spent budget => ⟨spent, budget, false⟩

/-- The projection of a stream over the initial budget. -/
def project (budget : K) (events : List (QuotaEvent K)) : QuotaView K :=
  events.foldl QuotaView.apply ⟨0, budget, false⟩

/-- The projection of its events gives the tracker's own numbers. -/
def QuotaTracker.Synced (budget₀ : K) (q : QuotaTracker K) : Prop :=
  ∃ events, q.store = some events ∧ project budget₀ events = ⟨q.spent, q.budget, q.isPaused⟩

/-- The call does not give a running tracker another budget. -/
def QuotaCall.Announced (q : QuotaTracker K) : QuotaCall K → Prop
  | .resume (some b) _ => q.isPaused = false → 0 ≤ b → b = q.budget
  | _ => True

/-- A property of the call and the tracker it is made on, at every call of a sequence. -/
def QuotaTracker.AtEvery (P : QuotaTracker K → QuotaCall K → Prop) :
    QuotaTracker K → List (QuotaCall K) → Prop
  | _, [] => True
  | q, c :: cs => P q c ∧ AtEvery P (q.after c) cs

/-- `record_usage` raises `BudgetExceeded` exactly when it has added a cost that takes the spending
over the budget, and changes nothing on a paused tracker or for a negative cost. -/
def RecordContract (q : QuotaTracker K) : QuotaCall K → Prop
  | .recordUsage c note now =>
    ((∃ b s, (q.recordUsage c note now).2 = .error (.budgetExceeded b s)) ↔
      0 ≤ c ∧ q.isPaused = false ∧ q.budget < q.spent + c) ∧
    (q.isPaused = true ∨ c < 0 → (q.recordUsage c note now).1 = q)
  | _ => True

end

theorem project_concat {K : Type} [Zero K] (budget : K) (events : List (QuotaEvent K))
    (e : QuotaEvent K) :
    project budget (events ++ [e]) = (project budget events).apply e := by
  rw [project, List.foldl_append]
  rfl

/-- An event that is emitted with the tracker's numbers keeps it synced. -/
theorem QuotaTracker.synced_emit {K : Type} [Zero K] {budget₀ : K} {q : QuotaTracker K}
    {events : List (QuotaEvent K)} {e : QuotaEvent K} (hs : q.store = some events)
    (he : (project budget₀ events).apply e = ⟨q.spent, q.budget, q.isPaused⟩) :
    (q.emit e).Synced budget₀ :=
  ⟨events ++ [e], by rw [QuotaTracker.emit, hs, Option.map_some], by rw [project_concat, he]; rfl⟩

section
variable {K : Type} [Zero K] [Add K] [LinearOrder K] {budget₀ : K}

theorem QuotaTracker.Synced.recordUsage {q : QuotaTracker K} (h : q.Synced budget₀) (c : K)
    (note : String) (now : K) : (q.recordUsage c note now).1.Synced budget₀ := by
  have h' := h
  obtain ⟨events, hs, hp⟩ := h'
  rw [QuotaTracker.recordUsage]
  by_cases hc : c < 0
  · rw [if_pos hc]
    exact h
  by_cases hq : q.isPaused = true
  · rw [if_neg hc, if_pos hq]
    exact h
  rw [if_neg hc, if_neg hq]
  dsimp only
  have hcons : (QuotaTracker.emit { q with
      spent := q.spent + c, entries := q.entries ++ [⟨c, note, q.spent + c, now⟩] }
      (.quotaConsumed q.goalId c (q.spent + c) q.budget note)).Synced budget₀ :=
    QuotaTracker.synced_emit hs (by rw [hp]; rfl)
  split
  · split
    · obtain ⟨events', hs', hp'⟩ := hcons
      exact QuotaTracker.synced_emit hs' (by rw [hp']; rfl)
    · exact hcons
  · exact hcons

omit [Add K] in
/-- A resume keeps the tracker synced unless it gives a running one another budget. -/
theorem QuotaTracker.Synced.resume_iff {q : QuotaTracker K} (h : q.Synced budget₀)
    (b : Option K) (note : String) :
    (q.resume b note).1.Synced budget₀ ↔ QuotaCall.Announced q (.resume b note) := by
  have h' := h
  obtain ⟨events, hs, hp⟩ := h'
  cases b with
  | none =>
    refine iff_of_true ?_ trivial
    rw [QuotaTracker.resume]
    dsimp only
    split
    · exact QuotaTracker.synced_emit hs (by rw [hp]; rfl)
    · exact h
  | some b =>
    rw [QuotaTracker.resume, QuotaCall.Announced]
    dsimp only
    by_cases hb : b < 0
    · rw [if_pos hb]
      exact iff_of_true h fun _ hb' => (not_lt.2 hb' hb).elim
    rw [if_neg hb]
    by_cases hq : q.isPaused = true
    · rw [if_pos hq]
      refine iff_of_true ?_ fun hq' => ?_
      · exact QuotaTracker.synced_emit hs (by rw [hp]; rfl)
      · rw [hq] at hq'
        cases hq'
    · rw [if_neg hq]
      constructor
      · rintro ⟨events', hs', hp'⟩ - -
        have he : events' = events := by
          rw [hs] at hs'
          exact (Option.some.inj hs').symm
        rw [he, hp] at hp'
        exact (congrArg QuotaView.budget hp').symm
      · intro ha
        refine ⟨events, hs, ?_⟩
        rw [hp, ha (Bool.eq_false_iff.2 hq) (not_lt.1 hb)]

theorem QuotaTracker.Synced.after_iff {q : QuotaTracker K} (h : q.Synced budget₀)
    (c : QuotaCall K) : (q.after c).Synced budget₀ ↔ c.Announced q := by
  cases c with
  | recordUsage c note now => exact iff_of_true (h.recordUsage c note now) trivial
  | resume b note => exact h.resume_iff b note
  | check => exact iff_of_true h trivial

theorem QuotaTracker.Synced.atEvery_iff {q : QuotaTracker K} (h : q.Synced budget₀)
    (cs : List (QuotaCall K)) :
    q.AtEvery (fun q c => (q.after c).Synced budget₀) cs ↔
      q.AtEvery (fun q c => c.Announced q) cs := by
  induction cs generalizing q with
  | nil => exact Iff.rfl
  | cons c cs ih =>
    rw [QuotaTracker.AtEvery, QuotaTracker.AtEvery]
    constructor
    · rintro ⟨hc, hcs⟩
      exact ⟨(h.after_iff c).1 hc, (ih hc).1 hcs⟩
    · rintro ⟨hc, hcs⟩
      have hs := (h.after_iff c).2 hc
      exact ⟨hs, (ih hs).2 hcs⟩

theorem recordContract (q : QuotaTracker K) (c : QuotaCall K) : RecordContract q c := by
  cases c with
  | resume b note => trivial
  | check => trivial
  | recordUsage c note now =>
    rw [RecordContract, QuotaTracker.recordUsage]
    by_cases hc : c < 0
    · rw [if_pos hc]
      refine ⟨⟨?_, fun h => (not_lt.2 h.1 hc).elim⟩, fun _ => rfl⟩
      rintro ⟨b, s, he⟩
      cases he
    by_cases hq : q.isPaused = true
    · rw [if_neg hc, if_pos hq]
      refine ⟨⟨?_, fun h => ?_⟩, fun _ => rfl⟩
      · rintro ⟨b, s, he⟩
        cases he
      · rw [hq] at h
        cases h.2.1
    rw [if_neg hc, if_neg hq]
    dsimp only
    refine ⟨?_, fun h => (h.elim hq hc).elim⟩
    by_cases hlt : q.budget < q.spent + c
    · refine iff_of_true ?_ ⟨not_lt.1 hc, Bool.eq_false_iff.2 hq, hlt⟩
      split
      · split
        · exact ⟨_, _, rfl⟩
        · exact ⟨_, _, rfl⟩
      · rename_i hle
        exact (hle hlt).elim
    · refine iff_of_false ?_ fun h => hlt h.2.2
      rintro ⟨b, s, he⟩
      split at he
      · rename_i hlt'
        exact hlt hlt'
      · cases he

theorem QuotaTracker.AtEvery.of_forall {P : QuotaTracker K → QuotaCall K → Prop}
    (h : ∀ q c, P q c) (q : QuotaTracker K) (cs : List (QuotaCall K)) : q.AtEvery P cs := by
  induction cs generalizing q with
  | nil => trivial
  | cons c cs ih => exact ⟨h q c, ih _⟩

/-- The projection of the stream gives the live quota after every call exactly when no call gives
a running tracker another budget; `record_usage` keeps its contract in any case. -/
theorem QuotaTracker.projection_iff {goalId : Option String} {autoPause : Bool}
    {q : QuotaTracker K} (hnew : QuotaTracker.new budget₀ goalId (some []) autoPause = .ok q)
    (cs : List (QuotaCall K)) :
    (q.AtEvery (fun q c => (q.after c).Synced budget₀) cs ↔
      q.AtEvery (fun q c => c.Announced q) cs) ∧ q.AtEvery RecordContract cs := by
  have hs : q.Synced budget₀ := by
    rw [QuotaTracker.new] at hnew
    split at hnew
    · cases hnew
    · cases hnew
      exact ⟨[], rfl, rfl⟩
  exact ⟨hs.atEvery_iff cs, .of_forall recordContract q cs⟩

theorem QuotaTracker.projection_of_usage :
    (⟨5, some "g1", true, 0, false, [], some []⟩ : QuotaTracker ℚ).AtEvery
      (fun q c => (q.after c).Synced 5) [.recordUsage 6 "" 0, .resume (some 10) ""] :=
  ((QuotaTracker.projection_iff
    (show QuotaTracker.new (5 : ℚ) (some "g1") (some []) true = .ok _ from rfl) _).1).2
    ⟨trivial, fun h => absurd h (by decide +kernel), trivial⟩

/-- A running tracker of budget 5 that is given a budget of 10 appends no event. -/
theorem QuotaTracker.projection_stale :
    ¬ (⟨5, some "g1", true, 0, false, [], some []⟩ : QuotaTracker ℚ).AtEvery
      (fun q c => (q.after c).Synced 5) [.resume (some 10) ""] := by
  rintro ⟨⟨events, hs, hp⟩, -⟩
  cases hs
  exact absurd (congrArg QuotaView.budget hp) (by decide)

end
end Obase.LoopEventStore
