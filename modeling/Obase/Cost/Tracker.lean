import Mathlib.Algebra.BigOperators.Group.List.Basic
import Mathlib.Algebra.Order.Ring.Rat
import Mathlib.Data.Rat.Defs
import Obase.Run

namespace Obase.Cost
set_option autoImplicit true

structure PricingEntry where
  category : String
  provider : String
  modelOrTier : String
  unit : String
  priceUsd : Rat

/-- The entries of a `PricingTable`. -/
abbrev PricingTable := List PricingEntry

def PricingTable.lookup (table : PricingTable) (category provider modelOrTier unit : String) :
    Option PricingEntry :=
  table.find? fun entry => entry.category = category ∧ entry.provider = provider ∧
    entry.modelOrTier = modelOrTier ∧ entry.unit = unit

/-- An item of `_entries`. -/
structure CostEntry where
  category : String
  provider : String
  modelOrTier : String
  unit : String
  quantity : Rat
  costUsd : Rat

inductive CostError where
  | pricingNotConfigured (category provider modelOrTier unit : String)
  | budgetExceeded (budget total : Rat)
deriving DecidableEq

/-- A tracker; amounts are exact. -/
structure CostTracker where
  table : PricingTable
  budget : Option Rat
  strict : Bool
  totalUsd : Rat
  entries : List CostEntry

namespace CostTracker

def new (table : PricingTable) (budget : Option Rat) (strict : Bool) : CostTracker :=
  ⟨table, budget, strict, 0, []⟩

/-- An entry is added to the entries and to the total. -/
def add (t : CostTracker) (entry : CostEntry) : CostTracker :=
  { t with totalUsd := t.totalUsd + entry.costUsd, entries := t.entries ++ [entry] }

def checkBudget (t : CostTracker) : Except CostError Unit :=
  match t.budget with
  | none => .ok ()
  | some budget =>
    if budget < t.totalUsd then .error (.budgetExceeded budget t.totalUsd) else .ok ()

/-- What a usage costs, unless its price is missing and must not be. -/
def cost (t : CostTracker) (category provider modelOrTier unit : String) (quantity : Rat) :
    Except CostError Rat :=
  match t.table.lookup category provider modelOrTier unit with
  | none =>
    if t.strict then .error (.pricingNotConfigured category provider modelOrTier unit) else .ok 0
  | some entry => .ok (entry.priceUsd * quantity)

def record (t : CostTracker) (category provider modelOrTier unit : String) (quantity : Rat) :
    CostTracker × Except CostError Rat :=
  match t.cost category provider modelOrTier unit quantity with
  | .error e => (t, .error e)
  | .ok cost =>
    let t := t.add ⟨category, provider, modelOrTier, unit, quantity, cost⟩
    (t, t.checkBudget.map fun _ => cost)

/-- The loop of `record_tokens` over the units, with their quantities and fallback rates. -/
def recordUnits (provider modelOrTier : String) (t : CostTracker) (total : Rat) :
    List (String × Int × Rat) → CostTracker × Except CostError Rat
  | [] => (t, .ok total)
  | (unit, qty, fallbackRate) :: units =>
    if qty ≤ 0 then recordUnits provider modelOrTier t total units
    else
      match t.record "llm" provider modelOrTier unit qty with
      | (t, .ok cost) => recordUnits provider modelOrTier t (total + cost) units
      | (t, .error (.pricingNotConfigured ..)) =>
        let t := t.add ⟨"llm", provider, modelOrTier, unit, qty, qty * fallbackRate⟩
        recordUnits provider modelOrTier t (total + qty * fallbackRate) units
      | (t, .error e) => (t, .error e)

end CostTracker

/-- A module-level function on the tracker that is bound, or not. -/
def withTracker (tracker : Option CostTracker)
    (body : CostTracker → CostTracker × Except CostError Rat) :
    Option CostTracker × Except CostError Rat :=
  match tracker with
  | none => (none, .ok 0)
  | some t => ((body t).1, (body t).2)

def recordCost (category provider modelOrTier unit : String) (quantity : Rat)
    (tracker : Option CostTracker) : Option CostTracker × Except CostError Rat :=
  withTracker tracker fun t => t.record category provider modelOrTier unit quantity

def recordTokens (provider modelOrTier : String) (inTokens outTokens : Int)
    (tracker : Option CostTracker) : Option CostTracker × Except CostError Rat :=
  withTracker tracker fun t => t.recordUnits provider modelOrTier 0
    [("in", inTokens, 3 / 1000000), ("out", outTokens, 15 / 1000000)]

/-- The calls that account for usage. -/
inductive CostCall where
  | record (category provider modelOrTier unit : String) (quantity : Rat)
  | recordCost (category provider modelOrTier unit : String) (quantity : Rat)
  | recordTokens (provider modelOrTier : String) (inTokens outTokens : Int)

/-- A call on the bound tracker. -/
def CostCall.run (t : CostTracker) : CostCall → Option CostTracker × Except CostError Rat
  | .record category provider modelOrTier unit quantity =>
    let (t, r) := t.record category provider modelOrTier unit quantity
    (some t, r)
  | .recordCost category provider modelOrTier unit quantity =>
    Cost.recordCost category provider modelOrTier unit quantity (some t)
  | .recordTokens provider modelOrTier inTokens outTokens =>
    Cost.recordTokens provider modelOrTier inTokens outTokens (some t)

/-- What an entry accounts for. -/
def CostEntry.usage (e : CostEntry) : String × String × String × String × Rat :=
  (e.category, e.provider, e.modelOrTier, e.unit, e.quantity)

/-- The usage of the positive ones among some tokens. -/
def tokenUsage (provider modelOrTier : String) (units : List (String × Int × Rat)) :
    List (String × String × String × String × Rat) :=
  (units.filter fun u => 0 < u.2.1).map fun u => ("llm", provider, modelOrTier, u.1, u.2.1)

/-- The units of a `record_tokens`. -/
def tokenUnits (inTokens outTokens : Int) : List (String × Int × Rat) :=
  [("in", inTokens, 3 / 1000000), ("out", outTokens, 15 / 1000000)]

namespace CostTracker

/-- The total is the sum of the entries. -/
def Balanced (t : CostTracker) : Prop := t.totalUsd = (t.entries.map CostEntry.costUsd).sum

/-- The price of a unit of tokens is configured, or may be missing. -/
def priced (t : CostTracker) (provider modelOrTier unit : String) : Bool :=
  (t.table.lookup "llm" provider modelOrTier unit).isSome || !t.strict

/-- What some tokens cost, at the fallback rate if their price is missing and must not be. -/
def unitCost (t : CostTracker) (provider modelOrTier unit : String) (qty : Int)
    (fallbackRate : Rat) : Rat :=
  if qty ≤ 0 then 0
  else
    match t.cost "llm" provider modelOrTier unit qty with
    | .ok cost => cost
    | .error _ => qty * fallbackRate

end CostTracker

/-- What a call owes its caller: the total stays the sum of the entries, the budget is reported when
the total is above it, and all of some positive tokens are accounted for, once. -/
structure CallContract (budget : Rat) (t : CostTracker) (c : CostCall) (t' : CostTracker)
    (r : Except CostError Rat) : Prop where
  balanced : t'.Balanced
  reported : budget < t'.totalUsd → r = .error (.budgetExceeded budget t'.totalUsd)
  accounted : ∀ provider modelOrTier inTokens outTokens,
    c = .recordTokens provider modelOrTier inTokens outTokens →
      t'.entries.map CostEntry.usage = t.entries.map CostEntry.usage ++
        tokenUsage provider modelOrTier (tokenUnits inTokens outTokens)

def Meets (budget : Rat) (t : CostTracker) (c : CostCall) : Prop :=
  ∀ t' r, c.run t = (some t', r) → CallContract budget t c t' r

/-- A call that charges nothing, for want of a price, or charges tokens at a fallback rate last, does
not leave the total above the budget; and if there are both input and output tokens, the charge of
the input tokens at a configured price does not take the total above it. -/
def Within (budget : Rat) (t : CostTracker) : CostCall → Prop
  | .record category provider modelOrTier unit _ | .recordCost category provider modelOrTier unit _ =>
    t.table.lookup category provider modelOrTier unit = none → t.strict = true →
      t.totalUsd ≤ budget
  | .recordTokens provider modelOrTier inTokens outTokens =>
    let inCost := t.unitCost provider modelOrTier "in" inTokens (3 / 1000000)
    let outCost := t.unitCost provider modelOrTier "out" outTokens (15 / 1000000)
    (0 < inTokens → 0 < outTokens → t.priced provider modelOrTier "in" = true →
      t.totalUsd + inCost ≤ budget) ∧
    ((if 0 < outTokens then t.priced provider modelOrTier "out"
        else decide (0 < inTokens) && t.priced provider modelOrTier "in") = false →
      t.totalUsd + inCost + outCost ≤ budget)

namespace CostTracker

theorem balanced_add {t : CostTracker} (h : t.Balanced) (e : CostEntry) : (t.add e).Balanced := by
  rw [Balanced, add, List.map_append, List.sum_append, List.map_singleton, List.sum_singleton, ← h]

theorem cost_of_lookup_none {t : CostTracker} {category provider modelOrTier unit : String}
    (h : t.table.lookup category provider modelOrTier unit = none) (hs : t.strict = true)
    (quantity : Rat) : t.cost category provider modelOrTier unit quantity =
      .error (.pricingNotConfigured category provider modelOrTier unit) := by
  unfold cost
  rw [h, hs]
  rfl

theorem cost_ok {t : CostTracker} {category provider modelOrTier unit : String}
    (h : ¬ (t.table.lookup category provider modelOrTier unit = none ∧ t.strict = true))
    (quantity : Rat) : ∃ cost, t.cost category provider modelOrTier unit quantity = .ok cost := by
  unfold cost
  split
  · rename_i hl
    rw [if_neg fun hs => h ⟨hl, hs⟩]
    exact ⟨_, rfl⟩
  · exact ⟨_, rfl⟩

/-- A charge is reported if it takes the total above the budget. -/
theorem record_ok {t : CostTracker} {category provider modelOrTier unit : String}
    {quantity cost budget : Rat} (hb : t.budget = some budget)
    (hc : t.cost category provider modelOrTier unit quantity = .ok cost) :
    t.record category provider modelOrTier unit quantity =
      (t.add ⟨category, provider, modelOrTier, unit, quantity, cost⟩,
        if budget < t.totalUsd + cost then .error (.budgetExceeded budget (t.totalUsd + cost))
        else .ok cost) := by
  unfold record
  rw [hc]
  dsimp only
  unfold checkBudget add
  rw [hb]
  dsimp only
  split
  · rfl
  · rfl

theorem priced_iff {t : CostTracker} {provider modelOrTier unit : String} :
    t.priced provider modelOrTier unit = true ↔
      ¬ (t.table.lookup "llm" provider modelOrTier unit = none ∧ t.strict = true) := by
  rw [priced, Bool.or_eq_true, Option.isSome_iff_ne_none, Bool.not_eq_true', not_and_or,
    Bool.not_eq_true]

/-- One positive quantity of tokens: it is charged once, and ends the call if its price is configured
and the total is above the budget then. -/
theorem recordUnits_cons {t : CostTracker} {provider modelOrTier unit : String} {qty : Int}
    {fallbackRate budget : Rat} (hb : t.budget = some budget) (hq : ¬ qty ≤ 0) (total : Rat)
    (units : List (String × Int × Rat)) :
    t.recordUnits provider modelOrTier total ((unit, qty, fallbackRate) :: units) =
      let cost := t.unitCost provider modelOrTier unit qty fallbackRate
      let t' := t.add ⟨"llm", provider, modelOrTier, unit, qty, cost⟩
      if t.priced provider modelOrTier unit = true ∧ budget < t.totalUsd + cost then
        (t', .error (.budgetExceeded budget (t.totalUsd + cost)))
      else t'.recordUnits provider modelOrTier (total + cost) units := by
  rw [recordUnits, if_neg hq]
  unfold unitCost
  rw [if_neg hq]
  by_cases hp : t.table.lookup "llm" provider modelOrTier unit = none ∧ t.strict = true
  · have hc := cost_of_lookup_none hp.1 hp.2 (qty : Rat)
    have hn : ¬ (t.priced provider modelOrTier unit = true) := fun h => priced_iff.1 h hp
    unfold record
    rw [hc]
    dsimp only
    rw [if_neg fun h => hn h.1]
  · obtain ⟨cost, hc⟩ := cost_ok hp (qty : Rat)
    have hy : t.priced provider modelOrTier unit = true := priced_iff.2 hp
    rw [record_ok hb hc, hc]
    dsimp only
    by_cases hlt : budget < t.totalUsd + cost
    · rw [if_pos hlt, if_pos ⟨hy, hlt⟩]
    · rw [if_neg hlt, if_neg fun h => hlt h.2]

/-- What a call on one usage owes its caller. -/
theorem record_contract {t : CostTracker} {c : CostCall}
    {category provider modelOrTier unit : String} {quantity budget : Rat}
    (hb : t.budget = some budget) (ht : t.Balanced)
    (hc : ∀ provider modelOrTier inTokens outTokens,
      c ≠ .recordTokens provider modelOrTier inTokens outTokens) :
    CallContract budget t c (t.record category provider modelOrTier unit quantity).1
        (t.record category provider modelOrTier unit quantity).2 ↔
      (t.table.lookup category provider modelOrTier unit = none → t.strict = true →
        t.totalUsd ≤ budget) := by
  by_cases hp : t.table.lookup category provider modelOrTier unit = none ∧ t.strict = true
  · have hcost := cost_of_lookup_none hp.1 hp.2 quantity
    unfold record
    rw [hcost]
    constructor
    · intro h _ _
      apply Rat.not_lt.1
      intro hlt
      cases h.reported hlt
    · intro h
      refine ⟨ht, ?_, fun _ _ _ _ he => (hc _ _ _ _ he).elim⟩
      intro hlt
      exact (Rat.not_lt.2 (h hp.1 hp.2) hlt).elim
  · obtain ⟨cost, hcost⟩ := cost_ok hp quantity
    rw [record_ok hb hcost]
    apply iff_of_true
    · refine ⟨balanced_add ht _, ?_, fun _ _ _ _ he => (hc _ _ _ _ he).elim⟩
      intro hlt
      exact if_pos hlt
    · intro hl hs
      exact (hp ⟨hl, hs⟩).elim

theorem tokenUsage_cons (provider modelOrTier unit : String) (qty : Int) (fallbackRate : Rat)
    (units : List (String × Int × Rat)) :
    tokenUsage provider modelOrTier ((unit, qty, fallbackRate) :: units) =
      (if qty ≤ 0 then [] else [("llm", provider, modelOrTier, unit, (qty : Rat))]) ++
        tokenUsage provider modelOrTier units := by
  unfold tokenUsage
  by_cases hq : qty ≤ 0
  · rw [List.filter_cons_of_neg (by simpa using hq), if_pos hq, List.nil_append]
  · rw [List.filter_cons_of_pos (by simpa using hq), if_neg hq]
    rfl

theorem unitCost_nonpos (t : CostTracker) (provider modelOrTier unit : String) {qty : Int}
    (h : qty ≤ 0) (fallbackRate : Rat) :
    t.unitCost provider modelOrTier unit qty fallbackRate = 0 := if_pos h

/-- The last unit of some tokens: it is accounted for, and the budget is reported unless the unit is
charged at the fallback rate, or not at all, and the total is above the budget then. -/
theorem recordUnits_last {t : CostTracker} {provider modelOrTier unit : String} {qty : Int}
    {fallbackRate budget total : Rat} (hb : t.budget = some budget) (ht : t.Balanced)
    {t' : CostTracker} {r : Except CostError Rat}
    (h : t.recordUnits provider modelOrTier total [(unit, qty, fallbackRate)] = (t', r)) :
    t'.Balanced ∧ t'.entries.map CostEntry.usage = t.entries.map CostEntry.usage ++
        tokenUsage provider modelOrTier [(unit, qty, fallbackRate)] ∧
      ((budget < t'.totalUsd → r = .error (.budgetExceeded budget t'.totalUsd)) ↔
        ((0 < qty → t.priced provider modelOrTier unit = false) →
          t.totalUsd + t.unitCost provider modelOrTier unit qty fallbackRate ≤ budget)) := by
  rw [tokenUsage_cons]
  by_cases hq : qty ≤ 0
  · rw [recordUnits, if_pos hq, recordUnits] at h
    cases h
    rw [if_pos hq, unitCost, if_pos hq, Rat.add_zero]
    refine ⟨ht, (List.append_nil _).symm, ?_⟩
    constructor
    · intro h _
      apply Rat.not_lt.1
      intro hlt
      cases h hlt
    · intro h hlt
      have hle := h fun hpos => (Int.not_le.2 hpos hq).elim
      exact (Rat.not_lt.2 hle hlt).elim
  · rw [recordUnits_cons hb hq] at h
    rw [if_neg hq]
    dsimp only at h
    split at h
    · rename_i hover
      cases h
      refine ⟨balanced_add ht _, List.map_append, iff_of_true (fun _ => rfl) ?_⟩
      intro hn
      rw [hn (Int.not_le.1 hq)] at hover
      cases hover.1
    · rename_i hover
      rw [recordUnits] at h
      cases h
      refine ⟨balanced_add ht _, List.map_append, ?_⟩
      constructor
      · intro h _
        apply Rat.not_lt.1
        intro hlt
        cases h hlt
      · intro h hlt
        by_cases hp : t.priced provider modelOrTier unit = true
        · exact (hover ⟨hp, hlt⟩).elim
        · exact (Rat.not_lt.2 (h fun _ => Bool.eq_false_of_not_eq_true hp) hlt).elim

theorem unitCost_add (t : CostTracker) (e : CostEntry) (provider modelOrTier unit : String)
    (qty : Int) (fallbackRate : Rat) :
    (t.add e).unitCost provider modelOrTier unit qty fallbackRate =
      t.unitCost provider modelOrTier unit qty fallbackRate := rfl

theorem priced_add (t : CostTracker) (e : CostEntry) (provider modelOrTier unit : String) :
    (t.add e).priced provider modelOrTier unit = t.priced provider modelOrTier unit := rfl

/-- What `record_tokens` owes its caller. -/
theorem recordTokens_contract {t : CostTracker} {provider modelOrTier : String}
    {inTokens outTokens : Int} {budget : Rat} (hb : t.budget = some budget) (ht : t.Balanced)
    {t' : CostTracker} {r : Except CostError Rat}
    (h : t.recordUnits provider modelOrTier 0 (tokenUnits inTokens outTokens) = (t', r)) :
    CallContract budget t (.recordTokens provider modelOrTier inTokens outTokens) t' r ↔
      Within budget t (.recordTokens provider modelOrTier inTokens outTokens) := by
  have hcontract : t'.Balanced → t'.entries.map CostEntry.usage =
      t.entries.map CostEntry.usage ++
        tokenUsage provider modelOrTier (tokenUnits inTokens outTokens) →
      (CallContract budget t (.recordTokens provider modelOrTier inTokens outTokens) t' r ↔
        (budget < t'.totalUsd → r = .error (.budgetExceeded budget t'.totalUsd))) := by
    intro hbal husage
    refine ⟨fun h => h.reported, fun h => ⟨hbal, h, ?_⟩⟩
    intro _ _ _ _ he
    cases he
    exact husage
  rw [tokenUnits, tokenUsage_cons] at hcontract
  rw [tokenUnits] at h
  unfold Within
  dsimp only
  by_cases hi : inTokens ≤ 0
  · rw [recordUnits, if_pos hi] at h
    obtain ⟨hbal, husage, hreported⟩ := recordUnits_last hb ht h
    rw [if_pos hi, List.nil_append] at hcontract
    have hnot : ¬ 0 < inTokens := Int.not_lt.2 hi
    rw [hcontract hbal husage, hreported, unitCost_nonpos t provider modelOrTier "in" hi,
      Rat.add_zero]
    by_cases ho : 0 < outTokens
    · simp only [ho, hnot, if_true, true_implies, false_implies, true_and]
    · simp only [ho, hnot, if_false, false_implies, true_implies, true_and, decide_false,
        Bool.false_and]
  · rw [recordUnits_cons hb hi] at h
    dsimp only at h
    rw [if_neg hi] at hcontract
    have hpos : 0 < inTokens := Int.not_le.1 hi
    generalize t.unitCost provider modelOrTier "in" inTokens (3 / 1000000) = inCost at *
    split at h
    · rename_i hover
      cases h
      by_cases ho : 0 < outTokens
      · apply iff_of_false
        · intro h
          have husage := h.accounted _ _ _ _ rfl
          rw [tokenUnits, tokenUsage_cons, tokenUsage_cons, if_neg hi, if_neg (Int.not_le.2 ho),
            add, List.map_append] at husage
          cases List.append_cancel_left husage
        · intro h
          exact Rat.not_lt.2 (h.1 hpos ho hover.1) hover.2
      · rw [tokenUsage_cons, if_pos (Int.not_lt.1 ho)] at hcontract
        rw [hcontract (balanced_add ht _) List.map_append]
        apply iff_of_true (fun _ => rfl)
        simp only [ho, hpos, if_false, false_implies, implies_true, true_and, decide_true,
          Bool.true_and, hover.1, Bool.true_eq_false]
    · rename_i hover
      obtain ⟨hbal, husage, hreported⟩ := recordUnits_last (t := t.add _) hb (balanced_add ht _) h
      rw [add, List.map_append, List.append_assoc] at husage
      rw [hcontract hbal husage, hreported, unitCost_add, priced_add]
      have hfirst : t.priced provider modelOrTier "in" = true → t.totalUsd + inCost ≤ budget :=
        fun hp => Rat.not_lt.1 fun hlt => hover ⟨hp, hlt⟩
      change _ → t.totalUsd + inCost + _ ≤ budget ↔ _
      by_cases ho : 0 < outTokens
      · simp only [ho, hpos, if_true, true_implies]
        exact ⟨fun h => ⟨hfirst, h⟩, fun h => h.2⟩
      · rw [unitCost_nonpos t provider modelOrTier "out" (Int.not_lt.1 ho), Rat.add_zero]
        simp only [ho, hpos, if_false, false_implies, true_implies, implies_true, true_and,
          decide_true, Bool.true_and]
        constructor
        · intro h _
          exact h
        · intro h
          by_cases hp : t.priced provider modelOrTier "in" = true
          · exact hfirst hp
          · exact h (Bool.eq_false_of_not_eq_true hp)

end CostTracker

/-- The bound tracker after a call. -/
def CostCall.after (t : CostTracker) (c : CostCall) : CostTracker := (c.run t).1.getD t

theorem CostCall.run_eq (t : CostTracker) (c : CostCall) :
    c.run t = (some (c.after t), (c.run t).2) := by
  cases c with
  | record category provider modelOrTier unit quantity => rfl
  | recordCost category provider modelOrTier unit quantity => rfl
  | recordTokens provider modelOrTier inTokens outTokens => rfl

theorem meets_iff (budget : Rat) (t : CostTracker) (c : CostCall) :
    Meets budget t c ↔ CallContract budget t c (c.after t) (c.run t).2 := by
  constructor
  · intro h
    exact h _ _ (c.run_eq t)
  · intro h t' r hr
    rw [c.run_eq t] at hr
    cases hr
    exact h

/-- A call meets its contract exactly when it stays within the budget as `Within` says. -/
theorem meets_iff_within {t : CostTracker} {budget : Rat} (hb : t.budget = some budget)
    (ht : t.Balanced) (c : CostCall) : Meets budget t c ↔ Within budget t c := by
  rw [meets_iff]
  cases c with
  | record category provider modelOrTier unit quantity =>
    exact CostTracker.record_contract hb ht (fun _ _ _ _ he => nomatch he)
  | recordCost category provider modelOrTier unit quantity =>
    exact CostTracker.record_contract hb ht (fun _ _ _ _ he => nomatch he)
  | recordTokens provider modelOrTier inTokens outTokens =>
    exact CostTracker.recordTokens_contract hb ht rfl

namespace CostTracker

theorem record_keeps {I : CostTracker → Prop} {t : CostTracker}
    {category provider modelOrTier unit : String} {quantity : Rat}
    (hadd : ∀ t e, I t → I (t.add e)) (ht : I t) :
    I (t.record category provider modelOrTier unit quantity).1 := by
  unfold record
  split
  · exact ht
  · exact hadd _ _ ht

/-- What every new entry keeps is kept by a loop over units of tokens. -/
theorem recordUnits_keeps {I : CostTracker → Prop} {t : CostTracker} {provider modelOrTier : String}
    {total : Rat} {units : List (String × Int × Rat)} (hadd : ∀ t e, I t → I (t.add e)) (ht : I t) :
    I (t.recordUnits provider modelOrTier total units).1 := by
  induction units generalizing t total with
  | nil => exact ht
  | cons u units ih =>
    obtain ⟨unit, qty, fallbackRate⟩ := u
    rw [recordUnits]
    have hr : I (t.record "llm" provider modelOrTier unit qty).1 := record_keeps hadd ht
    split
    · exact ih ht
    · split
      · rename_i h
        rw [h] at hr
        exact ih hr
      · rename_i h
        rw [h] at hr
        exact ih (hadd _ _ hr)
      · rename_i h
        rw [h] at hr
        exact hr

end CostTracker

theorem CostCall.after_keeps {I : CostTracker → Prop} {t : CostTracker} (c : CostCall)
    (hadd : ∀ t e, I t → I (t.add e)) (ht : I t) : I (c.after t) := by
  cases c with
  | record category provider modelOrTier unit quantity =>
    exact CostTracker.record_keeps hadd ht
  | recordCost category provider modelOrTier unit quantity =>
    exact CostTracker.record_keeps hadd ht
  | recordTokens provider modelOrTier inTokens outTokens =>
    exact CostTracker.recordUnits_keeps hadd ht

/-- The calls of a run, each with the tracker that it leaves. -/
def runCalls (t : CostTracker) : List CostCall → List (CostCall × CostTracker)
  | [] => []
  | c :: cs => (c, c.after t) :: runCalls (c.after t) cs

theorem runCalls_trace (t : CostTracker) (cs : List CostCall) :
    Run.Trace (fun t c t' => t' = c.after t) t (runCalls t cs) := by
  induction cs generalizing t with
  | nil => trivial
  | cons c cs ih => exact ⟨rfl, ih (c.after t)⟩

/-- Over every sequence of calls on a tracker with a budget, each call meets its contract exactly when
each stays within the budget as `Within` says. -/
theorem run_meets_iff (table : PricingTable) (budget : Rat) (strict : Bool) (cs : List CostCall) :
    Run.Always (Meets budget) (.new table (some budget) strict)
        (runCalls (.new table (some budget) strict) cs) ↔
      Run.Always (Within budget) (.new table (some budget) strict)
        (runCalls (.new table (some budget) strict) cs) := by
  apply (runCalls_trace _ cs).always_iff (I := fun t => t.budget = some budget ∧ t.Balanced)
  · exact ⟨rfl, rfl⟩
  · intro t c t' ht hstep
    subst hstep
    apply c.after_keeps (I := fun t => t.budget = some budget ∧ t.Balanced) _ ht
    intro t e h
    exact ⟨h.1, CostTracker.balanced_add h.2 e⟩
  · intro t c ht
    exact meets_iff_within ht.1 ht.2 c

/-- A tracker whose table has no prices. -/
def unpriced : CostTracker := .new [] (some 1) true

/-- A tracker with a price for input tokens. -/
def pricedInput : CostTracker := .new [⟨"llm", "p", "m", "in", 1⟩] (some 1) true

/-- Tokens at the fallback rate pass the budget and are not reported, and output tokens are not
accounted for when the input tokens pass it. -/
theorem tokens_break_budget :
    ¬ Run.Always (Meets 1) unpriced (runCalls unpriced [.recordTokens "p" "m" 1000000 0]) ∧
    ¬ Run.Always (Meets 1) pricedInput (runCalls pricedInput [.recordTokens "p" "m" 2 1]) := by
  constructor
  · intro h
    have hwithin := (meets_iff_within (t := unpriced) rfl rfl _).1 h.1
    exact absurd (hwithin.2 (by decide)) (by decide +kernel)
  · intro h
    have hwithin := (meets_iff_within (t := pricedInput) rfl rfl _).1 h.1
    exact absurd (hwithin.1 (by decide) (by decide) (by decide)) (by decide +kernel)

end Obase.Cost
