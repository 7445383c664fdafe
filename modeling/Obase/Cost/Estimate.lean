import Mathlib.Algebra.Order.Ring.Rat
import Obase.Cost.Tracker
import Obase.Tally

namespace Obase.Cost
set_option autoImplicit true

/-- `tier or "default"`. -/
def tierOrDefault (tier : Option String) : String :=
  match tier with
  | none => "default"
  | some tier => if tier = "" then "default" else tier

/-- A call of `register_pricing`. -/
structure Pricing where
  provider : String
  unit : String
  pricePerUnit : Rat
  category : String := "default"
  tier : Option String := none

def PricingTable.registerPricing (table : PricingTable) (p : Pricing) : PricingTable :=
  (table.filter fun e => ¬ (e.category = p.category ∧ e.provider = p.provider ∧
    e.modelOrTier = tierOrDefault p.tier ∧ e.unit = p.unit)) ++
    [⟨p.category, p.provider, tierOrDefault p.tier, p.unit, p.pricePerUnit⟩]

/-- The table that these calls build. -/
def registered (ps : List Pricing) : PricingTable := ps.foldl PricingTable.registerPricing []

structure StepUsage where
  step : String
  provider : String
  usage : Rat
  unit : String
  tier : Option String := none
  category : String := "default"

structure CostBreakdown where
  perStep : Dict String Rat := []
  total : Rat := 0
  currency : String := "USD"

namespace CostTracker

def estimate (t : CostTracker) (provider : String) (usage : Rat) (unit : String)
    (category : String := "default") (tier : Option String := none) : Rat :=
  match t.table.lookup category provider (tierOrDefault tier) unit with
  | none => 0
  | some entry => entry.priceUsd * usage

/-- `estimate_steps`, which hands on everything but the category. -/
def estimateSteps (t : CostTracker) (steps : List StepUsage) : CostBreakdown :=
  steps.foldl (fun b s =>
    let cost := t.estimate s.provider s.usage s.unit "default" s.tier
    { b with
      perStep := b.perStep.set s.step ((b.perStep.lookup s.step).getD 0 + cost)
      total := b.total + cost }) {}

/-- Each step is recorded. -/
def recordSteps (t : CostTracker) (steps : List StepUsage) : CostTracker :=
  steps.foldl (fun t s =>
    (t.record s.category s.provider (tierOrDefault s.tier) s.unit s.usage).1) t

end CostTracker

/-- What the usage of a step costs under a category, 0 where it has no price. -/
def PricingTable.stepCost (table : PricingTable) (category : String) (s : StepUsage) : Rat :=
  match table.lookup category s.provider (tierOrDefault s.tier) s.unit with
  | none => 0
  | some entry => entry.priceUsd * s.usage

/-- An estimate is the tally of the costs under the category `default`. -/
theorem estimateSteps_eq (t : CostTracker) (steps : List StepUsage) :
    t.estimateSteps steps =
      { perStep := tally StepUsage.step (t.table.stepCost "default") steps
        total := (steps.map (t.table.stepCost "default")).sum } := by
  induction steps using List.reverseRecOn with
  | nil => rfl
  | append_singleton steps s ih =>
    rw [CostTracker.estimateSteps, List.foldl_concat, ← CostTracker.estimateSteps, ih, tally_concat,
      List.map_append, List.sum_append, List.map_singleton, List.sum_singleton]
    rfl

/-- Recording adds up the costs of the steps under their own categories. -/
theorem recordSteps_totalUsd (table : PricingTable) (strict : Bool) (steps : List StepUsage) :
    ((CostTracker.new table none strict).recordSteps steps).totalUsd =
      (steps.map fun s => table.stepCost s.category s).sum := by
  have hall : ((CostTracker.new table none strict).recordSteps steps).table = table ∧
      ((CostTracker.new table none strict).recordSteps steps).budget = none ∧
      ((CostTracker.new table none strict).recordSteps steps).totalUsd =
        (steps.map fun s => table.stepCost s.category s).sum := by
    induction steps using List.reverseRecOn with
    | nil => exact ⟨rfl, rfl, rfl⟩
    | append_singleton steps s ih =>
      rw [CostTracker.recordSteps, List.foldl_concat, ← CostTracker.recordSteps]
      generalize (CostTracker.new table none strict).recordSteps steps = t at ih ⊢
      obtain ⟨rfl, hbudget, htotal⟩ := ih
      rw [List.map_append, List.sum_append, List.map_singleton, List.sum_singleton, ← htotal,
        CostTracker.record, CostTracker.cost, PricingTable.stepCost]
      cases t.table.lookup s.category s.provider (tierOrDefault s.tier) s.unit with
      | some entry => exact ⟨rfl, hbudget, rfl⟩
      | none =>
        cases t.strict with
        | true => exact ⟨rfl, hbudget, (add_zero _).symm⟩
        | false => exact ⟨rfl, hbudget, rfl⟩
  exact hall.2.2

/-- The last registration of a key is the one that counts. -/
theorem lookup_registerPricing (table : PricingTable) (p : Pricing)
    (category provider modelOrTier unit : String) :
    (table.registerPricing p).lookup category provider modelOrTier unit =
      if p.category = category ∧ p.provider = provider ∧ tierOrDefault p.tier = modelOrTier ∧
          p.unit = unit then
        some ⟨category, provider, modelOrTier, unit, p.pricePerUnit⟩
      else table.lookup category provider modelOrTier unit := by
  rw [PricingTable.lookup, PricingTable.registerPricing, List.find?_append]
  split
  · rename_i hkey
    obtain ⟨rfl, rfl, rfl, rfl⟩ := hkey
    rw [List.find?_filter, List.find?_eq_none.2, Option.none_or]
    · simp
    · intro e _ he
      simp only [decide_eq_true_eq] at he
      exact he.1 he.2
  · rename_i hkey
    have hlast : [(⟨p.category, p.provider, tierOrDefault p.tier, p.unit, p.pricePerUnit⟩ :
        PricingEntry)].find? (fun entry => entry.category = category ∧
          entry.provider = provider ∧ entry.modelOrTier = modelOrTier ∧ entry.unit = unit) =
        none := by
      rw [List.find?_cons_of_neg (by simpa using hkey), List.find?_nil]
    rw [hlast, Option.or_none, List.find?_filter, PricingTable.lookup]
    congr 1
    funext e
    rw [Bool.eq_iff_iff]
    simp only [decide_eq_true_eq]
    constructor
    · exact And.right
    · rintro ⟨rfl, rfl, rfl, rfl⟩
      refine ⟨?_, rfl, rfl, rfl, rfl⟩
      rintro ⟨hc, hp, hm, hu⟩
      exact hkey ⟨hc.symm, hp.symm, hm.symm, hu.symm⟩

/-- What an estimate owes a tracker on which the steps are recorded: the total, and the part of it
that belongs to each name of a step. -/
structure Agrees (table : PricingTable) (strict : Bool) (steps : List StepUsage) : Prop where
  total : ((CostTracker.new table none strict).estimateSteps steps).total =
    ((CostTracker.new table none strict).recordSteps steps).totalUsd
  sum : (((CostTracker.new table none strict).estimateSteps steps).perStep.map Prod.snd).sum =
    ((CostTracker.new table none strict).estimateSteps steps).total
  distinct : ((CostTracker.new table none strict).estimateSteps steps).perStep.Distinct
  names : ∀ name, name ∈ ((CostTracker.new table none strict).estimateSteps steps).perStep.keys ↔
    name ∈ steps.map StepUsage.step
  parts : ∀ name,
    (((CostTracker.new table none strict).estimateSteps steps).perStep.lookup name).getD 0 =
      ((CostTracker.new table none strict).recordSteps
        (steps.filter fun s => s.step = name)).totalUsd

/-- An estimate agrees with the records if, for each name of a step, what the usages cost more under
their categories than under `default` cancels out. -/
theorem estimateSteps_agrees_iff (ps : List Pricing) (strict : Bool) (steps : List StepUsage) :
    Agrees (registered ps) strict steps ↔
      ∀ name, ((steps.filter fun s => s.step = name).map fun s =>
        (registered ps).stepCost s.category s - (registered ps).stepCost "default" s).sum = 0 := by
  have hpart (name : String) :
      ((steps.filter fun s => s.step = name).map fun s =>
          (registered ps).stepCost s.category s - (registered ps).stepCost "default" s).sum = 0 ↔
        ((steps.filter fun s => s.step = name).map ((registered ps).stepCost "default")).sum =
          ((steps.filter fun s => s.step = name).map fun s =>
            (registered ps).stepCost s.category s).sum := by
    rw [sum_map_sub, sub_eq_zero, eq_comm]
  have htable : (CostTracker.new (registered ps) none strict).table = registered ps := rfl
  constructor
  · intro h name
    have hname := h.parts name
    rw [estimateSteps_eq, htable, lookup_tally, recordSteps_totalUsd] at hname
    exact (hpart name).2 hname
  · intro h
    have htotal := sum_eq_zero_of_names StepUsage.step _ steps h
    rw [sum_map_sub, sub_eq_zero] at htotal
    constructor
    · rw [estimateSteps_eq, recordSteps_totalUsd, htotal]
      rfl
    · rw [estimateSteps_eq]
      exact sum_tally ..
    · rw [estimateSteps_eq]
      exact tally_distinct ..
    · intro name
      rw [estimateSteps_eq]
      exact mem_keys_tally ..
    · intro name
      rw [estimateSteps_eq, htable, lookup_tally, recordSteps_totalUsd]
      exact (hpart name).1 (h name)

/-- A step that is priced under its own category only costs nothing in an estimate. -/
theorem estimateSteps_not_agrees :
    ¬ Agrees (registered [⟨"qwen3", "1k_token", 2, "llm", none⟩]) true
      [⟨"llm", "qwen3", 3, "1k_token", none, "llm"⟩] := by
  intro h
  exact absurd h.total (by decide +kernel)

end Obase.Cost
