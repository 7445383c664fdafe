import Obase.Concrete
import Obase.Orchestrator.Pipeline
import Obase.Orchestrator.Track
import Obase.Run

namespace Obase.Orchestrator
set_option autoImplicit true

section
variable {ω D T : Type}

/-- The indices of the stages whose results have been merged into a state that was saved. -/
def merged (journal : List (PipelineAct D T)) : List Int :=
  journal.filterMap fun
    | .merge idx _ => some idx
    | _ => none

def PipelineAct.IsMerge : PipelineAct D T → Prop
  | .merge .. => True
  | _ => False

/-- The last save of a journal is not that of a stage's result, and leaves no completed run, unless it
has no stages. -/
def Resumable (p : Pipeline ω D) (journal : List (PipelineAct D T)) : Prop :=
  ∀ a s, lastSave journal = some a → a.saved = some s →
    ¬ a.IsMerge ∧ (s.state = .completed → p.stages = [])

variable [StageData D]

/-- A call is added to the journal of its run. -/
def PipelineStep (p : Pipeline ω D) (runId : String) (journal : List (PipelineAct D T))
    (c : PipelineCall ω D T) (journal' : List (PipelineAct D T)) : Prop :=
  journal' = journal ++ c.acts p runId journal

/-- A run begins with a call that does not resume it, and is resumed after that. -/
def InOrder (journal : List (PipelineAct D T)) (c : PipelineCall ω D T) : Prop :=
  c.resume = false → journal = []

/-- A call executes no stage that an earlier one has merged, and none at all if it resumes a run that
is completed. -/
structure ExecutesOnce (journal : List (PipelineAct D T)) (c : PipelineCall ω D T)
    (acts : List (PipelineAct D T)) : Prop where
  once : ∀ idx, .execute idx ∈ acts → idx ∉ merged journal
  completed : ∀ s, c.resume = true → lastSaved journal = some s → s.state = .completed →
    ∀ idx, .execute idx ∉ acts

/-- Where a call stands in the stages: at one of them, or after the merge of its result. -/
inductive Phase where
  | at (idx : Int)
  | after (idx : Int)

/-- The acts of a call from a phase on. -/
inductive Acts (n : Int) : Phase → List (PipelineAct D T) → Prop
  | nil : Acts n ph []
  | save (hi : s.currentStageIndex = i) (hs : s.state ≠ .completed) (h : Acts n (.at i) acts) :
      Acts n (.at i) (.save s :: acts)
  | execute (hi : i < n) (h : Acts n (.at i) acts) : Acts n (.at i) (.execute i :: acts)
  | merge (hi : i < n) (h : Acts n (.after i) acts) : Acts n (.at i) (.merge i s :: acts)
  | next (hn : i + 1 < n) (hi : s.currentStageIndex = i + 1) (hs : s.state ≠ .completed)
      (h : Acts n (.at (i + 1)) acts) : Acts n (.after i) (.save s :: acts)
  | complete (hs : s.state = .completed) : Acts n (.after i) [.save s]
  | empty (hn : n = 0) (hi : s.currentStageIndex = i) : Acts n (.at i) [.save s]

omit [StageData D] in
theorem Acts.take {n : Int} {ph : Phase} {acts : List (PipelineAct D T)} (h : Acts n ph acts)
    (k : Nat) : Acts n ph (acts.take k) := by
  induction h generalizing k with
  | nil =>
    rw [List.take_nil]
    exact .nil
  | save hi hs h ih =>
    cases k with
    | zero => exact .nil
    | succ k => exact .save hi hs (ih k)
  | execute hi h ih =>
    cases k with
    | zero => exact .nil
    | succ k => exact .execute hi (ih k)
  | merge hi h ih =>
    cases k with
    | zero => exact .nil
    | succ k => exact .merge hi (ih k)
  | next hn hi hs h ih =>
    cases k with
    | zero => exact .nil
    | succ k => exact .next hn hi hs (ih k)
  | complete hs =>
    cases k with
    | zero => exact .nil
    | succ k =>
      rw [List.take_succ_cons, List.take_nil]
      exact .complete hs
  | empty hn hi =>
    cases k with
    | zero => exact .nil
    | succ k =>
      rw [List.take_succ_cons, List.take_nil]
      exact .empty hn hi

theorem RunState.reload_index {s s' : RunState D T} (h : s.reload = .ok s') :
    s'.currentStageIndex = s.currentStageIndex ∧ s'.state = s.state := by
  rw [RunState.reload] at h
  obtain ⟨data, -, h⟩ := bind_ok h
  obtain ⟨errors, -, h⟩ := bind_ok h
  obtain ⟨entries, -, h⟩ := bind_ok h
  obtain ⟨transitions, -, h⟩ := bind_ok h
  cases h
  exact ⟨rfl, rfl⟩

theorem Acts.perform {n : Int} {ph : Phase} {acts : List (PipelineAct D T)} (h : Acts n ph acts) :
    Acts n ph (perform acts) := by
  induction h with
  | nil => exact .nil
  | save hi hs h ih =>
    rw [Orchestrator.perform]
    split
    · rename_i s' hr
      obtain ⟨hidx, hstate⟩ := RunState.reload_index hr
      exact .save (hidx.trans hi) (hstate ▸ hs) ih
    · exact .nil
  | execute hi h ih => exact .execute hi ih
  | merge hi h ih =>
    rw [Orchestrator.perform]
    split
    · exact .merge hi ih
    · exact .nil
  | next hn hi hs h ih =>
    rw [Orchestrator.perform]
    split
    · rename_i s' hr
      obtain ⟨hidx, hstate⟩ := RunState.reload_index hr
      exact .next hn (hidx.trans hi) (hstate ▸ hs) ih
    · exact .nil
  | complete hs =>
    rw [Orchestrator.perform]
    split
    · rename_i s' hr
      exact .complete ((RunState.reload_index hr).2.trans hs)
    · exact .nil
  | empty hn hi =>
    rw [Orchestrator.perform]
    split
    · rename_i s' hr
      exact .empty hn ((RunState.reload_index hr).1.trans hi)
    · exact .nil

omit [StageData D] in
theorem Acts.executes {n i : Int} {acts : List (PipelineAct D T)} (hi : i < n)
    (h : Acts n (.at i) acts) (k : Nat) :
    Acts n (.at i) (List.replicate k (.execute i) ++ acts) := by
  induction k with
  | zero => exact h
  | succ k ih => exact .execute hi ih

/-- What follows the merge of a stage's result. -/
theorem Acts.of_later {p : Pipeline ω D} {w : ω} {n idx : Int} {s : RunState D T}
    (stages : List (Stage ω D)) (hn : idx + 1 + stages.length = n)
    (ih : ∀ stage rest, stages = stage :: rest →
      ∃ s' acts, (runStages p w (idx + 1) s (stage :: rest)).1 = .save s' :: acts ∧
        s'.currentStageIndex = idx + 1 ∧ s'.state ≠ .completed ∧ Acts n (.at (idx + 1)) acts) :
    Acts n (.after idx) (runStages p w (idx + 1) s stages).1 := by
  cases stages with
  | nil => exact .complete rfl
  | cons stage rest =>
    obtain ⟨s', acts, hacts, hi, hs, h⟩ := ih stage rest rfl
    rw [hacts]
    apply Acts.next _ hi hs h
    rw [List.length_cons] at hn
    omega

/-- A call that goes on with the stages from an index on saves that index first. -/
theorem runStages_acts {p : Pipeline ω D} {w : ω} {n : Int} {stages : List (Stage ω D)} {idx : Int}
    {s : RunState D T} (hs : s.state = .running) (hn : idx + stages.length = n) :
    ∀ stage rest, stages = stage :: rest →
      ∃ s' acts, (runStages p w idx s (stage :: rest)).1 = .save s' :: acts ∧
        s'.currentStageIndex = idx ∧ s'.state ≠ .completed ∧ Acts n (.at idx) acts := by
  induction stages generalizing idx s with
  | nil =>
    intro stage rest h
    cases h
  | cons stage stages ih =>
    intro stage' rest h
    cases h
    have hlt : idx < n := by
      rw [List.length_cons] at hn
      omega
    have hrun : s.state ≠ .completed := by
      rw [hs]
      exact (nomatch ·)
    rw [runStages]
    generalize runAttempts stage w _ _ _ 0 = run
    obtain ⟨calls, errors, r⟩ := run
    dsimp only
    cases r with
    | raised text =>
      refine ⟨_, _, rfl, rfl, hrun, ?_⟩
      have h := Acts.executes (D := D) (T := T) hlt .nil calls
      rwa [List.append_nil] at h
    | paused resumeData =>
      exact ⟨_, _, rfl, rfl, hrun, .executes hlt (.save rfl (show RunStatus.paused ≠ .completed by decide) .nil) calls⟩
    | overBudget error =>
      exact ⟨_, _, rfl, rfl, hrun, .executes hlt (.save rfl (show RunStatus.failed ≠ .completed by decide) .nil) calls⟩
    | exhausted =>
      exact ⟨_, _, rfl, rfl, hrun, .executes hlt (.save rfl (show RunStatus.failed ≠ .completed by decide) .nil) calls⟩
    | returned result =>
      dsimp only
      split
      · refine ⟨_, _, rfl, rfl, hrun, ?_⟩
        have h := Acts.executes (D := D) (T := T) hlt .nil calls
        rwa [List.append_nil] at h
      · refine ⟨_, _, rfl, rfl, hrun, .executes hlt (.merge hlt ?_) calls⟩
        apply Acts.of_later
        · rw [List.length_cons] at hn
          omega
        · apply ih
          · exact hs
          · rw [List.length_cons] at hn
            omega

/-- Where the calls of a journal have come to: at a stage, with no later one merged and its index
stored, or after a merge, where the run must not be resumed. -/
inductive Standing (p : Pipeline ω D) : Phase → List (PipelineAct D T) → Prop
  | at {i : Int} (h₀ : 0 ≤ i) (hn : i < p.stages.length ∨ p.stages.length = 0)
      (hm : ∀ j ∈ merged journal, j < i)
      (hl : ∀ s, lastSaved journal = some s → s.currentStageIndex = i) :
      Standing p (.at i) journal
  | after {i : Int} (h₀ : 0 ≤ i) (hn : i < p.stages.length) (hm : ∀ j ∈ merged journal, j ≤ i)
      (hr : ¬ Resumable p journal) : Standing p (.after i) journal

section
omit [StageData D]

theorem lastSave_save (journal : List (PipelineAct D T)) (s : RunState D T) :
    lastSave (journal ++ [.save s]) = some (.save s) := by
  rw [lastSave, List.filter_append]
  exact List.getLast?_concat

theorem lastSave_merge (journal : List (PipelineAct D T)) (i : Int) (s : RunState D T) :
    lastSave (journal ++ [.merge i s]) = some (.merge i s) := by
  rw [lastSave, List.filter_append]
  exact List.getLast?_concat

theorem lastSave_execute (journal : List (PipelineAct D T)) (i : Int) :
    lastSave (journal ++ [.execute i]) = lastSave journal := by
  rw [lastSave, List.filter_append]
  exact congrArg List.getLast? (List.append_nil _)

theorem merged_append (journal acts : List (PipelineAct D T)) :
    merged (journal ++ acts) = merged journal ++ merged acts :=
  List.filterMap_append

theorem Standing.save {p : Pipeline ω D} {journal : List (PipelineAct D T)} {i : Int}
    {s : RunState D T} (h₀ : 0 ≤ i) (hn : i < p.stages.length ∨ p.stages.length = 0)
    (hm : ∀ j ∈ merged journal, j < i) (hi : s.currentStageIndex = i) :
    Standing p (.at i) (journal ++ [.save s]) := by
  apply Standing.at h₀ hn
  · rw [merged_append]
    intro j hj
    exact hm j ((List.mem_append.1 hj).resolve_right (nomatch ·))
  · intro s' hs'
    rw [lastSaved, lastSave_save] at hs'
    cases hs'
    exact hi

/-- The acts of a call from where the journal stands execute no stage that has been merged. -/
theorem Standing.step {p : Pipeline ω D} {ph : Phase} {journal acts : List (PipelineAct D T)}
    (h : Standing p ph journal) (ha : Acts p.stages.length ph acts) :
    (∀ idx, .execute idx ∈ acts → idx ∉ merged journal) ∧
      ∃ ph', Standing p ph' (journal ++ acts) := by
  induction ha generalizing journal with
  | nil =>
    rw [List.append_nil]
    exact ⟨fun idx hidx => (nomatch hidx), _, h⟩
  | save hi hs ha ih =>
    cases h with
    | «at» h₀ hn hm hl =>
      obtain ⟨honce, hstand⟩ := ih (.save h₀ hn hm hi)
      rw [List.append_assoc, List.singleton_append] at hstand
      refine ⟨?_, hstand⟩
      intro idx hidx hj
      cases hidx with
      | tail _ hidx =>
        apply honce idx hidx
        rw [merged_append]
        exact List.mem_append_left _ hj
  | @execute i acts hi ha ih =>
    cases h with
    | «at» h₀ hn hm hl =>
      have hmerged : merged (journal ++ [.execute i]) = merged journal := by
        rw [merged_append]
        exact List.append_nil _
      have hnext : Standing p (.at i) (journal ++ [.execute i]) := by
        apply Standing.at h₀ hn
        · rw [hmerged]
          exact hm
        · rw [lastSaved, lastSave_execute]
          exact hl
      obtain ⟨honce, hstand⟩ := ih hnext
      rw [List.append_assoc, List.singleton_append] at hstand
      refine ⟨?_, hstand⟩
      intro idx hidx hj
      cases hidx with
      | head => exact Int.lt_irrefl _ (hm i hj)
      | tail _ hidx =>
        apply honce idx hidx
        rw [hmerged]
        exact hj
  | @merge i acts s hi ha ih =>
    cases h with
    | «at» h₀ hn hm hl =>
      have hnext : Standing p (.after i) (journal ++ [.merge i s]) := by
        apply Standing.after h₀ hi
        · rw [merged_append]
          intro j hj
          obtain hj | hj := List.mem_append.1 hj
          · exact Int.le_of_lt (hm j hj)
          · rw [List.mem_singleton.1 hj]
        · intro hr
          exact (hr _ _ (lastSave_merge ..) rfl).1 trivial
      obtain ⟨honce, hstand⟩ := ih hnext
      rw [List.append_assoc, List.singleton_append] at hstand
      refine ⟨?_, hstand⟩
      intro idx hidx hj
      cases hidx with
      | tail _ hidx =>
        apply honce idx hidx
        rw [merged_append]
        exact List.mem_append_left _ hj
  | @next i acts s hn' hi hs ha ih =>
    cases h with
    | after h₀ hn hm hr =>
      have hnext : Standing p (.at (i + 1)) (journal ++ [.save s]) := by
        apply Standing.save (by omega) (.inl hn') _ hi
        intro j hj
        exact Int.lt_add_one_of_le (hm j hj)
      obtain ⟨honce, hstand⟩ := ih hnext
      rw [List.append_assoc, List.singleton_append] at hstand
      refine ⟨?_, hstand⟩
      intro idx hidx hj
      cases hidx with
      | tail _ hidx =>
        apply honce idx hidx
        rw [merged_append]
        exact List.mem_append_left _ hj
  | @complete i s hs =>
    cases h with
    | after h₀ hn hm hr =>
      refine ⟨fun idx hidx => (nomatch hidx), Phase.after i, ?_⟩
      apply Standing.after h₀ hn
      · rw [merged_append]
        intro j hj
        exact hm j ((List.mem_append.1 hj).resolve_right (nomatch ·))
      · intro hr
        have hempty := (hr _ _ (lastSave_save ..) rfl).2 hs
        rw [hempty] at hn
        exact Int.lt_irrefl _ (Int.lt_of_le_of_lt h₀ hn)
  | empty hn' hi =>
    cases h with
    | «at» h₀ hn hm hl =>
      exact ⟨fun idx hidx => (nomatch hidx), _, .save h₀ hn hm hi⟩

end

/-- A call that starts at the index of its state. -/
theorem start_acts {p : Pipeline ω D} (w : ω) {i : Int} {s : RunState D T} (h₀ : 0 ≤ i)
    (hn : i < p.stages.length ∨ p.stages.length = 0) (hi : s.currentStageIndex = i)
    (hs : s.state = .running) :
    ∃ stages, stagesFrom p.stages i = some stages ∧
      Acts p.stages.length (.at i) (.save s :: (runStages p w i s stages).1) := by
  refine ⟨p.stages.drop i.toNat, if_pos h₀, ?_⟩
  have hrun : s.state ≠ .completed := by
    rw [hs]
    exact (nomatch ·)
  apply Acts.save hi hrun
  cases hd : p.stages.drop i.toNat with
  | nil =>
    have hlen := congrArg List.length hd
    rw [List.length_drop, List.length_nil] at hlen
    exact Acts.empty (s := { s with state := .completed }) (by omega) hi
  | cons stage rest =>
    have hlen := congrArg List.length hd
    rw [List.length_drop, List.length_cons] at hlen
    have hsum : i + (stage :: rest).length = (p.stages.length : Int) := by
      rw [List.length_cons]
      omega
    obtain ⟨s', acts, hacts, hi', hs', h⟩ := runStages_acts (p := p) (w := w) hs hsum stage rest rfl
    rw [hacts]
    exact .save hi' hs' h

/-- Where an allowed call starts, and what it then does. -/
theorem PipelineCall.acts_at {p : Pipeline ω D} (runId : String) {ph : Phase}
    {journal : List (PipelineAct D T)} {c : PipelineCall ω D T} (h : Standing p ph journal)
    (ho : InOrder journal c) (hr : c.resume = true → Resumable p journal) :
    ∃ i, 0 ≤ i ∧ Standing p (.at i) journal ∧
      Acts p.stages.length (.at i) (c.acts p runId journal) := by
  cases hres : c.resume with
  | false =>
    cases ho hres
    have hn : (0 : Int) < p.stages.length ∨ p.stages.length = 0 := by omega
    refine ⟨0, Int.le_refl _, .at (Int.le_refl _) hn (fun j hj => (nomatch hj))
      (fun s hs => (nomatch hs)), ?_⟩
    apply Acts.take
    apply Acts.perform
    rw [hres, runPipeline]
    obtain ⟨stages, hstages, hacts⟩ := start_acts (p := p) c.world (Int.le_refl 0) hn
      (s := { runId, pipelineName := p.name, startedAt := c.now, state := .running,
              currentStage := none, currentStageIndex := 0, pausedAtStage := none,
              data := c.initialData, errors := [], runbookHash := none, currentNode := none,
              currentEntryId := none, entries := [], transitions := [] }) rfl rfl
    dsimp only
    rw [hstages]
    exact hacts
  | true =>
    cases h with
    | after h₀ hn hm hr' => exact (hr' (hr hres)).elim
    | «at» h₀ hn hm hl =>
      refine ⟨_, h₀, .at h₀ hn hm hl, ?_⟩
      apply Acts.take
      apply Acts.perform
      rw [hres]
      unfold runPipeline
      cases hs : lastSaved journal with
      | none => exact .nil
      | some s =>
        obtain rfl := hl s hs
        obtain ⟨stages, hstages, hacts⟩ := start_acts c.world h₀ hn
          (s := { s with state := .running, pausedAtStage := none }) rfl rfl
        dsimp only
        rw [hstages]
        exact hacts

def Phase.idx : Phase → Int
  | .at i => i
  | .after i => i

omit [StageData D] in
theorem Acts.not_execute {ph : Phase} {acts : List (PipelineAct D T)} (h : Acts 0 ph acts)
    (h₀ : 0 ≤ ph.idx) (j : Int) : .execute j ∉ acts := by
  induction h with
  | nil => exact (nomatch ·)
  | save hi hs h ih =>
    intro hj
    cases hj with
    | tail _ hj => exact ih h₀ hj
  | execute hi h ih => exact absurd hi (Int.not_lt.2 h₀)
  | merge hi h ih => exact absurd hi (Int.not_lt.2 h₀)
  | next hn hi hs h ih => exact absurd hn (Int.not_lt.2 (Int.le_add_one h₀))
  | complete hs => exact (nomatch ·)
  | empty hn hi => exact (nomatch ·)

/-- In every run that is only resumed where its last save is neither that of a merged result nor that
of its completion, each call executes no stage that has been merged. -/
theorem resumed_executes_once {p : Pipeline ω D} {runId : String}
    {journal journal' : List (PipelineAct D T)} {c : PipelineCall ω D T}
    (h : Run.Reaches (PipelineStep p runId)
      (fun journal c => InOrder journal c ∧ (c.resume = true → Resumable p journal)) [] journal)
    (ho : InOrder journal c) (hr : c.resume = true → Resumable p journal)
    (hstep : PipelineStep p runId journal c journal') :
    ∃ acts, journal' = journal ++ acts ∧ ExecutesOnce journal c acts := by
  have hstand : ∃ ph, Standing p ph journal := by
    apply h.invariant
    · have hn : (0 : Int) < p.stages.length ∨ p.stages.length = 0 := by omega
      exact ⟨_, .at (Int.le_refl _) hn (fun j hj => (nomatch hj)) fun s hs => (nomatch hs)⟩
    · intro journal c journal' hI hallowed hstep
      obtain ⟨ph, hI⟩ := hI
      obtain ⟨i, -, hat, hacts⟩ := PipelineCall.acts_at runId hI hallowed.1 hallowed.2
      rw [hstep]
      exact (hat.step hacts).2
  obtain ⟨ph, hstand⟩ := hstand
  obtain ⟨i, h₀, hat, hacts⟩ := PipelineCall.acts_at runId hstand ho hr
  refine ⟨c.acts p runId journal, hstep, (hat.step hacts).1, ?_⟩
  intro s hres hs hcompleted
  obtain ⟨a, ha, has⟩ := Option.bind_eq_some_iff.1 hs
  have hempty := (hr hres a s ha has).2 hcompleted
  rw [hempty] at hacts
  exact hacts.not_execute h₀

end

/-- A pipeline whose second stage asks for a pause unless it is told to go on. -/
def pausingPipeline : Pipeline Bool (Json WholeFloat) :=
  ⟨"p", [⟨"a", fun _ _ _ _ => .returned (some []), 0, none, none⟩,
    ⟨"b", fun goOn _ _ _ => if goOn then .returned (some []) else .paused "" [], 0, none, none⟩]⟩

/-- The first call of a run, cut off after some acts. -/
def firstCall (goOn : Bool) (cut : Nat) : PipelineCall Bool (Json WholeFloat) Int :=
  ⟨false, [], goOn, 0, cut⟩

def secondCall : PipelineCall Bool (Json WholeFloat) Int := ⟨true, [], true, 1, 9⟩

def firstJournal (goOn : Bool) (cut : Nat) : List (PipelineAct (Json WholeFloat) Int) :=
  (firstCall goOn cut).acts pausingPipeline "r" []

theorem firstJournal_reached (goOn : Bool) (cut : Nat)
    {allowed : List (PipelineAct (Json WholeFloat) Int) →
      PipelineCall Bool (Json WholeFloat) Int → Prop} (ha : allowed [] (firstCall goOn cut)) :
    Run.Reaches (PipelineStep pausingPipeline "r") allowed [] (firstJournal goOn cut) :=
  (Run.Reaches.refl _).tail ha rfl

theorem resumed_executes_once_paused : ∃ acts, .execute 1 ∈ acts ∧
    ExecutesOnce (firstJournal false 9) secondCall acts := by
  have hlast : (lastSave (firstJournal false 9)).map (fun a =>
      (a.saved.map RunState.state, merged [a])) = some (some .paused, []) := rfl
  have hresumable : Resumable pausingPipeline (firstJournal false 9) := by
    intro a s ha hs
    rw [ha, Option.map_some, hs] at hlast
    obtain ⟨hstate, hmerged⟩ := Prod.mk.inj (Option.some.inj hlast)
    constructor
    · intro hmerge
      cases a with
      | save s => exact hmerge
      | execute idx => exact hmerge
      | merge idx s => cases hmerged
    · intro hcompleted
      rw [Option.map_some, hcompleted] at hstate
      cases hstate
  obtain ⟨acts, hacts, honce⟩ := resumed_executes_once (p := pausingPipeline)
    (c := secondCall) (firstJournal_reached false 9 ⟨fun _ => rfl, (nomatch ·)⟩) (nomatch ·)
    (fun _ => hresumable) rfl
  have hsame := List.append_cancel_left hacts
  have hexecute : (secondCall.acts pausingPipeline "r" (firstJournal false 9))[2]? =
      some (.execute 1) := rfl
  rw [hsame] at hexecute
  exact ⟨acts, List.mem_of_getElem? hexecute, honce⟩

/-- A run that is resumed when it is completed executes its last stage again, and one that is cut off
right after the merge of a stage's result executes that stage again. -/
theorem merged_stage_executes_again :
    ¬ ExecutesOnce (firstJournal true 9) secondCall
      (secondCall.acts pausingPipeline "r" (firstJournal true 9)) ∧
    ¬ ExecutesOnce (firstJournal true 4) secondCall
      (secondCall.acts pausingPipeline "r" (firstJournal true 4)) := by
  constructor
  · intro h
    have hexecute : (secondCall.acts pausingPipeline "r" (firstJournal true 9))[2]? =
        some (.execute 1) := rfl
    have hmerged : merged (firstJournal true 9) = [0, 1] := rfl
    apply h.once 1 (List.mem_of_getElem? hexecute)
    rw [hmerged]
    decide
  · intro h
    have hexecute : (secondCall.acts pausingPipeline "r" (firstJournal true 4))[2]? =
        some (.execute 0) := rfl
    have hmerged : merged (firstJournal true 4) = [0] := rfl
    apply h.once 0 (List.mem_of_getElem? hexecute)
    rw [hmerged]
    decide

end Obase.Orchestrator
