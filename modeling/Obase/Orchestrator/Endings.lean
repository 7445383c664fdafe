import Obase.Orchestrator.Resume

namespace Obase.Orchestrator
set_option autoImplicit true

section
variable {ω D T : Type}

def RunState.enter (s : RunState D T) (stage : Stage ω D) (idx : Int) : RunState D T :=
  { s with currentStage := some stage.name, currentStageIndex := idx }

/-- The run is completed, paused or failed. -/
def RunState.AtRest (s : RunState D T) : Prop :=
  s.state = .completed ∨ s.state = .paused ∨ s.state = .failed

/-- What a stage is called with. -/
def stageInput (s : RunState D T) (stage : Stage ω D) : Dict String D :=
  match stage.inputKeys with
  | some keys => filterInput s.data keys
  | none => s.data

/-- The keys of the result are those that the stage names, if it names any. -/
def Stage.Accepts (stage : Stage ω D) (result : Dict String D) : Prop :=
  ∀ keys, stage.outputKeys = some keys → ∀ k, k ∈ result.keys ↔ k ∈ keys

/-- How often the stage of an index is called. -/
def executions (i : Int) (acts : List (PipelineAct D T)) : Nat :=
  acts.countP fun
    | .execute j => j == i
    | _ => false

/-- How a stage leaves a run: by an exception, with the state in which the run ends, or with the
state for the next stage. -/
inductive StageExit (D T : Type) where
  | raises (e : PipelineError)
  | ends (s : RunState D T)
  | goesOn (s : RunState D T)

variable [StageData D]

/-- The state can be written. -/
def RunState.Saved (s : RunState D T) : Prop := ∃ s', s.reload = .ok s'

def stageRun (p : Pipeline ω D) (w : ω) (s : RunState D T) (stage : Stage ω D) :
    Nat × List D × StageRun D :=
  runAttempts stage w ⟨s.runId, p.name, stage.name⟩ (stageInput s stage)
    (stage.maxRetries + 1).toNat 0

def stageExit (p : Pipeline ω D) (w : ω) (s : RunState D T) (stage : Stage ω D) :
    StageExit D T :=
  let (_, errors, r) := stageRun p w s stage
  let s := { s with errors := s.errors ++ errors }
  match r with
  | .raised text => .raises (.raised text)
  | .paused resumeData =>
    .ends { s with
      data := updateData s.data resumeData, state := .paused, pausedAtStage := some stage.name }
  | .overBudget error =>
    .ends { s with
      state := .failed, errors := s.errors ++ [StageData.budgetError stage.name error] }
  | .exhausted => .ends { s with state := .failed }
  | .returned result =>
    match checkOutput stage result with
    | .error e => .raises e
    | .ok () => .goesOn { s with data := updateData s.data result }

/-- No stage that the run comes to raises what ends it, by itself or by the keys of its result, and
every state of the run can be written. -/
def Calm (p : Pipeline ω D) (w : ω) : Int → RunState D T → List (Stage ω D) → Prop
  | _, s, [] => { s with state := RunStatus.completed }.Saved
  | idx, s, stage :: stages => (s.enter stage idx).Saved ∧
    match stageExit p w (s.enter stage idx) stage with
    | .raises _ => False
    | .ends s' => s'.Saved
    | .goesOn s' => s'.Saved ∧ Calm p w (idx + 1) s' stages

/-- Every stage is come to and returns a result with the keys that it names. -/
def AllReturn (p : Pipeline ω D) (w : ω) : Int → RunState D T → List (Stage ω D) → Prop
  | _, _, [] => True
  | idx, s, stage :: stages => s.Saved ∧ (s.enter stage idx).Saved ∧
    ∃ calls errors result,
      stageRun p w (s.enter stage idx) stage = (calls, errors, .returned result) ∧
      stage.Accepts result ∧ AllReturn p w (idx + 1)
        { s.enter stage idx with
          errors := s.errors ++ errors, data := updateData s.data result } stages

/-- The state that a call of `run_pipeline` starts with, and its first stage. -/
def pipelineStart (p : Pipeline ω D) (initialData : Dict String D) (runId : String)
    (resume : Bool) (now : T) (stored : Option (RunState D T)) :
    Except PipelineError (RunState D T × Int) :=
  match resume, stored with
  | true, none => .error .fileNotFound
  | true, some s =>
    .ok ({ s with state := .running, pausedAtStage := none }, s.currentStageIndex)
  | false, _ =>
    .ok ({ runId, pipelineName := p.name, startedAt := now, state := .running,
           currentStage := none, currentStageIndex := 0, pausedAtStage := none,
           data := initialData, errors := [], runbookHash := none, currentNode := none,
           currentEntryId := none, entries := [], transitions := [] }, 0)

theorem runPipeline_eq (p : Pipeline ω D) (w : ω) (initialData : Dict String D) (runId : String)
    (resume : Bool) (now : T) (stored : Option (RunState D T)) :
    runPipeline p w initialData runId resume now stored =
      match pipelineStart p initialData runId resume now stored with
      | .error e => ([], .error e)
      | .ok (s, i) =>
        match stagesFrom p.stages i with
        | none => ([.save s], .error .indexError)
        | some stages => (.save s :: (runStages p w i s stages).1, (runStages p w i s stages).2) :=
  rfl

/-- The acts of a stage, and those of the stages after it if the run goes on. -/
theorem runStages_cons (p : Pipeline ω D) (w : ω) (idx : Int) (s : RunState D T)
    (stage : Stage ω D) (stages : List (Stage ω D)) :
    (runStages p w idx s (stage :: stages)).1 = .save (s.enter stage idx) ::
      (List.replicate (stageRun p w (s.enter stage idx) stage).1 (.execute idx) ++
        match stageExit p w (s.enter stage idx) stage with
        | .raises _ => []
        | .ends s' => [.save s']
        | .goesOn s' => .merge idx s' :: (runStages p w (idx + 1) s' stages).1) := by
  rw [runStages]
  unfold stageExit stageRun stageInput RunState.enter
  dsimp only
  generalize runAttempts stage w _ _ _ 0 = run
  obtain ⟨calls, errors, r⟩ := run
  cases r with
  | raised text => exact congrArg _ (List.append_nil _).symm
  | paused resumeData => rfl
  | overBudget error => rfl
  | exhausted => rfl
  | returned result =>
    dsimp only
    cases checkOutput stage result with
    | error e => exact congrArg _ (List.append_nil _).symm
    | ok => rfl

omit [StageData D] in
theorem lastSaved_append (acts acts' : List (PipelineAct D T)) :
    lastSaved (acts ++ acts') = (lastSaved acts').or (lastSaved acts) := by
  rw [lastSaved, lastSave, List.filter_append, List.getLast?_append]
  cases h : (acts'.filter fun a => a.saved.isSome).getLast? with
  | none => rw [lastSaved, lastSave, h, Option.none_or, Option.bind_none, Option.none_or]; rfl
  | some a =>
    have ha := (List.mem_filter.1 (List.mem_of_getLast? h)).2
    obtain ⟨t, ht⟩ := Option.isSome_iff_exists.1 ha
    rw [lastSaved, lastSave, h, Option.some_or, Option.bind_some, ht, Option.some_or]

omit [StageData D] in
theorem lastSaved_executes (k : Nat) (i : Int) (acts : List (PipelineAct D T)) :
    lastSaved (List.replicate k (.execute i) ++ acts) = lastSaved acts := by
  have h : lastSaved (List.replicate k (.execute i) : List (PipelineAct D T)) = none := by
    rw [lastSaved, lastSave, List.filter_replicate]
    rfl
  rw [lastSaved_append, h, Option.or_none]

theorem perform_executes (k : Nat) (i : Int) (acts : List (PipelineAct D T)) :
    perform (List.replicate k (.execute i) ++ acts) =
      List.replicate k (.execute i) ++ perform acts := by
  induction k with
  | zero => rfl
  | succ k ih =>
    rw [List.replicate_succ, List.cons_append, perform, ih]
    rfl

/-- The state that is stored after a save and the acts behind it. -/
theorem lastSaved_save {s s' : RunState D T} (h : s.reload = .ok s')
    (acts : List (PipelineAct D T)) :
    lastSaved (perform (.save s :: acts)) = (lastSaved (perform acts)).or (some s') := by
  rw [perform, h]
  exact lastSaved_append [.save s'] (perform acts)

theorem lastSaved_merge {s s' : RunState D T} (h : s.reload = .ok s') (i : Int)
    (acts : List (PipelineAct D T)) :
    lastSaved (perform (.merge i s :: acts)) = (lastSaved (perform acts)).or (some s') := by
  rw [perform, h]
  exact lastSaved_append [.merge i s'] (perform acts)

theorem perform_save_of_not_saved {s : RunState D T} (h : ¬ s.Saved)
    (acts : List (PipelineAct D T)) : perform (.save s :: acts) = [] := by
  rw [perform]
  split
  · rename_i s' hs
    exact (h ⟨s', hs⟩).elim
  · rfl

theorem perform_merge_of_not_saved {s : RunState D T} (h : ¬ s.Saved) (i : Int)
    (acts : List (PipelineAct D T)) : perform (.merge i s :: acts) = [] := by
  rw [perform]
  split
  · rename_i s' hs
    exact (h ⟨s', hs⟩).elim
  · rfl

omit [StageData D] in
theorem sortedSet_eq_nil {keys : List String} : sortedSet keys = [] ↔ keys = [] := by
  rw [sortedSet, ← List.length_eq_zero_iff, List.length_mergeSort, List.length_eq_zero_iff,
    List.dedup_eq_nil]

omit [StageData D] in
theorem checkOutput_ok_iff {stage : Stage ω D} {result : Dict String D} :
    checkOutput stage result = .ok () ↔ stage.Accepts result := by
  rw [checkOutput, Stage.Accepts]
  cases stage.outputKeys with
  | none => exact iff_of_true rfl fun keys hk => (nomatch hk)
  | some keys =>
    dsimp only
    constructor
    · intro h keys' hk k
      cases hk
      split at h
      · cases h
      · rename_i hextra
        split at h
        · cases h
        · rename_i hmissing
          rw [not_not, sortedSet_eq_nil, List.filter_eq_nil_iff] at hextra hmissing
          constructor
          · intro hk
            simpa using hextra k hk
          · intro hk
            simpa using hmissing k hk
    · intro h
      have h := h keys rfl
      have hextra : sortedSet (result.keys.filter fun k => k ∉ keys) = [] := by
        rw [sortedSet_eq_nil, List.filter_eq_nil_iff]
        intro k hk
        simpa using (h k).1 hk
      have hmissing : sortedSet (keys.filter fun k => k ∉ result.keys) = [] := by
        rw [sortedSet_eq_nil, List.filter_eq_nil_iff]
        intro k hk
        simpa using (h k).2 hk
      rw [if_neg (not_not.2 hextra), if_neg (not_not.2 hmissing)]

/-- A stage that ends the run leaves it paused or failed. -/
theorem stageExit_ends {p : Pipeline ω D} {w : ω} {s s' : RunState D T} {stage : Stage ω D}
    (h : stageExit p w s stage = .ends s') : s'.state = .paused ∨ s'.state = .failed := by
  rw [stageExit] at h
  generalize stageRun p w s stage = run at h
  obtain ⟨calls, errors, r⟩ := run
  cases r with
  | raised text => cases h
  | paused resumeData =>
    cases h
    exact .inl rfl
  | overBudget error =>
    cases h
    exact .inr rfl
  | exhausted =>
    cases h
    exact .inr rfl
  | returned result =>
    dsimp only at h
    cases hc : checkOutput stage result with
    | error e =>
      rw [hc] at h
      cases h
    | ok =>
      rw [hc] at h
      cases h

/-- The run goes on exactly behind a result that the stage accepts. -/
theorem stageExit_goesOn_iff {p : Pipeline ω D} {w : ω} {s s' : RunState D T} {stage : Stage ω D} :
    stageExit p w s stage = .goesOn s' ↔
      ∃ calls errors result, stageRun p w s stage = (calls, errors, .returned result) ∧
        stage.Accepts result ∧
          s' = { s with errors := s.errors ++ errors, data := updateData s.data result } := by
  rw [stageExit]
  generalize stageRun p w s stage = run
  obtain ⟨calls, errors, r⟩ := run
  constructor
  · intro h
    cases r with
    | raised | paused | overBudget | exhausted => cases h
    | returned result =>
      dsimp only at h
      cases hc : checkOutput stage result with
      | error e =>
        rw [hc] at h
        cases h
      | ok =>
        rw [hc] at h
        cases h
        exact ⟨_, _, _, rfl, checkOutput_ok_iff.1 hc, rfl⟩
  · rintro ⟨_, _, result, he, ha, rfl⟩
    cases he
    dsimp only
    rw [checkOutput_ok_iff.2 ha]

theorem allReturn_cons {p : Pipeline ω D} {w : ω} {idx : Int} {s : RunState D T}
    {stage : Stage ω D} {stages : List (Stage ω D)} :
    AllReturn p w idx s (stage :: stages) ↔ s.Saved ∧ (s.enter stage idx).Saved ∧
      ∃ s', stageExit p w (s.enter stage idx) stage = .goesOn s' ∧
        AllReturn p w (idx + 1) s' stages := by
  rw [AllReturn]
  refine and_congr_right fun _ => and_congr_right fun _ => ?_
  constructor
  · rintro ⟨calls, errors, result, hr, ha, h⟩
    exact ⟨_, stageExit_goesOn_iff.2 ⟨calls, errors, result, hr, ha, rfl⟩, h⟩
  · rintro ⟨s', he, h⟩
    obtain ⟨calls, errors, result, hr, ha, rfl⟩ := stageExit_goesOn_iff.1 he
    exact ⟨calls, errors, result, hr, ha, h⟩

/-- A calm run leaves a state at rest, which is completed exactly if every stage has returned. -/
theorem Calm.settles {p : Pipeline ω D} {w : ω} {stages : List (Stage ω D)} {idx : Int}
    {s : RunState D T} (hs : s.Saved) (h : Calm p w idx s stages) :
    ∃ t, lastSaved (perform (runStages p w idx s stages).1) = some t ∧ t.AtRest ∧
      (t.state = .completed ↔ AllReturn p w idx s stages) := by
  induction stages generalizing idx s with
  | nil =>
    obtain ⟨t, ht⟩ := h
    have hstate := (RunState.reload_index ht).2
    refine ⟨t, ?_, .inl hstate, iff_of_true hstate trivial⟩
    rw [runStages, lastSaved_save ht]
    rfl
  | cons stage stages ih =>
    obtain ⟨⟨s₁, h₁⟩, h⟩ := h
    rw [runStages_cons, lastSaved_save h₁, perform_executes, lastSaved_executes, allReturn_cons]
    cases he : stageExit p w (s.enter stage idx) stage with
    | raises e =>
      rw [he] at h
      exact h.elim
    | ends s' =>
      rw [he] at h
      obtain ⟨t, ht⟩ := h
      have hstate := (RunState.reload_index ht).2
      have hne : t.state ≠ .completed := by
        rw [hstate]
        obtain hp | hf := stageExit_ends he
        · rw [hp]
          rintro ⟨⟩
        · rw [hf]
          rintro ⟨⟩
      refine ⟨t, ?_, ?_, iff_of_false hne ?_⟩
      · rw [lastSaved_save ht]
        rfl
      · rw [RunState.AtRest, hstate]
        exact .inr (stageExit_ends he)
      · rintro ⟨-, -, s'', hg, -⟩
        cases hg
    | goesOn s' =>
      rw [he] at h
      obtain ⟨⟨s₂, h₂⟩, h⟩ := h
      obtain ⟨t, ht, hrest, hall⟩ := ih ⟨s₂, h₂⟩ h
      refine ⟨t, ?_, hrest, hall.trans ?_⟩
      · rw [lastSaved_merge h₂, ht]
        rfl
      · constructor
        · exact fun ha => ⟨hs, ⟨s₁, h₁⟩, s', rfl, ha⟩
        · rintro ⟨-, -, s'', hg, ha⟩
          cases hg
          exact ha

/-- A run that is not calm leaves no state but running ones. -/
theorem running_of_not_calm {p : Pipeline ω D} {w : ω} {stages : List (Stage ω D)} {idx : Int}
    {s : RunState D T} (hs : s.state = .running) (h : ¬ Calm p w idx s stages) :
    ∀ t, lastSaved (perform (runStages p w idx s stages).1) = some t → t.state = .running := by
  induction stages generalizing idx s with
  | nil =>
    intro t ht
    rw [runStages, perform_save_of_not_saved h] at ht
    cases ht
  | cons stage stages ih =>
    intro t ht
    rw [runStages_cons] at ht
    by_cases h₁ : (s.enter stage idx).Saved
    swap
    · rw [perform_save_of_not_saved h₁] at ht
      cases ht
    obtain ⟨s₁, h₁⟩ := h₁
    have hstate : s₁.state = .running := (RunState.reload_index h₁).2.trans hs
    rw [lastSaved_save h₁, perform_executes, lastSaved_executes] at ht
    rw [Calm, not_and] at h
    have h := h ⟨s₁, h₁⟩
    cases he : stageExit p w (s.enter stage idx) stage with
    | raises e =>
      rw [he] at ht
      cases ht
      exact hstate
    | ends s' =>
      rw [he] at h ht
      rw [perform_save_of_not_saved h] at ht
      cases ht
      exact hstate
    | goesOn s' =>
      rw [he] at h ht
      have hrun : s'.state = .running := by
        obtain ⟨calls, errors, result, -, -, rfl⟩ := stageExit_goesOn_iff.1 he
        exact hs
      dsimp only at h ht
      by_cases h₂ : s'.Saved
      swap
      · rw [perform_merge_of_not_saved h₂] at ht
        cases ht
        exact hstate
      obtain ⟨s₂, h₂⟩ := h₂
      rw [lastSaved_merge h₂] at ht
      cases hl : lastSaved (perform (runStages p w (idx + 1) s' stages).1) with
      | none =>
        rw [hl] at ht
        cases ht
        exact (RunState.reload_index h₂).2.trans hrun
      | some u =>
        rw [hl] at ht
        cases ht
        exact ih hrun (fun hc => h ⟨⟨s₂, h₂⟩, hc⟩) _ hl

theorem runAttempts_calls (stage : Stage ω D) (w : ω) (ctx : StageContext) (input : Dict String D)
    (left attempts : Nat) : (runAttempts stage w ctx input left attempts).1 ≤ left := by
  induction left generalizing attempts with
  | zero => exact Nat.le_refl 0
  | succ left ih =>
    rw [runAttempts]
    split
    · exact Nat.succ_le_succ (Nat.zero_le _)
    · exact Nat.succ_le_succ (Nat.zero_le _)
    · exact Nat.succ_le_succ (Nat.zero_le _)
    · exact Nat.succ_le_succ (Nat.zero_le _)
    · exact Nat.succ_le_succ (Nat.zero_le _)
    · exact Nat.succ_le_succ (ih _)

omit [StageData D] in
theorem executions_append (i : Int) (acts acts' : List (PipelineAct D T)) :
    executions i (acts ++ acts') = executions i acts + executions i acts' :=
  List.countP_append

omit [StageData D] in
theorem executions_replicate_self (i : Int) (k : Nat) :
    executions i (List.replicate k (.execute i) : List (PipelineAct D T)) = k := by
  rw [executions, List.countP_replicate, if_pos (beq_self_eq_true i)]

omit [StageData D] in
theorem executions_replicate_ne {i j : Int} (h : j ≠ i) (k : Nat) :
    executions i (List.replicate k (.execute j) : List (PipelineAct D T)) = 0 := by
  rw [executions, List.countP_replicate, if_neg]
  rw [beq_iff_eq]
  exact h

/-- The stage of an index is called in its turn only, at most once more than it may be retried. -/
theorem executions_runStages (p : Pipeline ω D) (w : ω) (stages : List (Stage ω D)) (idx : Int)
    (s : RunState D T) (i : Int) :
    (i < idx → executions i (runStages p w idx s stages).1 = 0) ∧
      ∀ (k : Nat) stage, stages[k]? = some stage → i = idx + k →
        executions i (runStages p w idx s stages).1 ≤ (stage.maxRetries + 1).toNat := by
  induction stages generalizing idx s with
  | nil =>
    refine ⟨fun _ => rfl, fun k stage hk => ?_⟩
    rw [List.getElem?_nil] at hk
    cases hk
  | cons stage stages ih =>
    have hlater : (i ≤ idx → executions i (match stageExit p w (s.enter stage idx) stage with
        | .raises _ => []
        | .ends s' => [.save s']
        | .goesOn s' => .merge idx s' :: (runStages p w (idx + 1) s' stages).1) = 0) ∧
        ∀ (k : Nat) stage', stages[k]? = some stage' → i = idx + 1 + k →
          executions i (match stageExit p w (s.enter stage idx) stage with
          | .raises _ => []
          | .ends s' => [.save s']
          | .goesOn s' => .merge idx s' :: (runStages p w (idx + 1) s' stages).1) ≤
            (stage'.maxRetries + 1).toNat := by
      cases stageExit p w (s.enter stage idx) stage with
      | raises e => exact ⟨fun _ => rfl, fun _ _ _ _ => Nat.zero_le _⟩
      | ends s' => exact ⟨fun _ => rfl, fun _ _ _ _ => Nat.zero_le _⟩
      | goesOn s' => exact ⟨fun hi => (ih (idx + 1) s').1 (by omega), (ih (idx + 1) s').2⟩
    have hsplit (acts : List (PipelineAct D T)) (n : Nat) :
        executions i (.save (s.enter stage idx) :: (List.replicate n (.execute idx) ++ acts)) =
          executions i (List.replicate n (.execute idx) : List (PipelineAct D T)) +
            executions i acts :=
      executions_append i (List.replicate n (.execute idx)) acts
    rw [runStages_cons, hsplit]
    constructor
    · intro hi
      rw [hlater.1 hi.le, executions_replicate_ne hi.ne']
    · intro k stage' hk hi
      cases k with
      | zero =>
        cases hk
        obtain rfl : i = idx := hi.trans (Int.add_zero idx)
        rw [hlater.1 le_rfl, executions_replicate_self, Nat.add_zero]
        exact runAttempts_calls ..
      | succ k =>
        rw [executions_replicate_ne (by omega), Nat.zero_add]
        exact hlater.2 k stage' hk (by omega)

theorem executions_perform_le (i : Int) (acts : List (PipelineAct D T)) :
    executions i (perform acts) ≤ executions i acts := by
  induction acts with
  | nil => exact Nat.le_refl _
  | cons a acts ih =>
    cases a with
    | execute j =>
      have h := Nat.add_le_add_left ih (executions i [(.execute j : PipelineAct D T)])
      rwa [← executions_append, ← executions_append] at h
    | save s =>
      rw [perform]
      split
      · exact ih
      · exact Nat.zero_le _
    | merge j s =>
      rw [perform]
      split
      · exact ih
      · exact Nat.zero_le _

/-- Every state that is saved by the acts has an index that is not negative. -/
def Indexed (acts : List (PipelineAct D T)) : Prop :=
  ∀ a ∈ acts, ∀ s, a.saved = some s → 0 ≤ s.currentStageIndex

omit [StageData D] in
theorem indexed_cons {a : PipelineAct D T} {acts : List (PipelineAct D T)} :
    Indexed (a :: acts) ↔ (∀ s, a.saved = some s → 0 ≤ s.currentStageIndex) ∧ Indexed acts :=
  List.forall_mem_cons

theorem stageExit_index {p : Pipeline ω D} {w : ω} {s s' : RunState D T} {stage : Stage ω D}
    (h : stageExit p w s stage = .ends s') : s'.currentStageIndex = s.currentStageIndex := by
  rw [stageExit] at h
  generalize stageRun p w s stage = run at h
  obtain ⟨calls, errors, r⟩ := run
  cases r with
  | raised text => cases h
  | paused | overBudget | exhausted =>
    cases h
    rfl
  | returned result =>
    dsimp only at h
    split at h
    · cases h
    · cases h

theorem Indexed.runStages {p : Pipeline ω D} {w : ω} {stages : List (Stage ω D)} {idx : Int}
    {s : RunState D T} (hi : 0 ≤ idx) (hs : 0 ≤ s.currentStageIndex) :
    Indexed (runStages p w idx s stages).1 := by
  induction stages generalizing idx s with
  | nil =>
    rintro a ha t ht
    cases List.mem_singleton.1 ha
    cases ht
    exact hs
  | cons stage stages ih =>
    rw [runStages_cons, indexed_cons]
    refine ⟨fun t ht => ?_, List.forall_mem_append.2 ⟨fun a ha t ht => ?_, ?_⟩⟩
    · cases ht
      exact hi
    · cases List.eq_of_mem_replicate ha
      cases ht
    · cases he : stageExit p w (s.enter stage idx) stage with
      | raises e => exact fun a ha => (nomatch ha)
      | ends s' =>
        rintro a ha t ht
        cases List.mem_singleton.1 ha
        cases ht
        rw [stageExit_index he]
        exact hi
      | goesOn s' =>
        obtain ⟨calls, errors, result, -, -, rfl⟩ := stageExit_goesOn_iff.1 he
        refine indexed_cons.2 ⟨fun t ht => ?_, ih (Int.le_add_one hi) hi⟩
        cases ht
        exact hi

theorem Indexed.perform {acts : List (PipelineAct D T)} (h : Indexed acts) :
    Indexed (perform acts) := by
  induction acts with
  | nil => exact h
  | cons a acts ih =>
    rw [indexed_cons] at h
    cases a with
    | execute j =>
      exact indexed_cons.2 ⟨by rintro s ⟨⟩, ih h.2⟩
    | save s =>
      rw [Orchestrator.perform]
      split
      · rename_i s' hs
        refine indexed_cons.2 ⟨fun t ht => ?_, ih h.2⟩
        cases ht
        rw [(RunState.reload_index hs).1]
        exact h.1 s rfl
      · exact List.forall_mem_nil _
    | merge j s =>
      rw [Orchestrator.perform]
      split
      · rename_i s' hs
        refine indexed_cons.2 ⟨fun t ht => ?_, ih h.2⟩
        cases ht
        rw [(RunState.reload_index hs).1]
        exact h.1 s rfl
      · exact List.forall_mem_nil _

omit [StageData D] in
theorem Indexed.lastSaved {journal : List (PipelineAct D T)} (h : Indexed journal)
    {s : RunState D T} (hs : lastSaved journal = some s) : 0 ≤ s.currentStageIndex := by
  obtain ⟨a, ha, hs⟩ := Option.bind_eq_some_iff.1 hs
  exact h a (List.mem_filter.1 (List.mem_of_getLast? ha)).1 s hs

omit [StageData D] in
/-- What a call starts with. -/
theorem pipelineStart_ok {p : Pipeline ω D} {initialData : Dict String D} {runId : String}
    {resume : Bool} {now : T} {stored : Option (RunState D T)} {s : RunState D T} {i : Int}
    (h : pipelineStart p initialData runId resume now stored = .ok (s, i))
    (h₀ : ∀ t, stored = some t → 0 ≤ t.currentStageIndex) :
    0 ≤ i ∧ 0 ≤ s.currentStageIndex ∧ s.state = .running := by
  cases resume with
  | true =>
    cases stored with
    | none => cases h
    | some t =>
      cases h
      exact ⟨h₀ t rfl, h₀ t rfl, rfl⟩
  | false =>
    cases h
    exact ⟨le_rfl, le_rfl, rfl⟩

theorem Indexed.runPipeline {p : Pipeline ω D} {w : ω} {initialData : Dict String D}
    {runId : String} {resume : Bool} {now : T} {stored : Option (RunState D T)}
    (h₀ : ∀ t, stored = some t → 0 ≤ t.currentStageIndex) :
    Indexed (runPipeline p w initialData runId resume now stored).1 := by
  rw [runPipeline_eq]
  cases hp : pipelineStart p initialData runId resume now stored with
  | error e => exact fun a ha => (nomatch ha)
  | ok r =>
    obtain ⟨s, i⟩ := r
    obtain ⟨hi, hs, -⟩ := pipelineStart_ok hp h₀
    dsimp only
    cases stagesFrom p.stages i with
    | none =>
      refine indexed_cons.2 ⟨fun t ht => ?_, fun a ha => (nomatch ha)⟩
      cases ht
      exact hs
    | some stages =>
      refine indexed_cons.2 ⟨fun t ht => ?_, .runStages hi hs⟩
      cases ht
      exact hs

/-- A call of `run_pipeline` on a run, with any pipeline. -/
def AnyCall (runId : String) (journal : List (PipelineAct D T))
    (c : Pipeline ω D × PipelineCall ω D T) (journal' : List (PipelineAct D T)) : Prop :=
  PipelineStep c.1 runId journal c.2 journal'

theorem indexed_of_reaches {runId : String} {journal : List (PipelineAct D T)}
    (h : Run.Reaches (AnyCall (ω := ω) runId) (fun _ _ => True) [] journal) : Indexed journal := by
  refine h.invariant (I := Indexed) (fun a ha => (nomatch ha)) ?_
  rintro journal ⟨p, c⟩ _ hi - rfl
  refine List.forall_mem_append.2 ⟨hi, fun a ha => ?_⟩
  exact (Indexed.runPipeline fun _ => hi.lastSaved).perform a (List.mem_of_mem_take ha)

/-- The persisted state is at rest; it is completed exactly when every stage from the first on has
returned what it may; no stage is called more often than once and its retries. -/
structure Settled (p : Pipeline ω D) (w : ω)
    (start : Except PipelineError (RunState D T × Int)) (persisted : Option (RunState D T))
    (acts : List (PipelineAct D T)) : Prop where
  atRest : ∃ t, persisted = some t ∧ t.AtRest
  completed : (∃ t, persisted = some t ∧ t.state = .completed) ↔
    ∃ s i, start = .ok (s, i) ∧ AllReturn p w i s (p.stages.drop i.toNat)
  calls : ∀ (i : Nat) stage, p.stages[i]? = some stage →
    (executions i acts : Int) ≤ stage.maxRetries + 1

/-- The run is calm from its start on; or its start cannot be written and the state that was stored
before is at rest, completed exactly if no stage is left. -/
def Uneventful (p : Pipeline ω D) (w : ω) (start : Except PipelineError (RunState D T × Int))
    (stored : Option (RunState D T)) : Prop :=
  ∃ s i, start = .ok (s, i) ∧
    ((s.Saved ∧ Calm p w i s (p.stages.drop i.toNat)) ∨
      (¬ s.Saved ∧ ∃ t, stored = some t ∧ t.AtRest ∧
        (t.state = .completed ↔ p.stages.drop i.toNat = [])))

theorem allReturn_of_not_saved {p : Pipeline ω D} {w : ω} {i : Int} {s : RunState D T}
    (h : ¬ s.Saved) (stages : List (Stage ω D)) : AllReturn p w i s stages ↔ stages = [] := by
  cases stages with
  | nil => exact iff_of_true trivial rfl
  | cons stage stages =>
    refine iff_of_false (fun ha => h ?_) (List.cons_ne_nil _ _)
    exact (allReturn_cons.1 ha).1

omit [StageData D] in
theorem stored_of_pipelineStart_error {p : Pipeline ω D} {initialData : Dict String D}
    {runId : String} {resume : Bool} {now : T} {stored : Option (RunState D T)} {e : PipelineError}
    (h : pipelineStart p initialData runId resume now stored = .error e) : stored = none := by
  cases resume with
  | true =>
    cases stored with
    | none => rfl
    | some t => cases h
  | false => cases h

theorem runPipeline_acts {p : Pipeline ω D} (w : ω) {initialData : Dict String D}
    {runId : String} {resume : Bool} {now : T} {stored : Option (RunState D T)} {s : RunState D T}
    {i : Int} (h : pipelineStart p initialData runId resume now stored = .ok (s, i)) (hi : 0 ≤ i) :
    (runPipeline p w initialData runId resume now stored).1 =
      .save s :: (runStages p w i s (p.stages.drop i.toNat)).1 := by
  rw [runPipeline_eq, h]
  dsimp only
  rw [stagesFrom, if_pos hi]

theorem executions_call {p : Pipeline ω D} (hr : ∀ stage ∈ p.stages, 0 ≤ stage.maxRetries) (w : ω)
    {i : Int} (hi : 0 ≤ i) (s : RunState D T) (j : Nat) {stage : Stage ω D}
    (hj : p.stages[j]? = some stage) :
    (executions j (perform (.save s :: (runStages p w i s (p.stages.drop i.toNat)).1)) : Int) ≤
      stage.maxRetries + 1 := by
  have hm := hr stage (List.mem_of_getElem? hj)
  have hle : executions j (perform (.save s :: (runStages p w i s (p.stages.drop i.toNat)).1)) ≤
      executions j (runStages p w i s (p.stages.drop i.toNat)).1 :=
    executions_perform_le ..
  obtain ⟨hz, hk⟩ := executions_runStages p w (p.stages.drop i.toNat) i s j
  by_cases hlt : (j : Int) < i
  · have h := hz hlt
    omega
  · have h := hk (j - i.toNat) stage
      (by rw [List.getElem?_drop, Nat.add_sub_cancel' (by omega)]; exact hj) (by omega)
    omega

omit [StageData D] in
theorem start_iff {s : RunState D T} {i : Int} {P : RunState D T → Int → Prop} :
    (∃ s' i', (Except.ok (s, i) : Except PipelineError _) = .ok (s', i') ∧ P s' i') ↔ P s i := by
  constructor
  · rintro ⟨s', i', he, hp⟩
    cases he
    exact hp
  · exact fun hp => ⟨s, i, rfl, hp⟩

omit [StageData D] in
theorem completed_iff {persisted : Option (RunState D T)} {t : RunState D T}
    (h : persisted = some t) :
    (∃ u, persisted = some u ∧ u.state = .completed) ↔ t.state = .completed := by
  subst h
  constructor
  · rintro ⟨u, hu, hc⟩
    cases hu
    exact hc
  · exact fun hc => ⟨t, rfl, hc⟩

/-- A call whose first save succeeds settles its run exactly if it is calm. -/
theorem settled_iff_calm {p : Pipeline ω D} (hr : ∀ stage ∈ p.stages, 0 ≤ stage.maxRetries) {w : ω}
    {s : RunState D T} {i : Int} (hi : 0 ≤ i) (hrun : s.state = .running) (hsaved : s.Saved)
    (stored : Option (RunState D T)) :
    Settled p w (.ok (s, i))
        ((lastSaved (perform
          (.save s :: (runStages p w i s (p.stages.drop i.toNat)).1))).or stored)
        (perform (.save s :: (runStages p w i s (p.stages.drop i.toNat)).1)) ↔
      Calm p w i s (p.stages.drop i.toNat) := by
  obtain ⟨s', hs'⟩ := hsaved
  rw [lastSaved_save hs']
  constructor
  · intro hset
    by_contra hcalm
    obtain ⟨t, ht, hrest⟩ := hset.atRest
    have hstate : t.state = .running := by
      cases hl : lastSaved (perform (runStages p w i s (p.stages.drop i.toNat)).1) with
      | none =>
        rw [hl] at ht
        cases ht
        exact (RunState.reload_index hs').2.trans hrun
      | some u =>
        rw [hl] at ht
        cases ht
        exact running_of_not_calm hrun hcalm _ hl
    rw [RunState.AtRest, hstate] at hrest
    obtain hrest | hrest | hrest := hrest <;> cases hrest
  · intro hcalm
    obtain ⟨t, ht, hrest, hall⟩ := hcalm.settles ⟨s', hs'⟩
    rw [ht]
    refine ⟨⟨t, rfl, hrest⟩, ?_, fun j _ hj => executions_call hr w hi s j hj⟩
    rw [start_iff, ← hall]
    exact completed_iff rfl

theorem settled_iff_of_not_saved {p : Pipeline ω D}
    (hr : ∀ stage ∈ p.stages, 0 ≤ stage.maxRetries) {w : ω} {s : RunState D T} {i : Int}
    (hsaved : ¬ s.Saved) (stored : Option (RunState D T)) :
    Settled p w (.ok (s, i)) stored [] ↔ ∃ t, stored = some t ∧ t.AtRest ∧
      (t.state = .completed ↔ p.stages.drop i.toNat = []) := by
  rw [← allReturn_of_not_saved (p := p) (w := w) (i := i) hsaved]
  constructor
  · intro hset
    obtain ⟨t, ht, hrest⟩ := hset.atRest
    have hc := hset.completed
    rw [completed_iff ht, start_iff] at hc
    exact ⟨t, ht, hrest, hc⟩
  · rintro ⟨t, ht, hrest, hc⟩
    refine ⟨⟨t, ht, hrest⟩, ?_, fun j stage hj => ?_⟩
    · rw [completed_iff ht, start_iff, hc]
    · have hm := hr stage (List.mem_of_getElem? hj)
      have hz : executions j ([] : List (PipelineAct D T)) = 0 := rfl
      omega

/-- After a call the run is settled exactly if the call was uneventful. -/
theorem pipeline_settles_iff {runId : String} {journal : List (PipelineAct D T)}
    (h : Run.Reaches (AnyCall (ω := ω) runId) (fun _ _ => True) [] journal) (p : Pipeline ω D)
    (hr : ∀ stage ∈ p.stages, 0 ≤ stage.maxRetries) (w : ω) (initialData : Dict String D)
    (resume : Bool) (now : T) :
    let start := pipelineStart p initialData runId resume now (lastSaved journal)
    let acts := perform (runPipeline p w initialData runId resume now (lastSaved journal)).1
    Settled p w start (lastSaved (journal ++ acts)) acts ↔
      Uneventful p w start (lastSaved journal) := by
  dsimp only
  rw [lastSaved_append]
  cases hs : pipelineStart p initialData runId resume now (lastSaved journal) with
  | error e =>
    rw [runPipeline_eq, hs, stored_of_pipelineStart_error hs]
    refine iff_of_false (fun hset => ?_) ?_
    · obtain ⟨t, ht, -⟩ := hset.atRest
      cases ht
    · rintro ⟨s, i, he, -⟩
      cases he
  | ok r =>
    obtain ⟨s, i⟩ := r
    obtain ⟨hi, -, hrun⟩ := pipelineStart_ok hs fun _ => (indexed_of_reaches h).lastSaved
    rw [runPipeline_acts w hs hi, Uneventful, start_iff]
    by_cases hsaved : s.Saved
    · rw [settled_iff_calm hr hi hrun hsaved, or_iff_left fun hn => hn.1 hsaved,
        and_iff_right hsaved]
    · rw [perform_save_of_not_saved hsaved, or_iff_right fun hn => hsaved hn.1,
        and_iff_right hsaved]
      exact settled_iff_of_not_saved hr hsaved _

end

/-- A pipeline of one stage that may return no key. -/
def strictPipeline : Pipeline Bool (Json WholeFloat) :=
  ⟨"p", [⟨"a", fun strays _ _ _ => .returned (some (if strays then [("x", .null)] else [])), 0,
    none, some []⟩]⟩

def strictActs (strays : Bool) : List (PipelineAct (Json WholeFloat) Int) :=
  perform (runPipeline strictPipeline strays [] "r" false 0 none).1

/-- The stage returns what it may. -/
theorem pipeline_settles_strict :
    Settled strictPipeline false (pipelineStart strictPipeline [] "r" false (0 : Int) none)
      (lastSaved (strictActs false)) (strictActs false) := by
  refine (pipeline_settles_iff (Run.Reaches.refl []) strictPipeline ?_ false [] false 0).2 ?_
  · intro stage hm
    cases List.mem_singleton.1 hm
    exact le_rfl
  · refine ⟨_, _, rfl, .inl ⟨⟨_, rfl⟩, ⟨_, rfl⟩, ?_⟩⟩
    rw [stageExit_goesOn_iff.2 ⟨_, _, _, rfl, fun keys hk k => ?_, rfl⟩]
    · exact ⟨⟨_, rfl⟩, ⟨_, rfl⟩⟩
    · cases hk
      exact Iff.rfl

/-- The stage returns a key that it does not name, and the run is left running. -/
theorem pipeline_left_running : (lastSaved (strictActs true)).map RunState.state = some .running ∧
    ¬ Settled strictPipeline true (pipelineStart strictPipeline [] "r" false (0 : Int) none)
      (lastSaved (strictActs true)) (strictActs true) := by
  have hstate : (lastSaved (strictActs true)).map RunState.state = some .running := by
    decide +kernel
  refine ⟨hstate, fun h => ?_⟩
  obtain ⟨t, ht, hrest⟩ := h.atRest
  rw [ht, Option.map_some, Option.some.injEq] at hstate
  rw [RunState.AtRest, hstate] at hrest
  obtain hrest | hrest | hrest := hrest <;> cases hrest

end Obase.Orchestrator
