import Obase.Orchestrator.Atomicity
import Obase.Orchestrator.Persistence
import Obase.Orchestrator.Pipeline

namespace Obase.Orchestrator
set_option autoImplicit true

variable {F T : Type}

/-- A check's payload is a Python object. -/
def Check.Good (c : Check (Json F)) : Prop := c.payload.Distinct

/-- No dictionary of the entry has a key twice. -/
structure RunEntry.Good (e : RunEntry (Json F) (PyFloat F)) : Prop where
  checks : ∀ v ∈ e.checks, v.Distinct
  dynamicChecks : ∀ c ∈ e.dynamicChecks, c.Good
  attempts : e.attempts.Distinct

/-- No dictionary of the state has a key twice, and the datetime carries a timezone. -/
structure Record.Good (I : IsoTimes T) (s : Record F T) : Prop where
  aware : I.aware s.startedAt = true
  keys : s.data.Distinct
  data : ∀ p ∈ s.data, p.2.Distinct
  errors : ∀ v ∈ s.errors, v.Distinct
  entryIds : s.entries.Distinct
  entries : ∀ p ∈ s.entries, p.2.Good
  transitions : ∀ v ∈ s.transitions, v.Distinct

theorem distinctList_iff {vs : List (Json F)} :
    Value.DistinctList vs ↔ ∀ v ∈ vs, v.Distinct := by
  induction vs with
  | nil => exact iff_of_true trivial (List.forall_mem_nil _)
  | cons v vs ih => rw [Value.DistinctList, List.forall_mem_cons, ih]

theorem noneOr_distinct (s : Option String) : (noneOr s : Json F).Distinct := by
  cases s with
  | none => trivial
  | some s => trivial

theorem distinctMembers_mapVals {f : α → Json F} {d : Dict String α}
    (h : ∀ p ∈ d, (f p.2).Distinct) : Value.DistinctMembers (d.mapVals f) := by
  rw [Value.distinctMembers_iff]
  intro p hp
  obtain ⟨q, hq, rfl⟩ := List.mem_map.1 hp
  exact h q hq

theorem distinct_mapVals (f : α → β) {d : Dict String α} (h : d.Distinct) :
    (d.mapVals f).Distinct := by
  rwa [Dict.Distinct, Dict.keys_mapVals]

theorem Check.Good.toDict {c : Check (Json F)} (h : c.Good) : c.toDict.Distinct := by
  refine ⟨by simp [Dict.Distinct], ?_⟩
  exact ⟨trivial, trivial, h, trivial, trivial⟩

theorem RunEntry.Good.toDict {e : RunEntry (Json F) (PyFloat F)} (h : e.Good) :
    e.toDict.Distinct := by
  refine ⟨by simp [Dict.Distinct], trivial, trivial, trivial, distinctList_iff.2 h.checks, ?_,
    ⟨distinct_mapVals _ h.attempts, distinctMembers_mapVals fun _ _ => trivial⟩, trivial⟩
  refine distinctList_iff.2 fun v hv => ?_
  obtain ⟨c, hc, rfl⟩ := List.mem_map.1 hv
  exact (h.dynamicChecks c hc).toDict

theorem Record.Good.toDict {I : IsoTimes T} {s : Record F T} (h : s.Good I) :
    (s.toDict I).Distinct := by
  refine ⟨by simp [Dict.Distinct], trivial, trivial, trivial, trivial, noneOr_distinct _, trivial,
    noneOr_distinct _, ⟨h.keys, Value.distinctMembers_iff.2 h.data⟩, distinctList_iff.2 h.errors,
    noneOr_distinct _, noneOr_distinct _, noneOr_distinct _,
    ⟨distinct_mapVals _ h.entryIds, distinctMembers_mapVals fun p hp => (h.entries p hp).toDict⟩,
    distinctList_iff.2 h.transitions, trivial⟩

theorem get_dict (ms : List (String × Json F)) (k : String) (default : Json F) :
    Loading.get (.dict ms) k default = .ok ((ms.lookup k).getD default) := rfl

theorem item_dict {ms : List (String × Json F)} {k : String} {v : Json F}
    (h : ms.lookup k = some v) : Loading.item (.dict ms) k = .ok v := by
  rw [Loading.item, Json.getItem, h]
  rfl

theorem CheckType.ofValue_value (type : CheckType) :
    CheckType.ofValue (.str type.value : Json F) = .ok type := by
  cases type with
  | checklist => rfl
  | command => rfl
  | predicate => rfl
  | llmReview => rfl
  | manual => rfl

theorem asOptionalStr_noneOr (s : Option String) :
    Loading.asOptionalStr (noneOr s : Json F) = .ok s := by
  cases s with
  | none => rfl
  | some s => rfl

theorem Check.fromDict_toDict (newId : String) (c : Check (Json F)) :
    Check.fromDict newId c.toDict = .ok c := by
  have htype : Loading.item c.toDict "type" = .ok (.str c.type.value) :=
    item_dict (by simp [List.lookup_cons])
  have hpayload : Loading.get c.toDict "payload" (.dict []) = .ok c.payload := by
    simp [Check.toDict, get_dict, List.lookup_cons]
  have hblocking : Loading.get c.toDict "blocking" (.bool true) = .ok (.bool c.blocking) := by
    simp [Check.toDict, get_dict, List.lookup_cons]
  have hid : Loading.get c.toDict "id" (.str newId) = .ok (.str c.id) := by
    simp [Check.toDict, get_dict]
  simp only [Check.fromDict, htype, hpayload, hblocking, hid, CheckType.ofValue_value,
    Loading.asBool, Loading.asStr, bind, Except.bind, pure, Except.pure]

theorem RunEntry.fromDict_toDict (newId : String) (e : RunEntry (Json F) (PyFloat F)) :
    RunEntry.fromDict newId e.toDict = .ok e := by
  have hid : Loading.item e.toDict "entry_id" = .ok (.str e.entryId) :=
    item_dict (by simp)
  have hnode : Loading.item e.toDict "node_id" = .ok (.str e.nodeId) :=
    item_dict (by simp [List.lookup_cons])
  have htime : Loading.item e.toDict "entered_at" = .ok (.float e.enteredAt) :=
    item_dict (by simp [List.lookup_cons])
  have hchecks : Loading.get e.toDict "checks" (.list []) = .ok (.list e.checks) := by
    simp [RunEntry.toDict, get_dict, List.lookup_cons]
  have hdynamic : Loading.get e.toDict "dynamic_checks" (.list []) =
      .ok (.list (e.dynamicChecks.map Check.toDict)) := by
    simp [RunEntry.toDict, get_dict, List.lookup_cons]
  have hattempts : Loading.get e.toDict "attempts" (.dict []) =
      .ok (.dict (e.attempts.mapVals .int)) := by
    simp [RunEntry.toDict, get_dict, List.lookup_cons]
  have hmap : (e.dynamicChecks.map Check.toDict).mapM (Check.fromDict newId) =
      .ok e.dynamicChecks := mapM_map_ok fun c _ => Check.fromDict_toDict newId c
  have hcounts : ((e.attempts.mapVals .int : Dict String (Json F)).mapM fun p =>
      (Loading.asInt p.2).map (p.1, ·)) = .ok e.attempts := mapM_map_ok fun _ _ => rfl
  simp only [RunEntry.fromDict, hid, hnode, htime, hchecks, hdynamic, hattempts, Loading.asStr,
    Loading.asFloat, Loading.asList, Loading.asDict, bind, Except.bind, hmap, hcounts, pure,
    Except.pure]

theorem Record.started_isoformat {I : IsoTimes T} {t : T} (h : I.aware t = true) :
    Record.started I (.str (I.isoformat t) : Json F) = .ok t := by
  rw [Record.started, I.fromisoformat_isoformat]
  exact congrArg Except.ok (if_pos h)

/-- `from_dict` undoes `to_dict`. -/
theorem Record.fromDict_toDict {I : IsoTimes T} {s : Record F T} (h : I.aware s.startedAt = true)
    (now : T) (newId : String) : Record.fromDict I now newId (s.toDict I) = .ok s := by
  have hrun : Loading.item (s.toDict I) "run_id" = .ok (.str s.runId) := item_dict (by simp)
  have hname : Loading.item (s.toDict I) "pipeline_name" = .ok (.str s.pipelineName) :=
    item_dict (by simp [List.lookup_cons])
  have hmap : ((s.entries.mapVals RunEntry.toDict).mapM fun p =>
      (RunEntry.fromDict newId p.2).map (p.1, ·)) = .ok s.entries := by
    refine mapM_map_ok fun p _ => ?_
    rw [RunEntry.fromDict_toDict]
    rfl
  have hget (k : String) (default : Json F) : Loading.get (s.toDict I) k default =
      .ok ((List.lookup k [("run_id", .str s.runId), ("pipeline_name", .str s.pipelineName),
        ("started_at", .str (I.isoformat s.startedAt)), ("state", .str s.state),
        ("current_stage", noneOr s.currentStage),
        ("current_stage_index", .int s.currentStageIndex),
        ("paused_at_stage", noneOr s.pausedAtStage), ("data", .dict s.data),
        ("errors", .list s.errors), ("runbook_hash", noneOr s.runbookHash),
        ("current_node", noneOr s.currentNode), ("current_entry_id", noneOr s.currentEntryId),
        ("entries", .dict (s.entries.mapVals RunEntry.toDict)),
        ("transitions", .list s.transitions)]).getD default) := rfl
  rw [Record.fromDict, hrun, hname]
  simp only [hget]
  simp [List.lookup_cons, Record.started_isoformat h, asOptionalStr_noneOr, Loading.asStr,
    Loading.asInt, Loading.asList, Loading.asDict, Loading.items, bind, Except.bind, hmap, pure,
    Except.pure]

section
variable {D : Type}

/-- No dictionary of the state, its data and results apart, has a key twice. -/
structure RunState.Keyed (s : RunState D T) : Prop where
  data : s.data.Distinct
  entries : s.entries.Distinct
  attempts : ∀ p ∈ s.entries, p.2.attempts.Distinct

/-- A state whose entry under an id is another one. -/
theorem RunState.Keyed.set {s : RunState D T} (h : s.Keyed) (i : String) {entry : RunEntry D T}
    (ha : entry.attempts.Distinct) :
    ({ s with entries := s.entries.set i entry } : RunState D T).Keyed := by
  refine ⟨h.data, h.entries.set _ _, fun p hp => ?_⟩
  rcases Dict.mem_set hp with rfl | hp
  · exact ha
  · exact h.attempts p hp

theorem RunState.Keyed.entry {s : RunState D T} (h : s.Keyed) {i : String} {entry : RunEntry D T}
    (he : s.entry = .ok (i, entry)) : entry.attempts.Distinct :=
  h.attempts _ (Dict.lookup_mem (RunState.entry_ok he).2)

theorem updateData_distinct {data : Dict String D} (h : data.Distinct) (new : Dict String D) :
    (updateData data new).Distinct :=
  Dict.foldl_set_distinct h new

variable [RunData D]

theorem RunState.Keyed.reload {s s' : RunState D T} (h : s.Keyed) (hr : s.reload = .ok s') :
    s'.Keyed := by
  rw [RunState.reload] at hr
  obtain ⟨data, hdata, hr⟩ := bind_ok hr
  obtain ⟨errors, -, hr⟩ := bind_ok hr
  obtain ⟨entries, hentries, hr⟩ := bind_ok hr
  obtain ⟨transitions, -, hr⟩ := bind_ok hr
  cases hr
  have hkey {α : Type} {f : α → Except RunError α} (p q : String × α)
      (hq : (f p.2).map (p.1, ·) = .ok q) : q.1 = p.1 := by
    obtain ⟨y, -, rfl⟩ := map_ok hq
    rfl
  refine ⟨?_, ?_, fun p hp => ?_⟩
  · rw [Dict.Distinct, Dict.keys, map_of_mapM hkey hdata]
    exact h.data
  · rw [Dict.Distinct, Dict.keys, map_of_mapM hkey hentries]
    exact h.entries
  · obtain ⟨q, hq, hp⟩ := mem_of_mem_mapM hentries hp
    obtain ⟨e, he, rfl⟩ := map_ok hp
    have hv : e.attempts = q.2.attempts := congrArg Visit.attempts (RunEntry.visit_reload he)
    exact hv ▸ h.attempts q hq

/-- A state that is read back as it is. -/
structure RunState.Persisted (s : RunState D T) : Prop where
  keyed : s.Keyed
  reload : s.reload = .ok s

theorem RunState.Keyed.persisted (hD : Settles D) {s s' : RunState D T} (h : s.Keyed)
    (hr : s.reload = .ok s') : s'.Persisted :=
  ⟨h.reload hr, RunState.reload_settled hD hr⟩

/-- What is stored is read back as it is if all that a call saves has no key twice. -/
theorem Effect.commit_persisted {R : Type} (hD : Settles D) {stored : Option (RunState D T)}
    {e : Effect D T R} (h₀ : ∀ s, stored = some s → s.Persisted)
    (h : ∀ s r, e = .save s r → s.Keyed) : ∀ s, (e.commit stored).1 = some s → s.Persisted := by
  cases e with
  | keep r => exact h₀
  | save s r =>
    intro s' hs'
    obtain hc | ⟨s₁, hs₁, hc⟩ := Effect.commit_save stored s r
    · exact h₀ s' (hc.symm.trans hs')
    · rw [hc] at hs'
      cases hs'
      exact (h s r rfl).persisted hD hs₁

omit [RunData D] in
theorem startBody_keyed {contentHash : Runbook D → Except RunError String} {rb : Runbook D}
    {runId entryId : String} {now : T} {s : RunState D T} {r : Except RunError (RunState D T)}
    (h : startBody contentHash rb runId entryId now = .save s r) : s.Keyed := by
  rw [startBody] at h
  split at h
  · cases h
  · cases h
    refine ⟨List.nodup_nil, List.nodup_singleton _, fun p hp => ?_⟩
    rw [List.mem_singleton.1 hp]
    exact List.nodup_nil

/-- What `runbook_goto` saves has no key twice. -/
theorem gotoBody_keyed {rb : Runbook D} {s s' : RunState D T} {target newEntryId : String}
    {cb : Callbacks D} {now : T} {r : Except RunError (GotoResult D)} (hk : s.Keyed)
    (h : gotoBody rb target cb newEntryId now s = .save s' r) : s'.Keyed := by
  cases gotoBody_save h with
  | block hrun hedge hentry hm => exact ⟨hk.data, hk.entries, hk.attempts⟩
  | fail hrun hedge hentry hm hnode hc => exact hk.set _ ((hk.entry hentry).set _ _)
  | move hrun hedge hentry hm hnode hc hmove =>
    have ha : (⟨newEntryId, target, now, [], [], []⟩ : RunEntry D T).attempts.Distinct :=
      List.nodup_nil
    have h := hk.set newEntryId ha
    rw [gotoMove_ok hmove]
    exact ⟨h.data, h.entries, h.attempts⟩

omit [RunData D] in
theorem registerBody_keyed {check : Check D} {s s' : RunState D T} {r : Except RunError Unit}
    (hk : s.Keyed) (h : registerBody check s = .save s' r) : s'.Keyed := by
  rw [registerBody] at h
  split at h
  · cases h
  · rename_i i entry he
    cases h
    have ha := hk.entry he
    exact hk.set i ha

theorem withState_persisted {R : Type} (hD : Settles D) {runId : String}
    {stored : Option (RunState D T)} {body : RunState D T → Effect D T R}
    (h₀ : ∀ s, stored = some s → s.Persisted)
    (h : ∀ s s' r, s.Keyed → body s = .save s' r → s'.Keyed) :
    ∀ s, (withState runId stored body).1 = some s → s.Persisted := by
  cases stored with
  | none =>
    intro s hs
    cases hs
  | some s => exact Effect.commit_persisted hD h₀ fun s' r => h s s' r (h₀ s rfl).keyed

/-- A call leaves a state that is read back as it is. -/
theorem RunCall.after_persisted (hD : Settles D)
    {contentHash : Runbook D → Except RunError String} {rb : Runbook D} {runId : String}
    {stored : Option (RunState D T)} (h₀ : ∀ s, stored = some s → s.Persisted) (c : RunCall D T) :
    ∀ s, c.after contentHash rb runId stored = some s → s.Persisted := by
  cases c with
  | start resume entryId now =>
    rw [RunCall.after]
    unfold startRunbook
    split
    · split
      · exact h₀
      · split
        · exact h₀
        · exact h₀
    · exact Effect.commit_persisted hD h₀ fun s r => startBody_keyed
  | goto target cb newEntryId now =>
    exact withState_persisted hD h₀ fun s s' r => gotoBody_keyed
  | register check => exact withState_persisted hD h₀ fun s s' r => registerBody_keyed

end

section
variable {D ω : Type} [StageData D]

/-- The states that some acts save have no key twice. -/
def SavesKeyed (acts : List (PipelineAct D T)) : Prop :=
  ∀ a ∈ acts, ∀ s, a.saved = some s → s.Keyed

omit [StageData D] in
theorem SavesKeyed.save {s : RunState D T} {acts : List (PipelineAct D T)} (hs : s.Keyed)
    (h : SavesKeyed acts) : SavesKeyed (.save s :: acts) := by
  refine List.forall_mem_cons.2 ⟨fun s' hs' => ?_, h⟩
  cases hs'
  exact hs

omit [StageData D] in
theorem SavesKeyed.merge {idx : Int} {s : RunState D T} {acts : List (PipelineAct D T)}
    (hs : s.Keyed) (h : SavesKeyed acts) : SavesKeyed (.merge idx s :: acts) := by
  refine List.forall_mem_cons.2 ⟨fun s' hs' => ?_, h⟩
  cases hs'
  exact hs

omit [StageData D] in
theorem SavesKeyed.executes {acts : List (PipelineAct D T)} (h : SavesKeyed acts) (n : Nat)
    (idx : Int) : SavesKeyed (List.replicate n (.execute idx) ++ acts) := by
  refine List.forall_mem_append.2 ⟨fun a ha s hs => ?_, h⟩
  rw [List.eq_of_mem_replicate ha] at hs
  cases hs

theorem runStages_keyed {p : Pipeline ω D} {w : ω} {stages : List (Stage ω D)} {idx : Int}
    {s : RunState D T} (h : s.Keyed) : SavesKeyed (runStages p w idx s stages).1 := by
  induction stages generalizing idx s with
  | nil => exact .save ⟨h.data, h.entries, h.attempts⟩ (List.forall_mem_nil _)
  | cons stage stages ih =>
    rw [runStages]
    generalize runAttempts stage w _ _ _ 0 = run
    obtain ⟨calls, errors, r⟩ := run
    dsimp only
    have hs {acts : List (PipelineAct D T)} (ha : SavesKeyed acts) :
        SavesKeyed (.save { s with currentStage := some stage.name, currentStageIndex := idx } ::
          (List.replicate calls (.execute idx) ++ acts)) :=
      .save ⟨h.data, h.entries, h.attempts⟩ (.executes ha calls idx)
    have hnil := hs (List.forall_mem_nil _)
    rw [List.append_nil] at hnil
    cases r with
    | raised text => exact hnil
    | paused resumeData =>
      exact hs (.save ⟨updateData_distinct h.data _, h.entries, h.attempts⟩ (List.forall_mem_nil _))
    | overBudget error =>
      exact hs (.save ⟨h.data, h.entries, h.attempts⟩ (List.forall_mem_nil _))
    | exhausted => exact hs (.save ⟨h.data, h.entries, h.attempts⟩ (List.forall_mem_nil _))
    | returned result =>
      have hk : ({ s with
          currentStage := some stage.name
          currentStageIndex := idx
          errors := s.errors ++ errors
          data := updateData s.data result } : RunState D T).Keyed :=
        ⟨updateData_distinct h.data _, h.entries, h.attempts⟩
      dsimp only
      split
      · exact hnil
      · exact hs (.merge hk (ih hk))

/-- The states that a pipeline saves have no key twice. -/
theorem runPipeline_keyed {p : Pipeline ω D} {w : ω} {initialData : Dict String D}
    {runId : String} {resume : Bool} {now : T} {stored : Option (RunState D T)}
    (hd : initialData.Distinct) (h : ∀ s, stored = some s → s.Keyed) :
    SavesKeyed (runPipeline p w initialData runId resume now stored).1 := by
  unfold runPipeline
  cases resume with
  | false =>
    dsimp only
    split
    · exact .save ⟨hd, List.nodup_nil, List.forall_mem_nil _⟩ (List.forall_mem_nil _)
    · exact .save ⟨hd, List.nodup_nil, List.forall_mem_nil _⟩
        (runStages_keyed ⟨hd, List.nodup_nil, List.forall_mem_nil _⟩)
  | true =>
    cases stored with
    | none => exact List.forall_mem_nil _
    | some s =>
      have hs := h s rfl
      have hk : ({ s with state := .running, pausedAtStage := none } : RunState D T).Keyed :=
        ⟨hs.data, hs.entries, hs.attempts⟩
      dsimp only
      split
      · exact .save hk (List.forall_mem_nil _)
      · exact .save hk (runStages_keyed hk)

/-- The acts that are performed save states that are read back as they are. -/
theorem perform_persisted (hD : Settles D) {acts : List (PipelineAct D T)} (h : SavesKeyed acts) :
    ∀ a ∈ perform acts, ∀ s, a.saved = some s → s.Persisted := by
  induction acts with
  | nil => exact List.forall_mem_nil _
  | cons a acts ih =>
    obtain ⟨ha, hacts⟩ := List.forall_mem_cons.1 h
    cases a with
    | execute idx =>
      refine List.forall_mem_cons.2 ⟨fun s hs => ?_, ih hacts⟩
      cases hs
    | save s₀ =>
      rw [perform]
      split
      · rename_i s' hr
        refine List.forall_mem_cons.2 ⟨fun s hs => ?_, ih hacts⟩
        cases hs
        exact (ha s₀ rfl).persisted hD hr
      · exact List.forall_mem_nil _
    | merge idx s₀ =>
      rw [perform]
      split
      · rename_i s' hr
        refine List.forall_mem_cons.2 ⟨fun s hs => ?_, ih hacts⟩
        cases hs
        exact (ha s₀ rfl).persisted hD hr
      · exact List.forall_mem_nil _

end

/-- What is stored for a run is read back as it is. -/
theorem Stored.persisted {D : Type} [StageData D] (hD : Settles D)
    {contentHash : Runbook D → Except RunError String} {runId : String}
    {stored : Option (RunState D T)} (h : Stored contentHash runId stored) :
    ∀ s, stored = some s → s.Persisted := by
  induction h with
  | nothing =>
    intro s hs
    cases hs
  | call rb c h ih => exact RunCall.after_persisted hD ih c
  | pipeline p w hd resume now h ha hs ih =>
    intro s hs'
    cases hs'
    exact perform_persisted hD (runPipeline_keyed hd fun s hs => (ih s hs).keyed) _ ha _ hs

section
variable [Json.FloatText F]

theorem reload_distinct {v : Json F} (h : RunData.reload v = .ok v) : v.Distinct := by
  have hv : Json.roundTrip v = v := Except.ok.inj h
  rw [← hv]
  exact Value.build_distinct _

theorem RunEntry.good {e : RunEntry (Json F) (PyFloat F)} (ha : e.attempts.Distinct)
    (hr : e.reload = .ok e) : e.Good := by
  rw [RunEntry.reload] at hr
  obtain ⟨checks, hchecks, hr⟩ := bind_ok hr
  obtain ⟨dynamicChecks, hdynamic, hr⟩ := bind_ok hr
  have he := Except.ok.inj hr
  have hc : checks = e.checks := congrArg RunEntry.checks he
  have hd : dynamicChecks = e.dynamicChecks := congrArg RunEntry.dynamicChecks he
  rw [hc] at hchecks
  rw [hd] at hdynamic
  refine ⟨fun v hv => reload_distinct (ok_of_mapM_self hchecks v hv), fun c hc => ?_, ha⟩
  have hr := ok_of_mapM_self hdynamic c hc
  rw [Check.reload] at hr
  obtain ⟨payload, hp, hr⟩ := bind_ok hr
  have hpc : payload = c.payload := congrArg Check.payload (Except.ok.inj hr)
  exact reload_distinct (hp.trans (congrArg Except.ok hpc))

theorem Transition.toDict_distinct {t : Transition (Json F) (PyFloat F)}
    (h : t.reload = .ok t) : t.toDict.Distinct := by
  rw [Transition.reload] at h
  obtain ⟨checks, hchecks, h⟩ := bind_ok h
  have hc : checks = t.checks := congrArg Transition.checks (Except.ok.inj h)
  rw [hc] at hchecks
  refine ⟨by simp [Dict.Distinct], trivial, trivial, noneOr_distinct _, trivial, ?_, trivial, trivial⟩
  exact distinctList_iff.2 fun v hv => reload_distinct (ok_of_mapM_self hchecks v hv)

theorem RunState.Persisted.good {I : IsoTimes T} {s : RunState (Json F) (PyFloat F)}
    (h : s.Persisted) {startedAt : T} (ha : I.aware startedAt = true) :
    (s.record startedAt).Good I := by
  obtain ⟨hdata, herrors, hentries, htransitions⟩ := RunState.reload_self h.reload
  refine ⟨ha, h.keyed.data, fun p hp => ?_, fun v hv => ?_, h.keyed.entries, fun p hp => ?_,
    fun v hv => ?_⟩
  · obtain ⟨v, hv, he⟩ := map_ok (ok_of_mapM_self hdata p hp)
    exact reload_distinct (hv.trans (congrArg (Except.ok ·.2) he.symm))
  · exact reload_distinct (ok_of_mapM_self herrors v hv)
  · obtain ⟨e, hv, he⟩ := map_ok (ok_of_mapM_self hentries p hp)
    exact RunEntry.good (h.keyed.attempts p hp) (hv.trans (congrArg (Except.ok ·.2) he.symm))
  · obtain ⟨t, ht, rfl⟩ := List.mem_map.1 hv
    exact Transition.toDict_distinct (ok_of_mapM_self htransitions t ht)

/-- What is stored for a run, and can be saved once more. -/
theorem Stored.good {contentHash : Runbook (Json F) → Except RunError String} {runId : String}
    {I : IsoTimes T} {s : RunState (Json F) (PyFloat F)} (h : Stored contentHash runId (some s))
    {startedAt : T} (ha : I.aware startedAt = true) : (s.record startedAt).Good I :=
  (h.persisted json_settles s rfl).good ha

end

end Obase.Orchestrator
