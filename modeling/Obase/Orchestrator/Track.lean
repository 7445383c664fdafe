import Obase.Fallible
import Obase.Orchestrator.Goto

namespace Obase.Orchestrator
set_option autoImplicit true

/-- A stay at a node, with the failed attempts to leave it by each edge. -/
structure Visit where
  nodeId : String
  attempts : Dict String Int
deriving DecidableEq

structure Move where
  source : String
  target : String
  fromEntry : Option String
  toEntry : String
deriving DecidableEq

/-- Where a run is and the way that it took, without the evidence of its checks. -/
structure Track where
  state : RunStatus
  currentNode : Option String
  currentEntryId : Option String
  entries : Dict String Visit
  transitions : List Move
deriving DecidableEq

section
variable {D T : Type}

def RunEntry.visit (e : RunEntry D T) : Visit := ⟨e.nodeId, e.attempts⟩

def Transition.move (t : Transition D T) : Move := ⟨t.source, t.target, t.fromEntry, t.toEntry⟩

def RunState.track (s : RunState D T) : Track :=
  ⟨s.state, s.currentNode, s.currentEntryId, s.entries.mapVals RunEntry.visit,
    s.transitions.map Transition.move⟩

/-- The track of a run that has just been started. -/
def Track.start (rb : Runbook D) (entryId : String) : Track :=
  ⟨.running, some rb.initial, some entryId, [(entryId, ⟨rb.initial, []⟩)], []⟩

/-- The current entry of a running track, and the edge that leads from its node to the target. -/
structure Track.At (rb : Runbook D) (target : String) (t : Track) (i : String) (v : Visit)
    (e : Edge) : Prop where
  running : t.state = .running
  edge : rb.edgeTo t.currentNode target = some e
  current : t.currentEntryId = some i
  entry : t.entries.lookup i = some v

/-- The failed attempts at an edge. -/
def Visit.tries (v : Visit) (e : Edge) : Int := (v.attempts.lookup e.key).getD 0

def Visit.retry (v : Visit) (e : Edge) : Visit :=
  { v with attempts := v.attempts.set e.key (v.tries e + 1) }

/-- What `runbook_goto` may do to the track of a run: block it, count a failed attempt, or move to
the target under a new entry. -/
inductive GotoStep (rb : Runbook D) (target newEntryId : String) (t : Track) : Track → Prop
  | same : GotoStep rb target newEntryId t t
  | block (h : t.At rb target i v e) (hm : e.maxAttempts ≤ v.tries e) :
      GotoStep rb target newEntryId t { t with state := .blocked }
  | retry (h : t.At rb target i v e) (hm : v.tries e < e.maxAttempts) :
      GotoStep rb target newEntryId t { t with entries := t.entries.set i (v.retry e) }
  | move (h : t.At rb target i v e) (hm : v.tries e < e.maxAttempts) :
      GotoStep rb target newEntryId t
        ⟨if rb.leaves target then t.state else .completed, some target, some newEntryId,
          t.entries.set newEntryId ⟨target, []⟩,
          t.transitions ++ [⟨e.fromNode, target, t.currentEntryId, newEntryId⟩]⟩

end

section
variable {D T : Type}

variable [RunData D]

theorem RunEntry.visit_reload {e e' : RunEntry D T} (h : e.reload = .ok e') :
    e'.visit = e.visit := by
  rw [RunEntry.reload] at h
  obtain ⟨checks, -, h⟩ := bind_ok h
  obtain ⟨dynamicChecks, -, h⟩ := bind_ok h
  cases h
  rfl

theorem Transition.move_reload {t t' : Transition D T} (h : t.reload = .ok t') :
    t'.move = t.move := by
  rw [Transition.reload] at h
  obtain ⟨checks, -, h⟩ := bind_ok h
  cases h
  rfl

/-- The track of a run is persisted as it is. -/
theorem RunState.track_reload {s s' : RunState D T} (h : s.reload = .ok s') :
    s'.track = s.track := by
  rw [RunState.reload] at h
  obtain ⟨data, -, h⟩ := bind_ok h
  obtain ⟨errors, -, h⟩ := bind_ok h
  obtain ⟨entries, hentries, h⟩ := bind_ok h
  obtain ⟨transitions, htransitions, h⟩ := bind_ok h
  cases h
  have he : Dict.mapVals RunEntry.visit entries = s.entries.mapVals RunEntry.visit := by
    refine map_of_mapM (fun p q hq => ?_) hentries
    obtain ⟨e, he, rfl⟩ := map_ok hq
    rw [RunEntry.visit_reload he]
  have ht := map_of_mapM (fun _ _ => Transition.move_reload) htransitions
  rw [RunState.track, RunState.track, he, ht]

omit [RunData D] in
theorem RunState.entry_ok {s : RunState D T} {i : String} {entry : RunEntry D T}
    (h : s.entry = .ok (i, entry)) :
    s.currentEntryId = some i ∧ s.entries.lookup i = some entry := by
  rw [RunState.entry] at h
  cases hc : s.currentEntryId with
  | none =>
    rw [hc] at h
    cases h
  | some j =>
    rw [hc, Option.bind_some] at h
    cases he : s.entries.lookup j with
    | none =>
      rw [he] at h
      cases h
    | some e =>
      rw [he] at h
      cases h
      exact ⟨rfl, he⟩

omit [RunData D] in
/-- A state whose current entry has been replaced. -/
theorem RunState.track_set (s : RunState D T) (i : String) (entry : RunEntry D T) :
    ({ s with entries := s.entries.set i entry } : RunState D T).track =
      { s.track with entries := s.track.entries.set i entry.visit } := by
  rw [RunState.track, Dict.mapVals_set]
  rfl

omit [RunData D] in
/-- The state that the move to a target makes. -/
theorem gotoMove_ok {rb : Runbook D} {s s' : RunState D T} {edge : Edge} {node node' : Node D}
    {target newEntryId : String} {cb : Callbacks D} {evidence : List D} {now : T}
    (h : gotoMove rb s edge node target cb evidence newEntryId now = .ok (s', node')) :
    s' = { s with
      state := if rb.leaves target then s.state else .completed
      currentNode := some target
      currentEntryId := some newEntryId
      entries := s.entries.set newEntryId ⟨newEntryId, target, now, [], [], []⟩
      transitions := s.transitions ++
        [⟨edge.fromNode, target, s.currentEntryId, newEntryId, evidence, now⟩] } := by
  rw [gotoMove] at h
  obtain ⟨-, -, h⟩ := bind_ok h
  obtain ⟨-, -, h⟩ := bind_ok h
  obtain ⟨targetNode, -, h⟩ := bind_ok h
  obtain ⟨-, -, h⟩ := bind_ok h
  cases h
  split
  · rfl
  · rfl

omit [RunData D] in
theorem gotoMove_track {rb : Runbook D} {s s' : RunState D T} {edge : Edge} {node node' : Node D}
    {target newEntryId : String} {cb : Callbacks D} {evidence : List D} {now : T}
    (h : gotoMove rb s edge node target cb evidence newEntryId now = .ok (s', node')) :
    s'.track = ⟨if rb.leaves target then s.state else .completed, some target, some newEntryId,
      s.track.entries.set newEntryId ⟨target, []⟩,
      s.track.transitions ++ [⟨edge.fromNode, target, s.currentEntryId, newEntryId⟩]⟩ := by
  rw [gotoMove_ok h, RunState.track, Dict.mapVals_set, List.map_append]
  rfl

/-- The failed attempts of an entry at an edge. -/
def RunEntry.tries (entry : RunEntry D T) (e : Edge) : Int := (entry.attempts.lookup e.key).getD 0

/-- An entry with one more failed attempt at an edge, and what its checks have shown. -/
def RunEntry.retry (entry : RunEntry D T) (e : Edge) (evidence : List D) : RunEntry D T :=
  { entry with
    attempts := entry.attempts.set e.key (entry.tries e + 1)
    checks := entry.checks ++ evidence }

/-- All that `runbook_goto` may save, with what it has found in the state that it loaded. -/
inductive GotoSave (rb : Runbook D) (target : String) (cb : Callbacks D) (newEntryId : String)
    (now : T) (s : RunState D T) : RunState D T → Except RunError (GotoResult D) → Prop
  | block (hrun : s.state = .running) (hedge : rb.edgeTo s.currentNode target = some edge)
      (hentry : s.entry = .ok (i, entry)) (hm : edge.maxAttempts ≤ entry.tries edge) :
      GotoSave rb target cb newEntryId now s { s with state := .blocked }
        (.ok (.blocked "max_attempts exceeded"))
  | fail (hrun : s.state = .running) (hedge : rb.edgeTo s.currentNode target = some edge)
      (hentry : s.entry = .ok (i, entry)) (hm : entry.tries edge < edge.maxAttempts)
      (hnode : rb.node s.currentNode = .ok node)
      (hc : runChecks cb ⟨s.runId, s.currentNode, cb.agent⟩ 0 []
        (node.beforeTransfer ++ entry.dynamicChecks) = .failed result evidence) :
      GotoSave rb target cb newEntryId now s
        { s with entries := s.entries.set i (entry.retry edge evidence) }
        (do
          noteFailure cb s.currentNode result
          pure (.failed "before_transfer failed" result s.currentNode evidence))
  | move (hrun : s.state = .running) (hedge : rb.edgeTo s.currentNode target = some edge)
      (hentry : s.entry = .ok (i, entry)) (hm : entry.tries edge < edge.maxAttempts)
      (hnode : rb.node s.currentNode = .ok node)
      (hc : runChecks cb ⟨s.runId, s.currentNode, cb.agent⟩ 0 []
        (node.beforeTransfer ++ entry.dynamicChecks) = .passed evidence)
      (hmove : gotoMove rb s edge node target cb evidence newEntryId now = .ok (s', node')) :
      GotoSave rb target cb newEntryId now s s'
        (.ok (.ok edge.fromNode target newEntryId node'.prompt))

theorem gotoBody_save {rb : Runbook D} {s s' : RunState D T} {target newEntryId : String}
    {cb : Callbacks D} {now : T} {r : Except RunError (GotoResult D)}
    (h : gotoBody rb target cb newEntryId now s = .save s' r) :
    GotoSave rb target cb newEntryId now s s' r := by
  rw [gotoBody] at h
  split at h
  · cases h
  rename_i hrun
  have hrun := not_not.1 hrun
  split at h
  · cases h
  rename_i edge hedge
  split at h
  · cases h
  rename_i i entry hentry
  dsimp only at h
  split at h
  · rename_i hmax
    cases h
    exact .block hrun hedge hentry hmax
  rename_i hmax
  have hlt : entry.tries edge < edge.maxAttempts := Int.not_le.1 hmax
  split at h
  · cases h
  rename_i node hnode
  split at h
  · cases h
  · rename_i result evidence hc
    cases h
    exact .fail hrun hedge hentry hlt hnode hc
  · rename_i evidence hc
    split at h
    · cases h
    · rename_i s₁ node' hmove
      cases h
      exact .move hrun hedge hentry hlt hnode hc hmove

/-- What `runbook_goto` saves is a step of the track. -/
theorem gotoBody_track {rb : Runbook D} {s s' : RunState D T} {target newEntryId : String}
    {cb : Callbacks D} {now : T} {r : Except RunError (GotoResult D)}
    (h : gotoBody rb target cb newEntryId now s = .save s' r) :
    GotoStep rb target newEntryId s.track s'.track := by
  have hat : ∀ {edge i entry}, s.state = .running → rb.edgeTo s.currentNode target = some edge →
      s.entry = .ok (i, entry) → s.track.At rb target i entry.visit edge := by
    intro edge i entry hrun hedge hentry
    obtain ⟨hcur, hlook⟩ := RunState.entry_ok hentry
    refine ⟨hrun, hedge, hcur, ?_⟩
    rw [RunState.track, Dict.lookup_mapVals, hlook, Option.map_some]
  cases gotoBody_save h with
  | block hrun hedge hentry hm => exact .block (hat hrun hedge hentry) hm
  | fail hrun hedge hentry hm hnode hc =>
    rw [RunState.track_set]
    exact .retry (hat hrun hedge hentry) hm
  | move hrun hedge hentry hm hnode hc hmove =>
    rw [gotoMove_track hmove]
    exact .move (hat hrun hedge hentry) hm

end

section
variable {D T R : Type} [RunData D]

/-- A call of a run, by the persisted state that it leaves. -/
def RunStep (contentHash : Runbook D → Except RunError String) (rb : Runbook D) (runId : String)
    (stored : Option (RunState D T)) (c : RunCall D T) (stored' : Option (RunState D T)) : Prop :=
  c.after contentHash rb runId stored = stored'

/-- What a call does to the track of the persisted state. -/
inductive CallStep (contentHash : Runbook D → Except RunError String) (rb : Runbook D) :
    RunCall D T → Option Track → Option Track → Prop
  | same : CallStep contentHash rb c t t
  | start (hh : contentHash rb = .ok digest) :
      CallStep contentHash rb (.start resume entryId now) t (some (.start rb entryId))
  | goto (h : GotoStep rb target newEntryId t t') :
      CallStep contentHash rb (.goto target cb newEntryId now) (some t) (some t')

/-- A save leaves the saved track, or, if it raises, what was stored. -/
theorem Effect.commit_save (stored : Option (RunState D T)) (s : RunState D T)
    (r : Except RunError R) :
    ((Effect.save s r).commit stored).1 = stored ∨
      ∃ s', s.reload = .ok s' ∧ ((Effect.save s r).commit stored).1 = some s' := by
  rw [Effect.commit]
  split
  · rename_i s' h
    exact .inr ⟨s', h, rfl⟩
  · exact .inl rfl

/-- What is stored after a call on a stored state: that state, or what the call has saved. -/
theorem withState_saved {runId : String} {s s' : RunState D T} {body : RunState D T → Effect D T R}
    (h : (withState runId (some s) body).1 = some s') :
    s' = s ∨ ∃ s₁ r, body s = .save s₁ r ∧ s₁.reload = .ok s' := by
  rw [withState] at h
  cases hb : body s with
  | keep r =>
    rw [hb] at h
    cases h
    exact .inl rfl
  | save s₁ r =>
    rw [hb] at h
    obtain hc | ⟨s₂, hs₂, hc⟩ := Effect.commit_save (some s) s₁ r
    · rw [hc] at h
      cases h
      exact .inl rfl
    · rw [hc] at h
      cases h
      exact .inr ⟨s₁, r, rfl, hs₂⟩

omit [RunData D] in
theorem startBody_track {contentHash : Runbook D → Except RunError String} {rb : Runbook D}
    {runId entryId : String} {now : T} {s : RunState D T} {r : Except RunError (RunState D T)}
    (h : startBody contentHash rb runId entryId now = .save s r) :
    s.track = .start rb entryId ∧ ∃ hash, contentHash rb = .ok hash := by
  rw [startBody] at h
  split at h
  · cases h
  · rename_i hash hh
    cases h
    exact ⟨rfl, hash, hh⟩

omit [RunData D] in
theorem registerBody_track {check : Check D} {s s' : RunState D T} {r : Except RunError Unit}
    (h : registerBody check s = .save s' r) : s'.track = s.track := by
  rw [registerBody] at h
  split at h
  · cases h
  · rename_i i entry he
    cases h
    obtain ⟨-, hlook⟩ := RunState.entry_ok he
    have hv : s.track.entries.lookup i = some entry.visit := by
      rw [RunState.track, Dict.lookup_mapVals, hlook, Option.map_some]
    rw [RunState.track_set]
    exact congrArg (fun d => { s.track with entries := d }) (Dict.set_of_lookup hv)

/-- If all that an effect saves is in a relation to what is stored, so is what is stored after it. -/
theorem Effect.commit_track {P : Option Track → Prop} {stored : Option (RunState D T)}
    {e : Effect D T R} (h₀ : P (stored.map RunState.track))
    (h : ∀ s r, e = .save s r → P (some s.track)) :
    P ((e.commit stored).1.map RunState.track) := by
  cases e with
  | keep r => exact h₀
  | save s r =>
    obtain hc | ⟨s', hs', hc⟩ := Effect.commit_save stored s r
    · rw [hc]
      exact h₀
    · rw [hc, Option.map_some, RunState.track_reload hs']
      exact h s r rfl

theorem RunStep.track {contentHash : Runbook D → Except RunError String} {rb : Runbook D}
    {runId : String} {stored stored' : Option (RunState D T)} {c : RunCall D T}
    (h : RunStep contentHash rb runId stored c stored') :
    CallStep contentHash rb c (stored.map RunState.track) (stored'.map RunState.track) := by
  subst h
  cases c with
  | start resume entryId now =>
    rw [RunCall.after]
    unfold startRunbook
    split
    · split
      · exact .same
      · split
        · exact .same
        · exact .same
    · refine Effect.commit_track .same fun s r he => ?_
      obtain ⟨ht, hash, hh⟩ := startBody_track he
      rw [ht]
      exact .start hh
  | goto target cb newEntryId now =>
    rw [RunCall.after, runbookGoto]
    unfold withState
    split
    · exact Effect.commit_track .same fun s' r he => .goto (gotoBody_track he)
    · exact .same
  | register check =>
    rw [RunCall.after, registerDynamicCheck]
    unfold withState
    split
    · refine Effect.commit_track .same fun s' r he => ?_
      rw [registerBody_track he]
      exact .same
    · exact .same

end

end Obase.Orchestrator
