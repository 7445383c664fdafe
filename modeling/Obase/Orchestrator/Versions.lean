import Obase.Orchestrator.Walk

namespace Obase.Orchestrator
set_option autoImplicit true

section
variable {D T : Type} [RunData D]

/-- A call on a run with the runbook that it is given. -/
def VersionStep (contentHash : Runbook D → Except RunError String) (runId : String)
    (stored : Option (RunState D T)) (a : Runbook D × RunCall D T)
    (stored' : Option (RunState D T)) : Prop :=
  RunStep contentHash a.1 runId stored a.2 stored'

/-- The runbook has the content hash that the run has stored. -/
def RunState.Under (contentHash : Runbook D → Except RunError String) (s : RunState D T)
    (rb : Runbook D) : Prop :=
  ∃ digest, contentHash rb = .ok digest ∧ s.runbookHash = some digest

/-- A goto that finds the run running, and in its runbook an edge to the target, is given the runbook
of the stored hash. -/
def StoredVersion (contentHash : Runbook D → Except RunError String)
    (stored : Option (RunState D T)) : Runbook D × RunCall D T → Prop
  | (rb, .goto target _ _ _) => ∀ s, stored = some s → s.state = .running →
      (rb.edgeTo s.currentNode target).isSome → s.Under contentHash rb
  | _ => True

/-- Every check of the node that is not passed is not blocking. -/
def Node.Passes (node : Node D) (cb : Callbacks D) (ctx : CheckContext D) : Prop :=
  ∀ n chk, node.beforeTransfer[n]? = some chk → chk.blocking = true →
    ∃ result, cb.checkRunner n chk ctx = .ok result ∧ RunData.passed result = .ok true

/-- A call, with the state that it finds, that is a goto with the runbook and records the move once
the checks of the node that it leaves have passed. -/
inductive Records (rb : Runbook D) (runId : String) (m : Move) :
    Option (RunState D T) × (Runbook D × RunCall D T) → Prop
  | goto {s s' : RunState D T}
      (hs : (runbookGoto rb runId target cb newEntryId now (some s)).1 = some s')
      (hm : s'.track.transitions = s.track.transitions ++ [m])
      (hn : rb.nodes.lookup m.source = some node)
      (hp : node.Passes cb ⟨s.runId, some m.source, cb.agent⟩) :
      Records rb runId m (some s, (rb, .goto target cb newEntryId now))

theorem runChecks_passed {cb : Callbacks D} {ctx : CheckContext D} {chks : List (Check D)}
    {n : Nat} {evidence evidence' : List D}
    (h : runChecks cb ctx n evidence chks = .passed evidence') :
    ∀ k chk, chks[k]? = some chk → chk.blocking = true →
      ∃ result, cb.checkRunner (n + k) chk ctx = .ok result ∧ RunData.passed result = .ok true := by
  induction chks generalizing n evidence with
  | nil =>
    intro k chk hk
    cases hk
  | cons chk chks ih =>
    rw [runChecks] at h
    dsimp only at h
    split at h
    · cases h
    rename_i result kept passed hitem
    split at h
    · rename_i hpassed
      intro k c hk hb
      cases k with
      | zero =>
        cases hk
        obtain ⟨r, hr, hitem⟩ := bind_ok hitem
        obtain ⟨e, he, hitem⟩ := bind_ok hitem
        rw [if_pos hb] at hitem
        obtain ⟨p, hp, hitem⟩ := bind_ok hitem
        cases hitem
        rw [hpassed] at hp
        exact ⟨result, hr, hp⟩
      | succ k =>
        rw [← Nat.add_assoc, Nat.add_right_comm]
        exact ih h k c hk hb
    · cases h

theorem RunState.runbookHash_reload {s s' : RunState D T} (h : s.reload = .ok s') :
    s'.runbookHash = s.runbookHash := by
  rw [RunState.reload] at h
  obtain ⟨data, -, h⟩ := bind_ok h
  obtain ⟨errors, -, h⟩ := bind_ok h
  obtain ⟨entries, -, h⟩ := bind_ok h
  obtain ⟨transitions, -, h⟩ := bind_ok h
  cases h
  rfl

omit [RunData D] in
theorem registerBody_runbookHash {check : Check D} {s s' : RunState D T} {r : Except RunError Unit}
    (h : registerBody check s = .save s' r) : s'.runbookHash = s.runbookHash := by
  rw [registerBody] at h
  split at h
  · cases h
  · cases h
    rfl

omit [RunData D] in
theorem Runbook.node_ok {rb : Runbook D} {name : String} {node : Node D}
    (h : rb.node (some name) = .ok node) : rb.nodes.lookup name = some node := by
  rw [Runbook.node, Option.bind_some] at h
  split at h
  · rename_i n hn
    cases h
    exact hn
  · cases h

/-- What a goto saves keeps the stored hash, and has at most one transition more, which leads over
an edge of the runbook of the goto and leaves a node whose checks have passed. -/
theorem GotoSave.transition {rb : Runbook D} {s s' : RunState D T} {target newEntryId : String}
    {cb : Callbacks D} {now : T} {r : Except RunError (GotoResult D)}
    (h : GotoSave rb target cb newEntryId now s s' r) :
    s'.runbookHash = s.runbookHash ∧ (s'.track.transitions = s.track.transitions ∨
      ∃ m node, s'.track.transitions = s.track.transitions ++ [m] ∧
        (∃ e ∈ rb.edges, e.fromNode = m.source ∧ e.toNode = m.target) ∧
        rb.nodes.lookup m.source = some node ∧
        node.Passes cb ⟨s.runId, some m.source, cb.agent⟩) := by
  cases h with
  | block => exact ⟨rfl, .inl rfl⟩
  | fail => exact ⟨rfl, .inl rfl⟩
  | @move edge i entry node evidence s' node' hrun hedge hentry hm hnode hc hmove =>
    obtain ⟨hmem, hsource, htarget⟩ := Runbook.edgeTo_some hedge
    rw [← hsource] at hnode hc
    have hs := gotoMove_ok hmove
    refine ⟨?_, .inr ⟨⟨edge.fromNode, target, s.currentEntryId, newEntryId⟩, node, ?_, ?_, ?_, ?_⟩⟩
    · rw [hs]
    · rw [gotoMove_track hmove]
    · exact ⟨edge, hmem, rfl, htarget⟩
    · exact Runbook.node_ok hnode
    · intro n chk hn hb
      have hpassed := runChecks_passed hc n chk
      rw [Nat.zero_add] at hpassed
      apply hpassed _ hb
      exact List.getElem?_append_left (List.getElem?_eq_some_iff.1 hn).1 ▸ hn

theorem GotoSave.edge {rb : Runbook D} {s s' : RunState D T} {target newEntryId : String}
    {cb : Callbacks D} {now : T} {r : Except RunError (GotoResult D)}
    (h : GotoSave rb target cb newEntryId now s s' r) :
    s.state = .running ∧ (rb.edgeTo s.currentNode target).isSome := by
  cases h with
  | block hrun hedge => exact ⟨hrun, Option.isSome_of_eq_some hedge⟩
  | fail hrun hedge => exact ⟨hrun, Option.isSome_of_eq_some hedge⟩
  | move hrun hedge => exact ⟨hrun, Option.isSome_of_eq_some hedge⟩

/-- What may be stored after a call: a run that the runbook of the call has started, or the run from
before it, with one transition more if the call is a goto that records it. -/
inductive VersionSaved (contentHash : Runbook D → Except RunError String) (runId : String)
    (stored : Option (RunState D T)) (rb : Runbook D) (s' : RunState D T) : RunCall D T → Prop
  | start (hu : s'.Under contentHash rb) (ht : s'.track.transitions = []) :
      VersionSaved contentHash runId stored rb s' c
  | same (hs : stored = some s) (hh : s'.runbookHash = s.runbookHash)
      (ht : s'.track.transitions = s.track.transitions) :
      VersionSaved contentHash runId stored rb s' c
  | goto (hs : stored = some s) (hh : s'.runbookHash = s.runbookHash) (hrun : s.state = .running)
      (hedge : (rb.edgeTo s.currentNode target).isSome)
      (ht : s'.track.transitions = s.track.transitions ++ [m])
      (he : ∃ e ∈ rb.edges, e.fromNode = m.source ∧ e.toNode = m.target)
      (hr : Records rb runId m (some s, (rb, .goto target cb newEntryId now))) :
      VersionSaved contentHash runId stored rb s' (.goto target cb newEntryId now)

theorem VersionSaved.refl {contentHash : Runbook D → Except RunError String} {runId : String}
    {s : RunState D T} {rb : Runbook D} {c : RunCall D T} :
    VersionSaved contentHash runId (some s) rb s c :=
  .same rfl rfl rfl

theorem startRunbook_saved {contentHash : Runbook D → Except RunError String} {runId : String}
    {stored : Option (RunState D T)} {rb : Runbook D} {s' : RunState D T} {resume : Bool}
    {entryId : String} {now : T}
    (h : (startRunbook contentHash rb runId resume entryId now stored).1 = some s') :
    VersionSaved contentHash runId stored rb s' (.start resume entryId now) := by
  unfold startRunbook at h
  split at h
  · split at h
    · cases h
      exact .refl
    · split at h
      · cases h
        exact .refl
      · cases h
        exact .refl
  · unfold startBody at h
    split at h
    · subst h
      exact .refl
    · rename_i digest hdigest
      obtain hc | ⟨s₁, hs₁, hc⟩ := Effect.commit_save (R := RunState D T) stored _ _
      · rw [hc] at h
        subst h
        exact .refl
      · rw [hc] at h
        cases h
        apply VersionSaved.start
        · exact ⟨digest, hdigest, RunState.runbookHash_reload hs₁⟩
        · rw [RunState.track_reload hs₁]
          rfl

theorem runbookGoto_saved {contentHash : Runbook D → Except RunError String} {runId : String}
    {s : RunState D T} {rb : Runbook D} {s' : RunState D T} {target newEntryId : String}
    {cb : Callbacks D} {now : T}
    (h : (runbookGoto rb runId target cb newEntryId now (some s)).1 = some s') :
    VersionSaved contentHash runId (some s) rb s' (.goto target cb newEntryId now) := by
  obtain rfl | ⟨s₁, r, hb, hs₁⟩ := withState_saved h
  · exact .refl
  · have hsave := gotoBody_save hb
    obtain ⟨hrun, hedge⟩ := hsave.edge
    obtain ⟨hh, ht⟩ := hsave.transition
    rw [← RunState.runbookHash_reload hs₁] at hh
    rw [← RunState.track_reload hs₁] at ht
    obtain ht | ⟨m, node, ht, he, hn, hp⟩ := ht
    · exact .same rfl hh ht
    · exact .goto rfl hh hrun hedge ht he (.goto h ht hn hp)

theorem registerDynamicCheck_saved {contentHash : Runbook D → Except RunError String}
    {runId : String} {s : RunState D T} {rb : Runbook D} {s' : RunState D T} {check : Check D}
    (h : (registerDynamicCheck runId check (some s)).1 = some s') :
    VersionSaved contentHash runId (some s) rb s' (.register check) := by
  obtain rfl | ⟨s₁, r, hb, hs₁⟩ := withState_saved h
  · exact .refl
  · apply VersionSaved.same rfl
    · rw [RunState.runbookHash_reload hs₁]
      exact registerBody_runbookHash hb
    · rw [RunState.track_reload hs₁, registerBody_track hb]

theorem VersionStep.saved {contentHash : Runbook D → Except RunError String} {runId : String}
    {stored : Option (RunState D T)} {a : Runbook D × RunCall D T} {s' : RunState D T}
    (h : VersionStep contentHash runId stored a (some s')) :
    VersionSaved contentHash runId stored a.1 s' a.2 := by
  obtain ⟨rb, c⟩ := a
  cases c with
  | start resume entryId now => exact startRunbook_saved h
  | goto target cb newEntryId now =>
    cases stored with
    | none => cases h
    | some s => exact runbookGoto_saved h
  | register check =>
    cases stored with
    | none => cases h
    | some s => exact registerDynamicCheck_saved h

/-- A run that one of the runbooks has been started with, and all of whose transitions are taken over
edges of that runbook and recorded by a goto with it. -/
def FollowsStored (contentHash : Runbook D → Except RunError String) (known : Runbook D → Prop)
    (runId : String) (s : RunState D T)
    (history : List (Option (RunState D T) × (Runbook D × RunCall D T))) : Prop :=
  ∃ rb, known rb ∧ s.Under contentHash rb ∧ ∀ m ∈ s.track.transitions,
    (∃ e ∈ rb.edges, e.fromNode = m.source ∧ e.toNode = m.target) ∧
      ∃ call ∈ history, Records rb runId m call

theorem FollowsStored.step {contentHash : Runbook D → Except RunError String}
    {known : Runbook D → Prop} {runId : String} {stored : Option (RunState D T)}
    {a : Runbook D × RunCall D T} {s' : RunState D T}
    {history : List (Option (RunState D T) × (Runbook D × RunCall D T))}
    (hinj : ∀ rb rb' digest, known rb → known rb' → contentHash rb = .ok digest →
      contentHash rb' = .ok digest → rb = rb')
    (hI : ∀ s, stored = some s → FollowsStored contentHash known runId s history)
    (hknown : known a.1) (hstored : StoredVersion contentHash stored a)
    (h : VersionStep contentHash runId stored a (some s')) :
    FollowsStored contentHash known runId s' (history ++ [(stored, a)]) := by
  obtain ⟨rb, c⟩ := a
  cases h.saved with
  | start hu ht =>
    refine ⟨rb, hknown, hu, ?_⟩
    intro m hm
    rw [ht] at hm
    cases hm
  | same hs hh ht =>
    obtain ⟨rb₀, hknown₀, ⟨digest, hdigest, hhash⟩, hall⟩ := hI _ hs
    refine ⟨rb₀, hknown₀, ⟨digest, hdigest, hh.trans hhash⟩, ?_⟩
    intro m hm
    rw [ht] at hm
    obtain ⟨he, call, hcall, hr⟩ := hall m hm
    exact ⟨he, call, List.mem_append_left _ hcall, hr⟩
  | goto hs hh hrun hedge ht he hr =>
    subst hs
    obtain ⟨rb₀, hknown₀, ⟨digest, hdigest, hhash⟩, hall⟩ := hI _ rfl
    obtain ⟨digest', hdigest', hhash'⟩ := hstored _ rfl hrun hedge
    rw [hhash] at hhash'
    cases hhash'
    have hrb := hinj rb₀ rb digest hknown₀ hknown hdigest hdigest'
    subst hrb
    refine ⟨rb₀, hknown₀, ⟨digest, hdigest, hh.trans hhash⟩, ?_⟩
    intro m' hm'
    rw [ht] at hm'
    obtain hm' | hm' := List.mem_append.1 hm'
    · obtain ⟨he', call, hcall, hr'⟩ := hall m' hm'
      exact ⟨he', call, List.mem_append_left _ hcall, hr'⟩
    · rw [List.mem_singleton.1 hm']
      exact ⟨he, _, List.mem_append_right _ (List.mem_singleton_self _), hr⟩

/-- In every run whose gotos are given the runbook of the stored hash, each transition follows that
runbook. -/
theorem transitions_follow_stored {contentHash : Runbook D → Except RunError String}
    {known : Runbook D → Prop} {runId : String} {stored : Option (RunState D T)}
    {history : List (Option (RunState D T) × (Runbook D × RunCall D T))}
    (hinj : ∀ rb rb' digest, known rb → known rb' → contentHash rb = .ok digest →
      contentHash rb' = .ok digest → rb = rb')
    (h : Run.Reaches (Run.Recorded (VersionStep contentHash runId))
      (fun p a => known a.1 ∧ StoredVersion contentHash p.1 a) (none, []) (stored, history)) :
    ∀ s, stored = some s → FollowsStored contentHash known runId s history := by
  apply h.invariant (I := fun p => ∀ s, p.1 = some s → FollowsStored contentHash known runId s p.2)
  · intro s hs
    cases hs
  · intro p a q hI hallowed hstep s' hs'
    obtain ⟨hstep, hhistory⟩ := hstep
    rw [hhistory]
    rw [hs'] at hstep
    exact FollowsStored.step hinj hI hallowed.1 hallowed.2 hstep

end

/-- A runbook with one edge, from its initial node to the target. -/
def versionRunbook (target : String) : Runbook (Json WholeFloat) :=
  ⟨"p", "a", [("a", bareNode "a" []), ("b", bareNode "b" [])], [⟨"a", target, "", none, 3⟩], "1"⟩

def versionDigest : List UInt8 → List UInt8 := knownDigest [
  ("\x7b\"edges\": [\x7b\"condition\": \"\", \"from_node\": \"a\", \"hook\": null, \"max" ++
      "_attempts\": 3, \"to_node\": \"b\"\x7d], \"initial\": \"a\", \"name\": \"p\", \"node" ++
      "s\": \x7b\"a\": \x7b\"before_transfer\": [], \"id\": \"a\", \"in_hook\": null, \"out" ++
      "_hook\": null, \"prompt\": \"\"\x7d, \"b\": \x7b\"before_transfer\": [], \"id\": \"b" ++
      "\", \"in_hook\": null, \"out_hook\": null, \"prompt\": \"\"\x7d\x7d, \"version\": \"" ++
      "1\"\x7d",
      "5b9e1ef84674f2f8f6f82d36e0d6384426ad911391dc89c9e437866a628cdb12"),
  ("\x7b\"edges\": [\x7b\"condition\": \"\", \"from_node\": \"a\", \"hook\": null, \"max" ++
      "_attempts\": 3, \"to_node\": \"a\"\x7d], \"initial\": \"a\", \"name\": \"p\", \"node" ++
      "s\": \x7b\"a\": \x7b\"before_transfer\": [], \"id\": \"a\", \"in_hook\": null, \"out" ++
      "_hook\": null, \"prompt\": \"\"\x7d, \"b\": \x7b\"before_transfer\": [], \"id\": \"b" ++
      "\", \"in_hook\": null, \"out_hook\": null, \"prompt\": \"\"\x7d\x7d, \"version\": \"" ++
      "1\"\x7d",
      "7b65beda658acae3128a8bd8fd24b3444b17610adf7f07d484daf61460d11cda")]

/-- A runbook and the one that it is edited to. -/
def IsVersion (rb : Runbook (Json WholeFloat)) : Prop :=
  rb = versionRunbook "b" ∨ rb = versionRunbook "a"

/-- Every check passes. -/
def passing : Callbacks (Json WholeFloat) :=
  ⟨fun _ _ _ => .ok (.dict [("passed", .bool true)]), none, none, .dict []⟩

def startVersion : Runbook (Json WholeFloat) × RunCall (Json WholeFloat) Int :=
  (versionRunbook "b", .start true "e" 0)

def gotoVersion (target : String) : Runbook (Json WholeFloat) × RunCall (Json WholeFloat) Int :=
  (versionRunbook target, .goto target passing "f" 1)

/-- What is stored after the start of the first version. -/
def versionStarted : Option (RunState (Json WholeFloat) Int) :=
  startVersion.2.after (Runbook.contentHash versionDigest) startVersion.1 "r" none

/-- What is stored after a goto with the version of the target. -/
def versionRun (target : String) : Option (RunState (Json WholeFloat) Int) :=
  (gotoVersion target).2.after (Runbook.contentHash versionDigest) (gotoVersion target).1 "r"
    versionStarted

def versionHistory (target : String) :
    List (Option (RunState (Json WholeFloat) Int) ×
      (Runbook (Json WholeFloat) × RunCall (Json WholeFloat) Int)) :=
  [(none, startVersion), (versionStarted, gotoVersion target)]

theorem versionHash_b :
    Runbook.contentHash versionDigest (versionRunbook "b") = .ok "5b9e1ef84674f2f8" :=
  ok_of_toOption (by decide +kernel)

theorem versionHash_a :
    Runbook.contentHash versionDigest (versionRunbook "a") = .ok "7b65beda658acae3" :=
  ok_of_toOption (by decide +kernel)

theorem IsVersion.eq_of_hash (rb rb' : Runbook (Json WholeFloat)) (digest : String)
    (h : IsVersion rb) (h' : IsVersion rb')
    (hh : Runbook.contentHash versionDigest rb = .ok digest)
    (hh' : Runbook.contentHash versionDigest rb' = .ok digest) : rb = rb' := by
  obtain rfl | rfl := h
  · obtain rfl | rfl := h'
    · rfl
    · rw [versionHash_b] at hh
      rw [versionHash_a, ← hh] at hh'
      exact absurd (Except.ok.inj hh') (by decide)
  · obtain rfl | rfl := h'
    · rw [versionHash_a] at hh
      rw [versionHash_b, ← hh] at hh'
      exact absurd (Except.ok.inj hh') (by decide)
    · rfl

/-- The state that the start stores. -/
def versionState : RunState (Json WholeFloat) Int :=
  { runId := "r", pipelineName := "p", startedAt := 0, state := .running, currentStage := none,
    currentStageIndex := 0, pausedAtStage := none, data := [], errors := [],
    runbookHash := some "5b9e1ef84674f2f8", currentNode := some "a", currentEntryId := some "e",
    entries := [("e", ⟨"e", "a", 0, [], [], []⟩)], transitions := [] }

theorem versionStarted_eq : versionStarted = some versionState := by
  rw [versionStarted, startVersion, RunCall.after]
  unfold startRunbook startBody
  rw [versionHash_b]
  rfl

theorem versionRun_eq (target : String) (h : target = "a" ∨ target = "b") :
    (versionRun target).map (fun s => (s.runbookHash, s.track.transitions)) =
      some (some "5b9e1ef84674f2f8", [⟨"a", target, some "e", "f"⟩]) := by
  rw [versionRun, versionStarted_eq]
  obtain rfl | rfl := h
  · decide +kernel
  · decide +kernel

theorem transitions_follow_stored_version :
    ∃ s, versionRun "b" = some s ∧ s.track.transitions = [⟨"a", "b", some "e", "f"⟩] ∧
      FollowsStored (Runbook.contentHash versionDigest) IsVersion "r" s (versionHistory "b") := by
  obtain ⟨s, hs, ht⟩ := Option.map_eq_some_iff.1 (versionRun_eq "b" (.inr rfl))
  refine ⟨s, hs, congrArg Prod.snd ht, ?_⟩
  apply transitions_follow_stored IsVersion.eq_of_hash _ s hs
  apply Run.Reaches.tail (t := (versionStarted, [(none, startVersion)])) (a := gotoVersion "b")
  · apply Run.Reaches.tail (Run.Reaches.refl _) (a := startVersion)
    · exact ⟨.inl rfl, trivial⟩
    · exact ⟨rfl, rfl⟩
  · refine ⟨.inl rfl, ?_⟩
    intro s₁ hs₁ _ _
    rw [versionStarted_eq] at hs₁
    cases hs₁
    exact ⟨_, versionHash_b, rfl⟩
  · exact ⟨rfl, rfl⟩

/-- The content hash tells the two versions apart, and still a goto with the edited one takes an edge
that the one of the stored hash does not have. -/
theorem edited_runbook_drives :
    (∀ rb rb' digest, IsVersion rb → IsVersion rb' →
      Runbook.contentHash versionDigest rb = .ok digest →
        Runbook.contentHash versionDigest rb' = .ok digest → rb = rb') ∧
    ¬ ∀ (stored : Option (RunState (Json WholeFloat) Int)) history, Run.Reaches
      (Run.Recorded (VersionStep (Runbook.contentHash versionDigest) "r"))
        (fun _ a => IsVersion a.1) (none, []) (stored, history) →
      ∀ s, stored = some s →
        FollowsStored (Runbook.contentHash versionDigest) IsVersion "r" s history := by
  refine ⟨IsVersion.eq_of_hash, ?_⟩
  intro h
  obtain ⟨s, hs, ht⟩ := Option.map_eq_some_iff.1 (versionRun_eq "a" (.inl rfl))
  obtain ⟨hhash, hmoves⟩ := Prod.mk.inj ht
  have hrun : Run.Reaches (Run.Recorded (VersionStep (Runbook.contentHash versionDigest) "r"))
      (fun _ a => IsVersion a.1) (none, []) (versionRun "a", versionHistory "a") := by
    apply Run.Reaches.tail (t := (versionStarted, [(none, startVersion)])) (a := gotoVersion "a")
    · apply Run.Reaches.tail (Run.Reaches.refl _) (a := startVersion)
      · exact .inl rfl
      · exact ⟨rfl, rfl⟩
    · exact .inr rfl
    · exact ⟨rfl, rfl⟩
  obtain ⟨rb, hrb, ⟨digest, hdigest, hstored⟩, hall⟩ := h _ _ hrun s hs
  rw [hhash] at hstored
  cases hstored
  have hrb := IsVersion.eq_of_hash rb _ _ hrb (.inl rfl) hdigest versionHash_b
  subst hrb
  rw [hmoves] at hall
  obtain ⟨he, -⟩ := hall _ (List.mem_singleton_self _)
  exact absurd he (by decide)

end Obase.Orchestrator
