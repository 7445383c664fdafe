import Obase.Concrete
import Obase.Orchestrator.Runbook
import Obase.Orchestrator.Track
import Obase.Run

namespace Obase.Orchestrator
set_option autoImplicit true

section
variable {D T : Type}

/-- A generated entry id is not that of an entry of the run. -/
def FreshEntry (stored : Option (RunState D T)) : RunCall D T → Prop
  | .goto _ _ newEntryId _ => ∀ s, stored = some s → newEntryId ∉ s.entries.keys
  | _ => True

/-- The way from the initial node by edges of the runbook, and the node and the entry where it ends;
each move leaves the entry that the one before it has made. -/
inductive Walk (rb : Runbook D) : List Move → Option String → Option String → Prop
  | start (i : String) : Walk rb [] (some rb.initial) (some i)
  | step (h : Walk rb ms (some m.source) m.fromEntry) (he : e ∈ rb.edges)
      (hs : e.fromNode = m.source) (ht : e.toNode = m.target) :
      Walk rb (ms ++ [m]) (some m.target) (some m.toEntry)

/-- The current entry is one of the current node, the transitions lead to it, every transition has
made one entry, and no entry has more failed attempts than the first edge between its node and the
target of the attempts allows. -/
structure Track.Sound (rb : Runbook D) (t : Track) : Prop where
  current : ∃ i v, t.currentEntryId = some i ∧ t.entries.lookup i = some v ∧
    t.currentNode = some v.nodeId
  walk : Walk rb t.transitions t.currentNode t.currentEntryId
  distinct : t.entries.Distinct
  count : t.entries.length = t.transitions.length + 1
  attempts : ∀ i v, t.entries.lookup i = some v → ∀ target e n,
    rb.edgeTo (some v.nodeId) target = some e → v.attempts.lookup e.key = some n →
      n ≤ e.maxAttempts

theorem Runbook.edgeTo_some {rb : Runbook D} {node : Option String} {target : String} {e : Edge}
    (h : rb.edgeTo node target = some e) :
    e ∈ rb.edges ∧ some e.fromNode = node ∧ e.toNode = target := by
  have hp := List.find?_some h
  exact ⟨List.mem_of_find?_eq_some h, of_decide_eq_true hp⟩

/-- Edges that leave one node by the same key lead to the same node. -/
theorem Edge.toNode_of_key {e e' : Edge} (hs : e.fromNode = e'.fromNode) (h : e.key = e'.key) :
    e.toNode = e'.toNode := by
  rw [Edge.key, Edge.key, hs] at h
  have hl := congrArg String.toList h
  simp only [String.toList_append] at hl
  exact String.toList_inj.1 (List.append_cancel_left hl)

theorem Track.start_sound (rb : Runbook D) (entryId : String) :
    (Track.start rb entryId).Sound rb := by
  refine ⟨⟨entryId, ⟨rb.initial, []⟩, rfl, List.lookup_cons_self, rfl⟩, .start entryId,
    List.nodup_singleton _, rfl, ?_⟩
  intro i v hv target e n he hn
  cases Dict.lookup_mem hv with
  | head => cases hn
  | tail _ h => cases h

/-- A failed attempt that the edge still allows keeps its entry within the bounds. -/
theorem Visit.retry_bounded {rb : Runbook D} {v : Visit} {target : String} {e : Edge}
    (he : rb.edgeTo (some v.nodeId) target = some e) (hm : v.tries e < e.maxAttempts)
    (h : ∀ target e n, rb.edgeTo (some v.nodeId) target = some e →
      v.attempts.lookup e.key = some n → n ≤ e.maxAttempts)
    {target' : String} {e' : Edge} {n : Int} (he' : rb.edgeTo (some v.nodeId) target' = some e')
    (hn : (v.retry e).attempts.lookup e'.key = some n) : n ≤ e'.maxAttempts := by
  rw [Visit.retry] at hn
  by_cases hk : e'.key = e.key
  · obtain ⟨-, hs, ht⟩ := Runbook.edgeTo_some he
    obtain ⟨-, hs', ht'⟩ := Runbook.edgeTo_some he'
    have hto : target' = target := by
      rw [← ht, ← ht']
      exact Edge.toNode_of_key (Option.some.inj (hs'.trans hs.symm)) hk
    rw [hto, he] at he'
    cases he'
    rw [Dict.lookup_set_self] at hn
    cases hn
    exact Int.add_one_le_of_lt hm
  · rw [Dict.lookup_set_ne hk] at hn
    exact h target' e' n he' hn

theorem GotoStep.sound {rb : Runbook D} {target newEntryId : String} {t t' : Track}
    (h : GotoStep rb target newEntryId t t') (hnew : newEntryId ∉ t.entries.keys)
    (hs : t.Sound rb) : t'.Sound rb := by
  cases h with
  | same => exact hs
  | block hat hm => exact ⟨hs.current, hs.walk, hs.distinct, hs.count, hs.attempts⟩
  | @retry i v e hat hm =>
    obtain ⟨j, u, hcur, hlook, hnode⟩ := hs.current
    rw [hat.current] at hcur
    cases hcur
    rw [hat.entry] at hlook
    cases hlook
    have hmem : i ∈ t.entries.keys := List.mem_map_of_mem (Dict.lookup_mem hat.entry)
    have hedge := hat.edge
    rw [hnode] at hedge
    refine ⟨⟨i, v.retry e, hat.current, Dict.lookup_set_self .., hnode⟩, hs.walk,
      hs.distinct.set .., ?_, ?_⟩
    · rw [Dict.length_set_of_mem hmem]
      exact hs.count
    · intro j u hu target' e' n he' hn
      by_cases hj : j = i
      · subst hj
        rw [Dict.lookup_set_self] at hu
        cases hu
        exact Visit.retry_bounded hedge hm (hs.attempts j v hat.entry) he' hn
      · rw [Dict.lookup_set_ne hj] at hu
        exact hs.attempts j u hu target' e' n he' hn
  | @move i v e hat hm =>
    obtain ⟨hmem, hsource, htarget⟩ := Runbook.edgeTo_some hat.edge
    refine ⟨⟨newEntryId, ⟨target, []⟩, rfl, Dict.lookup_set_self .., rfl⟩, ?_,
      hs.distinct.set .., ?_, ?_⟩
    · refine .step (m := ⟨e.fromNode, target, t.currentEntryId, newEntryId⟩) ?_ hmem rfl htarget
      rw [hsource]
      exact hs.walk
    · rw [Dict.length_set_of_not_mem hnew, List.length_append, hs.count]
      rfl
    · intro j u hu target' e' n he' hn
      by_cases hj : j = newEntryId
      · subst hj
        rw [Dict.lookup_set_self] at hu
        cases hu
        cases hn
      · rw [Dict.lookup_set_ne hj] at hu
        exact hs.attempts j u hu target' e' n he' hn

theorem RunState.keys_track (s : RunState D T) : s.track.entries.keys = s.entries.keys := by
  rw [RunState.track, Dict.keys_mapVals]

variable [RunData D]

/-- What every start establishes of the track of a run, and every allowed goto keeps, holds of all
persisted states. -/
theorem persisted_invariant {contentHash : Runbook D → Except RunError String} {rb : Runbook D}
    {runId : String} {allowed : Option (RunState D T) → RunCall D T → Prop} {I : Track → Prop}
    {stored : Option (RunState D T)}
    (h : Run.Reaches (RunStep contentHash rb runId) allowed none stored)
    (hstart : ∀ entryId digest, contentHash rb = .ok digest → I (.start rb entryId))
    (hgoto : ∀ s target cb newEntryId now t', allowed (some s) (.goto target cb newEntryId now) →
      I s.track → GotoStep rb target newEntryId s.track t' → I t') :
    ∀ s, stored = some s → I s.track := by
  refine h.invariant (I := fun stored : Option (RunState D T) => ∀ s, stored = some s → I s.track)
    (fun _ hs => (nomatch hs)) ?_
  intro stored c stored' hI hallowed hstep s' hs'
  subst hs'
  have ht := hstep.track
  generalize htrack : stored.map RunState.track = track at ht
  rw [Option.map_some] at ht
  generalize s'.track = t' at ht
  cases ht with
  | same =>
    obtain ⟨s, hs, rfl⟩ := Option.map_eq_some_iff.1 htrack
    exact hI s hs
  | start hh => exact hstart _ _ hh
  | goto hg =>
    obtain ⟨s, rfl, rfl⟩ := Option.map_eq_some_iff.1 htrack
    exact hgoto s _ _ _ _ _ hallowed (hI s rfl) hg

/-- In every persisted state of a run the current entry, the transitions, the entries and the
counted attempts fit together. -/
theorem persisted_sound {contentHash : Runbook D → Except RunError String} {rb : Runbook D}
    {runId : String} {stored : Option (RunState D T)}
    (h : Run.Reaches (RunStep contentHash rb runId) FreshEntry none stored) :
    ∀ s, stored = some s → s.track.Sound rb := by
  refine persisted_invariant h (fun entryId _ _ => Track.start_sound rb entryId) ?_
  intro s target cb newEntryId now t' hfresh hs hg
  refine hg.sound ?_ hs
  rw [RunState.keys_track]
  exact hfresh s rfl

end

def bareNode (id : String) (checks : List (Check (Json WholeFloat))) : Node (Json WholeFloat) :=
  ⟨id, "", none, none, checks⟩

/-- Two edges between the same nodes, the second with fewer attempts. -/
def parallelRunbook : Runbook (Json WholeFloat) :=
  ⟨"p", "a", [("a", bareNode "a" [⟨.manual, .dict [], true, "c"⟩]), ("b", bareNode "b" [])],
    [⟨"a", "b", "", none, 2⟩, ⟨"a", "b", "", none, 1⟩], "1"⟩

def parallelDigest : List UInt8 → List UInt8 := knownDigest [
  ("\x7b\"edges\": [\x7b\"condition\": \"\", \"from_node\": \"a\", \"hook\": null, \"max" ++
      "_attempts\": 2, \"to_node\": \"b\"\x7d, \x7b\"condition\": \"\", \"from_node\": \"a" ++
      "\", \"hook\": null, \"max_attempts\": 1, \"to_node\": \"b\"\x7d], \"initial\": \"a\"" ++
      ", \"name\": \"p\", \"nodes\": \x7b\"a\": \x7b\"before_transfer\": [\x7b\"blocking\": " ++
      "true, \"id\": \"c\", \"payload\": \x7b\x7d, \"type\": \"manual\"\x7d], \"id\": \"a\"" ++
      ", \"in_hook\": null, \"out_hook\": null, \"prompt\": \"\"\x7d, \"b\": \x7b\"before_t" ++
      "ransfer\": [], \"id\": \"b\", \"in_hook\": null, \"out_hook\": null, \"prompt\": \"" ++
      "\"\x7d\x7d, \"version\": \"1\"\x7d",
      "4828fb89d904b0f9c803b74a243ba5cbf6628e400845a6490777468ba6bb5760")]

/-- Every check of a goto fails. -/
def failing : Callbacks (Json WholeFloat) :=
  ⟨fun _ _ _ => .ok (.dict [("passed", .bool false)]), none, none, .dict []⟩

def parallelCall (stored : Option (RunState (Json WholeFloat) Int))
    (c : RunCall (Json WholeFloat) Int) : Option (RunState (Json WholeFloat) Int) :=
  c.after (Runbook.contentHash parallelDigest) parallelRunbook "r" stored

/-- The state after a start and two failed attempts to leave the initial node. -/
def parallelRun : Option (RunState (Json WholeFloat) Int) :=
  parallelCall (parallelCall (parallelCall none (.start true "e" 0)) (.goto "b" failing "f" 1))
    (.goto "b" failing "g" 2)

theorem parallelRun_track : parallelRun.map RunState.track =
    some ⟨.running, some "a", some "e", [("e", ⟨"a", [("a->b", 2)]⟩)], []⟩ := by
  decide +kernel

theorem FreshEntry.of_track {D T : Type} [RunData D] {stored : Option (RunState D T)} {t : Track}
    {newEntryId : String} (ht : stored.map RunState.track = some t)
    (hn : newEntryId ∉ t.entries.keys) (target : String) (cb : Callbacks D) (now : T) :
    FreshEntry stored (.goto target cb newEntryId now) := by
  rintro s rfl
  cases ht
  rwa [RunState.keys_track] at hn

theorem parallelRun_reached : Run.Reaches
    (RunStep (Runbook.contentHash parallelDigest) parallelRunbook "r") FreshEntry none
      parallelRun := by
  have hstart : (parallelCall none (.start true "e" 0)).map RunState.track =
      some (.start parallelRunbook "e") := by decide +kernel
  have hfail : (parallelCall (parallelCall none (.start true "e" 0))
      (.goto "b" failing "f" 1)).map RunState.track =
        some ⟨.running, some "a", some "e", [("e", ⟨"a", [("a->b", 1)]⟩)], []⟩ := by
    decide +kernel
  have hf : "f" ∉ (Track.start parallelRunbook "e").entries.keys := by decide
  have hg : "g" ∉ Dict.keys [("e", (⟨"a", [("a->b", 1)]⟩ : Visit))] := by decide
  exact (((Run.Reaches.refl _).tail (a := .start true "e" 0) trivial rfl).tail
    (FreshEntry.of_track hstart hf "b" failing 1) rfl).tail
    (FreshEntry.of_track hfail hg "b" failing 2) rfl

theorem persisted_sound_parallel :
    ∃ s, parallelRun = some s ∧ s.track.Sound parallelRunbook := by
  obtain ⟨s, hs, -⟩ := Option.map_eq_some_iff.1 parallelRun_track
  exact ⟨s, hs, persisted_sound parallelRun_reached s hs⟩

/-- The second edge allows one attempt, and its key has two. -/
theorem persisted_attempts_exceed : Run.Reaches
    (RunStep (Runbook.contentHash parallelDigest) parallelRunbook "r") FreshEntry none parallelRun ∧
    ∃ s, parallelRun = some s ∧
      ¬ ∀ i v e n, s.track.entries.lookup i = some v → e ∈ parallelRunbook.edges →
        e.fromNode = v.nodeId → v.attempts.lookup e.key = some n → n ≤ e.maxAttempts := by
  obtain ⟨s, hs, ht⟩ := Option.map_eq_some_iff.1 parallelRun_track
  refine ⟨parallelRun_reached, s, hs, fun h => ?_⟩
  rw [ht] at h
  have hle := h "e" ⟨"a", [("a->b", 2)]⟩ ⟨"a", "b", "", none, 1⟩ 2 (by decide)
    (.tail _ (.head _)) rfl (by decide)
  exact absurd hle (by decide)

end Obase.Orchestrator

namespace Obase.Orchestrator
set_option autoImplicit true

section
variable {D T : Type}

/-- The run is completed exactly when no edge leaves its node. -/
def Track.Completes (rb : Runbook D) (t : Track) : Prop :=
  ∃ n, t.currentNode = some n ∧ (t.state = .completed ↔ rb.leaves n = false)

variable [RunData D]

/-- Over all runs: a state is completed exactly at a node that no edge leaves, only a goto over an
edge that has no attempts left blocks a run, and no goto changes a completed or blocked run. -/
structure StatusContract (T : Type) (contentHash : Runbook D → Except RunError String)
    (rb : Runbook D) : Prop where
  completes : ∀ runId stored,
    Run.Reaches (RunStep (T := T) contentHash rb runId) (fun _ _ => True) none stored →
      ∀ s, stored = some s → s.track.Completes rb
  blocks : ∀ runId stored c s s',
    Run.Reaches (RunStep (T := T) contentHash rb runId) (fun _ _ => True) none stored →
      stored = some s → RunStep contentHash rb runId stored c (some s') →
      s.state ≠ .blocked → s'.state = .blocked →
      ∃ target cb newEntryId now i v e, c = .goto target cb newEntryId now ∧
        s.track.At rb target i v e ∧ e.maxAttempts ≤ v.tries e
  final : ∀ runId (s : RunState D T) target cb newEntryId now,
    s.state = .completed ∨ s.state = .blocked →
      (runbookGoto rb runId target cb newEntryId now (some s)).1 = some s

omit [RunData D] in
theorem Runbook.leaves_of_edgeTo {rb : Runbook D} {node target : String} {e : Edge}
    (h : rb.edgeTo (some node) target = some e) : rb.leaves node = true := by
  obtain ⟨hm, hs, -⟩ := Runbook.edgeTo_some h
  exact List.any_eq_true.2 ⟨e, hm, decide_eq_true (Option.some.inj hs)⟩

omit [RunData D] in
theorem GotoStep.completes {rb : Runbook D} {target newEntryId : String} {t t' : Track}
    (h : GotoStep rb target newEntryId t t') (ht : t.Completes rb) : t'.Completes rb := by
  cases h with
  | same => exact ht
  | block hat hm =>
    obtain ⟨n, hn, -⟩ := ht
    have hedge := hat.edge
    rw [hn] at hedge
    refine ⟨n, hn, iff_of_false (nomatch ·) ?_⟩
    rw [Runbook.leaves_of_edgeTo hedge]
    exact (nomatch ·)
  | retry hat hm => exact ht
  | move hat hm =>
    refine ⟨target, rfl, ?_⟩
    cases hl : rb.leaves target with
    | true =>
      refine iff_of_false ?_ (nomatch ·)
      rw [if_pos rfl, hat.running]
      exact (nomatch ·)
    | false => exact iff_of_true rfl rfl

omit [RunData D] in
theorem Track.start_completes {rb : Runbook D} (h : rb.leaves rb.initial = true)
    (entryId : String) : (Track.start rb entryId).Completes rb := by
  refine ⟨rb.initial, rfl, iff_of_false (nomatch ·) ?_⟩
  rw [h]
  exact (nomatch ·)

omit [RunData D] in
theorem GotoStep.blocked {rb : Runbook D} {target newEntryId : String} {t t' : Track}
    (h : GotoStep rb target newEntryId t t') (ht : t.state ≠ .blocked)
    (ht' : t'.state = .blocked) : ∃ i v e, t.At rb target i v e ∧ e.maxAttempts ≤ v.tries e := by
  cases h with
  | same => exact (ht ht').elim
  | block hat hm => exact ⟨_, _, _, hat, hm⟩
  | retry hat hm => exact (ht ht').elim
  | move hat hm =>
    dsimp only at ht'
    split at ht'
    · exact (ht ht').elim
    · cases ht'

/-- A goto on a run that is not running leaves it as it is. -/
theorem runbookGoto_of_not_running (rb : Runbook D) (runId target : String) (cb : Callbacks D)
    (newEntryId : String) (now : T) {s : RunState D T} (h : s.state ≠ .running) :
    (runbookGoto rb runId target cb newEntryId now (some s)).1 = some s := by
  rw [runbookGoto, withState, gotoBody, if_pos h]
  rfl

theorem persisted_completes {contentHash : Runbook D → Except RunError String} {rb : Runbook D}
    (hrb : ∀ digest, contentHash rb = .ok digest → rb.leaves rb.initial = true) {runId : String}
    {stored : Option (RunState D T)}
    (h : Run.Reaches (RunStep contentHash rb runId) (fun _ _ => True) none stored) :
    ∀ s, stored = some s → s.track.Completes rb :=
  persisted_invariant h (fun entryId digest hh => Track.start_completes (hrb digest hh) entryId)
    fun _ _ _ _ _ _ _ hs hg => hg.completes hs

theorem blocked_by_goto {contentHash : Runbook D → Except RunError String} {rb : Runbook D}
    {runId : String} {s s' : RunState D T} {c : RunCall D T}
    (h : RunStep contentHash rb runId (some s) c (some s')) (hs : s.state ≠ .blocked)
    (hs' : s'.state = .blocked) :
    ∃ target cb newEntryId now i v e, c = .goto target cb newEntryId now ∧
      s.track.At rb target i v e ∧ e.maxAttempts ≤ v.tries e := by
  have ht := h.track
  have hne : s.track.state ≠ .blocked := hs
  have heq : s'.track.state = .blocked := hs'
  rw [Option.map_some, Option.map_some] at ht
  generalize s.track = t at ht hne
  generalize s'.track = t' at ht heq
  cases ht with
  | same => exact (hne heq).elim
  | start hh => cases heq
  | goto hg =>
    obtain ⟨i, v, e, hat, hm⟩ := hg.blocked hne heq
    exact ⟨_, _, _, _, i, v, e, rfl, hat, hm⟩

/-- The first state of a run that can be started at all. -/
theorem startRunbook_persists {contentHash : Runbook D → Except RunError String} {rb : Runbook D}
    {digest : String} (h : contentHash rb = .ok digest) (runId entryId : String) (now : T) :
    ∃ s, (startRunbook contentHash rb runId true entryId now none).1 = some s ∧
      s.track = .start rb entryId := by
  unfold startRunbook startBody
  rw [h]
  exact ⟨_, rfl, rfl⟩

/-- The contract holds exactly of the runbooks whose initial node some edge leaves, and of those
that have no content hash and so cannot be started. -/
theorem status_contract_iff [Inhabited T] (contentHash : Runbook D → Except RunError String)
    (rb : Runbook D) : StatusContract T contentHash rb ↔
      ∀ digest, contentHash rb = .ok digest → rb.leaves rb.initial = true := by
  constructor
  · intro h digest hh
    obtain ⟨s, hs, ht⟩ := startRunbook_persists (T := T) hh "r" "e" default
    have hr : Run.Reaches (RunStep (T := T) contentHash rb "r") (fun _ _ => True) none (some s) :=
      (Run.Reaches.refl _).tail (a := .start true "e" default) trivial hs
    obtain ⟨n, hn, hc⟩ := h.completes "r" _ hr s rfl
    rw [ht] at hn hc
    cases hn
    exact Bool.eq_true_of_not_eq_false fun hl => nomatch hc.2 hl
  · intro h
    refine ⟨fun runId stored hr => persisted_completes h hr, ?_, ?_⟩
    · rintro runId _ c s s' - rfl hstep hs hs'
      exact blocked_by_goto hstep hs hs'
    · intro runId s target cb newEntryId now hs
      refine runbookGoto_of_not_running rb runId target cb newEntryId now fun hr => ?_
      rw [hr] at hs
      obtain hs | hs := hs <;> cases hs

end

/-- A runbook whose only node is its initial one. -/
def oneNodeRunbook : Runbook (Json WholeFloat) :=
  ⟨"p", "a", [("a", bareNode "a" [])], [], "1"⟩

def oneNodeDigest : List UInt8 → List UInt8 := knownDigest [
  ("\x7b\"edges\": [], \"initial\": \"a\", \"name\": \"p\", \"nodes\": \x7b\"a\": \x7b\"" ++
      "before_transfer\": [], \"id\": \"a\", \"in_hook\": null, \"out_hook\": null, \"promp" ++
      "t\": \"\"\x7d\x7d, \"version\": \"1\"\x7d",
      "be1867a563c1166057c707a3c9481bcdc63ef3aa0717d96a72613d79bd81fc0b")]

theorem oneNode_not_completed :
    ¬ StatusContract Int (Runbook.contentHash oneNodeDigest) oneNodeRunbook := by
  intro h
  have hs : (RunCall.after (Runbook.contentHash oneNodeDigest) oneNodeRunbook "r" none
      (.start true "e" (0 : Int))).map RunState.track = some (.start oneNodeRunbook "e") := by
    decide +kernel
  obtain ⟨s, hs, ht⟩ := Option.map_eq_some_iff.1 hs
  have hr : Run.Reaches (RunStep (Runbook.contentHash oneNodeDigest) oneNodeRunbook "r")
      (fun _ _ => True) none (some s) :=
    (Run.Reaches.refl _).tail (a := .start true "e" (0 : Int)) trivial hs
  obtain ⟨n, hn, hc⟩ := h.completes "r" _ hr s rfl
  rw [ht] at hn hc
  cases hn
  exact nomatch hc.2 rfl

end Obase.Orchestrator
