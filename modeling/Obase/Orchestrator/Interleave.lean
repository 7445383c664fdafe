import Mathlib.Logic.Function.Basic
import Obase.Orchestrator.Versions

namespace Obase.Orchestrator
set_option autoImplicit true

section
variable {D T : Type}

/-- A call that loads the stored state, and may save it. -/
inductive Request (D T : Type) where
  | goto (rb : Runbook D) (target : String) (cb : Callbacks D) (newEntryId : String) (now : T)
  | register (check : Check D)

inductive Response (D : Type) where
  | goto (r : GotoResult D)
  | registered

def Effect.map (f : R → R') : Effect D T R → Effect D T R'
  | .keep r => .keep (r.map f)
  | .save s r => .save s (r.map f)

/-- The calls of the clients of a run: a client has none, has loaded the state, or has also run the
callbacks and is about to save. -/
inductive Client (D T : Type) where
  | idle
  | loaded (req : Request D T) (s : RunState D T)
  | called (req : Request D T) (s : RunState D T) (e : Effect D T (Response D))

/-- An update that a client has been told of: a check attached to an entry, a failed attempt to leave
an entry by an edge, or a transition, with the checks that were evaluated for it. -/
inductive Ack (D : Type) where
  | registered (entryId : String) (check : Check D)
  | failed (entryId : String) (key : String)
  | moved (m : Move) (evaluated : List (Check D))

/-- The stored state that clients share, and what they have been told. -/
structure Shared (ι D T : Type) where
  stored : Option (RunState D T)
  client : ι → Client D T
  acks : List (Ack D)

inductive Act (D T : Type) where
  | load (req : Request D T)
  | callbacks
  | save

/-- The checks that a goto from the state evaluates. -/
def checksFrom (rb : Runbook D) (s : RunState D T) : List (Check D) :=
  match s.entry, rb.node s.currentNode with
  | .ok (_, entry), .ok node => node.beforeTransfer ++ entry.dynamicChecks
  | _, _ => []

/-- What a client is told of by the result of a request on the state that it loaded. -/
def acknowledged (s : RunState D T) : Request D T → Except RunError (Response D) → List (Ack D)
  | .register check, .ok .registered =>
    match s.currentEntryId with
    | some i => [.registered i check]
    | none => []
  | .goto rb target _ _ _, .ok (.goto (.failed ..)) =>
    match s.currentEntryId, rb.edgeTo s.currentNode target with
    | some i, some e => [.failed i e.key]
    | _, _ => []
  | .goto rb target _ _ _, .ok (.goto (.ok source _ entryId _)) =>
    [.moved ⟨source, target, s.currentEntryId, entryId⟩ (checksFrom rb s)]
  | _, _ => []

section
variable [RunData D]

def Request.body : Request D T → RunState D T → Effect D T (Response D)
  | .goto rb target cb newEntryId now, s =>
    (gotoBody rb target cb newEntryId now s).map .goto
  | .register check, s => (registerBody check s).map fun _ => .registered

/-- A step of one of the clients. -/
inductive SharedStep [DecidableEq ι] (w : Shared ι D T) : ι × Act D T → Shared ι D T → Prop
  | missing (hc : w.client c = .idle) (hs : w.stored = none) :
      SharedStep w (c, .load req) w
  | load (hc : w.client c = .idle) (hs : w.stored = some s) :
      SharedStep w (c, .load req)
        { w with client := Function.update w.client c (.loaded req s) }
  | callbacks (hc : w.client c = .loaded req s) :
      SharedStep w (c, .callbacks)
        { w with client := Function.update w.client c (.called req s (req.body s)) }
  | save (hc : w.client c = .called req s e) :
      SharedStep w (c, .save)
        ⟨(e.commit w.stored).1, Function.update w.client c .idle,
          w.acks ++ acknowledged s req (e.commit w.stored).2⟩

/-- The stored state that a client saves over is still the one that it loaded. -/
def Undisturbed (w : Shared ι D T) : ι × Act D T → Prop
  | (c, .save) => ∀ req s s' r, w.client c = .called req s (.save s' r) → w.stored = some s
  | _ => True

/-- The id that a request generates is not that of an entry of the state. -/
def Request.Fresh (req : Request D T) (s : RunState D T) : Prop :=
  match req with
  | .goto _ _ _ newEntryId _ => newEntryId ∉ s.entries.keys
  | .register _ => True

/-- The id that a goto generates is not that of an entry of the state that it loaded. -/
def FreshSave (w : Shared ι D T) : ι × Act D T → Prop
  | (c, .save) => ∀ req s e, w.client c = .called req s e → req.Fresh s
  | _ => True

/-- A check as it is read back after any number of saves. -/
def Check.Persisted : Check D → Check D → Prop :=
  Relation.ReflTransGen fun c c' => c.reload = .ok c'

end

/-- The dynamic checks of an entry. -/
def RunState.attached (s : RunState D T) (i : String) : List (Check D) :=
  ((s.entries.lookup i).map RunEntry.dynamicChecks).getD []

/-- The failed attempts of an entry at the edges of a key. -/
def RunState.triesAt (s : RunState D T) (i key : String) : Int :=
  ((s.entries.lookup i).bind fun entry => entry.attempts.lookup key).getD 0

def Ack.isFailed (i key : String) : Ack D → Bool
  | .failed j k => decide (j = i ∧ k = key)
  | _ => false

/-- No update that the clients of a run were told of since a first state is lost: a check that was
registered has been evaluated by the goto that then left its entry, or is attached to the entry if
none has, the reported failed attempts are counted, and the reported transitions are there. -/
structure Kept [RunData D] (s₀ : RunState D T) (acks : List (Ack D)) (s : RunState D T) : Prop where
  registered : ∀ l₁ l₂ i check, acks = l₁ ++ .registered i check :: l₂ →
    (∃ m evaluated, .moved m evaluated ∈ l₂ ∧ m.fromEntry = some i ∧
      ∃ c ∈ evaluated, check.Persisted c) ∨
    ((∀ m evaluated, .moved m evaluated ∈ l₂ → m.fromEntry ≠ some i) ∧
      ∃ c ∈ s.attached i, check.Persisted c)
  failed : ∀ i key, s₀.triesAt i key + (acks.countP (Ack.isFailed i key) : Int) ≤ s.triesAt i key
  moved : ∀ m evaluated, .moved m evaluated ∈ acks → m ∈ s.track.transitions

/-- The checks, the failed attempts and the transitions of a state that a later one has too. -/
structure Grows [RunData D] (s s' : RunState D T) : Prop where
  attached : ∀ i, ∀ c ∈ s.attached i, ∃ c' ∈ s'.attached i, c.Persisted c'
  tries : ∀ i key, s.triesAt i key ≤ s'.triesAt i key
  moves : ∀ m ∈ s.track.transitions, m ∈ s'.track.transitions

section
variable [RunData D]

theorem Check.Persisted.refl (c : Check D) : c.Persisted c := Relation.ReflTransGen.refl

theorem Check.Persisted.trans {c c' c'' : Check D} (h : c.Persisted c') (h' : c'.Persisted c'') :
    c.Persisted c'' := Relation.ReflTransGen.trans h h'

theorem Grows.refl (s : RunState D T) : Grows s s := by
  refine ⟨?_, fun i key => Int.le_refl _, fun m hm => hm⟩
  intro i c hc
  exact ⟨c, hc, .refl c⟩

theorem Grows.trans {s s' s'' : RunState D T} (h : Grows s s') (h' : Grows s' s'') :
    Grows s s'' := by
  refine ⟨?_, ?_, ?_⟩
  · intro i c hc
    obtain ⟨c', hc', hp⟩ := h.attached i c hc
    obtain ⟨c'', hc'', hp'⟩ := h'.attached i c' hc'
    exact ⟨c'', hc'', hp.trans hp'⟩
  · intro i key
    exact Int.le_trans (h.tries i key) (h'.tries i key)
  · intro m hm
    exact h'.moves m (h.moves m hm)

omit [RunData D] in
theorem RunState.triesAt_track (s : RunState D T) (i key : String) :
    s.triesAt i key = ((s.track.entries.lookup i).bind (·.attempts.lookup key)).getD 0 := by
  rw [RunState.triesAt, RunState.track, Dict.lookup_mapVals]
  cases s.entries.lookup i with
  | none => rfl
  | some entry => rfl

/-- A state that is read back has the checks, the attempts and the transitions that were saved. -/
theorem RunState.reload_grows {s s' : RunState D T} (h : s.reload = .ok s') : Grows s s' := by
  refine ⟨?_, ?_, ?_⟩
  · intro i c hc
    rw [RunState.reload] at h
    obtain ⟨data, -, h⟩ := bind_ok h
    obtain ⟨errors, -, h⟩ := bind_ok h
    obtain ⟨entries, hentries, h⟩ := bind_ok h
    obtain ⟨transitions, -, h⟩ := bind_ok h
    cases h
    rw [RunState.attached] at hc
    cases he : s.entries.lookup i with
    | none =>
      rw [he] at hc
      cases hc
    | some entry =>
      rw [he] at hc
      obtain ⟨entry', he', hr⟩ := lookup_of_mapM hentries he
      rw [RunEntry.reload] at hr
      obtain ⟨checks, -, hr⟩ := bind_ok hr
      obtain ⟨dynamicChecks, hd, hr⟩ := bind_ok hr
      cases hr
      obtain ⟨c', hc', hcc⟩ := mem_of_mapM hd hc
      refine ⟨c', ?_, Relation.ReflTransGen.single hcc⟩
      rw [RunState.attached, he']
      exact hc'
  · intro i key
    rw [RunState.triesAt_track, RunState.triesAt_track, RunState.track_reload h]
  · intro m hm
    rw [RunState.track_reload h]
    exact hm

omit [RunData D] in
theorem RunState.attached_set_self (s : RunState D T) (i : String) (entry : RunEntry D T) :
    ({ s with entries := s.entries.set i entry } : RunState D T).attached i =
      entry.dynamicChecks := by
  rw [RunState.attached, Dict.lookup_set_self]
  rfl

omit [RunData D] in
theorem RunState.attached_of_entry {s : RunState D T} {i : String} {entry : RunEntry D T}
    (h : s.entry = .ok (i, entry)) : s.attached i = entry.dynamicChecks := by
  rw [RunState.attached, (RunState.entry_ok h).2]
  rfl

/-- An entry that takes the place of another, with at least its checks and its attempts. -/
theorem RunState.set_grows {s : RunState D T} {i : String} {entry entry' : RunEntry D T}
    (he : s.entries.lookup i = some entry)
    (hc : ∀ c ∈ entry.dynamicChecks, c ∈ entry'.dynamicChecks)
    (ht : ∀ key, (entry.attempts.lookup key).getD 0 ≤ (entry'.attempts.lookup key).getD 0) :
    Grows s { s with entries := s.entries.set i entry' } := by
  refine ⟨?_, ?_, fun m hm => hm⟩
  · intro j c hcj
    refine ⟨c, ?_, .refl c⟩
    by_cases hj : j = i
    · subst hj
      rw [RunState.attached_set_self]
      rw [RunState.attached, he] at hcj
      exact hc c hcj
    · rw [RunState.attached, Dict.lookup_set_ne hj]
      exact hcj
  · intro j key
    by_cases hj : j = i
    · subst hj
      rw [RunState.triesAt, RunState.triesAt, Dict.lookup_set_self, he]
      exact ht key
    · rw [RunState.triesAt, RunState.triesAt, Dict.lookup_set_ne hj]

/-- An entry under a new id, which has no checks and no attempts. -/
theorem RunState.new_grows {s : RunState D T} {i : String} (entry : RunEntry D T)
    (hi : i ∉ s.entries.keys) (ha : entry.attempts = []) :
    Grows s { s with entries := s.entries.set i entry } := by
  have hnone : s.entries.lookup i = none := Dict.lookup_eq_none_of_not_mem hi
  refine ⟨?_, ?_, fun m hm => hm⟩
  · intro j c hcj
    refine ⟨c, ?_, .refl c⟩
    by_cases hj : j = i
    · subst hj
      rw [RunState.attached, hnone] at hcj
      cases hcj
    · rw [RunState.attached, Dict.lookup_set_ne hj]
      exact hcj
  · intro j key
    by_cases hj : j = i
    · subst hj
      rw [RunState.triesAt, RunState.triesAt, Dict.lookup_set_self, hnone, Option.bind_some, ha]
      exact Int.le_refl _
    · rw [RunState.triesAt, RunState.triesAt, Dict.lookup_set_ne hj]

/-- What a client is told of by a save that leads from a state to another is true of the latter. -/
inductive Acked (s s' : RunState D T) : List (Ack D) → Prop
  | none : Acked s s' []
  | registered (h : ∃ c ∈ s'.attached i, check.Persisted c) : Acked s s' [.registered i check]
  | failed (h : s.triesAt i key + 1 ≤ s'.triesAt i key) : Acked s s' [.failed i key]
  | moved (h : m ∈ s'.track.transitions)
      (he : ∀ i, m.fromEntry = some i → ∀ c ∈ s.attached i, c ∈ evaluated) :
      Acked s s' [.moved m evaluated]

theorem Acked.mono {s s₁ s' : RunState D T} {acks : List (Ack D)} (h : Acked s s₁ acks)
    (hg : Grows s₁ s') : Acked s s' acks := by
  cases h with
  | none => exact .none
  | @registered i check h =>
    obtain ⟨c, hc, hp⟩ := h
    obtain ⟨c', hc', hp'⟩ := hg.attached i c hc
    exact .registered ⟨c', hc', hp.trans hp'⟩
  | @failed i key h => exact .failed (Int.le_trans h (hg.tries i key))
  | moved h he => exact .moved (hg.moves _ h) he

omit [RunData D] in
theorem acknowledged_register {s : RunState D T} {i : String} (h : s.currentEntryId = some i)
    (check : Check D) :
    acknowledged s (.register check) (.ok .registered) = [.registered i check] := by
  simp only [acknowledged, h]

omit [RunData D] in
theorem acknowledged_failed {s : RunState D T} {i : String} {rb : Runbook D} {target : String}
    {edge : Edge} (h : s.currentEntryId = some i) (he : rb.edgeTo s.currentNode target = some edge) :
    acknowledged s (.goto rb target cb newEntryId now) (.ok (.goto (.failed reason r n evidence))) =
      [.failed i edge.key] := by
  simp only [acknowledged, h, he]

theorem registerBody_acked {s s₁ : RunState D T} {check : Check D} {r : Except RunError Unit}
    (h : registerBody check s = .save s₁ r) : Grows s s₁ ∧
      Acked s s₁ (acknowledged s (.register check) (r.map fun _ => .registered)) := by
  rw [registerBody] at h
  split at h
  · cases h
  · rename_i i entry hentry
    cases h
    obtain ⟨hcur, hlook⟩ := RunState.entry_ok hentry
    constructor
    · apply RunState.set_grows hlook
      · intro c hc
        exact List.mem_append_left _ hc
      · intro key
        exact Int.le_refl _
    · rw [Except.map, acknowledged_register hcur]
      apply Acked.registered
      refine ⟨check, ?_, .refl check⟩
      rw [RunState.attached_set_self]
      exact List.mem_append_right _ (List.mem_singleton_self _)

omit [RunData D] in
theorem RunEntry.tries_retry (entry : RunEntry D T) (e : Edge) (evidence : List D) (key : String) :
    (entry.attempts.lookup key).getD 0 ≤
      ((entry.retry e evidence).attempts.lookup key).getD 0 := by
  rw [RunEntry.retry]
  by_cases hk : key = e.key
  · subst hk
    rw [Dict.lookup_set_self]
    exact Int.le_of_lt (Int.lt_add_one_iff.2 (Int.le_refl _))
  · rw [Dict.lookup_set_ne hk]

theorem GotoSave.acked {rb : Runbook D} {s s₁ : RunState D T} {target newEntryId : String}
    {cb : Callbacks D} {now : T} {r : Except RunError (GotoResult D)}
    (h : GotoSave rb target cb newEntryId now s s₁ r) (hnew : newEntryId ∉ s.entries.keys) :
    Grows s s₁ ∧ Acked s s₁ (acknowledged s (.goto rb target cb newEntryId now) (r.map .goto)) := by
  cases h with
  | block hrun hedge hentry hm => exact ⟨⟨(Grows.refl s).attached, (Grows.refl s).tries,
      (Grows.refl s).moves⟩, .none⟩
  | @fail edge i entry node result evidence hrun hedge hentry hm hnode hc =>
    obtain ⟨hcur, hlook⟩ := RunState.entry_ok hentry
    constructor
    · exact RunState.set_grows hlook (fun c hc => hc) (entry.tries_retry edge evidence)
    · cases noteFailure cb s.currentNode result with
      | error e => exact .none
      | ok u =>
        change Acked s _ (acknowledged s _ (.ok (.goto (.failed ..))))
        rw [acknowledged_failed hcur hedge]
        apply Acked.failed
        rw [RunState.triesAt, RunState.triesAt, Dict.lookup_set_self, hlook, Option.bind_some,
          Option.bind_some, RunEntry.retry, Dict.lookup_set_self]
        exact Int.le_refl _
  | @move edge i entry node evidence s₁ node' hrun hedge hentry hm hnode hc hmove =>
    obtain ⟨hcur, -⟩ := RunState.entry_ok hentry
    have hg := RunState.new_grows ⟨newEntryId, target, now, [], [], []⟩ hnew rfl
    have ht := gotoMove_track hmove
    rw [gotoMove_ok hmove] at ht ⊢
    constructor
    · refine ⟨hg.attached, hg.tries, ?_⟩
      intro m hm
      rw [ht]
      exact List.mem_append_left _ hm
    · apply Acked.moved
      · rw [ht]
        exact List.mem_append_right _ (List.mem_singleton_self _)
      · intro j hj c hcj
        rw [hcur] at hj
        cases hj
        rw [RunState.attached_of_entry hentry] at hcj
        rw [checksFrom, hentry, hnode]
        exact List.mem_append_right _ hcj

/-- A goto that saves nothing is refused or raises. -/
theorem gotoBody_keep {rb : Runbook D} {s : RunState D T} {target newEntryId : String}
    {cb : Callbacks D} {now : T} {r : Except RunError (GotoResult D)}
    (h : gotoBody rb target cb newEntryId now s = .keep r) :
    acknowledged s (.goto rb target cb newEntryId now) (r.map .goto) = [] := by
  rw [gotoBody] at h
  split at h
  · cases h
    rfl
  split at h
  · cases h
    rfl
  split at h
  · cases h
    rfl
  dsimp only at h
  split at h
  · cases h
  split at h
  · cases h
    rfl
  split at h
  · cases h
    rfl
  · cases h
  · split at h
    · cases h
      rfl
    · cases h

omit [RunData D] in
theorem registerBody_keep {s : RunState D T} {check : Check D} {r : Except RunError Unit}
    (h : registerBody check s = .keep r) :
    acknowledged s (.register check) (r.map fun _ => .registered) = [] := by
  rw [registerBody] at h
  split at h
  · cases h
    rfl
  · cases h

theorem Request.body_keep {req : Request D T} {s : RunState D T} {r : Except RunError (Response D)}
    (h : req.body s = .keep r) : acknowledged s req r = [] := by
  cases req with
  | goto rb target cb newEntryId now =>
    rw [Request.body] at h
    cases hb : gotoBody rb target cb newEntryId now s with
    | keep r' =>
      rw [hb] at h
      cases h
      exact gotoBody_keep hb
    | save s' r' =>
      rw [hb] at h
      cases h
  | register check =>
    rw [Request.body] at h
    cases hb : registerBody check s with
    | keep r' =>
      rw [hb] at h
      cases h
      exact registerBody_keep hb
    | save s' r' =>
      rw [hb] at h
      cases h

theorem Request.body_save {req : Request D T} {s s₁ : RunState D T}
    {r : Except RunError (Response D)} (h : req.body s = .save s₁ r) (hnew : req.Fresh s) :
    Grows s s₁ ∧ Acked s s₁ (acknowledged s req r) := by
  cases req with
  | goto rb target cb newEntryId now =>
    rw [Request.body] at h
    cases hb : gotoBody rb target cb newEntryId now s with
    | keep r' =>
      rw [hb] at h
      cases h
    | save s' r' =>
      rw [hb] at h
      cases h
      exact (gotoBody_save hb).acked hnew
  | register check =>
    rw [Request.body] at h
    cases hb : registerBody check s with
    | keep r' =>
      rw [hb] at h
      cases h
    | save s' r' =>
      rw [hb] at h
      cases h
      exact registerBody_acked hb

omit [RunData D] in
theorem acknowledged_error (s : RunState D T) (req : Request D T) (e : RunError) :
    acknowledged s req (.error e) = [] := by
  cases req with
  | goto rb target cb newEntryId now => rfl
  | register check => rfl

/-- What a request on the stored state leaves stored, and what its client is told of. -/
theorem Request.commit_acked {req : Request D T} {s : RunState D T} (hnew : req.Fresh s) :
    ∃ s', ((req.body s).commit (some s)).1 = some s' ∧ Grows s s' ∧
      Acked s s' (acknowledged s req ((req.body s).commit (some s)).2) := by
  cases hb : req.body s with
  | keep r =>
    refine ⟨s, rfl, Grows.refl s, ?_⟩
    rw [Effect.commit, Request.body_keep hb]
    exact .none
  | save s₁ r =>
    obtain ⟨hg, ha⟩ := Request.body_save hb hnew
    rw [Effect.commit]
    cases hr : s₁.reload with
    | ok s' =>
      have hg' := RunState.reload_grows hr
      exact ⟨s', rfl, hg.trans hg', ha.mono hg'⟩
    | error e =>
      refine ⟨s, rfl, Grows.refl s, ?_⟩
      rw [acknowledged_error]
      exact .none

/-- What no save takes from what clients were told of: the registered checks stay attached, and every
goto that leaves their entry later evaluates them. -/
structure KeptAll (s₀ : RunState D T) (acks : List (Ack D)) (s : RunState D T) : Prop where
  attached : ∀ i check, .registered i check ∈ acks → ∃ c ∈ s.attached i, check.Persisted c
  evaluated : ∀ l₁ l₂ i check, acks = l₁ ++ .registered i check :: l₂ →
    ∀ m evaluated, .moved m evaluated ∈ l₂ → m.fromEntry = some i →
      ∃ c ∈ evaluated, check.Persisted c
  failed : ∀ i key, s₀.triesAt i key + (acks.countP (Ack.isFailed i key) : Int) ≤ s.triesAt i key
  moved : ∀ m evaluated, .moved m evaluated ∈ acks → m ∈ s.track.transitions

theorem KeptAll.start (s : RunState D T) : KeptAll s [] s := by
  refine ⟨fun i check h => (nomatch h), ?_, ?_, fun m evaluated h => (nomatch h)⟩
  · intro l₁ l₂ i check h
    cases l₁ with
    | nil => cases h
    | cons a l₁ => cases h
  · intro i key
    rw [List.countP_nil, Int.natCast_zero, Int.add_zero]

theorem KeptAll.kept {s₀ s : RunState D T} {acks : List (Ack D)} (h : KeptAll s₀ acks s) :
    Kept s₀ acks s := by
  refine ⟨?_, h.failed, h.moved⟩
  intro l₁ l₂ i check hl
  by_cases hleft : ∃ m evaluated, .moved m evaluated ∈ l₂ ∧ m.fromEntry = some i
  · obtain ⟨m, evaluated, hm, hi⟩ := hleft
    exact .inl ⟨m, evaluated, hm, hi, h.evaluated l₁ l₂ i check hl m evaluated hm hi⟩
  · refine .inr ⟨?_, ?_⟩
    · intro m evaluated hm hi
      exact hleft ⟨m, evaluated, hm, hi⟩
    · apply h.attached i check
      rw [hl]
      exact List.mem_append_right _ (List.mem_cons_self ..)

theorem KeptAll.grow {s₀ s s' : RunState D T} {acks : List (Ack D)} (h : KeptAll s₀ acks s)
    (hg : Grows s s') : KeptAll s₀ acks s' := by
  refine ⟨?_, h.evaluated, ?_, ?_⟩
  · intro i check hm
    obtain ⟨c, hc, hp⟩ := h.attached i check hm
    obtain ⟨c', hc', hp'⟩ := hg.attached i c hc
    exact ⟨c', hc', hp.trans hp'⟩
  · intro i key
    exact Int.le_trans (h.failed i key) (hg.tries i key)
  · intro m evaluated hm
    exact hg.moves m (h.moved m evaluated hm)

/-- A check that was registered before the last update is evaluated by it, if it is a transition that
leaves the entry. -/
theorem KeptAll.evaluated_snoc {s₀ s : RunState D T} {acks : List (Ack D)} {a : Ack D}
    (h : KeptAll s₀ acks s)
    (ha : ∀ m evaluated, a = .moved m evaluated → ∀ i, m.fromEntry = some i →
      ∀ c ∈ s.attached i, c ∈ evaluated) :
    ∀ l₁ l₂ i check, acks ++ [a] = l₁ ++ .registered i check :: l₂ →
      ∀ m evaluated, .moved m evaluated ∈ l₂ → m.fromEntry = some i →
        ∃ c ∈ evaluated, check.Persisted c := by
  intro l₁ l₂ i check hl m evaluated hm hi
  obtain rfl | ⟨l₂', x, rfl⟩ := List.eq_nil_or_concat' l₂
  · cases hm
  · rw [← List.cons_append, ← List.append_assoc] at hl
    obtain ⟨hacks, hx⟩ := List.append_inj' hl rfl
    cases hx
    obtain hm | hm := List.mem_append.1 hm
    · exact h.evaluated l₁ l₂' i check hacks m evaluated hm hi
    · have hmem : .registered i check ∈ acks := by
        rw [hacks]
        exact List.mem_append_right _ (List.mem_cons_self ..)
      obtain ⟨c, hc, hp⟩ := h.attached i check hmem
      exact ⟨c, ha m evaluated (List.mem_singleton.1 hm).symm i hi c hc, hp⟩

/-- A save keeps what clients were told of, and what its own client is told of is kept. -/
theorem KeptAll.step {s₀ s s' : RunState D T} {acks acks' : List (Ack D)} (h : KeptAll s₀ acks s)
    (hg : Grows s s') (ha : Acked s s' acks') : KeptAll s₀ (acks ++ acks') s' := by
  have hgrow := h.grow hg
  cases ha with
  | none =>
    rw [List.append_nil]
    exact hgrow
  | @registered i check hc =>
    refine ⟨?_, h.evaluated_snoc (fun m evaluated he => nomatch he), ?_, ?_⟩
    · intro j chk hm
      obtain hm | hm := List.mem_append.1 hm
      · exact hgrow.attached j chk hm
      · cases List.mem_singleton.1 hm
        exact hc
    · intro j key
      rw [List.countP_append]
      exact hgrow.failed j key
    · intro m evaluated hm
      obtain hm | hm := List.mem_append.1 hm
      · exact hgrow.moved m evaluated hm
      · cases List.mem_singleton.1 hm
  | @failed i key hc =>
    refine ⟨?_, h.evaluated_snoc (fun m evaluated he => nomatch he), ?_, ?_⟩
    · intro j chk hm
      obtain hm | hm := List.mem_append.1 hm
      · exact hgrow.attached j chk hm
      · cases List.mem_singleton.1 hm
    · intro j key'
      rw [List.countP_append, List.countP_singleton, Ack.isFailed]
      by_cases hk : i = j ∧ key = key'
      · rw [if_pos (decide_eq_true hk), Int.natCast_add, ← Int.add_assoc]
        obtain ⟨rfl, rfl⟩ := hk
        exact Int.le_trans (Int.add_le_add_right (h.failed i key) 1) hc
      · rw [if_neg (mt of_decide_eq_true hk)]
        exact hgrow.failed j key'
    · intro m evaluated hm
      obtain hm | hm := List.mem_append.1 hm
      · exact hgrow.moved m evaluated hm
      · cases List.mem_singleton.1 hm
  | @moved m evaluated hc he =>
    refine ⟨?_, ?_, ?_, ?_⟩
    · intro j chk hm
      obtain hm | hm := List.mem_append.1 hm
      · exact hgrow.attached j chk hm
      · cases List.mem_singleton.1 hm
    · apply h.evaluated_snoc
      intro m' evaluated' hme
      cases hme
      exact he
    · intro j key
      rw [List.countP_append]
      exact hgrow.failed j key
    · intro m' evaluated' hm
      obtain hm | hm := List.mem_append.1 hm
      · exact hgrow.moved m' evaluated' hm
      · cases List.mem_singleton.1 hm
        exact hc

/-- The clients of a run: what they were told of is kept, and one that is about to save has run its
callbacks on the state that it loaded. -/
structure Shared.Sound (s₀ : RunState D T) (w : Shared ι D T) : Prop where
  kept : ∃ s, w.stored = some s ∧ KeptAll s₀ w.acks s
  called : ∀ c req s e, w.client c = .called req s e → e = req.body s

theorem SharedStep.sound [DecidableEq ι] {s₀ : RunState D T} {w w' : Shared ι D T}
    {a : ι × Act D T} (hw : w.Sound s₀) (hu : Undisturbed w a) (hf : FreshSave w a)
    (h : SharedStep w a w') : w'.Sound s₀ := by
  have hother : ∀ c x, (∀ req s e, x = .called req s e → e = req.body s) →
      ∀ c' req s e, Function.update w.client c x c' = .called req s e → e = req.body s := by
    intro c x hx c' req s e hc
    by_cases hcc : c' = c
    · subst hcc
      rw [Function.update_self] at hc
      exact hx req s e hc
    · rw [Function.update_of_ne hcc] at hc
      exact hw.called c' req s e hc
  cases h with
  | missing hc hs => exact hw
  | load hc hs => exact ⟨hw.kept, hother _ _ fun req s e he => nomatch he⟩
  | callbacks hc =>
    refine ⟨hw.kept, hother _ _ ?_⟩
    intro req s e he
    cases he
    rfl
  | @save c req s e hc =>
    refine ⟨?_, hother _ _ fun req s e he => nomatch he⟩
    obtain ⟨s₁, hs₁, hk⟩ := hw.kept
    have he := hw.called c req s e hc
    cases e with
    | keep r =>
      refine ⟨s₁, hs₁, ?_⟩
      rw [Effect.commit, Request.body_keep he.symm, List.append_nil]
      exact hk
    | save s₂ r =>
      have hsame := hu req s s₂ r hc
      rw [hs₁] at hsame
      cases hsame
      obtain ⟨s', hs', hg, ha⟩ := Request.commit_acked (hf req s _ hc)
      rw [← he] at hs' ha
      rw [← hs₁] at hs' ha
      exact ⟨s', hs', hk.step hg ha⟩

/-- Over all interleavings of the clients of a run in which each save finds the state that its client
loaded, no update that a client was told of is lost. -/
theorem acknowledged_kept [DecidableEq ι] {s₀ : RunState D T} {w : Shared ι D T}
    (h : Run.Reaches SharedStep (fun w a => Undisturbed w a ∧ FreshSave w a)
      ⟨some s₀, fun _ => .idle, []⟩ w) :
    ∃ s, w.stored = some s ∧ Kept s₀ w.acks s := by
  have hw : w.Sound s₀ := by
    apply h.invariant
    · exact ⟨⟨s₀, rfl, .start s₀⟩, fun c req s e hc => nomatch hc⟩
    · intro w a w' hw hallowed hstep
      exact hstep.sound hw hallowed.1 hallowed.2
  obtain ⟨s, hs, hk⟩ := hw.kept
  exact ⟨s, hs, hk.kept⟩

/-- A client that makes its call while no other client saves. -/
theorem Shared.alone [DecidableEq ι] {w : Shared ι D T} {c : ι} {s : RunState D T}
    (hc : w.client c = .idle) (hs : w.stored = some s) (req : Request D T) (hf : req.Fresh s) :
    Run.Reaches SharedStep (fun w a => Undisturbed w a ∧ FreshSave w a) w
      ⟨((req.body s).commit w.stored).1, w.client,
        w.acks ++ acknowledged s req ((req.body s).commit w.stored).2⟩ := by
  have hload : SharedStep w (c, .load req)
      { w with client := Function.update w.client c (.loaded req s) } := .load hc hs
  have hcall : SharedStep { w with client := Function.update w.client c (.loaded req s) }
      (c, .callbacks)
      { w with client := Function.update w.client c (.called req s (req.body s)) } := by
    have h := SharedStep.callbacks (w := { w with
      client := Function.update w.client c (.loaded req s) }) (Function.update_self ..)
    rwa [Function.update_idem] at h
  have hsave : SharedStep { w with client := Function.update w.client c (.called req s (req.body s)) }
      (c, .save) ⟨((req.body s).commit w.stored).1, w.client,
        w.acks ++ acknowledged s req ((req.body s).commit w.stored).2⟩ := by
    have h := SharedStep.save (w := { w with
      client := Function.update w.client c (.called req s (req.body s)) }) (Function.update_self ..)
    rwa [Function.update_idem, ← hc, Function.update_eq_self] at h
  refine (((Run.Reaches.refl w).tail ⟨trivial, trivial⟩ hload).tail ⟨trivial, trivial⟩ hcall).tail
    ⟨?_, ?_⟩ hsave
  · intro req' s' s'' r hr
    dsimp only at hr
    rw [Function.update_self, Client.called.injEq] at hr
    obtain ⟨-, rfl, -⟩ := hr
    exact hs
  · intro req' s' e hr
    dsimp only at hr
    rw [Function.update_self] at hr
    cases hr
    exact hf

end
end

def lateCheck : Check (Json WholeFloat) := ⟨.manual, .dict [], true, "c"⟩

/-- A goto that leaves the initial node. -/
def leaveInitial : Request (Json WholeFloat) Int :=
  .goto (versionRunbook "b") "b" passing "f" 1

/-- Two clients of a run that has just been started. -/
def twoClients : Shared Bool (Json WholeFloat) Int :=
  ⟨some versionState, fun _ => .idle, []⟩

def registeredState : RunState (Json WholeFloat) Int :=
  { versionState with entries := [("e", ⟨"e", "a", 0, [], [lateCheck], []⟩)] }

/-- One client has registered a check. -/
def afterRegister : Shared Bool (Json WholeFloat) Int :=
  ⟨some registeredState, fun _ => .idle, [.registered "e" lateCheck]⟩

/-- Then the other client leaves the node. -/
def afterLeave : Shared Bool (Json WholeFloat) Int :=
  ⟨((leaveInitial.body registeredState).commit (some registeredState)).1, fun _ => .idle,
    [.registered "e" lateCheck, .moved ⟨"a", "b", some "e", "f"⟩ [lateCheck]]⟩

theorem acknowledged_kept_serial :
    ∃ s, afterLeave.stored = some s ∧ Kept versionState afterLeave.acks s := by
  have hregister : Run.Reaches SharedStep (fun w a => Undisturbed w a ∧ FreshSave w a)
      twoClients afterRegister :=
    Shared.alone (w := twoClients) (c := false) rfl rfl (.register lateCheck) trivial
  have hleave : Run.Reaches SharedStep (fun w a => Undisturbed w a ∧ FreshSave w a)
      afterRegister afterLeave :=
    Shared.alone (w := afterRegister) (c := true) rfl rfl leaveInitial
      (show "f" ∉ Dict.keys registeredState.entries by decide)
  exact acknowledged_kept (hregister.trans hleave)

/-- One client has loaded the state before the other registers its check, and saves after it. -/
def staleLoad : Shared Bool (Json WholeFloat) Int :=
  { twoClients with
    client := Function.update twoClients.client true (.loaded leaveInitial versionState) }

def staleRegister : Shared Bool (Json WholeFloat) Int :=
  { staleLoad with stored := some registeredState, acks := [.registered "e" lateCheck] }

def staleCall : Shared Bool (Json WholeFloat) Int :=
  { staleRegister with
    client := Function.update staleRegister.client true
      (.called leaveInitial versionState (leaveInitial.body versionState)) }

def staleSave : Shared Bool (Json WholeFloat) Int :=
  ⟨((leaveInitial.body versionState).commit (some registeredState)).1,
    Function.update staleCall.client true .idle,
    [.registered "e" lateCheck, .moved ⟨"a", "b", some "e", "f"⟩ []]⟩

theorem staleSave_reached : Run.Reaches SharedStep FreshSave twoClients staleSave := by
  have hregister : Run.Reaches SharedStep FreshSave staleLoad staleRegister :=
    (Shared.alone (w := staleLoad) (c := false) rfl rfl (.register lateCheck) trivial).mono
      fun _ _ h => h.2
  apply Run.Reaches.tail (t := staleCall) (a := (true, .save))
  · apply Run.Reaches.tail (t := staleRegister) (a := (true, .callbacks))
    · exact ((Run.Reaches.refl _).tail (a := (true, .load leaveInitial)) trivial
        (.load rfl rfl)).trans hregister
    · trivial
    · exact .callbacks rfl
  · intro req s e hc
    cases hc
    exact show "f" ∉ Dict.keys versionState.entries by decide
  · exact .save (w := staleCall) (c := true) (s := versionState)
      (e := leaveInitial.body versionState) rfl

/-- The check is registered, and then neither evaluated by the goto that leaves its entry nor attached
to the entry. -/
theorem stale_save_loses_check : ¬ ∀ (w : Shared Bool (Json WholeFloat) Int),
    Run.Reaches SharedStep FreshSave twoClients w →
      ∃ s, w.stored = some s ∧ Kept versionState w.acks s := by
  intro h
  obtain ⟨s, hs, hk⟩ := h staleSave staleSave_reached
  have hattached : staleSave.stored.map (fun s => s.attached "e") = some [] := rfl
  rw [hs] at hattached
  have hnone : s.attached "e" = [] := Option.some.inj hattached
  obtain ⟨m, evaluated, hm, hi, c, hc, hp⟩ | ⟨hleft, c, hc, hp⟩ :=
    hk.registered [] [.moved ⟨"a", "b", some "e", "f"⟩ []] "e" lateCheck rfl
  · cases List.mem_singleton.1 hm
    cases hc
  · rw [hnone] at hc
    cases hc

end Obase.Orchestrator
