import Obase.Json.Canonical
import Obase.Orchestrator.Walk

namespace Obase
set_option autoImplicit true

/-- A traversal of a dictionary that it does not change, with a value stored in it. -/
theorem mapM_set_ok [DecidableEq κ] {f : α → Except ε α} {d d' : Dict κ α} {k : κ} {v : α}
    (hd : (d.mapM fun p => (f p.2).map (p.1, ·)) = .ok d)
    (h : ((d.set k v).mapM fun p => (f p.2).map (p.1, ·)) = .ok d') :
    ∃ v', f v = .ok v' ∧ d' = d.set k v' := by
  induction d generalizing d' with
  | nil =>
    obtain ⟨q, qs, hq, hqs, rfl⟩ := mapM_cons_ok h
    obtain ⟨v', hv, rfl⟩ := map_ok hq
    cases hqs
    exact ⟨v', hv, rfl⟩
  | cons p d ih =>
    obtain ⟨q, qs, hq, hqs, he⟩ := mapM_cons_ok hd
    cases he
    by_cases hk : p.1 = k
    · rw [Dict.set, if_pos hk] at h
      obtain ⟨q, qs, hq, hqs', rfl⟩ := mapM_cons_ok h
      obtain ⟨v', hv, rfl⟩ := map_ok hq
      rw [hqs] at hqs'
      cases hqs'
      refine ⟨v', hv, ?_⟩
      rw [Dict.set, if_pos hk]
    · rw [Dict.set, if_neg hk] at h
      obtain ⟨q, qs', hq', hqs', rfl⟩ := mapM_cons_ok h
      rw [hq] at hq'
      cases hq'
      obtain ⟨v', hv, rfl⟩ := ih hqs hqs'
      refine ⟨v', hv, ?_⟩
      rw [Dict.set, if_neg hk]

namespace Orchestrator

section
variable {D T : Type} [RunData D]

/-- An object that has been read back is saved as it is. -/
def Settles (D : Type) [RunData D] : Prop :=
  ∀ x y : D, RunData.reload x = .ok y → RunData.reload y = .ok y

theorem Check.reload_settled (hD : Settles D) {c c' : Check D} (h : c.reload = .ok c') :
    c'.reload = .ok c' := by
  rw [Check.reload] at h
  obtain ⟨payload, hp, h⟩ := bind_ok h
  cases h
  rw [Check.reload, hD _ _ hp]
  rfl

theorem RunEntry.reload_settled (hD : Settles D) {e e' : RunEntry D T} (h : e.reload = .ok e') :
    e'.reload = .ok e' := by
  rw [RunEntry.reload] at h
  obtain ⟨checks, hc, h⟩ := bind_ok h
  obtain ⟨dynamicChecks, hd, h⟩ := bind_ok h
  cases h
  rw [RunEntry.reload, mapM_settled hD hc, mapM_settled (fun _ _ => Check.reload_settled hD) hd]
  rfl

theorem Transition.reload_settled (hD : Settles D) {t t' : Transition D T}
    (h : t.reload = .ok t') : t'.reload = .ok t' := by
  rw [Transition.reload] at h
  obtain ⟨checks, hc, h⟩ := bind_ok h
  cases h
  rw [Transition.reload, mapM_settled hD hc]
  rfl

theorem settled_keyed {f : α → Except ε α} (hf : ∀ x y, f x = .ok y → f y = .ok y) :
    ∀ p q : κ × α, (f p.2).map (p.1, ·) = .ok q → (f q.2).map (q.1, ·) = .ok q := by
  intro p q h
  obtain ⟨y, hy, rfl⟩ := map_ok h
  rw [hf _ _ hy]
  rfl

/-- A persisted state is read back as it is when it is saved once more. -/
theorem RunState.reload_settled (hD : Settles D) {s s' : RunState D T} (h : s.reload = .ok s') :
    s'.reload = .ok s' := by
  rw [RunState.reload] at h
  obtain ⟨data, hdata, h⟩ := bind_ok h
  obtain ⟨errors, herrors, h⟩ := bind_ok h
  obtain ⟨entries, hentries, h⟩ := bind_ok h
  obtain ⟨transitions, htransitions, h⟩ := bind_ok h
  cases h
  rw [RunState.reload]
  dsimp only
  rw [mapM_settled (settled_keyed hD) hdata, mapM_settled hD herrors,
    mapM_settled (settled_keyed fun _ _ => RunEntry.reload_settled hD) hentries,
    mapM_settled (fun _ _ => Transition.reload_settled hD) htransitions]
  rfl

/-- The parts of a state that is read back as it is. -/
theorem RunState.reload_self {s : RunState D T} (h : s.reload = .ok s) :
    (s.data.mapM fun p => (RunData.reload p.2).map (p.1, ·)) = .ok s.data ∧
      s.errors.mapM RunData.reload = .ok s.errors ∧
      (s.entries.mapM fun p => p.2.reload.map (p.1, ·)) = .ok s.entries ∧
      s.transitions.mapM Transition.reload = .ok s.transitions := by
  rw [RunState.reload] at h
  obtain ⟨data, hdata, h⟩ := bind_ok h
  obtain ⟨errors, herrors, h⟩ := bind_ok h
  obtain ⟨entries, hentries, h⟩ := bind_ok h
  obtain ⟨transitions, htransitions, h⟩ := bind_ok h
  have he := Except.ok.inj h
  refine ⟨hdata.trans ?_, herrors.trans ?_, hentries.trans ?_, htransitions.trans ?_⟩
  · exact congrArg (fun s : RunState D T => Except.ok s.data) he
  · exact congrArg (fun s : RunState D T => Except.ok s.errors) he
  · exact congrArg (fun s : RunState D T => Except.ok s.entries) he
  · exact congrArg (fun s : RunState D T => Except.ok s.transitions) he

theorem RunEntry.reload_retry {entry e : RunEntry D T} {edge : Edge} {evidence : List D}
    (hentry : entry.reload = .ok entry) (h : (entry.retry edge evidence).reload = .ok e) :
    ∃ kept, evidence.mapM RunData.reload = .ok kept ∧ e = entry.retry edge kept := by
  rw [RunEntry.reload] at hentry h
  obtain ⟨checks, hchecks, hentry⟩ := bind_ok hentry
  obtain ⟨dynamicChecks, hdynamic, hentry⟩ := bind_ok hentry
  injection hentry with hentry
  obtain ⟨checks', hchecks', h⟩ := bind_ok h
  obtain ⟨dynamicChecks', hdynamic', h⟩ := bind_ok h
  cases h
  have hc : checks = entry.checks := congrArg RunEntry.checks hentry
  have hd : dynamicChecks = entry.dynamicChecks := congrArg RunEntry.dynamicChecks hentry
  rw [hc] at hchecks
  rw [hd] at hdynamic
  obtain ⟨kept, hkept, rfl⟩ := mapM_append_ok hchecks hchecks'
  have hd' : dynamicChecks' = entry.dynamicChecks := Except.ok.inj (hdynamic'.symm.trans hdynamic)
  refine ⟨kept, hkept, ?_⟩
  rw [hd']
  rfl

/-- The state differs in the current entry alone: one more attempt at the edge is counted, and
evidence is added to its checks. -/
def CountedOnly (rb : Runbook D) (target : String) (s s' : RunState D T) : Prop :=
  ∃ edge i entry evidence, rb.edgeTo s.currentNode target = some edge ∧
    s.entry = .ok (i, entry) ∧
      s' = { s with entries := s.entries.set i (entry.retry edge evidence) }

/-- Each of the checks has been run by a call of `check_runner` of its own, in their order from the
call `n` on; a blocking one has passed. -/
inductive Ran (cb : Callbacks D) (ctx : CheckContext D) : Nat → List (Check D) → List D → Prop
  | nil (n : Nat) : Ran cb ctx n [] []
  | cons (hcall : cb.checkRunner n chk ctx = .ok result)
      (hkept : RunData.evidence chk.id chk.type result = .ok kept)
      (hpassed : chk.blocking = true → RunData.passed result = .ok true)
      (h : Ran cb ctx (n + 1) chks evidence) : Ran cb ctx n (chk :: chks) (kept :: evidence)

/-- The checks that `check_runner` is called with. -/
def checksCalled (cb : Callbacks D) (ctx : CheckContext D) (n : Nat) :
    List (Check D) → List (Check D)
  | [] => []
  | chk :: chks =>
    let item : Except RunError Bool := do
      let result ← cb.checkRunner n chk ctx
      let _ ← RunData.evidence chk.id chk.type result
      if chk.blocking then RunData.passed result else pure true
    chk :: match item with
      | .ok true => checksCalled cb ctx (n + 1) chks
      | _ => []

theorem runChecks_ran {cb : Callbacks D} {ctx : CheckContext D} {chks : List (Check D)} {n : Nat}
    {earlier evidence : List D} (h : runChecks cb ctx n earlier chks = .passed evidence) :
    ∃ later, evidence = earlier ++ later ∧ Ran cb ctx n chks later := by
  induction chks generalizing n earlier with
  | nil =>
    cases h
    exact ⟨[], (List.append_nil _).symm, .nil n⟩
  | cons chk chks ih =>
    rw [runChecks] at h
    dsimp only at h
    split at h
    · cases h
    · rename_i result kept passed hitem
      obtain ⟨result', hcall, hitem⟩ := bind_ok hitem
      obtain ⟨kept', hkept, hitem⟩ := bind_ok hitem
      have hp : passed = true := by
        by_contra hp
        rw [if_neg hp] at h
        cases h
      rw [hp, if_pos rfl] at h
      split at hitem
      · obtain ⟨passed', hpassed, hitem⟩ := bind_ok hitem
        cases hitem
        obtain ⟨later, rfl, hran⟩ := ih h
        refine ⟨kept :: later, by simp, .cons hcall hkept (fun _ => ?_) hran⟩
        rw [hpassed, hp]
      · rename_i hb
        cases hitem
        obtain ⟨later, rfl, hran⟩ := ih h
        exact ⟨kept :: later, by simp, .cons hcall hkept (fun h => absurd h hb) hran⟩

theorem Ran.called {cb : Callbacks D} {ctx : CheckContext D} {chks : List (Check D)} {n : Nat}
    {evidence : List D} (h : Ran cb ctx n chks evidence) : checksCalled cb ctx n chks = chks := by
  induction h with
  | nil n => rfl
  | @cons n chk result kept chks evidence hcall hkept hpassed _ ih =>
    rw [checksCalled, hcall]
    change chk :: (match (RunData.evidence chk.id chk.type result >>= fun _ =>
      if chk.blocking then RunData.passed result else pure true) with
      | .ok true => checksCalled cb ctx (n + 1) chks
      | _ => []) = chk :: chks
    rw [hkept]
    change chk :: (match (if chk.blocking = true then RunData.passed result else pure true) with
      | .ok true => checksCalled cb ctx (n + 1) chks
      | _ => []) = chk :: chks
    have hp : (if chk.blocking = true then RunData.passed result else pure true) = .ok true := by
      split
      · rename_i hb
        exact hpassed hb
      · rfl
    rw [hp, ih]

/-- What a call of `runbook_goto` on a persisted state may leave behind, by how it ends. -/
structure GotoContract (rb : Runbook D) (target : String) (cb : Callbacks D) (s : RunState D T)
    (stored : Option (RunState D T)) (r : Except RunError (GotoResult D)) : Prop where
  raised : ∀ e, r = .error e →
    stored = some s ∨ ∃ s', stored = some s' ∧ CountedOnly rb target s s'
  failed : ∀ reason result stayIn evidence, r = .ok (.failed reason result stayIn evidence) →
    ∃ s', stored = some s' ∧ CountedOnly rb target s s'
  refused : ∀ reason, r = .ok (.refused reason) → stored = some s
  moved : ∀ source goal entryId prompt, r = .ok (.ok source goal entryId prompt) →
    ∃ s' transition node i entry evidence, stored = some s' ∧
      s'.transitions = s.transitions ++ [transition] ∧
      rb.node s.currentNode = .ok node ∧ s.entry = .ok (i, entry) ∧
      Ran cb ⟨s.runId, s.currentNode, cb.agent⟩ 0 (node.beforeTransfer ++ entry.dynamicChecks)
        evidence ∧
      checksCalled cb ⟨s.runId, s.currentNode, cb.agent⟩ 0
        (node.beforeTransfer ++ entry.dynamicChecks) = node.beforeTransfer ++ entry.dynamicChecks ∧
      transition.source = source ∧ transition.target = target ∧
      transition.fromEntry = some i ∧ evidence.mapM RunData.reload = .ok transition.checks

theorem RunState.entry_reload {s : RunState D T} {i : String} {entry : RunEntry D T}
    (hs : s.reload = .ok s) (h : s.entry = .ok (i, entry)) : entry.reload = .ok entry := by
  obtain ⟨-, -, hentries, -⟩ := RunState.reload_self hs
  have hlook := (RunState.entry_ok h).2
  obtain ⟨entry', hlook', hr⟩ := lookup_of_mapM hentries hlook
  rw [hlook] at hlook'
  cases hlook'
  exact hr

/-- A saved attempt that has failed. -/
theorem CountedOnly.reload {rb : Runbook D} {target : String} {s s' : RunState D T} {edge : Edge}
    {i : String} {entry : RunEntry D T} {evidence : List D} (hs : s.reload = .ok s)
    (hedge : rb.edgeTo s.currentNode target = some edge) (hentry : s.entry = .ok (i, entry))
    (h : ({ s with entries := s.entries.set i (entry.retry edge evidence) } :
      RunState D T).reload = .ok s') : CountedOnly rb target s s' := by
  obtain ⟨hdata, herrors, hentries, htransitions⟩ := RunState.reload_self hs
  rw [RunState.reload] at h
  dsimp only at h
  rw [hdata, herrors, htransitions] at h
  obtain ⟨data, hdata', h⟩ := bind_ok h
  obtain ⟨errors, herrors', h⟩ := bind_ok h
  obtain ⟨entries, hset, h⟩ := bind_ok h
  obtain ⟨transitions, htransitions', h⟩ := bind_ok h
  cases hdata'
  cases herrors'
  cases htransitions'
  cases h
  obtain ⟨e, he, rfl⟩ := mapM_set_ok hentries hset
  obtain ⟨kept, -, rfl⟩ := RunEntry.reload_retry (RunState.entry_reload hs hentry) he
  exact ⟨edge, i, entry, kept, hedge, hentry, rfl⟩

/-- The state after a move, as it is read back. -/
theorem gotoMove_reload {rb : Runbook D} {s s' s₁ : RunState D T} {edge : Edge}
    {node node' : Node D} {target newEntryId : String} {cb : Callbacks D} {evidence : List D}
    {now : T} (hs : s.reload = .ok s)
    (hm : gotoMove rb s edge node target cb evidence newEntryId now = .ok (s₁, node'))
    (h : s₁.reload = .ok s') :
    ∃ kept, evidence.mapM RunData.reload = .ok kept ∧ s'.transitions = s.transitions ++
      [⟨edge.fromNode, target, s.currentEntryId, newEntryId, kept, now⟩] := by
  obtain ⟨-, -, -, htransitions⟩ := RunState.reload_self hs
  rw [gotoMove_ok hm, RunState.reload] at h
  obtain ⟨data, -, h⟩ := bind_ok h
  obtain ⟨errors, -, h⟩ := bind_ok h
  obtain ⟨entries, -, h⟩ := bind_ok h
  obtain ⟨transitions, htransitions', h⟩ := bind_ok h
  cases h
  obtain ⟨later, hlater, rfl⟩ := mapM_append_ok htransitions htransitions'
  obtain ⟨transition, transitions, ht, hnil, rfl⟩ := mapM_cons_ok hlater
  cases hnil
  rw [Transition.reload] at ht
  obtain ⟨kept, hkept, ht⟩ := bind_ok ht
  cases ht
  exact ⟨kept, hkept, rfl⟩

theorem GotoSave.contract {rb : Runbook D} {s s₁ s' : RunState D T} {target newEntryId : String}
    {cb : Callbacks D} {now : T} {r : Except RunError (GotoResult D)} (hs : s.reload = .ok s)
    (h : GotoSave rb target cb newEntryId now s s₁ r) (hr : s₁.reload = .ok s') :
    GotoContract rb target cb s (some s') r := by
  cases h with
  | block hrun hedge hentry hm =>
    exact ⟨nofun, nofun, nofun, nofun⟩
  | fail hrun hedge hentry hm hnode hc =>
    have hcount : ∃ s'', some s' = some s'' ∧ CountedOnly rb target s s'' :=
      ⟨s', rfl, CountedOnly.reload hs hedge hentry hr⟩
    refine ⟨fun _ _ => .inr hcount, fun _ _ _ _ _ => hcount, ?_, ?_⟩
    · intro reason he
      obtain ⟨-, -, he⟩ := bind_ok he
      cases he
    · intro source goal entryId prompt he
      obtain ⟨-, -, he⟩ := bind_ok he
      cases he
  | move hrun hedge hentry hm hnode hc hmove =>
    refine ⟨nofun, nofun, nofun, ?_⟩
    intro source goal entryId prompt he
    cases he
    obtain ⟨later, he, hran⟩ := runChecks_ran hc
    rw [List.nil_append] at he
    subst he
    obtain ⟨kept, hkept, ht⟩ := gotoMove_reload hs hmove hr
    exact ⟨s', _, _, _, _, _, rfl, ht, hnode, hentry, hran, hran.called, rfl, rfl,
      (RunState.entry_ok hentry).1, hkept⟩

theorem GotoContract.unchanged {rb : Runbook D} {s : RunState D T} {target : String}
    {cb : Callbacks D} {r : Except RunError (GotoResult D)}
    (h : (∃ e, r = .error e) ∨ ∃ reason, r = .ok (.refused reason)) :
    GotoContract rb target cb s (some s) r := by
  rcases h with ⟨e, rfl⟩ | ⟨reason, rfl⟩
  · exact ⟨fun _ _ => .inl rfl, nofun, nofun, nofun⟩
  · exact ⟨nofun, nofun, fun _ _ => rfl, nofun⟩

end

/-- What the decoder has read is written and read back as it is. -/
theorem json_settles {F : Type} [Json.FloatText F] : Settles (Json F) := by
  intro x y h
  have hy : y = (Json.keyTexts x).build := (Except.ok.inj h).symm
  have hk : Json.keyTexts y = y := Value.mapKeys_id y
  change Except.ok (Json.keyTexts y).build = Except.ok y
  rw [hk, hy, Value.build_of_distinct _ (Value.build_distinct _)]

end Orchestrator
end Obase
