import Obase.HarnessAdapter.Runs

namespace Obase.HarnessAdapter
set_option autoImplicit true

/-- What the adapter owes its callers after a step, once a `cancel` has returned `True`, or a run
has ended. -/
structure Agreed (w : World υ) (ev : Event κ) (w' : World υ) : Prop where
  result : ∀ id, .cancelled id true ∈ w'.calls → ∀ r, .returned r ∈ w'.calls → r.runId = id →
    r.status = .cancelled
  asked : ∀ id, ev = .status id → .cancelled id true ∈ w.calls →
    w'.calls = w.calls ++ [.probing id true]
  reported : ∀ k id, ev = .probed k → w.calls[k]? = some (.probing id true) →
    .cancelled id true ∈ w.calls → w'.calls[k]? = some (.reported id (some .cancelled))
  cancelled : ∀ id, .cancelled id true ∈ w'.calls →
    ∃ t, w'.runs.lookup id = some t ∧ t.status = .cancelled
  agreed : ∀ r, .returned r ∈ w'.calls → .cancelling r.runId ∉ w'.calls →
    ∃ t, w'.runs.lookup r.runId = some t ∧ t.status = r.status

/-- A `cancel` comes to its last write before the run that it cancels has returned another result,
and a run that was cancelled does not time out. -/
def Orderly (w : World υ) : Event κ → Prop
  | .waited k how => how ≠ .lookupError → ∀ id, w.calls[k]? = some (.cancelling id) →
    ∀ r, .returned r ∈ w.calls → r.runId = id → r.status = .cancelled
  | .timedOut k => ∀ id origin t, w.calls[k]? = some (.communicating id origin) →
    w.runs.lookup id = some t → t.status ≠ .cancelled
  | _ => True

/-- The status of the run of a call that has ended. -/
def Settled (runs : Dict String TrackedRun) : Call υ → Prop
  | .returned r => ∃ t, runs.lookup r.runId = some t ∧ t.status = r.status
  | .cancelled id true => ∃ t, runs.lookup id = some t ∧ t.status = .cancelled
  | _ => True

/-- The runs whose status is `cancelled` are those that were cancelled. -/
def World.Marked (w : World υ) : Prop :=
  ∀ id t, w.runs.lookup id = some t → t.status = .cancelled → .cancelled id true ∈ w.calls

section
variable {A : Adapter κ υ} {w w' : World υ} {ev : Event κ}

theorem World.mem_goOn {k : Nat} {c₀ c c' : Call υ} (hk : w.calls[k]? = some c₀)
    (hc : c' ∈ w.calls) (hne : c' ≠ c₀) : c' ∈ (w.goOn k c).calls := by
  obtain ⟨j, hj⟩ := List.mem_iff_getElem?.1 hc
  refine List.mem_iff_getElem?.2 ⟨j, (Calls.getElem?_goOn hk).2 (.inr ⟨?_, hj⟩)⟩
  rintro rfl
  exact hne (Option.some.inj (hj.symm.trans hk))

theorem World.mem_finish {k : Nat} {c₀ c' : Call υ} {r : HarnessRunResult υ}
    {origin : Option Origin} {session : Option String} (hk : w.calls[k]? = some c₀)
    (hc : c' ∈ w.calls) (hne : c' ≠ c₀) : c' ∈ (w.finish k origin session r).calls := by
  rw [World.finish]
  exact World.mem_goOn (by rw [World.track_calls]; exact hk) (by rw [World.track_calls]; exact hc)
    hne

theorem Settled.keep {c : Call υ} (h : Settled w.runs c) (id : String)
    {f : TrackedRun → TrackedRun} (hf : ∀ t, (f t).status = t.status) :
    Settled (w.track id f).runs c := by
  have hstatus {i : String} {status : RunStatus}
      (ht : ∃ t, w.runs.lookup i = some t ∧ t.status = status) :
      ∃ t, (w.track id f).runs.lookup i = some t ∧ t.status = status := by
    obtain ⟨t, ht, hs⟩ := ht
    rw [World.lookup_track, ht]
    split
    · exact ⟨f t, rfl, (hf t).trans hs⟩
    · exact ⟨t, rfl, hs⟩
  cases c with
  | returned r => exact hstatus h
  | cancelled i ok =>
    cases ok with
    | false => trivial
    | true => exact hstatus h
  | _ => trivial

/-- A status is written by the coroutine of the run, seen from the other calls. -/
theorem Settled.other {c : Call υ} (h : Settled w.runs c) {id : String} (ho : c.owner ≠ some id)
    (hc : c ≠ .cancelled id true) (f : TrackedRun → TrackedRun) :
    Settled (w.track id f).runs c := by
  cases c with
  | returned r =>
    have hne : r.runId ≠ id := fun he => ho (congrArg some he)
    rw [Settled, World.lookup_track_ne hne]
    exact h
  | cancelled i ok =>
    cases ok with
    | false => trivial
    | true =>
      have hne : i ≠ id := by
        rintro rfl
        exact hc rfl
      rw [Settled, World.lookup_track_ne hne]
      exact h
  | _ => trivial

/-- A coroutine ends, of a run that was not cancelled. -/
theorem World.Every.settle (h : w.Every Settled) (hw : w.Single) {k : Nat} {c₀ : Call υ}
    {r : HarnessRunResult υ} (hk : w.calls[k]? = some c₀) (ho : c₀.owner = some r.runId)
    {t : TrackedRun} (ht : w.runs.lookup r.runId = some t)
    (hc : .cancelled r.runId true ∈ w.calls → r.status = .cancelled) (origin : Option Origin)
    (session : Option String) : (w.finish k origin session r).Every Settled := by
  refine h.write hw hk ho (fun c' hm hne hc' => ?_) ?_
  · by_cases he : c' = .cancelled r.runId true
    · subst he
      refine ⟨{ t with status := r.status, harnessSession := session }, ?_, hc hm⟩
      rw [World.lookup_track_self, ht]
      rfl
    · exact hc'.other hne he _
  · refine ⟨{ t with status := r.status, harnessSession := session }, ?_, (status_stamp ..).symm⟩
    rw [runId_stamp, World.lookup_track_self, ht]
    rfl

theorem World.Marked.track (h : w.Marked) {id : String} {f : TrackedRun → TrackedRun}
    (hf : ∀ t, w.runs.lookup id = some t → (f t).status = .cancelled →
      .cancelled id true ∈ w.calls) : (w.track id f).Marked := by
  intro i t ht hs
  rw [World.track_calls]
  rw [World.lookup_track] at ht
  by_cases he : i = id
  · subst he
    rw [if_pos rfl] at ht
    obtain ⟨t₀, ht₀, rfl⟩ := Option.map_eq_some_iff.1 ht
    exact hf t₀ ht₀ hs
  · rw [if_neg he] at ht
    exact h i t ht hs

theorem World.Marked.goOn (h : w.Marked) {k : Nat} {c₀ : Call υ} (hk : w.calls[k]? = some c₀)
    (h₀ : ∀ id, c₀ ≠ .cancelled id true) (c : Call υ) : (w.goOn k c).Marked :=
  fun id t ht hs => World.mem_goOn hk (h id t ht hs) fun he => h₀ id he.symm

theorem World.Marked.finish (h : w.Marked) {k : Nat} {c₀ : Call υ} {r : HarnessRunResult υ}
    (hk : w.calls[k]? = some c₀) (h₀ : ∀ id, c₀ ≠ .cancelled id true)
    (hr : r.status = .cancelled → .cancelled r.runId true ∈ w.calls) (origin : Option Origin)
    (session : Option String) : (w.finish k origin session r).Marked := by
  rw [World.finish]
  exact (h.track fun _ _ hs => hr hs).goOn (by rw [World.track_calls]; exact hk) h₀ _

/-- A run that has not got a process was not cancelled. -/
theorem Inv.not_cancelled (h : Inv w) {k : Nat} {id : String} {origin : Option Origin}
    {argv : List String} (hk : w.calls[k]? = some (.spawning id origin argv)) :
    .cancelled id true ∉ w.calls := by
  intro hc
  obtain ⟨j, hj⟩ := List.mem_iff_getElem?.1 hc
  obtain ⟨t, ht, hp⟩ := h.tracked j _ hj
  obtain rfl := Option.some.inj (ht.symm.trans (h.tracked k _ hk).1)
  exact hp rfl

theorem World.Every.status (h : w.Every Settled) {id : String} (hc : .cancelled id true ∈ w.calls)
    {t : TrackedRun} (ht : w.runs.lookup id = some t) : t.status = .cancelled := by
  obtain ⟨j, hj⟩ := List.mem_iff_getElem?.1 hc
  obtain ⟨t', ht', hs⟩ := h j _ hj
  obtain rfl := Option.some.inj (ht.symm.trans ht')
  exact hs

theorem settled_step (hi : Inv w) (h : w.Every Settled) (ha : Orderly w ev) (hs : Step A w ev w') :
    w'.Every Settled := by
  cases hs with
  | began _ c ho ht hc =>
    refine h.begin ?_
    cases c with
    | returned => cases ho
    | cancelled id ok =>
      cases ok with
      | false => trivial
      | true => exact (ht id rfl).elim
    | _ => trivial
  | spawned _ id origin argv hid ho =>
    have hset : World.Every Settled
        ({ w with runs := Dict.set id ⟨none, none, .running⟩ w.runs } : World υ) := by
      intro k c hk
      have hc := h k c hk
      have hne {i : String} {status : RunStatus}
          (ht : ∃ t, w.runs.lookup i = some t ∧ t.status = status) :
          ∃ t, (Dict.set id ⟨none, none, .running⟩ w.runs).lookup i = some t ∧
            t.status = status := by
        obtain ⟨t, ht, hs⟩ := ht
        have hne : i ≠ id := by
          rintro rfl
          cases hid.symm.trans ht
        exact ⟨t, (Dict.lookup_set_ne hne ..).trans ht, hs⟩
      cases c with
      | returned r => exact hne hc
      | cancelled i ok =>
        cases ok with
        | false => trivial
        | true => exact hne hc
      | _ => trivial
    exact hset.begin trivial
  | stopped _ k c₀ c hk h₀ ho ht hc =>
    refine h.goOn hk ?_
    cases c with
    | returned => cases ho
    | cancelled id ok =>
      cases ok with
      | false => trivial
      | true => exact (ht id rfl).elim
    | _ => trivial
  | launched k id origin argv hk =>
    exact h.write hi.single hk rfl (fun c' _ _ hc' => hc'.keep id fun _ => rfl) trivial
  | notFound k id origin argv text hk =>
    obtain ⟨t, ht⟩ := (hi.tracked k _ hk).known rfl
    exact h.settle hi.single hk rfl ht (fun hc => (hi.not_cancelled hk hc).elim) origin _
  | exited id returncode t ht hp =>
    exact h.track fun c _ hc => hc.keep id fun _ => rfl
  | kept k id origin t stdout stderr hk ht hs =>
    exact h.settle hi.single hk rfl ht (fun _ => rfl) origin _
  | failed k id origin t stdout stderr status hk ht hs hstatus =>
    refine h.write hi.single hk rfl (fun c' hm hne hc' => hc'.other hne ?_ _) trivial
    rintro rfl
    exact hs (h.status hm ht)
  | parsed k id origin t returncode stdout stderr output usage error session r hk ht hs hp hparse
      hsession hid hstatus hrs =>
    subst hid
    exact h.settle hi.single hk rfl ht (fun hc => (hs (h.status hc ht)).elim) origin _
  | timedOut k id origin hk =>
    obtain ⟨t, ht⟩ := (hi.tracked k _ hk).known rfl
    exact h.settle hi.single hk rfl ht
      (fun hc => (ha id origin t hk ht (h.status hc ht)).elim) origin _
  | cancelled k id how hk hh =>
    obtain ⟨t, ht, -⟩ := hi.tracked k _ hk
    have hnew : ∃ t, (w.track id fun t => { t with status := .cancelled }).runs.lookup id =
        some t ∧ t.status = .cancelled := by
      refine ⟨{ t with status := .cancelled }, ?_, rfl⟩
      rw [World.lookup_track_self, ht]
      rfl
    have hmark : (w.track id fun t => { t with status := .cancelled }).Every Settled := by
      refine h.track fun c hm hc => ?_
      by_cases ho : c.owner = some id
      · cases c with
        | returned r =>
          obtain rfl := Option.some.inj ho
          rw [Settled, ha hh r.runId hk r hm rfl]
          exact hnew
        | cancelled => cases ho
        | _ => trivial
      · by_cases he : c = .cancelled id true
        · subst he
          exact hnew
        · exact hc.other ho he _
    exact hmark.goOn (by rw [World.track_calls]; exact hk) hnew

theorem World.Marked.step (h : w.Marked) (hs : Step A w ev w') : w'.Marked := by
  cases hs with
  | began _ c ho ht hc => exact fun id t ht hs => List.mem_append_left _ (h id t ht hs)
  | spawned _ id origin argv hid ho =>
    intro i t ht hs
    change (Dict.set id _ w.runs).lookup i = some t at ht
    by_cases he : i = id
    · subst he
      rw [Dict.lookup_set_self] at ht
      cases ht
      cases hs
    · rw [Dict.lookup_set_ne he] at ht
      exact List.mem_append_left _ (h i t ht hs)
  | stopped _ k c₀ c hk h₀ ho ht hc => exact h.goOn hk h₀ c
  | launched k id origin argv hk =>
    have hmark : (w.track id fun t => { t with proc := some none }).Marked :=
      h.track fun t ht hs => h id t ht hs
    exact hmark.goOn (by rw [World.track_calls]; exact hk) (by intro _ he; cases he) _
  | notFound k id origin argv text hk =>
    exact h.finish hk (by intro _ he; cases he) (by intro he; cases he) origin _
  | exited id returncode t ht hp => exact h.track fun t ht hs => h id t ht hs
  | kept k id origin t stdout stderr hk ht hs =>
    exact h.finish hk (by intro _ he; cases he) (fun _ => h id t ht hs) origin _
  | failed k id origin t stdout stderr status hk ht hs hstatus =>
    have hmark : (w.track id fun t => { t with status := status }).Marked :=
      h.track fun _ _ he => (hstatus he).elim
    exact hmark.goOn (by rw [World.track_calls]; exact hk) (by intro _ he; cases he) _
  | parsed k id origin t returncode stdout stderr output usage error session r hk ht hs hp hparse
      hsession hid hstatus hrs =>
    refine h.finish hk (by intro _ he; cases he) (fun he => ?_) origin _
    rw [hstatus] at he
    split at he
    · cases he
    · cases he
  | timedOut k id origin hk =>
    exact h.finish hk (by intro _ he; cases he) (by intro he; cases he) origin _
  | cancelled k id how hk hh =>
    intro i t ht hs'
    have hk' : (w.track id fun t => { t with status := .cancelled }).calls[k]? =
        some (.cancelling id) := by
      rw [World.track_calls]
      exact hk
    by_cases he : i = id
    · rw [he]
      exact List.mem_iff_getElem?.2 ⟨k, (Calls.getElem?_goOn hk').2 (.inl ⟨rfl, rfl⟩)⟩
    · have hmem : .cancelled i true ∈
          (w.track id fun t => { t with status := .cancelled }).calls := by
        rw [World.track_calls]
        exact h i t ((World.lookup_track_ne he _).symm.trans ht) hs'
      exact World.mem_goOn hk' hmem fun he => (nomatch he)

/-- What a call of `status` does in a state in which the run has been cancelled. -/
theorem agreed_of_settled (hi : Inv w) (h : w.Every Settled) (hs : w.step A ev = some w')
    (h' : w'.Every Settled) : Agreed w ev w' where
  result := by
    rintro id hc r hr rfl
    obtain ⟨k, hk⟩ := List.mem_iff_getElem?.1 hr
    obtain ⟨t, ht, he⟩ := h' k _ hk
    exact he.symm.trans (h'.status hc ht)
  asked := by
    rintro id rfl hc
    obtain ⟨k, hk⟩ := List.mem_iff_getElem?.1 hc
    obtain ⟨t, ht, -⟩ := hi.tracked k _ hk
    cases hs
    change w.calls ++ [.probing id (w.runs.lookup id).isSome] = _
    rw [ht]
    rfl
  reported := by
    rintro k id rfl hk hc
    obtain ⟨j, hj⟩ := List.mem_iff_getElem?.1 hc
    obtain ⟨t, ht, -⟩ := hi.tracked j _ hj
    simp only [World.step, hk, ht] at hs
    cases hs
    refine (Calls.getElem?_goOn hk).2 (.inl ⟨rfl, ?_⟩)
    rw [if_pos trivial, Option.map_some, h.status hc ht]
  cancelled := by
    intro id hc
    obtain ⟨k, hk⟩ := List.mem_iff_getElem?.1 hc
    exact h' k _ hk
  agreed := by
    intro r hr _
    obtain ⟨k, hk⟩ := List.mem_iff_getElem?.1 hr
    exact h' k _ hk

theorem orderly_of_agreed (hm : w.Marked) (hs : w.step A ev = some w')
    (h : Agreed w ev w') : Orderly w ev := by
  cases ev with
  | waited k how =>
    rintro hh id hk r hr rfl
    have hw' : w' = w.waited k r.runId how := by
      cases how with
      | lookupError => exact (hh rfl).elim
      | killed =>
        simp only [World.step, hk] at hs
        exact (Option.some.inj hs).symm
      | exited =>
        simp only [World.step, hk] at hs
        split at hs
        · exact (Option.some.inj hs).symm
        · cases hs
    have hw : w' = (w.track r.runId fun t => { t with status := .cancelled }).goOn k
        (.cancelled r.runId true) := by
      cases how with
      | lookupError => exact (hh rfl).elim
      | killed => exact hw'
      | exited => exact hw'
    have hk' : (w.track r.runId fun t => { t with status := .cancelled }).calls[k]? =
        some (.cancelling r.runId) := by
      rw [World.track_calls]
      exact hk
    rw [hw] at h
    refine h.result r.runId ?_ r ?_ rfl
    · exact List.mem_iff_getElem?.2 ⟨k, (Calls.getElem?_goOn hk').2 (.inl ⟨rfl, rfl⟩)⟩
    · exact World.mem_goOn hk' (by rw [World.track_calls]; exact hr) (by rintro ⟨⟩)
  | timedOut k =>
    intro id origin t hk ht hc
    simp only [World.step, hk] at hs
    cases hs
    have hmem := hm id t ht hc
    obtain ⟨t', ht', he⟩ := h.cancelled id (World.mem_finish hk hmem (by rintro ⟨⟩))
    change ((w.track id _).runs.lookup id) = _ at ht'
    rw [World.lookup_track_self, ht] at ht'
    cases ht'
    cases he
  | _ => trivial

/-- In a run of the adapter, a `cancel` that has returned `True` is what results and statuses tell,
and the status of a run that has ended is that of its result, exactly if no `cancel` comes to its
last write after the run has returned another result, and no run times out after it was
cancelled. -/
theorem agreed_iff_orderly {l : List (Event κ × World υ)}
    (ht : Run.Trace (fun w ev w' => w.step A ev = some w') World.init l) :
    Run.Along Agreed World.init l ↔ Run.Always Orderly World.init l := by
  refine ht.along_iff_while (I := fun w => Inv w ∧ w.Every Settled ∧ w.Marked)
    ⟨Inv.init, fun _ _ hk => (nomatch hk), fun _ _ ht => (nomatch ht)⟩ fun w ev w' h hs => ?_
  obtain ⟨hi, h, hm⟩ := h
  have hstep := Step.of_step hs
  refine ⟨fun ha => ⟨hi.step hstep, settled_step hi h ha hstep, hm.step hstep⟩, ?_, ?_⟩
  · exact orderly_of_agreed hm hs
  · exact fun ha => agreed_of_settled hi h hs (settled_step hi h ha hstep)

end

/-- A run that is cancelled while its process runs. -/
theorem cancelled_orderly :
    Run.Along Agreed World.init (World.init.runsOf echo
      [.run "hrn_1" "hi" ⟨none, ()⟩, .created 0 (.ok ()), .cancel "hrn_1" true,
        .exited "hrn_1" (-15), .waited 1 .exited, .communicated 0 "" "", .status "hrn_1",
        .probed 2]) := by
  refine (agreed_iff_orderly (World.runsOf_trace ..)).2 ?_
  refine ⟨trivial, trivial, trivial, trivial, ?_, trivial, trivial, trivial, trivial⟩
  intro _ id hk r hr
  rcases List.mem_cons.1 hr with he | hr
  · cases he
  · cases List.mem_singleton.1 hr

/-- The coroutine of the run is scheduled before the call of `cancel` when the process ends. -/
theorem result_before_cancel : ¬ ∀ (A : Adapter Unit Unit) (l : List (Event Unit × World Unit)),
    Run.Trace (fun w ev w' => w.step A ev = some w') World.init l →
      Run.Along Agreed World.init l := by
  intro h
  obtain ⟨-, -, -, -, -, hs, -⟩ := h echo _ (World.runsOf_trace echo World.init
    [.run "hrn_1" "hi" ⟨none, ()⟩, .created 0 (.ok ()), .cancel "hrn_1" true,
      .exited "hrn_1" (-15), .communicated 0 "" "", .waited 1 .exited])
  have hr := hs.result "hrn_1" (List.mem_cons_of_mem _ (List.mem_cons_self ..)) _
    (List.mem_cons_self ..) rfl
  cases hr

end Obase.HarnessAdapter
