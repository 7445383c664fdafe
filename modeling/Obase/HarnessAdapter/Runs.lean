import Obase.HarnessAdapter.Adapter
import Obase.Run

namespace Obase.HarnessAdapter
set_option autoImplicit true

/-- The run that a call is the coroutine of. -/
def Call.owner : Call υ → Option String
  | .spawning id _ _ => some id
  | .communicating id _ => some id
  | .returned r => some r.runId
  | _ => none

/-- The session that a call of `resume` has found is not empty. -/
def Found (origin : Option Origin) : Prop := ∀ o, origin = some o → o.session ≠ ""

section
variable {A : Adapter κ υ} {w w' : World υ} {ev : Event κ}

theorem World.lookup_track_self (id : String) (f : TrackedRun → TrackedRun) :
    (w.track id f).runs.lookup id = (w.runs.lookup id).map f := by
  rw [World.track]
  cases h : w.runs.lookup id with
  | none => exact h
  | some t => exact Dict.lookup_set_self ..

theorem World.lookup_track_ne {id id' : String} (h : id' ≠ id) (f : TrackedRun → TrackedRun) :
    (w.track id f).runs.lookup id' = w.runs.lookup id' := by
  rw [World.track]
  cases w.runs.lookup id with
  | none => rfl
  | some t => exact Dict.lookup_set_ne h ..

@[simp] theorem World.track_calls (id : String) (f : TrackedRun → TrackedRun) :
    (w.track id f).calls = w.calls := by
  rw [World.track]
  cases w.runs.lookup id with
  | none => rfl
  | some t => rfl

theorem World.mem_keys {id : String} : id ∈ Dict.keys w.runs ↔ ∃ t, w.runs.lookup id = some t :=
  Dict.mem_keys_iff

/-- What a step does to the runs and the calls. -/
inductive Step (A : Adapter κ υ) (w : World υ) : Event κ → World υ → Prop where
  | began (ev : Event κ) (c : Call υ) (ho : c.owner = none) (ht : ∀ id, c ≠ .cancelled id true)
      (hc : ∀ id, c = .cancelling id → ∃ t, w.runs.lookup id = some t ∧ t.proc ≠ none) :
      Step A w ev (w.begin c)
  | spawned (ev : Event κ) (id : String) (origin : Option Origin) (argv : List String)
      (hid : w.runs.lookup id = none) (ho : Found origin) :
      Step A w ev (w.spawn id origin (some argv))
  | stopped (ev : Event κ) (k : Nat) (c₀ c : Call υ) (hk : w.calls[k]? = some c₀)
      (h₀ : ∀ id, c₀ ≠ .cancelled id true) (ho : c.owner = none)
      (ht : ∀ id, c ≠ .cancelled id true) (hc : ∀ id, c ≠ .cancelling id) :
      Step A w ev (w.goOn k c)
  | launched (k : Nat) (id : String) (origin : Option Origin) (argv : List String)
      (hk : w.calls[k]? = some (.spawning id origin argv)) :
      Step A w (.created k (.ok ()))
        ((w.track id fun t => { t with proc := some none }).goOn k (.communicating id origin))
  | notFound (k : Nat) (id : String) (origin : Option Origin) (argv : List String) (text : String)
      (hk : w.calls[k]? = some (.spawning id origin argv)) :
      Step A w (.created k (.error (.fileNotFound text)))
        (w.finish k origin ((w.runs.lookup id).bind fun t => t.harnessSession)
          (World.ended A id .failed text .unavailable none))
  | exited (id : String) (returncode : Int) (t : TrackedRun) (ht : w.runs.lookup id = some t)
      (hp : t.proc = some none) :
      Step A w (.exited id returncode)
        (w.track id fun t => { t with proc := some (some returncode) })
  | kept (k : Nat) (id : String) (origin : Option Origin) (t : TrackedRun) (stdout stderr : String)
      (hk : w.calls[k]? = some (.communicating id origin)) (ht : w.runs.lookup id = some t)
      (hs : t.status = .cancelled) :
      Step A w (.communicated k stdout stderr)
        (w.finish k origin t.harnessSession
          (World.ended A id .cancelled "cancelled" .cancelled t.harnessSession))
  | failed (k : Nat) (id : String) (origin : Option Origin) (t : TrackedRun)
      (stdout stderr : String) (status : RunStatus)
      (hk : w.calls[k]? = some (.communicating id origin)) (ht : w.runs.lookup id = some t)
      (hs : t.status ≠ .cancelled) (hstatus : status ≠ .cancelled) :
      Step A w (.communicated k stdout stderr)
        ((w.track id fun t => { t with status := status }).goOn k .raised)
  | parsed (k : Nat) (id : String) (origin : Option Origin) (t : TrackedRun)
      (returncode : Int) (stdout stderr output : String) (usage : υ) (error session : Option String)
      (r : HarnessRunResult υ)
      (hk : w.calls[k]? = some (.communicating id origin)) (ht : w.runs.lookup id = some t)
      (hs : t.status ≠ .cancelled) (hp : t.proc = some (some returncode))
      (hparse : A.parseOutput stdout stderr returncode = some (output, usage, error))
      (hsession : A.extractSession stdout stderr = some session) (hid : r.runId = id)
      (hstatus : r.status = if error.isNone then .completed else .failed)
      (hrs : r.sessionId = (truthy session).or t.harnessSession) :
      Step A w (.communicated k stdout stderr)
        (w.finish k origin ((truthy session).or t.harnessSession) r)
  | timedOut (k : Nat) (id : String) (origin : Option Origin)
      (hk : w.calls[k]? = some (.communicating id origin)) :
      Step A w (.timedOut k)
        (w.finish k origin ((w.runs.lookup id).bind fun t => t.harnessSession)
          (World.ended A id .timeout "timeout" .timeout none))
  | cancelled (k : Nat) (id : String) (how : Waited) (hk : w.calls[k]? = some (.cancelling id))
      (hh : how ≠ .lookupError) :
      Step A w (.waited k how)
        ((w.track id fun t => { t with status := .cancelled }).goOn k (.cancelled id true))

theorem truthy_ne {s : Option String} {t : String} (h : truthy s = some t) : t ≠ "" := by
  obtain ⟨-, ht⟩ := Option.filter_eq_some_iff.1 h
  simpa using ht

theorem World.sessionFor_ne {runId : String} {explicit : Option String} {session : String}
    (h : w.sessionFor runId explicit = some session) : session ≠ "" := by
  rw [World.sessionFor, Option.or_eq_some_iff] at h
  rcases h with h | ⟨-, h⟩
  · exact truthy_ne h
  · exact truthy_ne h

theorem Step.spawn {id : String} {origin : Option Origin} (argv : Option (List String))
    (hid : id ∉ Dict.keys w.runs) (ho : Found origin) : Step A w ev (w.spawn id origin argv) := by
  cases argv with
  | none => exact .began ev .raised rfl (fun _ he => (nomatch he)) fun _ he => (nomatch he)
  | some argv => exact .spawned ev id origin argv (Dict.lookup_eq_none_of_not_mem hid) ho

theorem Step.cancel (runId : String) (signalled : Bool) :
    Step A w ev (w.cancel runId signalled) := by
  have hfalse : Step A w ev (w.begin (.cancelled runId false)) :=
    .began ev _ rfl (fun _ he => (nomatch he)) fun _ he => (nomatch he)
  rw [World.cancel]
  split
  · exact hfalse
  · exact hfalse
  · rename_i hp
    obtain ⟨t, ht, hp⟩ := Option.bind_eq_some_iff.1 hp
    split
    · refine .began ev _ rfl (fun _ he => (nomatch he)) fun id he => ?_
      cases he
      exact ⟨t, ht, by rw [hp]; exact Option.some_ne_none _⟩
    · exact hfalse

theorem Step.communicated {k : Nat} {id : String} {origin : Option Origin} {t : TrackedRun}
    {returncode : Int} (stdout stderr : String)
    (hk : w.calls[k]? = some (.communicating id origin)) (ht : w.runs.lookup id = some t)
    (hp : t.proc = some (some returncode)) :
    Step A w (.communicated k stdout stderr)
      (w.communicated A k id origin t returncode stdout stderr) := by
  rw [World.communicated]
  split
  · rename_i hs
    exact .kept k id origin t stdout stderr hk ht hs
  · rename_i hs
    split
    · exact .stopped _ k _ _ hk (fun _ he => (nomatch he)) rfl (fun _ he => (nomatch he))
        fun _ he => (nomatch he)
    · rename_i output usage error hparse
      dsimp only
      split
      · refine .failed k id origin t stdout stderr _ hk ht hs ?_
        split
        · exact fun he => (nomatch he)
        · exact fun he => (nomatch he)
      · rename_i session hsession
        exact .parsed k id origin t returncode stdout stderr output usage error session _ hk ht hs
          hp hparse hsession rfl rfl rfl

theorem Step.of_step (hs : w.step A ev = some w') : Step A w ev w' := by
  cases ev with
  | run id prompt kwargs =>
    simp only [World.step, World.run] at hs
    split at hs
    · cases hs
    · rename_i hid
      cases hs
      split
      · exact .began _ .raised rfl (fun _ he => (nomatch he)) fun _ he => (nomatch he)
      · exact .spawn _ hid fun _ he => (nomatch he)
  | resume id runId prompt kwargs =>
    simp only [World.step, World.resume] at hs
    split at hs
    · cases hs
    · rename_i hid
      cases hs
      split
      · exact .began _ _ rfl (fun _ he => (nomatch he)) fun _ he => (nomatch he)
      · rename_i session hsession
        refine .spawn _ hid fun o he => ?_
        cases he
        exact World.sessionFor_ne hsession
  | created k r =>
    simp only [World.step] at hs
    split at hs
    · rename_i id origin argv hk
      cases hs
      rcases r with (text | _) | _
      · exact .notFound k id origin argv text hk
      · exact .stopped _ k _ _ hk (fun _ he => (nomatch he)) rfl (fun _ he => (nomatch he))
          fun _ he => (nomatch he)
      · exact .launched k id origin argv hk
    · cases hs
  | exited id returncode =>
    simp only [World.step] at hs
    split at hs
    · rename_i hp
      cases hs
      obtain ⟨t, ht, hp⟩ := Option.bind_eq_some_iff.1 hp
      exact .exited id returncode t ht hp
    · cases hs
  | communicated k stdout stderr =>
    simp only [World.step] at hs
    split at hs
    · rename_i id origin hk
      split at hs
      · rename_i t ht
        split at hs
        · rename_i returncode hp
          cases hs
          exact .communicated stdout stderr hk ht hp
        · cases hs
      · cases hs
    · cases hs
  | timedOut k =>
    simp only [World.step] at hs
    split at hs
    · rename_i id origin hk
      cases hs
      exact .timedOut k id origin hk
    · cases hs
  | interrupted k =>
    simp only [World.step] at hs
    split at hs
    all_goals first
      | cases hs; done
      | rename_i hk
        cases hs
        exact .stopped _ k _ _ hk (fun _ he => (nomatch he)) rfl (fun _ he => (nomatch he))
          fun _ he => (nomatch he)
  | cancel runId signalled =>
    cases hs
    exact .cancel runId signalled
  | waited k how =>
    simp only [World.step] at hs
    split at hs
    · rename_i id hk
      cases how with
      | exited =>
        dsimp only at hs
        split at hs
        · cases hs
          exact .cancelled k id _ hk fun he => (nomatch he)
        · cases hs
      | killed =>
        cases hs
        exact .cancelled k id _ hk fun he => (nomatch he)
      | lookupError =>
        cases hs
        exact .stopped _ k _ _ hk (fun _ he => (nomatch he)) rfl (fun _ he => (nomatch he))
          fun _ he => (nomatch he)
    · cases hs
  | status runId =>
    cases hs
    exact .began _ _ rfl (fun _ he => (nomatch he)) fun _ he => (nomatch he)
  | probed k =>
    simp only [World.step] at hs
    split at hs
    · rename_i hk
      cases hs
      exact .stopped _ k _ _ hk (fun _ he => (nomatch he)) rfl (fun _ he => (nomatch he))
        fun _ he => (nomatch he)
    · cases hs

/-- What holds of a call and of the runs. -/
def World.Every (G : Dict String TrackedRun → Call υ → Prop) (w : World υ) : Prop :=
  ∀ (k : Nat) (c : Call υ), w.calls[k]? = some c → G w.runs c

section
variable {G : Dict String TrackedRun → Call υ → Prop}

theorem World.Every.begin (h : w.Every G) {c : Call υ} (hc : G w.runs c) : (w.begin c).Every G := by
  intro j c' hj
  rw [World.begin, Calls.getElem?_start] at hj
  rcases hj with ⟨-, rfl⟩ | hj
  · exact hc
  · exact h j c' hj

theorem World.Every.goOn (h : w.Every G) {k : Nat} {c₀ c : Call υ} (hk : w.calls[k]? = some c₀)
    (hc : G w.runs c) : (w.goOn k c).Every G := by
  intro j c' hj
  rw [World.goOn, Calls.getElem?_goOn hk] at hj
  rcases hj with ⟨-, rfl⟩ | ⟨-, hj⟩
  · exact hc
  · exact h j c' hj

theorem World.Every.track (h : w.Every G) {id : String} {f : TrackedRun → TrackedRun}
    (hf : ∀ c ∈ w.calls, G w.runs c → G (w.track id f).runs c) : (w.track id f).Every G := by
  intro j c hj
  rw [World.track_calls] at hj
  exact hf c (List.mem_of_getElem? hj) (h j c hj)

end

/-- No run has two coroutines. -/
def World.Single (w : World υ) : Prop :=
  ∀ (j k : Nat) (c c' : Call υ) (id : String), w.calls[j]? = some c → w.calls[k]? = some c' →
    c.owner = some id → c'.owner = some id → j = k

/-- A change of a run that its coroutine makes, seen from the other calls. -/
theorem World.Every.write {G : Dict String TrackedRun → Call υ → Prop} (h : w.Every G)
    (hw : w.Single) {k : Nat} {id : String} {c₀ c : Call υ} (hk : w.calls[k]? = some c₀)
    (ho : c₀.owner = some id) {f : TrackedRun → TrackedRun}
    (hf : ∀ c' ∈ w.calls, c'.owner ≠ some id → G w.runs c' → G (w.track id f).runs c')
    (hc : G (w.track id f).runs c) : ((w.track id f).goOn k c).Every G := by
  intro j c' hj
  rw [World.goOn, Calls.getElem?_goOn (by rw [World.track_calls]; exact hk),
    World.track_calls] at hj
  rcases hj with ⟨-, rfl⟩ | ⟨hne, hj⟩
  · exact hc
  · exact hf c' (List.mem_of_getElem? hj) (fun he => hne (hw j k c' c₀ id hj hk he ho)) (h j c' hj)

theorem World.Single.begin (h : w.Single) {c : Call υ}
    (hc : ∀ id, c.owner = some id → ∀ c' ∈ w.calls, c'.owner ≠ some id) : (w.begin c).Single := by
  intro j k c₁ c₂ id hj hk h₁ h₂
  rw [World.begin, Calls.getElem?_start] at hj hk
  rcases hj with ⟨rfl, rfl⟩ | hj
  · rcases hk with ⟨rfl, rfl⟩ | hk
    · rfl
    · exact (hc id h₁ c₂ (List.mem_of_getElem? hk) h₂).elim
  · rcases hk with ⟨rfl, rfl⟩ | hk
    · exact (hc id h₂ c₁ (List.mem_of_getElem? hj) h₁).elim
    · exact h j k c₁ c₂ id hj hk h₁ h₂

theorem World.Single.goOn (h : w.Single) {k : Nat} {c₀ c : Call υ} (hk : w.calls[k]? = some c₀)
    (hc : ∀ id, c.owner = some id → c₀.owner = some id) : (w.goOn k c).Single := by
  intro i j c₁ c₂ id hi hj h₁ h₂
  rw [World.goOn, Calls.getElem?_goOn hk] at hi hj
  rcases hi with ⟨rfl, rfl⟩ | ⟨-, hi⟩
  · rcases hj with ⟨rfl, -⟩ | ⟨-, hj⟩
    · rfl
    · exact h i j c₀ c₂ id hk hj (hc id h₁) h₂
  · rcases hj with ⟨rfl, rfl⟩ | ⟨-, hj⟩
    · exact h i j c₁ c₀ id hi hk h₁ (hc id h₂)
    · exact h i j c₁ c₂ id hi hj h₁ h₂

theorem World.Single.track (h : w.Single) (id : String) (f : TrackedRun → TrackedRun) :
    (w.track id f).Single := by
  rw [World.Single, World.track_calls]
  exact h

/-- The run of a call is tracked, and as far as the call has come. -/
def Tracked (runs : Dict String TrackedRun) : Call υ → Prop
  | .spawning id origin _ => runs.lookup id = some ⟨none, none, .running⟩ ∧ Found origin
  | .communicating id origin =>
    ∃ t, runs.lookup id = some t ∧ t.proc ≠ none ∧ t.harnessSession = none ∧ Found origin
  | .returned r => ∃ t, runs.lookup r.runId = some t
  | .cancelling id => ∃ t, runs.lookup id = some t ∧ t.proc ≠ none
  | .cancelled id true => ∃ t, runs.lookup id = some t ∧ t.proc ≠ none
  | _ => True

structure Inv (w : World υ) : Prop where
  tracked : w.Every Tracked
  single : w.Single

theorem Inv.init : Inv (World.init : World υ) :=
  ⟨fun _ _ hk => (nomatch hk), fun _ _ _ _ _ hj => (nomatch hj)⟩

theorem Tracked.known {runs : Dict String TrackedRun} {c : Call υ} (h : Tracked runs c)
    {id : String} (ho : c.owner = some id) : ∃ t, runs.lookup id = some t := by
  cases c with
  | spawning i origin argv =>
    cases ho
    exact ⟨_, h.1⟩
  | communicating i origin =>
    cases ho
    obtain ⟨t, ht, -⟩ := h
    exact ⟨t, ht⟩
  | returned r =>
    cases ho
    exact h
  | _ => cases ho

theorem World.lookup_track (id id' : String) (f : TrackedRun → TrackedRun) :
    (w.track id f).runs.lookup id' =
      if id' = id then (w.runs.lookup id').map f else w.runs.lookup id' := by
  by_cases h : id' = id
  · rw [if_pos h, h, World.lookup_track_self]
  · rw [if_neg h, World.lookup_track_ne h]

/-- A tracked run stays, and a process that it has. -/
theorem World.proc_track {id id' : String} {f : TrackedRun → TrackedRun}
    (hf : ∀ t, t.proc ≠ none → (f t).proc ≠ none) {t : TrackedRun}
    (ht : w.runs.lookup id' = some t) (hp : t.proc ≠ none) :
    ∃ t, (w.track id f).runs.lookup id' = some t ∧ t.proc ≠ none := by
  rw [World.lookup_track, ht]
  by_cases h : id' = id
  · rw [if_pos h]
    exact ⟨f t, rfl, hf t hp⟩
  · rw [if_neg h]
    exact ⟨t, rfl, hp⟩

theorem World.known_track {id id' : String} (f : TrackedRun → TrackedRun) {t : TrackedRun}
    (ht : w.runs.lookup id' = some t) : ∃ t, (w.track id f).runs.lookup id' = some t := by
  rw [World.lookup_track, ht]
  by_cases h : id' = id
  · rw [if_pos h]
    exact ⟨f t, rfl⟩
  · rw [if_neg h]
    exact ⟨t, rfl⟩

theorem Tracked.write {c : Call υ} (h : Tracked w.runs c) {id : String}
    (ho : c.owner ≠ some id) {f : TrackedRun → TrackedRun}
    (hf : ∀ t, t.proc ≠ none → (f t).proc ≠ none) : Tracked (w.track id f).runs c := by
  cases c with
  | spawning i origin argv =>
    have hne : i ≠ id := fun he => ho (congrArg some he)
    rw [Tracked, World.lookup_track_ne hne]
    exact h
  | communicating i origin =>
    have hne : i ≠ id := fun he => ho (congrArg some he)
    rw [Tracked, World.lookup_track_ne hne]
    exact h
  | returned r =>
    obtain ⟨t, ht⟩ := h
    exact World.known_track f ht
  | cancelling i =>
    obtain ⟨t, ht, hp⟩ := h
    exact World.proc_track hf ht hp
  | cancelled i ok =>
    cases ok with
    | false => trivial
    | true =>
      obtain ⟨t, ht, hp⟩ := h
      exact World.proc_track hf ht hp
  | _ => trivial

/-- A change of a run that has a process, and keeps it and the session. -/
theorem Tracked.mark {c : Call υ} (h : Tracked w.runs c) {id : String} {t₀ : TrackedRun}
    (ht₀ : w.runs.lookup id = some t₀) (hp₀ : t₀.proc ≠ none) {f : TrackedRun → TrackedRun}
    (hf : ∀ t, t.proc ≠ none → (f t).proc ≠ none)
    (hs : ∀ t, (f t).harnessSession = t.harnessSession) : Tracked (w.track id f).runs c := by
  by_cases ho : c.owner = some id
  · cases c with
    | spawning i origin argv =>
      cases ho
      obtain rfl := Option.some.inj (ht₀.symm.trans h.1)
      exact (hp₀ rfl).elim
    | communicating i origin =>
      cases ho
      obtain ⟨t, ht, hp, hn, hfound⟩ := h
      refine ⟨f t, ?_, hf t hp, (hs t).trans hn, hfound⟩
      rw [World.lookup_track_self, ht]
      rfl
    | returned r =>
      obtain ⟨t, ht⟩ := h
      exact World.known_track f ht
    | _ => cases ho
  · exact h.write ho hf

theorem Inv.begin (h : Inv w) {c : Call υ} (ho : c.owner = none) (hc : Tracked w.runs c) :
    Inv (w.begin c) :=
  ⟨h.tracked.begin hc, h.single.begin fun id he => by rw [ho] at he; cases he⟩

theorem Inv.goOn (h : Inv w) {k : Nat} {c₀ c : Call υ} (hk : w.calls[k]? = some c₀)
    (ho : c.owner = none) (hc : Tracked w.runs c) : Inv (w.goOn k c) :=
  ⟨h.tracked.goOn hk hc, h.single.goOn hk fun id he => by rw [ho] at he; cases he⟩

/-- The coroutine of a run changes it. -/
theorem Inv.write (h : Inv w) {k : Nat} {id : String} {c₀ c : Call υ}
    (hk : w.calls[k]? = some c₀) (ho : c₀.owner = some id) {f : TrackedRun → TrackedRun}
    (hf : ∀ t, t.proc ≠ none → (f t).proc ≠ none) (hc : Tracked (w.track id f).runs c)
    (hown : ∀ i, c.owner = some i → i = id) : Inv ((w.track id f).goOn k c) := by
  refine ⟨h.tracked.write h.single hk ho (fun c' _ hne hc' => hc'.write hne hf) hc, ?_⟩
  refine (h.single.track id f).goOn (by rw [World.track_calls]; exact hk) fun i he => ?_
  rw [hown i he]
  exact ho

theorem runId_stamp (r : HarnessRunResult υ) (origin : Option Origin) :
    (World.stamp r origin).runId = r.runId := by
  cases origin with
  | none => rfl
  | some o => rfl

theorem status_stamp (r : HarnessRunResult υ) (origin : Option Origin) :
    (World.stamp r origin).status = r.status := by
  cases origin with
  | none => rfl
  | some o => rfl

theorem World.getElem?_finish {k : Nat} {c₀ : Call υ} (hk : w.calls[k]? = some c₀)
    (origin : Option Origin) (session : Option String) (r : HarnessRunResult υ) :
    (w.finish k origin session r).calls[k]? = some (.returned (World.stamp r origin)) := by
  have hk' : (w.track r.runId fun t =>
      { t with status := r.status, harnessSession := session }).calls[k]? = some c₀ := by
    rw [World.track_calls]
    exact hk
  exact (Calls.getElem?_goOn hk').2 (.inl ⟨rfl, rfl⟩)

theorem Inv.finish (h : Inv w) {k : Nat} {c₀ : Call υ} {r : HarnessRunResult υ}
    (hk : w.calls[k]? = some c₀) (ho : c₀.owner = some r.runId) (origin : Option Origin)
    (session : Option String) : Inv (w.finish k origin session r) := by
  rw [World.finish]
  obtain ⟨t, ht⟩ := (h.tracked k c₀ hk).known ho
  refine h.write hk ho (fun t hp => hp) ?_ fun i he => ?_
  · rw [Tracked, runId_stamp]
    exact World.known_track _ ht
  · rw [Call.owner, runId_stamp] at he
    exact (Option.some.inj he).symm

theorem Inv.spawned (h : Inv w) {id : String} {origin : Option Origin} (argv : List String)
    (hid : w.runs.lookup id = none) (ho : Found origin) :
    Inv (w.spawn id origin (some argv)) := by
  have hlookup {i : String} (hne : i ≠ id) (t : TrackedRun) :
      (Dict.set id t w.runs).lookup i = w.runs.lookup i := Dict.lookup_set_ne hne ..
  have hne {i : String} {t : TrackedRun} (ht : w.runs.lookup i = some t) : i ≠ id := by
    rintro rfl
    cases hid.symm.trans ht
  have htracked : World.Every Tracked
      ({ w with runs := Dict.set id ⟨none, none, .running⟩ w.runs } : World υ) := by
    intro k c hk
    have hc := h.tracked k c hk
    cases c with
    | spawning i origin argv =>
      rw [Tracked, hlookup (hne hc.1)]
      exact hc
    | communicating i origin =>
      obtain ⟨t, ht, hrest⟩ := hc
      rw [Tracked, hlookup (hne ht)]
      exact ⟨t, ht, hrest⟩
    | returned r =>
      obtain ⟨t, ht⟩ := hc
      rw [Tracked, hlookup (hne ht)]
      exact ⟨t, ht⟩
    | cancelling i =>
      obtain ⟨t, ht, hp⟩ := hc
      rw [Tracked, hlookup (hne ht)]
      exact ⟨t, ht, hp⟩
    | cancelled i ok =>
      cases ok with
      | false => trivial
      | true =>
        obtain ⟨t, ht, hp⟩ := hc
        rw [Tracked, hlookup (hne ht)]
        exact ⟨t, ht, hp⟩
    | _ => trivial
  refine ⟨htracked.begin ⟨Dict.lookup_set_self .., ho⟩, ?_⟩
  refine World.Single.begin (w := { w with runs := Dict.set id ⟨none, none, .running⟩ w.runs })
    h.single ?_
  intro i he c hc hi
  cases he
  obtain ⟨j, hj⟩ := List.mem_iff_getElem?.1 hc
  obtain ⟨t, ht⟩ := (h.tracked j c hj).known hi
  exact hne ht rfl

theorem Inv.step (h : Inv w) (hs : Step A w ev w') : Inv w' := by
  cases hs with
  | began _ c ho ht hc =>
    refine h.begin ho ?_
    cases c with
    | cancelling id => exact hc id rfl
    | cancelled id ok =>
      cases ok with
      | false => trivial
      | true => exact (ht id rfl).elim
    | spawning | communicating | returned => cases ho
    | _ => trivial
  | spawned _ id origin argv hid ho => exact h.spawned argv hid ho
  | stopped _ k c₀ c hk h₀ ho ht hc =>
    refine h.goOn hk ho ?_
    cases c with
    | cancelling id => exact (hc id rfl).elim
    | cancelled id ok =>
      cases ok with
      | false => trivial
      | true => exact (ht id rfl).elim
    | spawning | communicating | returned => cases ho
    | _ => trivial
  | launched k id origin argv hk =>
    obtain ⟨ht, hfound⟩ := h.tracked k _ hk
    refine h.write hk rfl (fun t hp => Option.some_ne_none _) ?_
      fun i he => (Option.some.inj he).symm
    refine ⟨⟨some none, none, .running⟩, ?_, Option.some_ne_none _, rfl, hfound⟩
    rw [World.lookup_track_self, ht]
    rfl
  | notFound k id origin argv text hk => exact h.finish hk rfl ..
  | exited id returncode t ht hp =>
    refine ⟨h.tracked.track fun c _ hc => ?_, h.single.track id _⟩
    exact hc.mark ht (by rw [hp]; exact Option.some_ne_none _) (fun _ _ => Option.some_ne_none _)
      fun _ => rfl
  | kept k id origin t stdout stderr hk ht hs => exact h.finish hk rfl ..
  | failed k id origin t stdout stderr status hk ht hs hstatus =>
    exact h.write hk rfl (fun t hp => hp) trivial fun i he => (nomatch he)
  | parsed k id origin t returncode stdout stderr output usage error session r hk ht hs hp hparse
      hsession hid hstatus hrs =>
    exact h.finish hk (congrArg some hid.symm) ..
  | timedOut k id origin hk => exact h.finish hk rfl ..
  | cancelled k id how hk hh =>
    obtain ⟨t, ht, hp⟩ := h.tracked k _ hk
    have hmark : Inv (w.track id fun t => { t with status := .cancelled }) :=
      ⟨h.tracked.track fun c _ hc => hc.mark ht hp (fun _ hp => hp) fun _ => rfl,
        h.single.track id _⟩
    exact hmark.goOn (by rw [World.track_calls]; exact hk) rfl
      (World.proc_track (fun _ hp => hp) ht hp)

end

/-- The worlds that the events lead to, as long as they can happen. -/
def World.runsOf (A : Adapter κ υ) (w : World υ) : List (Event κ) → List (Event κ × World υ)
  | [] => []
  | ev :: evs =>
    match w.step A ev with
    | none => []
    | some w' => (ev, w') :: w'.runsOf A evs

theorem World.runsOf_trace (A : Adapter κ υ) (w : World υ) (evs : List (Event κ)) :
    Run.Trace (fun w ev w' => w.step A ev = some w') w (w.runsOf A evs) := by
  induction evs generalizing w with
  | nil => trivial
  | cons ev evs ih =>
    rw [World.runsOf]
    split
    · trivial
    · rename_i w' hs
      exact ⟨hs, ih w'⟩

/-- An adapter that reads the session off the whole output of the process. -/
def echo : Adapter Unit Unit where
  buildRunArgv := fun prompt _ => some ["echo", prompt]
  buildResumeArgv := fun session prompt _ => some ["echo", session, prompt]
  parseOutput := fun stdout _ _ => some (stdout, (), none)
  extractSession := fun stdout _ => some (some stdout)
  noUsage := ()
  lower := id

end Obase.HarnessAdapter

namespace Obase.HarnessAdapter
set_option autoImplicit true

/-- A call of `resume` without a session goes on with that of a result. -/
def World.Resumable (A : Adapter κ υ) (w : World υ) (r : HarnessRunResult υ) (s : String) : Prop :=
  w.sessionFor r.runId none = some s ∧ ∀ (id prompt : String) (kwargs : Kwargs κ),
    kwargs.session = none → w.resume A id r.runId prompt kwargs =
      w.spawn id (some ⟨r.runId, s⟩) (A.buildResumeArgv s prompt kwargs)

/-- Every completed result that carries a session can be resumed with it. -/
def World.Sessions (A : Adapter κ υ) (w : World υ) : Prop :=
  ∀ r, .returned r ∈ w.calls → r.status = .completed → ∀ s, r.sessionId = some s →
    w.Resumable A r s

/-- A resumed run that completes prints the session that it was resumed with. -/
def Confirmed (A : Adapter κ υ) (w : World υ) : Event κ → Prop
  | .communicated k stdout stderr =>
    ∀ (id : String) (origin : Origin) (t : TrackedRun) (returncode : Int) (output : String)
      (usage : υ) (session : Option String), w.calls[k]? = some (.communicating id (some origin)) →
        w.runs.lookup id = some t → t.status ≠ .cancelled → t.proc = some (some returncode) →
          A.parseOutput stdout stderr returncode = some (output, usage, none) →
            A.extractSession stdout stderr = some session → session = some origin.session
  | _ => True

/-- The session of a completed result is that of its tracked run. -/
def Recorded (runs : Dict String TrackedRun) : Call υ → Prop
  | .returned r => r.status = .completed → ∀ s, r.sessionId = some s →
    ((runs.lookup r.runId).bind fun t => t.harnessSession) = some s ∧ s ≠ ""
  | _ => True

section
variable {A : Adapter κ υ} {w w' : World υ} {ev : Event κ}

theorem truthy_some {s : String} (h : s ≠ "") : truthy (some s) = some s :=
  Option.filter_some_pos (by simpa using h)

theorem eq_some_of_truthy {s : Option String} {t : String} (h : truthy s = some t) : s = some t :=
  (Option.filter_eq_some_iff.1 h).1

theorem World.Every.sessions (h : w.Every Recorded) : w.Sessions A := by
  intro r hr hc s hs
  obtain ⟨k, hk⟩ := List.mem_iff_getElem?.1 hr
  obtain ⟨ht, hne⟩ := h k _ hk hc s hs
  have hfor : w.sessionFor r.runId none = some s := by
    rw [World.sessionFor, ht, truthy_some hne]
    rfl
  refine ⟨hfor, fun id prompt kwargs hk => ?_⟩
  rw [World.resume, hk, hfor]

theorem World.Sessions.recorded (h : w.Sessions A) : w.Every Recorded := by
  intro k c hk
  cases c with
  | returned r =>
    intro hc s hs
    have hfor := (h r (List.mem_of_getElem? hk) hc s hs).1
    refine ⟨?_, World.sessionFor_ne hfor⟩
    rw [World.sessionFor] at hfor
    exact eq_some_of_truthy hfor
  | _ => trivial

theorem Recorded.keep {c : Call υ} (h : Recorded w.runs c) (id : String)
    {f : TrackedRun → TrackedRun} (hf : ∀ t, (f t).harnessSession = t.harnessSession) :
    Recorded (w.track id f).runs c := by
  cases c with
  | returned r =>
    intro hc s hs
    obtain ⟨ht, hne⟩ := h hc s hs
    refine ⟨?_, hne⟩
    obtain ⟨t, ht, hs⟩ := Option.bind_eq_some_iff.1 ht
    rw [World.lookup_track, ht]
    split
    · exact (hf t).trans hs
    · exact hs
  | _ => trivial

theorem Recorded.other {c : Call υ} (h : Recorded w.runs c) {id : String}
    (ho : c.owner ≠ some id) (f : TrackedRun → TrackedRun) :
    Recorded (w.track id f).runs c := by
  cases c with
  | returned r =>
    have hne : r.runId ≠ id := fun he => ho (congrArg some he)
    rw [Recorded, World.lookup_track_ne hne]
    exact h
  | _ => trivial

/-- A coroutine ends, with a result that is recorded. -/
theorem World.Every.finish (h : w.Every Recorded) (hw : w.Single) {k : Nat} {c₀ : Call υ}
    {r : HarnessRunResult υ} (hk : w.calls[k]? = some c₀) (ho : c₀.owner = some r.runId)
    {t : TrackedRun} (ht : w.runs.lookup r.runId = some t) {origin : Option Origin}
    {session : Option String} (hr : r.status = .completed →
      ∀ s, (stamp r origin).sessionId = some s → session = some s ∧ s ≠ "") :
    (w.finish k origin session r).Every Recorded := by
  refine h.write hw hk ho (fun c' _ hne hc' => hc'.other hne _) ?_
  intro hc s hs
  rw [status_stamp] at hc
  rw [runId_stamp, World.lookup_track_self, ht]
  exact hr hc s hs

theorem World.Every.step (hi : Inv w) (h : w.Every Recorded) (ha : Confirmed A w ev)
    (hs : Step A w ev w') : w'.Every Recorded := by
  cases hs with
  | began _ c ho ht hc =>
    refine h.begin ?_
    cases c with
    | returned => cases ho
    | _ => trivial
  | spawned _ id origin argv hid ho =>
    have hset : World.Every Recorded
        ({ w with runs := Dict.set id ⟨none, none, .running⟩ w.runs } : World υ) := by
      intro k c hk
      have hc := h k c hk
      cases c with
      | returned r =>
        have hne : r.runId ≠ id := by
          rintro rfl
          obtain ⟨t, ht⟩ := (hi.tracked k _ hk).known rfl
          cases hid.symm.trans ht
        rw [Recorded, Dict.lookup_set_ne hne]
        exact hc
      | _ => trivial
    exact hset.begin trivial
  | stopped _ k c₀ c hk h₀ ho ht hc =>
    refine h.goOn hk ?_
    cases c with
    | returned => cases ho
    | _ => trivial
  | launched k id origin argv hk =>
    exact h.write hi.single hk rfl (fun c' _ hne hc' => hc'.other hne _) trivial
  | notFound k id origin argv text hk =>
    obtain ⟨t, ht⟩ := (hi.tracked k _ hk).known rfl
    exact h.finish hi.single hk rfl ht fun hc => (nomatch hc)
  | exited id returncode t ht hp =>
    exact h.track fun c _ hc => hc.keep id fun _ => rfl
  | kept k id origin t stdout stderr hk ht hs =>
    exact h.finish hi.single hk rfl ht fun hc => (nomatch hc)
  | failed k id origin t stdout stderr status hk ht hs hstatus =>
    exact h.write hi.single hk rfl (fun c' _ hne hc' => hc'.other hne _) trivial
  | parsed k id origin t returncode stdout stderr output usage error session r hk ht hs hp hparse
      hsession hid hstatus hrs =>
    subst hid
    obtain ⟨t', ht', -, hnone, hfound⟩ := hi.tracked k _ hk
    obtain rfl := Option.some.inj (ht.symm.trans ht')
    refine h.finish hi.single hk rfl ht fun hc s hs' => ?_
    rw [hnone, Option.or_none] at hrs ⊢
    cases origin with
    | none =>
      have htruthy := hrs.symm.trans hs'
      exact ⟨htruthy, truthy_ne htruthy⟩
    | some o =>
      cases error with
      | some text =>
        rw [hstatus] at hc
        cases hc
      | none =>
        obtain rfl := ha r.runId o t returncode output usage session hk ht hs hp hparse hsession
        obtain rfl := Option.some.inj hs'
        have hne := hfound o rfl
        exact ⟨truthy_some hne, hne⟩
  | timedOut k id origin hk =>
    obtain ⟨t, ht⟩ := (hi.tracked k _ hk).known rfl
    exact h.finish hi.single hk rfl ht fun hc => (nomatch hc)
  | cancelled k id how hk hh =>
    have hkeep : (w.track id fun t => { t with status := .cancelled }).Every Recorded :=
      h.track fun c _ hc => hc.keep id fun _ => rfl
    exact hkeep.goOn (by rw [World.track_calls]; exact hk) trivial

theorem confirmed_of_sessions (hi : Inv w) (hs : w.step A ev = some w') (h : w'.Sessions A) :
    Confirmed A w ev := by
  cases ev with
  | communicated k stdout stderr =>
    intro id o t returncode output usage session hk ht hc hp hparse hsession
    obtain ⟨t', ht', -, hnone, -⟩ := hi.tracked k _ hk
    obtain rfl := Option.some.inj (ht.symm.trans ht')
    simp only [World.step, hk, ht, hp, World.communicated, if_neg hc, hparse, hsession] at hs
    cases hs
    obtain ⟨hrec, -⟩ := h.recorded k _ (World.getElem?_finish hk ..) rfl o.session rfl
    change ((World.track w id _).runs.lookup id).bind _ = _ at hrec
    rw [World.lookup_track_self, ht] at hrec
    change (truthy session).or t.harnessSession = _ at hrec
    rw [hnone, Option.or_none] at hrec
    exact eq_some_of_truthy hrec
  | _ => trivial

/-- In a run of the adapter, every completed result that carries a session can be resumed with it at
all later times exactly if every resumed run that completes prints the session that it was resumed
with. -/
theorem resumable_iff_confirmed {l : List (Event κ × World υ)}
    (ht : Run.Trace (fun w ev w' => w.step A ev = some w') World.init l) :
    Run.Along (fun _ _ w' => w'.Sessions A) World.init l ↔
      Run.Always (Confirmed A) World.init l := by
  refine ht.along_iff_while (I := fun w => Inv w ∧ w.Every Recorded)
    ⟨Inv.init, fun _ _ hk => (nomatch hk)⟩ fun w ev w' h hs => ?_
  have hstep := Step.of_step hs
  refine ⟨fun ha => ⟨h.1.step hstep, World.Every.step h.1 h.2 ha hstep⟩, ?_, ?_⟩
  · exact confirmed_of_sessions h.1 hs
  · exact fun ha => (World.Every.step h.1 h.2 ha hstep).sessions

end

/-- A run and its resumption, whose processes print a text each. -/
def resumed (first second : String) : List (Event Unit) :=
  [.run "hrn_1" "hi" ⟨none, ()⟩, .created 0 (.ok ()), .exited "hrn_1" 0,
    .communicated 0 first "", .resume "hrn_2" "hrn_1" "go on" ⟨none, ()⟩, .created 1 (.ok ()),
    .exited "hrn_2" 0, .communicated 1 second ""]

theorem resumed_confirmed :
    Run.Along (fun _ _ w' => w'.Sessions echo) World.init
      (World.init.runsOf echo (resumed "s1" "s1")) := by
  refine (resumable_iff_confirmed (World.runsOf_trace ..)).2 ?_
  refine ⟨trivial, trivial, trivial, ?_, trivial, trivial, trivial, ?_, trivial⟩
  · intro id origin t returncode output usage session hk
    cases hk
  · intro id origin t returncode output usage session hk ht hs hp hparse hsession
    cases hk
    cases hsession
    rfl

/-- A resumed run that prints nothing loses the session. -/
theorem session_lost : ¬ ∀ (A : Adapter Unit Unit) (l : List (Event Unit × World Unit)),
    Run.Trace (fun w ev w' => w.step A ev = some w') World.init l →
      Run.Along (fun _ _ w' => w'.Sessions A) World.init l := by
  intro h
  obtain ⟨-, -, -, -, -, -, -, hs, -⟩ := h echo _
    (World.runsOf_trace echo World.init (resumed "s1" ""))
  have hr := (hs _ (List.mem_cons_of_mem _ (List.mem_cons_self ..)) rfl "s1" rfl).1
  cases hr

end Obase.HarnessAdapter
