import Obase.Dict
import Obase.Run

namespace Obase.AcpAdapter
set_option autoImplicit true

inductive SessionStatus where
  | active
  | cancelled
deriving DecidableEq

/-- `ACPSession`, without its id. -/
structure ACPSession where
  runId : String
  status : SessionStatus

/-- What a call raises, or the transport. -/
inductive Failure where
  | adapterError (message : String)
  | valueError (message : String)
  | keyError (sessionId : String)
  | other (text : String)
deriving DecidableEq

/-- A result is a dictionary, with the session id that it names, or another value, by its `str`. -/
inductive Result (δ : Type) where
  | object (sessionId : String) (fields : δ)
  | value (text : String)

/-- What the transport gives for a message: it raises, or its response has an error or a result. -/
inductive Reply (δ : Type) where
  | raised (e : Failure)
  | error (text : String)
  | result (r : Result δ)

/-- What a call returns. -/
inductive Returned (δ : Type) where
  | session (sessionId runId : String)
  | turned (sessionId : String) (fields : δ)
  | output (sessionId text : String)
  | cancelledTurn (sessionId : String)
  | active (sessionId : String)
  | cancelled (ok : Bool)
  | closed (sessionId : String) (remoteSupported : Bool) (remoteError : Option String)

/-- Where a call waits for the transport, or how it has ended. -/
inductive Call (δ : Type) where
  | opening (runId fresh : String)
  | turning (sessionId : String)
  | cancelling (sessionId : String)
  | closing (sessionId : String)
  | returned (r : Returned δ)
  | raised (e : Failure)

/-- `ACPAgentAdapter`. -/
structure Adapter where
  transport : Bool
  sessions : Dict String ACPSession
  cancelled : List String

namespace Adapter

def add (id : String) (ids : List String) : List String := if id ∈ ids then ids else ids ++ [id]

def discard (id : String) (ids : List String) : List String := ids.filter fun x => x ≠ id

/-- What `_send` makes of a reply. -/
def received : Reply δ → Except Failure (Result δ)
  | .raised e => .error e
  | .error text => .error (.adapterError ("ACP error: " ++ text))
  | .result r => .ok r

/-- The id of a new session: the one that the result names, or one of the adapter. -/
def sessionIdOf (fresh : String) : Result δ → String
  | .object sessionId _ => if sessionId = "" then fresh else sessionId
  | .value _ => fresh

/-- `new_session` after the transport. -/
def opened (a : Adapter) (runId id : String) : Call δ × Adapter :=
  (.returned (.session id runId), { a with sessions := Dict.set id ⟨runId, .active⟩ a.sessions })

/-- `cancel` after the transport. -/
def markCancelled (a : Adapter) (id : String) : Call δ × Adapter :=
  match a.sessions.lookup id with
  | none => (.raised (.keyError id), a)
  | some s =>
    (.returned (.cancelled true),
      { a with sessions := Dict.set id { s with status := .cancelled } a.sessions })

/-- `close` after the transport. -/
def detach (a : Adapter) (id : String) (supported : Bool) (error : Option String) :
    Call δ × Adapter :=
  (.returned (.closed id supported error),
    { a with sessions := Dict.erase id a.sessions, cancelled := discard id a.cancelled })

/-- A call goes on with the reply of the transport. -/
def answered (a : Adapter) : Call δ → Reply δ → Call δ × Adapter
  | .opening runId fresh, r =>
    match received r with
    | .error e => (.raised e, a)
    | .ok r => a.opened runId (sessionIdOf fresh r)
  | .turning id, r =>
    match received r with
    | .error e => (.raised e, a)
    | .ok (.object _ fields) => (.returned (.turned id fields), a)
    | .ok (.value text) => (.returned (.output id text), a)
  | .cancelling id, r =>
    match received r with
    | .error (.adapterError _) => a.markCancelled id
    | .error e => (.raised e, a)
    | .ok _ => a.markCancelled id
  | .closing id, r =>
    match received r with
    | .error (.adapterError message) => a.detach id false (some message)
    | .error e => (.raised e, a)
    | .ok _ => a.detach id true none
  | c, _ => (c, a)

/-- A call waits for the transport, if there is one. -/
def send (a : Adapter) (c : Call δ) : Call δ × Adapter :=
  if a.transport then (c, a)
  else a.answered c (.raised (.adapterError "ACPAgentAdapter: no transport injected"))

/-- `new_session`, with the ids that it makes itself. -/
def newSession (a : Adapter) (runId fresh : String) : Call δ × Adapter :=
  a.send (.opening runId fresh)

def unknown (id : String) : Failure := .adapterError ("unknown ACP session: " ++ id)

def turn (a : Adapter) (id prompt : String) : Call δ × Adapter :=
  if id ∉ Dict.keys a.sessions then (.raised (unknown id), a)
  else if prompt = "" then
    (.raised (.valueError "ACPAgentAdapter.turn: prompt must not be empty"), a)
  else if id ∈ a.cancelled then (.returned (.cancelledTurn id), a)
  else a.send (.turning id)

def cancel (a : Adapter) (id : String) : Call δ × Adapter :=
  if id ∉ Dict.keys a.sessions then (.returned (.cancelled false), a)
  else send { a with cancelled := add id a.cancelled } (.cancelling id)

def resume (a : Adapter) (id prompt : String) : Call δ × Adapter :=
  match a.sessions.lookup id with
  | none => (.raised (unknown id), a)
  | some s =>
    let a := { a with
      sessions := Dict.set id { s with status := .active } a.sessions
      cancelled := discard id a.cancelled }
    if prompt = "" then (.returned (.active id), a) else a.turn id prompt

def close (a : Adapter) (id : String) : Call δ × Adapter :=
  if id ∈ Dict.keys a.sessions then a.send (.closing id) else a.detach id false none

end Adapter

/-- The adapter with its calls in the order of their start, and the sessions that were closed and
not opened again. -/
structure World (δ : Type) where
  adapter : Adapter
  calls : List (Call δ)
  closed : List String

inductive Event (δ : Type) where
  | newSession (runId fresh : String)
  | turn (id prompt : String)
  | cancel (id : String)
  | resume (id prompt : String)
  | close (id : String)
  | answered (k : Nat) (r : Reply δ)

/-- The session that a call in progress is on. -/
def Call.session : Call δ → Option String
  | .turning id => some id
  | .cancelling id => some id
  | .closing id => some id
  | _ => none

def Call.waits : Call δ → Bool
  | .returned _ => false
  | .raised _ => false
  | _ => true

/-- `ACPAdapterError` or `ValueError`. -/
def Failure.Expected : Failure → Prop
  | .adapterError _ => True
  | .valueError _ => True
  | _ => False

namespace World

def init (transport : Bool) : World δ := ⟨⟨transport, [], []⟩, [], []⟩

/-- The sessions that are closed after a call went on. -/
def closedAfter (closed : List String) : Call δ → List String
  | .returned (.session id _) => Adapter.discard id closed
  | .returned (.closed id _ _) => Adapter.add id closed
  | _ => closed

def begin (w : World δ) (r : Call δ × Adapter) : World δ :=
  ⟨r.2, w.calls ++ [r.1], closedAfter w.closed r.1⟩

def goOn (w : World δ) (k : Nat) (r : Call δ × Adapter) : World δ :=
  ⟨r.2, w.calls.set k r.1, closedAfter w.closed r.1⟩

/-- What happens next: a call starts, or goes on with the reply of the transport. -/
def step (w : World δ) : Event δ → Option (World δ)
  | .newSession runId fresh => some (w.begin (w.adapter.newSession runId fresh))
  | .turn id prompt => some (w.begin (w.adapter.turn id prompt))
  | .cancel id => some (w.begin (w.adapter.cancel id))
  | .resume id prompt => some (w.begin (w.adapter.resume id prompt))
  | .close id => some (w.begin (w.adapter.close id))
  | .answered k r =>
    (w.calls[k]?).bind fun c => if c.waits then some (w.goOn k (w.adapter.answered c r)) else none

end World

/-- The adapter answers a turn of a session without the transport. -/
def Adapter.TurnsCancelled (a : Adapter) (id : String) : Prop :=
  ∀ (δ : Type) (prompt : String), prompt ≠ "" →
    (a.turn id prompt : Call δ × Adapter) = (.returned (.cancelledTurn id), a)

/-- What the adapter owes its callers after a step. -/
structure Sound (w : World δ) (ev : Event δ) (w' : World δ) : Prop where
  raises : ∀ e, .raised e ∈ w'.calls → e.Expected
  settled : ∀ id s, w'.adapter.sessions.lookup id = some s →
    (∀ c ∈ w'.calls, c.session ≠ some id) →
      (s.status = .cancelled ↔ w'.adapter.TurnsCancelled id)
  closed : ∀ id ∈ w.closed, ∀ prompt, (ev = .turn id prompt ∨ ev = .resume id prompt) →
    ∃ message, w'.calls = w.calls ++ [.raised (.adapterError message)]

/-- A failure of the transport that a call passes on as it may, or catches. -/
def Failure.Handled (c : Call δ) : Failure → Prop
  | .adapterError _ => True
  | .valueError _ => ∀ id, c ≠ .cancelling id
  | _ => False

/-- The transport fails with an `ACPAdapterError`, or with a `ValueError` where no session is
cancelled; a session is not closed or resumed while it is cancelled; and a new session has not got
the id of a cancelled one. -/
def Kept (w : World δ) : Event δ → Prop
  | .answered k r => ∀ c, w.calls[k]? = some c → (∀ e, r = .raised e → e.Handled c) ∧
    (∀ id, c = .cancelling id → id ∈ Dict.keys w.adapter.sessions ∧ id ∈ w.adapter.cancelled) ∧
    ∀ runId fresh result, c = .opening runId fresh → r = .result result →
      Adapter.sessionIdOf fresh result ∈ w.adapter.cancelled →
        .cancelling (Adapter.sessionIdOf fresh result) ∈ w.calls
  | _ => True

/-- The two places of cancellation agree, but for the sessions that a call is about to cancel. -/
structure Consistent (a : Adapter) (pending : String → Prop) : Prop where
  marked : ∀ id s, a.sessions.lookup id = some s → s.status = .cancelled → id ∈ a.cancelled
  pending : ∀ id s, a.sessions.lookup id = some s → id ∈ a.cancelled →
    s.status = .cancelled ∨ pending id

def Detached (a : Adapter) (closed : List String) : Prop :=
  ∀ id ∈ closed, a.sessions.lookup id = none

/-- What a call leaves, where some sessions are about to be cancelled. -/
structure Good (pending : String → Prop) (closed : List String) (r : Call δ × Adapter) : Prop where
  raises : ∀ e, r.1 = .raised e → e.Expected
  consistent : Consistent r.2 fun id => pending id ∨ r.1 = .cancelling id
  detached : Detached r.2 (World.closedAfter closed r.1)

structure Inv (w : World δ) : Prop where
  raises : ∀ e, .raised e ∈ w.calls → e.Expected
  consistent : Consistent w.adapter fun id => .cancelling id ∈ w.calls
  detached : Detached w.adapter w.closed

section
variable {a : Adapter} {p q : String → Prop} {closed : List String} {w w' : World δ}
  {ev : Event δ}

theorem Adapter.mem_add {id i : String} {ids : List String} :
    i ∈ Adapter.add id ids ↔ i ∈ ids ∨ i = id := by
  rw [Adapter.add]
  split
  · rename_i hm
    constructor
    · exact .inl
    · rintro (hi | rfl)
      · exact hi
      · exact hm
  · rw [List.mem_append, List.mem_singleton]

theorem Adapter.mem_discard {id i : String} {ids : List String} :
    i ∈ Adapter.discard id ids ↔ i ∈ ids ∧ i ≠ id := by
  rw [Adapter.discard, List.mem_filter, decide_eq_true_eq]

theorem Consistent.mono (h : Consistent a p) (hpq : ∀ id, p id → q id) : Consistent a q :=
  ⟨h.marked, fun id s hs hm => (h.pending id s hs hm).imp_right (hpq id)⟩

theorem Consistent.add (h : Consistent a p) (id : String) :
    Consistent { a with cancelled := Adapter.add id a.cancelled } fun i => p i ∨ i = id := by
  refine ⟨fun i s hs hc => Adapter.mem_add.2 (.inl (h.marked i s hs hc)), fun i s hs hm => ?_⟩
  rcases Adapter.mem_add.1 hm with hm | rfl
  · exact (h.pending i s hs hm).imp_right .inl
  · exact .inr (.inr rfl)

/-- A session is made active. -/
theorem Consistent.activate (h : Consistent a p) (id runId : String)
    (hc : id ∈ a.cancelled → p id) :
    Consistent { a with sessions := Dict.set id ⟨runId, .active⟩ a.sessions } p := by
  have hlookup {i : String} {s : ACPSession}
      (hs : (Dict.set id ⟨runId, .active⟩ a.sessions).lookup i = some s) :
      (i = id ∧ s.status = .active) ∨ a.sessions.lookup i = some s := by
    by_cases hi : i = id
    · subst hi
      rw [Dict.lookup_set_self] at hs
      cases hs
      exact .inl ⟨rfl, rfl⟩
    · rw [Dict.lookup_set_ne hi] at hs
      exact .inr hs
  constructor
  · intro i s hs hcan
    rcases hlookup hs with ⟨-, ha⟩ | hs
    · cases ha.symm.trans hcan
    · exact h.marked i s hs hcan
  · intro i s hs hm
    rcases hlookup hs with ⟨rfl, -⟩ | hs
    · exact .inr (hc hm)
    · exact h.pending i s hs hm

theorem Consistent.discard (h : Consistent a p) (id : String)
    (hs : ∀ s, a.sessions.lookup id = some s → s.status ≠ .cancelled) :
    Consistent { a with cancelled := Adapter.discard id a.cancelled } p := by
  refine ⟨fun i s hi hc => Adapter.mem_discard.2 ⟨h.marked i s hi hc, ?_⟩, fun i s hi hm =>
    h.pending i s hi (Adapter.mem_discard.1 hm).1⟩
  rintro rfl
  exact hs s hi hc

/-- A session is cancelled that a call was about to cancel. -/
theorem Consistent.mark {id : String} (h : Consistent a fun i => p i ∨ i = id) {s : ACPSession}
    (hm : id ∈ a.cancelled) :
    Consistent { a with sessions := Dict.set id { s with status := .cancelled } a.sessions } p := by
  have hlookup {i : String} {t : ACPSession}
      (hs : (Dict.set id { s with status := .cancelled } a.sessions).lookup i = some t) :
      (i = id ∧ t.status = .cancelled) ∨ (i ≠ id ∧ a.sessions.lookup i = some t) := by
    by_cases hi : i = id
    · subst hi
      rw [Dict.lookup_set_self] at hs
      cases hs
      exact .inl ⟨rfl, rfl⟩
    · rw [Dict.lookup_set_ne hi] at hs
      exact .inr ⟨hi, hs⟩
  constructor
  · intro i t ht hcan
    rcases hlookup ht with ⟨rfl, -⟩ | ⟨-, ht⟩
    · exact hm
    · exact h.marked i t ht hcan
  · intro i t ht hi
    rcases hlookup ht with ⟨-, hcan⟩ | ⟨hne, ht⟩
    · exact .inl hcan
    · exact (h.pending i t ht hi).imp_right fun hp => hp.resolve_right hne

theorem Consistent.detach (h : Consistent a p) (id : String) :
    Consistent ⟨a.transport, Dict.erase id a.sessions, Adapter.discard id a.cancelled⟩ p := by
  have hlookup {i : String} {s : ACPSession} (hs : (Dict.erase id a.sessions).lookup i = some s) :
      i ≠ id ∧ a.sessions.lookup i = some s := by
    by_cases hi : i = id
    · rw [hi, Dict.lookup_erase_self] at hs
      cases hs
    · rw [Dict.lookup_erase_ne hi] at hs
      exact ⟨hi, hs⟩
  constructor
  · intro i s hs hc
    obtain ⟨hne, hs⟩ := hlookup hs
    exact Adapter.mem_discard.2 ⟨h.marked i s hs hc, hne⟩
  · intro i s hs hm
    exact h.pending i s (hlookup hs).2 (Adapter.mem_discard.1 hm).1

theorem Consistent.drop {id : String} (h : Consistent a fun i => p i ∨ i = id)
    (hm : id ∉ a.cancelled) : Consistent a p := by
  refine ⟨h.marked, fun i s hs hi => (h.pending i s hs hi).imp_right fun hp => ?_⟩
  refine hp.resolve_right ?_
  rintro rfl
  exact hm hi

theorem Detached.set (h : Detached a closed) {id : String} {s : ACPSession}
    (hs : a.sessions.lookup id = some s) (t : ACPSession) :
    Detached { a with sessions := Dict.set id t a.sessions } closed := by
  intro i hi
  have hne : i ≠ id := by
    rintro rfl
    cases hs.symm.trans (h i hi)
  exact (Dict.lookup_set_ne hne ..).trans (h i hi)

theorem Good.same (hc : Consistent a p) (hd : Detached a closed) {c : Call δ}
    (hr : ∀ e, c = .raised e → e.Expected) (hs : World.closedAfter closed c = closed) :
    Good p closed (c, a) :=
  ⟨hr, hc.mono fun _ => .inl, by rw [hs]; exact hd⟩

theorem Good.raised (hc : Consistent a p) (hd : Detached a closed) {e : Failure}
    (he : e.Expected) : Good p closed ((.raised e, a) : Call δ × Adapter) := by
  refine .same hc hd (fun e' h => ?_) rfl
  cases h
  exact he

theorem Good.opened (hc : Consistent a p) (hd : Detached a closed) {runId id : String}
    (hm : id ∈ a.cancelled → p id) : Good p closed (a.opened runId id : Call δ × Adapter) := by
  refine ⟨fun _ h => (nomatch h), (hc.activate id runId hm).mono fun _ => .inl, ?_⟩
  intro i hi
  obtain ⟨hi, hne⟩ := Adapter.mem_discard.1 hi
  exact (Dict.lookup_set_ne hne ..).trans (hd i hi)

theorem Good.detach (hc : Consistent a p) (hd : Detached a closed) (id : String)
    (supported : Bool) (error : Option String) :
    Good p closed (a.detach id supported error : Call δ × Adapter) := by
  refine ⟨fun _ h => (nomatch h), (hc.detach id).mono fun _ => .inl, ?_⟩
  intro i hi
  change (Dict.erase id a.sessions).lookup i = none
  by_cases he : i = id
  · rw [he, Dict.lookup_erase_self]
  · rw [Dict.lookup_erase_ne he]
    exact hd i ((Adapter.mem_add.1 hi).resolve_right he)

theorem Good.markCancelled {id : String} (hc : Consistent a fun i => p i ∨ i = id)
    (hd : Detached a closed) (hk : id ∈ Dict.keys a.sessions) (hm : id ∈ a.cancelled) :
    Good p closed (a.markCancelled id : Call δ × Adapter) := by
  obtain ⟨s, hs⟩ := Dict.mem_keys_iff.1 hk
  rw [Adapter.markCancelled, hs]
  exact ⟨fun _ h => (nomatch h), (hc.mark hm).mono fun _ => .inl, hd.set hs _⟩

theorem Good.newSession (hc : Consistent a p) (hd : Detached a closed) (runId fresh : String) :
    Good p closed (a.newSession runId fresh : Call δ × Adapter) := by
  rw [Adapter.newSession, Adapter.send]
  split
  · exact .same hc hd (fun _ h => (nomatch h)) rfl
  · exact .raised hc hd trivial

theorem Good.turn (hc : Consistent a p) (hd : Detached a closed) (id prompt : String) :
    Good p closed (a.turn id prompt : Call δ × Adapter) := by
  rw [Adapter.turn]
  split
  · exact .raised hc hd trivial
  · split
    · exact .raised hc hd trivial
    · split
      · exact .same hc hd (fun _ h => (nomatch h)) rfl
      · rw [Adapter.send]
        split
        · exact .same hc hd (fun _ h => (nomatch h)) rfl
        · exact .raised hc hd trivial

theorem Good.cancel (hc : Consistent a p) (hd : Detached a closed) (id : String) :
    Good p closed (a.cancel id : Call δ × Adapter) := by
  rw [Adapter.cancel]
  split
  · exact .same hc hd (fun _ h => (nomatch h)) rfl
  · rename_i hk
    rw [Adapter.send]
    split
    · refine ⟨fun _ h => (nomatch h), (hc.add id).mono fun i hi => hi.imp_right ?_, hd⟩
      rintro rfl
      rfl
    · exact .markCancelled (hc.add id) hd (not_not.1 hk) (Adapter.mem_add.2 (.inr rfl))

theorem Good.resume (hc : Consistent a p) (hd : Detached a closed) (id prompt : String) :
    Good p closed (a.resume id prompt : Call δ × Adapter) := by
  rw [Adapter.resume]
  split
  · exact .raised hc hd trivial
  · rename_i s hs
    have hadd : Consistent a fun i => p i ∨ i = id := hc.mono fun _ => .inl
    have hactive := (hadd.activate id s.runId fun _ => .inr rfl).discard id ?_
    · have hc' := hactive.drop fun hm => (Adapter.mem_discard.1 hm).2 rfl
      have hd' := hd.set hs { s with status := .active }
      dsimp only
      split
      · exact .same hc' hd' (fun _ h => (nomatch h)) rfl
      · exact .turn hc' hd' id prompt
    · intro t ht hcan
      rw [Dict.lookup_set_self] at ht
      cases ht
      cases hcan

theorem Good.close (hc : Consistent a p) (hd : Detached a closed) (id : String) :
    Good p closed (a.close id : Call δ × Adapter) := by
  rw [Adapter.close]
  split
  · rw [Adapter.send]
    split
    · exact .same hc hd (fun _ h => (nomatch h)) rfl
    · exact .detach hc hd ..
  · exact .detach hc hd ..

theorem Failure.Handled.expected {c : Call δ} {e : Failure} (h : e.Handled c) : e.Expected := by
  cases e with
  | adapterError | valueError => trivial
  | keyError | other => exact h

/-- A call goes on whose cancellation is the only one that may still be pending. -/
theorem Good.answered {c : Call δ} {r : Reply δ}
    (hc : Consistent a fun i => p i ∨ c = .cancelling i) (hd : Detached a closed)
    (hw : c.waits = true) (hf : ∀ e, r = .raised e → e.Handled c)
    (hcan : ∀ id, c = .cancelling id → id ∈ Dict.keys a.sessions ∧ id ∈ a.cancelled)
    (hopen : ∀ runId fresh result, c = .opening runId fresh → r = .result result →
      Adapter.sessionIdOf fresh result ∈ a.cancelled → p (Adapter.sessionIdOf fresh result)) :
    Good p closed (a.answered c r) := by
  cases c with
  | opening runId fresh =>
    have hc : Consistent a p := hc.mono fun i hi => hi.resolve_right fun he => (nomatch he)
    cases r with
    | raised e => exact .raised hc hd (hf e rfl).expected
    | error text => exact .raised hc hd trivial
    | result r => exact .opened hc hd (hopen runId fresh r rfl rfl)
  | turning id =>
    have hc : Consistent a p := hc.mono fun i hi => hi.resolve_right fun he => (nomatch he)
    rcases r with e | text | (_ | _)
    · exact .raised hc hd (hf e rfl).expected
    · exact .raised hc hd trivial
    · exact .same hc hd (fun _ h => (nomatch h)) rfl
    · exact .same hc hd (fun _ h => (nomatch h)) rfl
  | cancelling id =>
    have hc : Consistent a fun i => p i ∨ i = id := hc.mono fun i hi => hi.imp_right fun he => by
      cases he
      rfl
    obtain ⟨hk, hm⟩ := hcan id rfl
    have hmark : Good p closed (a.markCancelled id : Call δ × Adapter) := .markCancelled hc hd hk hm
    rcases r with e | text | r
    · cases e with
      | adapterError message => exact hmark
      | valueError message => exact (hf _ rfl id rfl).elim
      | keyError | other => exact (hf _ rfl).elim
    · exact hmark
    · exact hmark
  | closing id =>
    have hc : Consistent a p := hc.mono fun i hi => hi.resolve_right fun he => (nomatch he)
    rcases r with e | text | r
    · cases e with
      | adapterError message => exact .detach hc hd ..
      | valueError message => exact .raised hc hd trivial
      | keyError | other => exact (hf _ rfl).elim
    · exact .detach hc hd ..
    · exact .detach hc hd ..
  | returned | raised => cases hw

theorem Inv.init (transport : Bool) : Inv (World.init transport : World δ) :=
  ⟨fun _ he => (nomatch he), ⟨fun _ _ hs => (nomatch hs), fun _ _ hs => (nomatch hs)⟩,
    fun _ hi => (nomatch hi)⟩

theorem Inv.begin (h : Inv w) {r : Call δ × Adapter}
    (hr : Good (fun id => .cancelling id ∈ w.calls) w.closed r) : Inv (w.begin r) := by
  refine ⟨fun e he => ?_, hr.consistent.mono fun id hi => ?_, hr.detached⟩
  · rcases List.mem_append.1 he with he | he
    · exact h.raises e he
    · exact hr.raises e (List.mem_singleton.1 he).symm
  · rcases hi with hi | hi
    · exact List.mem_append_left _ hi
    · exact List.mem_append_right _ (List.mem_singleton.2 hi.symm)

theorem Inv.goOn (h : Inv w) {k : Nat} {c : Call δ} (hk : w.calls[k]? = some c)
    {r : Call δ × Adapter}
    (hr : Good (fun id => .cancelling id ∈ w.calls ∧ c ≠ .cancelling id) w.closed r) :
    Inv (w.goOn k r) := by
  refine ⟨fun e he => ?_, hr.consistent.mono fun id hi => ?_, hr.detached⟩
  · obtain ⟨j, hj⟩ := List.mem_iff_getElem?.1 he
    rcases (Calls.getElem?_goOn hk).1 hj with ⟨-, he⟩ | ⟨-, hj⟩
    · exact hr.raises e he.symm
    · exact h.raises e (List.mem_of_getElem? hj)
  · rcases hi with ⟨hi, hne⟩ | hi
    · obtain ⟨j, hj⟩ := List.mem_iff_getElem?.1 hi
      refine List.mem_iff_getElem?.2 ⟨j, (Calls.getElem?_goOn hk).2 (.inr ⟨?_, hj⟩)⟩
      rintro rfl
      exact hne (Option.some.inj (hk.symm.trans hj))
    · exact List.mem_iff_getElem?.2 ⟨k, (Calls.getElem?_goOn hk).2 (.inl ⟨rfl, hi.symm⟩)⟩

theorem Inv.step (h : Inv w) (ha : Kept w ev) (hs : w.step ev = some w') : Inv w' := by
  cases ev with
  | newSession runId fresh =>
    cases hs
    exact h.begin (.newSession h.consistent h.detached runId fresh)
  | turn id prompt =>
    cases hs
    exact h.begin (.turn h.consistent h.detached id prompt)
  | cancel id =>
    cases hs
    exact h.begin (.cancel h.consistent h.detached id)
  | resume id prompt =>
    cases hs
    exact h.begin (.resume h.consistent h.detached id prompt)
  | close id =>
    cases hs
    exact h.begin (.close h.consistent h.detached id)
  | answered k r =>
    obtain ⟨c, hk, hs⟩ := Option.bind_eq_some_iff.1 hs
    split at hs
    · rename_i hw
      cases hs
      obtain ⟨hf, hcan, hopen⟩ := ha c hk
      refine h.goOn hk (.answered (h.consistent.mono fun i hi => ?_) h.detached hw hf hcan ?_)
      · by_cases he : c = .cancelling i
        · exact .inr he
        · exact .inl ⟨hi, he⟩
      · rintro runId fresh result rfl hr hm
        exact ⟨hopen runId fresh result rfl hr hm, fun he => (nomatch he)⟩
    · cases hs

/-- A turn is answered without the transport if its session is in the set. -/
theorem turnsCancelled_iff {id : String} (hk : id ∈ Dict.keys a.sessions) :
    a.TurnsCancelled id ↔ id ∈ a.cancelled := by
  constructor
  · intro h
    by_contra hm
    have ht := congrArg Prod.fst (h Unit "x" (by decide))
    rw [Adapter.turn, if_neg (not_not.2 hk), if_neg (by decide), if_neg hm, Adapter.send] at ht
    split at ht
    · cases ht
    · cases ht
  · intro hm δ prompt hp
    rw [Adapter.turn, if_neg (not_not.2 hk), if_neg hp, if_pos hm]

theorem turn_unknown {id : String} (hs : a.sessions.lookup id = none) (prompt : String) :
    (a.turn id prompt : Call δ × Adapter) = (.raised (Adapter.unknown id), a) := by
  rw [Adapter.turn, if_pos]
  intro hk
  obtain ⟨s, hs'⟩ := Dict.mem_keys_iff.1 hk
  cases hs.symm.trans hs'

theorem Inv.sound (h : Inv w) (ha : Kept w ev) (hs : w.step ev = some w') : Sound w ev w' := by
  have h' := h.step ha hs
  refine ⟨h'.raises, fun id s hl hidle => ?_, ?_⟩
  · rw [turnsCancelled_iff (Dict.mem_keys_iff.2 ⟨s, hl⟩)]
    refine ⟨h'.consistent.marked id s hl, fun hm => ?_⟩
    exact (h'.consistent.pending id s hl hm).resolve_right fun hp => hidle _ hp rfl
  · rintro id hi prompt (rfl | rfl)
    · cases hs
      rw [World.begin, turn_unknown (h.detached id hi)]
      exact ⟨_, rfl⟩
    · cases hs
      rw [World.begin, Adapter.resume, h.detached id hi]
      exact ⟨_, rfl⟩

/-- In every run in which the transport fails as the adapter expects, no session is closed or
resumed while it is cancelled and none gets the id of a cancelled one, no call raises another error,
the two places of cancellation agree whenever no call is on a session, and a session that was closed
is unknown. -/
theorem sound_of_kept {transport : Bool} {l : List (Event δ × World δ)}
    (ht : Run.Trace (fun w ev w' => w.step ev = some w') (World.init transport) l)
    (ha : Run.Always Kept (World.init transport) l) :
    Run.Along Sound (World.init transport) l := by
  refine ht.along_of_always (Inv.init transport) ha fun w ev w' h ha hs => ?_
  exact ⟨h.step ha hs, h.sound ha hs⟩

end

/-- The worlds that the events lead to, as long as they can happen. -/
def World.runs (w : World δ) : List (Event δ) → List (Event δ × World δ)
  | [] => []
  | ev :: evs =>
    match w.step ev with
    | none => []
    | some w' => (ev, w') :: w'.runs evs

theorem World.runs_trace (w : World δ) (evs : List (Event δ)) :
    Run.Trace (fun w ev w' => w.step ev = some w') w (w.runs evs) := by
  induction evs generalizing w with
  | nil => trivial
  | cons ev evs ih =>
    rw [World.runs]
    split
    · trivial
    · rename_i w' hs
      exact ⟨hs, ih w'⟩

/-- A session that is opened, cancelled and closed. -/
theorem closed_kept :
    Run.Along Sound (World.init true : World Unit) (World.runs (World.init true)
      [.newSession "acp_1" "acp_2", .answered 0 (.result (.object "sess-1" ())), .cancel "sess-1",
        .answered 1 (.raised (.adapterError "timeout")), .close "sess-1",
        .answered 2 (.error "unknown session/close"), .turn "sess-1" "late"]) := by
  refine sound_of_kept (World.runs_trace ..) ?_
  refine ⟨trivial, ?_, trivial, ?_, trivial, ?_, trivial, trivial⟩
  · intro c hk
    cases hk
    refine ⟨fun e he => (nomatch he), fun id he => (nomatch he), ?_⟩
    intro runId fresh result he hr hm
    cases hm
  · intro c hk
    cases hk
    refine ⟨?_, ?_, fun _ _ _ he => (nomatch he)⟩
    · intro e he
      cases he
      trivial
    · intro id he
      cases he
      exact ⟨List.mem_singleton.2 rfl, List.mem_singleton.2 rfl⟩
  · intro c hk
    cases hk
    exact ⟨fun e he => (nomatch he), fun id he => (nomatch he), fun _ _ _ he => (nomatch he)⟩

/-- A session that is resumed while it is being cancelled takes turns, with the status of a
cancelled one. -/
theorem resumed_while_cancelled : ¬ ∀ (transport : Bool) (l : List (Event Unit × World Unit)),
    Run.Trace (fun w ev w' => w.step ev = some w') (World.init transport) l →
      Run.Along Sound (World.init transport) l := by
  intro h
  obtain ⟨-, -, -, -, hs, -⟩ := h true _ (World.runs_trace (World.init true)
    [.newSession "acp_1" "acp_2", .answered 0 (.result (.object "sess-1" ())), .cancel "sess-1",
      .resume "sess-1" "", .answered 1 (.result (.value "ok"))])
  have hturn := (hs.settled "sess-1" _ rfl (by decide)).1 rfl Unit "x" (by decide)
  cases congrArg Prod.fst hturn

end Obase.AcpAdapter
