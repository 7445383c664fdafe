import Obase.Dict
import Obase.Run

namespace Obase.HitlSignalBus
set_option autoImplicit true

inductive DecisionOutcome where
  | approved
  | rejected
  | timedOut
  | cancelled
deriving DecidableEq

/-- `ApprovalRequest`; `event` tells whether its event is set. -/
structure ApprovalRequest (T : Type) where
  requestId : String
  scope : String
  summary : String
  createdAt : T
  decidedAt : Option T
  outcome : Option DecisionOutcome
  note : String
  event : Bool

/-- What `get_request` and `wait_for_decision` return: nothing, the dictionary of a request (with no
outcome where it is pending), or one of the two others of `wait_for_decision`. -/
inductive Answer (T : Type) where
  | none
  | decision (requestId scope summary : String) (outcome : Option DecisionOutcome) (note : String)
      (createdAt : T) (decidedAt : Option T)
  | unknown (requestId : String)
  | timedOut (requestId note scope summary : String)
deriving DecidableEq

/-- The outcome that an answer tells of, with its note. -/
def Answer.decided : Answer T → Option (DecisionOutcome × String)
  | .decision _ _ _ (some outcome) note _ _ => some (outcome, note)
  | _ => .none

/-- `_decision_dict`. -/
def ApprovalRequest.decisionDict (r : ApprovalRequest T) : Answer T :=
  .decision r.requestId r.scope r.summary r.outcome r.note r.createdAt r.decidedAt

def ApprovalRequest.timedOut (requestId : String) (r : ApprovalRequest T) : Answer T :=
  .timedOut requestId r.note r.scope r.summary

def ApprovalRequest.decide (r : ApprovalRequest T) (outcome : DecisionOutcome) (note : String)
    (now : T) : ApprovalRequest T :=
  { r with outcome := some outcome, decidedAt := some now, note := note }

/-- The requests that were ever made, by the number of each, and the registry of their ids. -/
structure Bus (T : Type) where
  objects : List (ApprovalRequest T)
  requests : Dict String Nat

/-- The id of a request: the one of the caller, unless it is missing or empty. -/
def chooseId (requestId : Option String) (generated : String) : String :=
  match requestId with
  | some rid => if rid = "" then generated else rid
  | none => generated

/-- `request_approval`, under the id chosen. -/
def Bus.requestApproval (b : Bus T) (scope summary rid : String) (now : T) : Bus T where
  objects := b.objects ++ [⟨rid, scope, summary, now, none, none, "", false⟩]
  requests := b.requests.set rid b.objects.length

def Bus.replace (b : Bus T) (ref : Nat) (r : ApprovalRequest T) : Bus T :=
  { b with objects := b.objects.set ref r }

/-- The section of `_decide` that holds the lock, with the request that it decides. -/
def Bus.decide (b : Bus T) (requestId : String) (outcome : DecisionOutcome) (note : String)
    (now : T) : Option (Nat × Bus T) :=
  (b.requests.lookup requestId).bind fun ref =>
    match b.objects[ref]? with
    | none => none
    | some r =>
      match r.outcome with
      | some _ => none
      | none => some (ref, b.replace ref (r.decide outcome note now))

inductive Decision where
  | approve
  | reject
  | cancel

def Decision.outcome : Decision → DecisionOutcome
  | .approve => .approved
  | .reject => .rejected
  | .cancel => .cancelled

inductive Query where
  | get
  | wait

/-- A call under way: a decision that is made and has its event to set, a query that has looked up
its id, or a wait for the event of the request it found. -/
inductive Call where
  | signalling (ref : Nat) (requestId : String) (outcome : DecisionOutcome) (note : String)
  | looked (query : Query) (requestId : String) (found : Option Nat)
  | waiting (requestId : String) (ref : Nat)
  | over

/-- What the callers see, and the moments at which a decision is made and a wait begins. -/
inductive Event (T : Type) where
  | registered (requestId : String)
  | made (requestId : String) (outcome : DecisionOutcome) (note : String)
  | returnedTrue (requestId : String) (outcome : DecisionOutcome) (note : String)
  | returnedFalse (requestId : String)
  | asked (call : Nat) (requestId : String)
  | waits (call : Nat) (requestId : String)
  | answered (call : Nat) (answer : Answer T)
deriving DecidableEq

structure System (T : Type) where
  bus : Bus T
  calls : List Call
  log : List (Event T)

def System.empty (T : Type) : System T := ⟨⟨[], []⟩, [], []⟩

def System.put (s : System T) (k : Nat) (c : Call) (e : Event T) : System T :=
  { s with calls := s.calls.set k c, log := s.log ++ [e] }

inductive Act (T : Type) where
  | request (scope summary : String) (requestId : Option String) (generated : String) (now : T)
  | decide (decision : Decision) (requestId note : String) (now : T)
  | signal (call : Nat)
  | ask (query : Query) (requestId : String)
  | look (call : Nat)
  | wake (call : Nat)
  | timeout (call : Nat)

/-- What a query that has looked up its id does next. -/
def System.look (s : System T) (k : Nat) (query : Query) (requestId : String)
    (found : Option (Nat × ApprovalRequest T)) : System T :=
  match query, found with
  | .get, none => s.put k .over (.answered k .none)
  | .wait, none => s.put k .over (.answered k (.unknown requestId))
  | .get, some (_, r) => s.put k .over (.answered k r.decisionDict)
  | .wait, some (ref, r) =>
    match r.outcome with
    | some _ => s.put k .over (.answered k r.decisionDict)
    | none => s.put k (.waiting requestId ref) (.waits k requestId)

/-- A step of one of the callers. The lock is held within a step; what is read of a request without
it is read in a step of its own. -/
inductive Step (s : System T) : Act T → System T → Prop
  | request :
      Step s (.request scope summary requestId generated now) { s with
        bus := s.bus.requestApproval scope summary (chooseId requestId generated) now
        log := s.log ++ [.registered (chooseId requestId generated)] }
  | refuse (h : s.bus.decide requestId decision.outcome note now = none) :
      Step s (.decide decision requestId note now)
        { s with log := s.log ++ [.returnedFalse requestId] }
  | decide (h : s.bus.decide requestId decision.outcome note now = some (ref, b)) :
      Step s (.decide decision requestId note now)
        ⟨b, s.calls ++ [.signalling ref requestId decision.outcome note],
          s.log ++ [.made requestId decision.outcome note]⟩
  | signal (h : s.calls[k]? = some (.signalling ref requestId outcome note))
      (hr : s.bus.objects[ref]? = some r) :
      Step s (.signal k) { s.put k .over (.returnedTrue requestId outcome note) with
        bus := s.bus.replace ref { r with event := true } }
  | ask :
      Step s (.ask query requestId) { s with
        calls := s.calls ++ [.looked query requestId (s.bus.requests.lookup requestId)]
        log := s.log ++ [.asked s.calls.length requestId] }
  | lookNone (h : s.calls[k]? = some (.looked query requestId none)) :
      Step s (.look k) (s.look k query requestId none)
  | lookSome (h : s.calls[k]? = some (.looked query requestId (some ref)))
      (hr : s.bus.objects[ref]? = some r) :
      Step s (.look k) (s.look k query requestId (some (ref, r)))
  | wake (h : s.calls[k]? = some (.waiting requestId ref))
      (hr : s.bus.objects[ref]? = some r) (he : r.event = true) :
      Step s (.wake k) (s.put k .over (.answered k r.decisionDict))
  | timeout (h : s.calls[k]? = some (.waiting requestId ref))
      (hr : s.bus.objects[ref]? = some r) :
      Step s (.timeout k) (s.put k .over (.answered k (r.timedOut requestId)))

/-- The first decision on an id stands: once a call that made one has returned True there is no other
decision, later queries answer with its outcome and note, and a wait that had begun when it was
made ends with its outcome. -/
structure FirstDecisionWins (log : List (Event T)) : Prop where
  once : ∀ requestId outcome note outcome' note',
    ¬ [.returnedTrue requestId outcome note, .made requestId outcome' note'].Sublist log
  later : ∀ requestId outcome note call answer,
    [.returnedTrue requestId outcome note, .asked call requestId, .answered call answer].Sublist
      log → answer.decided = some (outcome, note)
  waiting : ∀ requestId outcome note call answer,
    [.waits call requestId, .made requestId outcome note, .answered call answer].Sublist log →
      answer.decided.map Prod.fst = some outcome

/-- The call may come to wait, or waits, for the event of a request that it found under its id. -/
def Call.waitsOn (requestId : String) (ref : Nat) : Call → Prop
  | .looked .wait rid (some found) => rid = requestId ∧ found = ref
  | .waiting rid found => rid = requestId ∧ found = ref
  | _ => False

/-- A request is made under an id that is free, or whose request nobody decided or waits for, and no
wait times out on a request that is decided. -/
def Allowed (s : System T) : Act T → Prop
  | .request _ _ requestId generated _ =>
    ∀ ref, s.bus.requests.lookup (chooseId requestId generated) = some ref →
      (∀ r, s.bus.objects[ref]? = some r → r.outcome = none) ∧
        ∀ c ∈ s.calls, ¬ c.waitsOn (chooseId requestId generated) ref
  | .timeout k =>
    ∀ requestId ref r, s.calls[k]? = some (.waiting requestId ref) →
      s.bus.objects[ref]? = some r → r.outcome = none
  | _ => True

open History

/-- The request with the number is decided. -/
def Bus.Decided (b : Bus T) (ref : Nat) (outcome : DecisionOutcome) (note : String) : Prop :=
  ∃ r, b.objects[ref]? = some r ∧ r.outcome = some outcome ∧ r.note = note

/-- What a query that is not over found under its id. -/
def Call.found : Call → Option (Option Nat)
  | .looked _ _ found => some found
  | .waiting _ ref => some (some ref)
  | _ => none

/-- The decisions that were made are those of the registered requests; a query under way has found
the request that was decided before it was asked, and a wait the one that is registered. -/
structure Sound (s : System T) : Prop where
  wins : FirstDecisionWins s.log
  made : ∀ id o n, .made id o n ∈ s.log →
    ∃ ref, s.bus.requests.lookup id = some ref ∧ s.bus.Decided ref o n
  returned : ∀ id o n, .returnedTrue id o n ∈ s.log → .made id o n ∈ s.log
  signalling : ∀ ref id o n, .signalling ref id o n ∈ s.calls → .made id o n ∈ s.log
  registered : ∀ c ∈ s.calls, ∀ id ref, c.waitsOn id ref → s.bus.requests.lookup id = some ref
  asked : ∀ k id, .asked k id ∈ s.log → k < s.calls.length
  known : ∀ k c found, s.calls[k]? = some c → c.found = some found →
    ∀ id o n, [.returnedTrue id o n, .asked k id].Sublist s.log →
      ∃ ref, found = some ref ∧ s.bus.Decided ref o n
  waits : ∀ k id, .waits k id ∈ s.log → k < s.calls.length ∧
    ∀ c, s.calls[k]? = some c → c = .over ∨ ∃ ref, c = .waiting id ref

theorem Sound.empty : Sound (System.empty T) where
  wins := ⟨fun _ _ _ _ _ h => (nomatch h), fun _ _ _ _ _ h => (nomatch h),
    fun _ _ _ _ _ h => (nomatch h)⟩
  made _ _ _ h := nomatch h
  returned _ _ _ h := nomatch h
  signalling _ _ _ _ h := nomatch h
  registered _ h := nomatch h
  asked _ _ h := nomatch h
  known _ _ _ h := nomatch h
  waits _ _ h := nomatch h

/-- An event that neither makes a decision nor answers a query. -/
theorem FirstDecisionWins.other {log : List (Event T)} {e : Event T} (h : FirstDecisionWins log)
    (hm : ∀ id o n, e ≠ .made id o n) (ha : ∀ k a, e ≠ .answered k a) :
    FirstDecisionWins (log ++ [e]) := by
  constructor
  · intro id o n o' n' hs
    rcases pair_concat.1 hs with hs | ⟨he, -⟩
    · exact h.once id o n o' n' hs
    · exact hm id o' n' he.symm
  · intro id o n k a hs
    rcases triple_concat.1 hs with hs | ⟨he, -⟩
    · exact h.later id o n k a hs
    · exact absurd he.symm (ha k a)
  · intro id o n k a hs
    rcases triple_concat.1 hs with hs | ⟨he, -⟩
    · exact h.waiting id o n k a hs
    · exact absurd he.symm (ha k a)

/-- A decision on an id on which none has returned True. -/
theorem FirstDecisionWins.makes {log : List (Event T)} {id : String} {o : DecisionOutcome}
    {n : String} (h : FirstDecisionWins log) (hr : ∀ o' n', .returnedTrue id o' n' ∉ log) :
    FirstDecisionWins (log ++ [.made id o n]) := by
  constructor
  · intro id' o' n' o'' n'' hs
    rcases pair_concat.1 hs with hs | ⟨he, hm⟩
    · exact h.once id' o' n' o'' n'' hs
    · cases he
      exact hr o' n' hm
  · intro id' o' n' k a hs
    rcases triple_concat.1 hs with hs | ⟨he, -⟩
    · exact h.later id' o' n' k a hs
    · cases he
  · intro id' o' n' k a hs
    rcases triple_concat.1 hs with hs | ⟨he, -⟩
    · exact h.waiting id' o' n' k a hs
    · cases he

/-- An answer that tells of what was decided before the query, or during the wait. -/
theorem FirstDecisionWins.answers {log : List (Event T)} {k : Nat} {a : Answer T}
    (h : FirstDecisionWins log)
    (hl : ∀ id o n, [.returnedTrue id o n, .asked k id].Sublist log → a.decided = some (o, n))
    (hw : ∀ id o n, [.waits k id, .made id o n].Sublist log → a.decided.map Prod.fst = some o) :
    FirstDecisionWins (log ++ [.answered k a]) := by
  constructor
  · intro id o n o' n' hs
    rcases pair_concat.1 hs with hs | ⟨he, -⟩
    · exact h.once id o n o' n' hs
    · cases he
  · intro id o n k' a' hs
    rcases triple_concat.1 hs with hs | ⟨he, hs'⟩
    · exact h.later id o n k' a' hs
    · cases he
      exact hl id o n hs'
  · intro id o n k' a' hs
    rcases triple_concat.1 hs with hs | ⟨he, hs'⟩
    · exact h.waiting id o n k' a' hs
    · cases he
      exact hw id o n hs'

/-- The requests of the bus change, those that are decided apart. -/
theorem Sound.bus {s : System T} {b : Bus T} (h : Sound s) (hr : b.requests = s.bus.requests)
    (hd : ∀ ref o n, s.bus.Decided ref o n → b.Decided ref o n) : Sound { s with bus := b } := by
  constructor
  · exact h.wins
  · intro id o n hm
    obtain ⟨ref, hl, hdec⟩ := h.made id o n hm
    refine ⟨ref, ?_, hd ref o n hdec⟩
    dsimp only
    rw [hr]
    exact hl
  · exact h.returned
  · exact h.signalling
  · intro c hc id ref hw
    dsimp only
    rw [hr]
    exact h.registered c hc id ref hw
  · exact h.asked
  · intro k c found hk hf id o n hs
    obtain ⟨ref, he, hdec⟩ := h.known k c found hk hf id o n hs
    exact ⟨ref, he, hd ref o n hdec⟩
  · exact h.waits

/-- A call ends with an event that is an answer or the return of a decision that was made. -/
theorem Sound.finish {s : System T} {k : Nat} {e : Event T} (h : Sound s)
    (hw : FirstDecisionWins (s.log ++ [e])) (hm : ∀ id o n, e ≠ .made id o n)
    (hr : ∀ id o n, e = .returnedTrue id o n → .made id o n ∈ s.log)
    (ha : ∀ k id, e ≠ .asked k id) (hv : ∀ k id, e ≠ .waits k id) : Sound (s.put k .over e) := by
  have hcall {j : Nat} {c : Call} (hj : (s.calls.set k .over)[j]? = some c) :
      c = .over ∨ s.calls[j]? = some c :=
    (getElem?_set_cases hj).imp And.right And.right
  have hmem {c : Call} (hc : c ∈ s.calls.set k .over) : c = .over ∨ c ∈ s.calls :=
    (List.mem_or_eq_of_mem_set hc).symm
  constructor
  · exact hw
  · intro id o n hmade
    rcases mem_concat.1 hmade with hmade | he
    · exact h.made id o n hmade
    · exact absurd he.symm (hm id o n)
  · intro id o n hret
    apply List.mem_append_left
    rcases mem_concat.1 hret with hret | he
    · exact h.returned id o n hret
    · exact hr id o n he.symm
  · intro ref id o n hc
    apply List.mem_append_left
    rcases hmem hc with he | hc
    · cases he
    · exact h.signalling ref id o n hc
  · intro c hc id ref hwait
    rcases hmem hc with rfl | hc
    · cases hwait
    · exact h.registered c hc id ref hwait
  · intro j id hasked
    rw [System.put, List.length_set]
    rcases mem_concat.1 hasked with hasked | he
    · exact h.asked j id hasked
    · exact absurd he.symm (ha j id)
  · intro j c found hj hf id o n hs
    rcases hcall hj with rfl | hj
    · cases hf
    · rcases pair_concat.1 hs with hs | ⟨he, -⟩
      · exact h.known j c found hj hf id o n hs
      · exact absurd he.symm (ha j id)
  · intro j id hwait
    rcases mem_concat.1 hwait with hwait | he
    · obtain ⟨hlt, hc⟩ := h.waits j id hwait
      refine ⟨by rwa [System.put, List.length_set], fun c hj => ?_⟩
      exact (hcall hj).elim .inl (hc c)
    · exact absurd he.symm (hv j id)

/-- A query that is not over ends with an answer that tells of the request that it found. -/
theorem Sound.answer {s : System T} {k : Nat} {c : Call} {found : Option Nat} {a : Answer T}
    (h : Sound s) (hk : s.calls[k]? = some c) (hf : c.found = some found)
    (ha : ∀ ref o n, found = some ref → s.bus.Decided ref o n → a.decided = some (o, n)) :
    Sound (s.put k .over (.answered k a)) := by
  refine h.finish ?_ (fun _ _ _ he => nomatch he) (fun _ _ _ he => nomatch he)
    (fun _ _ he => nomatch he) (fun _ _ he => nomatch he)
  apply h.wins.answers
  · intro id o n hs
    obtain ⟨ref, he, hdec⟩ := h.known k c found hk hf id o n hs
    exact ha ref o n he hdec
  · intro id o n hs
    have hmem := hs.subset
    obtain ⟨-, hc⟩ := h.waits k id (hmem (.head _))
    rcases hc c hk with rfl | ⟨ref, rfl⟩
    · cases hf
    · obtain ⟨ref', hl, hdec⟩ := h.made id o n (hmem (.tail _ (.head _)))
      have hreg := h.registered _ (List.mem_of_getElem? hk) id ref ⟨rfl, rfl⟩
      rw [hreg] at hl
      cases hl
      cases hf
      rw [ha ref o n rfl hdec]
      rfl

/-- The lock section of a decision finds the registered request undecided. -/
theorem decide_some {b b' : Bus T} {id : String} {o : DecisionOutcome} {n : String} {now : T}
    {ref : Nat} (h : b.decide id o n now = some (ref, b')) : b.requests.lookup id = some ref ∧
      ∃ r, b.objects[ref]? = some r ∧ r.outcome = none ∧ b' = b.replace ref (r.decide o n now) := by
  obtain ⟨ref', hl, h⟩ := Option.bind_eq_some_iff.1 h
  cases hr : b.objects[ref']? with
  | none =>
    rw [hr] at h
    cases h
  | some r =>
    rw [hr] at h
    dsimp only at h
    cases ho : r.outcome with
    | some o' =>
      rw [ho] at h
      cases h
    | none =>
      rw [ho] at h
      cases h
      exact ⟨hl, r, hr, ho, rfl⟩

/-- A request is replaced by one that has the same decision, or a first one. -/
theorem Bus.Decided.replace {b : Bus T} {ref ref' : Nat} {r r' : ApprovalRequest T}
    {o : DecisionOutcome} {n : String} (h : b.Decided ref o n) (hr : b.objects[ref']? = some r)
    (he : r.outcome = some o → r.note = n → r'.outcome = some o ∧ r'.note = n) :
    (b.replace ref' r').Decided ref o n := by
  obtain ⟨q, hq, ho, hn⟩ := h
  by_cases hre : ref' = ref
  · subst hre
    rw [hr] at hq
    cases hq
    have hlt := (List.getElem?_eq_some_iff.1 hr).1
    exact ⟨r', List.getElem?_set_self hlt, he ho hn⟩
  · refine ⟨q, ?_, ho, hn⟩
    rw [Bus.replace, List.getElem?_set_ne hre]
    exact hq

/-- A new call, with an event that is no answer and no end of a decision. -/
theorem Sound.begin {s : System T} {c : Call} {e : Event T} (h : Sound s)
    (hw : FirstDecisionWins (s.log ++ [e]))
    (hm : ∀ id o n, e = .made id o n →
      ∃ ref, s.bus.requests.lookup id = some ref ∧ s.bus.Decided ref o n)
    (hr : ∀ id o n, e ≠ .returnedTrue id o n)
    (hc : ∀ ref id o n, c = .signalling ref id o n → e = .made id o n)
    (ho : ∀ id ref, c.waitsOn id ref → s.bus.requests.lookup id = some ref)
    (ha : ∀ k id, e = .asked k id → k = s.calls.length ∧ c.found = some (s.bus.requests.lookup id))
    (hv : ∀ k id, e ≠ .waits k id) :
    Sound { s with calls := s.calls ++ [c], log := s.log ++ [e] } := by
  have hcall {j : Nat} {d : Call} (hj : (s.calls ++ [c])[j]? = some d) :
      s.calls[j]? = some d ∨ j = s.calls.length ∧ d = c := by
    rw [List.getElem?_append] at hj
    split at hj
    · exact .inl hj
    · obtain ⟨hlt, he⟩ := List.getElem?_eq_some_iff.1 hj
      rw [List.length_singleton] at hlt
      refine .inr ⟨by omega, ?_⟩
      rw [← he, List.getElem_singleton]
  constructor
  · exact hw
  · intro id o n hmade
    rcases mem_concat.1 hmade with hmade | he
    · exact h.made id o n hmade
    · exact hm id o n he.symm
  · intro id o n hret
    rcases mem_concat.1 hret with hret | he
    · exact List.mem_append_left _ (h.returned id o n hret)
    · exact absurd he.symm (hr id o n)
  · intro ref id o n hd
    rcases mem_concat.1 hd with hd | he
    · exact List.mem_append_left _ (h.signalling ref id o n hd)
    · exact mem_concat.2 (.inr (hc ref id o n he.symm).symm)
  · intro d hd id ref hwait
    rcases mem_concat.1 hd with hd | rfl
    · exact h.registered d hd id ref hwait
    · exact ho id ref hwait
  · intro k id hasked
    rw [List.length_append, List.length_singleton]
    rcases mem_concat.1 hasked with hasked | he
    · exact Nat.lt_succ_of_lt (h.asked k id hasked)
    · rw [(ha k id he.symm).1]
      exact Nat.lt_succ_self _
  · intro k d found hk hf id o n hs
    rcases pair_concat.1 hs with hs | ⟨he, hret⟩
    · have hlt := h.asked k id (hs.subset (.tail _ (.head _)))
      rcases hcall hk with hk | ⟨rfl, -⟩
      · exact h.known k d found hk hf id o n hs
      · exact absurd hlt (Nat.lt_irrefl _)
    · obtain ⟨hlen, hfound⟩ := ha k id he.symm
      rcases hcall hk with hk | ⟨-, rfl⟩
      · have hlt := (List.getElem?_eq_some_iff.1 hk).1
        rw [hlen] at hlt
        exact absurd hlt (Nat.lt_irrefl _)
      · obtain ⟨ref, hl, hdec⟩ := h.made id o n (h.returned id o n hret)
        rw [hf, Option.some.injEq] at hfound
        exact ⟨ref, hfound.trans hl, hdec⟩
  · intro k id hwait
    rcases mem_concat.1 hwait with hwait | he
    · obtain ⟨hlt, hd⟩ := h.waits k id hwait
      refine ⟨?_, fun d hk => ?_⟩
      · rw [List.length_append]
        exact Nat.lt_add_right _ hlt
      · rcases hcall hk with hk | ⟨rfl, -⟩
        · exact hd d hk
        · exact absurd hlt (Nat.lt_irrefl _)
    · exact absurd he.symm (hv k id)

/-- A wait begins on the request that the query found under its id. -/
theorem Sound.wait {s : System T} {k ref : Nat} {id : String} (h : Sound s)
    (hk : s.calls[k]? = some (.looked .wait id (some ref))) :
    Sound (s.put k (.waiting id ref) (.waits k id)) := by
  have hlt := (List.getElem?_eq_some_iff.1 hk).1
  have hcall {j : Nat} {c : Call} (hj : (s.calls.set k (.waiting id ref))[j]? = some c) :
      j = k ∧ c = .waiting id ref ∨ j ≠ k ∧ s.calls[j]? = some c := getElem?_set_cases hj
  constructor
  · exact h.wins.other (fun _ _ _ he => nomatch he) (fun _ _ he => nomatch he)
  · intro id' o n hmade
    rcases mem_concat.1 hmade with hmade | he
    · exact h.made id' o n hmade
    · cases he
  · intro id' o n hret
    rcases mem_concat.1 hret with hret | he
    · exact List.mem_append_left _ (h.returned id' o n hret)
    · cases he
  · intro ref' id' o n hc
    rcases List.mem_or_eq_of_mem_set hc with hc | he
    · exact List.mem_append_left _ (h.signalling ref' id' o n hc)
    · cases he
  · intro c hc id' ref' hwait
    rcases List.mem_or_eq_of_mem_set hc with hc | rfl
    · exact h.registered c hc id' ref' hwait
    · exact h.registered _ (List.mem_of_getElem? hk) id' ref' hwait
  · intro j id' hasked
    rw [System.put, List.length_set]
    rcases mem_concat.1 hasked with hasked | he
    · exact h.asked j id' hasked
    · cases he
  · intro j c found hj hf id' o n hs
    rcases pair_concat.1 hs with hs' | ⟨he, -⟩
    · rcases hcall hj with ⟨rfl, rfl⟩ | ⟨-, hj⟩
      · exact h.known j _ found hk hf id' o n hs'
      · exact h.known j c found hj hf id' o n hs'
    · cases he
  · intro j id' hwait
    rw [System.put, List.length_set]
    rcases mem_concat.1 hwait with hwait | he
    · obtain ⟨hlt', hc⟩ := h.waits j id' hwait
      refine ⟨hlt', fun c hj => ?_⟩
      rcases hcall hj with ⟨rfl, rfl⟩ | ⟨-, hj⟩
      · rcases hc _ hk with he | ⟨ref', he⟩
        · cases he
        · cases he
      · exact hc c hj
    · cases he
      refine ⟨hlt, fun c hj => ?_⟩
      rcases hcall hj with ⟨-, rfl⟩ | ⟨hne, -⟩
      · exact .inr ⟨ref, rfl⟩
      · exact absurd rfl hne

/-- A request that takes no id of a decided request, nor of one that is waited for. -/
theorem Sound.register {s : System T} {scope summary rid : String} {now : T} (h : Sound s)
    (hf : ∀ ref, s.bus.requests.lookup rid = some ref →
      (∀ r, s.bus.objects[ref]? = some r → r.outcome = none) ∧
        ∀ c ∈ s.calls, ¬ c.waitsOn rid ref) :
    Sound { s with bus := s.bus.requestApproval scope summary rid now } := by
  have hdec {ref : Nat} {o : DecisionOutcome} {n : String} (hd : s.bus.Decided ref o n) :
      (s.bus.requestApproval scope summary rid now).Decided ref o n := by
    obtain ⟨r, hr, hd⟩ := hd
    have hlt := (List.getElem?_eq_some_iff.1 hr).1
    exact ⟨r, (List.getElem?_append_left hlt).trans hr, hd⟩
  constructor
  · exact h.wins
  · intro id o n hmade
    obtain ⟨ref, hl, hd⟩ := h.made id o n hmade
    refine ⟨ref, ?_, hdec hd⟩
    obtain ⟨r, hr, ho, -⟩ := hd
    have hne : id ≠ rid := by
      rintro rfl
      rw [(hf ref hl).1 r hr] at ho
      cases ho
    exact (Dict.lookup_set_ne hne _ _).trans hl
  · exact h.returned
  · exact h.signalling
  · intro c hc id ref hwait
    have hl := h.registered c hc id ref hwait
    have hne : id ≠ rid := by
      rintro rfl
      exact (hf ref hl).2 c hc hwait
    exact (Dict.lookup_set_ne hne _ _).trans hl
  · exact h.asked
  · intro k c found hk hfound id o n hs
    obtain ⟨ref, he, hd⟩ := h.known k c found hk hfound id o n hs
    exact ⟨ref, he, hdec hd⟩
  · exact h.waits

/-- An event that concerns neither decisions nor queries. -/
theorem Sound.note {s : System T} {e : Event T} (h : Sound s) (hm : ∀ id o n, e ≠ .made id o n)
    (hr : ∀ id o n, e ≠ .returnedTrue id o n) (ha : ∀ k id, e ≠ .asked k id)
    (hv : ∀ k id, e ≠ .waits k id) (hn : ∀ k a, e ≠ .answered k a) :
    Sound { s with log := s.log ++ [e] } := by
  constructor
  · exact h.wins.other hm hn
  · intro id o n hmade
    exact h.made id o n ((mem_concat.1 hmade).resolve_right (hm id o n).symm)
  · intro id o n hret
    have hret' := (mem_concat.1 hret).resolve_right (hr id o n).symm
    exact List.mem_append_left _ (h.returned id o n hret')
  · intro ref id o n hc
    exact List.mem_append_left _ (h.signalling ref id o n hc)
  · exact h.registered
  · intro k id hasked
    exact h.asked k id ((mem_concat.1 hasked).resolve_right (ha k id).symm)
  · intro k c found hk hf id o n hs
    have hs' := (pair_concat.1 hs).resolve_right fun he => ha k id he.1.symm
    exact h.known k c found hk hf id o n hs'
  · intro k id hwait
    exact h.waits k id ((mem_concat.1 hwait).resolve_right (hv k id).symm)

theorem Bus.Decided.get {b : Bus T} {ref : Nat} {r : ApprovalRequest T} {o : DecisionOutcome}
    {n : String} (h : b.Decided ref o n) (hr : b.objects[ref]? = some r) :
    r.outcome = some o ∧ r.note = n := by
  obtain ⟨r', hr', hd⟩ := h
  rw [hr] at hr'
  cases hr'
  exact hd

theorem Bus.Decided.decisionDict {b : Bus T} {ref : Nat} {r : ApprovalRequest T}
    {o : DecisionOutcome} {n : String} (h : b.Decided ref o n) (hr : b.objects[ref]? = some r) :
    r.decisionDict.decided = some (o, n) := by
  obtain ⟨ho, hn⟩ := h.get hr
  rw [ApprovalRequest.decisionDict, ho, hn]
  rfl

/-- A decision is made on the registered request, which nobody has decided. -/
theorem Sound.decide {s : System T} {b : Bus T} {id note : String} {now : T} {ref : Nat}
    {o : DecisionOutcome} (h : Sound s) (hd : s.bus.decide id o note now = some (ref, b)) :
    Sound ⟨b, s.calls ++ [.signalling ref id o note], s.log ++ [.made id o note]⟩ := by
  obtain ⟨hl, r, hr, ho, rfl⟩ := decide_some hd
  have hnone (o' : DecisionOutcome) (n : String) : ¬ s.bus.Decided ref o' n := by
    intro hdec
    have ho' := (hdec.get hr).1
    rw [ho] at ho'
    cases ho'
  have hb : Sound { s with bus := s.bus.replace ref (r.decide o note now) } := by
    refine h.bus rfl ?_
    intro ref' o' n hdec
    apply hdec.replace hr
    intro he
    rw [ho] at he
    cases he
  apply hb.begin
  · apply h.wins.makes
    intro o' n hret
    obtain ⟨ref', hl', hdec⟩ := h.made id o' n (h.returned id o' n hret)
    rw [hl] at hl'
    cases hl'
    exact hnone o' n hdec
  · intro id' o' n he
    cases he
    refine ⟨ref, hl, r.decide o note now, ?_, rfl, rfl⟩
    exact List.getElem?_set_self (List.getElem?_eq_some_iff.1 hr).1
  · exact fun _ _ _ he => nomatch he
  · intro ref' id' o' n he
    cases he
    rfl
  · exact fun _ _ hw => nomatch hw
  · exact fun _ _ he => nomatch he
  · exact fun _ _ he => nomatch he

/-- A decision that was made sets the event of its request, and returns True. -/
theorem Sound.signal {s : System T} {k ref : Nat} {r : ApprovalRequest T} {id n : String}
    {o : DecisionOutcome} (h : Sound s) (hk : s.calls[k]? = some (.signalling ref id o n))
    (hr : s.bus.objects[ref]? = some r) :
    Sound { s.put k .over (.returnedTrue id o n) with
      bus := s.bus.replace ref { r with event := true } } := by
  have hmade := h.signalling ref id o n (List.mem_of_getElem? hk)
  have hf : Sound (s.put k .over (.returnedTrue id o n)) := by
    refine h.finish ?_ (fun _ _ _ he => nomatch he) ?_ (fun _ _ he => nomatch he)
      (fun _ _ he => nomatch he)
    · exact h.wins.other (fun _ _ _ he => nomatch he) (fun _ _ he => nomatch he)
    · intro id' o' n' he
      cases he
      exact hmade
  refine hf.bus rfl ?_
  intro ref' o' n' hdec
  exact hdec.replace hr fun ho hn => ⟨ho, hn⟩

/-- A query looks up its id. -/
theorem Sound.ask {s : System T} {query : Query} {id : String} (h : Sound s) :
    Sound { s with
      calls := s.calls ++ [.looked query id (s.bus.requests.lookup id)]
      log := s.log ++ [.asked s.calls.length id] } := by
  apply h.begin
  · exact h.wins.other (fun _ _ _ he => nomatch he) (fun _ _ he => nomatch he)
  · exact fun _ _ _ he => nomatch he
  · exact fun _ _ _ he => nomatch he
  · exact fun _ _ _ _ he => nomatch he
  · intro id' ref hw
    cases query with
    | get => cases hw
    | wait =>
      cases hl : s.bus.requests.lookup id with
      | none =>
        rw [hl] at hw
        cases hw
      | some found =>
        rw [hl] at hw
        obtain ⟨rfl, rfl⟩ := hw
        exact hl
  · intro k id' he
    cases he
    exact ⟨rfl, rfl⟩
  · exact fun _ _ he => nomatch he

theorem Sound.step {s t : System T} {a : Act T} (h : Sound s) (ha : Allowed s a)
    (hs : Step s a t) : Sound t := by
  cases hs with
  | request =>
    exact (h.register ha).note (fun _ _ _ he => nomatch he) (fun _ _ _ he => nomatch he)
      (fun _ _ he => nomatch he) (fun _ _ he => nomatch he) (fun _ _ he => nomatch he)
  | refuse hd =>
    exact h.note (fun _ _ _ he => nomatch he) (fun _ _ _ he => nomatch he)
      (fun _ _ he => nomatch he) (fun _ _ he => nomatch he) (fun _ _ he => nomatch he)
  | decide hd => exact h.decide hd
  | signal hk hr => exact h.signal hk hr
  | ask => exact h.ask
  | @lookNone k query id hk =>
    cases query with
    | get => exact h.answer hk rfl fun _ _ _ he => nomatch he
    | wait => exact h.answer hk rfl fun _ _ _ he => nomatch he
  | @lookSome k ref r query id hk hr =>
    have hdict (ref' : Nat) (o : DecisionOutcome) (n : String) (he : some ref = some ref')
        (hd : s.bus.Decided ref' o n) : r.decisionDict.decided = some (o, n) := by
      cases he
      exact hd.decisionDict hr
    cases query with
    | get => exact h.answer hk rfl hdict
    | wait =>
      rw [System.look]
      split
      · exact h.answer hk rfl hdict
      · exact h.wait hk
  | @wake k ref r id hk hr hev =>
    apply h.answer hk rfl
    intro ref' o n he hd
    cases he
    exact hd.decisionDict hr
  | @timeout k ref r id hk hr =>
    apply h.answer hk rfl
    intro ref' o n he hd
    cases he
    have ho := (hd.get hr).1
    rw [ha id ref r hk hr] at ho
    cases ho

/-- In a run where no id of a decided or awaited request is taken again, and no wait times out on a
decided request, the first decision on an id stands. -/
theorem first_decision_wins {s : System T}
    (h : Run.Reaches Step Allowed (System.empty T) s) : FirstDecisionWins s.log := by
  have hs : Sound s := h.invariant Sound.empty fun _ _ _ hI ha hs => hI.step ha hs
  exact hs.wins

/-- A wait begins on a request, and the request is then approved. -/
def awaitedApproved : System Nat where
  bus := ⟨[⟨"a", "checkout", "order", 0, some 1, some .approved, "yes", true⟩], [("a", 0)]⟩
  calls := [.waiting "a" 0, .over]
  log := [.registered "a", .asked 0 "a", .waits 0 "a", .made "a" .approved "yes",
    .returnedTrue "a" .approved "yes"]

theorem awaitedApproved_reached : Run.Reaches Step Allowed (System.empty Nat) awaitedApproved := by
  have h₁ : Run.Reaches Step Allowed (System.empty Nat) _ :=
    (Run.Reaches.refl _).tail (a := .request "checkout" "order" (some "a") "" 0)
      (fun _ h => nomatch h) .request
  have h₂ := h₁.tail (a := Act.ask .wait "a") trivial .ask
  have h₃ := h₂.tail (a := Act.look 0) trivial (.lookSome rfl rfl)
  have h₄ := h₃.tail (a := Act.decide .approve "a" "yes" 1) trivial (.decide rfl)
  have h₅ := h₄.tail (a := Act.signal 1) trivial (.signal rfl rfl)
  exact h₅

theorem first_decision_wins_approved : ∃ s, Run.Reaches Step Allowed (System.empty Nat) s ∧
    .answered 0 (.decision "a" "checkout" "order" (some .approved) "yes" 0 (some 1)) ∈ s.log ∧
      FirstDecisionWins s.log := by
  have h := awaitedApproved_reached.tail (a := Act.wake 0) trivial (.wake rfl rfl rfl)
  exact ⟨_, h, List.mem_append_right _ (.head _), first_decision_wins h⟩

/-- A request under the id of a decided one is decided again. -/
theorem taken_id_decided_again : ∃ s,
    Run.Reaches Step (fun _ _ => True) (System.empty Nat) s ∧ ¬ FirstDecisionWins s.log := by
  have h₀ : Run.Reaches Step (fun _ _ => True) (System.empty Nat) _ :=
    awaitedApproved_reached.mono fun _ _ _ => trivial
  have h₁ := h₀.tail (a := .request "checkout" "order" (some "a") "" 2) trivial .request
  have h₂ := h₁.tail (a := Act.decide .reject "a" "no" 3) trivial (.decide rfl)
  refine ⟨_, h₂, fun hw => ?_⟩
  apply hw.once "a" .approved "yes" .rejected "no"
  decide

/-- A wait that had begun when its request was approved times out after it. -/
theorem timeout_hides_decision : ∃ s,
    Run.Reaches Step (fun _ _ => True) (System.empty Nat) s ∧ ¬ FirstDecisionWins s.log := by
  have h₀ : Run.Reaches Step (fun _ _ => True) (System.empty Nat) _ :=
    awaitedApproved_reached.mono fun _ _ _ => trivial
  have h₁ := h₀.tail (a := Act.timeout 0) trivial (.timeout rfl rfl)
  refine ⟨_, h₁, fun hw => ?_⟩
  have hd := hw.waiting "a" .approved "yes" 0 (.timedOut "a" "yes" "checkout" "order") (by decide)
  cases hd

end Obase.HitlSignalBus
