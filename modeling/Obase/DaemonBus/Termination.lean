import Obase.DaemonBus.Invariant
import Obase.Run

namespace Obase.DaemonBus
set_option autoImplicit true

/-- What the bus owes its handles: each gets the payloads of its topic in order and once, no task
waits while an item lies there for it, and none waits at a handle that is closed. -/
structure Sound (w : World β) : Prop where
  delivered : ∀ (h : Nat) (s : Subscription) (e : Entry β), w.bus.subscriptions[h]? = some s →
    w.ledger[h]? = some e →
      List.Forall₂ Copied e.due (e.returned ++ queued w.bus.dict s.queue.items)
  alert : ∀ (h : Nat) (s : Subscription), w.bus.subscriptions[h]? = some s → s.queue.Alert
  ended : ∀ (h : Nat) (s : Subscription) (e : Entry β), w.bus.subscriptions[h]? = some s →
    w.ledger[h]? = some e → e.isOpen = false → s.queue.waiting = []
  valid : ∀ e ∈ w.ledger, .invalid ∉ e.outcomes

/-- A call of `receive` at a closed handle ends at once when it looks for an item, and with
`StopAsyncIteration` exactly if no payload is left. -/
def Answered (w : World β) (ev : Event β) (w' : World β) : Prop :=
  ∀ (h : Nat), (ev = .receive h ∨ ∃ r, ev = .resume h r) →
    ∀ (s : Subscription) (e : Entry β), w.bus.subscriptions[h]? = some s →
      w.ledger[h]? = some e → e.isOpen = false →
        ∃ o, w'.ledger[h]? = some { e with outcomes := e.outcomes ++ [o] } ∧
          (o = .stop ↔ queued w.bus.dict s.queue.items = [])

/-- The calls of `receive` that have not ended are no more than the payloads and marks of their
handle, once it is closed. -/
def Served (w : World β) : Event β → Prop
  | .close h => ∀ s, w.bus.subscriptions[h]? = some s →
    s.queue.pending ≤ s.queue.items.length + 1
  | .receive h => ∀ s e, w.bus.subscriptions[h]? = some s → w.ledger[h]? = some e →
    e.isOpen = false → s.queue.pending + 1 ≤ s.queue.items.length
  | _ => True

section
variable {w w' : World β} {ev : Event β}

theorem Inv.entry (h : Inv w) {i : Nat} {s : Subscription}
    (hs : w.bus.subscriptions[i]? = some s) : ∃ e, w.ledger[i]? = some e := by
  have hlt := (List.getElem?_eq_some_iff.1 hs).1
  rw [← h.length] at hlt
  exact ⟨_, List.getElem?_eq_getElem hlt⟩

theorem Inv.sound (h : Inv w) : Sound w where
  delivered := fun i s e hs he => (h.link i s e hs he).copies
  alert := by
    intro i s hs
    obtain ⟨e, he⟩ := h.entry hs
    exact (h.link i s e hs he).alert
  ended := by
    intro i s e hs he hc
    have hl := h.link i s e hs he
    exact hl.alert.waiting_nil (hl.pending hc)
  valid := by
    intro e he
    obtain ⟨i, hi⟩ := List.mem_iff_getElem?.1 he
    have hlt := (List.getElem?_eq_some_iff.1 hi).1
    rw [h.length] at hlt
    exact (h.link i _ e (List.getElem?_eq_getElem hlt) hi).valid

theorem Inv.calls (h : Inv w) (n : Nat) : Inv { w with calls := n } :=
  ⟨h.length, h.held, h.link, h.fresh, h.apart, h.subscribers⟩

/-- A new call of `receive`. -/
theorem Inv.receive (h : Inv w) {i : Nat} {s : Subscription} {e : Entry β}
    (hs : w.bus.subscriptions[i]? = some s) (he : w.ledger[i]? = some e) (r : Nat)
    (hp : e.isOpen = false → s.queue.pending + 1 ≤ s.queue.items.length) :
    Inv (w.took i (w.bus.take i (s.queue.get r))) ∧ (e.isOpen = false →
      ∃ o, (w.took i (w.bus.take i (s.queue.get r))).ledger[i]? =
          some { e with outcomes := e.outcomes ++ [o] } ∧
        (o = .stop ↔ queued w.bus.dict s.queue.items = [])) := by
  have hl := h.link i s e hs he
  have ha := hl.alert.get r
  cases hi : s.queue.items with
  | nil =>
    rw [hi] at hp
    have hopen : e.isOpen = false → False := fun hc => Nat.not_succ_le_zero _ (hp hc)
    rw [TaskQueue.get_nil hi] at ha ⊢
    exact ⟨(h.took hs he rfl ha fun hc => (hopen hc).elim).1, fun hc => (hopen hc).elim⟩
  | cons x items =>
    rw [hi, List.length_cons] at hp
    rw [TaskQueue.get_cons hi] at ha ⊢
    obtain ⟨hinv, hout⟩ := h.took (x := some x) (q := { s.queue with items := items }) hs he hi ha
      fun hc => Nat.le_of_succ_le_succ (hp hc)
    rw [← hi]
    exact ⟨hinv, fun _ => ⟨_, hout x rfl⟩⟩

/-- A task that was woken goes on. -/
theorem Inv.resume (h : Inv w) {i r : Nat} {s : Subscription} {e : Entry β}
    (hs : w.bus.subscriptions[i]? = some s) (he : w.ledger[i]? = some e)
    (hr : r ∈ s.queue.woken) :
    Inv (w.took i (w.bus.take i (s.queue.resume r))) ∧ (e.isOpen = false →
      ∃ o, (w.took i (w.bus.take i (s.queue.resume r))).ledger[i]? =
          some { e with outcomes := e.outcomes ++ [o] } ∧
        (o = .stop ↔ queued w.bus.dict s.queue.items = [])) := by
  have hl := h.link i s e hs he
  have ha := hl.alert.resume hr
  have hlen := TaskQueue.length_erase_woken hr
  have hp := hl.pending
  rw [TaskQueue.pending] at hp
  cases hi : s.queue.items with
  | nil =>
    rw [hi, List.length_nil] at hp
    have hopen : e.isOpen = false → False := by
      intro hc
      have := hp hc
      omega
    rw [TaskQueue.resume_nil hi] at ha ⊢
    exact ⟨(h.took hs he rfl ha fun hc => (hopen hc).elim).1, fun hc => (hopen hc).elim⟩
  | cons x items =>
    rw [hi, List.length_cons] at hp
    rw [TaskQueue.resume_cons hi] at ha ⊢
    have hless : e.isOpen = false →
        s.queue.waiting.length + (s.queue.woken.erase r).length ≤ items.length := by
      intro hc
      have := hp hc
      omega
    obtain ⟨hinv, hout⟩ := h.took (x := some x)
      (q := { s.queue with items := items, woken := s.queue.woken.erase r }) hs he hi ha hless
    rw [← hi]
    exact ⟨hinv, fun _ => ⟨_, hout x rfl⟩⟩

theorem Inv.step (h : Inv w) (ha : Served w ev) (hs : w.step ev = some w') :
    Inv w' ∧ Answered w ev w' := by
  have hother (hn : ∀ i, ev ≠ .receive i) (hn' : ∀ i r, ev ≠ .resume i r) : Answered w ev w' := by
    rintro i (he | ⟨r, he⟩)
    · exact (hn i he).elim
    · exact (hn' i r he).elim
  cases ev with
  | make o =>
    obtain rfl := Option.some.inj hs
    exact ⟨h.make o, hother (fun _ he => nomatch he) fun _ _ he => nomatch he⟩
  | mutate a v =>
    rw [World.step] at hs
    split at hs
    · rename_i hc
      obtain rfl := Option.some.inj hs
      exact ⟨h.mutate hc.1 v, hother (fun _ he => nomatch he) fun _ _ he => nomatch he⟩
    · cases hs
  | publish topic a =>
    rw [World.step] at hs
    split at hs
    · rename_i hm
      obtain rfl := Option.some.inj hs
      exact ⟨h.publish topic hm, hother (fun _ he => nomatch he) fun _ _ he => nomatch he⟩
    · cases hs
  | subscribe topic =>
    obtain rfl := Option.some.inj hs
    exact ⟨h.subscribe topic, hother (fun _ he => nomatch he) fun _ _ he => nomatch he⟩
  | receive i =>
    obtain ⟨s, hi, rfl⟩ := Option.map_eq_some_iff.1 hs
    obtain ⟨e, he⟩ := h.entry hi
    obtain ⟨hinv, hout⟩ := h.receive hi he w.calls (ha s e hi he)
    refine ⟨hinv.calls _, ?_⟩
    rintro j (hj | ⟨r, hj⟩) s' e' hs' he' hc
    · obtain rfl : i = j := by
        injection hj
      obtain rfl := Option.some.inj (hi.symm.trans hs')
      obtain rfl := Option.some.inj (he.symm.trans he')
      exact hout hc
    · cases hj
  | resume i r =>
    obtain ⟨s, hi, hs⟩ := Option.bind_eq_some_iff.1 hs
    split at hs
    · rename_i hr
      obtain rfl := Option.some.inj hs
      obtain ⟨e, he⟩ := h.entry hi
      obtain ⟨hinv, hout⟩ := h.resume hi he hr
      refine ⟨hinv, ?_⟩
      rintro j (hj | ⟨r', hj⟩) s' e' hs' he' hc
      · cases hj
      · obtain rfl : i = j := by
          injection hj
        obtain rfl := Option.some.inj (hi.symm.trans hs')
        obtain rfl := Option.some.inj (he.symm.trans he')
        exact hout hc
    · cases hs
  | close i =>
    rw [World.step] at hs
    split at hs
    · rename_i hlt
      obtain rfl := Option.some.inj hs
      have hi := List.getElem?_eq_getElem hlt
      exact ⟨h.close hi (ha _ hi), hother (fun _ he => nomatch he) fun _ _ he => nomatch he⟩
    · cases hs

/-- In every run in which the calls at a closed handle are no more than its items, what is due is
delivered and every call at a closed handle ends. -/
theorem delivers_of_served {l : List (Event β × World β)}
    (ht : Run.Trace (fun w ev w' => w.step ev = some w') World.init l)
    (ha : Run.Always Served World.init l) :
    Run.Along (fun w ev w' => Sound w' ∧ Answered w ev w') World.init l := by
  refine ht.along_of_always Inv.init ha fun w ev w' h ha hs => ?_
  obtain ⟨hinv, hans⟩ := h.step ha hs
  exact ⟨hinv, hinv.sound, hans⟩

end

/-- The worlds that the events lead to, as long as they can happen. -/
def World.runs (w : World β) : List (Event β) → List (Event β × World β)
  | [] => []
  | ev :: evs =>
    match w.step ev with
    | none => []
    | some w' => (ev, w') :: w'.runs evs

theorem World.runs_trace (w : World β) (evs : List (Event β)) :
    Run.Trace (fun w ev w' => w.step ev = some w') w (w.runs evs) := by
  induction evs generalizing w with
  | nil => trivial
  | cons ev evs ih =>
    rw [World.runs]
    split
    · trivial
    · rename_i w' hs
      exact ⟨hs, ih w'⟩

/-- A task takes a payload, and one that waits ends when the handle is closed. -/
theorem pending_stopped :
    Run.Along (fun (w : World Nat) ev w' => Sound w' ∧ Answered w ev w') World.init
      (World.init.runs [.subscribe "jobs", .make (.dict 7), .publish "jobs" 0, .receive 0,
        .receive 0, .close 0, .resume 0 1]) := by
  refine delivers_of_served (World.runs_trace ..) ?_
  refine ⟨trivial, trivial, trivial, ?_, ?_, ?_, trivial, trivial⟩
  · rintro s e hs he hc
    cases he
    cases hc
  · rintro s e hs he hc
    cases he
    cases hc
  · rintro s hs
    cases hs
    decide

/-- Of two tasks that wait, only one is woken when the handle is closed. -/
theorem second_waits_forever : ¬ ∀ l : List (Event Nat × World Nat),
    Run.Trace (fun w ev w' => w.step ev = some w') World.init l →
      Run.Along (fun w ev w' => Sound w' ∧ Answered w ev w') World.init l := by
  intro h
  obtain ⟨-, -, -, ⟨hsound, -⟩, -⟩ := h _ (World.runs_trace World.init
    [.subscribe "jobs", .receive 0, .receive 0, .close 0])
  have hnil := hsound.ended 0 _ _ rfl rfl rfl
  exact absurd hnil (List.cons_ne_nil 1 [])

end Obase.DaemonBus
