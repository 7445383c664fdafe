import Obase.Dict
import Obase.TaskQueue
import Obase.Text

namespace Obase.DaemonBus
set_option autoImplicit true

/-- An object with all that it refers to. -/
inductive Object (β : Type) where
  | dict (v : β)
  | other

/-- What is in the queue of a subscription: a payload, by its address, or `_CLOSED`. -/
inductive Item where
  | payload (a : Nat)
  | closed
deriving DecidableEq

structure Subscription where
  topic : String
  queue : TaskQueue Item

/-- What a call raises. -/
inductive Failure where
  | valueError
  | typeError
deriving DecidableEq

/-- `InProcessDaemonBus`, with the objects of the process by their addresses, and the handles and
their queues by numbers. -/
structure Bus (β : Type) where
  heap : List (Object β)
  subscriptions : List Subscription
  subscribers : Dict String (List Nat)

/-- How a call of `receive` ends. -/
inductive Outcome (β : Type) where
  | returned (a : Nat) (v : β)
  | stop
  | invalid
deriving DecidableEq

namespace Bus

def init : Bus β := ⟨[], [], []⟩

/-- The value of a dictionary. -/
def dict (b : Bus β) (a : Nat) : Option β :=
  match b.heap[a]? with
  | some (.dict v) => some v
  | _ => none

def put (h : Nat) (item : Item) (b : Bus β) : Bus β :=
  { b with subscriptions := b.subscriptions.modify h fun s => { s with queue := s.queue.put item } }

/-- `await queue.put(deepcopy(payload))`, which does not wait as the queue has no bound. -/
def deliver (v : β) (b : Bus β) (h : Nat) : Bus β :=
  put h (.payload b.heap.length) { b with heap := b.heap ++ [.dict v] }

def subscribersOf (b : Bus β) (topic : String) : List Nat := (b.subscribers.lookup topic).getD []

def publish (b : Bus β) (topic : String) (a : Nat) : Except Failure Unit × Bus β :=
  if !Text.notBlank topic.toList then (.error .valueError, b)
  else
    match b.dict a with
    | none => (.error .typeError, b)
    | some v => (.ok (), (b.subscribersOf topic).foldl (deliver v) b)

/-- `subscribe`, whose handle is the next number. -/
def subscribe (b : Bus β) (topic : String) : Except Failure Unit × Bus β :=
  if !Text.notBlank topic.toList then (.error .valueError, b)
  else
    (.ok (), { b with
      subscriptions := b.subscriptions ++ [⟨topic, .empty⟩]
      subscribers := Dict.set topic (b.subscribersOf topic ++ [b.subscriptions.length])
        b.subscribers })

def unsubscribe (b : Bus β) (topic : String) (h : Nat) : Bus β :=
  match b.subscribers.lookup topic with
  | none => b
  | some hs =>
    let hs := hs.filter (· ≠ h)
    { b with subscribers :=
        if hs = [] then Dict.erase topic b.subscribers else Dict.set topic hs b.subscribers }

def close (b : Bus β) (h : Nat) : Bus β :=
  match b.subscriptions[h]? with
  | none => b
  | some s => put h .closed (b.unsubscribe s.topic h)

/-- What `receive` does with an item. -/
def outcome (b : Bus β) : Item → Outcome β
  | .closed => .stop
  | .payload a =>
    match b.dict a with
    | some v => .returned a v
    | none => .invalid

/-- The queue of a handle after a task has looked for an item. -/
def take (b : Bus β) (h : Nat) (result : Option Item × TaskQueue Item) :
    Option (Outcome β) × Bus β :=
  (result.1.map b.outcome,
    { b with subscriptions := b.subscriptions.modify h fun s => { s with queue := result.2 } })

end Bus

/-- The history of a handle: the payloads published for it, with their addresses and values then,
and how its calls of `receive` ended. -/
structure Entry (β : Type) where
  topic : String
  isOpen : Bool
  due : List (Nat × β)
  outcomes : List (Outcome β)

namespace Entry

def owe (topic : String) (p : Nat × β) (e : Entry β) : Entry β :=
  if e.topic = topic ∧ e.isOpen then { e with due := e.due ++ [p] } else e

def returned (e : Entry β) : List (Nat × Option β) :=
  e.outcomes.filterMap fun o =>
    match o with
    | .returned a v => some (a, some v)
    | _ => none

end Entry

/-- The payloads in a queue, by their addresses. -/
def addresses (items : List Item) : List Nat :=
  items.filterMap fun i =>
    match i with
    | .payload a => some a
    | .closed => none

def queued (dict : Nat → Option β) (items : List Item) : List (Nat × Option β) :=
  (addresses items).map fun a => (a, dict a)

/-- A payload is equal to the one that was published, and not the same object. -/
def Copied (p : Nat × β) (c : Nat × Option β) : Prop := c.2 = some p.2 ∧ c.1 ≠ p.1

/-- The bus with the program that uses it: the histories of its handles, the objects that it has,
and the number of its calls of `receive`. -/
structure World (β : Type) where
  bus : Bus β
  ledger : List (Entry β)
  held : List Nat
  calls : Nat

inductive Event (β : Type) where
  | make (o : Object β)
  | mutate (a : Nat) (v : β)
  | publish (topic : String) (a : Nat)
  | subscribe (topic : String)
  | receive (h : Nat)
  | resume (h r : Nat)
  | close (h : Nat)

namespace World

def init : World β := ⟨.init, [], [], 0⟩

/-- A call of `receive` has looked for an item. -/
def took (w : World β) (h : Nat) : Option (Outcome β) × Bus β → World β
  | (none, bus) => { w with bus := bus }
  | (some o, bus) =>
    { w with
      bus := bus
      ledger := w.ledger.modify h fun e => { e with outcomes := e.outcomes ++ [o] }
      held :=
        match o with
        | .returned a _ => w.held ++ [a]
        | _ => w.held }

def publish (w : World β) (topic : String) (a : Nat) : World β :=
  match w.bus.publish topic a, w.bus.dict a with
  | (.ok (), bus), some v => { w with bus := bus, ledger := w.ledger.map (Entry.owe topic (a, v)) }
  | (_, bus), _ => { w with bus := bus }

def subscribe (w : World β) (topic : String) : World β :=
  match w.bus.subscribe topic with
  | (.ok (), bus) => { w with bus := bus, ledger := w.ledger ++ [⟨topic, true, [], []⟩] }
  | (.error _, bus) => { w with bus := bus }

def close (w : World β) (h : Nat) : World β :=
  { w with
    bus := w.bus.close h
    ledger := w.ledger.modify h fun e => { e with isOpen := false } }

/-- What happens next. A task goes on where it waits only when it was woken, and the program changes
and publishes the objects that it has. -/
def step (w : World β) : Event β → Option (World β)
  | .make o =>
    some { w with
      bus := { w.bus with heap := w.bus.heap ++ [o] }
      held := w.held ++ [w.bus.heap.length] }
  | .mutate a v =>
    if a ∈ w.held ∧ (w.bus.dict a).isSome then
      some { w with bus := { w.bus with heap := w.bus.heap.set a (.dict v) } }
    else none
  | .publish topic a => if a ∈ w.held then some (w.publish topic a) else none
  | .subscribe topic => some (w.subscribe topic)
  | .receive h =>
    (w.bus.subscriptions[h]?).map fun s =>
      { w.took h (w.bus.take h (s.queue.get w.calls)) with calls := w.calls + 1 }
  | .resume h r =>
    (w.bus.subscriptions[h]?).bind fun s =>
      if r ∈ s.queue.woken then some (w.took h (w.bus.take h (s.queue.resume r))) else none
  | .close h => if h < w.bus.subscriptions.length then some (w.close h) else none

end World

/-- The subscription of a handle agrees with its history. -/
structure Link (dict : Nat → Option β) (s : Subscription) (e : Entry β) : Prop where
  topic : s.topic = e.topic
  marks : ∃ (as : List Nat) (n : Nat), s.queue.items = as.map .payload ++ List.replicate n .closed ∧
    (e.isOpen = true → n = 0)
  copies : List.Forall₂ Copied e.due (e.returned ++ queued dict s.queue.items)
  alert : s.queue.Alert
  pending : e.isOpen = false → s.queue.pending ≤ s.queue.items.length
  valid : .invalid ∉ e.outcomes

section
variable {dict dict' : Nat → Option β} {s : Subscription} {e : Entry β} {p : Nat × β}

@[simp] theorem addresses_append (xs ys : List Item) :
    addresses (xs ++ ys) = addresses xs ++ addresses ys :=
  List.filterMap_append

@[simp] theorem addresses_payloads (as : List Nat) : addresses (as.map .payload) = as := by
  rw [addresses, List.filterMap_map]
  exact List.filterMap_some

@[simp] theorem addresses_closed (n : Nat) : addresses (List.replicate n .closed) = [] := by
  rw [addresses, List.filterMap_eq_nil_iff]
  intro i hi
  rw [List.eq_of_mem_replicate hi]

theorem Link.congr (h : Link dict s e) (hd : ∀ a ∈ addresses s.queue.items, dict' a = dict a) :
    Link dict' s e := by
  refine { h with copies := ?_ }
  have he : queued dict' s.queue.items = queued dict s.queue.items :=
    List.map_congr_left fun a ha => by rw [hd a ha]
  rw [he]
  exact h.copies

theorem Link.put (h : Link dict s e) (ho : e.isOpen = true) {a : Nat}
    (hd : dict a = some p.2) (hne : a ≠ p.1) :
    Link dict { s with queue := s.queue.put (.payload a) } { e with due := e.due ++ [p] } := by
  obtain ⟨as, n, hitems, hn⟩ := h.marks
  obtain rfl := hn ho
  refine ⟨h.topic, ⟨as ++ [a], 0, ?_, fun _ => rfl⟩, ?_, h.alert.put _, ?_, h.valid⟩
  · rw [TaskQueue.put, hitems]
    simp
  · have hq : queued dict (s.queue.put (.payload a)).items =
        queued dict s.queue.items ++ [(a, dict a)] := by
      rw [TaskQueue.put, queued, addresses_append, List.map_append]
      rfl
    rw [hq, ← List.append_assoc]
    exact List.rel_append h.copies (.cons ⟨hd, hne⟩ .nil)
  · intro hc
    rw [ho] at hc
    cases hc

theorem Link.close (h : Link dict s e) (hp : s.queue.pending ≤ s.queue.items.length + 1) :
    Link dict { s with queue := s.queue.put .closed } { e with isOpen := false } := by
  obtain ⟨as, n, hitems, -⟩ := h.marks
  refine ⟨h.topic, ⟨as, n + 1, ?_, fun hc => (nomatch hc)⟩, ?_, h.alert.put _, fun _ => ?_,
    h.valid⟩
  · rw [TaskQueue.put, hitems, List.append_assoc, List.replicate_succ']
  · have hq : queued dict (s.queue.put .closed).items = queued dict s.queue.items := by
      have hnil : addresses [Item.closed] = [] := rfl
      rw [TaskQueue.put, queued, addresses_append, hnil, List.append_nil, queued]
    rw [hq]
    exact h.copies
  · rw [TaskQueue.pending_put, TaskQueue.put, List.length_append]
    exact hp

theorem exists_due {ps : List (Nat × β)} {cs : List (Nat × Option β)}
    (h : List.Forall₂ Copied ps cs) {c : Nat × Option β} (hc : c ∈ cs) :
    ∃ p ∈ ps, Copied p c := by
  induction h with
  | nil => cases hc
  | cons hp _ ih =>
    obtain rfl | hc := List.mem_cons.1 hc
    · exact ⟨_, .head _, hp⟩
    · obtain ⟨p, hm, hp⟩ := ih hc
      exact ⟨p, .tail _ hm, hp⟩

/-- An item that is taken is the next that is due, or the mark of a handle that is drained. -/
theorem Link.taken {b : Bus β} {x : Item} {items : List Item} {q : TaskQueue Item}
    (h : Link b.dict s e) (hs : s.queue.items = x :: items) (hq : q.items = items) (ha : q.Alert)
    (hp : e.isOpen = false → q.pending ≤ items.length) :
    Link b.dict { s with queue := q } { e with outcomes := e.outcomes ++ [b.outcome x] } ∧
      (b.outcome x = .stop ↔ addresses s.queue.items = []) ∧
      ∀ a v, b.outcome x = .returned a v → x = .payload a := by
  obtain ⟨as, n, hitems, hn⟩ := h.marks
  have hcopies := h.copies
  rw [hs] at hitems hcopies
  rw [hs]
  cases as with
  | nil =>
    obtain ⟨m, rfl⟩ : ∃ m, n = m + 1 := by
      cases n with
      | zero => cases hitems
      | succ m => exact ⟨m, rfl⟩
    rw [List.replicate_succ] at hitems
    obtain ⟨rfl, hrest⟩ : x = .closed ∧ items = List.replicate m .closed := by
      injection hitems with h₁ h₂
      exact ⟨h₁, h₂⟩
    have hstop : b.outcome .closed = .stop := rfl
    rw [hstop]
    refine ⟨⟨h.topic, ⟨[], m, hq.trans hrest, fun ho => ?_⟩, ?_, ha, ?_, ?_⟩, ?_, ?_⟩
    · cases hn ho
    · have hret : Entry.returned { e with outcomes := e.outcomes ++ [.stop] } = e.returned := by
        rw [Entry.returned, List.filterMap_append]
        exact List.append_nil _
      rw [hret]
      dsimp only
      rw [hq]
      exact hcopies
    · dsimp only
      rw [hq]
      exact hp
    · rw [List.mem_append, not_or]
      exact ⟨h.valid, by simp⟩
    · rw [hrest, ← List.replicate_succ, addresses_closed]
      exact iff_of_true rfl rfl
    · exact fun a v hv => nomatch hv
  | cons a as =>
    obtain ⟨rfl, hrest⟩ : x = .payload a ∧ items = as.map .payload ++ List.replicate n .closed := by
      injection hitems with h₁ h₂
      exact ⟨h₁, h₂⟩
    have hqueued : queued b.dict (.payload a :: items) = (a, b.dict a) :: queued b.dict items := rfl
    rw [hqueued] at hcopies
    obtain ⟨v, hv⟩ : ∃ v, b.dict a = some v := by
      obtain ⟨p, -, hp⟩ := exists_due hcopies (List.mem_append_right _ (.head _))
      exact ⟨p.2, hp.1⟩
    have hout : b.outcome (.payload a) = .returned a v := by
      rw [Bus.outcome, hv]
    rw [hout]
    refine ⟨⟨h.topic, ⟨as, n, hq.trans hrest, hn⟩, ?_, ha, ?_, ?_⟩, ?_, ?_⟩
    · have hret : Entry.returned { e with outcomes := e.outcomes ++ [.returned a v] } =
          e.returned ++ [(a, b.dict a)] := by
        rw [Entry.returned, List.filterMap_append, hv]
        rfl
      rw [hret, List.append_assoc]
      dsimp only
      rw [hq]
      exact hcopies
    · dsimp only
      rw [hq]
      exact hp
    · rw [List.mem_append, not_or]
      exact ⟨h.valid, by simp⟩
    · exact iff_of_false (fun he => nomatch he) fun he => nomatch he
    · intro a' v' he
      cases he
      rfl

end

end Obase.DaemonBus
