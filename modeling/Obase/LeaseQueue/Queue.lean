import Mathlib.Order.Lattice
import Obase.KeyedStore

namespace Obase.LeaseQueue
set_option autoImplicit true

inductive Status where
  | pending
  | leased
  | done
  | failed
deriving DecidableEq, Repr

/-- A row of `queue_items`; the payload is its JSON text. -/
structure QueueItem (T : Type) where
  itemId : String
  payload : String
  priority : Int
  status : Status
  workerId : Option String
  leaseId : Option String
  leaseUntil : Option T
  createdAt : T
  updatedAt : T
  attempts : Nat
deriving DecidableEq

abbrev Queue (T : Type) := Table (QueueItem.itemId (T := T))

/-- What `lease` returns. -/
structure Lease where
  itemId : String
  leaseId : String
  payload : String
  attempts : Nat
deriving DecidableEq

inductive QueueError where
  | integrityError
deriving DecidableEq

section
variable {T : Type}

/-- The row that `enqueue` inserts. -/
def QueueItem.new (now : T) (payload : String) (priority : Int) (itemId : String) : QueueItem T :=
  ⟨itemId, payload, priority, .pending, none, none, none, now, now, 0⟩

def QueueItem.handed [Add T] (now : T) (workerId : String) (timeoutS : T) (leaseId : String)
    (r : QueueItem T) : QueueItem T :=
  { r with status := .leased, workerId := some workerId, leaseId := some leaseId,
           leaseUntil := some (now + timeoutS), attempts := r.attempts + 1, updatedAt := now }

def QueueItem.renewed [Add T] (now timeoutS : T) (r : QueueItem T) : QueueItem T :=
  { r with leaseUntil := some (now + timeoutS) }

def QueueItem.settled (status : Status) (now : T) (r : QueueItem T) : QueueItem T :=
  { r with status := status, updatedAt := now }

def QueueItem.returned (now : T) (r : QueueItem T) : QueueItem T :=
  { r with status := .pending, workerId := none, leaseId := none, leaseUntil := none,
           updatedAt := now }

@[simp] theorem QueueItem.itemId_handed [Add T] (now : T) (workerId : String) (timeoutS : T)
    (leaseId : String) (r : QueueItem T) :
    (r.handed now workerId timeoutS leaseId).itemId = r.itemId := rfl

@[simp] theorem QueueItem.itemId_renewed [Add T] (now timeoutS : T) (r : QueueItem T) :
    (r.renewed now timeoutS).itemId = r.itemId := rfl

@[simp] theorem QueueItem.itemId_settled (status : Status) (now : T) (r : QueueItem T) :
    (r.settled status now).itemId = r.itemId := rfl

@[simp] theorem QueueItem.itemId_returned (now : T) (r : QueueItem T) :
    (r.returned now).itemId = r.itemId := rfl

/-- `WHERE lease_id = ?`, which no null meets. -/
def QueueItem.carries (leaseId : String) (r : QueueItem T) : Bool :=
  r.leaseId = some leaseId

/-- `WHERE lease_id = ? AND status = 'leased'`. -/
def QueueItem.holds (leaseId : String) (r : QueueItem T) : Bool :=
  r.leaseId = some leaseId ∧ r.status = .leased

/-- `status = 'leased' AND lease_until < ?`. -/
def QueueItem.expired [LinearOrder T] (now : T) (r : QueueItem T) : Bool :=
  r.status = .leased ∧ r.leaseUntil.any fun u => u < now

/-- The `WHERE` of the query in `lease`. -/
def QueueItem.available [LinearOrder T] (now : T) (maxAttempts : Int) (r : QueueItem T) : Bool :=
  r.status = .pending ∨ (r.expired now ∧ (r.attempts : Int) < maxAttempts)

theorem QueueItem.carries_iff {leaseId : String} {r : QueueItem T} :
    r.carries leaseId = true ↔ r.leaseId = some leaseId :=
  decide_eq_true_iff

theorem QueueItem.holds_iff {leaseId : String} {r : QueueItem T} :
    r.holds leaseId = true ↔ r.leaseId = some leaseId ∧ r.status = .leased :=
  decide_eq_true_iff

theorem QueueItem.status_of_expired [LinearOrder T] {now : T} {r : QueueItem T}
    (h : r.expired now = true) : r.status = .leased :=
  (of_decide_eq_true h).1

theorem QueueItem.available_iff [LinearOrder T] {now : T} {maxAttempts : Int} {r : QueueItem T} :
    r.available now maxAttempts = true ↔
      r.status = .pending ∨ (r.expired now = true ∧ (r.attempts : Int) < maxAttempts) :=
  decide_eq_true_iff

end

section
variable {T : Type}

/-- `item_id or f"task-…"`: an id that is not given, or empty, is generated. -/
def givenOr (itemId : Option String) (generated : String) : String :=
  match itemId with
  | some i => if i = "" then generated else i
  | none => generated

def Queue.enqueue (q : Queue T) (now : T) (payload : String) (priority : Int)
    (itemId : Option String) (generated : String) : Queue T × Except QueueError String :=
  let itemId := givenOr itemId generated
  match q.insert (.new now payload priority itemId) with
  | none => (q, .error .integrityError)
  | some q' => (q', .ok itemId)

/-- The rows that `ORDER BY priority DESC, created_at ASC LIMIT 1` may give; SQL leaves open which
of equally placed rows comes first. -/
def Queue.Selects [LinearOrder T] (q : Queue T) (now : T) (maxAttempts : Int) :
    Option (QueueItem T) → Prop
  | none => ∀ r ∈ q.rows, r.available now maxAttempts = false
  | some row => row ∈ q.rows ∧ row.available now maxAttempts = true ∧
      ∀ r ∈ q.rows, r.available now maxAttempts = true →
        r.priority < row.priority ∨ (r.priority = row.priority ∧ row.createdAt ≤ r.createdAt)

instance [LinearOrder T] (q : Queue T) (now : T) (maxAttempts : Int) (row : Option (QueueItem T)) :
    Decidable (q.Selects now maxAttempts row) :=
  match row with
  | none => inferInstanceAs (Decidable (∀ r ∈ q.rows, r.available now maxAttempts = false))
  | some row => inferInstanceAs (Decidable (row ∈ q.rows ∧ row.available now maxAttempts = true ∧
      ∀ r ∈ q.rows, r.available now maxAttempts = true →
        r.priority < row.priority ∨ (r.priority = row.priority ∧ row.createdAt ≤ r.createdAt)))

/-- `lease` on the row that the query gives. -/
def Queue.lease [Add T] (q : Queue T) (now : T) (workerId : String) (timeoutS : T)
    (leaseId : String) : Option (QueueItem T) → Queue T × Option Lease
  | none => (q, none)
  | some row =>
    (q.update (fun r => r.itemId = row.itemId) (QueueItem.handed now workerId timeoutS leaseId)
        (QueueItem.itemId_handed now workerId timeoutS leaseId),
      some ⟨row.itemId, leaseId, row.payload, row.attempts + 1⟩)

def Queue.renew [Add T] (q : Queue T) (now : T) (leaseId : String) (timeoutS : T) :
    Queue T × Bool :=
  (q.update (QueueItem.holds leaseId) (QueueItem.renewed now timeoutS)
      (QueueItem.itemId_renewed now timeoutS),
    0 < q.rowcount (QueueItem.holds leaseId))

def Queue.complete (q : Queue T) (now : T) (leaseId : String) : Queue T × Bool :=
  (q.update (QueueItem.carries leaseId) (QueueItem.settled .done now)
      (QueueItem.itemId_settled .done now),
    0 < q.rowcount (QueueItem.carries leaseId))

def Queue.release (q : Queue T) (now : T) (leaseId : String) : Queue T × Bool :=
  (q.update (QueueItem.holds leaseId) (QueueItem.returned now)
      (QueueItem.itemId_returned now),
    0 < q.rowcount (QueueItem.holds leaseId))

def Queue.fail (q : Queue T) (now : T) (leaseId : String) : Queue T × Bool :=
  (q.update (QueueItem.carries leaseId) (QueueItem.settled .failed now)
      (QueueItem.itemId_settled .failed now),
    0 < q.rowcount (QueueItem.carries leaseId))

/-- The update of one row that `sweep_expired` has found. -/
def Queue.sweepRow (now : T) (maxAttempts : Int) (q : Queue T) (row : QueueItem T) : Queue T :=
  if maxAttempts ≤ row.attempts then
    q.update (fun r => r.itemId = row.itemId) (QueueItem.settled .failed now)
      (QueueItem.itemId_settled .failed now)
  else q.update (fun r => r.itemId = row.itemId) (QueueItem.returned now)
      (QueueItem.itemId_returned now)

def Queue.sweepExpired [LinearOrder T] (q : Queue T) (now : T) (maxAttempts : Int) :
    Queue T × Nat :=
  let expired := (q.select (QueueItem.expired now)).rows
  (expired.foldl (Queue.sweepRow now maxAttempts) q, expired.length)

end

/-- A call of a worker with the reading of its clock and the ids that it generates. -/
inductive QueueCall (T : Type) where
  | enqueue (now : T) (payload : String) (priority : Int) (itemId : Option String)
      (generated : String)
  | lease (now : T) (workerId : String) (timeoutS : T) (maxAttempts : Int) (leaseId : String)
  | renew (now : T) (leaseId : String) (timeoutS : T)
  | complete (now : T) (leaseId : String)
  | release (now : T) (leaseId : String)
  | fail (now : T) (leaseId : String)
  | sweepExpired (now : T) (maxAttempts : Int)

inductive QueueResult where
  | enqueued (r : Except QueueError String)
  | leased (r : Option Lease)
  | matched (r : Bool)
  | swept (n : Nat)

section
variable {T : Type} [LinearOrder T] [Add T]

/-- A call on the queue, what it returns and the queue after it. -/
inductive QueueStep (q : Queue T) : QueueCall T → QueueResult → Queue T → Prop
  | enqueue (now : T) (payload : String) (priority : Int) (itemId : Option String)
      (generated : String) :
      QueueStep q (.enqueue now payload priority itemId generated)
        (.enqueued (q.enqueue now payload priority itemId generated).2)
        (q.enqueue now payload priority itemId generated).1
  | lease {now : T} {maxAttempts : Int} {row : Option (QueueItem T)}
      (h : q.Selects now maxAttempts row) (workerId : String) (timeoutS : T) (leaseId : String) :
      QueueStep q (.lease now workerId timeoutS maxAttempts leaseId)
        (.leased (q.lease now workerId timeoutS leaseId row).2)
        (q.lease now workerId timeoutS leaseId row).1
  | renew (now : T) (leaseId : String) (timeoutS : T) :
      QueueStep q (.renew now leaseId timeoutS) (.matched (q.renew now leaseId timeoutS).2)
        (q.renew now leaseId timeoutS).1
  | complete (now : T) (leaseId : String) :
      QueueStep q (.complete now leaseId) (.matched (q.complete now leaseId).2)
        (q.complete now leaseId).1
  | release (now : T) (leaseId : String) :
      QueueStep q (.release now leaseId) (.matched (q.release now leaseId).2)
        (q.release now leaseId).1
  | fail (now : T) (leaseId : String) :
      QueueStep q (.fail now leaseId) (.matched (q.fail now leaseId).2) (q.fail now leaseId).1
  | sweepExpired (now : T) (maxAttempts : Int) :
      QueueStep q (.sweepExpired now maxAttempts) (.swept (q.sweepExpired now maxAttempts).2)
        (q.sweepExpired now maxAttempts).1

end

/-- A lease that an item was handed out with, and the worker that got it. -/
structure HandOut where
  leaseId : String
  itemId : String
  workerId : String
deriving DecidableEq

def QueueResult.handOuts {T : Type} (r : QueueResult) : QueueCall T → List HandOut
  | .lease _ workerId _ _ _ =>
    match r with
    | .leased (some l) => [⟨l.leaseId, l.itemId, workerId⟩]
    | _ => []
  | _ => []

/-- The hand-outs of one item. -/
def handOutsOf (i : String) (hs : List HandOut) : List HandOut :=
  hs.filter fun h => h.itemId = i

theorem handOutsOf_append (i : String) (hs hs' : List HandOut) :
    handOutsOf i (hs ++ hs') = handOutsOf i hs ++ handOutsOf i hs' :=
  List.filter_append ..

theorem mem_handOutsOf {i : String} {h : HandOut} {hs : List HandOut} :
    h ∈ handOutsOf i hs ↔ h ∈ hs ∧ h.itemId = i := by
  rw [handOutsOf, List.mem_filter, decide_eq_true_iff]

section
variable {T : Type} [LinearOrder T] [Add T]

/-- What a call does to the row of one item, and the hand-outs of the item that it makes. -/
inductive ItemStep (i : String) :
    QueueCall T → Option (QueueItem T) → List HandOut → Option (QueueItem T) → Prop
  | same : ItemStep i c row [] row
  | enqueued : ItemStep i (.enqueue now payload priority itemId generated) none []
      (some (.new now payload priority i))
  | handed (ha : row.available now m = true) :
      ItemStep i (.lease now workerId timeoutS m leaseId) (some row) [⟨leaseId, i, workerId⟩]
        (some (row.handed now workerId timeoutS leaseId))
  | renewed (h : row.leaseId = some leaseId) (hs : row.status = .leased) :
      ItemStep i (.renew now leaseId timeoutS) (some row) [] (some (row.renewed now timeoutS))
  | completed (h : row.leaseId = some leaseId) :
      ItemStep i (.complete now leaseId) (some row) [] (some (row.settled .done now))
  | released (h : row.leaseId = some leaseId) (hs : row.status = .leased) :
      ItemStep i (.release now leaseId) (some row) [] (some (row.returned now))
  | failed (h : row.leaseId = some leaseId) :
      ItemStep i (.fail now leaseId) (some row) [] (some (row.settled .failed now))
  | dropped (h : row.expired now = true) (hm : m ≤ row.attempts) :
      ItemStep i (.sweepExpired now m) (some row) [] (some (row.settled .failed now))
  | swept (h : row.expired now = true) (hm : row.attempts < m) :
      ItemStep i (.sweepExpired now m) (some row) [] (some (row.returned now))

end

section
variable {T : Type} {q : Queue T}

theorem Queue.get_enqueue (q : Queue T) (now : T) (payload : String) (priority : Int)
    (itemId : Option String) (generated i : String) :
    (q.enqueue now payload priority itemId generated).1.get i = q.get i ∨
      q.get i = none ∧ (q.enqueue now payload priority itemId generated).1.get i =
        some (.new now payload priority i) := by
  unfold Queue.enqueue
  generalize givenOr itemId generated = j
  dsimp only
  cases h : q.insert (.new now payload priority j) with
  | none => exact .inl rfl
  | some q' =>
    dsimp only
    rw [Table.get_insert h]
    by_cases hi : j = i
    · subst hi
      exact .inr ⟨Table.get_of_insert h, if_pos rfl⟩
    · exact .inl (if_neg hi)

theorem Queue.get_lease_some [Add T] (q : Queue T) (now : T) (workerId : String) (timeoutS : T)
    (leaseId : String) (row : QueueItem T) (i : String) :
    (q.lease now workerId timeoutS leaseId (some row)).1.get i =
      if i = row.itemId then (q.get i).map (QueueItem.handed now workerId timeoutS leaseId)
      else q.get i :=
  Table.get_update_key _ _ _ (QueueItem.itemId_handed now workerId timeoutS leaseId) _

theorem Queue.get_sweepRow (now : T) (m : Int) (q : Queue T) (row : QueueItem T) (i : String) :
    (Queue.sweepRow now m q row).get i =
      if i = row.itemId then
        (q.get i).map fun r =>
          if m ≤ row.attempts then r.settled .failed now else r.returned now
      else q.get i := by
  rw [Queue.sweepRow]
  split
  · exact Table.get_update_key _ _ _ (QueueItem.itemId_settled .failed now) _
  · exact Table.get_update_key _ _ _ (QueueItem.itemId_returned now) _

/-- The updates for rows of different items reach each of these items once. -/
theorem Queue.get_foldl_sweepRow (now : T) (m : Int) (t q : Queue T) (i : String) :
    (t.rows.foldl (Queue.sweepRow now m) q).get i =
      match t.get i with
      | none => q.get i
      | some row => (q.get i).map fun r =>
          if m ≤ row.attempts then r.settled .failed now else r.returned now := by
  obtain ⟨rows, hn⟩ := t
  induction rows generalizing q with
  | nil => rfl
  | cons row rows ih =>
    obtain ⟨hrow, hrows⟩ := List.nodup_cons.1 hn
    rw [List.foldl_cons, ih _ hrows, Queue.get_sweepRow]
    by_cases hi : i = row.itemId
    · subst hi
      have hnone : (⟨rows, hrows⟩ : Queue T).get row.itemId = none :=
        Table.get_eq_none_iff.2 hrow
      have hsome : (⟨row :: rows, hn⟩ : Queue T).get row.itemId = some row :=
        Table.get_of_mem (List.mem_cons_self ..)
      rw [hnone, hsome]
      exact if_pos rfl
    · have htail : (⟨row :: rows, hn⟩ : Queue T).get i =
          (⟨rows, hrows⟩ : Queue T).get i :=
        List.find?_cons_of_neg (by simpa using Ne.symm hi)
      rw [htail, if_neg hi]

theorem Queue.get_sweepExpired [LinearOrder T] (q : Queue T) (now : T) (m : Int) (i : String) :
    (q.sweepExpired now m).1.get i = (q.get i).map fun r =>
      if r.expired now then
        if m ≤ r.attempts then r.settled .failed now else r.returned now
      else r := by
  rw [Queue.sweepExpired, Queue.get_foldl_sweepRow, Table.get_select]
  cases hr : q.get i with
  | none => rfl
  | some r =>
    rw [Option.filter_some]
    by_cases he : r.expired now = true
    · rw [if_pos he]
      dsimp only [Option.map_some]
      rw [if_pos he]
    · rw [if_neg he]
      dsimp only [Option.map_some]
      rw [if_neg he]

end

section
variable {T : Type} [LinearOrder T] [Add T] {q q' : Queue T} {c : QueueCall T} {r : QueueResult}

/-- An update of the rows that meet a condition is, on one item, a step of the item or nothing. -/
theorem ItemStep.of_update {i : String} {p : QueueItem T → Bool} {f : QueueItem T → QueueItem T}
    {row : Option (QueueItem T)}
    (h : ∀ r, p r = true → ItemStep i c (some r) [] (some (f r))) :
    ItemStep i c row [] (row.map fun r => if p r then f r else r) := by
  cases row with
  | none => exact .same
  | some r =>
    rw [Option.map_some]
    by_cases hp : p r = true
    · rw [if_pos hp]
      exact h r hp
    · rw [if_neg hp]
      exact .same

theorem QueueStep.item (h : QueueStep q c r q') (i : String) :
    ItemStep i c (q.get i) (handOutsOf i (r.handOuts c)) (q'.get i) := by
  cases h with
  | enqueue now payload priority itemId generated =>
    obtain h | ⟨hn, h⟩ := q.get_enqueue now payload priority itemId generated i
    · rw [h]
      exact .same
    · rw [h, hn]
      exact .enqueued
  | @lease now m row h workerId timeoutS leaseId =>
    cases row with
    | none => exact .same
    | some row =>
      obtain ⟨hm, ha, -⟩ := h
      rw [Queue.get_lease_some]
      by_cases hi : i = row.itemId
      · subst hi
        rw [if_pos rfl, Table.get_of_mem hm, Option.map_some]
        have hh : handOutsOf row.itemId [⟨leaseId, row.itemId, workerId⟩] =
            [⟨leaseId, row.itemId, workerId⟩] := List.filter_cons_of_pos (decide_eq_true rfl)
        exact hh ▸ .handed ha
      · rw [if_neg hi]
        have hh : handOutsOf i [⟨leaseId, row.itemId, workerId⟩] = [] :=
          List.filter_cons_of_neg (by simpa using Ne.symm hi)
        exact hh ▸ .same
  | renew now leaseId timeoutS =>
    rw [Queue.renew, Table.get_update]
    refine .of_update fun r hr => ?_
    obtain ⟨hl, hs⟩ := QueueItem.holds_iff.1 hr
    exact .renewed hl hs
  | complete now leaseId =>
    rw [Queue.complete, Table.get_update]
    exact .of_update fun r hr => .completed (QueueItem.carries_iff.1 hr)
  | release now leaseId =>
    rw [Queue.release, Table.get_update]
    refine .of_update fun r hr => ?_
    obtain ⟨hl, hs⟩ := QueueItem.holds_iff.1 hr
    exact .released hl hs
  | fail now leaseId =>
    rw [Queue.fail, Table.get_update]
    exact .of_update fun r hr => .failed (QueueItem.carries_iff.1 hr)
  | sweepExpired now m =>
    rw [Queue.get_sweepExpired]
    refine .of_update fun r hr => ?_
    split
    · rename_i hm
      exact .dropped hr hm
    · rename_i hm
      exact .swept hr (Int.not_le.1 hm)

end

end Obase.LeaseQueue
