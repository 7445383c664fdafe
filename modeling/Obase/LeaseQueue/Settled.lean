import Mathlib.Data.Int.Order.Basic
import Obase.LeaseQueue.Queue
import Obase.Run

namespace Obase.LeaseQueue
set_option autoImplicit true

section
variable {T : Type} [LinearOrder T] [Add T]

def Queue.status (q : Queue T) (i : String) : Option Status :=
  (q.get i).map QueueItem.status

/-- Every item that is done, or failed, in the first queue is so in the second. -/
def Queue.Absorbs (q q' : Queue T) : Prop :=
  ∀ i, (q.status i = some .done → q'.status i = some .done) ∧
    (q.status i = some .failed → q'.status i = some .failed)

/-- The call completes no failed item and fails no done one. -/
def QueueCall.Guarded (q : Queue T) : QueueCall T → Prop
  | .complete _ leaseId => ∀ row ∈ q.rows, row.leaseId = some leaseId → row.status ≠ .failed
  | .fail _ leaseId => ∀ row ∈ q.rows, row.leaseId = some leaseId → row.status ≠ .done
  | _ => True

/-- One call on the queue, whatever it returns. -/
def QueueStep.Takes (q : Queue T) (c : QueueCall T) (q' : Queue T) : Prop :=
  ∃ r, QueueStep q c r q'

end

section
variable {T : Type}

theorem Queue.status_of_get {q : Queue T} {i : String} {row : QueueItem T} {s : Status}
    (h : q.get i = some row) (hs : row.status = s) : q.status i = some s := by
  rw [Queue.status, h, Option.map_some, hs]

theorem Queue.Absorbs.trans {q₁ q₂ q₃ : Queue T} (h : q₁.Absorbs q₂) (h' : q₂.Absorbs q₃) :
    q₁.Absorbs q₃ :=
  fun i => ⟨fun hd => (h' i).1 ((h i).1 hd), fun hf => (h' i).2 ((h i).2 hf)⟩

variable [LinearOrder T]

theorem QueueItem.status_of_available {now : T} {m : Int} {r : QueueItem T}
    (h : r.available now m = true) : r.status = .pending ∨ r.status = .leased := by
  obtain h | ⟨h, -⟩ := QueueItem.available_iff.1 h
  · exact .inl h
  · exact .inr (QueueItem.status_of_expired h)

variable [Add T]

/-- A call that is guarded leaves the status of a settled item as it is. -/
theorem ItemStep.settled {i : String} {c : QueueCall T} {q : Queue T} {row' : Option (QueueItem T)}
    {hs : List HandOut} {s : Status} (h : ItemStep i c (q.get i) hs row') (hc : c.Guarded q)
    (hi : q.status i = some s) (hd : s = .done ∨ s = .failed) :
    row'.map QueueItem.status = some s := by
  rw [Queue.status] at hi
  generalize hq : q.get i = row at h hi
  have hne : ∀ {r : QueueItem T}, row = some r → r.status = s := by
    intro r hr
    rw [hr, Option.map_some] at hi
    exact Option.some.inj hi
  cases h with
  | same => exact hi
  | enqueued => cases hi
  | handed ha =>
    obtain hs | hs := QueueItem.status_of_available ha
    · rw [← hne rfl, hs] at hd
      obtain hd | hd := hd <;> cases hd
    · rw [← hne rfl, hs] at hd
      obtain hd | hd := hd <;> cases hd
  | renewed hl hs => exact hi
  | completed hl =>
    obtain rfl | rfl := hd
    · rfl
    · exact (hc _ (Table.mem_of_get hq) hl (hne rfl)).elim
  | released hl hs =>
    rw [← hne rfl, hs] at hd
    obtain hd | hd := hd <;> cases hd
  | failed hl =>
    obtain rfl | rfl := hd
    · exact (hc _ (Table.mem_of_get hq) hl (hne rfl)).elim
    · rfl
  | dropped he hm =>
    rw [← hne rfl, QueueItem.status_of_expired he] at hd
    obtain hd | hd := hd <;> cases hd
  | swept he hm =>
    rw [← hne rfl, QueueItem.status_of_expired he] at hd
    obtain hd | hd := hd <;> cases hd

omit [LinearOrder T] [Add T] in
theorem Queue.get_complete {q : Queue T} {leaseId i : String} {row : QueueItem T} (now : T)
    (h : q.get i = some row) (hl : row.leaseId = some leaseId) :
    (q.complete now leaseId).1.get i = some (row.settled .done now) := by
  rw [Queue.complete, Table.get_update, h, Option.map_some, if_pos (QueueItem.carries_iff.2 hl)]

omit [LinearOrder T] [Add T] in
theorem Queue.get_fail {q : Queue T} {leaseId i : String} {row : QueueItem T} (now : T)
    (h : q.get i = some row) (hl : row.leaseId = some leaseId) :
    (q.fail now leaseId).1.get i = some (row.settled .failed now) := by
  rw [Queue.fail, Table.get_update, h, Option.map_some, if_pos (QueueItem.carries_iff.2 hl)]

theorem QueueStep.absorbs_iff {q q' : Queue T} {c : QueueCall T} {r : QueueResult}
    (h : QueueStep q c r q') : q.Absorbs q' ↔ c.Guarded q := by
  constructor
  · intro ha
    cases h with
    | complete now leaseId =>
      intro row hr hl hs
      have hr := Table.get_of_mem hr
      have hf := (ha row.itemId).2 (Queue.status_of_get hr hs)
      rw [Queue.status_of_get (Queue.get_complete now hr hl) rfl] at hf
      cases hf
    | fail now leaseId =>
      intro row hr hl hs
      have hr := Table.get_of_mem hr
      have hd := (ha row.itemId).1 (Queue.status_of_get hr hs)
      rw [Queue.status_of_get (Queue.get_fail now hr hl) rfl] at hd
      cases hd
    | enqueue | lease | renew | release | sweepExpired => trivial
  · intro hc i
    exact ⟨fun hi => (h.item i).settled hc hi (.inl rfl),
      fun hi => (h.item i).settled hc hi (.inr rfl)⟩

/-- In a run of the queue, settled items stay settled exactly when no call completes a failed item
or fails a done one. -/
theorem settled_absorbing_iff {q : Queue T} {l : List (QueueCall T × Queue T)}
    (h : Run.Trace QueueStep.Takes q l) :
    (q :: l.map Prod.snd).Pairwise Queue.Absorbs ↔
      Run.Always (fun q c => c.Guarded q) q l :=
  h.pairwise_iff (fun _ _ _ => Queue.Absorbs.trans) fun _ _ _ ⟨_, hs⟩ => hs.absorbs_iff

end

/-- A queue with one item. -/
def oneItem : Queue Int := (Queue.enqueue (.empty _) 0 "\x7b\x7d" 0 (some "a") "task").1

/-- Its item is handed out with lease L until 11. -/
def oneLease : Queue Int := (oneItem.lease 1 "w" 10 "L" (some (.new 0 "\x7b\x7d" 0 "a"))).1

theorem takes_enqueue : QueueStep.Takes (.empty _) (.enqueue 0 "\x7b\x7d" 0 (some "a") "task") oneItem :=
  ⟨_, .enqueue ..⟩

theorem takes_lease : QueueStep.Takes oneItem (.lease 1 "w" 10 1 "L") oneLease :=
  ⟨_, .lease (by decide +kernel) ..⟩

/-- The worker completes the item that it leased. -/
theorem settled_absorbing_complete :
    [.empty _, oneItem, oneLease, (oneLease.complete 2 "L").1].Pairwise Queue.Absorbs :=
  (settled_absorbing_iff (l := [(.enqueue 0 "\x7b\x7d" 0 (some "a") "task", oneItem),
    (.lease 1 "w" 10 1 "L", oneLease), (.complete 2 "L", (oneLease.complete 2 "L").1)])
    ⟨takes_enqueue, takes_lease, ⟨_, .complete ..⟩, trivial⟩).2
    ⟨trivial, trivial, show ∀ row ∈ oneLease.rows, _ from by decide +kernel, trivial⟩

def sweptLease : Queue Int := (oneLease.sweepExpired 20 1).1

/-- A sweep fails the item on its last attempt, and the slow worker then completes it. -/
theorem settled_not_absorbing :
    Run.Trace QueueStep.Takes (.empty _) [(.enqueue 0 "\x7b\x7d" 0 (some "a") "task", oneItem),
      (.lease 1 "w" 10 1 "L", oneLease), (.sweepExpired 20 1, sweptLease),
      (.complete 21 "L", (sweptLease.complete 21 "L").1)] ∧
    ¬ [.empty _, oneItem, oneLease, sweptLease, (sweptLease.complete 21 "L").1].Pairwise
      Queue.Absorbs := by
  refine ⟨⟨takes_enqueue, takes_lease, ⟨_, .sweepExpired ..⟩, ⟨_, .complete ..⟩, trivial⟩, ?_⟩
  intro h
  have hs : sweptLease.status "a" = some .failed := by decide +kernel
  have hc : (sweptLease.complete 21 "L").1.status "a" = some .done := by decide +kernel
  have ha : sweptLease.Absorbs (sweptLease.complete 21 "L").1 := by
    simp only [List.pairwise_cons, List.mem_singleton, forall_eq] at h
    exact h.2.2.2.1
  rw [(ha "a").2 hs] at hc
  cases hc

section
variable {T : Type}

/-- The item is as it was enqueued. -/
def QueueItem.SameJob (r r' : QueueItem T) : Prop :=
  r'.itemId = r.itemId ∧ r'.payload = r.payload ∧ r'.priority = r.priority ∧
    r'.createdAt = r.createdAt

/-- Every item is still there, with its payload, its priority and its creation time. -/
def Queue.Retains (q q' : Queue T) : Prop :=
  ∀ i row, q.get i = some row → ∃ row', q'.get i = some row' ∧ row.SameJob row'

theorem QueueItem.SameJob.refl (r : QueueItem T) : r.SameJob r := ⟨rfl, rfl, rfl, rfl⟩

theorem QueueItem.SameJob.trans {r₁ r₂ r₃ : QueueItem T} (h : r₁.SameJob r₂)
    (h' : r₂.SameJob r₃) : r₁.SameJob r₃ :=
  ⟨h'.1.trans h.1, h'.2.1.trans h.2.1, h'.2.2.1.trans h.2.2.1, h'.2.2.2.trans h.2.2.2⟩

theorem Queue.Retains.refl (q : Queue T) : q.Retains q :=
  fun _ row h => ⟨row, h, .refl row⟩

theorem Queue.Retains.trans {q₁ q₂ q₃ : Queue T} (h : q₁.Retains q₂) (h' : q₂.Retains q₃) :
    q₁.Retains q₃ := by
  intro i row hr
  obtain ⟨row', hr', hs⟩ := h i row hr
  obtain ⟨row'', hr'', hs'⟩ := h' i row' hr'
  exact ⟨row'', hr'', hs.trans hs'⟩

variable [LinearOrder T]

variable [Add T]

/-- No call takes an item away or changes what was enqueued. -/
theorem ItemStep.retained {i : String} {c : QueueCall T} {row row' : Option (QueueItem T)}
    {hs : List HandOut} (h : ItemStep i c row hs row') {r : QueueItem T} (hr : row = some r) :
    ∃ r', row' = some r' ∧ r.SameJob r' := by
  cases h with
  | same => exact ⟨r, hr, .refl r⟩
  | enqueued => cases hr
  | handed | renewed | completed | released | failed | dropped | swept =>
    cases hr
    exact ⟨_, rfl, rfl, rfl, rfl, rfl⟩

end

end Obase.LeaseQueue
