import Mathlib.Data.List.Basic

namespace Obase
set_option autoImplicit true

/-- A queue without a bound, with the tasks that wait for an item and those that were woken and have
not run yet. -/
structure TaskQueue (α : Type) where
  items : List α
  waiting : List Nat
  woken : List Nat

namespace TaskQueue

def empty : TaskQueue α := ⟨[], [], []⟩

/-- An item is added, and the first task that waits is woken. -/
def put (x : α) (q : TaskQueue α) : TaskQueue α :=
  ⟨q.items ++ [x], q.waiting.tail, q.woken ++ q.waiting.head?.toList⟩

/-- A task takes the first item, or waits. -/
def get (r : Nat) (q : TaskQueue α) : Option α × TaskQueue α :=
  match q.items with
  | [] => (none, { q with waiting := q.waiting ++ [r] })
  | x :: items => (some x, { q with items := items })

/-- A task that was woken looks again. -/
def resume (r : Nat) (q : TaskQueue α) : Option α × TaskQueue α :=
  get r { q with woken := q.woken.erase r }

/-- The number of the tasks that have not taken an item yet. -/
def pending (q : TaskQueue α) : Nat := q.waiting.length + q.woken.length

/-- No task waits while there are more items than tasks were woken for. -/
def Alert (q : TaskQueue α) : Prop := q.items.length ≤ q.woken.length ∨ q.waiting = []

theorem empty_alert : Alert (empty : TaskQueue α) := .inr rfl

theorem Alert.put {q : TaskQueue α} (h : q.Alert) (x : α) : (q.put x).Alert := by
  obtain h | h := h
  · cases hw : q.waiting with
    | nil =>
      right
      rw [TaskQueue.put, hw]
      rfl
    | cons r rs =>
      left
      rw [TaskQueue.put, hw, List.length_append, List.length_append]
      exact Nat.add_le_add_right h 1
  · right
    rw [TaskQueue.put, h]
    rfl

theorem pending_put (x : α) (q : TaskQueue α) : (q.put x).pending = q.pending := by
  rw [pending, pending, put]
  cases q.waiting with
  | nil =>
    simp
  | cons r rs =>
    simp
    omega

theorem get_nil {q : TaskQueue α} (h : q.items = []) (r : Nat) :
    q.get r = (none, { q with waiting := q.waiting ++ [r] }) := by
  rw [get, h]

theorem get_cons {q : TaskQueue α} {x : α} {items : List α} (h : q.items = x :: items) (r : Nat) :
    q.get r = (some x, { q with items := items }) := by
  rw [get, h]

theorem Alert.get {q : TaskQueue α} (h : q.Alert) (r : Nat) : (q.get r).2.Alert := by
  cases hi : q.items with
  | nil =>
    rw [get_nil hi]
    left
    dsimp only
    rw [hi]
    exact Nat.zero_le _
  | cons x items =>
    rw [get_cons hi]
    refine h.imp_left fun h => ?_
    rw [hi] at h
    exact Nat.le_of_succ_le h

theorem length_erase_woken {q : TaskQueue α} {r : Nat} (hr : r ∈ q.woken) :
    (q.woken.erase r).length + 1 = q.woken.length := by
  rw [List.length_erase_of_mem hr]
  exact Nat.sub_add_cancel (List.length_pos_of_mem hr)

theorem resume_nil {q : TaskQueue α} (h : q.items = []) (r : Nat) :
    q.resume r = (none, { q with waiting := q.waiting ++ [r], woken := q.woken.erase r }) :=
  get_nil (q := { q with woken := q.woken.erase r }) h r

theorem resume_cons {q : TaskQueue α} {x : α} {items : List α} (h : q.items = x :: items)
    (r : Nat) : q.resume r = (some x, { q with items := items, woken := q.woken.erase r }) :=
  get_cons (q := { q with woken := q.woken.erase r }) h r

theorem Alert.resume {q : TaskQueue α} {r : Nat} (h : q.Alert) (hr : r ∈ q.woken) :
    (q.resume r).2.Alert := by
  cases hi : q.items with
  | nil =>
    rw [resume_nil hi]
    left
    dsimp only
    rw [hi]
    exact Nat.zero_le _
  | cons x items =>
    rw [resume_cons hi]
    refine h.imp_left fun h => ?_
    have hlen := length_erase_woken hr
    rw [hi, List.length_cons] at h
    dsimp only
    omega

/-- Where each task that is pending has an item, none of them waits. -/
theorem Alert.waiting_nil {q : TaskQueue α} (h : q.Alert) (hp : q.pending ≤ q.items.length) :
    q.waiting = [] := by
  obtain h | h := h
  · rw [pending] at hp
    exact List.eq_nil_of_length_eq_zero (by omega)
  · exact h

end TaskQueue
end Obase
