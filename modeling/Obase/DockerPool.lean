import Mathlib.Algebra.Order.Ring.Rat
import Obase.Dict
import Obase.Run

namespace Obase.DockerPool
set_option autoImplicit true

inductive PoolState where
  | running
  | idle
  | stopped
  | missing
deriving DecidableEq

/-- `ContainerSlot`, without what only `status` reads. -/
structure ContainerSlot where
  lastUsedAt : ℚ
  busy : Bool
  state : PoolState

/-- `DockerPool`, with its slots by the ids of their containers. -/
structure Pool where
  maxSize : Nat
  idleTimeoutS : ℚ
  namePrefix : String
  slots : Dict String ContainerSlot
  counter : Nat

/-- How a call of the docker API fails; a call that is cancelled ends with a `BaseException`. -/
inductive Failure where
  | notFound (text : String)
  | exception (text : String)
  | baseException (text : String)
deriving DecidableEq

def Failure.text : Failure → String
  | .notFound text => text
  | .exception text => text
  | .baseException text => text

/-- What a call raises: a `DockerPoolError`, or what the docker API raised. -/
inductive Raised where
  | poolError (message : String)
  | failure (e : Failure)
deriving DecidableEq

/-- Where a call waits, or how it has ended; only `acquire` returns a container. -/
inductive Task where
  | creating (name : String)
  | starting (c : String)
  | removing (c : String)
  | returned (c : Option String)
  | raised (e : Raised)
deriving DecidableEq

namespace Pool

/-- `DockerPool(max_size=..)`, `none` where it raises. -/
def new (maxSize : Int) (idleTimeoutS : ℚ) (namePrefix : String) : Option Pool :=
  if maxSize < 1 then none else some ⟨maxSize.toNat, idleTimeoutS, namePrefix, [], 0⟩

def notInstalled : Task :=
  .raised (.poolError "DockerPool requires the docker SDK (obase[docker])")

def unknown (c : String) : Task := .raised (.poolError ("unknown container: " ++ c))

def isFree (s : ContainerSlot) : Bool := !s.busy && s.state == .idle

/-- `name_hint or 'c'`. -/
def hintOf : Option String → String
  | some hint => if hint = "" then "c" else hint
  | none => "c"

/-- `acquire`, up to where it waits for `create`. -/
def acquire (p : Pool) (nameHint : Option String) (installed : Bool) (now : ℚ) : Task × Pool :=
  match p.slots.find? fun q => isFree q.2 with
  | some (c, s) =>
    (.returned (some c),
      { p with slots := Dict.set c { s with busy := true, lastUsedAt := now } p.slots })
  | none =>
    if p.maxSize ≤ p.slots.length then
      (.raised (.poolError ("pool full (" ++ toString p.maxSize ++
        ") and no idle container — release or wait before acquiring")), p)
    else if !installed then (notInstalled, p)
    else
      (.creating (p.namePrefix ++ "-" ++ hintOf nameHint ++ "-" ++ toString (p.counter + 1)),
        { p with counter := p.counter + 1 })

/-- `acquire` after `create`, up to where it waits for `start`. -/
def created (p : Pool) (now : ℚ) : Except Failure String → Task × Pool
  | .ok c => (.starting c, { p with slots := Dict.set c ⟨now, true, .running⟩ p.slots })
  | .error (.baseException text) => (.raised (.failure (.baseException text)), p)
  | .error e => (.raised (.poolError ("pool create failed: " ++ e.text)), p)

/-- `acquire` after `start`. -/
def started (p : Pool) (c : String) : Except Failure Unit → Task × Pool
  | .ok () => (.returned (some c), p)
  | .error (.baseException text) => (.raised (.failure (.baseException text)), p)
  | .error e =>
    (.raised (.poolError ("pool start failed: " ++ e.text)),
      { p with slots := Dict.erase c p.slots })

/-- `destroy`, up to where it waits for `remove`. -/
def destroy (p : Pool) (c : String) (installed : Bool) : Task × Pool :=
  match p.slots.lookup c with
  | none => (unknown c, p)
  | some _ => if !installed then (notInstalled, p) else (.removing c, p)

/-- `destroy` after `remove`. -/
def removed (p : Pool) (c : String) (r : Except Failure Unit) : Task × Pool :=
  (match r with
    | .ok () => .returned none
    | .error (.notFound _) => .returned none
    | .error e => .raised (.failure e),
    { p with slots := Dict.erase c p.slots })

/-- `release`, which reads the clock twice. -/
def release (p : Pool) (c : String) (installed : Bool) (now later : ℚ) : Task × Pool :=
  match p.slots.lookup c with
  | none => (unknown c, p)
  | some s =>
    let p := { p with slots := Dict.set c { s with busy := false, lastUsedAt := now } p.slots }
    if later - now > p.idleTimeoutS then p.destroy c installed else (.returned none, p)

end Pool

/-- A call with the container that it has put in the pool itself. -/
structure Call where
  own : Option String
  task : Task

/-- The pool with its calls in the order of their start, the ids that `create` has returned, the
containers that are with a caller, and those that a caller has given back. -/
structure World where
  pool : Pool
  calls : List Call
  ids : List String
  held : List String
  released : List String

inductive Event where
  | acquire (nameHint : Option String) (installed : Bool) (now : ℚ)
  | created (k : Nat) (now : ℚ) (r : Except Failure String)
  | started (k : Nat) (r : Except Failure Unit)
  | release (c : String) (installed : Bool) (now later : ℚ)
  | destroy (c : String) (installed : Bool)
  | removed (k : Nat) (r : Except Failure Unit)

namespace World

def init (p : Pool) : World := ⟨p, [], [], [], []⟩

/-- What the callers have after a call went on. -/
def hand (w : World) : Task → World
  | .returned (some c) => { w with held := c :: w.held, released := w.released.filter (· ≠ c) }
  | _ => w

def start (w : World) (r : Task × Pool) : World :=
  World.hand { w with pool := r.2, calls := w.calls ++ [⟨none, r.1⟩] } r.1

def goOn (w : World) (k : Nat) (own : Option String) (r : Task × Pool) : World :=
  World.hand { w with pool := r.2, calls := w.calls.set k ⟨own, r.1⟩ } r.1

def giveBack (w : World) (c : String) : World :=
  if c ∈ w.held ∧ (w.pool.slots.lookup c).isSome then
    { w with held := w.held.filter (· ≠ c), released := c :: w.released }
  else w

/-- What happens next: a call starts, or one goes on whose call of the docker API has ended. The
ids that `create` returns are fresh. -/
def step (w : World) : Event → Option World
  | .acquire nameHint installed now => some (w.start (w.pool.acquire nameHint installed now))
  | .created k now r =>
    match w.calls[k]?, r with
    | some ⟨_, .creating _⟩, .ok c =>
      if c ∈ w.ids then none
      else some (World.goOn { w with ids := c :: w.ids } k (some c) (w.pool.created now (.ok c)))
    | some ⟨own, .creating _⟩, .error e => some (w.goOn k own (w.pool.created now (.error e)))
    | _, _ => none
  | .started k r =>
    match w.calls[k]? with
    | some ⟨own, .starting c⟩ => some (w.goOn k own (w.pool.started c r))
    | _ => none
  | .release c installed now later =>
    some ((w.giveBack c).start (w.pool.release c installed now later))
  | .destroy c installed => some (w.start (w.pool.destroy c installed))
  | .removed k r =>
    match w.calls[k]? with
    | some ⟨own, .removing c⟩ => some (w.goOn k own (w.pool.removed c r))
    | _ => none

/-- A container of the pool that a caller had and gave back, and that is not about to be removed. -/
def Reusable (w : World) (c : String) : Prop :=
  c ∈ w.released ∧ c ∈ Dict.keys w.pool.slots ∧ ∀ call ∈ w.calls, call.task ≠ .removing c

/-- A call has put a container in the pool, and is in a state now. -/
def Owns (w : World) (k : Nat) (c : String) (t : Task) : Prop := w.calls[k]? = some ⟨some c, t⟩

end World

/-- What the pool owes its callers after a step. -/
structure Sound (w : World) (ev : Event) (w' : World) : Prop where
  bounded : w'.pool.slots.length ≤ w'.pool.maxSize
  exclusive : w'.held.Nodup
  reused : ∀ nameHint installed now, ev = .acquire nameHint installed now →
    (∃ c, w.Reusable c) →
      ∃ c own, w.Reusable c ∧ w'.calls = w.calls ++ [⟨own, .returned (some c)⟩]
  tidy : ∀ k c e, w'.Owns k c (.raised e) → c ∉ Dict.keys w'.pool.slots
  owned : ∀ c ∈ Dict.keys w'.pool.slots, ∃ k t, w'.Owns k c t

/-- No `acquire` starts while a container that was given back is in the pool, a slot is only put in
while there is room, and no `start` of a container that the pool holds ends by a
`BaseException`. -/
def Kept (w : World) : Event → Prop
  | .acquire _ _ _ => ∀ c, ¬ w.Reusable c
  | .created _ _ (.ok _) => w.pool.slots.length < w.pool.maxSize
  | .started k (.error (.baseException _)) =>
    ∀ c, w.Owns k c (.starting c) → c ∉ Dict.keys w.pool.slots
  | _ => True

structure Inv (w : World) : Prop where
  bounded : w.pool.slots.length ≤ w.pool.maxSize
  running : ∀ q ∈ w.pool.slots, q.2.state = .running
  held : w.held.Nodup
  heldIds : ∀ c ∈ w.held, c ∈ w.ids
  ownIds : ∀ k c t, w.Owns k c t → c ∈ w.ids
  single : ∀ k k' c t t', w.Owns k c t → w.Owns k' c t' → k = k'
  starting : ∀ (k : Nat) own c, w.calls[k]? = some ⟨own, .starting c⟩ → own = some c ∧ c ∉ w.held
  waiting : ∀ k c t, w.Owns k c t → (∀ name, t ≠ .creating name) ∧ ∀ c', t ≠ .removing c'
  tidy : ∀ k c e, w.Owns k c (.raised e) → c ∉ Dict.keys w.pool.slots
  owned : ∀ c ∈ Dict.keys w.pool.slots, ∃ k t, w.Owns k c t

section
variable {w : World}

@[simp] theorem World.hand_pool (t : Task) : (w.hand t).pool = w.pool := by
  rcases t with _ | _ | _ | (_ | c) | _
  all_goals rfl

@[simp] theorem World.hand_calls (t : Task) : (w.hand t).calls = w.calls := by
  rcases t with _ | _ | _ | (_ | c) | _
  all_goals rfl

@[simp] theorem World.hand_ids (t : Task) : (w.hand t).ids = w.ids := by
  rcases t with _ | _ | _ | (_ | c) | _
  all_goals rfl

/-- What the callers hold after a call went on is what they held, and what it has returned. -/
theorem World.hand_held (t : Task) :
    (w.hand t).held = w.held ∧ (∀ c, t ≠ .returned (some c)) ∨
      ∃ c, t = .returned (some c) ∧ (w.hand t).held = c :: w.held := by
  rcases t with _ | _ | _ | (_ | c) | _
  case returned.some => exact .inr ⟨c, rfl, rfl⟩
  all_goals exact .inl ⟨rfl, fun c hc => nomatch hc⟩

/-- A pool after a step that puts in no slot. -/
structure Narrowed (p p' : Pool) : Prop where
  maxSize : p'.maxSize = p.maxSize
  length : p'.slots.length ≤ p.slots.length
  keys : ∀ c ∈ Dict.keys p'.slots, c ∈ Dict.keys p.slots
  running : (∀ q ∈ p.slots, q.2.state = .running) → ∀ q ∈ p'.slots, q.2.state = .running

theorem Narrowed.refl (p : Pool) : Narrowed p p :=
  ⟨rfl, le_rfl, fun _ hc => hc, fun hr => hr⟩

theorem Narrowed.erase (p : Pool) (c : String) :
    Narrowed p { p with slots := Dict.erase c p.slots } where
  maxSize := rfl
  length := List.length_filter_le ..
  keys := fun _ hc => (Dict.mem_keys_erase.1 hc).1
  running := fun hr q hq => hr q (Dict.mem_erase.1 hq).1

theorem Narrowed.set {p : Pool} {c : String} {s : ContainerSlot} (hs : p.slots.lookup c = some s)
    (t : ContainerSlot) (ht : t.state = s.state) :
    Narrowed p { p with slots := Dict.set c t p.slots } where
  maxSize := rfl
  length := (Dict.length_set_of_mem (Dict.mem_keys_iff.2 ⟨s, hs⟩) t).le
  keys := by
    intro c' hc
    rcases Dict.mem_keys_set.1 hc with rfl | hc
    · exact Dict.mem_keys_iff.2 ⟨s, hs⟩
    · exact hc
  running := by
    intro hr q hq
    rcases Dict.mem_set hq with he | hq
    · rw [he, ht]
      exact hr _ (Dict.lookup_mem hs)
    · exact hr q hq

theorem Inv.init (p : Pool) (hp : p.slots = []) : Inv (World.init p) where
  bounded := by
    rw [World.init, hp]
    exact Nat.zero_le _
  running := by
    rw [World.init, hp]
    exact fun q hq => nomatch hq
  held := List.nodup_nil
  heldIds := fun c hc => nomatch hc
  ownIds := fun k c t ht => nomatch ht
  single := fun k k' c t t' ht => nomatch ht
  starting := fun k own c ht => nomatch ht
  waiting := fun k c t ht => nomatch ht
  tidy := fun k c e ht => nomatch ht
  owned := by
    rw [World.init, hp]
    exact fun c hc => nomatch hc

theorem World.owns_start {w' : World} {call : Call} (h : w'.calls = w.calls ++ [call])
    (hc : call.own = none) (k : Nat) (c : String) (t : Task) : w'.Owns k c t ↔ w.Owns k c t := by
  rw [World.Owns, World.Owns, h, Calls.getElem?_start]
  refine or_iff_right ?_
  rintro ⟨-, rfl⟩
  cases hc

/-- A call starts that puts in no slot and hands out no container. -/
theorem Inv.start (h : Inv w) {t : Task} {p : Pool} (hp : Narrowed w.pool p)
    (hs : ∀ c, t ≠ .starting c) (hr : ∀ c, t ≠ .returned (some c)) : Inv (w.start (t, p)) := by
  have hcalls : (w.start (t, p)).calls = w.calls ++ [⟨none, t⟩] := World.hand_calls t
  have hpool : (w.start (t, p)).pool = p := World.hand_pool t
  have hids : (w.start (t, p)).ids = w.ids := World.hand_ids t
  have hheld : (w.start (t, p)).held = w.held := by
    rcases World.hand_held (w := { w with pool := p, calls := w.calls ++ [⟨none, t⟩] }) t with
      ⟨he, -⟩ | ⟨c, hc, -⟩
    · exact he
    · exact (hr c hc).elim
  have howns := World.owns_start hcalls rfl
  refine ⟨?_, ?_, ?_, ?_, ?_, ?_, ?_, ?_, ?_, ?_⟩
  · rw [hpool, hp.maxSize]
    exact hp.length.trans h.bounded
  · rw [hpool]
    exact hp.running h.running
  · rw [hheld]
    exact h.held
  · rw [hheld, hids]
    exact h.heldIds
  · rw [hids]
    exact fun k c t' ht => h.ownIds k c t' ((howns k c t').1 ht)
  · exact fun k k' c t₁ t₂ h₁ h₂ => h.single k k' c t₁ t₂ ((howns ..).1 h₁) ((howns ..).1 h₂)
  · intro k own c hk
    rw [hheld]
    rw [hcalls, Calls.getElem?_start] at hk
    rcases hk with ⟨-, he⟩ | hk
    · cases he
      exact (hs c rfl).elim
    · exact h.starting k own c hk
  · exact fun k c t' ht => h.waiting k c t' ((howns ..).1 ht)
  · rw [hpool]
    exact fun k c e ht hc => h.tidy k c e ((howns ..).1 ht) (hp.keys c hc)
  · rw [hpool]
    intro c hc
    obtain ⟨k, t', ht⟩ := h.owned c (hp.keys c hc)
    exact ⟨k, t', (howns ..).2 ht⟩

theorem World.owns_goOn {w' : World} {k : Nat} {call₀ : Call} {own : Option String} {t : Task}
    (hk : w.calls[k]? = some call₀) (h : w'.calls = w.calls.set k ⟨own, t⟩) (j : Nat) (c : String)
    (t' : Task) :
    w'.Owns j c t' ↔ (j = k ∧ own = some c ∧ t' = t) ∨ (j ≠ k ∧ w.Owns j c t') := by
  rw [World.Owns, World.Owns, h, Calls.getElem?_goOn hk, Call.mk.injEq, eq_comm (a := own)]

/-- A call goes on that puts in no slot. -/
theorem Inv.goOn (h : Inv w) {k : Nat} {own : Option String} {t₀ t : Task} {p : Pool}
    (hk : w.calls[k]? = some ⟨own, t₀⟩) (hp : Narrowed w.pool p)
    (hend : (∃ c, t = .returned c) ∨ ∃ e, t = .raised e)
    (hr : ∀ c, t = .returned (some c) → t₀ = .starting c)
    (htidy : ∀ c e, own = some c → t = .raised e → c ∉ Dict.keys p.slots) :
    Inv (w.goOn k own (t, p)) := by
  have hcalls : (w.goOn k own (t, p)).calls = w.calls.set k ⟨own, t⟩ := World.hand_calls t
  have hpool : (w.goOn k own (t, p)).pool = p := World.hand_pool t
  have hids : (w.goOn k own (t, p)).ids = w.ids := World.hand_ids t
  have hheld := World.hand_held (w := { w with pool := p, calls := w.calls.set k ⟨own, t⟩ }) t
  have howns := World.owns_goOn hk hcalls
  have hown : ∀ c, t = .returned (some c) → own = some c ∧ c ∉ w.held := by
    intro c hc
    obtain rfl := hr c hc
    exact h.starting k own c hk
  have howned {c : String} (he : own = some c) : w.Owns k c t₀ := by
    rw [World.Owns, ← he]
    exact hk
  refine ⟨?_, ?_, ?_, ?_, ?_, ?_, ?_, ?_, ?_, ?_⟩
  · rw [hpool, hp.maxSize]
    exact hp.length.trans h.bounded
  · rw [hpool]
    exact hp.running h.running
  · rcases hheld with ⟨he, -⟩ | ⟨c, hc, he⟩
    · exact he ▸ h.held
    · exact he ▸ List.nodup_cons.2 ⟨(hown c hc).2, h.held⟩
  · rw [hids]
    intro c hc
    rcases hheld with ⟨he, -⟩ | ⟨c', hc', he⟩
    · exact h.heldIds c (he ▸ hc)
    · rcases List.mem_cons.1 (he ▸ hc) with rfl | hc
      · exact h.ownIds k c t₀ (howned (hown c hc').1)
      · exact h.heldIds c hc
  · rw [hids]
    intro j c t' ht
    rcases (howns j c t').1 ht with ⟨-, rfl, -⟩ | ⟨-, ht⟩
    · exact h.ownIds k c t₀ hk
    · exact h.ownIds j c t' ht
  · intro j j' c t₁ t₂ h₁ h₂
    rcases (howns j c t₁).1 h₁ with ⟨hj, ho, -⟩ | ⟨-, ho⟩
    · rcases (howns j' c t₂).1 h₂ with ⟨hj', -, -⟩ | ⟨-, ho'⟩
      · exact hj.trans hj'.symm
      · exact hj.trans (h.single k j' c t₀ t₂ (howned ho) ho')
    · rcases (howns j' c t₂).1 h₂ with ⟨hj', ho', -⟩ | ⟨-, ho'⟩
      · exact (h.single j k c t₁ t₀ ho (howned ho')).trans hj'.symm
      · exact h.single j j' c t₁ t₂ ho ho'
  · intro j own' c hj
    rw [hcalls, Calls.getElem?_goOn hk] at hj
    rcases hj with ⟨-, he⟩ | ⟨hne, hj⟩
    · cases he
      rcases hend with ⟨c', he⟩ | ⟨e, he⟩
      · cases he
      · cases he
    · obtain ⟨rfl, hnot⟩ := h.starting j own' c hj
      refine ⟨rfl, fun hc => ?_⟩
      rcases hheld with ⟨he, -⟩ | ⟨c', hc', he⟩
      · exact hnot (he ▸ hc)
      · rcases List.mem_cons.1 (he ▸ hc) with rfl | hc
        · exact hne (h.single j k c _ _ hj (howned (hown c hc').1))
        · exact hnot hc
  · intro j c t' ht
    rcases (howns j c t').1 ht with ⟨-, -, rfl⟩ | ⟨-, ht⟩
    · rcases hend with ⟨c', rfl⟩ | ⟨e, rfl⟩
      · exact ⟨fun _ he => (nomatch he), fun _ he => (nomatch he)⟩
      · exact ⟨fun _ he => (nomatch he), fun _ he => (nomatch he)⟩
    · exact h.waiting j c t' ht
  · rw [hpool]
    intro j c e ht
    rcases (howns j c _).1 ht with ⟨-, ho, he⟩ | ⟨-, ht⟩
    · exact htidy c e ho he.symm
    · exact fun hc => h.tidy j c e ht (hp.keys c hc)
  · rw [hpool]
    intro c hc
    obtain ⟨j, t', ht⟩ := h.owned c (hp.keys c hc)
    by_cases hj : j = k
    · subst hj
      obtain ⟨rfl, rfl⟩ := Call.mk.inj (Option.some.inj (hk.symm.trans ht))
      exact ⟨j, t, (howns j c t).2 (.inl ⟨rfl, rfl, rfl⟩)⟩
    · exact ⟨j, t', (howns j c t').2 (.inr ⟨hj, ht⟩)⟩

theorem Inv.fresh (h : Inv w) {c : String} (hc : c ∉ w.ids) : c ∉ Dict.keys w.pool.slots := by
  intro hm
  obtain ⟨j, t, ht⟩ := h.owned c hm
  exact hc (h.ownIds j c t ht)

/-- A call goes on that puts its container in the pool. -/
theorem Inv.created (h : Inv w) {k : Nat} {own : Option String} {name c : String}
    (hk : w.calls[k]? = some ⟨own, .creating name⟩) (hc : c ∉ w.ids) (now : ℚ)
    (hroom : w.pool.slots.length < w.pool.maxSize) :
    Inv (World.goOn { w with ids := c :: w.ids } k (some c) (w.pool.created now (.ok c))) := by
  have hfresh := h.fresh hc
  have hown : own = none := by
    cases own with
    | none => rfl
    | some c' => exact ((h.waiting k c' _ hk).1 name rfl).elim
  subst hown
  let w' := World.goOn { w with ids := c :: w.ids } k (some c) (w.pool.created now (.ok c))
  have hcalls : w'.calls = w.calls.set k ⟨some c, .starting c⟩ := rfl
  have hslots : w'.pool.slots = Dict.set c ⟨now, true, .running⟩ w.pool.slots := rfl
  have howns := World.owns_goOn hk hcalls
  change Inv w'
  refine ⟨?_, ?_, ?_, ?_, ?_, ?_, ?_, ?_, ?_, ?_⟩
  · rw [hslots, Dict.length_set_of_not_mem hfresh]
    exact hroom
  · rw [hslots]
    intro q hq
    rcases Dict.mem_set hq with he | hq
    · rw [he]
    · exact h.running q hq
  · exact h.held
  · exact fun c' hc' => List.mem_cons_of_mem _ (h.heldIds c' hc')
  · intro j c' t ht
    rcases (howns j c' t).1 ht with ⟨-, he, -⟩ | ⟨-, ht⟩
    · exact List.mem_cons.2 (.inl (Option.some.inj he).symm)
    · exact List.mem_cons_of_mem _ (h.ownIds j c' t ht)
  · intro j j' c' t₁ t₂ h₁ h₂
    rcases (howns j c' t₁).1 h₁ with ⟨hj, ho, -⟩ | ⟨-, ho⟩
    · rcases (howns j' c' t₂).1 h₂ with ⟨hj', -, -⟩ | ⟨-, ho'⟩
      · exact hj.trans hj'.symm
      · cases ho
        exact (hc (h.ownIds j' c t₂ ho')).elim
    · rcases (howns j' c' t₂).1 h₂ with ⟨-, ho', -⟩ | ⟨-, ho'⟩
      · cases ho'
        exact (hc (h.ownIds j c t₁ ho)).elim
      · exact h.single j j' c' t₁ t₂ ho ho'
  · intro j own' c' hj
    rw [hcalls, Calls.getElem?_goOn hk] at hj
    rcases hj with ⟨-, he⟩ | ⟨-, hj⟩
    · cases he
      exact ⟨rfl, fun hm => hc (h.heldIds c hm)⟩
    · exact h.starting j own' c' hj
  · intro j c' t ht
    rcases (howns j c' t).1 ht with ⟨-, -, rfl⟩ | ⟨-, ht⟩
    · exact ⟨fun _ he => (nomatch he), fun _ he => (nomatch he)⟩
    · exact h.waiting j c' t ht
  · rw [hslots]
    intro j c' e ht hm
    rcases (howns j c' _).1 ht with ⟨-, -, he⟩ | ⟨-, ho⟩
    · cases he
    · rcases Dict.mem_keys_set.1 hm with rfl | hm
      · exact hc (h.ownIds j c' _ ho)
      · exact h.tidy j c' e ho hm
  · rw [hslots]
    intro c' hm
    rcases Dict.mem_keys_set.1 hm with rfl | hm
    · exact ⟨k, .starting c', (howns k c' _).2 (.inl ⟨rfl, rfl, rfl⟩)⟩
    · obtain ⟨j, t, ht⟩ := h.owned c' hm
      refine ⟨j, t, (howns j c' t).2 (.inr ⟨?_, ht⟩)⟩
      rintro rfl
      cases hk.symm.trans ht

theorem Inv.giveBack (h : Inv w) (c : String) : Inv (w.giveBack c) := by
  rw [World.giveBack]
  split
  · have hsub {c' : String} (hc : c' ∈ w.held.filter (· ≠ c)) : c' ∈ w.held :=
      (List.mem_filter.1 hc).1
    exact { h with
      held := h.held.filter _
      heldIds := fun c' hc => h.heldIds c' (hsub hc)
      starting := fun k own c' hk =>
        ⟨(h.starting k own c' hk).1, fun hc => (h.starting k own c' hk).2 (hsub hc)⟩ }
  · exact h

theorem World.giveBack_pool (c : String) : (w.giveBack c).pool = w.pool := by
  rw [World.giveBack]
  split
  · rfl
  · rfl

/-- No slot is idle, so `acquire` hands out no container at once. -/
theorem Inv.acquire (h : Inv w) (nameHint : Option String) (installed : Bool) (now : ℚ) :
    Narrowed w.pool (w.pool.acquire nameHint installed now).2 ∧
      (∀ c, (w.pool.acquire nameHint installed now).1 ≠ .starting c) ∧
      ∀ c, (w.pool.acquire nameHint installed now).1 ≠ .returned (some c) := by
  have hnone : (w.pool.slots.find? fun q => Pool.isFree q.2) = none := by
    rw [List.find?_eq_none]
    intro q hq hf
    rw [Pool.isFree, h.running q hq, Bool.and_eq_true] at hf
    cases hf.2
  rw [Pool.acquire, hnone]
  dsimp only
  split
  · exact ⟨.refl _, fun _ he => (nomatch he), fun _ he => (nomatch he)⟩
  · split
    · exact ⟨.refl _, fun _ he => (nomatch he), fun _ he => (nomatch he)⟩
    · exact ⟨⟨rfl, le_rfl, fun _ hc => hc, fun hr => hr⟩, fun _ he => (nomatch he),
        fun _ he => (nomatch he)⟩

theorem destroy_plain (p : Pool) (c : String) (installed : Bool) :
    (p.destroy c installed).2 = p ∧ (∀ c', (p.destroy c installed).1 ≠ .starting c') ∧
      ∀ c', (p.destroy c installed).1 ≠ .returned (some c') := by
  rw [Pool.destroy]
  split
  · exact ⟨rfl, fun _ he => (nomatch he), fun _ he => (nomatch he)⟩
  · split
    · exact ⟨rfl, fun _ he => (nomatch he), fun _ he => (nomatch he)⟩
    · exact ⟨rfl, fun _ he => (nomatch he), fun _ he => (nomatch he)⟩

theorem release_plain (p : Pool) (c : String) (installed : Bool) (now later : ℚ) :
    Narrowed p (p.release c installed now later).2 ∧
      (∀ c', (p.release c installed now later).1 ≠ .starting c') ∧
      ∀ c', (p.release c installed now later).1 ≠ .returned (some c') := by
  rw [Pool.release]
  split
  · exact ⟨.refl _, fun _ he => (nomatch he), fun _ he => (nomatch he)⟩
  · rename_i s hs
    have hn := Narrowed.set hs { s with busy := false, lastUsedAt := now } rfl
    dsimp only
    split
    · obtain ⟨he, hplain⟩ := destroy_plain
        { p with slots := Dict.set c { s with busy := false, lastUsedAt := now } p.slots } c
        installed
      exact ⟨he.symm ▸ hn, hplain⟩
    · exact ⟨hn, fun _ he => (nomatch he), fun _ he => (nomatch he)⟩

theorem Inv.started (h : Inv w) {k : Nat} {own : Option String} {c : String}
    (hk : w.calls[k]? = some ⟨own, .starting c⟩) (r : Except Failure Unit)
    (ha : Kept w (.started k r)) : Inv (w.goOn k own (w.pool.started c r)) := by
  obtain ⟨rfl, -⟩ := h.starting k own c hk
  cases r with
  | ok u =>
    refine h.goOn hk (.refl _) (.inl ⟨_, rfl⟩) ?_ fun _ _ _ he => (nomatch he)
    intro c' hc'
    cases hc'
    rfl
  | error e =>
    cases e with
    | baseException text =>
      refine h.goOn hk (.refl _) (.inr ⟨_, rfl⟩) (fun _ he => (nomatch he)) ?_
      intro c' e hc' _
      cases hc'
      exact ha c hk
    | notFound text =>
      refine h.goOn hk (.erase _ c) (.inr ⟨_, rfl⟩) (fun _ he => (nomatch he)) ?_
      intro c' e hc' _ hm
      cases hc'
      exact (Dict.mem_keys_erase.1 hm).2 rfl
    | exception text =>
      refine h.goOn hk (.erase _ c) (.inr ⟨_, rfl⟩) (fun _ he => (nomatch he)) ?_
      intro c' e hc' _ hm
      cases hc'
      exact (Dict.mem_keys_erase.1 hm).2 rfl

theorem Inv.createFailed (h : Inv w) {k : Nat} {own : Option String} {name : String}
    (hk : w.calls[k]? = some ⟨own, .creating name⟩) (now : ℚ) (e : Failure) :
    Inv (w.goOn k own (w.pool.created now (.error e))) := by
  have hown : ∀ c, own ≠ some c := by
    rintro c rfl
    exact (h.waiting k c _ hk).1 name rfl
  cases e with
  | _ =>
    exact h.goOn hk (.refl _) (.inr ⟨_, rfl⟩) (fun _ he => (nomatch he))
      fun c _ hc => (hown c hc).elim

theorem Inv.removed (h : Inv w) {k : Nat} {own : Option String} {c : String}
    (hk : w.calls[k]? = some ⟨own, .removing c⟩) (r : Except Failure Unit) :
    Inv (w.goOn k own (w.pool.removed c r)) := by
  have hown : ∀ c', own ≠ some c' := by
    rintro c' rfl
    exact (h.waiting k c' _ hk).2 c rfl
  rcases r with (_ | _ | _) | _
  case error.notFound =>
    exact h.goOn hk (.erase _ c) (.inl ⟨_, rfl⟩) (fun _ he => (nomatch he))
      fun c _ hc => (hown c hc).elim
  case ok =>
    exact h.goOn hk (.erase _ c) (.inl ⟨_, rfl⟩) (fun _ he => (nomatch he))
      fun c _ hc => (hown c hc).elim
  all_goals
    exact h.goOn hk (.erase _ c) (.inr ⟨_, rfl⟩) (fun _ he => (nomatch he))
      fun c _ hc => (hown c hc).elim

/-- A call goes on after `create`. -/
theorem World.step_created {k : Nat} {now : ℚ} {r : Except Failure String} {w' : World}
    (hs : w.step (.created k now r) = some w') :
    ∃ own name, w.calls[k]? = some ⟨own, .creating name⟩ ∧
      ((∃ c, r = .ok c ∧ c ∉ w.ids ∧
          w' = World.goOn { w with ids := c :: w.ids } k (some c) (w.pool.created now (.ok c))) ∨
        ∃ e, r = .error e ∧ w' = w.goOn k own (w.pool.created now (.error e))) := by
  simp only [World.step] at hs
  cases hk : w.calls[k]? with
  | none =>
    rw [hk] at hs
    cases hs
  | some call =>
    obtain ⟨own, t⟩ := call
    cases t with
    | creating name =>
      refine ⟨own, name, rfl, ?_⟩
      rw [hk] at hs
      cases r with
      | error e => exact .inr ⟨e, rfl, (Option.some.inj hs).symm⟩
      | ok c =>
        dsimp only at hs
        by_cases hc : c ∈ w.ids
        · rw [if_pos hc] at hs
          cases hs
        · rw [if_neg hc] at hs
          exact .inl ⟨c, rfl, hc, (Option.some.inj hs).symm⟩
    | _ =>
      rw [hk] at hs
      cases hs

theorem Inv.step (h : Inv w) {ev : Event} {w' : World} (ha : Kept w ev)
    (hs : w.step ev = some w') : Inv w' := by
  cases ev with
  | acquire nameHint installed now =>
    cases hs
    obtain ⟨hn, hs, hr⟩ := h.acquire nameHint installed now
    exact h.start hn hs hr
  | created k now r =>
    obtain ⟨own, name, hk, ⟨c, rfl, hc, rfl⟩ | ⟨e, rfl, rfl⟩⟩ := World.step_created hs
    · exact h.created hk hc now ha
    · exact h.createFailed hk now e
  | started k r =>
    rw [World.step] at hs
    split at hs
    · rename_i own c hk
      cases hs
      exact h.started hk r ha
    · cases hs
  | release c installed now later =>
    cases hs
    obtain ⟨hn, hs, hr⟩ := release_plain w.pool c installed now later
    exact (h.giveBack c).start ((World.giveBack_pool c).symm ▸ hn) hs hr
  | destroy c installed =>
    cases hs
    obtain ⟨he, hs, hr⟩ := destroy_plain w.pool c installed
    have hn := Narrowed.refl w.pool
    exact h.start (he.symm ▸ hn) hs hr
  | removed k r =>
    rw [World.step] at hs
    split at hs
    · rename_i own c hk
      cases hs
      exact h.removed hk r
    · cases hs

theorem Inv.sound (h : Inv w) {ev : Event} {w' : World} (ha : Kept w ev)
    (hs : w.step ev = some w') : Sound w ev w' := by
  have h' := h.step ha hs
  refine ⟨h'.bounded, h'.held, ?_, h'.tidy, h'.owned⟩
  rintro nameHint installed now rfl ⟨c, hc⟩
  exact (ha c hc).elim

theorem Inv.kept (h : Inv w) {ev : Event} {w' : World} (hs : w.step ev = some w')
    (hw : Sound w ev w') : Kept w ev := by
  cases ev with
  | acquire nameHint installed now =>
    intro c hc
    cases hs
    obtain ⟨c', own, -, he⟩ := hw.reused nameHint installed now rfl ⟨c, hc⟩
    rw [World.start, World.hand_calls] at he
    have ht := (Call.mk.inj (List.singleton_inj.1 (List.append_cancel_left he))).2
    exact (h.acquire nameHint installed now).2.2 c' ht
  | created k now r =>
    cases r with
    | error e => trivial
    | ok c =>
      obtain ⟨own, name, hk, ⟨c', he, hc, rfl⟩ | ⟨e, he, -⟩⟩ := World.step_created hs
      · cases he
        have hb := hw.bounded
        change (Dict.set c _ w.pool.slots).length ≤ w.pool.maxSize at hb
        rw [Dict.length_set_of_not_mem (h.fresh hc)] at hb
        exact hb
      · cases he
  | started k r =>
    rcases r with (_ | _ | text) | _
    case error.baseException =>
      intro c hk hm
      rw [World.Owns] at hk
      simp only [World.step, hk] at hs
      cases hs
      refine hw.tidy k c (.failure (.baseException text)) ?_ hm
      exact (World.owns_goOn hk rfl k c _).2 (.inl ⟨rfl, rfl, rfl⟩)
    all_goals trivial
  | release c installed now later => trivial
  | destroy c installed => trivial
  | removed k r => trivial

/-- A run of a new pool keeps what the pool owes its callers exactly if no container that was given
back is in the pool when `acquire` is called, the pool still has room whenever a container is put
in, and no `start` of a container of the pool ends by a `BaseException`. -/
theorem bounded_iff_kept (maxSize : Int) (idleTimeoutS : ℚ) (namePrefix : String) {p : Pool}
    (hp : Pool.new maxSize idleTimeoutS namePrefix = some p) {l : List (Event × World)}
    (ht : Run.Trace (fun w ev w' => w.step ev = some w') (World.init p) l) :
    Run.Along Sound (World.init p) l ↔ Run.Always Kept (World.init p) l := by
  have hslots : p.slots = [] := by
    rw [Pool.new] at hp
    split at hp
    · cases hp
    · cases hp
      rfl
  refine ht.along_iff_while (Inv.init p hslots) fun w ev w' h hs => ?_
  exact ⟨fun ha => h.step ha hs, fun hw => h.kept hs hw, fun ha => h.sound ha hs⟩

end

/-- The worlds that the events lead to, as long as they can happen. -/
def World.runs (w : World) : List Event → List (Event × World)
  | [] => []
  | ev :: evs =>
    match w.step ev with
    | none => []
    | some w' => (ev, w') :: w'.runs evs

theorem World.runs_trace (w : World) (evs : List Event) :
    Run.Trace (fun w ev w' => w.step ev = some w') w (w.runs evs) := by
  induction evs generalizing w with
  | nil => trivial
  | cons ev evs ih =>
    rw [World.runs]
    split
    · trivial
    · rename_i w' hs
      exact ⟨hs, ih w'⟩

/-- A container is taken and removed before the next one is put in. -/
theorem removed_bounded :
    Run.Along Sound (World.init ⟨1, 600, "obase-pool", [], 0⟩)
      (World.runs (World.init ⟨1, 600, "obase-pool", [], 0⟩)
        [.acquire none true 0, .created 0 1 (.ok "c1"), .started 0 (.ok ()),
          .destroy "c1" true, .removed 1 (.ok ()), .acquire none true 3,
          .created 2 4 (.ok "c2")]) := by
  refine (bounded_iff_kept 1 600 "obase-pool" rfl (World.runs_trace ..)).2 ?_
  refine ⟨?_, Nat.zero_lt_one, trivial, trivial, trivial, ?_, Nat.zero_lt_one, trivial⟩
  · rintro c ⟨hc, -⟩
    cases hc
  · rintro c ⟨hc, -⟩
    cases hc

/-- A container that was given back is not handed out again: with one place, the pool is full. -/
theorem released_not_reused : ¬ ∀ (maxSize : Int) (idleTimeoutS : ℚ) (namePrefix : String)
    (p : Pool), Pool.new maxSize idleTimeoutS namePrefix = some p → ∀ l : List (Event × World),
      Run.Trace (fun w ev w' => w.step ev = some w') (World.init p) l →
        Run.Along Sound (World.init p) l := by
  intro h
  obtain ⟨-, -, -, -, hsound, -⟩ := h 1 600 "obase-pool" _ rfl _ (World.runs_trace
    (World.init ⟨1, 600, "obase-pool", [], 0⟩)
    [.acquire none true 0, .created 0 1 (.ok "c1"), .started 0 (.ok ()), .release "c1" true 2 2,
      .acquire none true 3])
  obtain ⟨c, own, -, he⟩ := hsound.reused none true 3 rfl
    ⟨"c1", by decide +kernel, by decide +kernel, by decide +kernel⟩
  have hlast := congrArg
    (fun calls => calls.getLast?.map fun call => call.task matches .raised _) he
  rw [List.getLast?_concat] at hlast
  change _ = some false at hlast
  exact absurd hlast (by decide +kernel)

end Obase.DockerPool
