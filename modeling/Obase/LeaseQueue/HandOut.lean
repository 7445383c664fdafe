import Obase.LeaseQueue.Settled

namespace Obase.LeaseQueue
set_option autoImplicit true

/-- The queue with all the leases that it has handed out. -/
structure Ledger (T : Type) where
  queue : Queue T
  handOuts : List HandOut

def Ledger.empty (T : Type) : Ledger T := ⟨.empty _, []⟩

section
variable {T : Type} [LinearOrder T] [Add T]

def Ledger.Step (s : Ledger T) (c : QueueCall T) (t : Ledger T) : Prop :=
  ∃ r, QueueStep s.queue c r t.queue ∧ t.handOuts = s.handOuts ++ r.handOuts c

/-- A generated lease id is not one that was handed out before. -/
def Fresh (s : Ledger T) : QueueCall T → Prop
  | .lease _ _ _ _ leaseId => ∀ h ∈ s.handOuts, h.leaseId ≠ leaseId
  | _ => True

/-- The call leases an item again, releases it or sweeps it back to pending. -/
def Ledger.Supersedes (i : String) (s : Ledger T) (c : QueueCall T) (t : Ledger T) : Prop :=
  s.Step c t ∧
    match c with
    | .lease .. => ∃ h, h.itemId = i ∧ t.handOuts = s.handOuts ++ [h]
    | .release .. | .sweepExpired .. =>
      s.queue.status i = some .leased ∧ t.queue.status i = some .pending
    | _ => False

/-- Every call with the lease id returns False and changes nothing. -/
def Queue.Ignores (q : Queue T) (leaseId : String) : Prop :=
  ∀ now timeoutS : T, q.renew now leaseId timeoutS = (q, false) ∧
    q.complete now leaseId = (q, false) ∧ q.release now leaseId = (q, false) ∧
    q.fail now leaseId = (q, false)

/-- No two items carry the same lease id, and an item is settled only with the lease that it is in,
which was handed out once. -/
structure Ledger.Exclusive (s : Ledger T) : Prop where
  carrier : ∀ i j row row' leaseId, s.queue.get i = some row → s.queue.get j = some row' →
    row.leaseId = some leaseId → row'.leaseId = some leaseId → i = j
  settler : ∀ i now leaseId,
    (s.queue.complete now leaseId).1.get i ≠ s.queue.get i ∨
      (s.queue.fail now leaseId).1.get i ≠ s.queue.get i →
    ∃ row workerId, s.queue.get i = some row ∧ row.leaseId = some leaseId ∧
      row.workerId = some workerId ∧
      ∀ h ∈ s.handOuts, h.leaseId = leaseId ↔ h = ⟨leaseId, i, workerId⟩

/-- What holds of the row of an item between calls: a pending one has no lease, and another's lease
is one that was handed out. -/
structure RowSound (i : String) (hs : List HandOut) (row : QueueItem T) : Prop where
  pending : row.status = .pending → row.leaseId = none
  carried : ∀ leaseId, row.leaseId = some leaseId →
    ∃ workerId, row.workerId = some workerId ∧ ⟨leaseId, i, workerId⟩ ∈ hs

structure Ledger.Sound (s : Ledger T) : Prop where
  once : ∀ h ∈ s.handOuts, ∀ h' ∈ s.handOuts, h.leaseId = h'.leaseId → h = h'
  row : ∀ i row, s.queue.get i = some row → RowSound i s.handOuts row

/-- No item carries the lease id. -/
def Queue.Free (q : Queue T) (leaseId : String) : Prop :=
  ∀ i row, q.get i = some row → row.leaseId ≠ some leaseId

end

section
variable {T : Type}

theorem QueueItem.not_holds_of_ne {leaseId : String} {r : QueueItem T}
    (h : r.leaseId ≠ some leaseId) : r.holds leaseId = false :=
  Bool.eq_false_iff.2 fun hh => h (QueueItem.holds_iff.1 hh).1

theorem QueueItem.not_carries_of_ne {leaseId : String} {r : QueueItem T}
    (h : r.leaseId ≠ some leaseId) : r.carries leaseId = false :=
  Bool.eq_false_iff.2 fun hh => h (QueueItem.carries_iff.1 hh)

theorem Queue.Free.ignores [LinearOrder T] [Add T] {q : Queue T} {leaseId : String}
    (h : q.Free leaseId) : q.Ignores leaseId := by
  have hh : q.rowcount (QueueItem.holds leaseId) = 0 :=
    Table.rowcount_eq_zero_iff.2 fun i r hr => QueueItem.not_holds_of_ne (h i r hr)
  have hc : q.rowcount (QueueItem.carries leaseId) = 0 :=
    Table.rowcount_eq_zero_iff.2 fun i r hr => QueueItem.not_carries_of_ne (h i r hr)
  intro now timeoutS
  refine ⟨?_, ?_, ?_, ?_⟩
  · rw [Queue.renew, Table.update_eq_self hh, hh]
    rfl
  · rw [Queue.complete, Table.update_eq_self hc, hc]
    rfl
  · rw [Queue.release, Table.update_eq_self hh, hh]
    rfl
  · rw [Queue.fail, Table.update_eq_self hc, hc]
    rfl

theorem RowSound.mono {i : String} {hs hs' : List HandOut} {row : QueueItem T}
    (h : RowSound i hs row) (hm : ∀ x ∈ hs, x ∈ hs') : RowSound i hs' row :=
  ⟨h.pending, fun l hl =>
    let ⟨w, hw, hmem⟩ := h.carried l hl
    ⟨w, hw, hm _ hmem⟩⟩

variable [LinearOrder T] [Add T]

theorem ItemStep.sound {i : String} {c : QueueCall T} {row row' : Option (QueueItem T)}
    {hs new : List HandOut} (h : ItemStep i c row new row')
    (hr : ∀ r, row = some r → RowSound i hs r) :
    ∀ r, row' = some r → RowSound i (hs ++ new) r := by
  intro r hr'
  cases h with
  | same => exact (hr r hr').mono fun x hx => List.mem_append_left _ hx
  | enqueued =>
    cases hr'
    exact ⟨fun _ => rfl, fun l => (nomatch ·)⟩
  | handed ha =>
    cases hr'
    refine ⟨(nomatch ·), fun l hl => ⟨_, rfl, ?_⟩⟩
    cases hl
    exact List.mem_append_right _ (List.mem_singleton.2 rfl)
  | renewed =>
    cases hr'
    have hrow := (hr _ rfl).mono fun x hx => List.mem_append_left [] hx
    exact ⟨hrow.pending, hrow.carried⟩
  | completed =>
    cases hr'
    have hrow := (hr _ rfl).mono fun x hx => List.mem_append_left [] hx
    exact ⟨(nomatch ·), hrow.carried⟩
  | released =>
    cases hr'
    exact ⟨fun _ => rfl, fun l => (nomatch ·)⟩
  | failed =>
    cases hr'
    have hrow := (hr _ rfl).mono fun x hx => List.mem_append_left [] hx
    exact ⟨(nomatch ·), hrow.carried⟩
  | dropped =>
    cases hr'
    have hrow := (hr _ rfl).mono fun x hx => List.mem_append_left [] hx
    exact ⟨(nomatch ·), hrow.carried⟩
  | swept =>
    cases hr'
    exact ⟨fun _ => rfl, fun l => (nomatch ·)⟩

theorem ItemStep.of_handed {i : String} {now : T} {workerId : String} {timeoutS : T} {m : Int}
    {leaseId : String} {row row' : Option (QueueItem T)} {h : HandOut}
    (hs : ItemStep i (.lease now workerId timeoutS m leaseId) row [h] row') :
    ∃ r, row = some r ∧ r.available now m = true ∧
      row' = some (r.handed now workerId timeoutS leaseId) := by
  cases hs with
  | handed ha => exact ⟨_, rfl, ha, rfl⟩

/-- A call hands out nothing, or one lease under the id that it generates. -/
theorem QueueStep.handOuts_cases {q q' : Queue T} {c : QueueCall T} {r : QueueResult}
    (h : QueueStep q c r q') :
    r.handOuts c = [] ∨ ∃ now workerId timeoutS m leaseId i,
      c = .lease now workerId timeoutS m leaseId ∧ r.handOuts c = [⟨leaseId, i, workerId⟩] := by
  cases h with
  | @lease now m row h workerId timeoutS leaseId =>
    cases row with
    | none => exact .inl rfl
    | some row => exact .inr ⟨now, workerId, timeoutS, m, leaseId, row.itemId, rfl, rfl⟩
  | enqueue | renew | complete | release | fail | sweepExpired => exact .inl rfl

theorem Ledger.Sound.step {s t : Ledger T} {c : QueueCall T} (hs : s.Sound) (hf : Fresh s c)
    (h : s.Step c t) : t.Sound := by
  obtain ⟨r, hq, ht⟩ := h
  constructor
  · rw [ht]
    obtain hr | ⟨now, w, timeoutS, m, l, i, rfl, hr⟩ := hq.handOuts_cases
    · rw [hr, List.append_nil]
      exact hs.once
    · rw [hr]
      intro h hm h' hm' he
      obtain hm | hm := List.mem_append.1 hm
      · obtain hm' | hm' := List.mem_append.1 hm'
        · exact hs.once h hm h' hm' he
        · cases List.mem_singleton.1 hm'
          exact (hf h hm he).elim
      · cases List.mem_singleton.1 hm
        obtain hm' | hm' := List.mem_append.1 hm'
        · exact (hf h' hm' he.symm).elim
        · exact (List.mem_singleton.1 hm').symm
  · intro i row hrow
    have hi := (hq.item i).sound (hs.row i) row hrow
    rw [ht]
    exact hi.mono fun x hx =>
      (List.mem_append.1 hx).elim (List.mem_append_left _)
        fun hx => List.mem_append_right _ (mem_handOutsOf.1 hx).1

theorem Ledger.Step.mem_handOuts {s t : Ledger T} {c : QueueCall T} {h : HandOut}
    (hs : s.Step c t) (hm : h ∈ s.handOuts) : h ∈ t.handOuts := by
  obtain ⟨r, -, ht⟩ := hs
  rw [ht]
  exact List.mem_append_left _ hm

/-- A lease id that was handed out and that no item carries is not carried again. -/
theorem Queue.Free.step {s t : Ledger T} {c : QueueCall T} {h : HandOut}
    (hfree : s.queue.Free h.leaseId) (hm : h ∈ s.handOuts) (hf : Fresh s c) (hs : s.Step c t) :
    t.queue.Free h.leaseId := by
  obtain ⟨r, hq, -⟩ := hs
  intro i row hrow
  have hi := hq.item i
  rw [hrow] at hi
  generalize hq' : s.queue.get i = row₀ at hi
  generalize handOutsOf i (r.handOuts c) = new at hi
  cases hi with
  | same => exact hfree i row hq'
  | enqueued => exact (nomatch ·)
  | handed ha => exact fun hl => hf h hm (Option.some.inj hl).symm
  | renewed =>
    have hl := hfree i _ hq'
    exact hl
  | completed =>
    have hl := hfree i _ hq'
    exact hl
  | released => exact (nomatch ·)
  | failed =>
    have hl := hfree i _ hq'
    exact hl
  | dropped =>
    have hl := hfree i _ hq'
    exact hl
  | swept => exact (nomatch ·)

/-- The call that supersedes a lease on an item leaves no item that carries it. -/
theorem Ledger.Supersedes.free {s t : Ledger T} {c : QueueCall T} {h : HandOut} (hs : s.Sound)
    (hf : Fresh s c) (hm : h ∈ s.handOuts) (hsup : s.Supersedes h.itemId c t) :
    t.queue.Free h.leaseId := by
  obtain ⟨hstep, hsup⟩ := hsup
  have ht := hs.step hf hstep
  intro j row hrow hl
  obtain ⟨w, -, hmem⟩ := (ht.row j row hrow).carried _ hl
  have hj : h.itemId = j :=
    congrArg HandOut.itemId (ht.once h (hstep.mem_handOuts hm) _ hmem rfl)
  subst hj
  have hpending (hp : t.queue.status h.itemId = some .pending) : False := by
    rw [Queue.status, hrow] at hp
    rw [(ht.row _ row hrow).pending (Option.some.inj hp)] at hl
    cases hl
  cases c with
  | lease now workerId timeoutS m leaseId =>
    obtain ⟨h', hi', ht'⟩ := hsup
    obtain ⟨r, hq, hout⟩ := hstep
    have hitem := hq.item h.itemId
    have hnew : handOutsOf h.itemId (r.handOuts (.lease now workerId timeoutS m leaseId)) = [h'] := by
      rw [List.append_cancel_left (hout.symm.trans ht')]
      exact List.filter_cons_of_pos (decide_eq_true hi')
    rw [hnew] at hitem
    obtain ⟨r', hr', -, hr⟩ := hitem.of_handed
    rw [hrow] at hr
    cases hr
    exact hf h hm (Option.some.inj hl).symm
  | release | sweepExpired => exact hpending hsup.2
  | enqueue | renew | complete | fail => exact hsup.elim

theorem Ledger.Sound.reaches {s : Ledger T} (h : Run.Reaches Ledger.Step Fresh (.empty T) s) :
    s.Sound :=
  h.invariant ⟨fun _ h => (nomatch h), fun _ _ h => (nomatch h)⟩
    fun _ _ _ hs hf hstep => hs.step hf hstep

omit [LinearOrder T] [Add T] in
theorem Ledger.Sound.exclusive {s : Ledger T} (hs : s.Sound) : s.Exclusive := by
  constructor
  · intro i j row row' l hi hj hl hl'
    obtain ⟨w, -, hm⟩ := (hs.row i row hi).carried l hl
    obtain ⟨w', -, hm'⟩ := (hs.row j row' hj).carried l hl'
    exact congrArg HandOut.itemId (hs.once _ hm _ hm' rfl)
  · intro i now l hne
    have hcarries : ∃ row, s.queue.get i = some row ∧ row.leaseId = some l := by
      by_contra hno
      have hsame : ∀ f : QueueItem T → QueueItem T, (s.queue.get i).map (fun r => if r.carries l then f r else r) =
          s.queue.get i := by
        intro f
        cases hr : s.queue.get i with
        | none => rfl
        | some row =>
          have hc : row.carries l = false :=
            QueueItem.not_carries_of_ne fun hl => hno ⟨row, hr, hl⟩
          rw [Option.map_some, hc]
          rfl
      obtain hne | hne := hne
      · rw [Queue.complete, Table.get_update] at hne
        exact hne (hsame _)
      · rw [Queue.fail, Table.get_update] at hne
        exact hne (hsame _)
    obtain ⟨row, hrow, hl⟩ := hcarries
    obtain ⟨w, hw, hm⟩ := (hs.row i row hrow).carried l hl
    refine ⟨row, w, hrow, hl, hw, fun h hmem => ⟨fun he => hs.once h hmem _ hm he, ?_⟩⟩
    rintro rfl
    rfl

theorem Queue.Free.reaches {s t : Ledger T} {h : HandOut} (hfree : s.queue.Free h.leaseId)
    (hm : h ∈ s.handOuts) (hr : Run.Reaches Ledger.Step Fresh s t) : t.queue.Free h.leaseId := by
  have hinv : t.queue.Free h.leaseId ∧ h ∈ t.handOuts :=
    hr.invariant (I := fun u => u.queue.Free h.leaseId ∧ h ∈ u.handOuts) ⟨hfree, hm⟩
      fun _ _ _ hI hf hs => ⟨hI.1.step hI.2 hf hs, hs.mem_handOuts hI.2⟩
  exact hinv.1

/-- In every run no two items carry one lease id and an item is settled only by the hand-out that
it is in; once a lease is superseded, all later calls with it return False and change nothing. -/
theorem lease_contract {s : Ledger T} (h : Run.Reaches Ledger.Step Fresh (.empty T) s) :
    s.Exclusive ∧ ∀ c t u, ∀ o ∈ s.handOuts, Fresh s c → s.Supersedes o.itemId c t →
      Run.Reaches Ledger.Step Fresh t u → u.queue.Ignores o.leaseId := by
  have hs := Ledger.Sound.reaches h
  refine ⟨hs.exclusive, fun c t u o hm hf hsup hr => ?_⟩
  have hfree := hsup.free hs hf hm
  exact (hfree.reaches (hsup.1.mem_handOuts hm) hr).ignores

end

def oneLedger : Ledger Int := ⟨oneLease, [⟨"L", "a", "w"⟩]⟩

/-- The item of `oneLease` is handed out again once its lease has expired. -/
def twoLeases : Queue Int :=
  (oneLease.lease 20 "v" 10 "M"
    (some ((QueueItem.new 0 "\x7b\x7d" 0 "a").handed 1 "w" 10 "L"))).1

def twoLedger : Ledger Int := ⟨twoLeases, [⟨"L", "a", "w"⟩, ⟨"M", "a", "v"⟩]⟩

theorem oneLedger_reached {allowed : Ledger Int → QueueCall Int → Prop}
    (he : allowed (.empty Int) (.enqueue 0 "\x7b\x7d" 0 (some "a") "task"))
    (hl : allowed ⟨oneItem, []⟩ (.lease 1 "w" 10 1 "L")) :
    Run.Reaches Ledger.Step allowed (.empty Int) oneLedger := by
  have henqueue : (Ledger.empty Int).Step (.enqueue 0 "\x7b\x7d" 0 (some "a") "task")
      ⟨oneItem, []⟩ := ⟨_, .enqueue .., rfl⟩
  have hlease : (⟨oneItem, []⟩ : Ledger Int).Step (.lease 1 "w" 10 1 "L") oneLedger :=
    ⟨_, .lease (by decide +kernel) .., rfl⟩
  exact ((Run.Reaches.refl _).tail he henqueue).tail hl hlease

theorem lease_contract_leased_again : oneLedger.Exclusive ∧ twoLeases.Ignores "L" := by
  have hlease : oneLedger.Step (.lease 20 "v" 10 3 "M") twoLedger :=
    ⟨_, .lease (by decide +kernel) .., rfl⟩
  have hfresh : Fresh oneLedger (.lease 20 "v" 10 3 "M") := by
    intro h hm
    cases List.mem_singleton.1 hm
    decide
  have h := lease_contract (oneLedger_reached trivial fun _ h => (nomatch h))
  exact ⟨h.1, h.2 _ twoLedger twoLedger ⟨"L", "a", "w"⟩ (List.mem_singleton.2 rfl) hfresh
    ⟨hlease, ⟨"M", "a", "v"⟩, rfl, rfl⟩ (.refl _)⟩

section
variable {T : Type} [LinearOrder T] [Add T]

/-- All leases and sweeps are made with the same `max_attempts`. -/
def QueueCall.Uses (m : Int) : QueueCall T → Prop
  | .lease _ _ _ m' _ => m' = m
  | .sweepExpired _ m' => m' = m
  | _ => True

/-- The call releases no item on its last attempt. -/
def QueueCall.Spares (m : Int) (q : Queue T) : QueueCall T → Prop
  | .release _ leaseId => ∀ row ∈ q.rows, row.leaseId = some leaseId → row.status = .leased →
      (row.attempts : Int) < m
  | _ => True

def Capped (m : Int) (s : Ledger T) (c : QueueCall T) : Prop :=
  c.Uses m ∧ c.Spares m s.queue

/-- No item is handed out more than `m` times, and `attempts` counts its hand-outs. -/
structure Ledger.Bounded (m : Int) (s : Ledger T) : Prop where
  handOuts : ∀ i, ((handOutsOf i s.handOuts).length : Int) ≤ m
  attempts : ∀ i row, s.queue.get i = some row →
    row.attempts = (handOutsOf i s.handOuts).length

/-- The attempts of one item against its hand-outs; a pending item has an attempt left. -/
structure RowBounded (m : Int) (hs : List HandOut) (row : Option (QueueItem T)) : Prop where
  none : row = none → hs = []
  count : ∀ r, row = some r → r.attempts = hs.length
  bound : ∀ r, row = some r → (r.attempts : Int) ≤ m
  pending : ∀ r, row = some r → r.status = .pending → (r.attempts : Int) < m

end

section
variable {T : Type}

/-- A row that keeps its attempts, and is not made pending on its last one, stays bounded. -/
theorem RowBounded.of_attempts {m : Int} {hs : List HandOut} {r r' : QueueItem T}
    (h : RowBounded m hs (some r)) (ha : r'.attempts = r.attempts)
    (hp : r'.status = .pending → (r.attempts : Int) < m) :
    RowBounded m (hs ++ []) (some r') := by
  rw [List.append_nil]
  refine ⟨(nomatch ·), ?_, ?_, ?_⟩
  · rintro _ ⟨⟩
    exact ha.trans (h.count r rfl)
  · rintro _ ⟨⟩
    rw [ha]
    exact h.bound r rfl
  · rintro _ ⟨⟩ hs
    rw [ha]
    exact hp hs

variable [LinearOrder T] [Add T]

theorem ItemStep.bounded {i : String} {m : Int} {c : QueueCall T} {q : Queue T}
    {row' : Option (QueueItem T)} {hs new : List HandOut} (hm : 1 ≤ m)
    (h : ItemStep i c (q.get i) new row') (hu : c.Uses m) (hc : c.Spares m q)
    (hb : RowBounded m hs (q.get i)) : RowBounded m (hs ++ new) row' := by
  have hpos : (0 : Int) < m := Int.lt_of_lt_of_le Int.one_pos hm
  generalize hq : q.get i = row at h hb
  cases h with
  | same =>
    rw [List.append_nil]
    exact hb
  | enqueued =>
    rw [hb.none rfl]
    refine ⟨(nomatch ·), ?_, ?_, ?_⟩
    · rintro _ ⟨⟩
      rfl
    · rintro _ ⟨⟩
      exact Int.le_of_lt hpos
    · rintro _ ⟨⟩ -
      exact hpos
  | @handed now m' w timeoutS l r ha =>
    cases hu
    have hlt : (r.attempts : Int) < m := by
      obtain hp | ⟨-, hlt⟩ := QueueItem.available_iff.1 ha
      · exact hb.pending r rfl hp
      · exact hlt
    refine ⟨(nomatch ·), ?_, ?_, ?_⟩
    · rintro _ ⟨⟩
      rw [List.length_append, ← hb.count r rfl]
      rfl
    · rintro _ ⟨⟩
      exact Int.add_one_le_of_lt hlt
    · rintro _ ⟨⟩ hp
      cases hp
  | renewed hl hs' => exact hb.of_attempts rfl fun hp => hb.pending _ rfl hp
  | completed hl => exact hb.of_attempts rfl (nomatch ·)
  | released hl hs' =>
    exact hb.of_attempts rfl fun _ => hc _ (Table.mem_of_get hq) hl hs'
  | failed hl => exact hb.of_attempts rfl (nomatch ·)
  | dropped he hm => exact hb.of_attempts rfl (nomatch ·)
  | swept he hlt =>
    cases hu
    exact hb.of_attempts rfl fun _ => hlt

theorem Ledger.Step.bounded {m : Int} (hm : 1 ≤ m) {s t : Ledger T} {c : QueueCall T}
    (h : s.Step c t) (hc : Capped m s c)
    (hb : ∀ i, RowBounded m (handOutsOf i s.handOuts) (s.queue.get i)) (i : String) :
    RowBounded m (handOutsOf i t.handOuts) (t.queue.get i) := by
  obtain ⟨r, hq, ht⟩ := h
  rw [ht, handOutsOf_append]
  exact (hq.item i).bounded hm hc.1 hc.2 (hb i)

omit [LinearOrder T] [Add T] in
theorem Ledger.Bounded.of_rows {m : Int} (hm : 1 ≤ m) {s : Ledger T}
    (h : ∀ i, RowBounded m (handOutsOf i s.handOuts) (s.queue.get i)) : s.Bounded m := by
  refine ⟨fun i => ?_, fun i row hrow => (h i).count row hrow⟩
  cases hrow : s.queue.get i with
  | none =>
    rw [(h i).none hrow]
    exact Int.le_trans (by decide) hm
  | some row =>
    rw [← (h i).count row hrow]
    exact (h i).bound row hrow

theorem Ledger.handOuts_prefix {allowed : Ledger T → QueueCall T → Prop} {s t : Ledger T}
    (h : Run.Reaches Ledger.Step allowed s t) : s.handOuts <+: t.handOuts :=
  h.related (I := fun _ => True) (R := fun s t => s.handOuts <+: t.handOuts) trivial
    (fun _ => List.prefix_rfl) (fun _ _ _ => List.IsPrefix.trans)
    fun _ _ _ _ _ ⟨r, _, ht⟩ => ⟨trivial, r.handOuts _, ht.symm⟩

/-- If no item is released on its last attempt, no item is handed out more than `m` times, and one
that was handed out `m` times is not handed out again. -/
theorem attempts_bounded {m : Int} (hm : 1 ≤ m) {s : Ledger T}
    (h : Run.Reaches Ledger.Step (Capped m) (.empty T) s) :
    s.Bounded m ∧ ∀ i row, s.queue.get i = some row → (row.attempts : Int) = m →
      ∀ t, Run.Reaches Ledger.Step (Capped m) s t →
        handOutsOf i t.handOuts = handOutsOf i s.handOuts := by
  have hrows : ∀ u, Run.Reaches Ledger.Step (Capped m) (.empty T) u →
      ∀ i, RowBounded m (handOutsOf i u.handOuts) (u.queue.get i) := by
    intro u hu
    refine hu.invariant (I := fun u => ∀ i, RowBounded m (handOutsOf i u.handOuts) (u.queue.get i))
      (fun i => ⟨fun _ => rfl, ?_, ?_, ?_⟩) fun _ _ _ hb hc hs => hs.bounded hm hc hb
    · rintro _ ⟨⟩
    · rintro _ ⟨⟩
    · rintro _ ⟨⟩
  have hs := Ledger.Bounded.of_rows hm (hrows s h)
  refine ⟨hs, fun i row hrow ha t ht => ?_⟩
  have htb := (Ledger.Bounded.of_rows hm (hrows t (h.trans ht))).handOuts i
  have hpre : handOutsOf i s.handOuts <+: handOutsOf i t.handOuts :=
    (Ledger.handOuts_prefix ht).filter _
  refine (hpre.eq_of_length_le ?_).symm
  rw [← hs.attempts i row hrow]
  exact Int.ofNat_le.1 (ha ▸ htb)

end

/-- The only lease of the item expires, and a sweep fails it. -/
theorem attempts_bounded_swept : oneLedger.Bounded 1 ∧
    handOutsOf "a" (⟨sweptLease, oneLedger.handOuts⟩ : Ledger Int).handOuts =
      handOutsOf "a" oneLedger.handOuts := by
  have hs : Run.Reaches Ledger.Step (Capped 1) (.empty Int) oneLedger :=
    oneLedger_reached ⟨trivial, trivial⟩ ⟨rfl, trivial⟩
  have hsweep : oneLedger.Step (.sweepExpired 20 1) ⟨sweptLease, oneLedger.handOuts⟩ :=
    ⟨_, .sweepExpired .., rfl⟩
  have hrow : oneLease.get "a" =
      some ((QueueItem.new 0 "\x7b\x7d" 0 "a").handed 1 "w" 10 "L") := by decide +kernel
  have hcap : Capped 1 oneLedger (.sweepExpired 20 1) := ⟨rfl, trivial⟩
  have h := attempts_bounded (by decide) hs
  exact ⟨h.1, h.2 "a" _ hrow rfl _ ((Run.Reaches.refl _).tail hcap hsweep)⟩

def releasedLease : Queue Int := (oneLease.release 2 "L").1

/-- The queue after its item was released on its only attempt and leased again. -/
def secondLease : Ledger Int :=
  ⟨(releasedLease.lease 3 "v" 10 "M"
      (some (((QueueItem.new 0 "\x7b\x7d" 0 "a").handed 1 "w" 10 "L").returned 2))).1,
    [⟨"L", "a", "w"⟩, ⟨"M", "a", "v"⟩]⟩

theorem attempts_not_bounded :
    Run.Reaches Ledger.Step (fun _ c => c.Uses 1) (.empty Int) secondLease ∧
      ¬ secondLease.Bounded 1 := by
  have hrelease : oneLedger.Step (.release 2 "L") ⟨releasedLease, oneLedger.handOuts⟩ :=
    ⟨_, .release .., rfl⟩
  have hlease : (⟨releasedLease, oneLedger.handOuts⟩ : Ledger Int).Step (.lease 3 "v" 10 1 "M")
      secondLease := ⟨_, .lease (by decide +kernel) .., rfl⟩
  have hs : Run.Reaches Ledger.Step (fun _ c => c.Uses 1) (.empty Int) oneLedger :=
    oneLedger_reached trivial rfl
  have huse : QueueCall.Uses 1 (.release 2 "L" : QueueCall Int) := trivial
  have huse' : QueueCall.Uses 1 (.lease 3 "v" 10 1 "M" : QueueCall Int) := rfl
  exact ⟨(hs.tail huse hrelease).tail huse' hlease, fun h =>
    absurd (h.handOuts "a") (by decide +kernel)⟩

end Obase.LeaseQueue
