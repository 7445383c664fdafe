import Mathlib.Data.List.TakeDrop
import Obase.Http.Pinned
import Obase.Run

namespace Obase.ChannelAdapter
set_option autoImplicit true
open Http (Decimals intOfText)

/-- A message of the server: an update of Telegram, or a message of a Slack channel. -/
structure Message where
  id : Nat
  chat : String
  text : String
deriving DecidableEq

/-- `ChannelMessage`, without its time and its native form. -/
structure ChannelMessage where
  messageId : List Char
  chat : String
  text : String
deriving DecidableEq

/-- The time stamps of Slack: the texts of its ids, and how they are read. -/
structure Stamps where
  text : Nat → List Char
  read : List Char → Option Nat
  read_text : ∀ n, read (text n) = some n
  read_nil : read [] = none

/-- `BaseChannelAdapter`, without its addresses. -/
structure Adapter where
  configured : Bool
  defaultChat : String
  offset : List Char

inductive Kind where
  | telegram
  | slack
deriving DecidableEq

/-- The server's `getUpdates`: the first updates whose ids are not below the offset. -/
def getUpdates (D : Decimals) (log : List Message) (offset : List Char) (limit : Nat) :
    List Message :=
  match intOfText D offset with
  | none => log.take limit
  | some n => (log.filter fun m => n ≤ m.id).take limit

/-- The server's `conversations.history`: the newest messages after a time stamp, newest first. -/
def history (S : Stamps) (log : List Message) (oldest : List Char) (limit : Nat) : List Message :=
  match S.read oldest with
  | none => log.reverse.take limit
  | some n => (log.filter fun m => n < m.id).reverse.take limit

namespace Telegram

def messageOf (update : Message) : ChannelMessage :=
  ⟨Json.intText update.id, update.chat, update.text⟩

/-- `receive`, with the updates of the server if the request does not fail. -/
def receive (a : Adapter) : Option (List Message) → List ChannelMessage × Adapter
  | none => ([], a)
  | some updates =>
    if !a.configured then ([], a)
    else
      (updates.map messageOf,
        if updates = [] then a
        else
          let last : Nat := updates.foldl (fun n u => max n u.id) 0
          { a with offset := Json.intText (last + 1) })

/-- `ack`, whose result is `none` where it raises. -/
def ack (D : Decimals) (a : Adapter) (messageId : List Char) : Option Bool × Adapter :=
  if messageId = [] then (some false, a)
  else
    match intOfText D messageId with
    | none => (some false, a)
    | some n =>
      let nxt := n + 1
      if a.offset = [] then (some true, { a with offset := Json.intText nxt })
      else
        match intOfText D a.offset with
        | none => (none, a)
        | some offset =>
          (some true, if offset < nxt then { a with offset := Json.intText nxt } else a)

end Telegram

namespace Slack

def messageOf (S : Stamps) (a : Adapter) (m : Message) : ChannelMessage :=
  ⟨S.text m.id, a.defaultChat, m.text⟩

/-- `receive`, with the messages of the server if the request does not fail. -/
def receive (S : Stamps) (a : Adapter) : Option (List Message) → List ChannelMessage × Adapter
  | none => ([], a)
  | some raw =>
    if !a.configured then ([], a)
    else
      let messages := raw.map (messageOf S a)
      (messages,
        match messages with
        | [] => a
        | m :: _ => { a with offset := m.messageId })

def ack (a : Adapter) (messageId : List Char) : Option Bool × Adapter :=
  if messageId = [] then (some false, a) else (some true, { a with offset := messageId })

end Slack

/-- What the texts of the servers are read with. -/
structure Readers where
  D : Decimals
  S : Stamps

namespace Kind

def idText (R : Readers) : Kind → Nat → List Char
  | .telegram, n => Json.intText n
  | .slack, n => R.S.text n

def messageOf (R : Readers) (a : Adapter) : Kind → Message → ChannelMessage
  | .telegram, m => Telegram.messageOf m
  | .slack, m => Slack.messageOf R.S a m

def fetch (R : Readers) (log : List Message) (offset : List Char) (limit : Nat) :
    Kind → List Message
  | .telegram => getUpdates R.D log offset limit
  | .slack => history R.S log offset limit

def receive (R : Readers) (a : Adapter) (response : Option (List Message)) :
    Kind → List ChannelMessage × Adapter
  | .telegram => Telegram.receive a response
  | .slack => Slack.receive R.S a response

def ack (R : Readers) (a : Adapter) (messageId : List Char) : Kind → Option Bool × Adapter
  | .telegram => Telegram.ack R.D a messageId
  | .slack => Slack.ack a messageId

/-- The first id that a cursor has not passed: Telegram keeps it, Slack keeps the last one before
it. -/
def position (R : Readers) (cursor : List Char) : Kind → Nat
  | .telegram => ((intOfText R.D cursor).getD 0).toNat
  | .slack => (R.S.read cursor).elim 0 (· + 1)

end Kind

/-- The adapter with the messages that have arrived at the server, and those that it has
returned. -/
structure World where
  adapter : Adapter
  log : List Message
  returned : List ChannelMessage

inductive Event where
  | arrive (m : Message)
  | receive (limit : Nat) (succeeds : Bool)
  | ack (messageId : List Char)

section
variable (R : Readers) (kind : Kind)

namespace World

def init (configured : Bool) (defaultChat : String) : World :=
  ⟨⟨configured, defaultChat, []⟩, [], []⟩

def position (w : World) : Nat := kind.position R w.adapter.offset

/-- The messages that the cursor has not passed. -/
def pending (w : World) : List Message := w.log.filter fun m => w.position R kind ≤ m.id

def receive (w : World) (limit : Nat) (succeeds : Bool) : World :=
  let response := if succeeds then some (kind.fetch R w.log w.adapter.offset limit) else none
  let (messages, adapter) := kind.receive R w.adapter response
  { w with adapter := adapter, returned := w.returned ++ messages }

/-- What happens next: a message arrives with a new id, or a call is made; ids that are acked were
returned. -/
def step (w : World) : Event → Option World
  | .arrive m =>
    if ∀ m' ∈ w.log, m'.id < m.id then some { w with log := w.log ++ [m] } else none
  | .receive limit succeeds =>
    if 1 ≤ limit then some (w.receive R kind limit succeeds) else none
  | .ack messageId =>
    if messageId ∈ w.returned.map ChannelMessage.messageId then
      some { w with adapter := (kind.ack R w.adapter messageId).2 }
    else none

end World

/-- What the channel owes its users after a step. -/
structure Sound (w : World) (ev : Event) (w' : World) : Prop where
  forward : w.position R kind ≤ w'.position R kind
  once : (w'.returned.map ChannelMessage.messageId).Nodup
  kept : ∀ m ∈ w'.log, kind.messageOf R w'.adapter m ∈ w'.returned ∨ w'.position R kind ≤ m.id
  polled : ∀ limit, ev = .receive limit true → w.adapter.configured = true →
    w'.returned.length < w.returned.length + limit →
      ∀ m ∈ w'.log, kind.messageOf R w'.adapter m ∈ w'.returned

/-- A poll of Slack asks for all messages after the cursor, and no id is acked that is older than
the cursor. -/
def Kept (w : World) : Event → Prop
  | .receive limit true => kind = .slack → w.adapter.configured = true →
    (w.pending R kind).length ≤ limit
  | .ack messageId => kind = .slack → w.position R kind ≤ kind.position R messageId
  | _ => True

/-- The cursors that the adapter keeps. -/
def Cursor (cursor : List Char) : Prop := cursor = [] ∨ ∃ n, cursor = kind.idText R n

/-- Some messages are those that the cursor has passed, each of them once. -/
structure Inv (w : World) (seen : List Message) : Prop where
  sorted : w.log.Pairwise fun m m' => m.id < m'.id
  cursor : Cursor R kind w.adapter.offset
  nodup : (seen.map Message.id).Nodup
  passed : ∀ m, m ∈ seen ↔ m ∈ w.log ∧ m.id < w.position R kind
  returned : w.returned = seen.map (kind.messageOf R w.adapter)
  reached : ∀ n, (∀ m ∈ w.log, m.id < n) → w.position R kind ≤ n

end

section
variable {R : Readers} {kind : Kind} {w w' : World} {ev : Event} {seen : List Message}

theorem Kind.idText_ne_nil (n : Nat) : kind.idText R n ≠ [] := by
  cases kind with
  | telegram => exact Http.intText_ne_nil n
  | slack =>
    intro he
    have hr := R.S.read_text n
    rw [Kind.idText] at he
    rw [he, R.S.read_nil] at hr
    cases hr

theorem Kind.idText_injective : Function.Injective (kind.idText R) := by
  intro m n h
  cases kind with
  | telegram => exact Int.ofNat_inj.1 (Json.intText_injective h)
  | slack =>
    have hr := congrArg R.S.read h
    rw [Kind.idText, Kind.idText, R.S.read_text, R.S.read_text] at hr
    exact Option.some.inj hr

theorem Kind.position_nil : kind.position R [] = 0 := by
  cases kind with
  | telegram => rfl
  | slack =>
    rw [Kind.position, R.S.read_nil]
    rfl

theorem Kind.position_telegram (n : Nat) : Kind.telegram.position R (Json.intText n) = n := by
  rw [Kind.position, Http.intOfText_intText]
  rfl

theorem Kind.position_slack (n : Nat) : Kind.slack.position R (R.S.text n) = n + 1 := by
  rw [Kind.position, R.S.read_text]
  rfl

theorem Kind.messageId (a : Adapter) (m : Message) :
    (kind.messageOf R a m).messageId = kind.idText R m.id := by
  cases kind with
  | telegram => rfl
  | slack => rfl

theorem getUpdates_eq {offset : List Char} (h : Cursor R .telegram offset) (log : List Message)
    (limit : Nat) : getUpdates R.D log offset limit =
      (log.filter fun m => Kind.telegram.position R offset ≤ m.id).take limit := by
  obtain he | ⟨n, he⟩ := h
  · subst he
    have hall : ∀ m ∈ log, decide (Kind.telegram.position R [] ≤ m.id) = true :=
      fun m _ => decide_eq_true (Nat.zero_le m.id)
    rw [List.filter_eq_self.2 hall]
    rfl
  · have hf : (log.filter fun m => (n : Int) ≤ m.id) = log.filter fun m => n ≤ m.id :=
      List.filter_congr fun m _ => decide_eq_decide.2 Int.ofNat_le
    rw [he, Kind.idText, Kind.position_telegram, getUpdates, Http.intOfText_intText, ← hf]

theorem history_eq {offset : List Char} (h : Cursor R .slack offset) (log : List Message)
    (limit : Nat) : history R.S log offset limit =
      (log.filter fun m => Kind.slack.position R offset ≤ m.id).reverse.take limit := by
  obtain he | ⟨n, he⟩ := h
  · subst he
    have hall : ∀ m ∈ log, decide (Kind.slack.position R [] ≤ m.id) = true := by
      intro m _
      rw [Kind.position_nil]
      exact decide_eq_true (Nat.zero_le m.id)
    rw [List.filter_eq_self.2 hall, history, R.S.read_nil]
  · rw [he, Kind.idText, Kind.position_slack, history, R.S.read_text]
    rfl

/-- What the server sends are the first or the last of the messages that the cursor has not
passed. -/
theorem World.fetch_telegram (h : Cursor R .telegram w.adapter.offset) (limit : Nat) :
    Kind.telegram.fetch R w.log w.adapter.offset limit = (w.pending R .telegram).take limit :=
  getUpdates_eq h w.log limit

theorem World.fetch_slack (h : Cursor R .slack w.adapter.offset) (limit : Nat) :
    Kind.slack.fetch R w.log w.adapter.offset limit = (w.pending R .slack).reverse.take limit :=
  history_eq h w.log limit

theorem foldl_max_bounds (l : List Message) (n : Nat) :
    (n ≤ l.foldl (fun n u => max n u.id) n ∧ ∀ u ∈ l, u.id ≤ l.foldl (fun n u => max n u.id) n) ∧
      (l.foldl (fun n u => max n u.id) n = n ∨
        ∃ u ∈ l, u.id = l.foldl (fun n u => max n u.id) n) := by
  induction l generalizing n with
  | nil => exact ⟨⟨Nat.le_refl n, fun u hu => nomatch hu⟩, Or.inl rfl⟩
  | cons u l ih =>
    obtain ⟨⟨hn, hl⟩, hr⟩ := ih (max n u.id)
    rw [List.foldl_cons]
    refine ⟨⟨le_trans (le_max_left n u.id) hn, ?_⟩, ?_⟩
    · intro v hv
      obtain he | hm := List.mem_cons.1 hv
      · rw [he]
        exact le_trans (le_max_right n u.id) hn
      · exact hl v hm
    · obtain hr | ⟨v, hv, he⟩ := hr
      · rw [hr]
        obtain hm | hm := max_choice n u.id
        · exact Or.inl hm
        · exact Or.inr ⟨u, List.mem_cons_self, hm.symm⟩
      · exact Or.inr ⟨v, List.mem_cons_of_mem u hv, he⟩

/-- The greatest id of a page is the id of one of its updates. -/
theorem exists_last {l : List Message} (h : l ≠ []) :
    ∃ u ∈ l, u.id = l.foldl (fun n u => max n u.id) 0 := by
  obtain ⟨⟨-, hl⟩, hr | hr⟩ := foldl_max_bounds l 0
  · obtain ⟨u, l, rfl⟩ := List.exists_cons_of_ne_nil h
    refine ⟨u, List.mem_cons_self, ?_⟩
    have hu := hl u List.mem_cons_self
    rw [hr] at hu ⊢
    exact Nat.le_zero.1 hu
  · exact hr

theorem World.pending_sorted (h : w.log.Pairwise fun m m' => m.id < m'.id) :
    (w.pending R kind).Pairwise fun m m' => m.id < m'.id :=
  h.sublist List.filter_sublist

theorem Kind.fetch_eq_nil (h : Cursor R kind w.adapter.offset) {limit : Nat} (hlimit : 1 ≤ limit)
    (he : kind.fetch R w.log w.adapter.offset limit = []) : w.pending R kind = [] := by
  have hlimit : limit ≠ 0 := Nat.one_le_iff_ne_zero.1 hlimit
  cases kind with
  | telegram =>
    rw [World.fetch_telegram h] at he
    exact (List.take_eq_nil_iff.1 he).resolve_left hlimit
  | slack =>
    rw [World.fetch_slack h] at he
    exact List.reverse_eq_nil_iff.1 ((List.take_eq_nil_iff.1 he).resolve_left hlimit)

/-- What a page does to the cursor: it is set after the greatest id of the page. -/
theorem Kind.receive_page (h : Inv R kind w seen) (hc : w.adapter.configured = true) {limit : Nat}
    (hne : kind.fetch R w.log w.adapter.offset limit ≠ []) :
    ∃ n, kind.receive R w.adapter (some (kind.fetch R w.log w.adapter.offset limit)) =
        ((kind.fetch R w.log w.adapter.offset limit).map (kind.messageOf R w.adapter),
          { w.adapter with offset := kind.idText R n }) ∧
      (∀ m ∈ kind.fetch R w.log w.adapter.offset limit,
        m.id < kind.position R (kind.idText R n)) ∧
      ∃ m ∈ kind.fetch R w.log w.adapter.offset limit,
        m.id + 1 = kind.position R (kind.idText R n) := by
  cases kind with
  | telegram =>
    set page := Kind.telegram.fetch R w.log w.adapter.offset limit
    refine ⟨page.foldl (fun n u => max n u.id) 0 + 1, ?_, ?_, ?_⟩
    · rw [Kind.receive, Telegram.receive, if_neg (by rw [hc]; exact Bool.false_ne_true),
        if_neg hne]
      rfl
    · intro m hm
      rw [Kind.idText, Kind.position_telegram]
      exact Nat.lt_succ_of_le ((foldl_max_bounds page 0).1.2 m hm)
    · obtain ⟨m, hm, he⟩ := exists_last hne
      refine ⟨m, hm, ?_⟩
      rw [Kind.idText, Kind.position_telegram, he]
  | slack =>
    have hsorted : (Kind.slack.fetch R w.log w.adapter.offset limit).Pairwise
        fun m m' => m'.id < m.id := by
      rw [World.fetch_slack h.cursor]
      exact (List.pairwise_reverse.2 (World.pending_sorted h.sorted)).sublist
        (List.take_sublist ..)
    obtain ⟨m, page, hp⟩ := List.exists_cons_of_ne_nil hne
    rw [hp] at hsorted ⊢
    have hm : ∀ m' ∈ m :: page, m'.id ≤ m.id := by
      intro m' hm'
      obtain rfl | hm' := List.mem_cons.1 hm'
      · exact Nat.le_refl m'.id
      · exact Nat.le_of_lt (List.rel_of_pairwise_cons hsorted hm')
    refine ⟨m.id, ?_, ?_, m, List.mem_cons_self, ?_⟩
    · rw [Kind.receive, Slack.receive, if_neg (by rw [hc]; exact Bool.false_ne_true)]
      rfl
    · intro m' hm'
      rw [Kind.idText, Kind.position_slack]
      exact Nat.lt_succ_of_le (hm m' hm')
    · rw [Kind.idText, Kind.position_slack]

/-- What a poll does: nothing, where no message is returned, or it returns a page and sets the
cursor after it. -/
theorem World.receive_cases (h : Inv R kind w seen) {limit : Nat} (hlimit : 1 ≤ limit)
    (succeeds : Bool) :
    (w.receive R kind limit succeeds = w ∧
        (succeeds = true → w.adapter.configured = true → w.pending R kind = [])) ∨
      (succeeds = true ∧ w.adapter.configured = true ∧ ∃ page n,
        page = kind.fetch R w.log w.adapter.offset limit ∧
        w.receive R kind limit succeeds =
          { w with adapter := { w.adapter with offset := kind.idText R n }
                   returned := w.returned ++ page.map (kind.messageOf R w.adapter) } ∧
        (∀ m ∈ page, m.id < kind.position R (kind.idText R n)) ∧
        ∃ m ∈ page, m.id + 1 = kind.position R (kind.idText R n)) := by
  have hnil (response : Option (List Message))
      (he : kind.receive R w.adapter response = ([], w.adapter)) :
      { w with adapter := (kind.receive R w.adapter response).2
               returned := w.returned ++ (kind.receive R w.adapter response).1 } = w := by
    rw [he, List.append_nil]
  cases succeeds with
  | false =>
    refine Or.inl ⟨hnil none ?_, fun hs => nomatch hs⟩
    cases kind with
    | telegram => rfl
    | slack => rfl
  | true =>
    cases hc : w.adapter.configured with
    | false =>
      refine Or.inl ⟨hnil (some _) ?_, fun _ hc => nomatch hc⟩
      cases kind with
      | telegram => rw [Kind.receive, Telegram.receive, if_pos (by rw [hc]; rfl)]
      | slack => rw [Kind.receive, Slack.receive, if_pos (by rw [hc]; rfl)]
    | true =>
      by_cases hne : kind.fetch R w.log w.adapter.offset limit = []
      · refine Or.inl ⟨hnil (some _) ?_, fun _ _ => Kind.fetch_eq_nil h.cursor hlimit hne⟩
        rw [hne]
        have hc : ¬(!w.adapter.configured) = true := by
          rw [hc]
          exact Bool.false_ne_true
        cases kind with
        | telegram => rw [Kind.receive, Telegram.receive, if_neg hc, if_pos rfl]; rfl
        | slack => rw [Kind.receive, Slack.receive, if_neg hc]; rfl
      · obtain ⟨n, hr, hlt, hlast⟩ := Kind.receive_page h hc hne
        refine Or.inr ⟨rfl, rfl, _, n, rfl, ?_, hlt, hlast⟩
        simp only [World.receive, if_true, hr]

/-- A page without gaps: no message of it is newer than one that is left for later. -/
theorem Kind.left_of_page (h : Inv R kind w seen) {limit : Nat}
    (hk : Kept R kind w (.receive limit true)) (hc : w.adapter.configured = true) {m : Message}
    (hm : m ∈ w.pending R kind) (hn : m ∉ kind.fetch R w.log w.adapter.offset limit) :
    ∀ m' ∈ kind.fetch R w.log w.adapter.offset limit, m'.id < m.id := by
  intro m' hm'
  cases kind with
  | telegram =>
    rw [World.fetch_telegram h.cursor] at hn hm'
    have hs : (w.pending R .telegram).Pairwise fun m m' => m.id < m'.id :=
      World.pending_sorted h.sorted
    rw [← List.take_append_drop limit (w.pending R .telegram)] at hm hs
    obtain hm | hm := List.mem_append.1 hm
    · exact absurd hm hn
    · exact (List.pairwise_append.1 hs).2.2 m' hm' m hm
  | slack =>
    rw [World.fetch_slack h.cursor, List.take_of_length_le
      (by rw [List.length_reverse]; exact hk rfl hc)] at hn
    exact absurd (List.mem_reverse.2 hm) hn

theorem Kind.mem_page (h : Cursor R kind w.adapter.offset) {limit : Nat} {m : Message}
    (hm : m ∈ kind.fetch R w.log w.adapter.offset limit) : m ∈ w.pending R kind := by
  cases kind with
  | telegram =>
    rw [World.fetch_telegram h] at hm
    exact List.mem_of_mem_take hm
  | slack =>
    rw [World.fetch_slack h] at hm
    exact List.mem_reverse.1 (List.mem_of_mem_take hm)

theorem Kind.page_nodup (h : Inv R kind w seen) {limit : Nat} :
    ((kind.fetch R w.log w.adapter.offset limit).map Message.id).Nodup := by
  have hs : (w.pending R kind).Pairwise fun m m' => m.id ≠ m'.id :=
    (World.pending_sorted h.sorted).imp Nat.ne_of_lt
  cases kind with
  | telegram =>
    rw [World.fetch_telegram h.cursor]
    exact List.pairwise_map.2 (hs.sublist (List.take_sublist ..))
  | slack =>
    rw [World.fetch_slack h.cursor]
    have hr : (w.pending R .slack).reverse.Pairwise fun m m' => m.id ≠ m'.id :=
      List.pairwise_reverse.2 (hs.imp Ne.symm)
    exact List.pairwise_map.2 (hr.sublist (List.take_sublist ..))

theorem World.mem_pending {m : Message} :
    m ∈ w.pending R kind ↔ m ∈ w.log ∧ w.position R kind ≤ m.id := by
  rw [World.pending, List.mem_filter, decide_eq_true_eq]

theorem Inv.init (configured : Bool) (defaultChat : String) :
    Inv R kind (World.init configured defaultChat) [] where
  sorted := List.Pairwise.nil
  cursor := Or.inl rfl
  nodup := List.nodup_nil
  passed := fun _ => ⟨(nomatch ·), fun h => (nomatch h.1)⟩
  returned := rfl
  reached := fun n _ => Kind.position_nil.trans_le (Nat.zero_le n)

/-- What is returned is returned once, and what is not returned is ahead of the cursor. -/
theorem Inv.once (h : Inv R kind w seen) : (w.returned.map ChannelMessage.messageId).Nodup := by
  have hids : w.returned.map ChannelMessage.messageId =
      (seen.map Message.id).map (kind.idText R) := by
    rw [h.returned, List.map_map, List.map_map]
    exact List.map_congr_left fun m _ => Kind.messageId w.adapter m
  rw [hids]
  exact h.nodup.map Kind.idText_injective

theorem Inv.kept (h : Inv R kind w seen) : ∀ m ∈ w.log,
    kind.messageOf R w.adapter m ∈ w.returned ∨ w.position R kind ≤ m.id := by
  intro m hm
  obtain hlt | hle := Nat.lt_or_ge m.id (w.position R kind)
  · rw [h.returned]
    exact Or.inl (List.mem_map_of_mem ((h.passed m).2 ⟨hm, hlt⟩))
  · exact Or.inr hle

/-- An acked id is the id of a message that the cursor has passed. -/
theorem Inv.acked (h : Inv R kind w seen) {messageId : List Char}
    (ha : messageId ∈ w.returned.map ChannelMessage.messageId) :
    ∃ m ∈ seen, messageId = kind.idText R m.id := by
  obtain ⟨x, hx, rfl⟩ := List.mem_map.1 ha
  rw [h.returned] at hx
  obtain ⟨m, hm, rfl⟩ := List.mem_map.1 hx
  exact ⟨m, hm, Kind.messageId w.adapter m⟩

/-- An ack of Telegram leaves the cursor. -/
theorem Telegram.ack_eq (h : Inv R .telegram w seen) {m : Message} (hm : m ∈ seen) :
    (Telegram.ack R.D w.adapter (Json.intText m.id)).2 = w.adapter := by
  obtain ⟨-, hlt⟩ := (h.passed m).1 hm
  obtain hc | ⟨n, hc⟩ := h.cursor
  · rw [World.position, hc, Kind.position_nil] at hlt
    exact absurd hlt (Nat.not_lt_zero m.id)
  · rw [World.position, hc, Kind.idText, Kind.position_telegram] at hlt
    have hne : Json.intText m.id ≠ [] := by
      change Kind.telegram.idText R m.id ≠ []
      exact Kind.idText_ne_nil m.id
    have hoffset : w.adapter.offset ≠ [] := by
      rw [hc]
      exact Kind.idText_ne_nil n
    rw [Telegram.ack, if_neg hne, Http.intOfText_intText]
    dsimp only
    rw [if_neg hoffset, hc, Kind.idText, Http.intOfText_intText]
    have hnot : ¬((n : Int) < m.id + 1) := by omega
    dsimp only
    rw [if_neg hnot]

theorem Inv.arrive (h : Inv R kind w seen) {m : Message} (hm : ∀ m' ∈ w.log, m'.id < m.id) :
    Inv R kind { w with log := w.log ++ [m] } seen where
  sorted := by
    refine List.pairwise_append.2 ⟨h.sorted, List.pairwise_singleton .., fun m' hm' x hx => ?_⟩
    rw [List.mem_singleton.1 hx]
    exact hm m' hm'
  cursor := h.cursor
  nodup := h.nodup
  passed := by
    intro x
    rw [h.passed, List.mem_append, List.mem_singleton]
    constructor
    · intro hx
      exact ⟨Or.inl hx.1, hx.2⟩
    · rintro ⟨hx | rfl, hlt⟩
      · exact ⟨hx, hlt⟩
      · exact absurd hlt (Nat.not_lt_of_le (h.reached _ hm))
  returned := h.returned
  reached := fun n hn => h.reached n fun m' hm' => hn m' (List.mem_append_left _ hm')

/-- A page that leaves no older message keeps the invariant. -/
theorem Inv.page (h : Inv R kind w seen) {limit n : Nat} {page : List Message}
    (hp : page = kind.fetch R w.log w.adapter.offset limit)
    (hlt : ∀ m ∈ page, m.id < kind.position R (kind.idText R n))
    (hlast : ∃ m ∈ page, m.id + 1 = kind.position R (kind.idText R n))
    (hleft : ∀ m ∈ w.pending R kind, m ∉ page → ∀ m' ∈ page, m'.id < m.id) :
    Inv R kind
      { w with adapter := { w.adapter with offset := kind.idText R n }
               returned := w.returned ++ page.map (kind.messageOf R w.adapter) }
      (seen ++ page) := by
  have hpending : ∀ m ∈ page, m ∈ w.log ∧ w.position R kind ≤ m.id := by
    intro m hm
    rw [hp] at hm
    exact World.mem_pending.1 (Kind.mem_page h.cursor hm)
  obtain ⟨last, hlast, he⟩ := hlast
  refine ⟨h.sorted, Or.inr ⟨n, rfl⟩, ?_, ?_, ?_, ?_⟩
  · rw [List.map_append, List.nodup_append]
    refine ⟨h.nodup, ?_, ?_⟩
    · rw [hp]
      exact Kind.page_nodup h
    · intro a ha b hb
      obtain ⟨m, hm, rfl⟩ := List.mem_map.1 ha
      obtain ⟨m', hm', rfl⟩ := List.mem_map.1 hb
      exact Nat.ne_of_lt (Nat.lt_of_lt_of_le ((h.passed m).1 hm).2 (hpending m' hm').2)
  · intro m
    rw [List.mem_append]
    constructor
    · rintro (hm | hm)
      · obtain ⟨hm, hlt⟩ := (h.passed m).1 hm
        have hle := (hpending last hlast).2
        refine ⟨hm, ?_⟩
        change m.id < kind.position R (kind.idText R n)
        omega
      · exact ⟨(hpending m hm).1, hlt m hm⟩
    · rintro ⟨hm, hlt⟩
      obtain hlt' | hle := Nat.lt_or_ge m.id (w.position R kind)
      · exact Or.inl ((h.passed m).2 ⟨hm, hlt'⟩)
      · by_cases hin : m ∈ page
        · exact Or.inr hin
        · have hlast := hleft m (World.mem_pending.2 ⟨hm, hle⟩) hin last hlast
          change m.id < kind.position R (kind.idText R n) at hlt
          omega
  · have hsame : kind.messageOf R { w.adapter with offset := kind.idText R n } =
        kind.messageOf R w.adapter := by
      cases kind with
      | telegram => rfl
      | slack => rfl
    dsimp only
    rw [hsame, h.returned, List.map_append]
  · intro k hk
    change kind.position R (kind.idText R n) ≤ k
    rw [← he]
    exact hk last (hpending last hlast).1

/-- After a poll of all that is pending, the rest of a page that is not full has been returned. -/
theorem Inv.sound_page (h : Inv R kind w seen) {limit : Nat} {w' : World}
    (h' : Inv R kind w' (seen ++ kind.fetch R w.log w.adapter.offset limit))
    (hlog : w'.log = w.log) (hle : w.position R kind ≤ w'.position R kind)
    (hpage : ∀ m ∈ kind.fetch R w.log w.adapter.offset limit, m.id < w'.position R kind)
    (hk : Kept R kind w (.receive limit true)) (hc : w.adapter.configured = true) :
    Sound R kind w (.receive limit true) w' := by
  refine ⟨hle, h'.once, h'.kept, ?_⟩
  intro limit' hev _ hlen m hm
  cases hev
  obtain hr | hr := h'.kept m hm
  · exact hr
  · rw [hlog] at hm
    have hm : m ∈ w.pending R kind := World.mem_pending.2 ⟨hm, hle.trans hr⟩
    have hlen : (kind.fetch R w.log w.adapter.offset limit).length < limit := by
      rw [h'.returned, h.returned, List.length_map, List.length_map, List.length_append] at hlen
      exact Nat.lt_of_add_lt_add_left hlen
    have hall : m ∈ kind.fetch R w.log w.adapter.offset limit := by
      cases kind with
      | telegram =>
        rw [World.fetch_telegram h.cursor] at hlen ⊢
        rw [List.length_take] at hlen
        rw [List.take_of_length_le (by omega)]
        exact hm
      | slack =>
        rw [World.fetch_slack h.cursor, List.take_of_length_le
          (by rw [List.length_reverse]; exact hk rfl hc)]
        exact List.mem_reverse.2 hm
    exact absurd (hpage m hall) (Nat.not_lt_of_le hr)

/-- A poll of Slack that does not return all messages loses the oldest one of them. -/
theorem Inv.lost (h : Inv R .slack w seen) {limit n : Nat}
    (hlt : limit < (w.pending R .slack).length)
    (hlast : ∃ m ∈ Kind.slack.fetch R w.log w.adapter.offset limit,
      m.id + 1 = Kind.slack.position R (R.S.text n)) :
    ∃ m ∈ w.log, m.id < Kind.slack.position R (R.S.text n) ∧
      ∀ m' ∈ seen ++ Kind.slack.fetch R w.log w.adapter.offset limit, m'.id ≠ m.id := by
  obtain ⟨last, hlast, he⟩ := hlast
  have hs : (w.pending R .slack).reverse.Pairwise fun m m' => m'.id < m.id :=
    List.pairwise_reverse.2 (World.pending_sorted h.sorted)
  rw [World.fetch_slack h.cursor] at hlast ⊢
  rw [← List.take_append_drop limit (w.pending R .slack).reverse] at hs
  have hdrop : ((w.pending R .slack).reverse.drop limit) ≠ [] := by
    rw [ne_eq, List.drop_eq_nil_iff, List.length_reverse]
    exact Nat.not_le_of_lt hlt
  obtain ⟨m, hm⟩ := List.exists_mem_of_ne_nil _ hdrop
  have holder := (List.pairwise_append.1 hs).2.2
  obtain ⟨hm', hle⟩ := World.mem_pending.1 (List.mem_reverse.1 (List.mem_of_mem_drop hm))
  refine ⟨m, hm', ?_, fun m' hin => ?_⟩
  · have hlt := holder last hlast m hm
    omega
  · obtain hin | hin := List.mem_append.1 hin
    · exact Nat.ne_of_lt (Nat.lt_of_lt_of_le ((h.passed m').1 hin).2 hle)
    · exact Nat.ne_of_gt (holder m' hin m hm)

theorem Inv.sound (h : Inv R kind w' seen) (hle : w.position R kind ≤ w'.position R kind)
    (hev : ∀ limit, ev ≠ .receive limit true) : Sound R kind w ev w' :=
  ⟨hle, h.once, h.kept, fun limit he _ _ => absurd he (hev limit)⟩

theorem World.receive_sound (h : Inv R kind w seen) {limit : Nat} (hlimit : 1 ≤ limit) :
    (Kept R kind w (.receive limit true) →
        ∃ seen, Inv R kind (w.receive R kind limit true) seen) ∧
      (Sound R kind w (.receive limit true) (w.receive R kind limit true) ↔
        Kept R kind w (.receive limit true)) := by
  obtain ⟨hr, hp⟩ | ⟨-, hc, page, n, hp, hr, hlt, hlast⟩ := w.receive_cases h hlimit true
  · rw [hr]
    refine ⟨fun _ => ⟨seen, h⟩, fun _ _ hc => ?_, fun _ => ⟨Nat.le_refl _, h.once, h.kept, ?_⟩⟩
    · rw [hp rfl hc]
      exact Nat.zero_le limit
    · intro _ _ hc _ m hm
      obtain hm' | hle := h.kept m hm
      · exact hm'
      · have hin := World.mem_pending.2 ⟨hm, hle⟩
        rw [hp rfl hc] at hin
        cases hin
  · have hpage (hk : Kept R kind w (.receive limit true)) :
        Inv R kind (w.receive R kind limit true) (seen ++ page) := by
      rw [hr]
      refine h.page hp hlt hlast fun m hm hn => ?_
      rw [hp] at hn ⊢
      exact Kind.left_of_page h hk hc hm hn
    have hlog : (w.receive R kind limit true).log = w.log := rfl
    have hnext : (w.receive R kind limit true).position R kind =
        kind.position R (kind.idText R n) := by
      rw [hr]
      rfl
    refine ⟨fun hk => ⟨_, hpage hk⟩, ?_, fun hk => ?_⟩
    · rintro hsound rfl _
      by_contra hlen
      have hlast' := hlast
      rw [hp] at hlast'
      obtain ⟨m, hm, hm', hne⟩ := h.lost (Nat.lt_of_not_le hlen) hlast'
      obtain hret | hle := hsound.kept m (hlog ▸ hm)
      · rw [hr] at hret
        dsimp only at hret
        rw [h.returned, ← List.map_append, hp] at hret
        obtain ⟨m₂, hin, he⟩ := List.mem_map.1 hret
        have hids := congrArg ChannelMessage.messageId he
        rw [Kind.messageId, Kind.messageId] at hids
        exact hne m₂ hin (Kind.idText_injective hids)
      · rw [hnext] at hle
        exact Nat.not_lt_of_le hle hm'
    · have hle : w.position R kind ≤ (w.receive R kind limit true).position R kind := by
        obtain ⟨m, hm, he⟩ := hlast
        rw [hp] at hm
        have hm := (World.mem_pending.1 (Kind.mem_page h.cursor hm)).2
        rw [hnext]
        omega
      have h' := hpage hk
      rw [hp] at h' hlt
      refine h.sound_page h' hlog hle ?_ hk hc
      rw [hnext]
      exact hlt

theorem World.ack_sound (h : Inv R kind w seen) {messageId : List Char}
    (ha : messageId ∈ w.returned.map ChannelMessage.messageId) :
    (Kept R kind w (.ack messageId) →
        ∃ seen, Inv R kind { w with adapter := (kind.ack R w.adapter messageId).2 } seen) ∧
      (Sound R kind w (.ack messageId)
          { w with adapter := (kind.ack R w.adapter messageId).2 } ↔
        Kept R kind w (.ack messageId)) := by
  obtain ⟨m, hm, rfl⟩ := h.acked ha
  have hev (limit : Nat) : Event.ack (kind.idText R m.id) ≠ .receive limit true := nofun
  cases kind with
  | telegram =>
    have hack : (Kind.telegram.ack R w.adapter (Kind.telegram.idText R m.id)).2 = w.adapter :=
      Telegram.ack_eq h hm
    rw [hack]
    exact ⟨fun _ => ⟨seen, h⟩, fun _ => nofun, fun _ => h.sound (Nat.le_refl _) hev⟩
  | slack =>
    have hack : (Kind.slack.ack R w.adapter (Kind.slack.idText R m.id)).2 =
        { w.adapter with offset := R.S.text m.id } := by
      rw [Kind.ack, Slack.ack, if_neg (Kind.idText_ne_nil m.id)]
      rfl
    rw [hack]
    have hlt := ((h.passed m).1 hm).2
    have hinv (hk : Kept R .slack w (.ack (Kind.slack.idText R m.id))) :
        Inv R .slack { w with adapter := { w.adapter with offset := R.S.text m.id } } seen := by
      have he : Kind.slack.position R (R.S.text m.id) = w.position R .slack := by
        have hk := hk rfl
        rw [Kind.idText] at hk
        rw [Kind.position_slack] at hk ⊢
        exact Nat.le_antisymm hlt hk
      refine ⟨h.sorted, Or.inr ⟨m.id, rfl⟩, h.nodup, ?_, h.returned, ?_⟩
      · intro x
        rw [h.passed, World.position, World.position, he]
        rfl
      · intro n hn
        rw [World.position, he]
        exact h.reached n hn
    exact ⟨fun hk => ⟨seen, hinv hk⟩, fun hs _ => hs.forward,
      fun hk => (hinv hk).sound (hk rfl) hev⟩

/-- The steps that owe nothing to their users are those that miss no message and take no cursor
back. -/
theorem World.step_sound (h : ∃ seen, Inv R kind w seen) (hs : w.step R kind ev = some w') :
    (Kept R kind w ev → ∃ seen, Inv R kind w' seen) ∧
      (Sound R kind w ev w' ↔ Kept R kind w ev) := by
  obtain ⟨seen, h⟩ := h
  cases ev with
  | arrive m =>
    rw [World.step, Option.ite_none_right_eq_some] at hs
    obtain ⟨hm, hs⟩ := hs
    cases hs
    have h' := h.arrive hm
    exact ⟨fun _ => ⟨seen, h'⟩, fun _ => trivial,
      fun _ => h'.sound (Nat.le_refl _) fun _ he => nomatch he⟩
  | receive limit succeeds =>
    rw [World.step, Option.ite_none_right_eq_some] at hs
    obtain ⟨hlimit, hs⟩ := hs
    cases hs
    cases succeeds with
    | false =>
      obtain ⟨hr, -⟩ | ⟨hf, -⟩ := w.receive_cases h hlimit false
      · rw [hr]
        exact ⟨fun _ => ⟨seen, h⟩, fun _ => trivial,
          fun _ => h.sound (Nat.le_refl _) fun _ he => nomatch he⟩
      · cases hf
    | true => exact w.receive_sound h hlimit
  | ack messageId =>
    rw [World.step, Option.ite_none_right_eq_some] at hs
    obtain ⟨ha, hs⟩ := hs
    cases hs
    exact w.ack_sound h ha

end

/-- In a run all steps keep what the channel owes its users exactly when no poll of Slack leaves
older messages out and no ack of Slack names an older message. -/
theorem sound_iff_kept (R : Readers) (kind : Kind) (configured : Bool) (defaultChat : String)
    (run : List (Event × World))
    (h : Run.Trace (fun w ev w' => w.step R kind ev = some w') (World.init configured defaultChat)
      run) :
    Run.Along (Sound R kind) (World.init configured defaultChat) run ↔
      Run.Always (Kept R kind) (World.init configured defaultChat) run :=
  h.along_iff_while ⟨[], Inv.init configured defaultChat⟩ fun _ _ _ hi hs =>
    World.step_sound hi hs

/-- Time stamps in whole seconds. -/
def Stamps.seconds : Stamps where
  text n := Json.intText n ++ ".000100".toList
  read cs :=
    if cs = [] then none else some (Nat.ofDigitChars 10 (cs.takeWhile Char.isDigit) 0)
  read_text n := by
    have hd : ∀ c ∈ Nat.toDigits 10 n, c.isDigit = true := fun c hc =>
      Nat.isDigit_of_mem_toDigits (by decide) (by decide) hc
    have ht : (Nat.toDigits 10 n ++ ".000100".toList).takeWhile Char.isDigit =
        Nat.toDigits 10 n := by
      rw [List.takeWhile_append_of_pos hd]
      exact List.append_nil _
    have hne : Nat.toDigits 10 n ++ ".000100".toList ≠ [] := by
      rw [ne_eq, List.append_eq_nil_iff]
      exact fun h => Nat.toDigits_ne_nil h.1
    rw [Json.intText_ofNat, if_neg hne, ht, Nat.ofDigitChars_ten_toDigits]
  read_nil := rfl

/-- Two messages of Slack, a poll for both of them and an ack of the newest. -/
theorem polled_kept :
    Run.Along (Sound ⟨.ascii, .seconds⟩ .slack) (World.init true "C1")
      (Run.follow (World.step ⟨.ascii, .seconds⟩ .slack) (World.init true "C1")
        [.arrive ⟨1, "C1", "hi"⟩, .arrive ⟨2, "C1", "yo"⟩, .receive 10 false, .receive 10 true,
          .ack "2.000100".toList]) := by
  refine (sound_iff_kept _ _ _ _ _ (Run.follow_trace ..)).2 ?_
  refine ⟨trivial, trivial, trivial, ?_, ?_, trivial⟩
  · intro _ _
    decide
  · intro _
    decide

/-- A poll of Slack for one message when there are two: the older one is never returned. -/
theorem older_skipped : ¬ ∀ (R : Readers) (kind : Kind) (configured : Bool) (defaultChat : String)
    (run : List (Event × World)),
    Run.Trace (fun w ev w' => w.step R kind ev = some w') (World.init configured defaultChat) run →
      Run.Along (Sound R kind) (World.init configured defaultChat) run := by
  intro h
  obtain ⟨-, -, hs, -⟩ := h ⟨.ascii, .seconds⟩ .slack true "C1" _ (Run.follow_trace
    (World.step ⟨.ascii, .seconds⟩ .slack) (World.init true "C1")
    [.arrive ⟨1, "C1", "hi"⟩, .arrive ⟨2, "C1", "yo"⟩, .receive 1 true])
  obtain hm | hm := hs.kept ⟨1, "C1", "hi"⟩ (by decide)
  · revert hm
    decide
  · revert hm
    decide

end Obase.ChannelAdapter
