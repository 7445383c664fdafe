import Obase.DaemonBus.Bus

namespace Obase.DaemonBus
set_option autoImplicit true

section
variable {s : Subscription} {e : Entry β} {p : Nat × β}

/-- The handles and their histories, the objects of the program apart from those in the queues, and
the subscribers of each topic. -/
structure Inv (w : World β) : Prop where
  length : w.ledger.length = w.bus.subscriptions.length
  held : ∀ a ∈ w.held, a < w.bus.heap.length
  link : ∀ (h : Nat) (s : Subscription) (e : Entry β), w.bus.subscriptions[h]? = some s →
    w.ledger[h]? = some e → Link w.bus.dict s e
  fresh : ∀ (h : Nat) (s : Subscription), w.bus.subscriptions[h]? = some s →
    (addresses s.queue.items).Nodup ∧
      ∀ a ∈ addresses s.queue.items, a < w.bus.heap.length ∧ a ∉ w.held
  apart : ∀ (h h' : Nat) (s s' : Subscription), h ≠ h' → w.bus.subscriptions[h]? = some s →
    w.bus.subscriptions[h']? = some s' → ∀ a ∈ addresses s.queue.items,
      a ∉ addresses s'.queue.items
  subscribers : ∀ topic, (w.bus.subscribersOf topic).Nodup ∧
    ∀ h, h ∈ w.bus.subscribersOf topic ↔
      ∃ e, w.ledger[h]? = some e ∧ e.topic = topic ∧ e.isOpen = true

variable {w : World β}

theorem Inv.init : Inv (World.init : World β) where
  length := rfl
  held := fun _ ha => nomatch ha
  link := fun _ _ _ hs => nomatch hs
  fresh := fun _ _ hs => nomatch hs
  apart := fun _ _ _ _ _ hs => nomatch hs
  subscribers := by
    intro topic
    exact ⟨List.nodup_nil, fun h => by simp [World.init, Bus.init, Bus.subscribersOf]⟩

theorem dict_append {b : Bus β} {o : Object β} {a : Nat} (h : a < b.heap.length) :
    Bus.dict { b with heap := b.heap ++ [o] } a = b.dict a := by
  rw [Bus.dict, Bus.dict, List.getElem?_append_left h]

theorem dict_append_new (b : Bus β) (v : β) :
    Bus.dict { b with heap := b.heap ++ [.dict v] } b.heap.length = some v := by
  rw [Bus.dict, List.getElem?_append_right (Nat.le_refl _), Nat.sub_self]
  rfl

theorem dict_set {b : Bus β} {o : Object β} {a a' : Nat} (h : a' ≠ a) :
    Bus.dict { b with heap := b.heap.set a o } a' = b.dict a' := by
  rw [Bus.dict, Bus.dict, List.getElem?_set_ne h.symm]

theorem Inv.make (h : Inv w) (o : Object β) : Inv { w with
    bus := { w.bus with heap := w.bus.heap ++ [o] }
    held := w.held ++ [w.bus.heap.length] } where
  length := h.length
  held := by
    dsimp only
    rw [List.length_append, List.length_singleton]
    intro a ha
    obtain ha | ha := List.mem_append.1 ha
    · exact Nat.lt_succ_of_lt (h.held a ha)
    · rw [List.mem_singleton.1 ha]
      exact Nat.lt_succ_self _
  link := fun i s e hs he => (h.link i s e hs he).congr fun a ha =>
    dict_append ((h.fresh i s hs).2 a ha).1
  fresh := by
    intro i s hs
    obtain ⟨hn, hf⟩ := h.fresh i s hs
    refine ⟨hn, fun a ha => ?_⟩
    obtain ⟨hlt, hh⟩ := hf a ha
    dsimp only
    rw [List.length_append, List.length_singleton, List.mem_append, List.mem_singleton, not_or]
    exact ⟨Nat.lt_succ_of_lt hlt, hh, Nat.ne_of_lt hlt⟩
  apart := h.apart
  subscribers := h.subscribers

theorem Inv.mutate (h : Inv w) {a : Nat} (ha : a ∈ w.held) (v : β) : Inv { w with
    bus := { w.bus with heap := w.bus.heap.set a (.dict v) } } where
  length := h.length
  held := by
    dsimp only
    rw [List.length_set]
    exact h.held
  link := fun i s e hs he => (h.link i s e hs he).congr fun a' ha' =>
    dict_set fun heq => ((h.fresh i s hs).2 a' ha').2 (heq ▸ ha)
  fresh := by
    dsimp only
    rw [List.length_set]
    exact h.fresh
  apart := h.apart
  subscribers := h.subscribers

/-- What a delivery does to the bus and to the history of its handle. -/
def World.deliver (p : Nat × β) (w : World β) (i : Nat) : World β :=
  { w with
    bus := w.bus.deliver p.2 i
    ledger := w.ledger.modify i fun e => { e with due := e.due ++ [p] } }

theorem getElem?_modify_some {l : List α} {f : α → α} {i j : Nat} {y : α}
    (h : (l.modify i f)[j]? = some y) : ∃ x, l[j]? = some x ∧ y = if i = j then f x else x := by
  rw [List.getElem?_modify] at h
  obtain ⟨x, hx, rfl⟩ := Option.map_eq_some_iff.1 h
  refine ⟨x, hx, ?_⟩
  split
  · rfl
  · rfl

theorem addresses_put (q : TaskQueue Item) (a : Nat) :
    addresses (q.put (.payload a)).items = addresses q.items ++ [a] := by
  rw [TaskQueue.put, addresses_append]
  rfl

theorem Inv.deliver (h : Inv w) {p : Nat × β} {i : Nat} (hp : p.1 ∈ w.held) {e : Entry β}
    (he : w.ledger[i]? = some e) (ho : e.isOpen = true) : Inv (w.deliver p i) where
  length := by
    rw [World.deliver, Bus.deliver, Bus.put, List.length_modify, List.length_modify]
    exact h.length
  held := by
    intro a ha
    rw [World.deliver, Bus.deliver, Bus.put, List.length_append]
    exact Nat.lt_succ_of_lt (h.held a ha)
  link := by
    intro j s e' hs he'
    obtain ⟨s₀, hs₀, rfl⟩ := getElem?_modify_some hs
    obtain ⟨e₀, he₀, rfl⟩ := getElem?_modify_some he'
    have hl : Link (w.deliver p i).bus.dict s₀ e₀ := (h.link j s₀ e₀ hs₀ he₀).congr fun a ha =>
      dict_append ((h.fresh j s₀ hs₀).2 a ha).1
    split
    · rename_i hij
      subst hij
      obtain rfl := Option.some.inj (he.symm.trans he₀)
      exact hl.put ho (dict_append_new w.bus p.2) (Nat.ne_of_gt (h.held _ hp))
    · exact hl
  fresh := by
    intro j s hs
    obtain ⟨s₀, hs₀, rfl⟩ := getElem?_modify_some hs
    obtain ⟨hn, hf⟩ := h.fresh j s₀ hs₀
    have hlen : (w.deliver p i).bus.heap.length = w.bus.heap.length + 1 := List.length_append
    rw [hlen]
    split
    · rw [addresses_put]
      refine ⟨List.nodup_append'.2 ⟨hn, List.nodup_singleton _, fun a ha hm => ?_⟩, fun a ha => ?_⟩
      · rw [List.mem_singleton.1 hm] at ha
        exact Nat.lt_irrefl _ (hf _ ha).1
      · obtain ha | ha := List.mem_append.1 ha
        · exact ⟨Nat.lt_succ_of_lt (hf a ha).1, (hf a ha).2⟩
        · rw [List.mem_singleton.1 ha]
          exact ⟨Nat.lt_succ_self _, fun hm => Nat.lt_irrefl _ (h.held _ hm)⟩
    · exact ⟨hn, fun a ha => ⟨Nat.lt_succ_of_lt (hf a ha).1, (hf a ha).2⟩⟩
  apart := by
    intro j k s s' hne hs hs'
    obtain ⟨s₀, hs₀, rfl⟩ := getElem?_modify_some hs
    obtain ⟨s₁, hs₁, rfl⟩ := getElem?_modify_some hs'
    have hapart := h.apart j k s₀ s₁ hne hs₀ hs₁
    intro a ha ha'
    split at ha
    · split at ha'
      · rename_i hj hk
        exact hne (hj.symm.trans hk)
      · rw [addresses_put] at ha
        obtain ha | ha := List.mem_append.1 ha
        · exact hapart a ha ha'
        · rw [List.mem_singleton.1 ha] at ha'
          exact Nat.lt_irrefl _ ((h.fresh k s₁ hs₁).2 _ ha').1
    · split at ha'
      · rw [addresses_put] at ha'
        obtain ha' | ha' := List.mem_append.1 ha'
        · exact hapart a ha ha'
        · rw [List.mem_singleton.1 ha'] at ha
          exact Nat.lt_irrefl _ ((h.fresh j s₀ hs₀).2 _ ha).1
      · exact hapart a ha ha'
  subscribers := by
    intro topic
    obtain ⟨hn, hm⟩ := h.subscribers topic
    refine ⟨hn, fun j => (hm j).trans ?_⟩
    rw [World.deliver]
    dsimp only
    rw [List.getElem?_modify]
    cases w.ledger[j]? with
    | none => simp
    | some e =>
      by_cases hij : i = j
      · simp [hij]
      · simp [hij]

theorem Inv.deliver_all {p : Nat × β} (is : List Nat) (h : Inv w) (hp : p.1 ∈ w.held)
    (ho : ∀ i ∈ is, ∃ e, w.ledger[i]? = some e ∧ e.isOpen = true) :
    Inv (is.foldl (World.deliver p) w) := by
  induction is generalizing w with
  | nil => exact h
  | cons i is ih =>
    rw [List.forall_mem_cons] at ho
    obtain ⟨⟨e, he, hopen⟩, ho⟩ := ho
    refine ih (h.deliver hp he hopen) hp fun j hj => ?_
    obtain ⟨e', he', hopen'⟩ := ho j hj
    refine ⟨if i = j then { e' with due := e'.due ++ [p] } else e', ?_, ?_⟩
    · rw [World.deliver, List.getElem?_modify, he']
      split
      · rfl
      · rfl
    · split
      · exact hopen'
      · exact hopen'

theorem getElem?_foldl_modify {f : α → α} {is : List Nat} (hn : is.Nodup) (l : List α) (j : Nat) :
    (is.foldl (fun l i => l.modify i f) l)[j]? = if j ∈ is then (l[j]?).map f else l[j]? := by
  induction is generalizing l with
  | nil => rw [List.foldl_nil, if_neg (List.not_mem_nil)]
  | cons i is ih =>
    rw [List.nodup_cons] at hn
    rw [List.foldl_cons, ih hn.2, List.getElem?_modify]
    by_cases hij : i = j
    · subst hij
      rw [if_neg hn.1, if_pos (List.mem_cons_self ..)]
      cases l[i]? with
      | none => rfl
      | some x => simp
    · have hmem : j ∈ i :: is ↔ j ∈ is := by
        rw [List.mem_cons]
        exact or_iff_right fun h => hij h.symm
      simp only [hmem]
      cases l[j]? with
      | none => rfl
      | some x => simp [hij]

theorem deliver_all_eq (p : Nat × β) (is : List Nat) (w : World β) :
    is.foldl (World.deliver p) w = { w with
      bus := is.foldl (Bus.deliver p.2) w.bus
      ledger := is.foldl (fun l i => l.modify i fun e => { e with due := e.due ++ [p] })
        w.ledger } := by
  induction is generalizing w with
  | nil => rfl
  | cons i is ih =>
    rw [List.foldl_cons, ih]
    rfl

/-- What a publication owes is what it delivers. -/
theorem Inv.owed (h : Inv w) (topic : String) (p : Nat × β) : w.ledger.map (Entry.owe topic p) =
    (w.bus.subscribersOf topic).foldl
      (fun l i => l.modify i fun e => { e with due := e.due ++ [p] }) w.ledger := by
  obtain ⟨hn, hm⟩ := h.subscribers topic
  apply List.ext_getElem?
  intro j
  rw [getElem?_foldl_modify hn, List.getElem?_map]
  cases hj : w.ledger[j]? with
  | none => simp
  | some e =>
    have hmem : j ∈ w.bus.subscribersOf topic ↔ e.topic = topic ∧ e.isOpen = true := by
      rw [hm, hj]
      simp
    rw [Option.map_some, Option.map_some, Entry.owe]
    simp only [hmem]
    split
    · rfl
    · rfl

theorem Inv.publish (h : Inv w) (topic : String) {a : Nat} (ha : a ∈ w.held) :
    Inv (w.publish topic a) := by
  rw [World.publish, Bus.publish]
  split
  · rename_i hp hd
    split at hp
    · cases hp
    · rw [hd] at hp
      cases hp
      rename_i v _
      have hall := h.deliver_all (w.bus.subscribersOf topic) (p := (a, v)) ha fun i hi => by
        obtain ⟨e, he, -, ho⟩ := ((h.subscribers topic).2 i).1 hi
        exact ⟨e, he, ho⟩
      rw [deliver_all_eq, ← h.owed topic (a, v)] at hall
      exact hall
  · rename_i hp hno
    split at hp
    · cases hp
      exact h
    · cases hd : w.bus.dict a with
      | none =>
        rw [hd] at hp
        cases hp
        exact h
      | some v =>
        rw [hd] at hp
        cases hp
        exact (hno v hd rfl).elim

theorem Inv.subscribe (h : Inv w) (topic : String) : Inv (w.subscribe topic) := by
  rw [World.subscribe, Bus.subscribe]
  by_cases hb : (!Text.notBlank topic.toList) = true
  · rw [if_pos hb]
    exact h
  · rw [if_neg hb]
    have hlast {α : Type} {l : List α} {x y : α} {i : Nat} (hi : (l ++ [x])[i]? = some y) :
        l[i]? = some y ∨ i = l.length ∧ y = x := by
      rw [List.getElem?_append] at hi
      split at hi
      · exact .inl hi
      · rename_i hlt
        have hx : i - l.length = 0 := by
          by_contra hx
          rw [List.getElem?_eq_none (by rw [List.length_singleton]; omega)] at hi
          cases hi
        rw [hx] at hi
        exact .inr ⟨by omega, (Option.some.inj hi).symm⟩
    refine ⟨?_, h.held, ?_, ?_, ?_, ?_⟩
    · dsimp only
      rw [List.length_append, List.length_append, h.length]
      rfl
    · intro i s e hs he
      obtain hs | ⟨hi, rfl⟩ := hlast hs
      · obtain he | ⟨hi, rfl⟩ := hlast he
        · exact h.link i s e hs he
        · rw [hi, h.length, List.getElem?_eq_none (Nat.le_refl _)] at hs
          cases hs
      · obtain he | ⟨-, rfl⟩ := hlast he
        · rw [hi, ← h.length, List.getElem?_eq_none (Nat.le_refl _)] at he
          cases he
        · exact ⟨rfl, ⟨[], 0, rfl, fun _ => rfl⟩, .nil, TaskQueue.empty_alert,
            fun hc => (nomatch hc), fun hm => (nomatch hm)⟩
    · intro i s hs
      obtain hs | ⟨-, rfl⟩ := hlast hs
      · exact h.fresh i s hs
      · exact ⟨List.nodup_nil, fun a ha => nomatch ha⟩
    · intro i j s s' hne hs hs'
      obtain hs | ⟨-, rfl⟩ := hlast hs
      · obtain hs' | ⟨-, rfl⟩ := hlast hs'
        · exact h.apart i j s s' hne hs hs'
        · exact fun a _ ha => nomatch ha
      · exact fun a ha => nomatch ha
    · intro topic'
      obtain ⟨hn, hm⟩ := h.subscribers topic'
      have hnew : w.bus.subscriptions.length ∉ w.bus.subscribersOf topic' := by
        intro hi
        obtain ⟨e, he, -⟩ := (hm _).1 hi
        rw [← h.length, List.getElem?_eq_none (Nat.le_refl _)] at he
        cases he
      have hledger (i : Nat) : (∃ e, (w.ledger ++ [⟨topic, true, [], []⟩])[i]? = some e ∧
          e.topic = topic' ∧ e.isOpen = true) ↔ (∃ e, w.ledger[i]? = some e ∧ e.topic = topic' ∧
            e.isOpen = true) ∨ i = w.ledger.length ∧ topic = topic' := by
        constructor
        · rintro ⟨e, he, ht, ho⟩
          obtain he | ⟨hi, rfl⟩ := hlast he
          · exact .inl ⟨e, he, ht, ho⟩
          · exact .inr ⟨hi, ht⟩
        · rintro (⟨e, he, ht, ho⟩ | ⟨rfl, ht⟩)
          · exact ⟨e, by rw [List.getElem?_append_left (List.getElem?_eq_some_iff.1 he).1, he],
              ht, ho⟩
          · exact ⟨_, List.getElem?_concat_length, ht, rfl⟩
      simp only [hledger, Bus.subscribersOf]
      by_cases ht : topic' = topic
      · subst ht
        rw [Dict.lookup_set_self, Option.getD_some]
        refine ⟨List.nodup_append'.2 ⟨hn, List.nodup_singleton _, fun i hi hi' => ?_⟩, fun i => ?_⟩
        · rw [List.mem_singleton.1 hi'] at hi
          exact hnew hi
        · rw [List.mem_append, List.mem_singleton, h.length]
          exact (or_congr_left (hm i)).trans (by simp)
      · rw [Dict.lookup_set_ne ht]
        refine ⟨hn, fun i => (hm i).trans ?_⟩
        simp [Ne.symm ht]

theorem subscribersOf_unsubscribe (b : Bus β) (topic topic' : String) (i : Nat) :
    (b.unsubscribe topic i).subscribersOf topic' =
      if topic' = topic then (b.subscribersOf topic').filter (· ≠ i)
      else b.subscribersOf topic' := by
  rw [Bus.unsubscribe, Bus.subscribersOf, Bus.subscribersOf]
  by_cases ht : topic' = topic
  · subst ht
    rw [if_pos rfl]
    cases hl : b.subscribers.lookup topic' with
    | none =>
      rw [hl]
      rfl
    | some is =>
      dsimp only
      split
      · rename_i hnil
        rw [Dict.lookup_erase_self, Option.getD_none, Option.getD_some, hnil]
      · rw [Dict.lookup_set_self]
        rfl
  · rw [if_neg ht]
    cases b.subscribers.lookup topic with
    | none => rfl
    | some is =>
      dsimp only
      split
      · rw [Dict.lookup_erase_ne ht]
      · rw [Dict.lookup_set_ne ht]

theorem Inv.close (h : Inv w) {i : Nat} {s : Subscription}
    (hs : w.bus.subscriptions[i]? = some s)
    (hp : s.queue.pending ≤ s.queue.items.length + 1) : Inv (w.close i) := by
  have hbus : w.bus.close i = (w.bus.unsubscribe s.topic i).put i .closed := by
    rw [Bus.close, hs]
  have hun : (w.bus.unsubscribe s.topic i).subscriptions = w.bus.subscriptions ∧
      (w.bus.unsubscribe s.topic i).heap = w.bus.heap := by
    rw [Bus.unsubscribe]
    split
    · exact ⟨rfl, rfl⟩
    · exact ⟨rfl, rfl⟩
  have hsubs : (w.close i).bus.subscriptions =
      w.bus.subscriptions.modify i fun s => { s with queue := s.queue.put .closed } := by
    rw [World.close, hbus, Bus.put, hun.1]
  have hheap : (w.close i).bus.heap = w.bus.heap := by
    rw [World.close, hbus, Bus.put, hun.2]
  have hdict : (w.close i).bus.dict = w.bus.dict := by
    funext a
    rw [Bus.dict, Bus.dict, hheap]
  have haddr (q : TaskQueue Item) : addresses (q.put .closed).items = addresses q.items := by
    rw [TaskQueue.put, addresses_append]
    exact List.append_nil _
  have hsame {j : Nat} {s' : Subscription} (hs' : (w.close i).bus.subscriptions[j]? = some s') :
      ∃ s₀, w.bus.subscriptions[j]? = some s₀ ∧
        addresses s'.queue.items = addresses s₀.queue.items := by
    rw [hsubs] at hs'
    obtain ⟨s₀, hs₀, rfl⟩ := getElem?_modify_some hs'
    refine ⟨s₀, hs₀, ?_⟩
    split
    · exact haddr s₀.queue
    · rfl
  refine ⟨?_, ?_, ?_, ?_, ?_, ?_⟩
  · rw [hsubs, World.close, List.length_modify, List.length_modify]
    exact h.length
  · rw [hheap]
    exact h.held
  · intro j s' e' hs' he'
    rw [hsubs] at hs'
    rw [hdict]
    obtain ⟨s₀, hs₀, rfl⟩ := getElem?_modify_some hs'
    obtain ⟨e₀, he₀, rfl⟩ := getElem?_modify_some he'
    have hl := h.link j s₀ e₀ hs₀ he₀
    split
    · rename_i hij
      subst hij
      obtain rfl := Option.some.inj (hs.symm.trans hs₀)
      exact hl.close hp
    · exact hl
  · intro j s' hs'
    obtain ⟨s₀, hs₀, ha⟩ := hsame hs'
    rw [ha, hheap]
    exact h.fresh j s₀ hs₀
  · intro j k s' s'' hne hs' hs''
    obtain ⟨s₀, hs₀, ha⟩ := hsame hs'
    obtain ⟨s₁, hs₁, hb⟩ := hsame hs''
    rw [ha, hb]
    exact h.apart j k s₀ s₁ hne hs₀ hs₁
  · intro topic
    obtain ⟨hn, hm⟩ := h.subscribers topic
    have hof : (w.close i).bus.subscribersOf topic =
        if topic = s.topic then (w.bus.subscribersOf topic).filter (· ≠ i)
        else w.bus.subscribersOf topic := by
      rw [World.close, hbus]
      exact subscribersOf_unsubscribe w.bus s.topic topic i
    have hledger (j : Nat) : (∃ e, (w.close i).ledger[j]? = some e ∧ e.topic = topic ∧
        e.isOpen = true) ↔ j ≠ i ∧ ∃ e, w.ledger[j]? = some e ∧ e.topic = topic ∧
          e.isOpen = true := by
      rw [World.close]
      dsimp only
      rw [List.getElem?_modify]
      cases w.ledger[j]? with
      | none => simp
      | some e =>
        by_cases hij : i = j
        · simp [hij]
        · simp [hij, Ne.symm hij]
    simp only [hledger, hof]
    split
    · refine ⟨hn.filter _, fun j => ?_⟩
      rw [List.mem_filter, hm, decide_eq_true_iff]
      exact and_comm
    · rename_i ht
      refine ⟨hn, fun j => (hm j).trans ⟨fun he => ⟨?_, he⟩, fun he => he.2⟩⟩
      rintro rfl
      obtain ⟨e, he, rfl, -⟩ := he
      exact ht (h.link j s e hs he).topic.symm

/-- One handle changes: its queue gives up at most what the program has then. -/
theorem Inv.replace (h : Inv w) {i : Nat} {s : Subscription} {e : Entry β} {q : TaskQueue Item}
    {f : Entry β → Entry β} {held : List Nat} (hs : w.bus.subscriptions[i]? = some s)
    (he : w.ledger[i]? = some e) (hl : Link w.bus.dict { s with queue := q } (f e))
    (hf : ∀ e, (f e).topic = e.topic ∧ (f e).isOpen = e.isOpen)
    (hq : (addresses q.items).Sublist (addresses s.queue.items))
    (hh : ∀ a ∈ held, a ∈ w.held ∨ a ∈ addresses s.queue.items ∧ a ∉ addresses q.items) :
    Inv { w with
      bus := { w.bus with
        subscriptions := w.bus.subscriptions.modify i fun s => { s with queue := q } }
      ledger := w.ledger.modify i f
      held := held } := by
  have hsame {j : Nat} {s' : Subscription}
      (hs' : (w.bus.subscriptions.modify i fun s => { s with queue := q })[j]? = some s') :
      ∃ s₀, w.bus.subscriptions[j]? = some s₀ ∧
        (addresses s'.queue.items).Sublist (addresses s₀.queue.items) ∧
          (i = j → s'.queue = q) := by
    obtain ⟨s₀, hs₀, rfl⟩ := getElem?_modify_some hs'
    refine ⟨s₀, hs₀, ?_⟩
    split
    · rename_i hij
      subst hij
      obtain rfl := Option.some.inj (hs.symm.trans hs₀)
      exact ⟨hq, fun _ => rfl⟩
    · rename_i hij
      exact ⟨.refl _, fun he => (hij he).elim⟩
  refine ⟨?_, fun a ha => ?_, ?_, ?_, ?_, ?_⟩
  · dsimp only
    rw [List.length_modify, List.length_modify]
    exact h.length
  · obtain ha | ⟨ha, -⟩ := hh a ha
    · exact h.held a ha
    · exact ((h.fresh i s hs).2 a ha).1
  · intro j s' e' hs' he'
    obtain ⟨s₀, hs₀, rfl⟩ := getElem?_modify_some hs'
    obtain ⟨e₀, he₀, rfl⟩ := getElem?_modify_some he'
    split
    · rename_i hij
      subst hij
      obtain rfl := Option.some.inj (hs.symm.trans hs₀)
      obtain rfl := Option.some.inj (he.symm.trans he₀)
      exact hl
    · exact h.link j s₀ e₀ hs₀ he₀
  · intro j s' hs'
    obtain ⟨s₀, hs₀, ha, hij⟩ := hsame hs'
    obtain ⟨hn, hfresh⟩ := h.fresh j s₀ hs₀
    refine ⟨ha.nodup hn, fun a hm => ⟨(hfresh a (ha.subset hm)).1, fun hheld => ?_⟩⟩
    obtain hheld | ⟨hheld, hnot⟩ := hh a hheld
    · exact (hfresh a (ha.subset hm)).2 hheld
    · by_cases hne : i = j
      · rw [hij hne] at hm
        exact hnot hm
      · exact h.apart i j s s₀ hne hs hs₀ a hheld (ha.subset hm)
  · intro j k s' s'' hne hs' hs''
    obtain ⟨s₀, hs₀, ha, -⟩ := hsame hs'
    obtain ⟨s₁, hs₁, hb, -⟩ := hsame hs''
    exact fun a hm hm' => h.apart j k s₀ s₁ hne hs₀ hs₁ a (ha.subset hm) (hb.subset hm')
  · intro topic
    obtain ⟨hn, hm⟩ := h.subscribers topic
    refine ⟨hn, fun j => (hm j).trans ?_⟩
    dsimp only
    rw [List.getElem?_modify]
    cases w.ledger[j]? with
    | none => simp
    | some e' =>
      by_cases hij : i = j
      · simp [hij, hf]
      · simp [hij]

/-- A task looks for an item: it takes the next one, or waits where the queue is empty. -/
theorem Inv.took (h : Inv w) {i : Nat} {s : Subscription} {e : Entry β} {q : TaskQueue Item}
    {x : Option Item} (hs : w.bus.subscriptions[i]? = some s) (he : w.ledger[i]? = some e)
    (hx : s.queue.items = x.toList ++ q.items) (ha : q.Alert)
    (hp : e.isOpen = false → q.pending ≤ q.items.length) :
    Inv (w.took i (w.bus.take i (x, q))) ∧ ∀ y, x = some y →
      (w.took i (w.bus.take i (x, q))).ledger[i]? =
          some { e with outcomes := e.outcomes ++ [w.bus.outcome y] } ∧
        (w.bus.outcome y = .stop ↔ queued w.bus.dict s.queue.items = []) := by
  have hl := h.link i s e hs he
  cases x with
  | none =>
    have hitems : s.queue.items = q.items := hx
    refine ⟨?_, fun y hy => nomatch hy⟩
    have hrep := h.replace (q := q) (f := fun e => e) hs he ?_ (fun e => ⟨rfl, rfl⟩) ?_
      fun a ha => .inl ha
    · have hid : w.ledger.modify i (fun e => e) = w.ledger := List.modify_id ..
      rw [hid] at hrep
      exact hrep
    · exact ⟨hl.topic, hitems ▸ hl.marks, hitems ▸ hl.copies, ha, hp, hl.valid⟩
    · rw [hitems]
  | some x =>
    have hitems : s.queue.items = x :: q.items := hx
    obtain ⟨hlink, hstop, haddr⟩ := hl.taken hitems rfl ha hp
    have hsub : (addresses q.items).Sublist (addresses s.queue.items) := by
      rw [hitems]
      exact (List.sublist_cons_self _ _).filterMap _
    have hn := (h.fresh i s hs).1
    rw [hitems] at hn
    refine ⟨?_, fun y hy => ?_⟩
    · refine h.replace hs he hlink (fun e => ⟨rfl, rfl⟩) hsub fun a hm => ?_
      split at hm
      · rename_i a' v hout
        obtain rfl := haddr a' v hout
        obtain hm | hm := List.mem_append.1 hm
        · exact .inl hm
        · rw [List.mem_singleton.1 hm, hitems]
          exact .inr ⟨.head _, (List.nodup_cons.1 hn).1⟩
      · exact .inl hm
    · obtain rfl := Option.some.inj hy
      refine ⟨?_, ?_⟩
      · change (w.ledger.modify i fun e => { e with outcomes := e.outcomes ++ [_] })[i]? = _
        rw [List.getElem?_modify, he]
        simp
      · rw [hstop, queued, List.map_eq_nil_iff]

end
end Obase.DaemonBus
