import Obase.Concrete
import Obase.McpStdio.Client
import Obase.Run

namespace Obase.McpStdio
set_option autoImplicit true
open Json (FloatText)

section
variable [FloatText F]

def number : Json F → Option ℚ
  | .int n => some n
  | .float (.finite x) => some (FloatText.val x)
  | _ => none

/-- A response to a request: an object with its id, with a result or an error and no method. -/
def IsResponse (rid : Nat) : Json F → Prop
  | .dict ms => (∃ v, ms.lookup "id" = some v ∧ number v = some (rid : ℚ)) ∧
    ((ms.lookup "result").isSome ∨ (ms.lookup "error").isSome) ∧ ms.lookup "method" = none
  | _ => False

/-- A frame whose id, if it has one, is a key. -/
def Readable : Json F → Prop
  | .dict ms => ∀ v, ms.lookup "id" = some v → hashKey v ≠ none
  | .list xs => ∀ x ∈ xs, isIdText x = false
  | .str s => ¬ "id".toList <:+: s.toList
  | _ => False

/-- The number that the id of a frame equals. -/
def idOf : Json F → Option ℚ
  | .dict ms => (ms.lookup "id").bind fun v => (hashKey v).join
  | _ => none

/-- What the calls may rely on at a step. -/
structure Sound (w : World F) (ev : Event F) (w' : World F) : Prop where
  ends : ∀ r o, w.ended.lookup r ≠ some o → w'.ended.lookup r = some o →
    ev = .timeout r ∨ (∃ text, ev = .drained (some text)) ∨ w.future r = some (.done o)
  settles : ∀ r o, w.future r ≠ some (.done o) → w'.future r = some (.done o) →
    (∃ f, ev = .frame f) ∨ ev = .closed
  matched : ∀ f r, ev = .frame f → w'.future r ≠ w.future r →
    IsResponse r f ∧ ∀ fs, w.heard.lookup r = some fs → ∀ f' ∈ fs, ¬ IsResponse r f'
  answered : ∀ f r, ev = .frame f → IsResponse r f → w.future r = some .pending →
    ∃ o, w'.future r = some (.done o)
  reads : ∀ f, ev = .frame f → w'.client.reading = true
  closes : ev = .closed → ∀ r, w.future r = some .pending →
    ∃ text, w'.future r = some (.done (.raised text))
  silent : w.client.reading = false → ∀ r v, w'.future r = some (.done (.returned v)) →
    w.future r = some (.done (.returned v))

/-- A frame has an id that is a key, if any, and the id of a request without an answer is that of a
response to it. -/
def Kept (w : World F) : Event F → Prop
  | .frame f => Readable f ∧ ∀ r : Nat, idOf f = some (r : ℚ) → w.future r = some .pending →
    IsResponse r f
  | _ => True

/-- While the client reads, a request without an answer waits for its first response. -/
structure Inv (w : World F) : Prop where
  fresh : ∀ r future, w.future r = some future → r < w.client.nextId
  listed : w.client.reading = true → ∀ r, w.future r = some .pending → r ∈ w.client.pending
  unheard : w.client.reading = true → ∀ r fs, w.future r = some .pending →
    w.heard.lookup r = some fs → ∀ f ∈ fs, ¬ IsResponse r f

end

section
variable {c : Client F} {r : Nat} {ms : Dict String (Json F)}

theorem Client.lookup_settle_self (c : Client F) (ms : Dict String (Json F))
    (h : c.futures.lookup r = some .pending) :
    (c.settle r ms).futures.lookup r = some (.done (c.answer ms)) := by
  rw [Client.settle, h]
  exact Dict.lookup_set_self ..

theorem Client.lookup_settle (c : Client F) (r r' : Nat) (ms : Dict String (Json F)) :
    (c.settle r ms).futures.lookup r' = c.futures.lookup r' ∨
      (r' = r ∧ c.futures.lookup r = some .pending) := by
  rw [Client.settle]
  split
  · rename_i hp
    by_cases hr : r' = r
    · exact .inr ⟨hr, hp⟩
    · exact .inl (Dict.lookup_set_ne hr ..)
  · exact .inl rfl

/-- An answer changes the futures alone. -/
theorem Client.settle_eq (c : Client F) (r : Nat) (ms : Dict String (Json F)) :
    c.settle r ms = { c with futures := (c.settle r ms).futures } := by
  rw [Client.settle]
  split
  · rfl
  · rfl

theorem Client.lookup_register (c : Client F) (r : Nat) :
    c.register.futures.lookup r =
    if r = c.nextId then some .pending else c.futures.lookup r := by
  by_cases hr : r = c.nextId
  · rw [if_pos hr, hr]
    exact Dict.lookup_set_self ..
  · rw [if_neg hr]
    exact Dict.lookup_set_ne hr ..

theorem World.lookup_cancel (c : Client F) (r r' : Nat) :
    (cancel c r).futures.lookup r' = c.futures.lookup r' ∨
      (cancel c r).futures.lookup r' = some .cancelled := by
  rw [cancel]
  split
  · by_cases hr : r' = r
    · rw [hr]
      exact .inr (Dict.lookup_set_self ..)
    · exact .inl (Dict.lookup_set_ne hr ..)
  · exact .inl rfl

theorem World.cancel_eq (c : Client F) (r : Nat) :
    cancel c r = { c with futures := (cancel c r).futures } := by
  rw [cancel]
  split
  · rfl
  · rfl

theorem Client.lookup_close : c.close.futures.lookup r = (c.futures.lookup r).map fun future =>
    if r ∈ c.pending then future.fail (c.name ++ ": 连接关闭") else future :=
  Dict.lookup_map_keyed (fun r (future : Future F) =>
    if r ∈ c.pending then future.fail (c.name ++ ": 连接关闭") else future) c.futures r

end

section
variable [FloatText F] {c : Client F} {f : Json F} {r : Nat}

theorem hashKey_of_number {v : Json F} {q : ℚ} (h : number v = some q) :
    hashKey v = some (some q) := by
  unfold number at h
  split at h
  · rw [hashKey, h]
  · rw [hashKey, h]
  · cases h

theorem IsResponse.idOf (h : IsResponse r f) : idOf f = some (r : ℚ) := by
  cases f with
  | dict ms =>
    obtain ⟨⟨v, hv, hn⟩, -⟩ := h
    rw [McpStdio.idOf, hv, Option.bind_some, hashKey_of_number hn]
    rfl
  | null => cases h
  | bool b => cases h
  | int n => cases h
  | float x => cases h
  | str s => cases h
  | list xs => cases h

/-- What `_dispatch` does: it raises, it leaves the client, or it takes the request out whose id
the frame has, and gives it the answer. -/
theorem Client.dispatch_cases (c : Client F) (f : Json F) :
    (¬ Readable f ∧ c.dispatch f = none) ∨
      (Readable f ∧ c.dispatch f = some c ∧ ∀ r ∈ c.pending, McpStdio.idOf f ≠ some (r : ℚ)) ∨
      (Readable f ∧ ∃ r ∈ c.pending, McpStdio.idOf f = some (r : ℚ) ∧ ∃ ms,
        c.dispatch f = some ({ c with pending := c.pending.erase r }.settle r ms)) := by
  cases f with
  | null => exact .inl ⟨id, rfl⟩
  | bool b => exact .inl ⟨id, rfl⟩
  | int n => exact .inl ⟨id, rfl⟩
  | float x => exact .inl ⟨id, rfl⟩
  | str s =>
    by_cases hs : "id".toList <:+: s.toList
    · refine .inl ⟨fun h => h hs, ?_⟩
      simp only [Client.dispatch, containsId, decide_eq_true hs]
    · refine .inr (.inl ⟨hs, ?_, by rintro r - ⟨⟩⟩)
      simp only [Client.dispatch, containsId, decide_eq_false hs]
  | list xs =>
    cases hx : xs.any isIdText with
    | true =>
      refine .inl ⟨fun h => ?_, ?_⟩
      · obtain ⟨x, hm, hi⟩ := List.any_eq_true.1 hx
        rw [h x hm] at hi
        cases hi
      · simp only [Client.dispatch, containsId, hx]
    | false =>
      refine .inr (.inl ⟨fun x hm => ?_, ?_, by rintro r - ⟨⟩⟩)
      · exact Bool.eq_false_iff.2 (List.any_eq_false.1 hx x hm)
      · simp only [Client.dispatch, containsId, hx]
  | dict ms =>
    cases hv : ms.lookup "id" with
    | none =>
      refine .inr (.inl ⟨fun v he => ?_, ?_, fun r _ he => ?_⟩)
      · rw [hv] at he
        cases he
      · simp only [Client.dispatch, containsId, hv, Option.isSome_none]
      · rw [McpStdio.idOf, hv] at he
        cases he
    | some v =>
      cases hk : hashKey v with
      | none =>
        refine .inl ⟨fun h => h v hv hk, ?_⟩
        simp only [Client.dispatch, containsId, hv, Option.isSome_some, Option.getD_some, hk]
      | some key =>
        have hr : Readable (.dict ms) := by
          intro v' hv'
          rw [hv] at hv'
          cases hv'
          rw [hk]
          exact Option.some_ne_none key
        have hid : McpStdio.idOf (.dict ms) = key := by
          rw [McpStdio.idOf, hv, Option.bind_some, hk]
          rfl
        simp only [Client.dispatch, containsId, hv, Option.isSome_some, Option.getD_some, hk, hid,
          Client.pop]
        cases hf : c.pending.find? fun (rid : Nat) => key = some (rid : ℚ) with
        | none =>
          refine .inr (.inl ⟨hr, rfl, fun r hm he => ?_⟩)
          exact List.find?_eq_none.1 hf r hm (decide_eq_true he)
        | some rid =>
          have hkey := List.find?_some hf
          exact .inr (.inr ⟨hr, rid, List.mem_of_find?_eq_some hf, of_decide_eq_true hkey, ms, rfl⟩)

end

section
variable [FloatText F] {w w' : World F} {ev : Event F} {f : Json F} {r : Nat}

theorem Inv.init (name : String) : Inv (World.init name : World F) where
  fresh := fun _ _ h => nomatch h
  listed := fun _ _ h => nomatch h
  unheard := fun _ _ _ h => nomatch h

/-- A step that neither reads nor ends the connection answers no request. -/
theorem Sound.quiet (hf : ∀ f, ev ≠ .frame f) (hc : ev ≠ .closed)
    (hfuture : ∀ r o, w'.future r = some (.done o) → w.future r = some (.done o))
    (hends : ∀ r o, w.ended.lookup r ≠ some o → w'.ended.lookup r = some o →
      ev = .timeout r ∨ (∃ text, ev = .drained (some text)) ∨ w.future r = some (.done o)) :
    Sound w ev w' where
  ends := hends
  settles := fun r o hn h => absurd (hfuture r o h) hn
  matched := fun f _ he => absurd he (hf f)
  answered := fun f _ he => absurd he (hf f)
  reads := fun f he => absurd he (hf f)
  closes := fun he => absurd he hc
  silent := fun _ r v h => hfuture r (.returned v) h

theorem Inv.same (h : Inv w) (hc : w'.client.futures = w.client.futures)
    (hn : w'.client.nextId = w.client.nextId) (hp : w'.client.pending = w.client.pending)
    (hr : w'.client.reading = w.client.reading) (hh : w'.heard = w.heard) : Inv w' where
  fresh := by
    intro r future hf
    rw [World.future, hc] at hf
    rw [hn]
    exact h.fresh r future hf
  listed := by
    intro hw r hf
    rw [hr] at hw
    rw [World.future, hc] at hf
    rw [hp]
    exact h.listed hw r hf
  unheard := by
    intro hw r fs hf hl
    rw [hr] at hw
    rw [World.future, hc] at hf
    rw [hh] at hl
    exact h.unheard hw r fs hf hl

theorem Inv.send (h : Inv w) {c : Call} {queued : List Call} (draining : Option Nat) :
    Inv { w with
      client := w.client.register
      queued := queued
      draining := draining
      calls := Dict.set w.client.nextId c w.calls
      heard := Dict.set w.client.nextId [] w.heard } where
  fresh := by
    intro r future hf
    rw [World.future, Client.lookup_register] at hf
    change r < w.client.nextId + 1
    split at hf
    · omega
    · have := h.fresh r future hf
      omega
  listed := by
    intro hw r hf
    rw [World.future, Client.lookup_register] at hf
    change r ∈ w.client.pending ++ [w.client.nextId]
    split at hf
    · rename_i hr
      rw [hr]
      exact List.mem_append_right _ List.mem_cons_self
    · exact List.mem_append_left _ (h.listed hw r hf)
  unheard := by
    intro hw r fs hf hl f' hm
    rw [World.future, Client.lookup_register] at hf
    rw [Dict.lookup_set] at hl
    split at hf
    · rename_i hr
      rw [if_pos hr] at hl
      cases hl
      cases hm
    · rename_i hr
      rw [if_neg hr] at hl
      exact h.unheard hw r fs hf hl f' hm

theorem Inv.cancel (h : Inv w) (r : Nat) (ended : Dict Nat (Outcome F)) :
    Inv { w with client := World.cancel w.client r, ended := ended } := by
  have hfuture (r' : Nat) (future : Future F) (hf : (World.cancel w.client r).futures.lookup r' =
      some future) : ∃ future', w.future r' = some future' ∧
        (future = .pending → future' = .pending) := by
    rw [World.cancel] at hf
    split at hf
    · rename_i hp
      dsimp only at hf
      rw [Dict.lookup_set] at hf
      split at hf
      · rename_i hr
        cases hf
        exact ⟨.pending, hr ▸ hp, fun he => nomatch he⟩
      · exact ⟨future, hf, id⟩
    · exact ⟨future, hf, id⟩
  have hpending (r' : Nat) (hf : (World.cancel w.client r).futures.lookup r' = some .pending) :
      w.future r' = some .pending := by
    obtain ⟨future', he, hp⟩ := hfuture r' .pending hf
    rw [he, hp rfl]
  rw [World.cancel_eq]
  refine ⟨fun r' future hf => ?_, fun hw r' hf => ?_, fun hw r' fs hf hl => ?_⟩
  · obtain ⟨future', he, -⟩ := hfuture r' future hf
    exact h.fresh r' future' he
  · exact h.listed hw r' (hpending r' hf)
  · exact h.unheard hw r' fs (hpending r' hf) hl

theorem Inv.close (h : Inv w) : Inv { w with client := w.client.close } where
  fresh := by
    intro r future hf
    rw [World.future, Client.lookup_close] at hf
    obtain ⟨future', he, -⟩ := Option.map_eq_some_iff.1 hf
    exact h.fresh r future' he
  listed := fun hw => nomatch hw
  unheard := fun hw => nomatch hw

/-- What a frame that is read leaves: the futures of requests with other ids. -/
theorem World.frame_future (h : Inv w) (hw : w.client.reading = true) (hk : Kept w (.frame f)) :
    (w.client.read f).reading = true ∧ (w.client.read f).nextId = w.client.nextId ∧
      (∀ r, (w.client.read f).futures.lookup r = w.future r ∨ w.future r = some .pending ∧
        IsResponse r f ∧ ∃ o, (w.client.read f).futures.lookup r = some (.done o)) ∧
      (∀ r, w.future r = some .pending → IsResponse r f →
        ∃ o, (w.client.read f).futures.lookup r = some (.done o)) ∧
      (∀ r ∈ w.client.pending, r ∈ (w.client.read f).pending ∨
        (w.client.read f).futures.lookup r ≠ some .pending) := by
  obtain ⟨hr, hk⟩ := hk
  obtain ⟨hn, -⟩ | ⟨-, hd, hnone⟩ | ⟨-, r₀, hm, hid, ms, hd⟩ := w.client.dispatch_cases f
  · exact absurd hr hn
  · rw [Client.read, hd]
    refine ⟨hw, rfl, fun r => .inl rfl, fun r hp hi => ?_, fun r hm => .inl hm⟩
    exact absurd hi.idOf (hnone r (h.listed hw r hp))
  · rw [Client.read, hd]
    set c := { w.client with pending := w.client.pending.erase r₀ }
    dsimp only
    have heq := c.settle_eq r₀ ms
    have hself (hp : w.future r₀ = some .pending) :
        (c.settle r₀ ms).futures.lookup r₀ = some (.done (c.answer ms)) :=
      c.lookup_settle_self ms hp
    refine ⟨?_, ?_, fun r => ?_, fun r hp hi => ?_, fun r hr => ?_⟩
    · rw [heq]
      exact hw
    · rw [heq]
    · obtain hs | ⟨rfl, hp⟩ := c.lookup_settle r₀ r ms
      · exact .inl hs
      · exact .inr ⟨hp, hk r hid hp, _, hself hp⟩
    · have he := hi.idOf
      rw [hid, Option.some.injEq, Nat.cast_inj] at he
      subst he
      exact ⟨_, hself hp⟩
    · by_cases he : r = r₀
      · subst he
        right
        intro hp
        obtain hs | ⟨-, hp'⟩ := c.lookup_settle r r ms
        · rw [hself (hs.symm.trans hp)] at hp
          cases hp
        · rw [hself hp'] at hp
          cases hp
      · left
        rw [heq]
        exact (List.mem_erase_of_ne he).2 hr

theorem Inv.frame (h : Inv w) (hw : w.client.reading = true) (hk : Kept w (.frame f)) :
    Inv { w with client := w.client.read f, heard := Dict.mapVals (· ++ [f]) w.heard } := by
  obtain ⟨-, hn, hfuture, hanswer, hpending⟩ := World.frame_future h hw hk
  have hback (r : Nat) (hp : (w.client.read f).futures.lookup r = some .pending) :
      w.future r = some .pending := by
    obtain hs | ⟨hp, -⟩ := hfuture r
    · exact hs ▸ hp
    · exact hp
  refine ⟨fun r future hf => ?_, fun _ r hp => ?_, fun _ r fs hp hl f' hm => ?_⟩
  · change r < (w.client.read f).nextId
    rw [hn]
    obtain hs | ⟨hp, -⟩ := hfuture r
    · exact h.fresh r future (hs ▸ hf)
    · exact h.fresh r .pending hp
  · exact (hpending r (h.listed hw r (hback r hp))).resolve_right fun hn => hn hp
  · rw [Dict.lookup_mapVals] at hl
    obtain ⟨fs', hl', rfl⟩ := Option.map_eq_some_iff.1 hl
    obtain hm | hm := List.mem_append.1 hm
    · exact h.unheard hw r fs' (hback r hp) hl' f' hm
    · rw [List.mem_singleton.1 hm]
      intro hi
      obtain ⟨o, ho⟩ := hanswer r (hback r hp) hi
      rw [World.future, ho] at hp
      cases hp

/-- Frames are read as they should exactly when each of them is what the ids of requests are taken
for. -/
theorem World.frame_sound (h : Inv w) (hw : w.client.reading = true) :
    Sound w (.frame f)
      { w with client := w.client.read f, heard := Dict.mapVals (· ++ [f]) w.heard } ↔
        Kept w (.frame f) := by
  constructor
  · intro hs
    obtain ⟨-, hd⟩ | ⟨hr, -, hnone⟩ | ⟨hr, r₀, hm, hid, ms, hd⟩ := w.client.dispatch_cases f
    · have hreads := hs.reads f rfl
      dsimp only at hreads
      rw [Client.read, hd] at hreads
      cases hreads
    · exact ⟨hr, fun r he hp => absurd he (hnone r (h.listed hw r hp))⟩
    · refine ⟨hr, fun r he hp => ?_⟩
      rw [hid, Option.some.injEq, Nat.cast_inj] at he
      subst he
      refine (hs.matched f r₀ rfl ?_).1
      have hself := Client.lookup_settle_self
        { w.client with pending := w.client.pending.erase r₀ } ms hp
      rw [hp, World.future]
      dsimp only
      rw [Client.read, hd]
      dsimp only
      rw [hself]
      exact nofun
  · intro hk
    obtain ⟨hreading, -, hfuture, hanswer, -⟩ := World.frame_future h hw hk
    refine ⟨fun r o hn he => absurd he hn, fun r o _ _ => .inl ⟨f, rfl⟩, ?_, ?_, ?_, nofun, ?_⟩
    · rintro f' r he hne
      cases he
      obtain hs | ⟨hp, hi, -⟩ := hfuture r
      · exact absurd hs hne
      · exact ⟨hi, fun fs hl => h.unheard hw r fs hp hl⟩
    · rintro f' r he hi hp
      cases he
      exact hanswer r hp hi
    · exact fun _ _ => hreading
    · intro hn
      rw [hw] at hn
      cases hn

theorem World.close_sound (h : Inv w) (hw : w.client.reading = true) :
    Sound w .closed { w with client := w.client.close } where
  ends := fun r o hn he => absurd he hn
  settles := fun _ _ _ _ => .inr rfl
  matched := nofun
  answered := nofun
  reads := nofun
  closes := by
    intro _ r hp
    have hm := h.listed hw r hp
    refine ⟨w.client.name ++ ": 连接关闭", ?_⟩
    rw [World.future] at hp ⊢
    rw [Client.lookup_close, hp, Option.map_some, if_pos hm]
    rfl
  silent := fun hn => by
    rw [hw] at hn
    cases hn

theorem World.timeout_sound {c : Call} :
    Sound w (.timeout r)
      { w with
        client := World.cancel w.client r
        ended := Dict.set r (.raised (w.timeoutText c)) w.ended } := by
  refine Sound.quiet nofun nofun (fun r' o hf => ?_) fun r' o hn he => ?_
  · obtain hs | hs := World.lookup_cancel w.client r r'
    · exact hs.symm.trans hf
    · rw [World.future, hs] at hf
      cases hf
  · dsimp only at he
    rw [Dict.lookup_set] at he
    split at he
    · rename_i hr
      exact .inl (hr ▸ rfl)
    · exact absurd he hn

/-- A step meets what the calls rely on exactly when a frame that it reads is fit to be read. -/
theorem World.step_sound (h : Inv w) (hs : w.step ev = some w') :
    (Kept w ev → Inv w') ∧ (Sound w ev w' ↔ Kept w ev) := by
  cases ev with
  | call c =>
    cases hs
    split
    · exact ⟨fun _ => h.same rfl rfl rfl rfl rfl, fun _ => trivial,
        fun _ => .quiet nofun nofun (fun _ _ hf => hf) fun _ _ hn he => absurd he hn⟩
    · exact ⟨fun _ => h, fun _ => trivial,
        fun _ => .quiet nofun nofun (fun _ _ hf => hf) fun _ _ hn he => absurd he hn⟩
  | send =>
    cases hd : w.draining with
    | some r => simp only [World.step, hd, reduceCtorEq] at hs
    | none =>
      cases hq : w.queued with
      | nil => simp only [World.step, hd, hq, reduceCtorEq] at hs
      | cons c queued =>
        simp only [World.step, hd, hq, Option.some.injEq] at hs
        cases hs
        refine ⟨fun _ => h.send _, fun _ => trivial, fun _ => ?_⟩
        refine .quiet nofun nofun (fun r o hf => ?_) fun _ _ hn he => absurd he hn
        rw [World.future, Client.lookup_register] at hf
        split at hf
        · cases hf
        · exact hf
  | drained error =>
    cases hd : w.draining with
    | none => simp only [World.step, hd, reduceCtorEq] at hs
    | some r =>
      cases error with
      | none =>
        simp only [World.step, hd, Option.some.injEq] at hs
        cases hs
        exact ⟨fun _ => h.same rfl rfl rfl rfl rfl, fun _ => trivial,
          fun _ => .quiet nofun nofun (fun _ _ hf => hf) fun _ _ hn he => absurd he hn⟩
      | some text =>
        simp only [World.step, hd, Option.some.injEq] at hs
        cases hs
        exact ⟨fun _ => h.same rfl rfl rfl rfl rfl, fun _ => trivial,
          fun _ => .quiet nofun nofun (fun _ _ hf => hf) fun _ _ _ _ => .inr (.inl ⟨text, rfl⟩)⟩
  | resume r =>
    cases hc : w.waiting r with
    | none => simp only [World.step, hc, reduceCtorEq] at hs
    | some c =>
      cases hf : w.future r with
      | none => simp only [World.step, hc, hf, reduceCtorEq] at hs
      | some future =>
        cases future with
        | pending => simp only [World.step, hc, hf, reduceCtorEq] at hs
        | cancelled => simp only [World.step, hc, hf, reduceCtorEq] at hs
        | done o =>
          simp only [World.step, hc, hf, Option.some.injEq] at hs
          cases hs
          refine ⟨fun _ => h.same rfl rfl rfl rfl rfl, fun _ => trivial, fun _ => ?_⟩
          refine .quiet nofun nofun (fun _ _ hf => hf) fun r' o' hn he => ?_
          dsimp only at he
          rw [Dict.lookup_set] at he
          split at he
          · rename_i hr
            cases he
            exact .inr (.inr (hr ▸ hf))
          · exact absurd he hn
  | timeout r =>
    cases hc : w.waiting r with
    | none => simp only [World.step, hc, reduceCtorEq] at hs
    | some c =>
      simp only [World.step, hc, Option.some.injEq] at hs
      cases hs
      exact ⟨fun _ => h.cancel r _, fun _ => trivial, fun _ => World.timeout_sound⟩
  | frame f =>
    rw [World.step, Option.ite_none_right_eq_some] at hs
    obtain ⟨hw, hs⟩ := hs
    cases hs
    exact ⟨h.frame hw, World.frame_sound h hw⟩
  | closed =>
    rw [World.step, Option.ite_none_right_eq_some] at hs
    obtain ⟨hw, hs⟩ := hs
    cases hs
    exact ⟨fun _ => h.close, fun _ => trivial, fun _ => World.close_sound h hw⟩
  | exited =>
    cases hs
    exact ⟨fun _ => h.same rfl rfl rfl rfl rfl, fun _ => trivial,
      fun _ => .quiet nofun nofun (fun _ _ hf => hf) fun _ _ hn he => absurd he hn⟩

end

/-- In a run every step meets what the calls rely on exactly when each frame has an id that is a
key, if any, and the id of a request without an answer only as a response to it. -/
theorem matched_iff_kept [FloatText F] (name : String) (run : List (Event F × World F))
    (h : Run.Trace (fun w ev w' => w.step ev = some w') (World.init name) run) :
    Run.Along Sound (World.init name) run ↔ Run.Always Kept (World.init name) run :=
  h.along_iff_while (Inv.init name) fun _ _ _ hi hs => World.step_sound hi hs

/-- A request whose time-out comes before its answer, and one that is answered between a
notification and a request of the server. -/
theorem answered_kept :
    Run.Along Sound (World.init "mcp" : World WholeFloat) (Run.follow World.step (World.init "mcp")
      [.call ⟨"initialize", "15.0"⟩, .send, .drained none, .timeout 1, .call ⟨"tools/list", "60.0"⟩,
        .send, .drained none, .frame (.dict [("method", .str "notifications/message")]),
        .frame (.dict [("id", .int 9), ("method", .str "roots/list")]),
        .frame (.dict [("id", .int 2), ("result", .dict [])]),
        .frame (.dict [("id", .int 1), ("result", .dict [])]), .resume 2, .closed]) := by
  refine (matched_iff_kept _ _ (Run.follow_trace ..)).2 ?_
  refine ⟨trivial, trivial, trivial, trivial, trivial, trivial, trivial, ⟨?_, ?_⟩, ⟨?_, ?_⟩,
    ⟨?_, ?_⟩, ⟨?_, ?_⟩, trivial, trivial, trivial⟩
  · intro v hv
    cases hv
  · intro r hr
    cases hr
  · intro v hv
    cases hv
    exact Option.some_ne_none _
  · intro r hr hp
    have hr : (9 : ℚ) = r := Option.some.inj hr
    obtain rfl : 9 = r := Nat.cast_injective hr
    cases hp
  · intro v hv
    cases hv
    exact Option.some_ne_none _
  · intro r hr _
    exact ⟨⟨_, rfl, hr⟩, .inl rfl, rfl⟩
  · intro v hv
    cases hv
    exact Option.some_ne_none _
  · intro r hr _
    exact ⟨⟨_, rfl, hr⟩, .inl rfl, rfl⟩

/-- A request of the server with the id of a request that waits: that request returns `None`. -/
theorem request_taken_for_answer : ¬ ∀ (name : String)
    (run : List (Event WholeFloat × World WholeFloat)),
    Run.Trace (fun w ev w' => w.step ev = some w') (World.init name) run →
      Run.Along Sound (World.init name) run := by
  intro h
  obtain ⟨-, -, -, hs, -⟩ := h "mcp" _ (Run.follow_trace World.step (World.init "mcp")
    [.call ⟨"tools/list", "60.0"⟩, .send, .drained none,
      .frame (.dict [("id", .int 1), ("method", .str "roots/list")])])
  obtain ⟨⟨-, hr | hr, -⟩, -⟩ := hs.matched _ 1 rfl nofun
  · cases hr
  · cases hr

end Obase.McpStdio
