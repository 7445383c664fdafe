import Mathlib.Algebra.Order.Ring.Rat
import Mathlib.Data.List.Perm.Subperm
import Mathlib.Tactic.Linarith
import Obase.OrderedDict
import Obase.Run

namespace Obase.TvCache
set_option autoImplicit true
open Run

structure CacheEntry (ν : Type) where
  value : ν
  freshUntil : ℚ
  staleUntil : ℚ

/-- `TTLCache`, with its times in seconds of the clock. -/
structure TTLCache (ν : Type) where
  maxEntries : Nat
  entries : Dict String (CacheEntry ν)

namespace TTLCache

def new (maxEntries : Nat) : TTLCache ν := ⟨maxEntries, []⟩

/-- `lookup`: the value that is found, and whether it is stale. -/
def lookup (c : TTLCache ν) (now : ℚ) (key : String) (allowStale : Bool) :
    Option (ν × Bool) × TTLCache ν :=
  match c.entries.lookup key with
  | none => (none, c)
  | some entry =>
    if now ≤ entry.freshUntil then
      (some (entry.value, false), { c with entries := Dict.moveToEnd key c.entries })
    else if now ≤ entry.staleUntil then
      if allowStale then
        (some (entry.value, true), { c with entries := Dict.moveToEnd key c.entries })
      else (none, c)
    else (none, { c with entries := Dict.erase key c.entries })

/-- `store`, `none` where it raises. -/
def store (c : TTLCache ν) (now : ℚ) (key : String) (value : ν) (ttlSeconds staleSeconds : ℚ) :
    Option (TTLCache ν) :=
  if ttlSeconds < 0 ∨ staleSeconds < 0 then none
  else
    let entry := ⟨value, now + ttlSeconds, now + ttlSeconds + staleSeconds⟩
    some { c with
      entries := Dict.trim c.maxEntries (Dict.moveToEnd key (Dict.set key entry c.entries)) }

def clear (c : TTLCache ν) : TTLCache ν := { c with entries := [] }

end TTLCache

inductive Call (ν : Type) where
  | store (now : ℚ) (key : String) (value : ν) (ttlSeconds staleSeconds : ℚ)
  | lookup (now : ℚ) (key : String) (allowStale : Bool)
  | clear

/-- The reading of the clock that a call takes. -/
def Call.now : Call ν → Option ℚ
  | .store now _ _ _ _ => some now
  | .lookup now _ _ => some now
  | .clear => none

/-- What was stored under a key, and when. -/
structure Stored (ν : Type) where
  value : ν
  storedAt : ℚ
  ttlSeconds : ℚ
  staleSeconds : ℚ

/-- The entry that a cache makes of what was stored. -/
def Stored.entry (e : Stored ν) : CacheEntry ν :=
  ⟨e.value, e.storedAt + e.ttlSeconds, e.storedAt + e.ttlSeconds + e.staleSeconds⟩

/-- What was stored is within its windows at a time. -/
def Stored.Within (e : Stored ν) (now : ℚ) : Prop :=
  now - e.storedAt ≤ e.ttlSeconds + e.staleSeconds

inductive Event (ν : Type) where
  | stored (key : String) (e : Stored ν)
  | hit (key : String)
  | cleared

def Event.latest (key : String) (r : Option (Stored ν)) : Event ν → Option (Stored ν)
  | .stored k e => if k = key then some e else r
  | .hit _ => r
  | .cleared => none

def Event.usedSince (key : String) (ks : List String) : Event ν → List String
  | .stored k _ => if k = key then [] else ks.insert k
  | .hit k => if k = key then [] else ks.insert k
  | .cleared => []

/-- What was last stored under a key, since the last `clear`. -/
def latest (key : String) (h : List (Event ν)) : Option (Stored ν) :=
  h.foldl (Event.latest key) none

/-- The other keys that were stored or found since the key was last stored or found, each once. -/
def usedSince (key : String) (h : List (Event ν)) : List String :=
  h.foldl (Event.usedSince key) []

/-- A cache with what has happened to it, and the last reading of the clock. -/
structure State (ν : Type) where
  cache : TTLCache ν
  history : List (Event ν)
  clock : Option ℚ

def State.new (maxEntries : Nat) : State ν := ⟨.new maxEntries, [], none⟩

def Call.step (s : State ν) : Call ν → State ν
  | .store now key value ttlSeconds staleSeconds =>
    match s.cache.store now key value ttlSeconds staleSeconds with
    | some c => ⟨c, s.history ++ [.stored key ⟨value, now, ttlSeconds, staleSeconds⟩], some now⟩
    | none => s
  | .lookup now key allowStale =>
    match s.cache.lookup now key allowStale with
    | (some _, c) => ⟨c, s.history ++ [.hit key], some now⟩
    | (none, c) => ⟨c, s.history, some now⟩
  | .clear => ⟨s.cache.clear, s.history ++ [.cleared], s.clock⟩

/-- The clock has not run backwards. -/
def Later (s : State ν) (call : Call ν) : Prop :=
  ∀ before now, s.clock = some before → call.now = some now → before ≤ now

/-- A call leads from one state to the next. -/
def Step (s : State ν) (call : Call ν) (t : State ν) : Prop := t = call.step s

/-- The calls, each with the state that it leads to. -/
def states (s : State ν) : List (Call ν) → List (Call ν × State ν)
  | [] => []
  | call :: calls => (call, call.step s) :: states (call.step s) calls

/-- The entries are those of what was stored last, the keys behind a key were used since, and what is
within its windows is there until too many others were used. -/
structure Kept (s : State ν) : Prop where
  distinct : Dict.Distinct s.cache.entries
  bounded : s.cache.entries.length ≤ s.cache.maxEntries
  limit : 1 ≤ s.cache.maxEntries
  stored : ∀ key x, s.cache.entries.lookup key = some x →
    ∃ e, latest key s.history = some e ∧ x = e.entry
  recent : ∀ key ∈ Dict.keys s.cache.entries,
    Dict.behind key s.cache.entries ⊆ usedSince key s.history
  retained : ∀ key e, latest key s.history = some e →
    (usedSince key s.history).length < s.cache.maxEntries →
      (∀ now, s.clock = some now → e.Within now) → s.cache.entries.lookup key = some e.entry

section
variable {s : State ν}

theorem latest_concat (key : String) (h : List (Event ν)) (ev : Event ν) :
    latest key (h ++ [ev]) = ev.latest key (latest key h) := by
  rw [latest, List.foldl_append]
  rfl

theorem usedSince_concat (key : String) (h : List (Event ν)) (ev : Event ν) :
    usedSince key (h ++ [ev]) = ev.usedSince key (usedSince key h) := by
  rw [usedSince, List.foldl_append]
  rfl

/-- A key is used with what is stored under it. -/
structure Event.Uses (ev : Event ν) (h : List (Event ν)) (key : String) (e : Stored ν) : Prop where
  latest : ∀ k, TvCache.latest k (h ++ [ev]) =
    if k = key then some e else TvCache.latest k h
  usedSince : ∀ k, TvCache.usedSince k (h ++ [ev]) =
    if k = key then [] else (TvCache.usedSince k h).insert key

theorem Event.uses_stored (h : List (Event ν)) (key : String) (e : Stored ν) :
    Event.Uses (.stored key e) h key e := by
  refine ⟨fun k => ?_, fun k => ?_⟩
  · rw [latest_concat, Event.latest]
    exact if_congr eq_comm rfl rfl
  · rw [usedSince_concat, Event.usedSince]
    exact if_congr eq_comm rfl rfl

theorem Event.uses_hit {h : List (Event ν)} {key : String} {e : Stored ν}
    (he : TvCache.latest key h = some e) : Event.Uses (.hit key) h key e := by
  refine ⟨fun k => ?_, fun k => ?_⟩
  · rw [latest_concat, Event.latest]
    split
    · rename_i hk
      rw [hk, he]
    · rfl
  · rw [usedSince_concat, Event.usedSince]
    exact if_congr eq_comm rfl rfl

/-- A cache is kept when a key is put last and the first are taken away that are too many. -/
theorem Kept.use (h : Kept s) {ev : Event ν} {key : String} {e : Stored ν}
    (hu : ev.Uses s.history key e) {now : ℚ} (hl : ∀ before, s.clock = some before → before ≤ now) :
    Kept ⟨⟨s.cache.maxEntries,
      Dict.trim s.cache.maxEntries (Dict.putLast key e.entry s.cache.entries)⟩,
      s.history ++ [ev], some now⟩ := by
  have hd := h.distinct.putLast key e.entry
  have hrecent : ∀ k ∈ Dict.keys (Dict.putLast key e.entry s.cache.entries),
      Dict.behind k (Dict.putLast key e.entry s.cache.entries) ⊆
        usedSince k (s.history ++ [ev]) := by
    intro k hk x hx
    rw [hu.usedSince]
    by_cases hne : k = key
    · subst hne
      rw [Dict.behind_putLast_self] at hx
      cases hx
    · rw [if_neg hne, List.mem_insert_iff]
      obtain hx | hx := Dict.mem_behind_putLast hx hne
      · exact .inl hx
      · exact .inr (h.recent k ((Dict.mem_keys_putLast.1 hk).resolve_left hne) hx)
  have hstays : ∀ k ∈ Dict.keys (Dict.putLast key e.entry s.cache.entries),
      (usedSince k (s.history ++ [ev])).length < s.cache.maxEntries →
        (Dict.trim s.cache.maxEntries (Dict.putLast key e.entry s.cache.entries)).lookup k =
          (Dict.putLast key e.entry s.cache.entries).lookup k := by
    intro k hk hlt
    apply Dict.lookup_trim hd
    by_contra hn
    have hle := Dict.le_length_behind hk hn
    have hnodup : (Dict.behind k (Dict.putLast key e.entry s.cache.entries)).Nodup :=
      List.Nodup.sublist (Dict.behind_sublist k _) hd
    have hsub := (List.subperm_of_subset hnodup (hrecent k hk)).length_le
    omega
  refine ⟨hd.trim _, Dict.length_trim_le _ _, h.limit, fun k x hx => ?_, fun k hk => ?_,
    fun k e' he' hlt hw => ?_⟩
  · dsimp only at hx ⊢
    rw [Dict.lookup_trim hd (Dict.mem_keys_iff.2 ⟨x, hx⟩), Dict.lookup_putLast] at hx
    rw [hu.latest]
    by_cases hne : k = key
    · rw [if_pos hne] at hx ⊢
      exact ⟨e, rfl, (Option.some.inj hx).symm⟩
    · rw [if_neg hne] at hx ⊢
      exact h.stored k x hx
  · dsimp only at hk ⊢
    rw [Dict.behind_trim hd hk]
    exact hrecent k (((Dict.trim_suffix _ _).sublist.map Prod.fst).subset hk)
  · dsimp only at he' hlt ⊢
    rw [hu.latest] at he'
    by_cases hne : k = key
    · rw [if_pos hne] at he'
      rw [hstays k (Dict.mem_keys_putLast.2 (.inl hne)) hlt, Dict.lookup_putLast, if_pos hne]
      exact congrArg _ (congrArg _ (Option.some.inj he'))
    · rw [if_neg hne] at he'
      have hold : (usedSince k s.history).length < s.cache.maxEntries := by
        rw [hu.usedSince, if_neg hne] at hlt
        exact (List.length_le_length_insert).trans_lt hlt
      have hx := h.retained k e' he' hold fun before hb => by
        have hw := hw now rfl
        have hb := hl before hb
        rw [Stored.Within] at hw ⊢
        linarith
      rw [hstays k (Dict.mem_keys_putLast.2 (.inr (Dict.mem_keys_iff.2 ⟨_, hx⟩))) hlt,
        Dict.lookup_putLast, if_neg hne]
      exact hx

/-- A cache is kept when nothing is used and the time passes. -/
theorem Kept.pass (h : Kept s) {now : ℚ} (hl : ∀ before, s.clock = some before → before ≤ now) :
    Kept ⟨s.cache, s.history, some now⟩ := by
  refine ⟨h.distinct, h.bounded, h.limit, h.stored, h.recent, fun k e he hlt hw => ?_⟩
  refine h.retained k e he hlt fun before hb => ?_
  have hw := hw now rfl
  have hb := hl before hb
  rw [Stored.Within] at hw ⊢
  linarith

/-- A cache is kept when an entry is taken away that is out of its windows. -/
theorem Kept.expire (h : Kept s) {now : ℚ} (hl : ∀ before, s.clock = some before → before ≤ now)
    {key : String} {e : Stored ν} (he : latest key s.history = some e) (hw : ¬ e.Within now) :
    Kept ⟨{ s.cache with entries := Dict.erase key s.cache.entries }, s.history, some now⟩ := by
  have hp := h.pass hl
  refine ⟨h.distinct.erase key, (List.length_filter_le ..).trans h.bounded, h.limit,
    fun k x hx => ?_, fun k hk => ?_, fun k e' he' hlt hwin => ?_⟩
  · obtain ⟨-, hne⟩ := Dict.mem_keys_erase.1 (Dict.mem_keys_iff.2 ⟨x, hx⟩)
    exact h.stored k x ((Dict.lookup_erase_ne hne _).symm.trans hx)
  · exact fun x hx => h.recent k (Dict.mem_keys_erase.1 hk).1 (Dict.behind_erase_subset key k _ hx)
  · have hne : k ≠ key := by
      rintro rfl
      rw [he] at he'
      cases he'
      exact hw (hwin now rfl)
    exact (Dict.lookup_erase_ne hne _).trans (hp.retained k e' he' hlt hwin)

theorem Kept.new {n : Nat} (h : 1 ≤ n) : Kept (State.new n : State ν) :=
  ⟨List.nodup_nil, Nat.zero_le _, h, fun _ _ hx => (nomatch hx), fun _ hk => (nomatch hk),
    fun _ _ he => (nomatch he)⟩

/-- What `lookup` returns and leaves, of an entry that is there. -/
theorem lookup_stored (c : TTLCache ν) (now : ℚ) {key : String} {e : Stored ν} (allowStale : Bool)
    (hx : c.entries.lookup key = some e.entry) :
    (∃ stale, (stale = false → now - e.storedAt ≤ e.ttlSeconds) ∧
      (stale = true → allowStale = true ∧ e.Within now) ∧
      c.lookup now key allowStale = (some (e.value, stale),
        { c with entries := Dict.putLast key e.entry c.entries })) ∨
    c.lookup now key allowStale = (none, c) ∨
    (¬ e.Within now ∧
      c.lookup now key allowStale = (none, { c with entries := Dict.erase key c.entries })) := by
  have hmove := Dict.moveToEnd_of_lookup hx
  rw [TTLCache.lookup, hx]
  dsimp only
  split
  · rename_i hf
    refine .inl ⟨false, fun _ => ?_, fun h => (nomatch h), ?_⟩
    · rw [Stored.entry] at hf
      linarith
    · rw [hmove]
      rfl
  · split
    · rename_i hs
      split
      · rename_i ha
        refine .inl ⟨true, fun h => (nomatch h), fun _ => ⟨ha, ?_⟩, ?_⟩
        · rw [Stored.entry] at hs
          rw [Stored.Within]
          linarith
        · rw [hmove]
          rfl
      · exact .inr (.inl rfl)
    · rename_i hs
      refine .inr (.inr ⟨fun hw => hs ?_, rfl⟩)
      rw [Stored.Within] at hw
      rw [Stored.entry]
      linarith

/-- What `lookup` finds was stored last and is within its windows. -/
theorem Kept.found (h : Kept s) {now : ℚ} {key : String} {allowStale stale : Bool} {value : ν}
    (hf : (s.cache.lookup now key allowStale).1 = some (value, stale)) :
    ∃ e, latest key s.history = some e ∧ value = e.value ∧
      (stale = false → now - e.storedAt ≤ e.ttlSeconds) ∧
      (stale = true → allowStale = true ∧ e.Within now) := by
  cases hx : s.cache.entries.lookup key with
  | none =>
    rw [TTLCache.lookup, hx] at hf
    cases hf
  | some x =>
    obtain ⟨e, he, rfl⟩ := h.stored key x hx
    obtain ⟨stale', hfresh, hstale, hr⟩ | hr | ⟨-, hr⟩ := lookup_stored s.cache now allowStale hx
    · rw [hr] at hf
      cases hf
      exact ⟨e, he, rfl, hfresh, hstale⟩
    · rw [hr] at hf
      cases hf
    · rw [hr] at hf
      cases hf

/-- A call keeps a cache. -/
theorem Kept.step (h : Kept s) {call : Call ν} (hl : Later s call) : Kept (call.step s) := by
  cases call with
  | store now key value ttlSeconds staleSeconds =>
    have hl : ∀ before, s.clock = some before → before ≤ now := fun before hb => hl _ _ hb rfl
    rw [Call.step, TTLCache.store]
    by_cases hneg : ttlSeconds < 0 ∨ staleSeconds < 0
    · rw [if_pos hneg]
      exact h
    · have hu := h.use (Event.uses_stored s.history key ⟨value, now, ttlSeconds, staleSeconds⟩) hl
      rw [if_neg hneg]
      dsimp only
      rw [Dict.moveToEnd_set]
      exact hu
  | lookup now key allowStale =>
    have hl : ∀ before, s.clock = some before → before ≤ now := fun before hb => hl _ _ hb rfl
    rw [Call.step]
    cases hx : s.cache.entries.lookup key with
    | none =>
      rw [TTLCache.lookup, hx]
      exact h.pass hl
    | some x =>
      obtain ⟨e, he, rfl⟩ := h.stored key x hx
      obtain ⟨stale, -, -, hr⟩ | hr | ⟨hw, hr⟩ := lookup_stored s.cache now allowStale hx
      · have hlen := Dict.length_putLast_of_mem h.distinct (Dict.mem_keys_iff.2 ⟨_, hx⟩) e.entry
        have hu := h.use (Event.uses_hit he) hl
        rw [Dict.trim_of_le (hlen.trans_le h.bounded)] at hu
        rw [hr]
        exact hu
      · rw [hr]
        exact h.pass hl
      · rw [hr]
        exact h.expire hl he hw
  | clear =>
    refine ⟨List.nodup_nil, Nat.zero_le _, h.limit, fun _ _ hx => (nomatch hx),
      fun _ hk => (nomatch hk), fun k e he => ?_⟩
    rw [Call.step, latest_concat] at he
    cases he

theorem states_trace (s : State ν) (calls : List (Call ν)) : Trace Step s (states s calls) := by
  induction calls generalizing s with
  | nil => trivial
  | cons call calls ih => exact ⟨rfl, ih _⟩

end

end Obase.TvCache
