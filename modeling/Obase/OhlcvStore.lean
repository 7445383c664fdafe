import Mathlib.Data.List.Sort
import Obase.Concrete
import Obase.Json.RoundTrip
import Obase.Least
import Obase.Run
import Obase.Separated

namespace Obase.OhlcvStore
set_option autoImplicit true
open Json

/-- `OhlcvBar`, with its time in milliseconds. -/
structure OhlcvBar (F : Type) where
  ts : Int
  opening : PyFloat F
  high : PyFloat F
  low : PyFloat F
  close : PyFloat F
  volume : PyFloat F
  quoteVolume : Option (PyFloat F)
  tradesCount : Option Int

def OhlcvBar.payload (b : OhlcvBar F) : Json F :=
  .dict ([("ts", .int b.ts), ("open", .float b.opening), ("high", .float b.high),
      ("low", .float b.low), ("close", .float b.close), ("volume", .float b.volume)] ++
    (b.quoteVolume.map fun x => ("quote_volume", .float x)).toList ++
    (b.tradesCount.map fun n => ("trades_count", .int n)).toList)

def validTimeframes : List String := ["1m", "5m", "15m", "30m", "1h", "4h", "1d", "1w", "1M"]

def listBarLimit : Nat := 200

/-- What the bars of a list have in common. -/
structure Market where
  exchange : String
  symbol : String
  timeframe : String
deriving DecidableEq

/-- The key of a row of the database. -/
structure BarKey where
  market : Market
  ts : Int
deriving DecidableEq

/-- The message of the `OhlcvStoreError` of a call, if there is one. -/
def Market.error (m : Market) : Option String :=
  if m.symbol = "" then some "symbol must not be empty"
  else if m.timeframe ∉ validTimeframes then some ("invalid timeframe: " ++ m.timeframe)
  else none

def Market.listKey (m : Market) : String :=
  "marketdata:" ++ m.exchange ++ ":ohlcv_" ++ m.timeframe ++ ":" ++ m.symbol

/-- The database, by the market and the time of a bar, and the lists of the cache. -/
structure Store (F : Type) where
  db : Dict BarKey (OhlcvBar F)
  cache : Dict String (List (List Char))

/-- The elements between two places of a list, both counted from its end if negative. -/
def lrange (l : List α) (start stop : Int) : List α :=
  let place := fun i : Int => if i < 0 then i + l.length else i
  (l.take (place stop + 1).toNat).drop (place start).toNat

/-- The bars of a market, newest first. -/
def newest (db : Dict BarKey (OhlcvBar F)) (m : Market) : List (OhlcvBar F) :=
  ((db.filter fun p => p.1.market = m).map Prod.snd).insertionSort fun a b => b.ts ≤ a.ts

def executeInsert (m : Market) (bars : List (OhlcvBar F))
    (db : Dict BarKey (OhlcvBar F)) : Dict BarKey (OhlcvBar F) :=
  bars.foldl (fun db b => Dict.set ⟨m, b.ts⟩ b db) db

def lpushAndTrim (key : String) (values : List (List Char)) (maxLen : Nat)
    (cache : Dict String (List (List Char))) : Dict String (List (List Char)) :=
  Dict.set key ((values.reverse ++ (cache.lookup key).getD []).take maxLen) cache

def prices : List String := ["ts", "open", "high", "low", "close", "volume"]

theorem build_payload (b : OhlcvBar F) : b.payload.build = b.payload := by
  obtain ⟨ts, opening, high, low, close, volume, quote, trades⟩ := b
  cases quote with
  | none =>
    cases trades with
    | none =>
      have hnodup : (prices ++ []).Nodup := by decide
      exact congrArg Value.dict (Dict.ofPairs_of_distinct hnodup)
    | some n =>
      exact congrArg Value.dict (Dict.ofPairs_of_distinct
        (show (prices ++ ["trades_count"]).Nodup by decide))
  | some x =>
    cases trades with
    | none =>
      exact congrArg Value.dict (Dict.ofPairs_of_distinct
        (show (prices ++ ["quote_volume"]).Nodup by decide))
    | some n =>
      exact congrArg Value.dict (Dict.ofPairs_of_distinct
        (show (prices ++ ["quote_volume", "trades_count"]).Nodup by decide))

theorem payload_injective : Function.Injective (OhlcvBar.payload : OhlcvBar F → Json F) := by
  rintro ⟨ts, o, h, l, c, v, quote, trades⟩ ⟨ts', o', h', l', c', v', quote', trades'⟩ he
  cases quote <;> cases trades <;> cases quote' <;> cases trades' <;> simp_all [OhlcvBar.payload]

section
variable [FloatText F]

def OhlcvBar.toRedisJson (b : OhlcvBar F) : List Char := dumpsAscii .default b.payload

theorem loads_toRedisJson (b : OhlcvBar F) : loads b.toRedisJson = some b.payload := by
  rw [OhlcvBar.toRedisJson, loads_dumpsAscii, build_payload]

namespace Store

def init : Store F := ⟨[], []⟩

/-- `write_ohlcv_bars` with a cache writer that does not fail. -/
def writeOhlcvBars (s : Store F) (m : Market) (bars : List (OhlcvBar F)) :
    Except String Unit × Store F :=
  match m.error with
  | some message => (.error message, s)
  | none =>
    if bars = [] then (.ok (), s)
    else
      let sortedBars := bars.insertionSort fun a b => a.ts ≤ b.ts
      (.ok (), ⟨executeInsert m bars s.db, lpushAndTrim m.listKey
        (sortedBars.map OhlcvBar.toRedisJson) listBarLimit s.cache⟩)

def readBars (s : Store F) (m : Market) (limit : Nat) : List (Json F) :=
  ((newest s.db m).take limit).map OhlcvBar.payload

/-- What the cache reader decodes, `none` where it raises. -/
def readCache (s : Store F) (m : Market) (limit : Nat) : Option (List (Json F)) :=
  (lrange ((s.cache.lookup m.listKey).getD []) 0 (limit - 1)).mapM loads

/-- `read_ohlcv_list_or_fallback`, with a cache reader or without. -/
def read (s : Store F) (m : Market) (limit : Nat) (cached : Bool) : Except String (List (Json F)) :=
  match m.error with
  | some message => .error message
  | none =>
    match if cached then s.readCache m limit else none with
    | some (bar :: bars) => .ok (bar :: bars)
    | _ => .ok (s.readBars m limit)

end Store
end

/-- No other valid market has the list of a market. -/
def Market.Alone (m : Market) : Prop :=
  ∀ m' : Market, m'.error = none → m'.listKey = m.listKey → m' = m

/-- The bars of a batch as they are pushed, the last one first, before those that are there. -/
def pushed (bars stored : List (OhlcvBar F)) : List (OhlcvBar F) :=
  (bars.insertionSort fun a b => a.ts ≤ b.ts).reverse ++ stored

/-- Of the bars of a batch and those before it, the list keeps bars in the order of their times, and
no other bar is newer than one of them, unless the list has another bar of its time. -/
def InOrder (bars stored : List (OhlcvBar F)) : Prop :=
  NewestFirst OhlcvBar.ts ((pushed bars stored).take listBarLimit) ∧
    ∀ x ∈ (pushed bars stored).drop listBarLimit,
      (∃ y ∈ (pushed bars stored).take listBarLimit, y.ts = x.ts) ∨
        ∀ y ∈ (pushed bars stored).take listBarLimit, x.ts < y.ts

instance (bars stored : List (OhlcvBar F)) : Decidable (InOrder bars stored) :=
  inferInstanceAs (Decidable (List.Pairwise _ _ ∧ ∀ x ∈ _, (∃ y ∈ _, _) ∨ ∀ y ∈ _, _))

/-- A batch that is written goes to a market with a list of its own, and is in order. -/
def Fits (s : Store F) (w : Market × List (OhlcvBar F)) : Prop :=
  w.1.error = none → w.2 ≠ [] → w.1.Alone ∧ InOrder w.2 (newest s.db w.1)

section
variable [FloatText F]

/-- A read gives the same bars with and without the cache, newest first, one for each time. -/
def Agrees (s : Store F) : Prop :=
  ∀ (m : Market) (limit : Nat), 1 ≤ limit → limit ≤ listBarLimit →
    s.read m limit true = s.read m limit false ∧ ∀ js, s.read m limit true = .ok js →
      ∃ bars : List (OhlcvBar F), js = bars.map OhlcvBar.payload ∧ NewestFirst OhlcvBar.ts bars

/-- The lists of the cache hold the newest bars of the database. -/
structure Inv (s : Store F) : Prop where
  keyed : ∀ p ∈ s.db, p.1.ts = p.2.ts
  distinct : Dict.Distinct s.db
  cache : ∀ m : Market, m.error = none → (s.cache.lookup m.listKey).getD [] =
    ((newest s.db m).take listBarLimit).map OhlcvBar.toRedisJson
  alone : ∀ m : Market, newest s.db m ≠ [] → m.Alone

variable {s t : Store F} {m : Market} {bars : List (OhlcvBar F)}

end

section
variable {db : Dict BarKey (OhlcvBar F)} {m : Market}

/-- The key of a bar has its time. -/
def Keyed (db : Dict BarKey (OhlcvBar F)) : Prop := ∀ p ∈ db, p.1.ts = p.2.ts

theorem mem_newest (hd : Dict.Distinct db) (hk : Keyed db) {b : OhlcvBar F} :
    b ∈ newest db m ↔ db.lookup ⟨m, b.ts⟩ = some b := by
  rw [newest, List.mem_insertionSort, Dict.lookup_eq_some_iff hd]
  constructor
  · intro h
    obtain ⟨⟨⟨m', t⟩, b'⟩, hp, rfl⟩ := List.mem_map.1 h
    obtain ⟨hp, hm⟩ := List.mem_filter.1 hp
    have ht := hk _ hp
    rw [decide_eq_true_eq] at hm
    dsimp only at hm ht ⊢
    rw [← hm, ← ht]
    exact hp
  · intro h
    exact List.mem_map.2 ⟨_, List.mem_filter.2 ⟨h, decide_eq_true rfl⟩, rfl⟩

theorem newestFirst_newest (hd : Dict.Distinct db) (hk : Keyed db) (m : Market) :
    NewestFirst OhlcvBar.ts (newest db m) := by
  have : Std.Total fun a b : OhlcvBar F => b.ts ≤ a.ts := ⟨fun a b => le_total b.ts a.ts⟩
  have : IsTrans (OhlcvBar F) fun a b => b.ts ≤ a.ts := ⟨fun a b c h h' => h'.trans h⟩
  have hle : (newest db m).Pairwise fun a b => b.ts ≤ a.ts := List.pairwise_insertionSort ..
  have hnodup : (((db.filter fun p => p.1.market = m).map Prod.snd).map OhlcvBar.ts).Nodup := by
    have hkeys : ((db.filter fun p => p.1.market = m).map Prod.fst).Nodup :=
      List.Nodup.sublist (List.filter_sublist.map Prod.fst) hd
    have hts : ((db.filter fun p => p.1.market = m).map Prod.snd).map OhlcvBar.ts =
        ((db.filter fun p => p.1.market = m).map Prod.fst).map BarKey.ts := by
      rw [List.map_map, List.map_map]
      exact List.map_congr_left fun p hp => (hk p (List.mem_of_mem_filter hp)).symm
    rw [hts]
    refine List.Nodup.map_on ?_ hkeys
    rintro ⟨m₁, t₁⟩ h₁ ⟨m₂, t₂⟩ h₂ he
    obtain ⟨p, hp, hp₁⟩ := List.mem_map.1 h₁
    obtain ⟨q, hq, hq₂⟩ := List.mem_map.1 h₂
    have hm₁ := (List.mem_filter.1 hp).2
    have hm₂ := (List.mem_filter.1 hq).2
    rw [decide_eq_true_eq] at hm₁ hm₂
    rw [hp₁] at hm₁
    rw [hq₂] at hm₂
    exact BarKey.mk.injEq .. ▸ ⟨hm₁.trans hm₂.symm, he⟩
  have hne : (newest db m).Pairwise fun a b => a.ts ≠ b.ts :=
    List.pairwise_map.1 (((List.perm_insertionSort _ _).map OhlcvBar.ts).nodup_iff.2 hnodup)
  exact (hle.and hne).imp fun h => lt_of_le_of_ne h.1 h.2.symm

theorem find?_newest (hd : Dict.Distinct db) (hk : Keyed db) (t : Int) :
    (newest db m).find? (fun b => b.ts = t) = db.lookup ⟨m, t⟩ := by
  cases hl : db.lookup ⟨m, t⟩ with
  | none =>
    rw [List.find?_eq_none]
    intro b hb ht
    rw [decide_eq_true_eq] at ht
    rw [mem_newest hd hk, ht, hl] at hb
    cases hb
  | some b =>
    obtain rfl : t = b.ts := hk _ (Dict.lookup_mem hl)
    exact (newestFirst_newest hd hk m).find?_eq ((mem_newest hd hk).2 hl)

theorem lookup_executeInsert (bars : List (OhlcvBar F)) (m' : Market) (t : Int) :
    (executeInsert m bars db).lookup ⟨m', t⟩ =
      if m' = m then (bars.reverse.find? fun b => b.ts = t).or (db.lookup ⟨m', t⟩)
      else db.lookup ⟨m', t⟩ := by
  induction bars generalizing db with
  | nil =>
    split
    · rfl
    · rfl
  | cons b bars ih =>
    rw [executeInsert, List.foldl_cons, ← executeInsert, ih]
    by_cases hm : m' = m
    · subst hm
      rw [if_pos rfl, if_pos rfl, List.reverse_cons, List.find?_append, Option.or_assoc]
      congr 1
      by_cases ht : b.ts = t
      · subst ht
        rw [Dict.lookup_set_self, List.find?_singleton, if_pos (decide_eq_true rfl)]
        rfl
      · rw [Dict.lookup_set_ne fun he => ht (congrArg BarKey.ts he).symm, List.find?_singleton,
          if_neg (by simpa using ht)]
        rfl
    · rw [if_neg hm, if_neg hm, Dict.lookup_set_ne fun he => hm (congrArg BarKey.market he)]

theorem distinct_executeInsert (hd : Dict.Distinct db) (bars : List (OhlcvBar F)) :
    Dict.Distinct (executeInsert m bars db) := by
  induction bars generalizing db with
  | nil => exact hd
  | cons b bars ih => exact ih (hd.set ..)

theorem keyed_set (hk : Keyed db) (b : OhlcvBar F) : Keyed (Dict.set ⟨m, b.ts⟩ b db) := by
  induction db with
  | nil =>
    intro p hp
    rw [List.mem_singleton.1 hp]
  | cons q db ih =>
    obtain ⟨hq, hdb⟩ := List.forall_mem_cons.1 hk
    intro p hp
    rw [Dict.set] at hp
    split at hp
    · rename_i he
      obtain rfl | hp := List.mem_cons.1 hp
      · exact congrArg BarKey.ts he
      · exact hdb p hp
    · obtain rfl | hp := List.mem_cons.1 hp
      · exact hq
      · exact ih hdb p hp

theorem keyed_executeInsert (hk : Keyed db) (bars : List (OhlcvBar F)) :
    Keyed (executeInsert m bars db) := by
  induction bars generalizing db with
  | nil => exact hk
  | cons b bars ih => exact ih (keyed_set hk b)

/-- What the database has after a batch is what comes first in the list. -/
theorem firsts_pushed (hd : Dict.Distinct db) (hk : Keyed db) (bars : List (OhlcvBar F)) :
    Firsts OhlcvBar.ts (pushed bars (newest db m)) (newest (executeInsert m bars db) m) := by
  intro b
  rw [mem_newest (distinct_executeInsert hd bars) (keyed_executeInsert hk bars),
    lookup_executeInsert, if_pos rfl, pushed, List.find?_append, find?_newest hd hk,
    find?_reverse_insertionSort]

/-- The list holds the newest bars after a batch exactly if the batch is in order. -/
theorem take_pushed_iff (hd : Dict.Distinct db) (hk : Keyed db) (bars : List (OhlcvBar F)) :
    (pushed bars (newest db m)).take listBarLimit =
      (newest (executeInsert m bars db) m).take listBarLimit ↔ InOrder bars (newest db m) :=
  take_eq_take_iff (newestFirst_newest (distinct_executeInsert hd bars)
    (keyed_executeInsert hk bars) m) (firsts_pushed hd hk bars) listBarLimit

/-- A batch does not change the other markets. -/
theorem newest_executeInsert_ne (hd : Dict.Distinct db) (hk : Keyed db)
    (bars : List (OhlcvBar F)) {m' : Market} (hm : m' ≠ m) :
    newest (executeInsert m bars db) m' = newest db m' := by
  have hd' := distinct_executeInsert (m := m) hd bars
  have hk' := keyed_executeInsert (m := m) hk bars
  refine (newestFirst_newest hd' hk' m').eq_of_mem_iff (newestFirst_newest hd hk m') fun b => ?_
  rw [mem_newest hd' hk', mem_newest hd hk, lookup_executeInsert, if_neg hm]

theorem newest_executeInsert_ne_nil (hd : Dict.Distinct db) (hk : Keyed db)
    {bars : List (OhlcvBar F)} (hb : bars ≠ []) : newest (executeInsert m bars db) m ≠ [] := by
  obtain ⟨bs, b, rfl⟩ := List.eq_nil_or_concat bars |>.resolve_left hb
  have hmem := mem_newest (m := m) (b := b) (distinct_executeInsert (m := m) hd (bs.concat b))
    (keyed_executeInsert (m := m) hk (bs.concat b))
  refine List.ne_nil_of_mem (hmem.2 ?_)
  rw [lookup_executeInsert, if_pos rfl, List.concat_eq_append, List.reverse_append,
    List.reverse_singleton, List.singleton_append, List.find?_cons_of_pos (by simp)]
  rfl

end

section
variable [FloatText F] {s t : Store F} {m : Market} {bars : List (OhlcvBar F)}

theorem lrange_first (l : List α) {limit : Nat} (h : 1 ≤ limit) :
    lrange l 0 (limit - 1) = l.take limit := by
  have hstop : (limit : Int) - 1 + 1 = limit := by omega
  rw [lrange]
  dsimp only
  rw [if_neg (by omega), if_neg (by omega), hstop, Int.toNat_natCast, Int.toNat_zero,
    List.drop_zero]

theorem mapM_loads (bars : List (OhlcvBar F)) :
    (bars.map OhlcvBar.toRedisJson).mapM loads = some (bars.map OhlcvBar.payload) := by
  induction bars with
  | nil => rfl
  | cons b bars ih =>
    rw [List.map_cons, List.mapM_cons, loads_toRedisJson, ih]
    rfl

/-- What a read returns when the list holds some bars. -/
theorem read_cached (hm : m.error = none) {bars : List (OhlcvBar F)}
    (hc : (s.cache.lookup m.listKey).getD [] = (bars.take listBarLimit).map OhlcvBar.toRedisJson)
    {limit : Nat} (h : 1 ≤ limit) (hl : limit ≤ listBarLimit) (hb : bars ≠ []) :
    s.read m limit true = .ok ((bars.take limit).map OhlcvBar.payload) := by
  have hcache : s.readCache m limit = some ((bars.take limit).map OhlcvBar.payload) := by
    rw [Store.readCache, lrange_first _ h, hc, ← List.map_take, List.take_take, min_eq_left hl,
      mapM_loads]
  rw [Store.read, hm]
  dsimp only
  rw [if_pos rfl, hcache]
  obtain ⟨b, bs, rfl⟩ := List.exists_cons_of_ne_nil hb
  obtain ⟨n, rfl⟩ := Nat.exists_eq_succ_of_ne_zero (Nat.one_le_iff_ne_zero.1 h)
  rfl

theorem read_empty (hm : m.error = none) (hc : (s.cache.lookup m.listKey).getD [] = [])
    (limit : Nat) : s.read m limit true = .ok (s.readBars m limit) := by
  rw [Store.read, hm]
  dsimp only
  rw [if_pos rfl, Store.readCache, hc]
  have hnil : lrange ([] : List (List Char)) 0 (limit - 1) = [] := by
    rw [lrange, List.take_nil, List.drop_nil]
  rw [hnil]
  rfl

theorem read_database (hm : m.error = none) (limit : Nat) :
    s.read m limit false = .ok (s.readBars m limit) := by
  rw [Store.read, hm]
  rfl

theorem Inv.agrees (h : Inv s) : Agrees s := by
  intro m limit hl hn
  cases hm : m.error with
  | some message =>
    rw [Store.read, Store.read, hm]
    exact ⟨rfl, fun js hj => (nomatch hj)⟩
  | none =>
    have hnewest := newestFirst_newest h.distinct h.keyed m
    have hread : s.read m limit true = .ok (s.readBars m limit) := by
      by_cases hb : newest s.db m = []
      · refine read_empty hm ?_ limit
        rw [h.cache m hm, hb]
        rfl
      · exact read_cached hm (h.cache m hm) hl hn hb
    refine ⟨hread.trans (read_database hm limit).symm, fun js hj => ?_⟩
    rw [hread] at hj
    cases hj
    exact ⟨_, rfl, List.Pairwise.sublist (List.take_sublist limit _) hnewest⟩

theorem Inv.init : Inv (Store.init : Store F) where
  keyed := fun _ hp => (nomatch hp)
  distinct := List.nodup_nil
  cache := fun _ _ => rfl
  alone := fun _ hb => (hb rfl).elim

/-- The list of the market that a batch is written to. -/
theorem write_cache (h : Inv s) (hm : m.error = none) (bars : List (OhlcvBar F)) :
    ((lpushAndTrim m.listKey ((bars.insertionSort fun a b => a.ts ≤ b.ts).map
        OhlcvBar.toRedisJson) listBarLimit s.cache).lookup m.listKey).getD [] =
      ((pushed bars (newest s.db m)).take listBarLimit).map OhlcvBar.toRedisJson := by
  rw [lpushAndTrim, Dict.lookup_set_self, Option.getD_some, h.cache m hm, pushed,
    ← List.map_reverse, ← List.map_append, ← List.map_take]
  congr 1
  rw [List.take_append, List.take_append, List.take_take]
  congr 2
  omega

theorem write_eq (hm : m.error = none) (hb : bars ≠ []) :
    s.writeOhlcvBars m bars = (.ok (), ⟨executeInsert m bars s.db, lpushAndTrim m.listKey
      ((bars.insertionSort fun a b => a.ts ≤ b.ts).map OhlcvBar.toRedisJson) listBarLimit
        s.cache⟩) := by
  rw [Store.writeOhlcvBars, hm]
  dsimp only
  rw [if_neg hb]

/-- A call that writes no batch. -/
theorem write_unchanged (h : m.error = none → bars = []) : (s.writeOhlcvBars m bars).2 = s := by
  rw [Store.writeOhlcvBars]
  cases hm : m.error with
  | some message => rfl
  | none =>
    dsimp only
    rw [if_pos (h hm)]

theorem Inv.write (h : Inv s) (ha : Fits s (m, bars)) : Inv (s.writeOhlcvBars m bars).2 := by
  by_cases hmb : m.error = none → bars = []
  · rw [write_unchanged hmb]
    exact h
  · obtain ⟨hm, hb⟩ := Classical.not_imp.1 hmb
    obtain ⟨halone, horder⟩ := ha hm hb
    rw [write_eq hm hb]
    refine ⟨keyed_executeInsert h.keyed bars, distinct_executeInsert h.distinct bars, ?_, ?_⟩
    · intro m' hm'
      by_cases he : m' = m
      · subst he
        dsimp only
        rw [write_cache h hm, (take_pushed_iff h.distinct h.keyed bars).2 horder]
      · dsimp only
        rw [newest_executeInsert_ne h.distinct h.keyed bars he, ← h.cache m' hm', lpushAndTrim,
          Dict.lookup_set_ne fun hk => he (halone m' hm' hk)]
    · intro m' hb'
      by_cases he : m' = m
      · rw [he]
        exact halone
      · dsimp only at hb'
        rw [newest_executeInsert_ne h.distinct h.keyed bars he] at hb'
        exact h.alone m' hb'

theorem fits_of_agrees (h : Inv s) (ha : Agrees (s.writeOhlcvBars m bars).2) :
    Fits s (m, bars) := by
  change m.error = none → bars ≠ [] → m.Alone ∧ InOrder bars (newest s.db m)
  intro hm hb
  rw [write_eq hm hb] at ha
  have hp : pushed bars (newest s.db m) ≠ [] := by
    have hsorted : (bars.insertionSort fun a b => a.ts ≤ b.ts) ≠ [] := by
      rw [← List.length_pos_iff, List.length_insertionSort]
      exact List.length_pos_iff.2 hb
    exact List.append_ne_nil_of_left_ne_nil (mt List.reverse_eq_nil_iff.1 hsorted) _
  have hcache := write_cache h hm bars
  constructor
  · intro m' hm' hk
    by_contra hne
    have hnil : newest s.db m' = [] := by
      by_contra hn
      exact hne (h.alone m' hn m hm hk.symm).symm
    have hread := (ha m' 1 le_rfl (by decide)).1
    rw [← hk] at hcache
    rw [← hk, read_cached hm' hcache le_rfl (by decide) hp, read_database hm', Store.readBars,
      newest_executeInsert_ne h.distinct h.keyed bars hne, hnil] at hread
    obtain ⟨b, bs, hcons⟩ := List.exists_cons_of_ne_nil hp
    rw [hcons] at hread
    cases hread
  · have hread := (ha m listBarLimit (by decide) le_rfl).1
    rw [read_cached hm hcache (by decide) le_rfl hp, read_database hm, Store.readBars] at hread
    exact (take_pushed_iff h.distinct h.keyed bars).1
      (List.map_injective_iff.2 payload_injective (Except.ok.inj hread))

/-- The reads after the batches of a run agree exactly if each batch that is written fits. -/
theorem agree_iff_fits {l : List ((Market × List (OhlcvBar F)) × Store F)}
    (ht : Run.Trace (fun s w t => t = (s.writeOhlcvBars w.1 w.2).2) Store.init l) :
    Run.Along (fun _ _ t => Agrees t) Store.init l ↔ Run.Always Fits Store.init l := by
  refine ht.along_iff_while Inv.init fun s w t h hs => ?_
  subst hs
  exact ⟨h.write, fits_of_agrees h, fun ha => (h.write ha).agrees⟩

end

theorem not_colon_of_mem : ∀ timeframe ∈ validTimeframes, ':' ∉ timeframe.toList := by decide

theorem Market.timeframe_mem {m : Market} (hm : m.error = none) :
    m.timeframe ∈ validTimeframes := by
  rw [Market.error] at hm
  split at hm
  · cases hm
  · split at hm
    · cases hm
    · rename_i ht
      exact not_not.1 ht

theorem listKey_toList (m : Market) : m.listKey.toList = "marketdata:".toList ++
    (m.exchange.toList ++ ':' :: ("ohlcv_".toList ++ (m.timeframe.toList ++
      ':' :: m.symbol.toList))) := by
  simp [Market.listKey]

/-- A market whose exchange and symbol have no colon has a list of its own. -/
theorem alone_of_no_colon {m : Market} (hm : m.error = none) (he : ':' ∉ m.exchange.toList)
    (hs : ':' ∉ m.symbol.toList) : m.Alone := by
  intro m' hm' hk
  have ht := not_colon_of_mem _ (Market.timeframe_mem hm)
  have ht' := not_colon_of_mem _ (Market.timeframe_mem hm')
  have hlist := congrArg String.toList hk
  rw [listKey_toList, listKey_toList, List.append_cancel_left_eq] at hlist
  have hcount := congrArg (List.count ':') hlist
  rw [List.count_append, List.count_cons_self, List.count_append, List.count_append,
    List.count_cons_self, List.count_append, List.count_cons_self, List.count_append,
    List.count_append, List.count_cons_self, List.count_eq_zero.2 ht, List.count_eq_zero.2 ht',
    List.count_eq_zero.2 he, List.count_eq_zero.2 hs] at hcount
  have he' : ':' ∉ m'.exchange.toList := List.count_eq_zero.1 (by omega)
  obtain ⟨hexchange, hrest⟩ := Separated.append_sep_inj he' he hlist
  rw [List.append_cancel_left_eq] at hrest
  obtain ⟨htimeframe, hsymbol⟩ := Separated.append_sep_inj ht' ht hrest
  obtain ⟨e, s, t⟩ := m
  obtain ⟨e', s', t'⟩ := m'
  rw [Market.mk.injEq]
  exact ⟨String.toList_injective hexchange, String.toList_injective hsymbol,
    String.toList_injective htimeframe⟩

def day (n : Int) : OhlcvBar WholeFloat :=
  ⟨86400000 * n, .finite ⟨n⟩, .finite ⟨n⟩, .finite ⟨n⟩, .finite ⟨n⟩, .finite ⟨n⟩, none, none⟩

def btc : Market := ⟨"binance", "BTC-USDT", "1d"⟩

theorem btc_alone : btc.Alone := alone_of_no_colon (by decide) (by decide) (by decide)

/-- Two batches of bars, each newer than those before. -/
theorem newer_agree : Run.Along (fun _ _ t => Agrees t) (Store.init : Store WholeFloat)
    (Run.steps (fun s w => (s.writeOhlcvBars w.1 w.2).2) Store.init
      [(btc, [day 2, day 1]), (btc, [day 3])]) := by
  refine (agree_iff_fits (Run.steps_trace ..)).2 ?_
  exact ⟨fun _ _ => ⟨btc_alone, by decide⟩, fun _ _ => ⟨btc_alone, by decide⟩, trivial⟩

/-- A corrected bar is pushed in front of the one that it replaces in the database. -/
theorem corrected_bar_twice :
    ¬ ∀ l : List ((Market × List (OhlcvBar WholeFloat)) × Store WholeFloat),
      Run.Trace (fun s w t => t = (s.writeOhlcvBars w.1 w.2).2) Store.init l →
        Run.Along (fun _ _ t => Agrees t) Store.init l := by
  intro h
  obtain ⟨-, ha, -⟩ := h _ (Run.steps_trace _ _ [(btc, [day 1]), (btc, [day 1])])
  have hfirst : Inv (Store.init.writeOhlcvBars btc [day 1]).2 :=
    Inv.init.write fun _ _ => ⟨btc_alone, by decide⟩
  have hfits := (fits_of_agrees hfirst ha rfl (List.cons_ne_nil _ _)).2
  exact absurd hfits (by decide)

end Obase.OhlcvStore
