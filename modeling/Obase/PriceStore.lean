import Obase.Casing
import Obase.Concrete

namespace Obase.PriceStore
set_option autoImplicit true
open Json

/-- What a conversion raises: `InvalidOperation` of the decimals, or anything else. -/
inductive Raised where
  | invalidOperation
  | other (e : PyError)

/-- The values of cache entries, those that are not `None`, and the decimals made of them. -/
structure Values (V D : Type) where
  truthy : V → Bool
  str : V → Except Raised (List Char)
  decimal : List Char → Except Raised D

abbrev Entry (V : Type) := Dict String (Option V)

/-- A cache whose `mget` is the pointwise `get`. -/
abbrev CacheClient (V : Type) := String → Option (Entry V)

abbrev DbClient (D : Type) := String → Except PyError (Option D)

def CacheClient.mget (get : CacheClient V) (keys : List String) : List (Option (Entry V)) :=
  keys.map get

/-- `str.upper`. -/
def upper (U : Casing) (symbol : String) : String := .ofList (U.upperText symbol.toList)

def latestKey (sym : String) : String := "market:latest:" ++ sym

namespace Values
variable (S : Values V D)

/-- `a or b`. -/
def either (a b : Option V) : Option V := if a.any S.truthy then a else b

/-- `data.get("price") or data.get("close") or data.get("last")`. -/
def rawPrice (data : Entry V) : Option V :=
  S.either (S.either (data.lookup "price").join (data.lookup "close").join)
    (data.lookup "last").join

/-- What both lookups do with an entry: its price, if it has one, or what they raise. -/
def entryPrice : Option (Entry V) → Except Raised (Option D)
  | none => .ok none
  | some [] => .ok none
  | some data =>
    match S.rawPrice data with
    | none => .ok none
    | some raw =>
      match S.str raw >>= S.decimal with
      | .ok price => .ok (some price)
      | .error .invalidOperation => .ok none
      | .error (.other e) => .error (.other e)

/-- The entry of a symbol in the cache, if there is a cache. -/
def cachePrice (cache : Option (CacheClient V)) (sym : String) : Except Raised (Option D) :=
  match cache with
  | none => .ok none
  | some get => S.entryPrice (get (latestKey sym))

end Values

/-- The price that the database has, `none` also where it raises. -/
def dbPrice (db : Option (DbClient D)) (sym : String) : Option D :=
  match db with
  | none => none
  | some getLatest =>
    match getLatest sym with
    | .ok price => price
    | .error _ => none

def getLatestPrice (S : Values V D) (U : Casing) (cache : Option (CacheClient V))
    (db : Option (DbClient D)) (symbol : String) : Option D :=
  let sym := upper U symbol
  match S.cachePrice cache sym with
  | .ok (some price) => some price
  | .ok none => dbPrice db sym
  | .error _ => dbPrice db sym

/-- The loop over the entries: the prices so far, with the missing symbols unless it raises. -/
def scanEntries (S : Values V D) : List (String × Option (Entry V)) → Dict String D →
    List String → Dict String D × Except Raised (List String)
  | [], prices, missing => (prices, .ok missing)
  | (sym, data) :: rest, prices, missing =>
    match S.entryPrice data with
    | .ok (some price) => scanEntries S rest (Dict.set sym price prices) missing
    | .ok none => scanEntries S rest prices (missing ++ [sym])
    | .error e => (prices, .error e)

/-- The loop over the missing symbols. -/
def fillMissing (db : Option (DbClient D)) : List String → Dict String D →
    Dict String D
  | [], prices => prices
  | sym :: missing, prices =>
    if sym ∈ Dict.keys prices then fillMissing db missing prices
    else
      match dbPrice db sym with
      | some price => fillMissing db missing (Dict.set sym price prices)
      | none => fillMissing db missing prices

def getPricesBatch (S : Values V D) (U : Casing) (cache : Option (CacheClient V))
    (db : Option (DbClient D)) (symbols : List String) : Dict String D :=
  let syms := symbols.map (upper U)
  match cache with
  | none => fillMissing db syms []
  | some get =>
    match scanEntries S (syms.zip (CacheClient.mget get (syms.map latestKey))) [] [] with
    | (prices, .ok missing) => fillMissing db missing prices
    | (prices, .error _) => fillMissing db syms prices

/-- The batch gives each upper-cased symbol the price of the single lookup, where it has one. -/
def Agrees (S : Values V D) (U : Casing) (cache : Option (CacheClient V))
    (db : Option (DbClient D)) (symbols : List String) : Prop :=
  ∀ sym price, (getPricesBatch S U cache db symbols).lookup sym = some price ↔
    ∃ symbol ∈ symbols, upper U symbol = sym ∧
      getLatestPrice S U cache db symbol = some price

theorem lookup_fillMissing (db : Option (DbClient D)) (missing : List String)
    (prices : Dict String D) (sym : String) :
    (fillMissing db missing prices).lookup sym =
      (prices.lookup sym).or (if sym ∈ missing then dbPrice db sym else none) := by
  induction missing generalizing prices with
  | nil => simp [fillMissing]
  | cons t missing ih =>
    rw [fillMissing]
    by_cases ht : t ∈ Dict.keys prices
    · rw [if_pos ht, ih]
      by_cases hs : sym = t
      · subst hs
        obtain ⟨price, hp⟩ := Dict.mem_keys_iff.1 ht
        rw [hp, Option.some_or, Option.some_or]
      · simp [hs]
    · rw [if_neg ht]
      by_cases hs : sym = t
      · subst hs
        have hn := Dict.lookup_eq_none_of_not_mem ht
        cases hd : dbPrice db sym with
        | none => simp [ih, hn, hd]
        | some price => simp [ih, hn]
      · cases hd : dbPrice db t with
        | none => simp [ih, hs]
        | some price => simp [ih, Dict.lookup_set_ne hs, hs]

/-- What the loop over the entries of the symbols finds, with the symbols before it raises. -/
theorem lookup_scanEntries {S : Values V D} {get : CacheClient V} {syms : List String}
    {prices₀ prices : Dict String D} {missing₀ : List String}
    {r : Except Raised (List String)}
    (h : scanEntries S (syms.zip (CacheClient.mget get (syms.map latestKey))) prices₀ missing₀ =
      (prices, r)) (sym : String) :
    prices.lookup sym =
      if sym ∈ syms.takeWhile (fun t => (S.cachePrice (some get) t).isOk) then
        (match S.cachePrice (some get) sym with
          | .ok (some price) => some price
          | _ => prices₀.lookup sym)
      else prices₀.lookup sym := by
  induction syms generalizing prices₀ missing₀ with
  | nil =>
    cases h
    rfl
  | cons t syms ih =>
    rw [List.map_cons, CacheClient.mget, List.map_cons, ← CacheClient.mget, List.zip_cons_cons,
      scanEntries] at h
    rw [List.takeWhile_cons]
    cases he : S.entryPrice (get (latestKey t)) with
    | error e =>
      rw [he] at h
      cases h
      have ha : (S.cachePrice (some get) t).isOk = false := by
        rw [Values.cachePrice, he]
        rfl
      rw [ha]
      rfl
    | ok p =>
      have ha : (S.cachePrice (some get) t).isOk = true := by
        rw [Values.cachePrice, he]
        rfl
      rw [ha, if_pos rfl]
      by_cases hs : sym = t
      · subst hs
        rw [if_pos (List.mem_cons_self ..), Values.cachePrice, he]
        cases p with
        | none =>
          rw [he] at h
          rw [ih h, Values.cachePrice, he]
          exact ite_self _
        | some price =>
          rw [he] at h
          rw [ih h, Values.cachePrice, he, Dict.lookup_set_self]
          exact ite_self _
      · simp only [List.mem_cons, hs, false_or]
        cases p with
        | none =>
          rw [he] at h
          exact ih h
        | some price =>
          rw [he] at h
          rw [ih h, Dict.lookup_set_ne hs]

/-- A loop that does not raise leaves the symbols without a price as missing. -/
theorem missing_scanEntries {S : Values V D} {get : CacheClient V} {syms : List String}
    {prices₀ prices : Dict String D} {missing₀ missing : List String}
    (h : scanEntries S (syms.zip (CacheClient.mget get (syms.map latestKey))) prices₀ missing₀ =
      (prices, .ok missing)) :
    (∀ t ∈ syms, (S.cachePrice (some get) t).isOk = true) ∧
      ∀ sym, sym ∈ missing ↔
        sym ∈ missing₀ ∨ sym ∈ syms ∧ S.cachePrice (some get) sym = .ok none := by
  induction syms generalizing prices₀ missing₀ with
  | nil =>
    cases h
    simp
  | cons t syms ih =>
    rw [List.map_cons, CacheClient.mget, List.map_cons, ← CacheClient.mget, List.zip_cons_cons,
      scanEntries] at h
    cases he : S.entryPrice (get (latestKey t)) with
    | error e =>
      rw [he] at h
      cases h
    | ok p =>
      have hc : S.cachePrice (some get) t = .ok p := he
      have ha : (S.cachePrice (some get) t).isOk = true := by
        rw [hc]
        rfl
      cases p with
      | none =>
        rw [he] at h
        obtain ⟨hall, hmem⟩ := ih h
        refine ⟨List.forall_mem_cons.2 ⟨ha, hall⟩, fun sym => ?_⟩
        rw [hmem, List.mem_append, List.mem_singleton, List.mem_cons]
        constructor
        · rintro ((hm | rfl) | ⟨hm, hn⟩)
          · exact .inl hm
          · exact .inr ⟨.inl rfl, hc⟩
          · exact .inr ⟨.inr hm, hn⟩
        · rintro (hm | ⟨rfl | hm, hn⟩)
          · exact .inl (.inl hm)
          · exact .inl (.inr rfl)
          · exact .inr ⟨hm, hn⟩
      | some price =>
        rw [he] at h
        obtain ⟨hall, hmem⟩ := ih h
        refine ⟨List.forall_mem_cons.2 ⟨ha, hall⟩, fun sym => ?_⟩
        rw [hmem, List.mem_cons]
        constructor
        · rintro (hm | ⟨hm, hn⟩)
          · exact .inl hm
          · exact .inr ⟨.inr hm, hn⟩
        · rintro (hm | ⟨rfl | hm, hn⟩)
          · exact .inl hm
          · rw [hc] at hn
            cases hn
          · exact .inr ⟨hm, hn⟩

/-- What the batch finds for a symbol. -/
theorem lookup_getPricesBatch (S : Values V D) (U : Casing) (cache : Option (CacheClient V))
    (db : Option (DbClient D)) (symbols : List String) (sym : String) :
    (getPricesBatch S U cache db symbols).lookup sym =
      if sym ∈ symbols.map (upper U) then
        match S.cachePrice cache sym with
        | .ok (some price) =>
          if sym ∈ (symbols.map (upper U)).takeWhile (fun t => (S.cachePrice cache t).isOk) then
            some price
          else dbPrice db sym
        | _ => dbPrice db sym
      else none := by
  cases cache with
  | none =>
    rw [getPricesBatch, lookup_fillMissing]
    rfl
  | some get =>
    rw [getPricesBatch]
    obtain ⟨⟨prices, r⟩, hr⟩ := Exists.intro _ (Eq.refl (scanEntries S
      ((symbols.map (upper U)).zip (CacheClient.mget get ((symbols.map (upper U)).map latestKey)))
      [] []))
    have hp := lookup_scanEntries hr sym
    rw [hr]
    generalize symbols.map (upper U) = syms at hr hp ⊢
    have hsub (h : sym ∈ syms.takeWhile fun t => (S.cachePrice (some get) t).isOk) : sym ∈ syms :=
      List.takeWhile_subset _ h
    cases r with
    | error e =>
      rw [lookup_fillMissing, hp]
      by_cases hs : sym ∈ syms
      · rw [if_pos hs, if_pos hs]
        cases hc : S.cachePrice (some get) sym with
        | error e => simp
        | ok p =>
          cases p with
          | none => simp
          | some price =>
            by_cases hw : sym ∈ syms.takeWhile fun t => (S.cachePrice (some get) t).isOk
            · rw [if_pos hw]
              exact (if_pos hw).symm
            · rw [if_neg hw]
              exact (if_neg hw).symm
      · rw [if_neg hs, if_neg hs, if_neg fun h => hs (hsub h)]
        rfl
    | ok missing =>
      obtain ⟨hall, hmem⟩ := missing_scanEntries hr
      rw [List.takeWhile_eq_self_iff.2 hall] at hp ⊢
      rw [lookup_fillMissing, hp]
      by_cases hs : sym ∈ syms
      · rw [if_pos hs, if_pos hs]
        cases hc : S.cachePrice (some get) sym with
        | error e =>
          have ha := hall sym hs
          rw [hc] at ha
          cases ha
        | ok p =>
          cases p with
          | none => simp [hmem, hs, hc]
          | some price => exact (if_pos hs).symm
      · simp [hmem, hs]

/-- What the single lookup gives for the symbols of a batch. -/
theorem single_iff (S : Values V D) (U : Casing) (cache : Option (CacheClient V))
    (db : Option (DbClient D)) (symbols : List String) (sym : String) (price : D) :
    (∃ symbol ∈ symbols, upper U symbol = sym ∧
        getLatestPrice S U cache db symbol = some price) ↔
      sym ∈ symbols.map (upper U) ∧
        (match S.cachePrice cache sym with
          | .ok (some price) => some price
          | _ => dbPrice db sym) = some price := by
  have hval (symbol : String) : getLatestPrice S U cache db symbol =
      match S.cachePrice cache (upper U symbol) with
      | .ok (some price) => some price
      | _ => dbPrice db (upper U symbol) := by
    rw [getLatestPrice]
    rcases S.cachePrice cache (upper U symbol) with e | _ | p <;> rfl
  constructor
  · rintro ⟨symbol, hm, rfl, hp⟩
    rw [hval] at hp
    exact ⟨List.mem_map_of_mem hm, hp⟩
  · rintro ⟨hm, hp⟩
    obtain ⟨symbol, hs, rfl⟩ := List.mem_map.1 hm
    rw [← hval] at hp
    exact ⟨symbol, hs, rfl, hp⟩

/-- The batch and the single lookup agree when, after an entry that raises, the cache has no
price that the database does not give as well. -/
theorem getPricesBatch_iff (S : Values V D) (U : Casing) (cache : Option (CacheClient V))
    (db : Option (DbClient D)) (symbols : List String) :
    Agrees S U cache db symbols ↔ ∀ sym ∈ symbols.map (upper U), ∀ price,
      S.cachePrice cache sym = .ok (some price) →
        sym ∈ (symbols.map (upper U)).takeWhile (fun t => (S.cachePrice cache t).isOk) ∨
          dbPrice db sym = some price := by
  constructor
  · intro h sym hm price hc
    have hs := (h sym price).2 ((single_iff ..).2 ⟨hm, by rw [hc]⟩)
    rw [lookup_getPricesBatch, if_pos hm, hc] at hs
    dsimp only at hs
    split at hs
    · rename_i hw
      exact .inl hw
    · exact .inr hs
  · intro h sym price
    rw [single_iff, lookup_getPricesBatch]
    by_cases hm : sym ∈ symbols.map (upper U)
    · rw [if_pos hm]
      simp only [hm, true_and]
      rcases hc : S.cachePrice cache sym with e | _ | p
      · rfl
      · rfl
      · dsimp only
        rcases h sym hm p hc with hw | hd
        · rw [if_pos hw]
        · rw [hd, ite_self]
    · simp [hm]

/-- Integers, written out up to the limit of 4300 digits of the interpreter. -/
def integers : Values Int Int where
  truthy n := n ≠ 0
  str n := if n.natAbs < 10 ^ 4300 then .ok (intText n) else .error (.other .valueError)
  decimal cs := if isIntLiteral cs then .ok (intOfLiteral cs) else .error .invalidOperation

/-- A price of more than 4300 digits for the first symbol hides that of the second. -/
theorem long_price_hides : ¬ Agrees integers .ascii
    (some fun key => [(latestKey "A", [("price", some (10 ^ 5000))]),
      (latestKey "B", [("price", some 1)])].lookup key) none ["A", "B"] := by
  intro h
  have hb := (h "B" 1).2 ⟨"B", by decide, by decide +kernel, by decide +kernel⟩
  revert hb
  decide +kernel

end Obase.PriceStore
