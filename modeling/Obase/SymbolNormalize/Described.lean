import Obase.Json.Number
import Obase.SymbolNormalize.RoundTrip

namespace Obase.SymbolNormalize
set_option autoImplicit true

/-- The tag of an instrument in a canonical symbol. -/
def Instrument.tag : Instrument → Option (List Char)
  | .asset => none
  | .spot => none
  | .perp => some "PERP".toList
  | .fut => some "FUT".toList
  | .call => some "CALL".toList
  | .put => some "PUT".toList

/-- The components in the canonical order. -/
def Components.parts (k : Components) : List (List Char) :=
  k.base :: (k.quote.toList ++ k.instrument.tag.toList ++
    (k.strike.map (Nat.toDigits 10)).toList ++ k.expiration.toList)

def Components.text (k : Components) : List Char := ['-'].intercalate k.parts

/-- The parts of the symbols that are told apart. -/
inductive Shaped : List (List Char) → Prop where
  | asset : Shaped [base]
  | spot (hq : quote ≠ "SPOT".toList) : Shaped [base, quote]
  | perp : Shaped [base, quote, "PERP".toList]
  | fut (he : expiration ≠ "SPOT".toList) : Shaped [base, quote, "FUT".toList, expiration]
  | option (ht : tag = "CALL".toList ∨ tag = "PUT".toList)
      (hk : Json.isNatLiteral strike = true) (he : expiration ≠ "SPOT".toList) :
      Shaped [base, quote, tag, strike, expiration]

theorem spotSuffix_iff (c : List Char) :
    spotSuffix <:+ c ↔ ∃ ps, ps ≠ [] ∧ c.splitOn '-' = ps ++ ["SPOT".toList] := by
  constructor
  · rintro ⟨t, rfl⟩
    refine ⟨t.splitOn '-', List.splitOn_ne_nil _ _, ?_⟩
    have hs : spotSuffix = '-' :: "SPOT".toList := by decide
    have hq : "SPOT".toList.splitOn '-' = ["SPOT".toList] := List.splitOn_eq_singleton (by decide)
    rw [hs, List.splitOn_append_cons_self, hq]
  · rintro ⟨ps, hps, h⟩
    obtain ⟨y, z, rfl, -, hz⟩ := Separated.exists_append_of_splitOn h hps (by simp)
    have hz' : z = "SPOT".toList := by
      rw [eq_of_splitOn hz]
      simp
    rw [hz']
    exact List.suffix_append y _

theorem parseInt_iff (s : List Char) (n : Nat) :
    parseInt s = some n ↔ (∀ c ∈ s, c.isDigit = true) ∧ Nat.ofDigitChars 10 s 0 = n := by
  rw [parseInt, Nat.ofDigitChars_eq_foldl]
  by_cases hs : s.all Char.isDigit = true
  · rw [if_pos hs, Option.some.injEq, and_iff_right (List.all_eq_true.1 hs)]
  · rw [if_neg hs]
    exact iff_of_false (nomatch ·) fun h => hs (List.all_eq_true.2 h.1)

/-- A strike is written as it was read unless it has leading zeros. -/
theorem toDigits_parseInt {s : List Char} {n : Nat} (h : parseInt s = some n) :
    Nat.toDigits 10 n = s ↔ Json.isNatLiteral s = true := by
  obtain ⟨-, rfl⟩ := (parseInt_iff s n).1 h
  constructor
  · intro hs
    rw [← hs]
    exact Json.toDigits_natLiteral _
  · exact Json.toDigits_of_literal

theorem parseInt_of_literal {s : List Char} (h : Json.isNatLiteral s = true) :
    ∃ n, parseInt s = some n :=
  ⟨_, (parseInt_iff s _).2 ⟨Json.natLiteral_digits h, rfl⟩⟩

/-- Only the strike of an option may be written otherwise than it was read. -/
theorem Parsed.parts_cases {k : Components} (h : Parsed parts k) :
    (k.parts = parts ∧ parts.length ≤ 4) ∨ ∃ base quote tag part expiration n,
      (tag = "CALL".toList ∨ tag = "PUT".toList) ∧ parseInt part = some n ∧
        parts = [base, quote, tag, part, expiration] ∧
        k.parts = [base, quote, tag, Nat.toDigits 10 n, expiration] := by
  cases h with
  | asset => exact .inl ⟨rfl, by simp⟩
  | spot => exact .inl ⟨rfl, by simp⟩
  | perp => exact .inl ⟨rfl, by simp⟩
  | fut => exact .inl ⟨rfl, by simp⟩
  | call hn => exact .inr ⟨_, _, _, _, _, _, .inl rfl, hn, rfl, rfl⟩
  | put hn => exact .inr ⟨_, _, _, _, _, _, .inr rfl, hn, rfl, rfl⟩

theorem Parsed.hyphen_not_mem {k : Components} (h : Parsed parts k) (hp : ∀ p ∈ parts, '-' ∉ p) :
    ∀ p ∈ k.parts, '-' ∉ p := by
  obtain ⟨he, -⟩ | ⟨base, quote, tag, part, expiration, n, -, -, rfl, he⟩ := h.parts_cases
  · rwa [he]
  · have hd : '-' ∉ Nat.toDigits 10 n := by
      intro hm
      have hc := digits_of_toDigits _ hm
      cases hc
    rw [he]
    simp only [List.forall_mem_cons] at hp ⊢
    exact ⟨hp.1, hp.2.1, hp.2.2.1, hd, hp.2.2.2.2⟩

theorem Parsed.text_eq_iff {k : Components} (h : Parsed (c.splitOn '-') k) :
    k.text = c ↔ k.parts = c.splitOn '-' := by
  have hk : k.text.splitOn '-' = k.parts :=
    List.splitOn_intercalate '-' (h.hyphen_not_mem fun p hp => Separated.not_mem_splitOn hp)
      (List.cons_ne_nil _ _)
  constructor
  · rintro rfl
    exact hk.symm
  · intro hp
    exact Separated.splitOn_inj (hk.trans hp)

theorem Parsed.shaped {k : Components} (h : Parsed parts k) (hk : k.parts = parts)
    (hs : ∀ ps, ps ≠ [] → parts ≠ ps ++ ["SPOT".toList]) : Shaped parts := by
  obtain ⟨-, hle⟩ | ⟨base, quote, tag, part, expiration, n, ht, hn, rfl, he⟩ := h.parts_cases
  · cases h with
    | asset => exact .asset
    | @spot base quote =>
      refine .spot fun hq => hs [base] (List.cons_ne_nil _ _) ?_
      rw [hq]
      rfl
    | perp => exact .perp
    | @fut base quote expiration =>
      refine .fut fun he => hs [base, quote, "FUT".toList] (List.cons_ne_nil _ _) ?_
      rw [he]
      rfl
    | call hn => simp at hle
    | put hn => simp at hle
  · have hd : Nat.toDigits 10 n = part := by
      rw [hk] at he
      simp only [List.cons.injEq, true_and, and_true] at he
      exact he.symm
    refine .option ht ((toDigits_parseInt hn).1 hd) fun he => ?_
    refine hs [base, quote, tag, part] (List.cons_ne_nil _ _) ?_
    rw [he]
    rfl

theorem Shaped.parsed (h : Shaped parts) : ∃ k, Parsed parts k ∧ k.parts = parts := by
  cases h with
  | asset => exact ⟨_, .asset, rfl⟩
  | spot hq => exact ⟨_, .spot, rfl⟩
  | perp => exact ⟨_, .perp, rfl⟩
  | fut he => exact ⟨_, .fut, rfl⟩
  | option ht hk he =>
    obtain ⟨n, hn⟩ := parseInt_of_literal hk
    have hd := (toDigits_parseInt hn).2 hk
    rcases ht with rfl | rfl
    · refine ⟨_, .call hn, ?_⟩
      rw [← hd]
      rfl
    · refine ⟨_, .put hn, ?_⟩
      rw [← hd]
      rfl

theorem Shaped.not_spot (h : Shaped parts) {ps : List (List Char)} (hps : ps ≠ []) :
    parts ≠ ps ++ ["SPOT".toList] := by
  intro hspot
  have hl : parts.getLast? = some "SPOT".toList := by
    rw [hspot, List.getLast?_concat]
  cases h with
  | asset =>
    have hn := congrArg List.length hspot
    rw [List.length_append, List.length_singleton, List.length_singleton] at hn
    exact hps (List.length_eq_zero_iff.1 (Nat.succ.inj hn).symm)
  | spot hq => exact hq (Option.some.inj hl)
  | perp =>
    have hp : "PERP".toList = "SPOT".toList := Option.some.inj hl
    exact absurd hp (by decide)
  | fut he => exact he (Option.some.inj hl)
  | option ht hk he => exact he (Option.some.inj hl)

/-- A result is parsed to components that it is made of exactly if it has one of the shapes. -/
theorem described_iff (hl : c.length ≤ maxLength) (hm : canonicalRegexMatch c = true) :
    (∃ k, parseComponents c = .ok k ∧ k.text = c) ↔ Shaped (c.splitOn '-') := by
  constructor
  · rintro ⟨k, hk, ht⟩
    obtain ⟨hc, hp⟩ := (parseComponents_iff c k).1 hk
    refine hp.shaped (hp.text_eq_iff.1 ht) fun ps hps he => ?_
    exact ((isCanonical_iff c).1 hc).2.2 ((spotSuffix_iff c).2 ⟨ps, hps, he⟩)
  · intro h
    obtain ⟨k, hp, hk⟩ := h.parsed
    have hc : isCanonical c = true := by
      refine (isCanonical_iff c).2 ⟨hl, hm, fun hs => ?_⟩
      obtain ⟨ps, hps, he⟩ := (spotSuffix_iff c).1 hs
      exact h.not_spot hps he
    exact ⟨k, (parseComponents_iff c k).2 ⟨hc, hp⟩, hp.text_eq_iff.2 hk⟩

/-- The upper-cased texts that a source makes a symbol of which is told apart. -/
def Understood (source : Option Source) (instrument : Option Instrument) (s : List Char) : Prop :=
  match source with
  | none | some .yfinance => Shaped ((stripSpotSuffix s).splitOn '-')
  | some .okxSpot | some .helixa =>
    if '/' ∈ s then Shaped ((slashToHyphen s).splitOn '-')
    else Shaped ((stripSpotSuffix s).splitOn '-')
  | some .okxSwap =>
    Shaped ((slashToHyphen (s.takeWhile (· ≠ ':'))).splitOn '-' ++ ["PERP".toList])
  | some .binance =>
    if instrument = some .perp then '-' ∉ s
    else ∀ quote, knownQuotes.find? (fits s) = some quote →
      Shaped ((s.take (s.length - quote.length)).splitOn '-' ++ [quote])
  | some .binanceFutures => '-' ∉ s
  | some .deribit => ∀ asset date strike kind, s.splitOn '-' = [asset, date, strike, kind] →
    Json.isNatLiteral strike = true
  | some .coingecko | some (.other _) => True

theorem Shaped.strike (h : Shaped [base, quote, tag, part, expiration]) :
    Json.isNatLiteral part = true := by
  cases h with
  | option ht hk he => exact hk

theorem Shaped.length_le (h : Shaped parts) : parts.length ≤ 5 := by
  cases h with
  | asset => simp
  | spot hq => simp
  | perp => simp
  | fut he => simp
  | option ht hk he => simp

theorem splitOn_perp (x : List Char) :
    (x ++ "-PERP".toList).splitOn '-' = x.splitOn '-' ++ ["PERP".toList] := by
  have hs : "-PERP".toList = '-' :: "PERP".toList := by decide
  have hp : "PERP".toList.splitOn '-' = ["PERP".toList] := List.splitOn_eq_singleton (by decide)
  rw [hs, List.splitOn_append_cons_self, hp]

theorem splitOn_quote {q : List Char} (hq : q ∈ knownQuotes) (x : List Char) :
    (x ++ '-' :: q).splitOn '-' = x.splitOn '-' ++ [q] := by
  have hp : q.splitOn '-' = [q] :=
    List.splitOn_eq_singleton (knownQuotes_component q hq).hyphen_not_mem
  rw [List.splitOn_append_cons_self, hp]

/-- A perpetual is told apart if its base is one part. -/
theorem shaped_perp_iff {x q : List Char} (hq : q ∈ knownQuotes) :
    Shaped (x.splitOn '-' ++ [q, "PERP".toList]) ↔ '-' ∉ x ++ q := by
  have hfut : ∀ q ∈ knownQuotes, q ≠ "FUT".toList ∧ Json.isNatLiteral q = false := by decide
  rw [List.mem_append, or_iff_left (knownQuotes_component q hq).hyphen_not_mem]
  constructor
  · intro h
    obtain ⟨a, as, hs⟩ := List.exists_cons_of_ne_nil (List.splitOn_ne_nil '-' x)
    have hle := h.length_le
    rw [hs] at h hle
    cases as with
    | nil =>
      have hx : x = a := by
        rw [eq_of_splitOn hs]
        simp
      rw [hx]
      exact Separated.not_mem_splitOn (x := x) (by simp [hs])
    | cons b as =>
      cases as with
      | nil =>
        cases h with
        | fut he => exact absurd rfl (hfut _ hq).1
      | cons d as =>
        cases as with
        | nil =>
          cases h with
          | option ht hk he =>
            rw [(hfut q hq).2] at hk
            cases hk
        | cons e as =>
          simp only [List.length_append, List.length_cons, List.length_nil] at hle
          omega
  · intro h
    rw [List.splitOn_eq_singleton h]
    exact .perp

theorem parseDeribitDate_ok (h : parseDeribitDate U token = .ok e) :
    ∃ day mon yy mm, deribitDateGroups U token = some (day, mon, yy) ∧
      deribitMonths.lookup mon = some mm ∧ e = yy ++ mm ++ day.leftpad 2 '0' := by
  rw [parseDeribitDate] at h
  split at h
  · cases h
  · rename_i day mon yy hg
    split at h
    · cases h
    · rename_i mm hm
      cases h
      exact ⟨day, mon, yy, mm, hg, hm, rfl⟩

/-- What the groups of a date match. -/
theorem deribitDateGroups_some (h : deribitDateGroups U token = some (day, mon, yy)) :
    token = day ++ mon ++ yy ∧ mon.length = 3 ∧ yy.length = 2 ∧
      (∀ c ∈ day, U.isDecimal c = true) ∧ ∀ c ∈ yy, U.isDecimal c = true := by
  rw [deribitDateGroups] at h
  split at h
  · rename_i hd
    obtain ⟨hlen, hday, -, hyy⟩ := hd
    cases h
    rw [List.length_take] at hlen
    refine ⟨?_, by simp; omega, by simp; omega, List.all_eq_true.1 hday, List.all_eq_true.1 hyy⟩
    have hdrop : (token.drop (token.length - 5)).drop 3 = token.drop (token.length - 2) := by
      rw [List.drop_drop]
      congr 1
      omega
    rw [List.append_assoc, ← hdrop, List.take_append_drop, List.take_append_drop]
  · cases h

theorem hyphen_not_mem_date (h : parseDeribitDate U token = .ok e) : '-' ∉ e := by
  obtain ⟨day, mon, yy, mm, hg, hm, rfl⟩ := parseDeribitDate_ok h
  obtain ⟨-, -, -, hday, hyy⟩ := deribitDateGroups_some hg
  have hn : U.isDecimal '-' = false := U.isDecimal_ascii '-' (by decide)
  have hmm : ∀ p ∈ deribitMonths, '-' ∉ p.2 := by decide
  have hmem : (mon, mm) ∈ deribitMonths := by
    obtain ⟨l₁, l₂, he, -⟩ := List.lookup_eq_some_iff.1 hm
    rw [he]
    simp
  rw [List.leftpad, List.mem_append, List.mem_append, List.mem_append]
  rintro ((hc | hc) | hc | hc)
  · exact Bool.false_ne_true (hn.symm.trans (hyy _ hc))
  · exact hmm _ hmem hc
  · exact absurd (List.eq_of_mem_replicate hc) (by decide)
  · exact Bool.false_ne_true (hn.symm.trans (hday _ hc))

theorem date_ne_spot (h : parseDeribitDate U token = .ok e) : e ≠ "SPOT".toList := by
  rintro rfl
  exact parseDeribitDate_not_flawed (s := spotSuffix) h (by decide) (.inl (List.suffix_refl _))

theorem splitOn_of_eq (hc : c = ['-'].intercalate parts) (hp : ∀ p ∈ parts, '-' ∉ p)
    (hne : parts ≠ []) : c.splitOn '-' = parts := by
  rw [hc, List.splitOn_intercalate '-' hp hne]

/-- The texts that are accepted from Deribit, and the parts of their results. -/
theorem normalizeDeribit_parts (h : normalizeDeribit U s = .ok c) :
    (∃ asset, s.splitOn '-' = [asset, "PERPETUAL".toList] ∧
      c.splitOn '-' = [asset, "USD".toList, "PERP".toList]) ∨
    (∃ asset date e, s.splitOn '-' = [asset, date] ∧ parseDeribitDate U date = .ok e ∧
      c.splitOn '-' = [asset, "USD".toList, "FUT".toList, e]) ∨
    ∃ asset date strike kind e, s.splitOn '-' = [asset, date, strike, kind] ∧
      (kind = ['C'] ∨ kind = ['P']) ∧ parseDeribitDate U date = .ok e ∧
      c.splitOn '-' = [asset, "USD".toList,
        if kind = ['C'] then "CALL".toList else "PUT".toList, strike, e] := by
  have hs (p : List Char) (hp : p ∈ s.splitOn '-') : '-' ∉ p := Separated.not_mem_splitOn hp
  have husd : '-' ∉ "USD".toList := by decide
  rw [normalizeDeribit] at h
  split at h
  · rename_i asset date hparts
    have hasset : '-' ∉ asset := hs asset (by simp [hparts])
    split at h
    · rename_i hd
      cases h
      refine .inl ⟨asset, hd ▸ hparts, splitOn_of_eq ?_ ?_ (List.cons_ne_nil _ _)⟩
      · have ht : "-USD-PERP".toList = '-' :: "USD".toList ++ '-' :: "PERP".toList := by decide
        rw [ht, Separated.intercalate_cons]
        simp
      · simp only [List.forall_mem_cons]
        exact ⟨hasset, husd, by decide, List.forall_mem_nil _⟩
    · obtain ⟨e, he, rfl⟩ := map_ok h
      refine .inr (.inl ⟨asset, date, e, hparts, he,
        splitOn_of_eq ?_ ?_ (List.cons_ne_nil _ _)⟩)
      · have ht : "-USD-FUT-".toList = '-' :: "USD".toList ++ '-' :: "FUT".toList ++ ['-'] := by
          decide
        rw [ht, Separated.intercalate_cons]
        simp
      · simp only [List.forall_mem_cons]
        exact ⟨hasset, husd, by decide, hyphen_not_mem_date he, List.forall_mem_nil _⟩
  · rename_i asset date strike kind hparts
    have hasset : '-' ∉ asset := hs asset (by simp [hparts])
    have hstrike : '-' ∉ strike := hs strike (by simp [hparts])
    split at h
    · rename_i hk
      obtain ⟨e, he, rfl⟩ := map_ok h
      have htag : '-' ∉ if kind = ['C'] then "CALL".toList else "PUT".toList := by
        split
        · decide
        · decide
      refine .inr (.inr ⟨asset, date, strike, kind, e, hparts, hk, he,
        splitOn_of_eq ?_ ?_ (List.cons_ne_nil _ _)⟩)
      · have ht : "-USD-".toList = '-' :: "USD".toList ++ ['-'] := by decide
        rw [ht, Separated.intercalate_cons]
        simp
      · simp only [List.forall_mem_cons]
        exact ⟨hasset, husd, htag, hstrike, hyphen_not_mem_date he, List.forall_mem_nil _⟩
    · cases h
  · cases h

theorem understood_deribit (instrument : Option Instrument)
    (h : normalizeDeribit U s = .ok c) :
    Understood (some .deribit) instrument s ↔ Shaped (c.splitOn '-') := by
  obtain ⟨asset, hs, hc⟩ | ⟨asset, date, e, hs, he, hc⟩ |
    ⟨asset, date, strike, kind, e, hs, hk, he, hc⟩ := normalizeDeribit_parts h
  · rw [Understood, hs, hc]
    exact iff_of_true (fun _ _ _ _ hn => by cases hn) .perp
  · rw [Understood, hs, hc]
    exact iff_of_true (fun _ _ _ _ hn => by cases hn) (.fut (date_ne_spot he))
  · rw [Understood, hs, hc]
    constructor
    · intro hu
      refine .option ?_ (hu asset date strike kind rfl) (date_ne_spot he)
      split
      · exact .inl rfl
      · exact .inr rfl
    · rintro hshape _ _ _ _ hn
      cases hn
      exact hshape.strike

theorem understood_concat (h : splitConcat s instrument knownQuotes = .ok c) :
    (if instrument = some .perp then '-' ∉ s
      else ∀ quote, knownQuotes.find? (fits s) = some quote →
        Shaped ((s.take (s.length - quote.length)).splitOn '-' ++ [quote])) ↔
      Shaped (c.splitOn '-') := by
  rw [splitConcat_eq_find] at h
  split at h
  · cases h
  · rename_i q hq
    have hm := List.mem_of_find?_eq_some hq
    obtain ⟨x, rfl, -⟩ := fits_iff.1 (List.find?_some hq)
    have hx : (x ++ q).take ((x ++ q).length - q.length) = x := by simp
    rw [hx, joinQuote] at h
    by_cases hi : instrument = some .perp
    · rw [if_pos hi] at h ⊢
      cases h
      rw [splitOn_perp, splitOn_quote hm, List.append_assoc]
      exact (shaped_perp_iff hm).symm
    · rw [if_neg hi] at h ⊢
      cases h
      rw [splitOn_quote hm]
      constructor
      · intro hu
        have hshape := hu q hq
        rwa [hx] at hshape
      · intro hshape quote hquote
        obtain rfl := Option.some.inj (hq.symm.trans hquote)
        rwa [hx]

theorem understood_swap (instrument : Option Instrument) (h : normalizeOkxSwap s = .ok c) :
    Understood (some .okxSwap) instrument s ↔ Shaped (c.splitOn '-') := by
  rw [normalizeOkxSwap] at h
  split at h
  · cases h
  · dsimp only at h
    split at h
    · cases h
    · cases h
      rw [splitOn_perp]
      exact Iff.rfl

theorem shaped_coingecko (h : normalizeCoingeckoSlug U s = .ok c) : Shaped (c.splitOn '-') := by
  have hc : ∀ p ∈ coingeckoSlugToAsset, '-' ∉ p.2 := by decide
  rw [normalizeCoingeckoSlug] at h
  split at h
  · cases h
  · rename_i asset ha
    cases h
    have hm : (U.lower (Text.strip s), c) ∈ coingeckoSlugToAsset := by
      obtain ⟨l₁, l₂, he, -⟩ := List.lookup_eq_some_iff.1 ha
      rw [he]
      simp
    rw [List.splitOn_eq_singleton (hc _ hm)]
    exact .asset

theorem understood_okx (s : List Char) :
    (if '/' ∈ s then Shaped ((slashToHyphen s).splitOn '-')
      else Shaped ((stripSpotSuffix s).splitOn '-')) ↔
      Shaped ((normalizeOkxSpot s).splitOn '-') := by
  rw [normalizeOkxSpot]
  split
  · exact Iff.rfl
  · exact Iff.rfl

/-- The condition on a text, by the parts of its result. -/
theorem understood_iff (U : Casing) (h : normalize U s source instrument = .ok c) :
    Understood source instrument (U.upperText s) ↔ Shaped (c.splitOn '-') := by
  cases source with
  | none =>
    cases h
    exact Iff.rfl
  | some source =>
    cases source with
    | binance => exact understood_concat h
    | binanceFutures => exact understood_concat h
    | okxSpot =>
      cases h
      exact understood_okx _
    | okxSwap => exact understood_swap instrument h
    | yfinance =>
      rw [normalize, normalizeYfinance] at h
      split at h
      · cases h
      · cases h
        exact Iff.rfl
    | helixa =>
      cases h
      exact understood_okx _
    | coingecko => exact iff_of_true trivial (shaped_coingecko h)
    | deribit => exact understood_deribit instrument h
    | other name => cases h

/-- An option of Deribit, as it is named. -/
structure DeribitOption where
  asset : List Char
  day : List Char
  mon : List Char
  yy : List Char
  strike : List Char
  call : Bool
  asset_plain : '-' ∉ asset
  strike_plain : '-' ∉ strike
  day_digits : (day.length = 1 ∨ day.length = 2) ∧ ∀ c ∈ day, c.isDigit = true
  mon_letters : mon.length = 3 ∧ ∀ c ∈ mon, c.isUpper = true
  yy_digits : yy.length = 2 ∧ ∀ c ∈ yy, c.isDigit = true

/-- `ASSET-DDMMMYY-STRIKE-C/P`. -/
def DeribitOption.text (o : DeribitOption) : List Char :=
  ['-'].intercalate [o.asset, o.day ++ o.mon ++ o.yy, o.strike, if o.call then ['C'] else ['P']]

/-- The components are those of the name. -/
structure DeribitOption.Describes (o : DeribitOption) (k : Components) : Prop where
  base : k.base = o.asset
  instrument : k.instrument = if o.call then .call else .put
  strike : k.strike.map (Nat.toDigits 10) = some o.strike
  expiration : ∃ mm, deribitMonths.lookup o.mon = some mm ∧
    k.expiration = some (o.yy ++ mm ++ o.day.leftpad 2 '0')

theorem DeribitOption.splitOn (o : DeribitOption) : o.text.splitOn '-' =
    [o.asset, o.day ++ o.mon ++ o.yy, o.strike, if o.call then ['C'] else ['P']] := by
  have hd : ∀ c : Char, c.isDigit = true → '-' ≠ c := by
    rintro c hc rfl
    cases hc
  have hdate : '-' ∉ o.day ++ o.mon ++ o.yy := by
    rw [List.mem_append, List.mem_append]
    rintro ((hm | hm) | hm)
    · exact hd _ (o.day_digits.2 _ hm) rfl
    · have hu := o.mon_letters.2 _ hm
      cases hu
    · exact hd _ (o.yy_digits.2 _ hm) rfl
  have hkind : '-' ∉ if o.call then ['C'] else ['P'] := by
    cases o.call with
    | true => decide
    | false => decide
  refine List.splitOn_intercalate '-' ?_ (List.cons_ne_nil _ _)
  simp only [List.forall_mem_cons]
  exact ⟨o.asset_plain, hdate, o.strike_plain, hkind, List.forall_mem_nil _⟩

/-- The date of a name is read as its day, month and year. -/
theorem DeribitOption.date (o : DeribitOption)
    (h : parseDeribitDate U (o.day ++ o.mon ++ o.yy) = .ok e) :
    ∃ mm, deribitMonths.lookup o.mon = some mm ∧ e = o.yy ++ mm ++ o.day.leftpad 2 '0' := by
  obtain ⟨day, mon, yy, mm, hg, hm, rfl⟩ := parseDeribitDate_ok h
  obtain ⟨ht, hmon, hyy, -, -⟩ := deribitDateGroups_some hg
  obtain ⟨hday, hy⟩ := List.append_inj' ht (o.yy_digits.1.trans hyy.symm)
  obtain ⟨hday, hmon⟩ := List.append_inj' hday (o.mon_letters.1.trans hmon.symm)
  rw [hday, hmon, hy]
  exact ⟨mm, hm, rfl⟩

theorem DeribitOption.describes_parsed (o : DeribitOption) {k : Components}
    (hp : Parsed [o.asset, quote, tag, o.strike, e] k)
    (hk : k.parts = [o.asset, quote, tag, o.strike, e])
    (ht : tag = if o.call then "CALL".toList else "PUT".toList)
    (he : ∃ mm, deribitMonths.lookup o.mon = some mm ∧ e = o.yy ++ mm ++ o.day.leftpad 2 '0') :
    o.Describes k := by
  obtain ⟨mm, hm, rfl⟩ := he
  cases hp with
  | @call _ n _ _ _ hn =>
    have hd : Nat.toDigits 10 n = o.strike := (List.cons.inj (List.cons.inj
      (List.cons.inj (List.cons.inj hk).2).2).2).1
    refine ⟨rfl, ?_, congrArg some hd, mm, hm, rfl⟩
    cases hc : o.call with
    | true => rfl
    | false =>
      rw [hc] at ht
      exact absurd ht (by decide)
  | @put _ n _ _ _ hn =>
    have hd : Nat.toDigits 10 n = o.strike := (List.cons.inj (List.cons.inj
      (List.cons.inj (List.cons.inj hk).2).2).2).1
    refine ⟨rfl, ?_, congrArg some hd, mm, hm, rfl⟩
    cases hc : o.call with
    | true =>
      rw [hc] at ht
      exact absurd ht (by decide)
    | false => rfl

theorem DeribitOption.describes (o : DeribitOption) {k : Components}
    (h : normalizeDeribit U o.text = .ok c) (hk : parseComponents c = .ok k) (ht : k.text = c) :
    o.Describes k := by
  have ho := o.splitOn
  obtain ⟨asset, hs, -⟩ | ⟨asset, date, e, hs, -, -⟩ |
    ⟨asset, date, strike, kind, e, hs, -, he, hc⟩ := normalizeDeribit_parts h
  · have hl := congrArg List.length (hs.symm.trans ho)
    simp at hl
  · have hl := congrArg List.length (hs.symm.trans ho)
    simp at hl
  · rw [hs] at ho
    simp only [List.cons.injEq, and_true] at ho
    obtain ⟨rfl, rfl, rfl, rfl⟩ := ho
    obtain ⟨-, hp⟩ := (parseComponents_iff c k).1 hk
    have hparts := hp.text_eq_iff.1 ht
    rw [hc] at hp hparts
    refine o.describes_parsed hp hparts ?_ (o.date he)
    cases o.call with
    | true => rfl
    | false => rfl

/-- What is parsed of a result is what it is made of, and, of an option of Deribit, what its name
says. -/
def Described (U : Casing) (raw : List Char) (source : Option Source) (c : List Char) : Prop :=
  ∃ k, parseComponents c = .ok k ∧ k.text = c ∧
    (source = some .deribit → ∀ o : DeribitOption, U.upperText (Text.strip raw) = o.text →
      o.Describes k)

/-- What is returned is parsed to what it describes exactly when the text that was given has, as
its source writes it, one of the shapes that are told apart. -/
theorem toCanonical_described_iff (U : Casing) (h : toCanonical U raw source instrument = .ok c) :
    Described U raw source c ↔
      Understood source instrument (U.upperText (Text.strip raw)) := by
  obtain ⟨-, hr, hl, hm⟩ := (toCanonical_ok_iff U raw source instrument c).1 h
  rw [understood_iff U hr, ← described_iff hl hm]
  constructor
  · rintro ⟨k, hk, ht, -⟩
    exact ⟨k, hk, ht⟩
  · rintro ⟨k, hk, ht⟩
    refine ⟨k, hk, ht, ?_⟩
    rintro rfl o ho
    rw [normalize, ho] at hr
    exact o.describes hr hk ht

theorem toCanonical_described_call :
    Described .ascii " btc-28jun24-50000-c".toList (some .deribit)
        "BTC-USD-CALL-50000-240628".toList ↔
      Understood (some .deribit) none
        (Casing.ascii.upperText (Text.strip " btc-28jun24-50000-c".toList)) :=
  toCanonical_described_iff .ascii (by decide +kernel :
    toCanonical .ascii " btc-28jun24-50000-c".toList (some .deribit) none =
      .ok "BTC-USD-CALL-50000-240628".toList)

theorem third_part_is_not_parsed :
    ¬ ∀ (U : Casing) (raw : List Char) (source : Option Source) (instrument : Option Instrument)
      (c : List Char), toCanonical U raw source instrument = .ok c →
        Described U raw source c := by
  intro h
  obtain ⟨k, hk, -⟩ := h .ascii "BTC-USDT-INDEX".toList none none "BTC-USDT-INDEX".toList
    (by decide +kernel)
  have he : parseComponents "BTC-USDT-INDEX".toList =
      .error (.cannotParse "BTC-USDT-INDEX".toList) := by decide +kernel
  rw [he] at hk
  cases hk

end Obase.SymbolNormalize
