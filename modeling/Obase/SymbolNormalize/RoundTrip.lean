import Obase.SymbolNormalize.Idempotent

namespace Obase.SymbolNormalize
set_option autoImplicit true

/-- What the parts of a symbol are parsed to. -/
inductive Parsed : List (List Char) → Components → Prop where
  | asset : Parsed [base] ⟨base, none, .asset, none, none⟩
  | spot : Parsed [base, quote] ⟨base, some quote, .spot, none, none⟩
  | perp : Parsed [base, quote, "PERP".toList] ⟨base, some quote, .perp, none, none⟩
  | fut : Parsed [base, quote, "FUT".toList, expiration]
      ⟨base, some quote, .fut, none, some expiration⟩
  | call : parseInt part = some strike → Parsed [base, quote, "CALL".toList, part, expiration]
      ⟨base, some quote, .call, some strike, some expiration⟩
  | put : parseInt part = some strike → Parsed [base, quote, "PUT".toList, part, expiration]
      ⟨base, some quote, .put, some strike, some expiration⟩

theorem parseComponents_iff (c : List Char) (k : Components) :
    parseComponents c = .ok k ↔ isCanonical c = true ∧ Parsed (c.splitOn '-') k := by
  rw [parseComponents]
  by_cases hc : isCanonical c = true
  · rw [if_pos hc, and_iff_right hc]
    constructor
    · intro h
      split at h
      · rename_i he
        cases h
        rw [he]
        exact .asset
      · rename_i he
        cases h
        rw [he]
        exact .spot
      · rename_i he
        split at h
        · rename_i hk
          cases h
          rw [he, hk]
          exact .perp
        · cases h
      · rename_i he
        split at h
        · rename_i hk
          cases h
          rw [he, hk]
          exact .fut
        · cases h
      · rename_i he
        split at h
        · rename_i hk
          split at h
          · cases h
          · rename_i hs
            cases h
            rcases hk with rfl | rfl
            · rw [he]
              exact .call hs
            · rw [he]
              exact .put hs
        · cases h
      · cases h
    · intro h
      generalize c.splitOn '-' = parts at h
      cases h with
      | asset => rfl
      | spot => rfl
      | perp => rfl
      | fut => rfl
      | call hs => simp [hs]
      | put hs => simp [hs]
  · rw [if_neg hc]
    constructor
    · intro h
      cases h
    · intro h
      exact absurd h.1 hc

theorem Joined.splitOn (h : Joined s) :
    1 ≤ (s.splitOn '-').length ∧ (s.splitOn '-').length ≤ 6 ∧
      ∀ p ∈ s.splitOn '-', Component p := by
  obtain ⟨parts, hlo, hhi, hp, rfl⟩ := h
  rw [List.splitOn_intercalate '-' (fun p hm => (hp p hm).hyphen_not_mem)
    (List.ne_nil_of_length_pos hlo)]
  exact ⟨hlo, hhi, hp⟩

/-- A canonical symbol without a line feed in its last part is in the grammar. -/
theorem joined_of_canonical (h : isCanonical c = true) (hn : ¬ ['\n'] <:+ c) : Joined c := by
  rcases (canonicalRegexMatch_iff c).1 ((isCanonical_iff c).1 h).2.1 with hj | ⟨t, rfl, -⟩
  · exact hj
  · exact (hn (List.suffix_append _ _)).elim

theorem Component.settled (h : Component p) : Settled p :=
  ⟨List.ne_nil_of_length_pos h.1, fun c hc => settled_of_alnum (h.2.2 c hc)⟩

theorem eq_of_splitOn (h : c.splitOn '-' = parts) : c = ['-'].intercalate parts := by
  rw [← h, List.intercalate_splitOn]

theorem knownQuotes_component : ∀ q ∈ knownQuotes, Component q := by
  have h : ∀ q ∈ knownQuotes, 1 ≤ q.length ∧ q.length ≤ 10 ∧ (q.all isAlnum) = true := by
    decide
  intro q hq
  exact ⟨(h q hq).1, (h q hq).2.1, List.all_eq_true.1 (h q hq).2.2⟩

/-- The quotes that the loop takes for the end of a text. -/
def fits (s quote : List Char) : Bool :=
  quote.isSuffixOf s && decide (quote.length < s.length) && decide (s.length ≤ quote.length + 10)

theorem fits_iff {s q : List Char} :
    fits s q = true ↔ ∃ x, s = x ++ q ∧ 1 ≤ x.length ∧ x.length ≤ 10 := by
  rw [fits, Bool.and_eq_true, Bool.and_eq_true, decide_eq_true_eq, decide_eq_true_eq,
    List.isSuffixOf_iff_suffix]
  constructor
  · rintro ⟨⟨⟨x, rfl⟩, hlo⟩, hhi⟩
    rw [List.length_append] at hlo hhi
    exact ⟨x, rfl, by omega, by omega⟩
  · rintro ⟨x, rfl, hlo, hhi⟩
    rw [List.length_append]
    exact ⟨⟨List.suffix_append x q, by omega⟩, by omega⟩

/-- A base and a quote, and the mark of a perpetual. -/
def joinQuote (base quote : List Char) (instrument : Option Instrument) : List Char :=
  if instrument = some .perp then base ++ '-' :: quote ++ "-PERP".toList else base ++ '-' :: quote

/-- The loop takes the first quote that fits. -/
theorem splitConcat_eq_find (s : List Char) (instrument : Option Instrument)
    (quotes : List (List Char)) : splitConcat s instrument quotes =
      match quotes.find? (fits s) with
      | none => .error (.cannotSplit s)
      | some q => .ok (joinQuote (s.take (s.length - q.length)) q instrument) := by
  induction quotes with
  | nil => rfl
  | cons q quotes ih =>
    rw [splitConcat, List.find?_cons]
    cases hf : fits s q with
    | true =>
      obtain ⟨x, rfl, hlo, hhi⟩ := fits_iff.1 hf
      rw [if_pos ⟨List.isSuffixOf_iff_suffix.2 (List.suffix_append x q), by simp; omega⟩]
      have hx : (x ++ q).take ((x ++ q).length - q.length) = x := by simp
      dsimp only
      rw [hx, if_pos ⟨hlo, hhi⟩, joinQuote]
    | false =>
      rw [← ih]
      split
      · rename_i hs
        obtain ⟨x, rfl⟩ := List.isSuffixOf_iff_suffix.1 hs.1
        have hx : (x ++ q).take ((x ++ q).length - q.length) = x := by simp
        have hn : ¬ (1 ≤ x.length ∧ x.length ≤ 10) := by
          intro hl
          rw [fits_iff.2 ⟨x, rfl, hl⟩] at hf
          cases hf
        dsimp only
        rw [hx, if_neg hn]
      · rfl

/-- A base that ends as a longer quote than `USD` begins. -/
def Borrowed (base quote : List Char) : Prop :=
  quote = "USD".toList ∧ ∃ x : List Char, x ≠ [] ∧
    (base = x ++ ['B'] ∨ base = x ++ ['T'] ∨ base = x ++ ['F', 'D'])

theorem suffix_known : ∀ p ∈ knownQuotes, ∀ q ∈ knownQuotes, p <:+ q → p = q ∨
    (p = "USD".toList ∧ (q = 'B' :: p ∨ q = 'T' :: p ∨ q = 'F' :: 'D' :: p)) := by
  decide

/-- The quotes that are tried before `USD`. -/
def triedFirst : List (List Char) := knownQuotes.take 5

theorem find_usd (h : knownQuotes.find? (fits s) = some "USD".toList) :
    ∀ b ∈ triedFirst, fits s b = false := by
  obtain ⟨hu, as, bs, he, has⟩ := List.find?_eq_some_iff_append.1 h
  have hk : knownQuotes = triedFirst ++ "USD".toList :: knownQuotes.drop 6 := by decide
  have hn : "USD".toList ∉ as := by
    intro hm
    have hf := has _ hm
    rw [hu] at hf
    cases hf
  obtain ⟨hb, -⟩ := Separated.append_sep_inj (by decide) hn (hk.symm.trans he)
  intro b hm
  have hf := has b (hb ▸ hm)
  rwa [Bool.not_eq_true'] at hf

theorem borrowed_iff {base : List Char} (hb : base.length ≤ 10) :
    (∃ b ∈ triedFirst, "USD".toList <:+ b ∧ fits (base ++ "USD".toList) b = true) ↔
      Borrowed base "USD".toList := by
  constructor
  · rintro ⟨b, hb, hs, hf⟩
    obtain ⟨x, hx, hlo, -⟩ := fits_iff.1 hf
    have hne : x ≠ [] := List.ne_nil_of_length_pos hlo
    refine ⟨rfl, x, hne, ?_⟩
    rcases suffix_known _ (by decide) b (List.mem_of_mem_take hb) hs with rfl | ⟨-, rfl | rfl | rfl⟩
    · exact absurd hb (by decide)
    · exact .inl (List.append_cancel_right (hx.trans (by simp)))
    · exact .inr (.inl (List.append_cancel_right (hx.trans (by simp))))
    · exact .inr (.inr (List.append_cancel_right (hx.trans (by simp))))
  · rintro ⟨-, x, hne, h⟩
    have hpos := List.length_pos_iff.2 hne
    rcases h with rfl | rfl | rfl
    · rw [List.length_append] at hb
      refine ⟨"BUSD".toList, by decide, by decide, fits_iff.2 ⟨x, by simp, hpos, ?_⟩⟩
      exact le_trans (Nat.le_add_right ..) hb
    · rw [List.length_append] at hb
      refine ⟨"TUSD".toList, by decide, by decide, fits_iff.2 ⟨x, by simp, hpos, ?_⟩⟩
      exact le_trans (Nat.le_add_right ..) hb
    · rw [List.length_append] at hb
      refine ⟨"FDUSD".toList, by decide, by decide, fits_iff.2 ⟨x, by simp, hpos, ?_⟩⟩
      exact le_trans (Nat.le_add_right ..) hb

theorem find_quote_iff {base q : List Char} (hlo : 1 ≤ base.length) (hhi : base.length ≤ 10)
    (hq : q ∈ knownQuotes) :
    knownQuotes.find? (fits (base ++ q)) = some q ↔ ¬ Borrowed base q := by
  have hf : fits (base ++ q) q = true := fits_iff.2 ⟨base, rfl, hlo, hhi⟩
  constructor
  · intro h hb
    cases hb.1
    obtain ⟨b, hm, -, hfb⟩ := (borrowed_iff hhi).2 hb
    rw [find_usd h b hm] at hfb
    cases hfb
  · intro hb
    obtain ⟨p, hp⟩ := Option.isSome_iff_exists.1 (List.find?_isSome.2 ⟨q, hq, hf⟩)
    have hpm := List.mem_of_find?_eq_some hp
    have hpf := List.find?_some hp
    rw [hp]
    obtain ⟨y, hy, -⟩ := fits_iff.1 hpf
    have hps : p <:+ base ++ q := ⟨y, hy.symm⟩
    rcases List.suffix_or_suffix_of_suffix hps (List.suffix_append base q) with hs | hs
    · rcases suffix_known p hpm q hq hs with he | ⟨rfl, he⟩
      · rw [he]
      · have hqm : q ∈ triedFirst := by
          rcases he with rfl | rfl | rfl <;> decide
        rw [find_usd hp q hqm] at hf
        cases hf
    · rcases suffix_known q hq p hpm hs with he | ⟨rfl, he⟩
      · rw [he]
      · have hpt : p ∈ triedFirst := by
          rcases he with rfl | rfl | rfl <;> decide
        exact (hb ((borrowed_iff hhi).1 ⟨p, hpt, hs, hpf⟩)).elim

theorem joinQuote_inj {x p y q : List Char} (h : joinQuote x p i = joinQuote y q i) :
    x ++ '-' :: p = y ++ '-' :: q := by
  rw [joinQuote, joinQuote] at h
  split at h
  · exact List.append_cancel_right h
  · exact h

/-- A text of a base and a known quote is split there unless the base is borrowed from. -/
theorem splitConcat_iff {base q : List Char} (hb : Component base) (hq : q ∈ knownQuotes)
    (instrument : Option Instrument) :
    splitConcat (base ++ q) instrument knownQuotes = .ok (joinQuote base q instrument) ↔
      ¬ Borrowed base q := by
  rw [← find_quote_iff hb.1 hb.2.1 hq, splitConcat_eq_find]
  constructor
  · intro h
    split at h
    · cases h
    · rename_i p hp
      injection h with h
      obtain ⟨x, hx, -⟩ := fits_iff.1 (List.find?_some hp)
      have hc : '-' ∉ base ++ q := by
        rw [List.mem_append, not_or]
        exact ⟨hb.hyphen_not_mem, (knownQuotes_component q hq).hyphen_not_mem⟩
      rw [hx] at h hc
      have ht : (x ++ p).take ((x ++ p).length - p.length) = x := by simp
      rw [ht] at h
      have hn : '-' ∉ x := fun hm => hc (List.mem_append_left p hm)
      rw [hp, (Separated.append_sep_inj hn hb.hyphen_not_mem (joinQuote_inj h)).2]
  · intro h
    have ht : (base ++ q).take ((base ++ q).length - q.length) = base := by simp
    rw [h]
    dsimp only
    rw [ht]

/-- The source that reads the concatenated form of an instrument. -/
def concatSource (instrument : Instrument) : Source :=
  if instrument = .perp then .binanceFutures else .binance

/-- A spot or perpetual symbol, by its parts. -/
theorem parsed_pair {k : Components} (h : parseComponents c = .ok k)
    (hi : k.instrument = .spot ∨ k.instrument = .perp) : ∃ q, k.quote = some q ∧
      ((k.instrument = .spot ∧ c.splitOn '-' = [k.base, q]) ∨
        (k.instrument = .perp ∧ c.splitOn '-' = [k.base, q, "PERP".toList])) := by
  obtain ⟨-, hp⟩ := (parseComponents_iff c k).1 h
  generalize c.splitOn '-' = parts at hp
  cases hp with
  | asset => rcases hi with hi | hi <;> cases hi
  | spot => exact ⟨_, rfl, .inl ⟨rfl, rfl⟩⟩
  | perp => exact ⟨_, rfl, .inr ⟨rfl, rfl⟩⟩
  | fut => rcases hi with hi | hi <;> cases hi
  | call => rcases hi with hi | hi <;> cases hi
  | put => rcases hi with hi | hi <;> cases hi

theorem last_part_suffix {parts : List (List Char)} {p : List Char}
    (h : c.splitOn '-' = parts ++ [p]) : p <:+ c := by
  cases parts with
  | nil =>
    rw [eq_of_splitOn h]
    simp
  | cons q parts =>
    obtain ⟨y, z, rfl, -, hz⟩ := Separated.exists_append_of_splitOn h (by simp) (by simp)
    have hz' : z = p := by
      rw [eq_of_splitOn hz]
      simp
    rw [hz']
    exact (List.suffix_cons '-' p).trans (List.suffix_append _ _)

theorem joined_of_last (parts : List (List Char)) {p : List Char} (h : isCanonical c = true)
    (hs : c.splitOn '-' = parts ++ [p]) (hp : p ≠ []) (hn : ¬ ['\n'] <:+ p) : Joined c := by
  apply joined_of_canonical h
  intro hc
  rcases List.suffix_or_suffix_of_suffix hc (last_part_suffix hs) with h' | h'
  · exact hn h'
  · rcases List.suffix_cons_iff.1 h' with he | he
    · exact hn (he ▸ List.suffix_refl p)
    · exact hp (List.suffix_nil.1 he)

theorem toBinanceConcat_of_pair {k : Components} (h : parseComponents c = .ok k)
    (hi : k.instrument = .spot ∨ k.instrument = .perp) (hq : k.quote = some q) :
    toBinanceConcat c = .ok (k.base ++ q) := by
  unfold toBinanceConcat
  rw [h]
  obtain ⟨base, quote, instrument, strike, expiration⟩ := k
  cases hq
  rcases hi with rfl | rfl
  · rfl
  · rfl

theorem normalize_settled (U : Casing) (hs : Settled s) (source : Option Source)
    (instrument : Option Instrument) (hl : c.length ≤ maxLength)
    (hm : canonicalRegexMatch c = true) :
    toCanonical U s source instrument = .ok c ↔ normalize U s source instrument = .ok c := by
  rw [toCanonical_ok_iff, hs.strip]
  exact ⟨fun h => h.2.1, fun h => ⟨hs.1, h, hl, hm⟩⟩

theorem binance_returns_iff (U : Casing) {k : Components} (h : parseComponents c = .ok k)
    (hi : k.instrument = .spot ∨ k.instrument = .perp) (hq : k.quote = some q)
    (hk : q ∈ knownQuotes) :
    toCanonical U (k.base ++ q) (some (concatSource k.instrument)) none = .ok c ↔
      ¬ Borrowed k.base q := by
  have hcan := ((parseComponents_iff c k).1 h).1
  obtain ⟨hl, hm, -⟩ := (isCanonical_iff c).1 hcan
  obtain ⟨q', hq', hp⟩ := parsed_pair h hi
  cases hq.symm.trans hq'
  have hqc := knownQuotes_component q hk
  rcases hp with ⟨hin, hp⟩ | ⟨hin, hp⟩
  · have hj : Joined c := joined_of_last [k.base] hcan hp
      (List.ne_nil_of_length_pos hqc.1) fun hn => (hqc.settled.2 '\n' (hn.subset (.head _))).elim
        fun _ h' => absurd h'.2 (by decide)
    have hb : Component k.base := hj.splitOn.2.2 _ (by simp [hp])
    have hc : c = joinQuote k.base q none := by
      rw [eq_of_splitOn hp, joinQuote, if_neg (by simp)]
      simp
    rw [normalize_settled U (hb.settled.append hqc.settled) _ _ hl hm, hin, concatSource,
      if_neg (by simp), normalize, normalizeBinanceConcat,
      (hb.settled.append hqc.settled).upper, hc, splitConcat_iff hb hk]
  · have hj : Joined c := joined_of_last [k.base, q] hcan hp (by decide) (by decide)
    have hb : Component k.base := hj.splitOn.2.2 _ (by simp [hp])
    have hc : c = joinQuote k.base q (some .perp) := by
      rw [eq_of_splitOn hp, joinQuote, if_pos rfl]
      simp
    rw [normalize_settled U (hb.settled.append hqc.settled) _ _ hl hm, hin, concatSource,
      if_pos rfl, normalize, normalizeBinanceConcat,
      (hb.settled.append hqc.settled).upper, hc, splitConcat_iff hb hk]

theorem splitOn_of_free {x : List Char} (h : '-' ∉ x) (y : List Char) :
    (x ++ '-' :: y).splitOn '-' = x :: y.splitOn '-' := by
  rw [List.splitOn_append_cons_self, List.splitOn_eq_singleton h]
  rfl

/-- A text without a hyphen that is read is read as a pair with the text as its concatenation. -/
theorem concat_of_binance (U : Casing) (h : toCanonical U s (some .binance) instrument = .ok c)
    (hs : '-' ∉ U.upperText (Text.strip s)) :
    toBinanceConcat c = .ok (U.upperText (Text.strip s)) := by
  obtain ⟨-, hr, hl, hm⟩ := (toCanonical_ok_iff U s _ _ c).1 h
  have hnf : ¬ Flawed c := splitConcat_not_flawed (fun _ hq => hq) hr
  have hcan : isCanonical c = true :=
    (isCanonical_iff c).2 ⟨hl, hm, ((canonical_iff_not_flawed hm).2 hnf).2⟩
  rw [normalize, normalizeBinanceConcat, splitConcat_eq_find] at hr
  generalize U.upperText (Text.strip s) = t at hr hs
  split at hr
  · cases hr
  · rename_i q hq
    obtain ⟨x, rfl, -⟩ := fits_iff.1 (List.find?_some hq)
    have hk := List.mem_of_find?_eq_some hq
    have hx : (x ++ q).take ((x ++ q).length - q.length) = x := by simp
    rw [hx] at hr
    rw [List.mem_append, not_or] at hs
    have hsq : q.splitOn '-' = [q] := List.splitOn_eq_singleton hs.2
    injection hr with hr
    rw [joinQuote] at hr
    split at hr
    · have hp : parseComponents c = .ok ⟨x, some q, .perp, none, none⟩ := by
        have hsp : "-PERP".toList = '-' :: "PERP".toList := by decide
        rw [parseComponents_iff, ← hr, List.append_assoc, List.cons_append, splitOn_of_free hs.1,
          hsp, splitOn_of_free hs.2]
        rw [List.append_assoc, List.cons_append, hsp] at hr
        exact ⟨hr ▸ hcan, .perp⟩
      exact toBinanceConcat_of_pair hp (.inr rfl) rfl
    · have hp : parseComponents c = .ok ⟨x, some q, .spot, none, none⟩ := by
        rw [parseComponents_iff, ← hr, splitOn_of_free hs.1, hsq]
        exact ⟨hr ▸ hcan, .spot⟩
      exact toBinanceConcat_of_pair hp (.inl rfl) rfl

/-- A pair with a known quote comes back from its concatenation unless its base is borrowed from,
and what is read without hyphens is the concatenation of what it is read as. -/
theorem binance_round_trip (U : Casing) :
    (∀ (c : List Char) (k : Components) (q : List Char), parseComponents c = .ok k →
      (k.instrument = .spot ∨ k.instrument = .perp) → k.quote = some q → q ∈ knownQuotes →
        ∃ s, toBinanceConcat c = .ok s ∧
          (toCanonical U s (some (concatSource k.instrument)) none = .ok c ↔
            ¬ Borrowed k.base q)) ∧
      ∀ (s : List Char) (instrument : Option Instrument) (c : List Char),
        toCanonical U s (some .binance) instrument = .ok c →
        '-' ∉ U.upperText (Text.strip s) →
          toBinanceConcat c = .ok (U.upperText (Text.strip s)) := by
  constructor
  · intro c k q h hi hq hk
    exact ⟨k.base ++ q, toBinanceConcat_of_pair h hi hq, binance_returns_iff U h hi hq hk⟩
  · intro s instrument c h hs
    exact concat_of_binance U h hs

theorem binance_round_trip_btc :
    (∃ s, toBinanceConcat "BTC-USDT".toList = .ok s ∧
      (toCanonical .ascii s (some (concatSource .spot)) none = .ok "BTC-USDT".toList ↔
        ¬ Borrowed "BTC".toList "USDT".toList)) ∧
      toBinanceConcat "BTC-USDT".toList =
        .ok (Casing.ascii.upperText (Text.strip " btcusdt".toList)) :=
  ⟨(binance_round_trip .ascii).1 "BTC-USDT".toList
    ⟨"BTC".toList, some "USDT".toList, .spot, none, none⟩ "USDT".toList (by decide +kernel)
    (.inl rfl) rfl (by decide),
    (binance_round_trip .ascii).2 " btcusdt".toList none "BTC-USDT".toList (by decide +kernel)
      (by decide +kernel)⟩

theorem concat_is_ambiguous :
    (¬ ∀ (U : Casing) (c : List Char) (k : Components) (q s : List Char),
      parseComponents c = .ok k → (k.instrument = .spot ∨ k.instrument = .perp) →
        k.quote = some q → q ∈ knownQuotes → toBinanceConcat c = .ok s →
          toCanonical U s (some (concatSource k.instrument)) none = .ok c) ∧
      ¬ ∀ (U : Casing) (s c : List Char), toCanonical U s (some .binance) none = .ok c →
        toBinanceConcat c = .ok (U.upperText (Text.strip s)) := by
  constructor
  · intro h
    have hd := h .ascii "DOT-USD".toList ⟨"DOT".toList, some "USD".toList, .spot, none, none⟩
      "USD".toList "DOTUSD".toList (by decide +kernel) (.inl rfl) rfl (by decide)
      (by decide +kernel)
    exact absurd hd (by decide +kernel)
  · intro h
    have hd := h .ascii "A-BUSDT".toList "A-B-USDT".toList (by decide +kernel)
    exact absurd hd (by decide +kernel)

theorem mem_upper_strip (U : Casing) {x : Char} (h : x ∈ s)
    (hx : x.toNat < 128 ∧ x.toUpper = x ∧ Text.isSpace x = false) :
    x ∈ U.upperText (Text.strip s) := by
  have hm : x ∈ Text.strip s := by
    obtain ⟨w, v, he, hw, hv⟩ := Text.trim_split Text.isSpace s
    rw [he, List.mem_append, List.mem_append] at h
    rcases h with h | h | h
    · rw [hw x h] at hx
      exact absurd hx.2.2 (by decide)
    · exact h
    · rw [hv x h] at hx
      exact absurd hx.2.2 (by decide)
  rw [Casing.upperText, List.mem_flatMap]
  refine ⟨x, hm, ?_⟩
  rw [U.upper_ascii x hx.1, hx.2.1]
  exact .head _

theorem slashToHyphen_of_free (h : '/' ∉ s) : slashToHyphen s = s := by
  have hc : s.map (fun c => if c = '/' then '-' else c) = s.map id :=
    List.map_congr_left fun c hm => if_neg fun (he : c = '/') => h (he ▸ hm)
  rw [slashToHyphen, hc, List.map_id]

theorem slashToHyphen_append (s t : List Char) :
    slashToHyphen (s ++ t) = slashToHyphen s ++ slashToHyphen t :=
  List.map_append

theorem Component.slash_not_mem (h : Component p) : '/' ∉ p := by
  intro hm
  exact absurd (h.2.2 _ hm) (by decide)

theorem Component.colon_not_mem (h : Component p) : ':' ∉ p := by
  intro hm
  exact absurd (h.2.2 _ hm) (by decide)

theorem settled_singleton (h : c.toNat < 128 ∧ c.toUpper = c ∧ Text.isSpace c = false) :
    Settled [c] := by
  refine ⟨by simp, fun d hd => ?_⟩
  rw [List.mem_singleton.1 hd]
  exact h

/-- The source that reads the slash format of an instrument. -/
def okxSource (instrument : Instrument) : Source :=
  if instrument = .perp then .okxSwap else .okxSpot

/-- The slash format of a pair. -/
def slashText (base quote : List Char) (instrument : Instrument) : List Char :=
  if instrument = .perp then base ++ '/' :: quote ++ ':' :: quote else base ++ '/' :: quote

theorem toHelixaFormat_ok (h : toHelixaFormat c = .ok t) (hk : parseComponents c = .ok k) :
    (k.instrument = .spot ∨ k.instrument = .perp) ∧
      ∃ q, k.quote = some q ∧ t = slashText k.base q k.instrument := by
  obtain ⟨k', hk', h⟩ := bind_ok h
  cases hk.symm.trans hk'
  split at h
  · rename_i q hi hq
    cases h
    exact ⟨.inl hi, q, hq, by rw [slashText, hi, if_neg (by simp)]⟩
  · rename_i q hi hq
    cases h
    exact ⟨.inr hi, q, hq, by rw [slashText, hi, if_pos rfl]⟩
  · cases h

theorem slash_mem_slashText (base q : List Char) (i : Instrument) : '/' ∈ slashText base q i := by
  rw [slashText]
  split <;> simp

/-- What the spot reader returns for a text with a slash. -/
theorem normalizeOkxSpot_of_slash (U : Casing) (h : '/' ∈ t) :
    normalizeOkxSpot (U.upperText (Text.strip t)) = slashToHyphen (U.upperText (Text.strip t)) := by
  rw [normalizeOkxSpot, if_pos (mem_upper_strip U h (by decide))]

/-- No reader of slashes returns a text that ends in a line feed. -/
theorem no_newline_of_slash (U : Casing) (h : '/' ∈ t)
    (hn : ['\n'] <:+ slashToHyphen (U.upperText (Text.strip t))) : False := by
  obtain ⟨q, hq, he⟩ := suffix_slashToHyphen hn
  rw [eq_of_slashToHyphen he (by decide)] at hq
  have hm := mem_upper_strip U h (by decide)
  apply not_newline_of_upper U _ hq
  intro hs
  rw [hs] at hm
  cases hm

theorem colon_not_mem_of_match (h : canonicalRegexMatch c = true) : ':' ∉ c := by
  intro hm
  rcases (canonicalRegexMatch_iff c).1 h with hj | ⟨t, rfl, hj⟩
  · rcases hj.mem hm with ha | he
    · exact absurd ha (by decide)
    · cases he
  · rcases List.mem_append.1 hm with hm | hm
    · rcases hj.mem hm with ha | he
      · exact absurd ha (by decide)
      · cases he
    · cases List.mem_singleton.1 hm

theorem toCanonical_slash (U : Casing) (h : '/' ∈ t) (source : Source)
    (hs : source = .helixa ∨ source = .okxSpot) (hc : toCanonical U t (some source) none = .ok c) :
    c = slashToHyphen (U.upperText (Text.strip t)) ∧ canonicalRegexMatch c = true := by
  obtain ⟨-, hr, -, hm⟩ := (toCanonical_ok_iff U t _ _ c).1 hc
  rcases hs with rfl | rfl
  · cases hr
    exact ⟨normalizeOkxSpot_of_slash U h, hm⟩
  · cases hr
    exact ⟨normalizeOkxSpot_of_slash U h, hm⟩

/-- A spot symbol without a line feed comes back from both readers. -/
theorem spot_comes_back (U : Casing) {base q : List Char} (hb : Component base)
    (hq : Component q) (hl : (base ++ '-' :: q).length ≤ maxLength)
    (hm : canonicalRegexMatch (base ++ '-' :: q) = true) (source : Source)
    (hs : source = .helixa ∨ source = .okxSpot) :
    toCanonical U (base ++ '/' :: q) (some source) none = .ok (base ++ '-' :: q) := by
  have ht : Settled (base ++ '/' :: q) :=
    hb.settled.append ((settled_singleton (c := '/') (by decide)).append hq.settled)
  have hr : normalizeOkxSpot (base ++ '/' :: q) = base ++ '-' :: q := by
    rw [normalizeOkxSpot, if_pos (by simp), slashToHyphen_append,
      slashToHyphen_of_free hb.slash_not_mem]
    exact congrArg (fun r => base ++ '-' :: r) (slashToHyphen_of_free hq.slash_not_mem)
  rw [normalize_settled U ht _ _ hl hm]
  rcases hs with rfl | rfl
  · rw [normalize, ht.upper, hr]
  · rw [normalize, ht.upper, hr]

theorem perp_comes_back (U : Casing) {base q : List Char} (hb : Component base)
    (hq : Component q) (hl : (base ++ '-' :: q ++ "-PERP".toList).length ≤ maxLength)
    (hm : canonicalRegexMatch (base ++ '-' :: q ++ "-PERP".toList) = true) :
    toCanonical U (base ++ '/' :: q ++ ':' :: q) (some .okxSwap) none =
      .ok (base ++ '-' :: q ++ "-PERP".toList) := by
  have hp : Settled (base ++ '/' :: q) :=
    hb.settled.append ((settled_singleton (c := '/') (by decide)).append hq.settled)
  have ht : Settled (base ++ '/' :: q ++ ':' :: q) :=
    hp.append ((settled_singleton (c := ':') (by decide)).append hq.settled)
  have hw : (base ++ '/' :: q ++ ':' :: q).takeWhile (· ≠ ':') = base ++ '/' :: q := by
    rw [List.takeWhile_append_of_pos, List.takeWhile_cons_of_neg (by simp), List.append_nil]
    intro c hc
    apply decide_eq_true
    rintro rfl
    rcases List.mem_append.1 hc with hc | hc
    · exact hb.colon_not_mem hc
    · rcases List.mem_cons.1 hc with he | hc
      · cases he
      · exact hq.colon_not_mem hc
  rw [normalize_settled U ht _ _ hl hm, normalize, ht.upper, normalizeOkxSwap,
    if_neg (by simp)]
  dsimp only
  rw [hw, if_neg (by simp), slashToHyphen_append, slashToHyphen_of_free hb.slash_not_mem]
  exact congrArg (fun r => Except.ok (base ++ '-' :: r ++ "-PERP".toList))
    (slashToHyphen_of_free hq.slash_not_mem)

theorem pair_parts (h : isCanonical c = true) (hn : ¬ ['\n'] <:+ c)
    (hs : c.splitOn '-' = base :: q :: parts) : Component base ∧ Component q := by
  have hj := (joined_of_canonical h hn).splitOn.2.2
  exact ⟨hj base (by simp [hs]), hj q (by simp [hs])⟩

/-- The spot reader returns spot symbols and no perpetuals. -/
theorem helixa_returns_iff (U : Casing) {k : Components} (hk : parseComponents c = .ok k)
    (h : toHelixaFormat c = .ok t) :
    toCanonical U t (some .helixa) none = .ok c ↔ k.instrument = .spot ∧ ¬ ['\n'] <:+ c := by
  have hcan := ((parseComponents_iff c k).1 hk).1
  obtain ⟨hl, hm, -⟩ := (isCanonical_iff c).1 hcan
  obtain ⟨hi, q, hq, rfl⟩ := toHelixaFormat_ok h hk
  have hslash := slash_mem_slashText k.base q k.instrument
  constructor
  · intro hc
    obtain ⟨he, -⟩ := toCanonical_slash U hslash _ (.inl rfl) hc
    refine ⟨?_, fun hn => no_newline_of_slash U hslash (he ▸ hn)⟩
    rcases hi with hi | hi
    · exact hi
    · have hcolon : ':' ∈ slashText k.base q k.instrument := by
        rw [slashText, if_pos hi]
        simp
      have hu := mem_upper_strip U hcolon (by decide)
      have hin : ':' ∈ c := by
        rw [he, slashToHyphen]
        exact List.mem_map.2 ⟨':', hu, rfl⟩
      exact (colon_not_mem_of_match hm hin).elim
  · rintro ⟨hi, hn⟩
    obtain ⟨q', hq', ⟨-, hp⟩ | ⟨hi', -⟩⟩ := parsed_pair hk (.inl hi)
    · cases hq.symm.trans hq'
      obtain ⟨hb, hqc⟩ := pair_parts hcan hn hp
      have hc : c = k.base ++ '-' :: q := by
        rw [eq_of_splitOn hp]
        simp
      rw [slashText, hi, if_neg (by simp)]
      rw [hc] at hl hm ⊢
      exact spot_comes_back U hb hqc hl hm _ (.inl rfl)
    · cases hi.symm.trans hi'

theorem okx_returns_iff (U : Casing) {k : Components} (hk : parseComponents c = .ok k)
    (h : toOkxFormat c = .ok t) :
    toCanonical U t (some (okxSource k.instrument)) none = .ok c ↔ ¬ ['\n'] <:+ c := by
  have hcan := ((parseComponents_iff c k).1 hk).1
  obtain ⟨hl, hm, -⟩ := (isCanonical_iff c).1 hcan
  obtain ⟨hi, q, hq, rfl⟩ := toHelixaFormat_ok h hk
  have hslash := slash_mem_slashText k.base q k.instrument
  obtain ⟨q', hq', ⟨hi, hp⟩ | ⟨hi, hp⟩⟩ := parsed_pair hk hi
  · cases hq.symm.trans hq'
    have hsrc : okxSource k.instrument = .okxSpot := by rw [okxSource, hi, if_neg (by simp)]
    rw [hsrc]
    constructor
    · intro hc hn
      obtain ⟨he, -⟩ := toCanonical_slash U hslash _ (.inr rfl) hc
      exact no_newline_of_slash U hslash (he ▸ hn)
    · intro hn
      obtain ⟨hb, hqc⟩ := pair_parts hcan hn hp
      have hc : c = k.base ++ '-' :: q := by
        rw [eq_of_splitOn hp]
        simp
      rw [slashText, hi, if_neg (by simp)]
      rw [hc] at hl hm ⊢
      exact spot_comes_back U hb hqc hl hm _ (.inr rfl)
  · cases hq.symm.trans hq'
    have hj : Joined c := joined_of_last [k.base, q] hcan hp (by decide) (by decide)
    have hn : ¬ ['\n'] <:+ c := fun hn => hj.newline_not_mem (hn.subset (.head _))
    obtain ⟨hb, hqc⟩ := pair_parts hcan hn hp
    have hc : c = k.base ++ '-' :: q ++ "-PERP".toList := by
      rw [eq_of_splitOn hp]
      simp
    have hsrc : okxSource k.instrument = .okxSwap := by rw [okxSource, hi, if_pos rfl]
    rw [hsrc, slashText, hi, if_pos rfl]
    refine iff_of_true ?_ hn
    rw [hc] at hl hm ⊢
    exact perp_comes_back U hb hqc hl hm

/-- Both slash formats of a pair come back exactly for spot symbols without a line feed at the
end. -/
theorem slash_round_trip_iff (U : Casing) {k : Components} (hk : parseComponents c = .ok k)
    (h : toHelixaFormat c = .ok t) (ho : toOkxFormat c = .ok o) :
    (toCanonical U t (some .helixa) none = .ok c ∧
      toCanonical U o (some (okxSource k.instrument)) none = .ok c) ↔
        k.instrument = .spot ∧ ¬ ['\n'] <:+ c := by
  rw [helixa_returns_iff U hk h, okx_returns_iff U hk ho]
  exact ⟨fun h => h.1, fun h => ⟨h, h.2⟩⟩

theorem slash_round_trip_btc :
    (toCanonical .ascii "BTC/USDT".toList (some .helixa) none = .ok "BTC-USDT".toList ∧
      toCanonical .ascii "BTC/USDT".toList (some (okxSource .spot)) none =
        .ok "BTC-USDT".toList) ↔
      Instrument.spot = .spot ∧ ¬ ['\n'] <:+ "BTC-USDT".toList :=
  slash_round_trip_iff .ascii (k := ⟨"BTC".toList, some "USDT".toList, .spot, none, none⟩)
    (by decide +kernel) (by decide +kernel) (by decide +kernel)

theorem helixa_loses_perp :
    ¬ ∀ (U : Casing) (c t o : List Char) (k : Components), parseComponents c = .ok k →
      toHelixaFormat c = .ok t → toOkxFormat c = .ok o →
        toCanonical U t (some .helixa) none = .ok c ∧
          toCanonical U o (some (okxSource k.instrument)) none = .ok c := by
  intro h
  have hp := (h .ascii "BTC-USDT-PERP".toList "BTC/USDT:USDT".toList "BTC/USDT:USDT".toList
    ⟨"BTC".toList, some "USDT".toList, .perp, none, none⟩ (by decide +kernel) (by decide +kernel)
    (by decide +kernel)).1
  exact absurd hp (by decide +kernel)

end Obase.SymbolNormalize
