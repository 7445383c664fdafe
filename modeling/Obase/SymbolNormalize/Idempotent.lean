import Obase.SymbolNormalize.Normalize
import Obase.Fallible

namespace Obase.SymbolNormalize
set_option autoImplicit true

/-- Stripping and upper-casing leave the text as it is. -/
def Settled (s : List Char) : Prop :=
  s ≠ [] ∧ ∀ c ∈ s, c.toNat < 128 ∧ c.toUpper = c ∧ Text.isSpace c = false

theorem Settled.strip (h : Settled s) : Text.strip s = s := by
  apply Text.strip_of_trimmed
  obtain ⟨c, hc⟩ := Option.ne_none_iff_exists'.1 (mt List.head?_eq_none_iff.1 h.1)
  obtain ⟨d, hd⟩ := Option.ne_none_iff_exists'.1 (mt List.getLast?_eq_none_iff.1 h.1)
  exact ⟨c, hc, (h.2 c (List.mem_of_mem_head? hc)).2.2, d, hd, (h.2 d (List.mem_of_getLast? hd)).2.2⟩

theorem Settled.upper (U : Casing) (h : Settled s) : U.upperText s = s :=
  U.upperText_eq_self fun c hc => ⟨(h.2 c hc).1, (h.2 c hc).2.1⟩

theorem Settled.append (hs : Settled s) (ht : Settled t) : Settled (s ++ t) :=
  ⟨by simp [hs.1], fun c hc => (List.mem_append.1 hc).elim (hs.2 c) (ht.2 c)⟩

theorem ascii_of_alnum (h : isAlnum c = true) : c.toNat < 128 := by
  simp only [isAlnum, Bool.or_eq_true, Bool.and_eq_true, decide_eq_true_eq, Char.le_def,
    UInt32.le_iff_toNat_le] at h
  change ('A'.toNat ≤ c.toNat ∧ c.toNat ≤ 90) ∨ ('0'.toNat ≤ c.toNat ∧ c.toNat ≤ 57) at h
  omega

theorem settled_of_alnum (h : isAlnum c = true) :
    c.toNat < 128 ∧ c.toUpper = c ∧ Text.isSpace c = false := by
  have hd : ∀ n < 128, isAlnum (Char.ofNat n) = true →
      (Char.ofNat n).toUpper = Char.ofNat n ∧ Text.isSpace (Char.ofNat n) = false := by
    decide +kernel
  exact ⟨ascii_of_alnum h,
    Text.forall_ascii (P := fun c => isAlnum c = true → c.toUpper = c ∧ Text.isSpace c = false)
      hd (ascii_of_alnum h) h⟩

theorem Joined.ne_nil (h : Joined s) : s ≠ [] := by
  obtain ⟨parts, hlo, -, hp, rfl⟩ := h
  cases parts with
  | nil => cases hlo
  | cons p ps =>
    have hpos := (hp p (.head _)).1
    rw [Separated.intercalate_cons]
    intro he
    rw [List.append_eq_nil_iff] at he
    rw [he.1] at hpos
    cases hpos

theorem Joined.settled (h : Joined s) : Settled s := by
  refine ⟨h.ne_nil, fun c hc => ?_⟩
  rcases h.mem hc with ha | rfl
  · exact settled_of_alnum ha
  · decide

theorem toCanonical_ok_iff (U : Casing) (raw : List Char) (source : Option Source)
    (instrument : Option Instrument) (c : List Char) :
    toCanonical U raw source instrument = .ok c ↔
      Text.strip raw ≠ [] ∧ normalize U (Text.strip raw) source instrument = .ok c ∧
        c.length ≤ maxLength ∧ canonicalRegexMatch c = true := by
  have hv : ∀ r, validateCanonical r raw = .ok () ↔
      r.length ≤ maxLength ∧ canonicalRegexMatch r = true := by
    intro r
    rw [validateCanonical]
    by_cases hl : maxLength < r.length
    · rw [if_pos hl]
      exact ⟨fun h => (nomatch h), fun h => absurd hl (Nat.not_lt.2 h.1)⟩
    · rw [if_neg hl]
      cases hm : canonicalRegexMatch r with
      | true => exact ⟨fun _ => ⟨Nat.not_lt.1 hl, rfl⟩, fun _ => rfl⟩
      | false => exact ⟨fun h => (nomatch h), fun h => (nomatch h.2)⟩
  rw [toCanonical]
  constructor
  · intro h
    split at h
    · cases h
    · rename_i hne
      obtain ⟨r, hr, h⟩ := bind_ok h
      obtain ⟨u, hu, rfl⟩ := map_ok h
      exact ⟨hne, hr, (hv c).1 hu⟩
  · rintro ⟨hne, hr, hm⟩
    rw [if_neg hne, hr]
    change (validateCanonical c raw).map _ = _
    rw [(hv c).2 hm]
    rfl

/-- A result that is not canonical, or not for the normaliser. -/
def Flawed (s : List Char) : Prop := spotSuffix <:+ s ∨ ['\n'] <:+ s

theorem canonical_iff_not_flawed (h : canonicalRegexMatch s = true) :
    (Joined s ∧ ¬ spotSuffix <:+ s) ↔ ¬ Flawed s := by
  rw [Flawed, not_or]
  constructor
  · rintro ⟨hj, hs⟩
    refine ⟨hs, ?_⟩
    rintro ⟨t, rfl⟩
    exact hj.newline_not_mem (by simp)
  · rintro ⟨hs, hn⟩
    rcases (canonicalRegexMatch_iff s).1 h with hj | ⟨t, rfl, -⟩
    · exact ⟨hj, hs⟩
    · exact (hn ⟨t, rfl⟩).elim

theorem stripSpotSuffix_of_not (h : ¬ spotSuffix <:+ s) : stripSpotSuffix s = s := by
  rw [stripSpotSuffix, if_neg (mt List.isSuffixOf_iff_suffix.1 h)]

theorem stripSpotSuffix_append (t : List Char) : stripSpotSuffix (t ++ spotSuffix) = t := by
  rw [stripSpotSuffix, if_pos (List.isSuffixOf_iff_suffix.2 (List.suffix_append t spotSuffix)),
    List.length_append]
  exact List.take_left' rfl

theorem mem_of_mem_stripSpotSuffix (h : c ∈ stripSpotSuffix s) : c ∈ s := by
  rw [stripSpotSuffix] at h
  split at h
  · exact List.mem_of_mem_take h
  · exact h

/-- A result is a fixed point that `is_canonical` accepts unless it is flawed. -/
theorem fixed_iff (U : Casing) (hl : c.length ≤ maxLength) (hm : canonicalRegexMatch c = true) :
    (isCanonical c = true ∧ toCanonical U c none none = .ok c) ↔ ¬ Flawed c := by
  rw [← canonical_iff_not_flawed hm, isCanonical_iff, toCanonical_ok_iff]
  constructor
  · rintro ⟨⟨-, -, hs⟩, -, hc, -⟩
    refine ⟨?_, hs⟩
    rcases (canonicalRegexMatch_iff c).1 hm with hj | ⟨t, rfl, ht⟩
    · exact hj
    · obtain ⟨x, hx, hxs, y, hy, hys⟩ : Text.Trimmed Text.isSpace t := by
        rw [← ht.settled.strip]
        apply Text.trim_trimmed
        rw [← Text.strip, ht.settled.strip]
        exact ht.ne_nil
      have hst : Text.strip (t ++ ['\n']) = t := by
        have hb := Text.trim_of_trimmed (w := []) (v := ['\n']) ⟨x, hx, hxs, y, hy, hys⟩
          (by simp) (by simp [Text.isSpace])
        exact hb
      rw [hst, normalize, ht.settled.upper] at hc
      injection hc with hc
      have hn : '\n' ∈ stripSpotSuffix t := by
        rw [hc]
        simp
      exact (ht.newline_not_mem (mem_of_mem_stripSpotSuffix hn)).elim
  · rintro ⟨hj, hs⟩
    have hj' := hj.settled
    rw [hj'.strip, normalize, hj'.upper, stripSpotSuffix_of_not hs]
    exact ⟨⟨hl, hm, hs⟩, hj.ne_nil, rfl, hl, hm⟩

theorem suffix_append_iff {p q x : List Char} : p ++ q <:+ x ++ q ↔ p <:+ x := by
  constructor
  · rintro ⟨t, ht⟩
    rw [← List.append_assoc] at ht
    exact ⟨t, List.append_cancel_right ht⟩
  · rintro ⟨t, rfl⟩
    exact ⟨t, (List.append_assoc ..).symm⟩

/-- A text that ends otherwise than in the suffix or a line feed. -/
theorem not_flawed_of_suffix {q : List Char} (h : q <:+ s)
    (hq : ¬ spotSuffix <:+ q ∧ ¬ q <:+ spotSuffix ∧ ¬ ['\n'] <:+ q ∧ ¬ q <:+ ['\n']) :
    ¬ Flawed s := by
  rintro (hs | hn)
  · exact (List.suffix_or_suffix_of_suffix hs h).elim hq.1 hq.2.1
  · exact (List.suffix_or_suffix_of_suffix hn h).elim hq.2.2.1 hq.2.2.2

/-- The upper-cased texts whose suffix hides a flaw. -/
def HidesFlaw (s : List Char) : Prop :=
  "-SPOT-SPOT".toList <:+ s ∨ "\n-SPOT".toList <:+ s

theorem flawed_stripSpotSuffix (h : ¬ ['\n'] <:+ s) :
    Flawed (stripSpotSuffix s) ↔ HidesFlaw s := by
  by_cases hs : spotSuffix <:+ s
  · obtain ⟨t, rfl⟩ := hs
    have h₁ : "-SPOT-SPOT".toList = spotSuffix ++ spotSuffix := by decide
    have h₂ : "\n-SPOT".toList = ['\n'] ++ spotSuffix := by decide
    rw [stripSpotSuffix_append, Flawed, HidesFlaw, h₁, h₂, suffix_append_iff, suffix_append_iff]
  · rw [stripSpotSuffix_of_not hs]
    constructor
    · intro hf
      exact (hf.elim hs h).elim
    · have h₁ : spotSuffix <:+ "-SPOT-SPOT".toList := by decide
      have h₂ : spotSuffix <:+ "\n-SPOT".toList := by decide
      intro hh
      exact (hs (hh.elim h₁.trans h₂.trans)).elim

theorem eq_of_slashToHyphen (h : slashToHyphen s = t) (ht : '-' ∉ t) : s = t := by
  induction s generalizing t with
  | nil => exact h
  | cons c s ih =>
    rw [slashToHyphen, List.map_cons] at h
    rw [← h, List.mem_cons, not_or] at ht
    by_cases hc : c = '/'
    · rw [if_pos hc] at ht
      exact (ht.1 rfl).elim
    · rw [if_neg hc] at h
      rw [← h]
      exact congrArg (c :: ·) (ih rfl ht.2)

theorem suffix_slashToHyphen {p s : List Char} (h : p <:+ slashToHyphen s) :
    ∃ q, q <:+ s ∧ slashToHyphen q = p := by
  obtain ⟨t, ht⟩ := h
  obtain ⟨a, b, rfl, -, hb⟩ := List.map_eq_append_iff.1 ht.symm
  exact ⟨b, List.suffix_append a b, hb⟩

theorem flawed_slashToHyphen (h : ¬ ['\n'] <:+ s) :
    Flawed (slashToHyphen s) ↔ "-SPOT".toList <:+ s ∨ "/SPOT".toList <:+ s := by
  constructor
  · rintro (hs | hn)
    · obtain ⟨q, hq, he⟩ := suffix_slashToHyphen hs
      obtain ⟨c, q, rfl, hc, he⟩ := List.map_eq_cons_iff.1 he
      cases eq_of_slashToHyphen he (by decide)
      by_cases hc' : c = '/'
      · rw [hc'] at hq
        exact .inr hq
      · rw [if_neg hc'] at hc
        rw [hc] at hq
        exact .inl hq
    · obtain ⟨q, hq, he⟩ := suffix_slashToHyphen hn
      rw [eq_of_slashToHyphen he (by decide)] at hq
      exact (h hq).elim
  · rintro (hs | hs)
    · exact .inl (hs.map fun c => if c = '/' then '-' else c)
    · exact .inl (hs.map fun c => if c = '/' then '-' else c)

/-- The sources and upper-cased texts whose result is flawed. -/
def Misread (source : Option Source) (s : List Char) : Prop :=
  match source with
  | none => HidesFlaw s
  | some .yfinance => HidesFlaw s
  | some .okxSpot =>
    if '/' ∈ s then "-SPOT".toList <:+ s ∨ "/SPOT".toList <:+ s else HidesFlaw s
  | some .helixa =>
    if '/' ∈ s then "-SPOT".toList <:+ s ∨ "/SPOT".toList <:+ s else HidesFlaw s
  | some _ => False

theorem flawed_normalizeOkxSpot (h : ¬ ['\n'] <:+ s) :
    Flawed (normalizeOkxSpot s) ↔
      if '/' ∈ s then "-SPOT".toList <:+ s ∨ "/SPOT".toList <:+ s else HidesFlaw s := by
  rw [normalizeOkxSpot]
  by_cases hs : '/' ∈ s
  · rw [if_pos hs, if_pos hs, flawed_slashToHyphen h]
  · rw [if_neg hs, if_neg hs, flawed_stripSpotSuffix h]

theorem splitConcat_not_flawed {quotes : List (List Char)}
    (hq : ∀ q ∈ quotes, q ∈ knownQuotes) (h : splitConcat s instrument quotes = .ok c) :
    ¬ Flawed c := by
  induction quotes with
  | nil => cases h
  | cons quote quotes ih =>
    rw [List.forall_mem_cons] at hq
    rw [splitConcat] at h
    split at h
    · dsimp only at h
      split at h
      · cases h
        split
        · exact not_flawed_of_suffix (List.suffix_append _ _) (by decide)
        · have hk : ∀ q ∈ knownQuotes, ¬ spotSuffix <:+ q ∧ ¬ q <:+ spotSuffix ∧
              ¬ ['\n'] <:+ q ∧ ¬ q <:+ ['\n'] := by
            decide
          apply not_flawed_of_suffix _ (hk quote hq.1)
          exact (List.suffix_cons '-' quote).trans (List.suffix_append _ _)
      · exact ih hq.2 h
    · exact ih hq.2 h

theorem normalizeOkxSwap_not_flawed (h : normalizeOkxSwap s = .ok c) : ¬ Flawed c := by
  rw [normalizeOkxSwap] at h
  split at h
  · cases h
  · dsimp only at h
    split at h
    · cases h
    · cases h
      exact not_flawed_of_suffix (List.suffix_append _ _) (by decide)

theorem normalizeCoingeckoSlug_not_flawed (h : normalizeCoingeckoSlug U s = .ok c) :
    ¬ Flawed c := by
  rw [normalizeCoingeckoSlug] at h
  split at h
  · cases h
  · rename_i asset ha
    cases h
    have hm : (U.lower (Text.strip s), c) ∈ coingeckoSlugToAsset := by
      obtain ⟨l₁, l₂, he, -⟩ := List.lookup_eq_some_iff.1 ha
      rw [he]
      simp
    have hk : ∀ p ∈ coingeckoSlugToAsset, ¬ spotSuffix <:+ p.2 ∧ ¬ p.2 <:+ spotSuffix ∧
        ¬ ['\n'] <:+ p.2 ∧ ¬ p.2 <:+ ['\n'] := by
      decide
    exact not_flawed_of_suffix (List.suffix_refl c) (hk _ hm)

theorem not_flawed_of_last (h : [d] <:+ s) (ht : d ≠ 'T') (hn : d ≠ '\n') : ¬ Flawed s := by
  have he : ∀ {x}, [x] <:+ s → x = d := by
    intro x hx
    rcases List.suffix_or_suffix_of_suffix hx h with hs | hs
    · exact List.singleton_inj.1 (hs.eq_of_length rfl)
    · exact (List.singleton_inj.1 (hs.eq_of_length rfl)).symm
  rintro (hs | hs)
  · have hT : ['T'] <:+ spotSuffix := by decide
    exact ht (he (hT.trans hs)).symm
  · exact hn (he hs).symm

/-- A date ends in a digit. -/
theorem parseDeribitDate_not_flawed (h : parseDeribitDate U token = .ok c) (hs : c <:+ s) :
    ¬ Flawed s := by
  rw [parseDeribitDate] at h
  split at h
  · cases h
  · rename_i day monAbbr yy hg
    rw [deribitDateGroups] at hg
    split at hg
    · rename_i hd
      cases hg
      split at h
      · cases h
      · cases h
        have hne : token.take (token.length - 5) ≠ [] := by
          intro hn
          rw [hn] at hd
          simp at hd
        have hdec := List.all_eq_true.1 hd.2.1 _ (List.getLast_mem hne)
        have hlast : [(token.take (token.length - 5)).getLast hne] <:+ s := by
          apply List.IsSuffix.trans _ hs
          rw [List.leftpad, ← List.append_assoc]
          apply List.IsSuffix.trans _ (List.suffix_append _ _)
          exact ⟨_, List.dropLast_append_getLast hne⟩
        apply not_flawed_of_last hlast
        · intro he
          rw [he, U.isDecimal_ascii _ (by decide)] at hdec
          cases hdec
        · intro he
          rw [he, U.isDecimal_ascii _ (by decide)] at hdec
          cases hdec
    · cases hg

theorem normalizeDeribit_not_flawed (h : normalizeDeribit U s = .ok c) : ¬ Flawed c := by
  rw [normalizeDeribit] at h
  split at h
  · split at h
    · cases h
      exact not_flawed_of_suffix (List.suffix_append _ _) (by decide)
    · obtain ⟨e, he, rfl⟩ := map_ok h
      exact parseDeribitDate_not_flawed he (List.suffix_append _ _)
  · split at h
    · obtain ⟨e, he, rfl⟩ := map_ok h
      exact parseDeribitDate_not_flawed he
        ((List.suffix_cons '-' e).trans (List.suffix_append _ _))
    · cases h
  · cases h

theorem not_newline_of_upper (U : Casing) (h : Text.strip raw ≠ []) :
    ¬ ['\n'] <:+ U.upperText (Text.strip raw) := by
  rintro ⟨t, ht⟩
  have hl : (U.upperText (Text.strip raw)).getLast? = some '\n' := by
    rw [← ht, List.getLast?_concat]
  obtain ⟨c, -, -, d, hd, hs⟩ := Text.trim_trimmed h
  rw [← Text.strip, U.getLast_of_upperText hl] at hd
  cases hd
  cases hs

theorem flawed_iff_misread (U : Casing) (hne : Text.strip raw ≠ [])
    (h : normalize U (Text.strip raw) source instrument = .ok c) :
    Flawed c ↔ Misread source (U.upperText (Text.strip raw)) := by
  have hn := not_newline_of_upper U hne
  cases source with
  | none =>
    cases h
    exact flawed_stripSpotSuffix hn
  | some source =>
    cases source with
    | okxSpot =>
      cases h
      exact flawed_normalizeOkxSpot hn
    | helixa =>
      cases h
      exact flawed_normalizeOkxSpot hn
    | yfinance =>
      rw [normalize, normalizeYfinance] at h
      split at h
      · cases h
      · cases h
        exact flawed_stripSpotSuffix hn
    | binance => exact iff_of_false (splitConcat_not_flawed (fun _ hq => hq) h) id
    | binanceFutures => exact iff_of_false (splitConcat_not_flawed (fun _ hq => hq) h) id
    | okxSwap => exact iff_of_false (normalizeOkxSwap_not_flawed h) id
    | coingecko => exact iff_of_false (normalizeCoingeckoSlug_not_flawed h) id
    | deribit => exact iff_of_false (normalizeDeribit_not_flawed h) id
    | other name => cases h

/-- What is returned is canonical and normalises to itself exactly when no suffix was taken off
that hid another, or a line feed, and no slash stood before the suffix. -/
theorem toCanonical_fixed_iff (U : Casing)
    (h : toCanonical U raw source instrument = .ok c) :
    (isCanonical c = true ∧ toCanonical U c none none = .ok c) ↔
      ¬ Misread source (U.upperText (Text.strip raw)) := by
  obtain ⟨hne, hr, hl, hm⟩ := (toCanonical_ok_iff U raw source instrument c).1 h
  rw [fixed_iff U hl hm, flawed_iff_misread U hne hr]

theorem toCanonical_fixed_swap :
    (isCanonical "BTC-USDT-PERP".toList = true ∧
      toCanonical .ascii "BTC-USDT-PERP".toList none none = .ok "BTC-USDT-PERP".toList) ↔
      ¬ Misread (some .okxSwap) (Casing.ascii.upperText (Text.strip " btc/usdt:usdt".toList)) :=
  toCanonical_fixed_iff .ascii (by decide +kernel :
    toCanonical .ascii " btc/usdt:usdt".toList (some .okxSwap) none = .ok "BTC-USDT-PERP".toList)

theorem second_suffix_is_kept :
    ¬ ∀ (U : Casing) (raw : List Char) (source : Option Source) (instrument : Option Instrument)
      (c : List Char), toCanonical U raw source instrument = .ok c →
        isCanonical c = true ∧ toCanonical U c none none = .ok c := by
  intro h
  have hc := (h .ascii "BTC-SPOT-SPOT".toList none none "BTC-SPOT".toList (by decide +kernel)).1
  exact absurd hc (by decide +kernel)

end Obase.SymbolNormalize
