import Obase.Casing
import Obase.SymbolNormalize.Canonical

namespace Obase.SymbolNormalize
set_option autoImplicit true

def knownQuotes : List (List Char) :=
  ["USDT".toList, "USDC".toList, "BUSD".toList, "TUSD".toList, "FDUSD".toList, "USD".toList,
    "EUR".toList, "GBP".toList, "JPY".toList, "TRY".toList, "BTC".toList, "ETH".toList,
    "BNB".toList]

def coingeckoSlugToAsset : List (List Char × List Char) :=
  [("bitcoin".toList, "BTC".toList), ("ethereum".toList, "ETH".toList),
    ("solana".toList, "SOL".toList)]

def coingeckoAssetToSlug : List (List Char × List Char) :=
  coingeckoSlugToAsset.map fun (k, v) => (v, k)

def deribitMonths : List (List Char × List Char) :=
  [("JAN".toList, "01".toList), ("FEB".toList, "02".toList), ("MAR".toList, "03".toList),
    ("APR".toList, "04".toList), ("MAY".toList, "05".toList), ("JUN".toList, "06".toList),
    ("JUL".toList, "07".toList), ("AUG".toList, "08".toList), ("SEP".toList, "09".toList),
    ("OCT".toList, "10".toList), ("NOV".toList, "11".toList), ("DEC".toList, "12".toList)]

/-- A value of `SourceLiteral`, or any other string. -/
inductive Source where
  | binance
  | binanceFutures
  | okxSpot
  | okxSwap
  | yfinance
  | helixa
  | coingecko
  | deribit
  | other (name : List Char)
deriving DecidableEq

inductive Instrument where
  | spot
  | perp
  | fut
  | call
  | put
  | asset
deriving DecidableEq

/-- The errors, with the values their messages show. -/
inductive SymbolNormalizeError where
  | emptyInput (raw : List Char)
  | unknownSource (source : List Char)
  | exceedsMaxLength (s original : List Char)
  | resultNotCanonical (s original : List Char)
  | cannotSplit (s : List Char)
  | swapWithoutSettle (s : List Char)
  | swapMalformed (s : List Char)
  | nonCryptoTicker (s : List Char)
  | unknownSlug (s : List Char)
  | unknownInstrumentFormat (s : List Char)
  | invalidDateToken (token : List Char)
  | unknownMonth (monAbbr : List Char)
  | notCanonicalForm (canonical : List Char)
  | invalidStrike (canonical part : List Char)
  | cannotParse (canonical : List Char)
  | binanceSpotPerpOnly (canonical : List Char)
  | helixaSpotPerpOnly (canonical : List Char)
  | noSlug (asset : List Char)
deriving DecidableEq

/-- The loop of `_normalize_binance_concat` over the quotes that are left. -/
def splitConcat (s : List Char) (instrument : Option Instrument) :
    List (List Char) → Except SymbolNormalizeError (List Char)
  | [] => .error (.cannotSplit s)
  | quote :: quotes =>
    if quote.isSuffixOf s ∧ quote.length < s.length then
      let base := s.take (s.length - quote.length)
      if 1 ≤ base.length ∧ base.length ≤ 10 then
        let canonical := base ++ '-' :: quote
        .ok (if instrument = some .perp then canonical ++ "-PERP".toList else canonical)
      else splitConcat s instrument quotes
    else splitConcat s instrument quotes

def normalizeBinanceConcat (s : List Char) (instrument : Option Instrument) :
    Except SymbolNormalizeError (List Char) :=
  splitConcat s instrument knownQuotes

/-- `replace("/", "-")`. -/
def slashToHyphen (s : List Char) : List Char := s.map fun c => if c = '/' then '-' else c

def stripSpotSuffix (s : List Char) : List Char :=
  if spotSuffix.isSuffixOf s then s.take (s.length - 5) else s

def normalizeOkxSpot (s : List Char) : List Char :=
  if '/' ∈ s then slashToHyphen s else stripSpotSuffix s

def normalizeOkxSwap (s : List Char) : Except SymbolNormalizeError (List Char) :=
  if ':' ∉ s then .error (.swapWithoutSettle s)
  else
    let baseQuote := s.takeWhile (· ≠ ':')
    if '/' ∉ baseQuote then .error (.swapMalformed s)
    else .ok (slashToHyphen baseQuote ++ "-PERP".toList)

def normalizeYfinance (s : List Char) : Except SymbolNormalizeError (List Char) :=
  let s := stripSpotSuffix s
  if '.' ∈ s ∨ '^' ∈ s ∨ '=' ∈ s then .error (.nonCryptoTicker s) else .ok s

def normalizeCoingeckoSlug (U : Casing) (s : List Char) :
    Except SymbolNormalizeError (List Char) :=
  match coingeckoSlugToAsset.lookup (U.lower (Text.strip s)) with
  | none => .error (.unknownSlug s)
  | some asset => .ok asset

/-- The full match of `(\d{1,2})([A-Z]{3})(\d{2})` and its groups. -/
def deribitDateGroups (U : Casing) (token : List Char) :
    Option (List Char × List Char × List Char) :=
  let day := token.take (token.length - 5)
  let mon := (token.drop (token.length - 5)).take 3
  let yy := token.drop (token.length - 2)
  if (day.length = 1 ∨ day.length = 2) ∧ day.all U.isDecimal ∧
      (mon.all fun c => 'A' ≤ c && c ≤ 'Z') ∧ yy.all U.isDecimal then
    some (day, mon, yy)
  else none

def parseDeribitDate (U : Casing) (token : List Char) : Except SymbolNormalizeError (List Char) :=
  match deribitDateGroups U token with
  | none => .error (.invalidDateToken token)
  | some (day, monAbbr, yy) =>
    match deribitMonths.lookup monAbbr with
    | none => .error (.unknownMonth monAbbr)
    | some mm => .ok (yy ++ mm ++ day.leftpad 2 '0')

def normalizeDeribit (U : Casing) (s : List Char) : Except SymbolNormalizeError (List Char) :=
  match s.splitOn '-' with
  | [asset, part] =>
    if part = "PERPETUAL".toList then .ok (asset ++ "-USD-PERP".toList)
    else
      (parseDeribitDate U part).map fun expiration => asset ++ "-USD-FUT-".toList ++ expiration
  | [asset, part, strike, kind] =>
    if kind = ['C'] ∨ kind = ['P'] then
      (parseDeribitDate U part).map fun expiration =>
        asset ++ "-USD-".toList ++ (if kind = ['C'] then "CALL".toList else "PUT".toList) ++
          '-' :: strike ++ '-' :: expiration
    else .error (.unknownInstrumentFormat s)
  | _ => .error (.unknownInstrumentFormat s)

def validateCanonical (s original : List Char) : Except SymbolNormalizeError Unit :=
  if maxLength < s.length then .error (.exceedsMaxLength s original)
  else if canonicalRegexMatch s then .ok ()
  else .error (.resultNotCanonical s original)

/-- The branch of `to_canonical` for a source, on the stripped text. -/
def normalize (U : Casing) (s : List Char) (source : Option Source)
    (instrument : Option Instrument) : Except SymbolNormalizeError (List Char) :=
  match source with
  | some .binance => normalizeBinanceConcat (U.upperText s) instrument
  | some .binanceFutures => normalizeBinanceConcat (U.upperText s) (some .perp)
  | some .okxSpot => .ok (normalizeOkxSpot (U.upperText s))
  | some .okxSwap => normalizeOkxSwap (U.upperText s)
  | some .helixa => .ok (normalizeOkxSpot (U.upperText s))
  | some .yfinance => normalizeYfinance (U.upperText s)
  | some .coingecko => normalizeCoingeckoSlug U s
  | some .deribit => normalizeDeribit U (U.upperText s)
  | none => .ok (stripSpotSuffix (U.upperText s))
  | some (.other name) => .error (.unknownSource name)

def toCanonical (U : Casing) (raw : List Char) (source : Option Source)
    (instrument : Option Instrument) : Except SymbolNormalizeError (List Char) :=
  if Text.strip raw = [] then .error (.emptyInput raw)
  else
    (normalize U (Text.strip raw) source instrument).bind fun result =>
      (validateCanonical result raw).map fun _ => result

structure Components where
  base : List Char
  quote : Option (List Char)
  instrument : Instrument
  strike : Option Nat
  expiration : Option (List Char)
deriving DecidableEq

/-- `int` of a text of letters and digits. -/
def parseInt (s : List Char) : Option Nat :=
  if s.all Char.isDigit then some (s.foldl (fun n c => 10 * n + (c.toNat - '0'.toNat)) 0) else none

def parseComponents (canonical : List Char) : Except SymbolNormalizeError Components :=
  if isCanonical canonical then
    match canonical.splitOn '-' with
    | [base] => .ok ⟨base, none, .asset, none, none⟩
    | [base, quote] => .ok ⟨base, some quote, .spot, none, none⟩
    | [base, quote, kind] =>
      if kind = "PERP".toList then .ok ⟨base, some quote, .perp, none, none⟩
      else .error (.cannotParse canonical)
    | [base, quote, kind, expiration] =>
      if kind = "FUT".toList then .ok ⟨base, some quote, .fut, none, some expiration⟩
      else .error (.cannotParse canonical)
    | [base, quote, kind, part, expiration] =>
      if kind = "CALL".toList ∨ kind = "PUT".toList then
        match parseInt part with
        | none => .error (.invalidStrike canonical part)
        | some strike =>
          .ok ⟨base, some quote, if kind = "CALL".toList then .call else .put, some strike,
            some expiration⟩
      else .error (.cannotParse canonical)
    | _ => .error (.cannotParse canonical)
  else .error (.notCanonicalForm canonical)

/-- The property of the validated model. -/
def SymbolModel.components (m : SymbolModel) : Except SymbolNormalizeError Components :=
  parseComponents m.raw

def toBinanceConcat (canonical : List Char) : Except SymbolNormalizeError (List Char) :=
  (parseComponents canonical).bind fun components =>
    match components.instrument, components.quote with
    | .spot, some quote => .ok (components.base ++ quote)
    | .perp, some quote => .ok (components.base ++ quote)
    | _, _ => .error (.binanceSpotPerpOnly canonical)

def toHelixaFormat (canonical : List Char) : Except SymbolNormalizeError (List Char) :=
  (parseComponents canonical).bind fun components =>
    match components.instrument, components.quote with
    | .spot, some quote => .ok (components.base ++ '/' :: quote)
    | .perp, some quote => .ok (components.base ++ '/' :: quote ++ ':' :: quote)
    | _, _ => .error (.helixaSpotPerpOnly canonical)

def toOkxFormat (canonical : List Char) : Except SymbolNormalizeError (List Char) :=
  toHelixaFormat canonical

def toCoingeckoSlug (canonical : List Char) : Except SymbolNormalizeError (List Char) :=
  (parseComponents canonical).bind fun components =>
    match coingeckoAssetToSlug.lookup components.base with
    | none => .error (.noSlug components.base)
    | some slug => .ok slug

def fromCoingeckoSlug (U : Casing) (slug : List Char) : Except SymbolNormalizeError (List Char) :=
  normalizeCoingeckoSlug U slug

end Obase.SymbolNormalize
