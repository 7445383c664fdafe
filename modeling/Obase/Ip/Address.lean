import Obase.Json.Loads
import Obase.Separated
import Obase.Url.Quote

namespace Obase.Ip
set_option autoImplicit true
open Json Separated

/-- An address of the `ipaddress` module, without the zone of an IPv6 address. -/
inductive Address where
  | v4 (n : BitVec 32)
  | v6 (n : BitVec 128)
deriving DecidableEq

/-- `_parse_octet`. -/
def parseOctet (text : List Char) : Option Nat :=
  if isNatLiteral text ∧ text.length ≤ 3 ∧ Nat.ofDigitChars 10 text 0 ≤ 255 then
    some (Nat.ofDigitChars 10 text 0)
  else none

def ofOctets (a b c d : Nat) : BitVec 32 := BitVec.ofNat 32 (((a * 256 + b) * 256 + c) * 256 + d)

/-- `IPv4Address`; an octet has no slash. -/
def parseV4 (text : List Char) : Option (BitVec 32) :=
  match text.splitOn '.' with
  | [a, b, c, d] => do
    some (ofOctets (← parseOctet a) (← parseOctet b) (← parseOctet c) (← parseOctet d))
  | _ => none

def hexNumber (text : List Char) : Nat :=
  text.foldl (fun n c => n * 16 + (hexValue c).getD 0) 0

/-- `_parse_hextet`. -/
def parseHextet (text : List Char) : Option Nat :=
  if text.all (fun c => (hexValue c).isSome) ∧ text.length ≤ 4 ∧ text ≠ [] then
    some (hexNumber text)
  else none

/-- The number that a sequence of hextets makes. -/
def hextets (parts : List (List Char)) : Option Nat :=
  (parts.mapM parseHextet).map fun ns => ns.foldl (fun n h => n * 65536 + h) 0

/-- The places of the empty parts that are neither first nor last. -/
def skipped (parts : List (List Char)) : List Nat :=
  (List.range parts.length).filter fun i =>
    decide (0 < i ∧ i + 1 < parts.length ∧ parts[i]? = some [])

/-- How many of the parts on one side of a `::` are hextets: all but one that is empty, which has to
be the only one. -/
def sideLength (n : Nat) (outer : Option (List Char)) : Option Nat :=
  if outer = some [] then
    if n - 1 = 0 then some 0 else none
  else some n

/-- The parts that a dotted last part makes. -/
def expandDotted (parts : List (List Char)) : Option (List (List Char)) :=
  if '.' ∈ parts.getLast?.getD [] then
    (parseV4 (parts.getLast?.getD [])).map fun n =>
      parts.dropLast ++ [Nat.toDigits 16 (n.toNat / 65536), Nat.toDigits 16 (n.toNat % 65536)]
  else some parts

/-- `_ip_int_from_string` of the parts between the colons. -/
def parseParts (parts : List (List Char)) : Option Nat :=
  if parts.length > 9 then none
  else
    match skipped parts with
    | [] =>
      if parts.length = 8 ∧ parts.head? ≠ some [] ∧ parts.getLast? ≠ some [] then hextets parts
      else none
    | [i] => do
      let hi ← sideLength i parts.head?
      let lo ← sideLength (parts.length - i - 1) parts.getLast?
      if hi + lo > 7 then none
      else
        some ((← hextets (parts.take hi)) * 65536 ^ (8 - hi) +
          (← hextets (parts.drop (parts.length - lo))))
    | _ => none

/-- `_split_scope_id`. -/
def splitScopeId (text : List Char) : Option (List Char) :=
  if '%' ∈ text then
    let (address, scope) := Url.partition '%' text
    if scope = [] ∨ '%' ∈ scope then none else some address
  else some text

/-- `IPv6Address`. -/
def parseV6 (text : List Char) : Option (BitVec 128) :=
  if '/' ∈ text then none
  else do
    let address ← splitScopeId text
    let parts := address.splitOn ':'
    if parts.length < 3 then none
    else (parseParts (← expandDotted parts)).map (BitVec.ofNat 128)

/-- `ip_address`, `none` for a `ValueError`. -/
def ipAddress (text : List Char) : Option Address :=
  match parseV4 text with
  | some n => some (.v4 n)
  | none => (parseV6 text).map .v6

/-- The octets of a dotted address and its value. -/
structure Dotted (text : List Char) (n : BitVec 32) (a b c d : Nat) : Prop where
  text : text = Nat.toDigits 10 a ++ '.' :: (Nat.toDigits 10 b ++ '.' ::
    (Nat.toDigits 10 c ++ '.' :: Nat.toDigits 10 d))
  value : n.toNat = ((a * 256 + b) * 256 + c) * 256 + d
  bounds : a < 256 ∧ b < 256 ∧ c < 256 ∧ d < 256

theorem parseOctet_eq_some {text : List Char} {n : Nat} (h : parseOctet text = some n) :
    text = Nat.toDigits 10 n ∧ n < 256 := by
  rw [parseOctet] at h
  split at h
  · rename_i hc
    cases h
    exact ⟨(toDigits_of_literal hc.1).symm, Nat.lt_succ_of_le hc.2.2⟩
  · cases h

theorem parseV4_eq_some {text : List Char} {n : BitVec 32} (h : parseV4 text = some n) :
    ∃ a b c d, Dotted text n a b c d := by
  rw [parseV4] at h
  split at h
  · rename_i ta tb tc td hs
    simp only [Option.bind_eq_bind, Option.bind_eq_some_iff, Option.some.injEq] at h
    obtain ⟨a, ha, b, hb, c, hc, d, hd, rfl⟩ := h
    obtain ⟨rfl, ha'⟩ := parseOctet_eq_some ha
    obtain ⟨rfl, hb'⟩ := parseOctet_eq_some hb
    obtain ⟨rfl, hc'⟩ := parseOctet_eq_some hc
    obtain ⟨rfl, hd'⟩ := parseOctet_eq_some hd
    refine ⟨a, b, c, d, ?_, ?_, ha', hb', hc', hd'⟩
    · have hi : ['.'].intercalate (text.splitOn '.') = text := List.intercalate_splitOn '.'
      rw [← hi, hs]
      simp
    · rw [ofOctets, BitVec.toNat_ofNat, Nat.mod_eq_of_lt]
      omega
  · cases h

theorem head_of_dotted {text : List Char} {n : BitVec 32} {a b c d : Nat}
    (h : Dotted text n a b c d) : ∃ ch, text.head? = some ch ∧ ch.isDigit = true := by
  obtain ⟨ch, cs, he⟩ := List.exists_cons_of_ne_nil (Nat.toDigits_ne_nil (n := a) (b := 10))
  have hd := Nat.isDigit_of_mem_toDigits (by decide) (by decide) (he ▸ List.mem_cons_self)
  exact ⟨ch, by rw [h.text, he]; rfl, hd⟩

def isHex (c : Char) : Bool := (hexValue c).isSome

theorem hextets_head {p : List Char} {ps : List (List Char)} {n : Nat}
    (h : hextets (p :: ps) = some n) : ∀ c ∈ p, isHex c = true := by
  rw [hextets, List.mapM_cons] at h
  cases hp : parseHextet p with
  | none =>
    rw [hp] at h
    cases h
  | some k =>
    rw [parseHextet] at hp
    split at hp
    · rename_i hc
      exact List.all_eq_true.1 hc.1
    · cases hp

theorem parseParts_head {p : List Char} {ps : List (List Char)} {n : Nat}
    (h : parseParts (p :: ps) = some n) : ∀ c ∈ p, isHex c = true := by
  by_cases hp : p = []
  · intro c hc
    rw [hp] at hc
    cases hc
  have hne : (p :: ps).head? ≠ some [] := fun he => hp (Option.some.inj he)
  rw [parseParts] at h
  split at h
  · cases h
  · split at h
    · split at h
      · exact hextets_head h
      · cases h
    · rename_i i hi
      have hpos : 0 < i := by
        have hm : i ∈ skipped (p :: ps) := by rw [hi]; exact .head _
        exact (of_decide_eq_true (List.mem_filter.1 hm).2).1
      obtain ⟨k, rfl⟩ := Nat.exists_eq_succ_of_ne_zero (Nat.pos_iff_ne_zero.1 hpos)
      simp only [Option.bind_eq_bind, Option.bind_eq_some_iff, sideLength, if_neg hne,
        Option.some.injEq] at h
      obtain ⟨hi', rfl, lo, -, h⟩ := h
      by_cases hlo : k.succ + lo > 7
      · rw [if_pos hlo] at h
        cases h
      · rw [if_neg hlo, Option.bind_eq_some_iff] at h
        obtain ⟨x, hx, -⟩ := h
        exact hextets_head hx
    · cases h

theorem splitScopeId_initial {text address : List Char} (h : splitScopeId text = some address) :
    ∃ rest, text = address ++ rest := by
  rw [splitScopeId] at h
  split at h
  · rename_i hm
    dsimp only at h
    split at h
    · cases h
    · cases h
      exact ⟨_, (Url.partition_of_mem hm).1⟩
  · cases h
    exact ⟨[], (List.append_nil _).symm⟩

theorem expandDotted_head {p q : List Char} {ps parts : List (List Char)}
    (h : expandDotted (p :: q :: ps) = some parts) : ∃ ps', parts = p :: ps' := by
  rw [expandDotted] at h
  split at h
  · obtain ⟨n, -, rfl⟩ := Option.map_eq_some_iff.1 h
    exact ⟨_, rfl⟩
  · cases h
    exact ⟨_, rfl⟩

/-- An IPv6 address has colons, and nothing but hex digits before the first. -/
theorem parseV6_head {text : List Char} {n : BitVec 128} (h : parseV6 text = some n) :
    ∃ p rest, text = p ++ ':' :: rest ∧ ∀ c ∈ p, isHex c = true := by
  rw [parseV6] at h
  split at h
  · cases h
  · simp only [Option.bind_eq_bind, Option.bind_eq_some_iff] at h
    obtain ⟨address, hs, h⟩ := h
    obtain ⟨rest, rfl⟩ := splitScopeId_initial hs
    by_cases hlen : (address.splitOn ':').length < 3
    · rw [if_pos hlen] at h
      cases h
    · rw [if_neg hlen, Option.bind_eq_some_iff] at h
      obtain ⟨parts, he, hm⟩ := h
      obtain ⟨m, hm, -⟩ := Option.map_eq_some_iff.1 hm
      have hcolon : ':' ∈ address := by
        by_contra hn
        rw [List.splitOn_eq_singleton hn, List.length_singleton] at hlen
        exact hlen (by decide)
      obtain ⟨p, z, rfl, hp⟩ := List.eq_append_cons_of_mem hcolon
      obtain ⟨q, ps, hz⟩ := List.exists_cons_of_ne_nil (List.splitOn_ne_nil ':' z)
      rw [List.splitOn_append_cons_self, List.splitOn_eq_singleton hp, hz] at he
      obtain ⟨ps', rfl⟩ := expandDotted_head he
      exact ⟨p, z ++ rest, by rw [List.append_assoc, List.cons_append], parseParts_head hm⟩

/-- An address starts with a digit or a colon. -/
theorem head_of_ipAddress {text : List Char} {a : Address} (h : ipAddress text = some a) :
    ∃ c, text.head? = some c ∧ (c.isDigit = true ∨ isHex c = true ∨ c = ':') := by
  rw [ipAddress] at h
  split at h
  · rename_i n hn
    obtain ⟨a, b, c, d, hd⟩ := parseV4_eq_some hn
    obtain ⟨x, hx, hdigit⟩ := head_of_dotted hd
    exact ⟨x, hx, .inl hdigit⟩
  · obtain ⟨n, hn, -⟩ := Option.map_eq_some_iff.1 h
    obtain ⟨p, rest, rfl, hp⟩ := parseV6_head hn
    cases p with
    | nil => exact ⟨':', rfl, .inr (.inr rfl)⟩
    | cons x p => exact ⟨x, rfl, .inr (.inl (hp x (.head _)))⟩

end Obase.Ip
