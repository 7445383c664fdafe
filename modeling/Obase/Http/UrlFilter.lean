import Obase.Http.SafeIp
import Obase.Url.Split

namespace Obase.Http
set_option autoImplicit true
open Ip Url

/-- `FORBIDDEN_IP_PREFIXES`. -/
def forbiddenIpPrefixes : List (List Char) :=
  ["10.", "172.16.", "172.17.", "172.18.", "172.19.", "172.20.", "172.21.", "172.22.", "172.23.",
    "172.24.", "172.25.", "172.26.", "172.27.", "172.28.", "172.29.", "172.30.", "172.31.",
    "192.168.", "127.", "0.", "localhost", "169.254.", "::1", "fc00:", "fd00:",
    "fe80:"].map String.toList

/-- `CLOUD_METADATA_HOSTS`. -/
def cloudMetadataHosts : List (List Char) :=
  ["metadata.google.internal", "169.254.169.254", "instance-data.ec2.internal"].map String.toList

def httpSchemes : List (List Char) := ["http".toList, "https".toList]

/-- `is_safe_url`; a `ValueError` of `urlparse` makes it false. -/
def isSafeUrl (U : UrlText) (url : List Char) : Bool :=
  match urlsplit U url with
  | none => false
  | some parsed =>
    let hostname := (hostname U parsed.netloc).getD []
    if parsed.scheme ∉ httpSchemes then false
    else if hostname = [] then false
    else if U.lower hostname ∈ cloudMetadataHosts then false
    else !forbiddenIpPrefixes.any fun p => p.isPrefixOf hostname || hostname == p

/-- The first octets, and the pairs of first octets, that the filter looks for in a text. -/
def forbiddenOctets : List Nat := [10, 127, 0]

def forbiddenPairs : List (Nat × Nat) :=
  [(172, 16), (172, 17), (172, 18), (172, 19), (172, 20), (172, 21), (172, 22), (172, 23),
    (172, 24), (172, 25), (172, 26), (172, 27), (172, 28), (172, 29), (172, 30), (172, 31),
    (192, 168), (169, 254)]

/-- What the filter looks for in the text of an IPv6 address. -/
def forbiddenV6 : List (List Char) := ["::1", "fc00:", "fd00:", "fe80:"].map String.toList

def octetText (a : Nat) : List Char := Nat.toDigits 10 a ++ ['.']

/-- The list holds what is made of the octets, the pairs and the IPv6 texts, and `localhost`; of its
texts only those for IPv6 have colons, and the others have a character that is no hexadecimal digit. -/
theorem forbidden_shape :
    (∀ p ∈ forbiddenIpPrefixes, (∃ a ∈ forbiddenOctets, p = octetText a) ∨
      (∃ q ∈ forbiddenPairs, p = octetText q.1 ++ octetText q.2) ∨
        p = "localhost".toList ∨ p ∈ forbiddenV6) ∧
    (∀ a ∈ forbiddenOctets, octetText a ∈ forbiddenIpPrefixes) ∧
    (∀ q ∈ forbiddenPairs, octetText q.1 ++ octetText q.2 ∈ forbiddenIpPrefixes) ∧
    (∀ p ∈ forbiddenV6, p ∈ forbiddenIpPrefixes) ∧
    ∀ p ∈ forbiddenIpPrefixes,
      (':' ∉ p ∧ p.any (fun c => !isHex c) = true) ∨ p ∈ forbiddenV6 := by
  decide +kernel

theorem forbidden_cases : ∀ p ∈ forbiddenIpPrefixes, (∃ a ∈ forbiddenOctets, p = octetText a) ∨
    (∃ q ∈ forbiddenPairs, p = octetText q.1 ++ octetText q.2) ∨
      p = "localhost".toList ∨ p ∈ forbiddenV6 :=
  forbidden_shape.1

theorem forbidden_octets : ∀ a ∈ forbiddenOctets, octetText a ∈ forbiddenIpPrefixes :=
  forbidden_shape.2.1

theorem forbidden_pairs : ∀ q ∈ forbiddenPairs,
    octetText q.1 ++ octetText q.2 ∈ forbiddenIpPrefixes :=
  forbidden_shape.2.2.1

theorem forbidden_v6 : ∀ p ∈ forbiddenV6, p ∈ forbiddenIpPrefixes := forbidden_shape.2.2.2.1

theorem forbidden_plain : ∀ p ∈ forbiddenIpPrefixes,
    (':' ∉ p ∧ p.any (fun c => !isHex c) = true) ∨ p ∈ forbiddenV6 :=
  forbidden_shape.2.2.2.2

/-- A text that ends at a separator begins another exactly when their first fields agree. -/
theorem field_isPrefix_iff {c : Char} {x y t rest : List Char} (hx : c ∉ x) (hy : c ∉ y) :
    x ++ c :: t <+: y ++ c :: rest ↔ x = y ∧ t <+: rest := by
  constructor
  · rintro ⟨s, hs⟩
    rw [List.append_assoc, List.cons_append] at hs
    obtain ⟨rfl, rfl⟩ := Separated.append_sep_inj hx hy hs
    exact ⟨rfl, s, rfl⟩
  · rintro ⟨rfl, s, rfl⟩
    exact ⟨s, by rw [List.append_assoc, List.cons_append]⟩

theorem toDigits_no_stop (n : Nat) : '.' ∉ Nat.toDigits 10 n := by
  intro h
  have hd := Nat.isDigit_of_mem_toDigits (by decide) (by decide) h
  cases hd

section
variable {text : List Char} {n : BitVec 32} {a b c d : Nat}

theorem octet_isPrefix_iff (h : Dotted text n a b c d) (x : Nat) :
    octetText x <+: text ↔ x = a := by
  rw [h.text, octetText, field_isPrefix_iff (toDigits_no_stop x) (toDigits_no_stop a),
    toDigits_inj]
  exact and_iff_left List.nil_prefix

theorem pair_isPrefix_iff (h : Dotted text n a b c d) (x y : Nat) :
    octetText x ++ octetText y <+: text ↔ x = a ∧ y = b := by
  rw [h.text, octetText, octetText, List.append_assoc, List.singleton_append,
    field_isPrefix_iff (toDigits_no_stop x) (toDigits_no_stop a), toDigits_inj,
    field_isPrefix_iff (toDigits_no_stop y) (toDigits_no_stop b), toDigits_inj]
  exact and_congr_right fun _ => and_iff_left List.nil_prefix

end

/-- A prefix of the list starts the text. -/
def Caught (host : List Char) : Prop := ∃ p ∈ forbiddenIpPrefixes, p <+: host

theorem caught_iff (host : List Char) :
    (forbiddenIpPrefixes.any fun p => p.isPrefixOf host || host == p) = true ↔ Caught host := by
  rw [List.any_eq_true, Caught]
  refine exists_congr fun p => and_congr_right fun _ => ?_
  rw [Bool.or_eq_true, List.isPrefixOf_iff_prefix, beq_iff_eq]
  refine or_iff_left_of_imp ?_
  rintro rfl
  exact List.prefix_rfl

/-- The texts of the list that start an IPv4 address are those of its octets. -/
theorem caught_v4 {text : List Char} {n : BitVec 32} {a b c d : Nat} (h : Dotted text n a b c d) :
    Caught text ↔ a ∈ forbiddenOctets ∨ (a, b) ∈ forbiddenPairs := by
  constructor
  · rintro ⟨p, hp, hpre⟩
    have hother : ∀ {q : List Char} {ch : Char}, q.head? = some ch → ch.isDigit = false →
        ¬ q <+: text := by
      intro q ch hq hch hpre
      obtain ⟨ch', hh, hd⟩ := head_of_dotted h
      obtain ⟨t, rfl⟩ := hpre
      cases q with
      | nil => cases hq
      | cons x q =>
        cases hq
        cases hh
        rw [hch] at hd
        cases hd
    rcases forbidden_cases p hp with ⟨x, hx, rfl⟩ | ⟨q, hq, rfl⟩ | rfl | hv
    · rw [octet_isPrefix_iff h] at hpre
      rw [← hpre]
      exact .inl hx
    · obtain ⟨hx, hy⟩ := (pair_isPrefix_iff h ..).1 hpre
      rw [← hx, ← hy]
      exact .inr hq
    · exact absurd hpre (hother rfl rfl)
    · simp only [forbiddenV6, List.map_cons, List.map_nil, List.mem_cons, List.not_mem_nil,
        or_false] at hv
      rcases hv with rfl | rfl | rfl | rfl
      · exact absurd hpre (hother rfl rfl)
      · exact absurd hpre (hother rfl rfl)
      · exact absurd hpre (hother rfl rfl)
      · exact absurd hpre (hother rfl rfl)
  · rintro (hm | hm)
    · exact ⟨_, forbidden_octets a hm, (octet_isPrefix_iff h a).2 rfl⟩
    · exact ⟨_, forbidden_pairs _ hm, (pair_isPrefix_iff h a b).2 ⟨rfl, rfl⟩⟩

theorem isPrefix_of_no_colon {p q rest : List Char} (h : p <+: q ++ ':' :: rest) (hp : ':' ∉ p) :
    p <+: q := by
  obtain ⟨t, ht⟩ := h
  rcases List.append_eq_append_iff.1 ht with ⟨x, rfl, -⟩ | ⟨x, rfl, hx⟩
  · exact List.prefix_append ..
  · cases x with
    | nil => exact (List.append_nil q).symm ▸ List.prefix_rfl
    | cons y x =>
      injection hx with hy
      rw [← hy] at hp
      exact absurd (List.mem_append_right q List.mem_cons_self) hp

/-- Of the texts of the list, only those with a colon start an IPv6 address. -/
theorem caught_v6 {text : List Char} {n : BitVec 128} (h : parseV6 text = some n) :
    Caught text ↔ ∃ p ∈ forbiddenV6, p <+: text := by
  constructor
  · rintro ⟨p, hp, hpre⟩
    rcases forbidden_plain p hp with ⟨hc, hany⟩ | hv
    · obtain ⟨q, rest, rfl, hq⟩ := parseV6_head h
      obtain ⟨x, hx, hhex⟩ := List.any_eq_true.1 hany
      have hm := (isPrefix_of_no_colon hpre hc).subset hx
      rw [hq x hm] at hhex
      cases hhex
    · exact ⟨p, hv, hpre⟩
  · rintro ⟨p, hp, hpre⟩
    exact ⟨p, forbidden_v6 p hp, hpre⟩

theorem mem_of_dotted {text : List Char} {n : BitVec 32} {a b c d : Nat}
    (h : Dotted text n a b c d) {x : Char} (hx : x ∈ text) : x.isDigit = true ∨ x = '.' := by
  have hd {k : Nat} (hm : x ∈ Nat.toDigits 10 k) : x.isDigit = true ∨ x = '.' :=
    .inl (Nat.isDigit_of_mem_toDigits (by decide) (by decide) hm)
  rw [h.text] at hx
  simp only [List.mem_append, List.mem_cons] at hx
  rcases hx with hx | hx | hx | hx | hx | hx | hx
  · exact hd hx
  · exact .inr hx
  · exact hd hx
  · exact .inr hx
  · exact hd hx
  · exact .inr hx
  · exact hd hx

theorem lower_dotted (U : Casing) {text : List Char} {n : BitVec 32} {a b c d : Nat}
    (h : Dotted text n a b c d) : U.lower text = text := by
  have hchar {x : Char} (hx : x ∈ text) : x.toNat < 128 ∧ x.toLower = x := by
    rcases mem_of_dotted h hx with hd | rfl
    · have hlt := ascii_of_isDigit hd
      refine ⟨hlt, ?_⟩
      revert hd
      exact Text.forall_ascii (P := fun x => x.isDigit = true → x.toLower = x) (by decide) hlt
    · exact ⟨by decide, by decide⟩
  have hmap : text.map Char.toLower = text.map id :=
    List.map_congr_left fun x hx => (hchar hx).2
  rw [U.lower_ascii fun x hx => (hchar hx).1, hmap, List.map_id]

/-- An address that is a metadata host starts with a text of the list. -/
theorem caught_of_metadata (U : Casing) {host : List Char} {a : Address}
    (ha : ipAddress host = some a) (h : U.lower host ∈ cloudMetadataHosts) : Caught host := by
  rw [ipAddress] at ha
  split at ha
  · rename_i n hn
    obtain ⟨a, b, c, d, hd⟩ := parseV4_eq_some hn
    rw [lower_dotted U hd] at h
    obtain ⟨x, hx, hdigit⟩ := head_of_dotted hd
    simp only [cloudMetadataHosts, List.map_cons, List.map_nil, List.mem_cons, List.not_mem_nil,
      or_false] at h
    rcases h with rfl | rfl | rfl
    · cases hx
      cases hdigit
    · exact ⟨"169.254.".toList, by decide, "169.254".toList, rfl⟩
    · cases hx
      cases hdigit
  · obtain ⟨n, hn, -⟩ := Option.map_eq_some_iff.1 ha
    obtain ⟨p, rest, rfl, -⟩ := parseV6_head hn
    have hm : ':' ∈ U.lower (p ++ ':' :: rest) :=
      U.mem_lower_of_ascii (x := ':') (List.mem_append_right p List.mem_cons_self) (by decide)
    have hnone : ∀ m ∈ cloudMetadataHosts, ':' ∉ m := by decide
    exact absurd hm (hnone _ h)

theorem ne_nil_of_ipAddress {host : List Char} {a : Address} (h : ipAddress host = some a) :
    host ≠ [] := by
  rintro rfl
  have hn : ipAddress [] = none := rfl
  rw [hn] at h
  cases h

/-- The filter admits a literal exactly when the scheme is that of HTTP and no text of the list
starts the literal. -/
theorem isSafeUrl_literal {U : UrlText} {url host : List Char} {parsed : SplitResult} {a : Address}
    (hu : urlsplit U url = some parsed) (hh : hostname U parsed.netloc = some host)
    (ha : ipAddress host = some a) :
    isSafeUrl U url = true ↔ parsed.scheme ∈ httpSchemes ∧ ¬ Caught host := by
  rw [isSafeUrl, hu]
  dsimp only
  rw [hh, Option.getD_some, ← caught_iff]
  by_cases hs : parsed.scheme ∈ httpSchemes
  · rw [if_neg (not_not.2 hs), if_neg (ne_nil_of_ipAddress ha)]
    by_cases hm : U.lower host ∈ cloudMetadataHosts
    · rw [if_pos hm]
      refine iff_of_false Bool.false_ne_true fun h => h.2 ?_
      exact (caught_iff host).2 (caught_of_metadata U.toCasing ha hm)
    · rw [if_neg hm, Bool.not_eq_true', and_iff_right hs, Bool.not_eq_true]
  · rw [if_pos hs]
    exact iff_of_false Bool.false_ne_true fun h => hs h.1

/-- The text of the address gives away that it is blocked, if it is: it is no IPv4 address of
`100.64.0.0/10` or `224.0.0.0/3`, and an IPv6 address is public or begins with a text of the list. -/
def GivenAway (host : List Char) : Address → Prop
  | .v4 n => octet₁ n < 224 ∧ ¬ (octet₁ n = 100 ∧ octet₂ n / 64 = 1)
  | .v6 n => Public (.v6 n) ∨ ∃ p ∈ forbiddenV6, p <+: host

theorem mem_forbiddenPairs_iff {a b : Nat} (hb : b < 256) : (a, b) ∈ forbiddenPairs ↔
    (a = 172 ∧ b / 16 = 1) ∨ (a = 192 ∧ b = 168) ∨ (a = 169 ∧ b = 254) := by
  have hpairs : ∀ q ∈ forbiddenPairs,
      (q.1 = 172 ∧ q.2 / 16 = 1) ∨ (q.1 = 192 ∧ q.2 = 168) ∨ (q.1 = 169 ∧ q.2 = 254) := by
    decide
  have hprivate (h : b / 16 = 1) : (172, b) ∈ forbiddenPairs := by
    simp [forbiddenPairs]
    omega
  constructor
  · exact fun h => hpairs _ h
  · rintro (⟨rfl, h⟩ | ⟨rfl, rfl⟩ | ⟨rfl, rfl⟩)
    · exact hprivate h
    · decide
    · decide

theorem mem_forbiddenOctets_iff {a : Nat} : a ∈ forbiddenOctets ↔ a = 10 ∨ a = 127 ∨ a = 0 := by
  simp [forbiddenOctets]

/-- Of the blocked IPv4 addresses, the list misses those of `100.64.0.0/10` and `224.0.0.0/3`. -/
theorem missed_v4 {a b : Nat} (hb : b < 256) : a < 224 ∧ ¬ (a = 100 ∧ b / 64 = 1) ↔
    PublicOctets a b ∨ a ∈ forbiddenOctets ∨ (a, b) ∈ forbiddenPairs := by
  rw [mem_forbiddenOctets_iff, mem_forbiddenPairs_iff hb, PublicOctets]
  constructor
  · rintro ⟨hlt, hc⟩
    by_cases ho : a = 10 ∨ a = 127 ∨ a = 0
    · exact .inr (.inl ho)
    by_cases hp : (a = 172 ∧ b / 16 = 1) ∨ (a = 192 ∧ b = 168) ∨ (a = 169 ∧ b = 254)
    · exact .inr (.inr hp)
    · exact .inl (.inr ⟨hlt, by tauto, by tauto, by tauto, hc, by tauto, by tauto, by tauto⟩)
  · rintro ((⟨rfl, -⟩ | ⟨hlt, -, -, -, hc, -⟩) | (rfl | rfl | rfl) | ⟨rfl, -⟩ | ⟨rfl, -⟩ | ⟨rfl, -⟩)
    · exact ⟨by decide, fun h => absurd h.1 (by decide)⟩
    · exact ⟨hlt, hc⟩
    · exact ⟨by decide, fun h => absurd h.1 (by decide)⟩
    · exact ⟨by decide, fun h => absurd h.1 (by decide)⟩
    · exact ⟨by decide, fun h => absurd h.1 (by decide)⟩
    · exact ⟨by decide, fun h => absurd h.1 (by decide)⟩
    · exact ⟨by decide, fun h => absurd h.1 (by decide)⟩
    · exact ⟨by decide, fun h => absurd h.1 (by decide)⟩

theorem givenAway_iff {host : List Char} {a : Address} (ha : ipAddress host = some a) :
    GivenAway host a ↔ Public a ∨ Caught host := by
  rw [ipAddress] at ha
  split at ha
  · rename_i n hn
    cases ha
    obtain ⟨a, b, c, d, hd⟩ := parseV4_eq_some hn
    obtain ⟨h₁, h₂⟩ := octets_of_dotted hd
    rw [GivenAway, Public, caught_v4 hd, h₁, h₂]
    exact missed_v4 hd.bounds.2.1
  · obtain ⟨n, hn, rfl⟩ := Option.map_eq_some_iff.1 ha
    rw [GivenAway, caught_v6 hn]

/-- The two filters agree on a literal exactly when the scheme is not that of HTTP or the text of the
address gives it away. -/
theorem filters_agree_iff {U : UrlText} {url host : List Char} {parsed : SplitResult} {a : Address}
    (hu : urlsplit U url = some parsed) (hh : hostname U parsed.netloc = some host)
    (ha : ipAddress host = some a) : (isSafeUrl U url = true → isSafeIp host = true) ↔
      parsed.scheme ∉ httpSchemes ∨ GivenAway host a := by
  rw [isSafeUrl_literal hu hh ha, isSafeIp_iff ha, givenAway_iff ha]
  tauto

theorem filters_agree_public :
    (isSafeUrl .ascii "http://8.8.8.8/".toList = true → isSafeIp "8.8.8.8".toList = true) ↔
      "http".toList ∉ httpSchemes ∨ GivenAway "8.8.8.8".toList (.v4 0x08080808#32) := by
  have hu : urlsplit .ascii "http://8.8.8.8/".toList =
      some ⟨"http".toList, "8.8.8.8".toList, "/".toList, [], []⟩ := by decide
  exact filters_agree_iff hu (by decide) (by decide +kernel)

/-- The shared address space of carriers is admitted by the filter on the text alone. -/
theorem carrier_address_admitted :
    ¬ (isSafeUrl .ascii "http://100.64.0.1/".toList = true →
      isSafeIp "100.64.0.1".toList = true) := by
  decide +kernel

end Obase.Http
