import Obase.Ip.Address

namespace Obase.Http
set_option autoImplicit true
open Ip

structure Network (w : Nat) where
  address : BitVec w
  length : Nat

/-- `addr in net` of an address of the same version. -/
def Network.contains (net : Network w) (a : BitVec w) : Bool :=
  a.toNat / 2 ^ (w - net.length) == net.address.toNat / 2 ^ (w - net.length)

/-- `_ALLOWED_DOCKER_NETWORKS`. -/
def allowedDockerNetworks : List (Network 32) := [⟨ofOctets 172 17 0 0, 16⟩]

/-- The IPv4 networks of `_BLOCKED_NETWORKS`. -/
def blockedV4 : List (Network 32) :=
  [⟨ofOctets 0 0 0 0, 8⟩, ⟨ofOctets 10 0 0 0, 8⟩, ⟨ofOctets 100 64 0 0, 10⟩,
    ⟨ofOctets 127 0 0 0, 8⟩, ⟨ofOctets 169 254 0 0, 16⟩, ⟨ofOctets 172 16 0 0, 12⟩,
    ⟨ofOctets 192 168 0 0, 16⟩]

/-- The IPv6 network whose address has the given first hextet and no other. -/
def ofHextet (h length : Nat) : Network 128 := ⟨BitVec.ofNat 128 (h * 2 ^ 112), length⟩

/-- The IPv6 networks of `_BLOCKED_NETWORKS`. -/
def blockedV6 : List (Network 128) :=
  [⟨1, 128⟩, ⟨BitVec.ofNat 128 (0xffff * 2 ^ 32), 96⟩, ofHextet 0xfc00 7, ofHextet 0xfe80 10]

/-- The reserved networks of the `ipaddress` module. -/
def reservedV6 : List (Network 128) :=
  [ofHextet 0 8, ofHextet 0x100 8, ofHextet 0x200 7, ofHextet 0x400 6, ofHextet 0x800 5,
    ofHextet 0x1000 4, ofHextet 0x4000 3, ofHextet 0x6000 3, ofHextet 0x8000 3,
    ofHextet 0xa000 3, ofHextet 0xc000 3, ofHextet 0xe000 4, ofHextet 0xf000 5,
    ofHextet 0xf800 6, ofHextet 0xfe00 9]

def isLoopback : Address → Bool
  | .v4 n => Network.contains ⟨ofOctets 127 0 0 0, 8⟩ n
  | .v6 n => n == 1

def isLinkLocal : Address → Bool
  | .v4 n => Network.contains ⟨ofOctets 169 254 0 0, 16⟩ n
  | .v6 n => (ofHextet 0xfe80 10).contains n

def isMulticast : Address → Bool
  | .v4 n => Network.contains ⟨ofOctets 224 0 0 0, 4⟩ n
  | .v6 n => (ofHextet 0xff00 8).contains n

def isReserved : Address → Bool
  | .v4 n => Network.contains ⟨ofOctets 240 0 0 0, 4⟩ n
  | .v6 n => reservedV6.any (·.contains n)

def isUnspecified : Address → Bool
  | .v4 n => n == 0
  | .v6 n => n == 0

/-- `addr.ipv4_mapped`, where it is not `None`. -/
def unmapped : Address → Address
  | .v4 n => .v4 n
  | .v6 n => if n.toNat / 2 ^ 32 = 0xffff then .v4 (BitVec.ofNat 32 n.toNat) else .v6 n

def isAllowedDocker : Address → Bool
  | .v4 n => allowedDockerNetworks.any (·.contains n)
  | .v6 _ => false

def isBlocked : Address → Bool
  | .v4 n => blockedV4.any (·.contains n)
  | .v6 n => blockedV6.any (·.contains n)

/-- The checks of `is_safe_ip`. -/
def isSafeAddress (a : Address) : Bool :=
  if isAllowedDocker a then true
  else if isLoopback a || isLinkLocal a || isMulticast a || isReserved a || isUnspecified a then
    false
  else !isBlocked a

def isSafeIp (ip : List Char) : Bool :=
  match ipAddress ip with
  | none => false
  | some a => isSafeAddress (unmapped a)

def octet₁ (n : BitVec 32) : Nat := n.toNat / 2 ^ 16 / 256

def octet₂ (n : BitVec 32) : Nat := n.toNat / 2 ^ 16 % 256

/-- The first two octets of an IPv4 address that `is_safe_ip` lets through. -/
def PublicOctets (a b : Nat) : Prop :=
  a = 172 ∧ b = 17 ∨
    a < 224 ∧ a ≠ 0 ∧ a ≠ 10 ∧ a ≠ 127 ∧ ¬ (a = 100 ∧ b / 64 = 1) ∧ ¬ (a = 169 ∧ b = 254) ∧
      ¬ (a = 172 ∧ b / 16 = 1) ∧ ¬ (a = 192 ∧ b = 168)

/-- The first ten bits of an IPv6 address that `is_safe_ip` lets through: those of `2000::/3` and
`fec0::/10`. -/
def PublicTop (k : Nat) : Prop := k / 128 = 1 ∨ k = 1019

theorem contains_iff {net : Network w} {a : BitVec w} : net.contains a = true ↔
    a.toNat / 2 ^ (w - net.length) = net.address.toNat / 2 ^ (w - net.length) :=
  beq_iff_eq

theorem ofOctets_toNat {a b c d : Nat} (ha : a < 256) (hb : b < 256) (hc : c < 256)
    (hd : d < 256) : (ofOctets a b c d).toNat = ((a * 256 + b) * 256 + c) * 256 + d := by
  rw [ofOctets, BitVec.toNat_ofNat, Nat.mod_eq_of_lt]
  omega

theorem div_octets {p c d : Nat} (hc : c < 256) (hd : d < 256) :
    ((p * 256 + c) * 256 + d) / 2 ^ 16 = p := by
  rw [Nat.div_eq_iff (by decide)]
  omega

theorem octets_of_dotted {text : List Char} {n : BitVec 32} {a b c d : Nat}
    (h : Dotted text n a b c d) : octet₁ n = a ∧ octet₂ n = b := by
  obtain ⟨ha, hb, hc, hd⟩ := h.bounds
  rw [octet₁, octet₂, h.value, div_octets hc hd]
  omega

/-- Membership in a network of at most sixteen bits is seen from the first two octets. -/
theorem contains_octets (n : BitVec 32) {x y k : Nat} (hx : x < 256) (hy : y < 256) (hk : k ≤ 16) :
    Network.contains ⟨ofOctets x y 0 0, k⟩ n = true ↔
      n.toNat / 2 ^ 16 / 2 ^ (16 - k) = (x * 256 + y) / 2 ^ (16 - k) := by
  have hp : 2 ^ (32 - k) = 2 ^ 16 * 2 ^ (16 - k) := by
    rw [← Nat.pow_add]
    congr 1
    omega
  rw [contains_iff, ofOctets_toNat hx hy (by decide) (by decide), hp, ← Nat.div_div_eq_div_mul,
    ← Nat.div_div_eq_div_mul, div_octets (by decide) (by decide)]

/-- Membership in a network of at most eight bits is seen from the first octet. -/
theorem contains_first (n : BitVec 32) {x k : Nat} (hx : x < 256) (hk : k ≤ 8) :
    Network.contains ⟨ofOctets x 0 0 0, k⟩ n = true ↔
      octet₁ n / 2 ^ (8 - k) = x / 2 ^ (8 - k) := by
  have hp : 2 ^ (16 - k) = 256 * 2 ^ (8 - k) := by
    rw [show 256 = 2 ^ 8 by rfl, ← Nat.pow_add]
    congr 1
    omega
  have hd : (x * 256 + 0) / 256 = x := by omega
  rw [contains_octets n hx (by decide) (by omega), hp, ← Nat.div_div_eq_div_mul,
    ← Nat.div_div_eq_div_mul, hd, octet₁]

theorem div_pair {a b x y m : Nat} (hb : b < 256) (hy : y < 256) (hm : m ∣ 256) :
    (a * 256 + b) / m = (x * 256 + y) / m ↔ a = x ∧ b / m = y / m := by
  obtain ⟨k, hk⟩ := hm
  have hpos : 0 < m := Nat.pos_of_ne_zero fun h => by rw [h, Nat.zero_mul] at hk; cases hk
  have hdiv (u v : Nat) : (u * 256 + v) / m = u * k + v / m := by
    rw [hk, Nat.mul_left_comm, Nat.mul_add_div hpos]
  have hlt {v : Nat} (hv : v < 256) : v / m < k := by
    rw [hk] at hv
    exact Nat.div_lt_of_lt_mul hv
  have hb' := hlt hb
  have hy' := hlt hy
  have hk₀ : 0 < k := Nat.lt_of_le_of_lt (Nat.zero_le _) hb'
  rw [hdiv, hdiv]
  constructor
  · intro h
    have hq (u v : Nat) (hv : v < k) : (u * k + v) / k = u := by
      rw [Nat.mul_comm, Nat.mul_add_div hk₀, Nat.div_eq_of_lt hv, Nat.add_zero]
    have ha : a = x := by rw [← hq a _ hb', h, hq x _ hy']
    rw [ha] at h
    exact ⟨ha, Nat.add_left_cancel h⟩
  · rintro ⟨rfl, h⟩
    rw [h]

/-- Membership in a longer network is seen from the second octet too. -/
theorem contains_second (n : BitVec 32) {x y k : Nat} (hx : x < 256) (hy : y < 256) (h₈ : 8 ≤ k)
    (hk : k ≤ 16) : Network.contains ⟨ofOctets x y 0 0, k⟩ n = true ↔
      octet₁ n = x ∧ octet₂ n / 2 ^ (16 - k) = y / 2 ^ (16 - k) := by
  have hn : n.toNat / 2 ^ 16 = octet₁ n * 256 + octet₂ n := (Nat.div_add_mod' _ _).symm
  have hdvd : 2 ^ (16 - k) ∣ 256 := Nat.pow_dvd_pow 2 (show 16 - k ≤ 8 by omega)
  have hb : octet₂ n < 256 := Nat.mod_lt _ (by decide)
  rw [contains_octets n hx hy hk, hn, div_pair hb hy hdvd]

theorem isAllowedDocker_v4 (n : BitVec 32) :
    isAllowedDocker (.v4 n) = true ↔ octet₁ n = 172 ∧ octet₂ n = 17 := by
  rw [isAllowedDocker, allowedDockerNetworks, List.any_cons, List.any_nil, Bool.or_false,
    contains_second n (by decide) (by decide) (by decide) (by decide), Nat.sub_self, Nat.pow_zero,
    Nat.div_one]

/-- The attributes by which `is_safe_ip` refuses an IPv4 address. -/
theorem attributes_v4 (n : BitVec 32) : (isLoopback (.v4 n) || isLinkLocal (.v4 n) ||
    isMulticast (.v4 n) || isReserved (.v4 n) || isUnspecified (.v4 n)) = true ↔
      ((((octet₁ n = 127 ∨ octet₁ n = 169 ∧ octet₂ n = 254) ∨ octet₁ n / 16 = 14) ∨
        octet₁ n / 16 = 15) ∨ isUnspecified (.v4 n) = true) := by
  simp only [Bool.or_eq_true, isLoopback, isLinkLocal, isMulticast, isReserved]
  rw [contains_first n (by decide) (by decide),
    contains_second n (by decide) (by decide) (by decide) (by decide),
    contains_first n (by decide) (by decide), contains_first n (by decide) (by decide)]
  simp

theorem isBlocked_v4 (n : BitVec 32) : isBlocked (.v4 n) = true ↔
    octet₁ n = 0 ∨ octet₁ n = 10 ∨ (octet₁ n = 100 ∧ octet₂ n / 64 = 1) ∨ octet₁ n = 127 ∨
      (octet₁ n = 169 ∧ octet₂ n = 254) ∨ (octet₁ n = 172 ∧ octet₂ n / 16 = 1) ∨
      (octet₁ n = 192 ∧ octet₂ n = 168) := by
  simp only [isBlocked, blockedV4, List.any_cons, List.any_nil, Bool.or_false, Bool.or_eq_true]
  rw [contains_first n (by decide) (by decide), contains_first n (by decide) (by decide),
    contains_second n (by decide) (by decide) (by decide) (by decide),
    contains_first n (by decide) (by decide),
    contains_second n (by decide) (by decide) (by decide) (by decide),
    contains_second n (by decide) (by decide) (by decide) (by decide),
    contains_second n (by decide) (by decide) (by decide) (by decide)]
  simp

theorem isSafe_v4 (n : BitVec 32) :
    isSafeAddress (.v4 n) = true ↔ PublicOctets (octet₁ n) (octet₂ n) := by
  have hunspec : isUnspecified (.v4 n) = true → octet₁ n = 0 := by
    intro hz
    rw [octet₁, eq_of_beq hz]
    rfl
  have hlt : octet₁ n < 256 := by
    have hp : n.toNat / 2 ^ 16 < 256 * 256 := Nat.div_lt_of_lt_mul n.isLt
    exact Nat.div_lt_of_lt_mul hp
  rw [isSafeAddress, PublicOctets]
  by_cases hd : octet₁ n = 172 ∧ octet₂ n = 17
  · rw [if_pos ((isAllowedDocker_v4 n).2 hd)]
    exact iff_of_true rfl (.inl hd)
  · rw [if_neg fun ht => hd ((isAllowedDocker_v4 n).1 ht), or_iff_right hd]
    by_cases hat : (isLoopback (.v4 n) || isLinkLocal (.v4 n) || isMulticast (.v4 n) ||
      isReserved (.v4 n) || isUnspecified (.v4 n)) = true
    · rw [if_pos hat]
      refine iff_of_false Bool.false_ne_true ?_
      rcases (attributes_v4 n).1 hat with (((h | h) | h) | h) | h
      · omega
      · omega
      · omega
      · omega
      · have h₀ := hunspec h
        omega
    · rw [if_neg hat, Bool.not_eq_true', ← Bool.not_eq_true, isBlocked_v4]
      rw [attributes_v4] at hat
      have hsmall : octet₁ n < 224 := by omega
      simp only [hsmall, true_and, not_or, ne_eq]
      tauto

/-- Membership in a network of at most ten bits, of an address with the given first ten. -/
def Network.containsTop (net : Network 128) (k : Nat) : Bool :=
  k / 2 ^ (10 - net.length) == net.address.toNat / 2 ^ 118 / 2 ^ (10 - net.length)

theorem contains_top {net : Network 128} (h : net.length ≤ 10) (n : BitVec 128) :
    net.contains n = net.containsTop (n.toNat / 2 ^ 118) := by
  have hp : 2 ^ (128 - net.length) = 2 ^ 118 * 2 ^ (10 - net.length) := by
    rw [← Nat.pow_add]
    congr 1
    omega
  rw [Network.contains, Network.containsTop, hp, ← Nat.div_div_eq_div_mul,
    ← Nat.div_div_eq_div_mul]

/-- Whether `is_safe_ip` refuses an IPv6 address for its first ten bits. -/
def refusedTop (k : Nat) : Bool :=
  (ofHextet 0xfe80 10).containsTop k || (ofHextet 0xff00 8).containsTop k ||
    reservedV6.any (·.containsTop k) || (ofHextet 0xfc00 7).containsTop k

theorem refusedTop_iff : ∀ k < 1024, refusedTop k = true ↔ ¬ (k / 128 = 1 ∨ k = 1019) := by
  decide +kernel

theorem reserved_top (n : BitVec 128) :
    reservedV6.any (·.contains n) = reservedV6.any (·.containsTop (n.toNat / 2 ^ 118)) := by
  have hlen : ∀ net ∈ reservedV6, net.length ≤ 10 := by decide
  rw [Bool.eq_iff_iff, List.any_eq_true, List.any_eq_true]
  refine exists_congr fun net => and_congr_right fun hm => ?_
  rw [contains_top (hlen net hm)]

theorem refused_of_small {n : BitVec 128} (h : n.toNat < 2 ^ 118) :
    refusedTop (n.toNat / 2 ^ 118) = true := by
  rw [Nat.div_eq_of_lt h]
  decide

/-- The attributes and the blocklist refuse an IPv6 address exactly when its first ten bits do. -/
theorem refused_v6 (n : BitVec 128) :
    (isLoopback (.v6 n) || isLinkLocal (.v6 n) || isMulticast (.v6 n) || isReserved (.v6 n) ||
      isUnspecified (.v6 n)) = true ∨ isBlocked (.v6 n) = true ↔
        refusedTop (n.toNat / 2 ^ 118) = true := by
  have hlocal : (ofHextet 0xfe80 10).contains n = _ := contains_top (by decide) n
  have hmulti : (ofHextet 0xff00 8).contains n = _ := contains_top (by decide) n
  have hunique : (ofHextet 0xfc00 7).contains n = _ := contains_top (by decide) n
  simp only [isLoopback, isLinkLocal, isMulticast, isReserved, isUnspecified, isBlocked, blockedV6,
    List.any_cons, List.any_nil, Bool.or_false, Bool.or_eq_true, reserved_top, hlocal, hmulti,
    hunique]
  constructor
  · rintro (((((hl | hl) | hm) | hr) | hz) | h₁ | h₂ | hu | hl)
    · apply refused_of_small
      rw [eq_of_beq hl]
      decide
    · simp only [refusedTop, hl, Bool.true_or]
    · simp only [refusedTop, hm, Bool.true_or, Bool.or_true]
    · simp only [refusedTop, hr, Bool.true_or, Bool.or_true]
    · apply refused_of_small
      rw [eq_of_beq hz]
      decide
    · have he := contains_iff.1 h₁
      apply refused_of_small
      change n.toNat / 2 ^ 0 = 1 / 2 ^ 0 at he
      omega
    · have he := contains_iff.1 h₂
      apply refused_of_small
      change n.toNat / 2 ^ 32 = 0xffff * 2 ^ 32 / 2 ^ 32 at he
      omega
    · simp only [refusedTop, hu, Bool.or_true]
    · simp only [refusedTop, hl, Bool.true_or]
  · intro h
    simp only [refusedTop, Bool.or_eq_true] at h
    rcases h with ((hl | hm) | hr) | hu
    · exact .inl (.inl (.inl (.inl (.inr hl))))
    · exact .inl (.inl (.inl (.inr hm)))
    · exact .inl (.inl (.inr hr))
    · exact .inr (.inr (.inr (.inl hu)))

theorem isSafe_v6 (n : BitVec 128) :
    isSafeAddress (.v6 n) = true ↔ PublicTop (n.toNat / 2 ^ 118) := by
  have hlt : n.toNat / 2 ^ 118 < 1024 := Nat.div_lt_of_lt_mul n.isLt
  rw [PublicTop, ← not_not (a := _ ∨ _), ← refusedTop_iff _ hlt, ← refused_v6, isSafeAddress,
    isAllowedDocker, if_neg Bool.false_ne_true]
  by_cases hattr : (isLoopback (.v6 n) || isLinkLocal (.v6 n) || isMulticast (.v6 n) ||
      isReserved (.v6 n) || isUnspecified (.v6 n)) = true
  · rw [if_pos hattr]
    exact iff_of_false Bool.false_ne_true (not_not.2 (.inl hattr))
  · rw [if_neg hattr, Bool.not_eq_true', ← Bool.not_eq_true, or_iff_right hattr]

/-- The addresses that `is_safe_ip` lets through: the Docker bridge, the IPv4 addresses outside the
blocked ranges, also as mapped IPv6 ones, and `2000::/3` and `fec0::/10`. -/
def Public : Address → Prop
  | .v4 n => PublicOctets (octet₁ n) (octet₂ n)
  | .v6 n =>
    if n.toNat / 2 ^ 32 = 0xffff then
      PublicOctets (octet₁ (BitVec.ofNat 32 n.toNat)) (octet₂ (BitVec.ofNat 32 n.toNat))
    else PublicTop (n.toNat / 2 ^ 118)

/-- An address in any spelling is safe exactly when it is public. -/
theorem isSafeIp_iff {ip : List Char} {a : Address} (h : ipAddress ip = some a) :
    isSafeIp ip = true ↔ Public a := by
  rw [isSafeIp, h]
  dsimp only
  cases a with
  | v4 n => exact isSafe_v4 n
  | v6 n =>
    rw [unmapped, Public]
    split
    · exact isSafe_v4 _
    · exact isSafe_v6 n

example : isSafeIp "172.17.0.2".toList = true := by decide +kernel

example : isSafeIp "::ffff:10.0.0.1".toList = false := by decide +kernel

end Obase.Http
