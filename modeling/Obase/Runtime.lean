import Obase.Base64
import Obase.Concrete

namespace Obase
set_option autoImplicit true

/-- The characters from the space to the tilde. -/
def Printable (cs : List Char) : Prop := ∀ c ∈ cs, 0x20 ≤ c.toNat ∧ c.toNat < 0x7f

/-- What else is left open of the interpreter: `0.0`, the sum and the difference of floats, how
`json.loads` decodes bytes (`none` for a `UnicodeDecodeError`), and the order in which a
`frozenset` yields its elements. -/
class Runtime (F : Type) extends Builtins F where
  zero : F
  val_zero : Json.FloatText.val zero = 0
  add : PyFloat F → PyFloat F → PyFloat F
  sub : PyFloat F → PyFloat F → PyFloat F
  decodeBytes : List UInt8 → Option (List Char)
  decodeBytes_utf8 : ∀ cs, Printable cs → decodeBytes (utf8 cs) = some cs
  setOrder : List (Json F) → List (Json F)
  mem_setOrder : ∀ (ss : List String) (v : Json F), v ∈ setOrder (ss.map .str) ↔ v ∈ ss.map .str

/-- `x < y` of floats. -/
def PyFloat.lt [Json.FloatText F] (x y : PyFloat F) : Bool :=
  Json.rankLt (Json.floatRank x) (Json.floatRank y)

/-- `x <= y` of floats. -/
def PyFloat.le [Json.FloatText F] (x y : PyFloat F) : Bool :=
  x.lt y || ((Json.floatRank x).isSome && Json.floatRank x == Json.floatRank y)

namespace Json

/-- Whether a value can be hashed, and so be an element of a set. -/
def hashable : Json F → Bool
  | .list _ | .dict _ => false
  | _ => true

def numberRank [FloatText F] : Json F → Option (Int × ℚ)
  | .int n => some (0, n)
  | .bool b => some (0, if b then 1 else 0)
  | .float x => floatRank x
  | _ => none

/-- `v < y`. -/
def lessThan [FloatText F] (v : Json F) (y : PyFloat F) : Except PyError Bool :=
  match v with
  | .int _ | .bool _ | .float _ => .ok (rankLt (numberRank v) (floatRank y))
  | _ => .error .typeError

/-- `v == w` of values that can be hashed. -/
def scalarEq [FloatText F] : Json F → Json F → Bool
  | .str a, .str b => a == b
  | .null, .null => true
  | v, w => (numberRank v).isSome && numberRank v == numberRank w

end Json

def isAscii (cs : List Char) : Bool := cs.all fun c => c.toNat < 128

/-- `text.encode("ascii")`, whose `UnicodeEncodeError` is a `ValueError`. -/
def encodeAscii (cs : List Char) : Except PyError (List UInt8) :=
  if isAscii cs then .ok (utf8 cs) else .error .valueError

/-- `hmac.compare_digest` of two strings. -/
def compareDigest (a b : List Char) : Except PyError Bool :=
  if isAscii a ∧ isAscii b then .ok (a == b) else .error .typeError

/-- `base64.urlsafe_b64decode(data + "=" * (-len(data) % 4))`. -/
def b64decode (data : List Char) : Except PyError (List UInt8) :=
  if isAscii data then
    match Base64.decode (data ++ Base64.padding data.length) with
    | some bytes => .ok bytes
    | none => .error .valueError
  else .error .valueError

/-- `json.loads` of bytes. -/
def loadBytes [Runtime F] (bytes : List UInt8) : Except PyError (Json F) :=
  match (Runtime.decodeBytes F bytes).bind Json.loads with
  | some v => .ok v
  | none => .error .valueError

theorem PyFloat.not_le_of_lt [Json.FloatText F] {x y : PyFloat F} (h : y.lt x = true) :
    x.le y = false := by
  rw [PyFloat.lt] at h
  rw [PyFloat.le, PyFloat.lt]
  cases hx : Json.floatRank x with
  | none =>
    rw [hx] at h
    cases hy : Json.floatRank y with
    | none =>
      rw [hy] at h
      exact (Bool.false_ne_true h).elim
    | some s =>
      rw [hy] at h
      exact (Bool.false_ne_true h).elim
  | some r =>
    cases hy : Json.floatRank y with
    | none =>
      rw [hx, hy] at h
      exact (Bool.false_ne_true h).elim
    | some s =>
      rw [hx, hy, Json.rankLt, Bool.or_eq_true, Bool.and_eq_true, decide_eq_true_eq, beq_iff_eq,
        decide_eq_true_eq] at h
      rw [Bool.or_eq_false_iff, Json.rankLt, Bool.or_eq_false_iff, Bool.and_eq_false_iff,
        decide_eq_false_iff_not, beq_eq_false_iff_ne, decide_eq_false_iff_not]
      rcases h with h | ⟨h₁, h₂⟩
      · refine ⟨⟨by omega, .inl (by omega)⟩, ?_⟩
        rw [Bool.and_eq_false_iff, beq_eq_false_iff_ne]
        refine .inr fun he => ?_
        cases he
        exact lt_irrefl _ h
      · refine ⟨⟨by omega, .inr (not_lt_of_gt h₂)⟩, ?_⟩
        rw [Bool.and_eq_false_iff, beq_eq_false_iff_ne]
        refine .inr fun he => ?_
        cases he
        exact lt_irrefl _ h₂

theorem PyFloat.lt_iff [Json.FloatText F] {x y : PyFloat F} : x.lt y = true ↔
    ∃ r s, Json.floatRank x = some r ∧ Json.floatRank y = some s ∧
      (r.1 < s.1 ∨ r.1 = s.1 ∧ r.2 < s.2) := by
  rw [PyFloat.lt]
  cases Json.floatRank x with
  | none => exact ⟨fun h => (nomatch h), fun ⟨_, _, h, _⟩ => (nomatch h)⟩
  | some r =>
    cases Json.floatRank y with
    | none => exact ⟨fun h => (nomatch h), fun ⟨_, _, _, h, _⟩ => (nomatch h)⟩
    | some s =>
      rw [Json.rankLt, Bool.or_eq_true, Bool.and_eq_true, decide_eq_true_eq, beq_iff_eq,
        decide_eq_true_eq]
      constructor
      · exact fun h => ⟨r, s, rfl, rfl, h⟩
      · rintro ⟨_, _, hr, hs, h⟩
        cases hr
        cases hs
        exact h

theorem PyFloat.lt_irrefl [Json.FloatText F] (x : PyFloat F) : x.lt x = false := by
  refine Bool.eq_false_iff.2 fun h => ?_
  obtain ⟨r, s, hr, hs, h⟩ := PyFloat.lt_iff.1 h
  cases hr.symm.trans hs
  obtain h | ⟨-, h⟩ := h
  · exact absurd h (Int.lt_irrefl _)
  · exact (lt_self_iff_false _).1 h

theorem PyFloat.lt_trans [Json.FloatText F] {x y z : PyFloat F} (h : x.lt y = true)
    (h' : y.lt z = true) : x.lt z = true := by
  obtain ⟨r, s, hr, hs, h⟩ := PyFloat.lt_iff.1 h
  obtain ⟨s', t, hs', ht, h'⟩ := PyFloat.lt_iff.1 h'
  cases hs.symm.trans hs'
  refine PyFloat.lt_iff.2 ⟨r, t, hr, ht, ?_⟩
  obtain h | ⟨he, h⟩ := h
  · obtain h' | ⟨he', -⟩ := h'
    · exact .inl (h.trans h')
    · exact .inl (he' ▸ h)
  · obtain h' | ⟨he', h'⟩ := h'
    · exact .inl (he ▸ h')
    · exact .inr ⟨he.trans he', h.trans h'⟩

theorem Printable.isAscii {cs : List Char} (h : Printable cs) : isAscii cs = true := by
  rw [Obase.isAscii, List.all_eq_true]
  intro c hc
  have hlt := (h c hc).2
  simp only [decide_eq_true_eq]
  omega

theorem unpadded_printable (bytes : List UInt8) : Printable (Base64.unpadded bytes) :=
  fun c hc => (Base64.unpadded_isDigit bytes c hc).1

theorem encodeAscii_printable {cs : List Char} (h : Printable cs) :
    encodeAscii cs = .ok (utf8 cs) :=
  if_pos h.isAscii

theorem compareDigest_printable {a b : List Char} (ha : isAscii a = true) (hb : Printable b) :
    compareDigest a b = .ok (a == b) :=
  if_pos ⟨ha, hb.isAscii⟩

theorem b64decode_unpadded (bytes : List UInt8) :
    b64decode (Base64.unpadded bytes) = .ok bytes := by
  rw [b64decode, if_pos (unpadded_printable bytes).isAscii, Base64.decode_unpadded]

theorem loadBytes_dumpsAscii [Runtime F] (sp : Json.Spacing) (v : Json F) :
    loadBytes (utf8 (Json.dumpsAscii sp v)) = .ok v.build := by
  rw [loadBytes, Runtime.decodeBytes_utf8 _ (Json.dumpsAscii_printable sp v), Option.bind_some,
    Json.loads_dumpsAscii]

/-- The floats without a fraction, over an interpreter that decodes ASCII and yields the elements of a
set in the order in which it was given them. -/
instance : Runtime WholeFloat where
  zero := ⟨0⟩
  val_zero := rfl
  add x y :=
    match x, y with
    | .finite a, .finite b => .finite ⟨a.n + b.n⟩
    | .finite _, z => z
    | .inf, .negInf | .negInf, .inf => .nan
    | .inf, .nan | .negInf, .nan => .nan
    | z, _ => z
  sub x y :=
    match x, y with
    | .finite a, .finite b => .finite ⟨a.n - b.n⟩
    | .finite _, .inf => .negInf
    | .finite _, .negInf => .inf
    | .inf, .inf | .negInf, .negInf => .nan
    | _, .nan => .nan
    | z, _ => z
  decodeBytes bs :=
    if bs.all (· < 128) then some (bs.map fun b => Char.ofNat b.toNat) else none
  decodeBytes_utf8 cs h := by
    have hlt : ∀ c ∈ cs, c.toNat < 128 := fun c hc => Nat.lt_trans (h c hc).2 (by decide)
    have hbyte : ∀ c ∈ cs, (UInt8.ofNat c.toNat).toNat = c.toNat := fun c hc =>
      Nat.mod_eq_of_lt (Nat.lt_trans (hlt c hc) (by decide))
    have hall : (utf8 cs).all (· < 128) = true := by
      rw [utf8_ascii hlt, List.all_eq_true]
      intro b hb
      obtain ⟨c, hc, rfl⟩ := List.mem_map.1 hb
      rw [decide_eq_true_eq, UInt8.lt_iff_toNat_lt, hbyte c hc]
      exact hlt c hc
    have hmap : cs.map ((fun b : UInt8 => Char.ofNat b.toNat) ∘ fun c => UInt8.ofNat c.toNat) =
        cs.map id := by
      apply List.map_congr_left
      intro c hc
      rw [Function.comp_apply, hbyte c hc, Char.ofNat_toNat]
      rfl
    rw [if_pos hall, utf8_ascii hlt, List.map_map, hmap, List.map_id]
  setOrder xs := xs
  mem_setOrder _ _ := Iff.rfl

end Obase
