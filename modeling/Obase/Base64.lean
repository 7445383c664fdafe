import Mathlib.Data.List.DropRight

namespace Obase.Base64
set_option autoImplicit true

/-- A digit of the URL-safe alphabet. -/
def digit (n : Nat) : Char :=
  if n < 26 then Char.ofNat (n + 65)
  else if n < 52 then Char.ofNat (n + 71)
  else if n < 62 then Char.ofNat (n - 4)
  else if n = 62 then '-'
  else '_'

/-- The value of a digit; those of the standard alphabet are read as well. -/
def value (c : Char) : Option Nat :=
  if 65 ≤ c.toNat ∧ c.toNat ≤ 90 then some (c.toNat - 65)
  else if 97 ≤ c.toNat ∧ c.toNat ≤ 122 then some (c.toNat - 71)
  else if 48 ≤ c.toNat ∧ c.toNat ≤ 57 then some (c.toNat + 4)
  else if c = '-' ∨ c = '+' then some 62
  else if c = '_' ∨ c = '/' then some 63
  else none

/-- `base64.urlsafe_b64encode`. -/
def encode : List UInt8 → List Char
  | [] => []
  | [a] => [digit (a.toNat / 4), digit (a.toNat % 4 * 16), '=', '=']
  | [a, b] =>
    [digit (a.toNat / 4), digit (a.toNat % 4 * 16 + b.toNat / 16), digit (b.toNat % 16 * 4), '=']
  | a :: b :: c :: bs =>
    digit (a.toNat / 4) :: digit (a.toNat % 4 * 16 + b.toNat / 16) ::
      digit (b.toNat % 16 * 4 + c.toNat / 64) :: digit (c.toNat % 64) :: encode bs

/-- How much of a group of four digits has been read, with the bits that are left over. -/
inductive Group where
  | zero
  | one (left : Nat)
  | two (left : Nat)
  | three (left : Nat)

/-- The bytes that one more digit completes, and the group after it. -/
def Group.read (d : Nat) : Group → List UInt8 × Group
  | .zero => ([], .one d)
  | .one l => ([UInt8.ofNat (l * 4 + d / 16)], .two (d % 16))
  | .two l => ([UInt8.ofNat (l * 16 + d / 4)], .three (d % 4))
  | .three l => ([UInt8.ofNat (l * 64 + d)], .zero)

/-- The padding character after the given number of others ends the text, which it does once it
fills its group. -/
def Group.padded (pads : Nat) : Group → Bool
  | .two _ => pads ≥ 1
  | .three _ => true
  | _ => false

/-- `binascii.a2b_base64`, not strict: a character that is no digit is skipped, and what follows a
padded group is not read; `none` for a group that is not complete. -/
def decodeFrom : Group → Nat → List Char → Option (List UInt8)
  | .zero, _, [] => some []
  | _, _, [] => none
  | g, pads, c :: cs =>
    if c = '=' then
      if g.padded pads then some [] else decodeFrom g (pads + 1) cs
    else
      match value c with
      | none => decodeFrom g pads cs
      | some d => (decodeFrom (g.read d).2 0 cs).map ((g.read d).1 ++ ·)

/-- `base64.urlsafe_b64decode` of an ASCII text. -/
def decode (cs : List Char) : Option (List UInt8) := decodeFrom .zero 0 cs

/-- The padding that a text of the length lacks. -/
def padding (n : Nat) : List Char := List.replicate ((4 - n % 4) % 4) '='

/-- The encoding without its padding. -/
def unpadded (bs : List UInt8) : List Char := (encode bs).rdropWhile (· == '=')

/-- The digits of the encoding. -/
def digits : List UInt8 → List Char
  | [] => []
  | [a] => [digit (a.toNat / 4), digit (a.toNat % 4 * 16)]
  | [a, b] =>
    [digit (a.toNat / 4), digit (a.toNat % 4 * 16 + b.toNat / 16), digit (b.toNat % 16 * 4)]
  | a :: b :: c :: bs =>
    digit (a.toNat / 4) :: digit (a.toNat % 4 * 16 + b.toNat / 16) ::
      digit (b.toNat % 16 * 4 + c.toNat / 64) :: digit (c.toNat % 64) :: digits bs

/-- A digit is a printable ASCII character other than the padding and the full stop. -/
def IsDigit (c : Char) : Prop := (0x20 ≤ c.toNat ∧ c.toNat < 0x7f) ∧ c ≠ '=' ∧ c ≠ '.'

theorem value_digit : ∀ n < 64, value (digit n) = some n := by decide

theorem digit_isDigit : ∀ n < 64, IsDigit (digit n) := by
  unfold IsDigit
  decide

theorem digits_isDigit (bs : List UInt8) : ∀ c ∈ digits bs, IsDigit c := by
  fun_induction digits bs with
  | case1 =>
    intro c hc
    cases hc
  | case2 a =>
    have ha := UInt8.toNat_lt a
    simp only [List.forall_mem_cons, List.not_mem_nil, false_imp_iff, implies_true, and_true]
    exact ⟨digit_isDigit _ (by omega), digit_isDigit _ (by omega)⟩
  | case3 a b =>
    have ha := UInt8.toNat_lt a
    have hb := UInt8.toNat_lt b
    simp only [List.forall_mem_cons, List.not_mem_nil, false_imp_iff, implies_true, and_true]
    exact ⟨digit_isDigit _ (by omega), digit_isDigit _ (by omega), digit_isDigit _ (by omega)⟩
  | case4 a b c bs ih =>
    have ha := UInt8.toNat_lt a
    have hb := UInt8.toNat_lt b
    have hc := UInt8.toNat_lt c
    simp only [List.forall_mem_cons]
    exact ⟨digit_isDigit _ (by omega), digit_isDigit _ (by omega), digit_isDigit _ (by omega),
      digit_isDigit _ (by omega), ih⟩

theorem padding_add_four (n : Nat) : padding (n + 1 + 1 + 1 + 1) = padding n := by
  rw [padding, padding, Nat.add_assoc, Nat.add_assoc, Nat.add_assoc, Nat.add_mod_right]

theorem encode_eq (bs : List UInt8) : encode bs = digits bs ++ padding (digits bs).length := by
  fun_induction digits bs with
  | case1 => rfl
  | case2 a => rfl
  | case3 a b => rfl
  | case4 a b c bs ih =>
    rw [encode, ih, List.length_cons, List.length_cons, List.length_cons, List.length_cons,
      padding_add_four]
    rfl

theorem unpadded_eq (bs : List UInt8) : unpadded bs = digits bs := by
  rw [unpadded, encode_eq, padding]
  induction (4 - (digits bs).length % 4) % 4 with
  | zero =>
    rw [List.replicate_zero, List.append_nil, List.rdropWhile_eq_self_iff]
    intro hl he
    have hd := digits_isDigit bs _ (List.getLast_mem hl)
    exact hd.2.1 (beq_iff_eq.1 he)
  | succ n ih =>
    rw [List.replicate_succ', ← List.append_assoc, List.rdropWhile_concat_pos _ _ _ rfl, ih]

theorem unpadded_isDigit (bs : List UInt8) : ∀ c ∈ unpadded bs, IsDigit c := by
  rw [unpadded_eq]
  exact digits_isDigit bs

theorem decodeFrom_digit (g : Group) (pads : Nat) {n : Nat} (hn : n < 64) (cs : List Char) :
    decodeFrom g pads (digit n :: cs) =
      (decodeFrom (g.read n).2 0 cs).map ((g.read n).1 ++ ·) := by
  rw [decodeFrom, if_neg (digit_isDigit n hn).2.1, value_digit n hn]

theorem byte_eq {n : Nat} {a : UInt8} (h : n = a.toNat) : UInt8.ofNat n = a := by
  rw [h, UInt8.ofNat_toNat]

theorem decode_digits (bs : List UInt8) :
    decode (digits bs ++ padding (digits bs).length) = some bs := by
  rw [decode]
  fun_induction digits bs with
  | case1 => rfl
  | case2 a =>
    have ha := UInt8.toNat_lt a
    rw [List.cons_append, decodeFrom_digit _ _ (by omega), List.cons_append,
      decodeFrom_digit _ _ (by omega)]
    have hb : UInt8.ofNat (a.toNat / 4 * 4 + a.toNat % 4 * 16 / 16) = a := byte_eq (by omega)
    simp only [Group.read, hb]
    rfl
  | case3 a b =>
    have ha := UInt8.toNat_lt a
    have hb := UInt8.toNat_lt b
    rw [List.cons_append, decodeFrom_digit _ _ (by omega), List.cons_append,
      decodeFrom_digit _ _ (by omega), List.cons_append, decodeFrom_digit _ _ (by omega)]
    have h₁ : UInt8.ofNat (a.toNat / 4 * 4 + (a.toNat % 4 * 16 + b.toNat / 16) / 16) = a :=
      byte_eq (by omega)
    have h₂ : UInt8.ofNat ((a.toNat % 4 * 16 + b.toNat / 16) % 16 * 16 +
        b.toNat % 16 * 4 / 4) = b := byte_eq (by omega)
    simp only [Group.read, h₁, h₂]
    rfl
  | case4 a b c bs ih =>
    have ha := UInt8.toNat_lt a
    have hb := UInt8.toNat_lt b
    have hc := UInt8.toNat_lt c
    rw [List.length_cons, List.length_cons, List.length_cons, List.length_cons, padding_add_four]
    rw [List.cons_append, decodeFrom_digit _ _ (by omega), List.cons_append,
      decodeFrom_digit _ _ (by omega), List.cons_append, decodeFrom_digit _ _ (by omega),
      List.cons_append, decodeFrom_digit _ _ (by omega)]
    have h₁ : UInt8.ofNat (a.toNat / 4 * 4 + (a.toNat % 4 * 16 + b.toNat / 16) / 16) = a :=
      byte_eq (by omega)
    have h₂ : UInt8.ofNat ((a.toNat % 4 * 16 + b.toNat / 16) % 16 * 16 +
        (b.toNat % 16 * 4 + c.toNat / 64) / 4) = b := byte_eq (by omega)
    have h₃ : UInt8.ofNat ((b.toNat % 16 * 4 + c.toNat / 64) % 4 * 64 + c.toNat % 64) = c :=
      byte_eq (by omega)
    simp only [Group.read, h₁, h₂, h₃, ih]
    rfl

/-- What was encoded without its padding is decoded with it. -/
theorem decode_unpadded (bs : List UInt8) :
    decode (unpadded bs ++ padding (unpadded bs).length) = some bs := by
  rw [unpadded_eq]
  exact decode_digits bs

end Obase.Base64
