import Mathlib.Algebra.Order.Ring.Rat
import Mathlib.Data.List.TakeWhile
import Obase.Text
import Obase.Json.Value

namespace Obase.Json
set_option autoImplicit true

def isNumberChar (c : Char) : Bool :=
  c.isDigit || c == '-' || c == '+' || c == '.' || c == 'e' || c == 'E'

/-- `0` or digits without a leading zero. -/
def isNatLiteral : List Char → Bool
  | [] => false
  | c :: cs => (c :: cs).all Char.isDigit && (c != '0' || cs.isEmpty)

def dropMinus : List Char → List Char
  | '-' :: cs => cs
  | cs => cs

def dropSign : List Char → List Char
  | '-' :: cs => cs
  | '+' :: cs => cs
  | cs => cs

def isExponent : List Char → Bool
  | [] => true
  | c :: cs =>
    (c == 'e' || c == 'E') && !(dropSign cs).isEmpty && (dropSign cs).all Char.isDigit

/-- What stands after the integer digits of a float literal: a fraction, an exponent or both. -/
def isFraction : List Char → Bool
  | [] => false
  | '.' :: cs => !(cs.takeWhile Char.isDigit).isEmpty && isExponent (cs.dropWhile Char.isDigit)
  | cs => isExponent cs

def isIntLiteral (cs : List Char) : Bool :=
  isNatLiteral (dropMinus cs)

def isFloatLiteral (cs : List Char) : Bool :=
  isNatLiteral ((dropMinus cs).takeWhile Char.isDigit) &&
    isFraction ((dropMinus cs).dropWhile Char.isDigit)

def intText (n : Int) : List Char := n.repr.toList

def intOfLiteral : List Char → Int
  | '-' :: ds => -(Nat.ofDigitChars 10 ds 0)
  | ds => Nat.ofDigitChars 10 ds 0

/-- The finite floats of an interpreter: the exact value of each, the text `repr` gives it and
the float that a literal denotes. `repr` is a float literal that reads back as the same float. -/
class FloatText (F : Type) where
  val : F → ℚ
  repr : F → List Char
  ofLiteral : List Char → PyFloat F
  repr_literal : ∀ x, isFloatLiteral (repr x) = true
  ofLiteral_repr : ∀ x, ofLiteral (repr x) = .finite x

theorem dropSign_mem {c : Char} {cs : List Char} (h : c ∈ cs) :
    c ∈ dropSign cs ∨ c = '-' ∨ c = '+' := by
  unfold dropSign
  split
  · rcases List.mem_cons.1 h with rfl | h
    · exact .inr (.inl rfl)
    · exact .inl h
  · rcases List.mem_cons.1 h with rfl | h
    · exact .inr (.inr rfl)
    · exact .inl h
  · exact .inl h

theorem dropMinus_mem {c : Char} {cs : List Char} (h : c ∈ cs) :
    c ∈ dropMinus cs ∨ c = '-' := by
  unfold dropMinus
  split
  · rcases List.mem_cons.1 h with rfl | h
    · exact .inr rfl
    · exact .inl h
  · exact .inl h

theorem isNumberChar_of_isDigit {c : Char} (h : c.isDigit = true) : isNumberChar c = true := by
  simp [isNumberChar, h]

theorem exponent_numberChars {cs : List Char} (h : isExponent cs = true) :
    ∀ c ∈ cs, isNumberChar c = true := by
  intro c hc
  cases cs with
  | nil => cases hc
  | cons e es =>
    simp only [isExponent, Bool.and_eq_true, Bool.or_eq_true, beq_iff_eq] at h
    rcases List.mem_cons.1 hc with rfl | hc
    · rcases h.1.1 with rfl | rfl <;> rfl
    · rcases dropSign_mem hc with hc | rfl | rfl
      · exact isNumberChar_of_isDigit (List.all_eq_true.1 h.2 c hc)
      · rfl
      · rfl

theorem fraction_numberChars {cs : List Char} (h : isFraction cs = true) :
    ∀ c ∈ cs, isNumberChar c = true := by
  unfold isFraction at h
  split at h
  · cases h
  · rename_i cs
    intro c hc
    rcases List.mem_cons.1 hc with rfl | hc
    · rfl
    rw [← List.takeWhile_append_dropWhile (p := Char.isDigit) (l := cs)] at hc
    rcases List.mem_append.1 hc with hc | hc
    · exact isNumberChar_of_isDigit (List.mem_takeWhile_imp hc)
    · exact exponent_numberChars (by simpa using (Bool.and_eq_true _ _ ▸ h).2) c hc
  · exact exponent_numberChars h

theorem natLiteral_digits {cs : List Char} (h : isNatLiteral cs = true) :
    ∀ c ∈ cs, c.isDigit = true := by
  cases cs with
  | nil => cases h
  | cons c cs =>
    simp only [isNatLiteral, Bool.and_eq_true] at h
    exact List.all_eq_true.1 h.1

theorem intLiteral_numberChars {cs : List Char} (h : isIntLiteral cs = true) :
    ∀ c ∈ cs, isNumberChar c = true := by
  intro c hc
  rcases dropMinus_mem hc with hc | rfl
  · exact isNumberChar_of_isDigit (natLiteral_digits h c hc)
  · rfl

theorem floatLiteral_numberChars {cs : List Char} (h : isFloatLiteral cs = true) :
    ∀ c ∈ cs, isNumberChar c = true := by
  simp only [isFloatLiteral, Bool.and_eq_true] at h
  intro c hc
  rcases dropMinus_mem hc with hc | rfl
  · rw [← List.takeWhile_append_dropWhile (p := Char.isDigit) (l := dropMinus cs)] at hc
    rcases List.mem_append.1 hc with hc | hc
    · exact isNumberChar_of_isDigit (List.mem_takeWhile_imp hc)
    · exact fraction_numberChars h.2 c hc
  · rfl

/-- A float literal has a fraction or an exponent, so it is never read as an integer. -/
theorem floatLiteral_not_int {cs : List Char} (h : isFloatLiteral cs = true) :
    isIntLiteral cs = false := by
  rw [Bool.eq_false_iff]
  intro hi
  have hd : (dropMinus cs).dropWhile Char.isDigit = [] :=
    List.dropWhile_eq_nil_iff.2 (natLiteral_digits hi)
  simp only [isFloatLiteral, hd, isFraction, Bool.and_false, Bool.false_eq_true] at h

theorem isNatLiteral_append {ds es : List Char} (hd : isNatLiteral ds = true) (hz : ds ≠ ['0'])
    (he : es.all Char.isDigit = true) : isNatLiteral (ds ++ es) = true := by
  cases ds with
  | nil => cases hd
  | cons c cs =>
    simp only [isNatLiteral, Bool.and_eq_true, Bool.or_eq_true, List.isEmpty_iff] at hd
    have hc : (c != '0') = true := by
      rcases hd.2 with hc | rfl
      · exact hc
      · simpa using hz
    rw [List.cons_append, isNatLiteral, hc, Bool.true_or, Bool.and_true, ← List.cons_append,
      List.all_append, hd.1, he]
    rfl

theorem digitChar_isDigit {n : Nat} (h : n < 10) : (Nat.digitChar n).isDigit = true := by
  simpa using Nat.isDigit_of_mem_toDigits (b := 10) (n := n) (c := n.digitChar) (by decide)
    (by decide) (by simp [Nat.toDigits_of_lt_base h])

theorem toDigits_natLiteral (n : Nat) : isNatLiteral (Nat.toDigits 10 n) = true := by
  induction n using Nat.strongRecOn with
  | ind n ih =>
    rcases Nat.lt_or_ge n 10 with hn | hn
    · simp [Nat.toDigits_of_lt_base hn, isNatLiteral, digitChar_isDigit hn]
    · rw [Nat.toDigits_of_base_le (by decide) hn]
      apply isNatLiteral_append (ih _ (by omega))
      · intro hz
        have he := Nat.ofDigitChars_ten_toDigits (n := n / 10)
        rw [hz] at he
        have h0 : Nat.ofDigitChars 10 ['0'] 0 = 0 := by decide
        omega
      · simp [digitChar_isDigit (Nat.mod_lt n (by decide : 0 < 10))]

/-- The decimal literal of a number has no other spelling. -/
theorem toDigits_of_literal {text : List Char} (h : isNatLiteral text = true) :
    Nat.toDigits 10 (Nat.ofDigitChars 10 text 0) = text := by
  cases text with
  | nil => cases h
  | cons c cs =>
    simp only [isNatLiteral, Bool.and_eq_true, Bool.or_eq_true, bne_iff_ne, List.all_cons,
      List.all_eq_true, List.isEmpty_iff] at h
    obtain ⟨⟨hc, hcs⟩, h₀⟩ := h
    obtain ⟨hd, hlt⟩ := digitChar_of_isDigit hc
    rw [Nat.ofDigitChars_cons, Nat.mul_zero, Nat.zero_add]
    by_cases hz : c = '0'
    · rw [hz, h₀.resolve_left fun hne => hne hz]
      rfl
    · have hpos : 0 < c.toNat - '0'.toNat := by
        rw [Nat.pos_iff_ne_zero]
        intro he
        rw [he] at hd
        exact hz hd.symm
      rw [toDigits_append_digits hpos hcs, Nat.toDigits_of_lt_base hlt, hd, List.singleton_append]

theorem natText_ne_minus {n : Nat} {cs : List Char} : Nat.toDigits 10 n ≠ '-' :: cs := by
  intro h
  have hd := natLiteral_digits (toDigits_natLiteral n) '-' (by simp [h])
  cases hd

theorem intText_ofNat (n : Nat) : intText n = Nat.toDigits 10 n := by
  simp [intText, Int.repr]

theorem intText_negSucc (n : Nat) : intText (Int.negSucc n) = '-' :: Nat.toDigits 10 (n + 1) := by
  simp [intText, Int.repr]

theorem dropMinus_digits (n : Nat) : dropMinus (Nat.toDigits 10 n) = Nat.toDigits 10 n := by
  unfold dropMinus
  split
  · rename_i h
    exact (natText_ne_minus h).elim
  · rfl

theorem intText_literal (n : Int) : isIntLiteral (intText n) = true := by
  cases n with
  | ofNat n =>
    rw [Int.ofNat_eq_natCast, intText_ofNat, isIntLiteral, dropMinus_digits]
    exact toDigits_natLiteral n
  | negSucc n =>
    rw [intText_negSucc]
    exact toDigits_natLiteral (n + 1)

/-- Decimal text of an integer reads back as the integer. -/
theorem intOfLiteral_intText (n : Int) : intOfLiteral (intText n) = n := by
  cases n with
  | ofNat n =>
    rw [Int.ofNat_eq_natCast, intText_ofNat]
    unfold intOfLiteral
    split
    · rename_i h
      exact (natText_ne_minus h).elim
    · rw [Nat.ofDigitChars_ten_toDigits]
  | negSucc n =>
    rw [intText_negSucc, intOfLiteral, Nat.ofDigitChars_ten_toDigits, Int.negSucc_eq]
    rfl

theorem intText_injective {m n : Int} (h : intText m = intText n) : m = n := by
  rw [← intOfLiteral_intText m, h, intOfLiteral_intText]

end Obase.Json
