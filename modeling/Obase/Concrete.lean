import Obase.Builtins
import Obase.Json.Loads

namespace Obase
set_option autoImplicit true
open Json

/-- The floats without a fraction, written out in full: enough to run the model on. -/
structure WholeFloat where
  n : Int
deriving DecidableEq

namespace WholeFloat

def text (x : WholeFloat) : List Char := intText x.n ++ ['.', '0']

def ofText (cs : List Char) : WholeFloat := ⟨intOfLiteral (cs.takeWhile fun c => c != '.')⟩

theorem not_dot_of_mem_intText {n : Int} {c : Char} (h : c ∈ intText n) : (c != '.') = true := by
  rcases dropMinus_mem h with h | rfl
  · have hd := natLiteral_digits (intText_literal n) c h
    rw [bne_iff_ne]
    rintro rfl
    cases hd
  · rfl

theorem ofText_text (x : WholeFloat) : ofText x.text = x := by
  have ht : x.text.takeWhile (fun c => c != '.') = intText x.n := by
    rw [text, List.takeWhile_append_of_pos fun c hc => not_dot_of_mem_intText hc]
    simp
  rw [ofText, ht, intOfLiteral_intText]

theorem dropMinus_text (x : WholeFloat) : dropMinus x.text = dropMinus (intText x.n) ++ ['.', '0'] := by
  have hne : intText x.n ≠ [] := by
    intro h
    have hl := intText_literal x.n
    rw [h] at hl
    cases hl
  obtain ⟨c, cs, he⟩ := List.exists_cons_of_ne_nil hne
  rw [text, he, List.cons_append]
  unfold dropMinus
  split
  · rename_i h
    injection h with h₁ h₂
    subst h₁
    subst h₂
    rfl
  · rename_i h
    split
    · rename_i h'
      injection h' with h₁ h₂
      subst h₁
      exact (h _ rfl).elim
    · rfl

theorem text_literal (x : WholeFloat) : isFloatLiteral x.text = true := by
  have hd := natLiteral_digits (intText_literal x.n)
  have ht : (dropMinus (intText x.n) ++ ['.', '0']).takeWhile Char.isDigit =
      dropMinus (intText x.n) := by
    rw [List.takeWhile_append_of_pos hd]
    simp
  have hw : (dropMinus (intText x.n) ++ ['.', '0']).dropWhile Char.isDigit = ['.', '0'] := by
    rw [List.dropWhile_append_of_pos hd]
    rfl
  have hi := intText_literal x.n
  rw [isIntLiteral] at hi
  rw [isFloatLiteral, dropMinus_text, ht, hw, hi]
  rfl

instance : FloatText WholeFloat where
  val x := x.n
  repr := text
  ofLiteral cs := .finite (ofText cs)
  repr_literal := text_literal
  ofLiteral_repr x := by rw [ofText_text]

instance : Builtins WholeFloat where
  intOfStr s := if isIntLiteral s.toList then some (intOfLiteral s.toList) else none
  floatOfStr s := if isFloatLiteral s.toList then some (.finite (ofText s.toList)) else none
  floatOfInt n := some ⟨n⟩
  addOne x := .finite ⟨x.n + 1⟩
  strOf _ := []
  excText _ := ""
  decodeErrorText _ := ""

end WholeFloat

/-- `bytes.fromhex`. -/
def bytesOfHex : List Char → List UInt8
  | c :: d :: cs => UInt8.ofNat (hexDigit c * 16 + hexDigit d) :: bytesOfHex cs
  | _ => []
where
  hexDigit (c : Char) : Nat := (hexValue c).getD 0

/-- A digest that is given, in hex, on some texts and that no two byte strings share. -/
def knownDigest (known : List (String × String)) (bs : List UInt8) : List UInt8 :=
  match known.find? fun k => k.1.toUTF8.data.toList == bs with
  | some k => bytesOfHex k.2.toList
  | none => bs ++ List.replicate 33 0

theorem knownDigest_injective {known : List (String × String)}
    (hl : ∀ k ∈ known, (bytesOfHex k.2.toList).length = 32)
    (hn : (known.map fun k => bytesOfHex k.2.toList).Nodup) :
    Function.Injective (knownDigest known) := by
  have hlen (bs : List UInt8) : (bs ++ List.replicate 33 0).length ≠ 32 := by
    rw [List.length_append, List.length_replicate]
    omega
  intro bs cs h
  simp only [knownDigest] at h
  split at h
  · rename_i k hk
    have hm := List.mem_of_find?_eq_some hk
    split at h
    · rename_i l hl'
      have he := List.inj_on_of_nodup_map hn hm (List.mem_of_find?_eq_some hl') h
      have h₁ := List.find?_some hk
      have h₂ := List.find?_some hl'
      subst he
      rw [← eq_of_beq h₁, ← eq_of_beq h₂]
    · exact (hlen cs (by rw [← h]; exact hl k hm)).elim
  · split at h
    · rename_i l hl'
      exact (hlen bs (by rw [h]; exact hl l (List.mem_of_find?_eq_some hl'))).elim
    · exact List.append_cancel_right h

end Obase
