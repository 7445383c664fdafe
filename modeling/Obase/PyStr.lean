import Obase.Builtins

namespace Obase
set_option autoImplicit true

/-- A code point of a Python string, which need not be a character. -/
inductive CodePoint where
  | char (c : Char)
  | surrogate (n : Fin 0x800)
deriving DecidableEq

/-- A Python `str`. -/
abbrev PyStr := List CodePoint

/-- An ASCII byte of an encoded text is one of its characters. -/
theorem exists_mem_of_mem_utf8 {b : UInt8} (hb : b.toNat < 128) {cs : List Char}
    (h : b ∈ utf8 cs) : ∃ c ∈ cs, c.toNat = b.toNat := by
  induction cs with
  | nil => cases h
  | cons c cs ih =>
    rw [utf8_cons] at h
    obtain h | h := List.mem_append.1 h
    · refine ⟨c, .head _, ?_⟩
      change c.val.toNat = b.toNat
      have hi (n : Nat) (he : b = UInt8.ofNat n) : b.toNat = n % 256 := he ▸ UInt8.toNat_ofNat'
      rw [String.utf8EncodeChar] at h
      split at h
      · have := hi _ (List.mem_singleton.1 h)
        omega
      · have hx : ∀ n, 128 ≤ n % 256 → b ≠ UInt8.ofNat n := by
          intro n hn he
          have := hi n he
          omega
        split at h
        · simp only [List.mem_cons, List.not_mem_nil, or_false] at h
          rcases h with h | h <;> exact (hx _ (by omega) h).elim
        · split at h
          · simp only [List.mem_cons, List.not_mem_nil, or_false] at h
            rcases h with h | h | h <;> exact (hx _ (by omega) h).elim
          · simp only [List.mem_cons, List.not_mem_nil, or_false] at h
            rcases h with h | h | h | h <;> exact (hx _ (by omega) h).elim
    · obtain ⟨d, hd, he⟩ := ih h
      exact ⟨d, .tail _ hd, he⟩

namespace PyStr

def ofChars (cs : List Char) : PyStr := cs.map .char

/-- The characters of a string, `none` where one of its code points is none. -/
def chars : PyStr → Option (List Char)
  | [] => some []
  | .char c :: s => (chars s).map (c :: ·)
  | .surrogate _ :: _ => none

def isSpace : CodePoint → Bool
  | .char c => Text.isSpace c
  | .surrogate _ => false

/-- `strip()`. -/
def strip (s : PyStr) : PyStr := (s.dropWhile isSpace).rdropWhile isSpace

/-- `encode("utf-8")`, `none` for a `UnicodeEncodeError`. -/
def encode (s : PyStr) : Option (List UInt8) := (chars s).map utf8

/-- No code point of the string is a surrogate. -/
def Encodable (s : PyStr) : Prop := ∀ n, CodePoint.surrogate n ∉ s

theorem chars_ofChars (cs : List Char) : chars (ofChars cs) = some cs := by
  induction cs with
  | nil => rfl
  | cons c cs ih =>
    rw [ofChars, List.map_cons, ← ofChars, chars, ih]
    rfl

theorem encodable_iff {s : PyStr} : Encodable s ↔ ∃ cs, chars s = some cs := by
  induction s with
  | nil => exact ⟨fun _ => ⟨[], rfl⟩, fun _ _ hm => (nomatch hm)⟩
  | cons c s ih =>
    cases c with
    | char c =>
      have hs : Encodable (.char c :: s) ↔ Encodable s := by
        refine forall_congr' fun n => not_congr ?_
        rw [List.mem_cons]
        exact or_iff_right fun h => (nomatch h)
      rw [hs, ih, chars]
      simp only [Option.map_eq_some_iff]
      constructor
      · exact fun ⟨cs, h⟩ => ⟨c :: cs, cs, h, rfl⟩
      · exact fun ⟨_, cs, h, _⟩ => ⟨cs, h⟩
    | surrogate n =>
      constructor
      · exact fun h => (h n (.head _)).elim
      · exact fun ⟨_, h⟩ => (nomatch h)

theorem encodable_ofChars (cs : List Char) : Encodable (ofChars cs) :=
  encodable_iff.2 ⟨cs, chars_ofChars cs⟩

theorem mem_strip_of_not_space {s : PyStr} {c : CodePoint} (hc : isSpace c = false) :
    c ∈ strip s ↔ c ∈ s := by
  have hd (t : PyStr) : c ∈ t.dropWhile isSpace ↔ c ∈ t := by
    constructor
    · exact fun h => (List.dropWhile_suffix _).subset h
    · intro h
      rw [← List.takeWhile_append_dropWhile (p := isSpace) (l := t)] at h
      obtain h | h := List.mem_append.1 h
      · rw [List.mem_takeWhile_imp h] at hc
        cases hc
      · exact h
  rw [strip, List.rdropWhile, List.mem_reverse, hd, List.mem_reverse, hd]

theorem encodable_strip {s : PyStr} : Encodable (strip s) ↔ Encodable s :=
  forall_congr' fun _ => not_congr (mem_strip_of_not_space rfl)

end PyStr
end Obase
