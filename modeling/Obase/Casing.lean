import Obase.Text

namespace Obase
set_option autoImplicit true

/-- The case mappings and the decimal digits of a version of the Unicode database. A character is
lower-cased between those before and after it. -/
structure Casing where
  upper : Char → List Char
  lowerAt : List Char → Char → List Char → List Char
  isDecimal : Char → Bool
  upper_ascii : ∀ c : Char, c.toNat < 128 → upper c = [c.toUpper]
  upper_ne_nil : ∀ c : Char, upper c ≠ []
  upper_newline : ∀ c : Char, '\n' ∈ upper c → c = '\n'
  lowerAt_ascii : ∀ (before : List Char) (c : Char) (after : List Char), c.toNat < 128 →
    lowerAt before c after = [c.toLower]
  lowerAt_ne_nil : ∀ (before : List Char) (c : Char) (after : List Char),
    lowerAt before c after ≠ []
  lowerAt_mem : ∀ (before : List Char) (c : Char) (after : List Char),
    ∀ x ∈ lowerAt before c after, x.toNat < 128 → x = c ∨ x.isLower = true
  lowerAt_lowered : ∀ (before : List Char) (c : Char) (after : List Char),
    ∀ x ∈ lowerAt before c after, ∀ before' after' : List Char, lowerAt before' x after' = [x]
  isDecimal_ascii : ∀ c : Char, c.toNat < 128 → isDecimal c = c.isDigit

namespace Casing

def upperText (U : Casing) (cs : List Char) : List Char := cs.flatMap U.upper

def lowerFrom (U : Casing) (before : List Char) : List Char → List Char
  | [] => []
  | c :: cs => U.lowerAt before c cs ++ U.lowerFrom (before ++ [c]) cs

/-- `str.lower`. -/
def lower (U : Casing) (cs : List Char) : List Char := U.lowerFrom [] cs

theorem eq_newline_of_toUpper {c : Char} (h : '\n' = c.toUpper) : c = '\n' := by
  unfold Char.toUpper at h
  split at h
  · rename_i hc
    have hv := congrArg Char.val h
    dsimp only at hv
    have hn : c.val = 42 := by
      rw [show c.val = c.val + ('A'.val - 'a'.val) - ('A'.val - 'a'.val) by simp, ← hv]
      decide
    rw [hn] at hc
    exact absurd hc.1 (by decide)
  · exact h.symm

theorem toLower_of_not_ascii {c : Char} (h : ¬ c.toNat < 128) : c.toLower = c := by
  unfold Char.toLower
  split
  · rename_i hc
    have hz : c.toNat ≤ 90 := UInt32.le_iff_toNat_le.1 hc.2
    omega
  · rfl

theorem toLower_eq_or_isLower (c : Char) : c.toLower = c ∨ c.toLower.isLower = true := by
  by_cases hc : c.toNat < 128
  · exact Text.forall_ascii (P := fun c => c.toLower = c ∨ c.toLower.isLower = true)
      (by decide +kernel) hc
  · exact .inl (toLower_of_not_ascii hc)

theorem toLower_toLower (c : Char) : c.toLower.toLower = c.toLower := by
  by_cases hc : c.toNat < 128
  · exact Text.forall_ascii (P := fun c => c.toLower.toLower = c.toLower) (by decide +kernel) hc
  · rw [toLower_of_not_ascii hc, toLower_of_not_ascii hc]

/-- The mappings of the ASCII characters alone. -/
def ascii : Casing where
  upper c := [c.toUpper]
  lowerAt _ c _ := [c.toLower]
  isDecimal := Char.isDigit
  upper_ascii _ _ := rfl
  upper_ne_nil c := List.cons_ne_nil c.toUpper []
  upper_newline _ h := eq_newline_of_toUpper (List.mem_singleton.1 h)
  lowerAt_ascii _ _ _ _ := rfl
  lowerAt_ne_nil _ c _ := List.cons_ne_nil c.toLower []
  lowerAt_mem _ c _ x h _ := by
    rw [List.mem_singleton.1 h]
    exact toLower_eq_or_isLower c
  lowerAt_lowered _ c _ x h _ _ := by
    rw [List.mem_singleton.1 h]
    exact congrArg (fun x => [x]) (toLower_toLower c)
  isDecimal_ascii _ _ := rfl

@[simp] theorem upperText_singleton (U : Casing) (c : Char) : U.upperText [c] = U.upper c :=
  List.flatMap_singleton ..

theorem upperText_append (U : Casing) (cs ds : List Char) :
    U.upperText (cs ++ ds) = U.upperText cs ++ U.upperText ds :=
  List.flatMap_append

/-- A line feed at the end of an upper-cased text was at the end of the text. -/
theorem getLast_of_upperText (U : Casing) {cs : List Char}
    (h : (U.upperText cs).getLast? = some '\n') : cs.getLast? = some '\n' := by
  induction cs using List.reverseRecOn with
  | nil => cases h
  | append_singleton cs c _ =>
    rw [upperText_append, upperText_singleton,
      List.getLast?_append_of_ne_nil _ (U.upper_ne_nil c)] at h
    rw [List.getLast?_concat, U.upper_newline c (List.mem_of_getLast? h)]

theorem upperText_eq_self (U : Casing) {cs : List Char}
    (h : ∀ c ∈ cs, c.toNat < 128 ∧ c.toUpper = c) : U.upperText cs = cs := by
  induction cs with
  | nil => rfl
  | cons c cs ih =>
    rw [List.forall_mem_cons] at h
    have hc := ih h.2
    rw [upperText] at hc
    rw [upperText, List.flatMap_cons, hc, U.upper_ascii c h.1.1, h.1.2]
    rfl

/-- The characters of lower-cased texts. -/
def Lowered (U : Casing) (x : Char) : Prop :=
  ∃ before c after, x ∈ U.lowerAt before c after

theorem lowerFrom_of_lowered (U : Casing) {cs : List Char} (h : ∀ c ∈ cs, U.Lowered c)
    (before : List Char) : U.lowerFrom before cs = cs := by
  induction cs generalizing before with
  | nil => rfl
  | cons c cs ih =>
    rw [List.forall_mem_cons] at h
    obtain ⟨b, d, a, hm⟩ := h.1
    rw [lowerFrom, U.lowerAt_lowered b d a c hm, ih h.2]
    rfl

theorem mem_lowerFrom (U : Casing) {x : Char} {cs before : List Char}
    (h : x ∈ U.lowerFrom before cs) : ∃ b a, ∃ c ∈ cs, x ∈ U.lowerAt b c a := by
  induction cs generalizing before with
  | nil => cases h
  | cons c cs ih =>
    rw [lowerFrom, List.mem_append] at h
    rcases h with h | h
    · exact ⟨before, cs, c, .head _, h⟩
    · obtain ⟨b, a, d, hd, hx⟩ := ih h
      exact ⟨b, a, d, .tail _ hd, hx⟩

theorem lowered_of_mem (U : Casing) {x : Char} {cs : List Char} (h : x ∈ U.lower cs) :
    U.Lowered x := by
  obtain ⟨b, a, c, -, hx⟩ := U.mem_lowerFrom h
  exact ⟨b, c, a, hx⟩

theorem lower_of_lowered (U : Casing) {cs : List Char} (h : ∀ c ∈ cs, U.Lowered c) :
    U.lower cs = cs :=
  U.lowerFrom_of_lowered h []

/-- Lower-casing brings in no ASCII characters but letters. -/
theorem mem_lower_ascii (U : Casing) {x : Char} {cs : List Char} (h : x ∈ U.lower cs)
    (hx : x.toNat < 128) (hl : x.isLower = false) : x ∈ cs := by
  obtain ⟨b, a, c, hc, hm⟩ := U.mem_lowerFrom h
  rcases U.lowerAt_mem b c a x hm hx with rfl | hi
  · exact hc
  · rw [hl] at hi
    cases hi

theorem mem_lowerFrom_of_ascii (U : Casing) {x : Char} {cs : List Char} (h : x ∈ cs)
    (hx : x.toNat < 128) (before : List Char) : x.toLower ∈ U.lowerFrom before cs := by
  induction cs generalizing before with
  | nil => cases h
  | cons c cs ih =>
    rw [lowerFrom, List.mem_append]
    rcases List.mem_cons.1 h with rfl | h
    · rw [U.lowerAt_ascii _ _ _ hx]
      exact .inl (.head _)
    · exact .inr (ih h _)

theorem mem_lower_of_ascii (U : Casing) {x : Char} {cs : List Char} (h : x ∈ cs)
    (hx : x.toNat < 128) : x.toLower ∈ U.lower cs :=
  U.mem_lowerFrom_of_ascii h hx []

theorem lower_ne_nil (U : Casing) {cs : List Char} (h : cs ≠ []) : U.lower cs ≠ [] := by
  cases cs with
  | nil => exact (h rfl).elim
  | cons c cs =>
    rw [lower, lowerFrom]
    simp [U.lowerAt_ne_nil]

theorem lowerFrom_append_ascii (U : Casing) {as : List Char} (h : ∀ c ∈ as, c.toNat < 128)
    (before cs : List Char) : U.lowerFrom before (as ++ cs) =
      as.map Char.toLower ++ U.lowerFrom (before ++ as) cs := by
  induction as generalizing before with
  | nil => simp
  | cons a as ih =>
    rw [List.forall_mem_cons] at h
    rw [List.cons_append, lowerFrom, U.lowerAt_ascii _ _ _ h.1, ih h.2]
    simp

theorem lower_ascii (U : Casing) {cs : List Char} (h : ∀ c ∈ cs, c.toNat < 128) :
    U.lower cs = cs.map Char.toLower := by
  have ha := U.lowerFrom_append_ascii h [] []
  rw [List.append_nil] at ha
  rw [lower, ha]
  simp [lowerFrom]

end Casing
end Obase
