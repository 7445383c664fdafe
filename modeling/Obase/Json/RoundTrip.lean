import Obase.Json.Loads

namespace Obase.Json
set_option autoImplicit true

theorem hexValue_digitChar : ∀ n, n < 16 → hexValue (Nat.digitChar n) = some n := by
  decide

theorem readString_escapeChar (c : Char) (cs : List Char) :
    readString (escapeChar c ++ cs) = push c (readString cs) := by
  unfold escapeChar
  split_ifs with h₁ h₂ h₃ h₄ h₅ h₆ h₇ h₈
  · subst h₁; rfl
  · subst h₂; rfl
  · subst h₃; rfl
  · subst h₄; rfl
  · subst h₅; rfl
  · subst h₆; rfl
  · subst h₇; rfl
  · have hhi := hexValue_digitChar (c.toNat / 16) (by omega)
    have hlo := hexValue_digitChar (c.toNat % 16) (by omega)
    have h0 : hexValue '0' = some 0 := by decide
    have hn : c.toNat / 16 * 16 + c.toNat % 16 = c.toNat := by omega
    have h4 : hex4 '0' '0' (Nat.digitChar (c.toNat / 16)) (Nat.digitChar (c.toNat % 16)) =
        some c.toNat := by
      simp only [hex4, hhi, hlo, h0, Option.bind_eq_bind, Option.bind_some]
      simp only [Nat.zero_mul, Nat.zero_add, hn]
    simp only [List.cons_append, List.nil_append, readString, h4]
    rw [if_neg (by omega), if_neg (by omega), Char.ofNat_toNat]
  · simp only [List.cons_append, List.nil_append]
    rw [readString.eq_5]
    · rw [if_neg (by simp [h₂, h₈])]
    · exact fun h => h₁ h
    all_goals intros; exact absurd ‹_› h₂

theorem readString_flatMap {esc : Char → List Char}
    (h : ∀ c cs, readString (esc c ++ cs) = push c (readString cs)) (s cs : List Char) :
    readString (s.flatMap esc ++ '"' :: cs) = some (s, cs) := by
  induction s with
  | nil => rfl
  | cons c s ih =>
    rw [List.flatMap_cons, List.append_assoc, h, ih]
    rfl

/-- The text of a string stands in quotes and is read back. -/
def Quotes (str : String → List Char) : Prop :=
  ∀ s, ∃ t, str s = '"' :: (t ++ ['"']) ∧
    ∀ cs, readString (t ++ '"' :: cs) = some (s.toList, cs)

theorem quotes_stringText : Quotes stringText :=
  fun s => ⟨_, rfl, readString_flatMap readString_escapeChar s.toList⟩

theorem hex4_digits {n : Nat} (hn : n < 0x10000) :
    hex4 (Nat.digitChar (n / 4096)) (Nat.digitChar (n / 256 % 16)) (Nat.digitChar (n / 16 % 16))
      (Nat.digitChar (n % 16)) = some n := by
  have h₁ := hexValue_digitChar (n / 4096) (by omega)
  have h₂ := hexValue_digitChar (n / 256 % 16) (by omega)
  have h₃ := hexValue_digitChar (n / 16 % 16) (by omega)
  have h₄ := hexValue_digitChar (n % 16) (by omega)
  have he : ((n / 4096 * 16 + n / 256 % 16) * 16 + n / 16 % 16) * 16 + n % 16 = n := by omega
  simp only [hex4, h₁, h₂, h₃, h₄, Option.bind_eq_bind, Option.bind_some, he]

theorem char_not_surrogate (c : Char) : c.toNat < 0xD800 ∨ 0xE000 ≤ c.toNat ∧ c.toNat < 0x110000 := by
  rcases c.valid with h | ⟨h, h'⟩
  · exact .inl h
  · exact .inr ⟨h, h'⟩

theorem readString_escapeAscii (c : Char) (cs : List Char) :
    readString (escapeAscii c ++ cs) = push c (readString cs) := by
  have hv := char_not_surrogate c
  rw [escapeAscii]
  split_ifs with h₁ h₂
  · exact readString_escapeChar c cs
  · simp only [unicodeEscape, List.cons_append, List.nil_append, readString, hex4_digits h₂]
    rw [if_neg (by omega), if_neg (by omega), Char.ofNat_toNat]
  · have hhi : 0xD800 + (c.toNat - 0x10000) / 0x400 < 0x10000 := by omega
    have hlo : 0xDC00 + (c.toNat - 0x10000) % 0x400 < 0x10000 := by omega
    have hn : 0x10000 + (0xD800 + (c.toNat - 0x10000) / 0x400 - 0xD800) * 0x400 +
        (0xDC00 + (c.toNat - 0x10000) % 0x400 - 0xDC00) = c.toNat := by omega
    simp only [unicodeEscape, List.cons_append, List.nil_append, readString, hex4_digits hhi,
      hex4_digits hlo]
    rw [if_pos (by omega), if_pos (by omega), hn, Char.ofNat_toNat]

theorem quotes_stringAscii : Quotes stringAscii :=
  fun s => ⟨_, rfl, readString_flatMap readString_escapeAscii s.toList⟩

/-- No character of a number stands at the head of what follows a value. -/
def NumberEnd (cs : List Char) : Prop := ∀ c ∈ cs.head?, isNumberChar c = false

theorem numberEnd_nil : NumberEnd [] := by intro c hc; cases hc

theorem numberEnd_cons {c : Char} {cs : List Char} (h : isNumberChar c = false) :
    NumberEnd (c :: cs) := by
  intro d hd
  cases hd
  exact h

theorem takeWhile_numberChars {tok cs : List Char} (ht : ∀ c ∈ tok, isNumberChar c = true)
    (he : NumberEnd cs) :
    (tok ++ cs).takeWhile isNumberChar = tok ∧ (tok ++ cs).dropWhile isNumberChar = cs := by
  have hcs : cs.takeWhile isNumberChar = [] ∧ cs.dropWhile isNumberChar = cs := by
    cases cs with
    | nil => exact ⟨rfl, rfl⟩
    | cons c cs =>
      have hc := he c rfl
      simp [hc]
  rw [List.takeWhile_append_of_pos ht, List.dropWhile_append_of_pos ht, hcs.1, hcs.2]
  exact ⟨List.append_nil _, rfl⟩

theorem keyword_append (word : List Char) (v : Json F) (cs : List Char) :
    keyword word v (word ++ cs) = some (v, cs) := by
  rw [keyword, if_pos (List.isPrefixOf_iff_prefix.2 (List.prefix_append ..)), List.drop_left]

section
variable [FloatText F]

theorem readNumber_int (n : Int) {cs : List Char} (he : NumberEnd cs) :
    readNumber (F := F) (intText n ++ cs) = some (.int n, cs) := by
  obtain ⟨ht, hd⟩ := takeWhile_numberChars (intLiteral_numberChars (intText_literal n)) he
  simp only [readNumber, ht, hd, intText_literal, ↓reduceIte, intOfLiteral_intText]

theorem readNumber_float (x : F) {cs : List Char} (he : NumberEnd cs) :
    readNumber (FloatText.repr x ++ cs) = some (.float (.finite x), cs) := by
  have hl := FloatText.repr_literal x
  obtain ⟨ht, hd⟩ := takeWhile_numberChars (floatLiteral_numberChars hl) he
  simp only [readNumber, ht, hd, hl, floatLiteral_not_int hl, ↓reduceIte, Bool.false_eq_true,
    FloatText.ofLiteral_repr]

/-- On a text that starts like a number, the reader goes on to read a number. -/
theorem readValue_number {tok cs : List Char} (n : Nat)
    (ht : ∀ c ∈ tok, isNumberChar c = true) (h₀ : tok ≠ []) (h₁ : tok ≠ ['-']) :
    readValue (F := F) (n + 1) (tok ++ cs) = readNumber (tok ++ cs) := by
  cases tok with
  | nil => exact (h₀ rfl).elim
  | cons c tok =>
    have hc := ht c (List.mem_cons_self ..)
    have hI : ∀ ds, c :: tok ++ cs ≠ '-' :: 'I' :: ds := by
      intro ds he
      cases tok with
      | nil =>
        injection he with hm _
        exact h₁ (by rw [hm])
      | cons d tok =>
        injection he with _ he
        injection he with hd _
        have hn := ht d (by simp)
        rw [hd] at hn
        cases hn
    rw [readValue.eq_def]
    simp only [List.cons_append] at hI ⊢
    split
    all_goals first
      | rfl
      | (rename_i he; exact (hI _ he).elim)
      | (rename_i he; injection he with he _; subst he; cases hc)

theorem readValue_int (n : Nat) (i : Int) {cs : List Char} (he : NumberEnd cs) :
    readValue (F := F) (n + 1) (intText i ++ cs) = some (.int i, cs) := by
  have hl := intText_literal i
  rw [readValue_number n (intLiteral_numberChars hl), readNumber_int i he]
  · rintro h
    rw [h] at hl
    cases hl
  · rintro h
    rw [h] at hl
    cases hl

theorem readValue_floatText (n : Nat) (x : PyFloat F) {cs : List Char} (he : NumberEnd cs) :
    readValue (n + 1) (floatText x ++ cs) = some (.float x, cs) := by
  cases x with
  | finite x =>
    have hl := FloatText.repr_literal x
    rw [floatText, readValue_number n (floatLiteral_numberChars hl), readNumber_float x he]
    · rintro h
      rw [h] at hl
      cases hl
    · rintro h
      rw [h] at hl
      cases hl
  | inf => exact keyword_append "nfinity".toList _ cs
  | negInf => exact keyword_append "nfinity".toList _ cs
  | nan => exact keyword_append "aN".toList _ cs

/-- A character that may start a value. -/
def isValueHead (c : Char) : Bool :=
  isNumberChar c || c == 'n' || c == 't' || c == 'f' || c == 'N' || c == 'I' || c == '"' ||
    c == '[' || c == '{'

theorem isValueHead_ne {c : Char} (h : isValueHead c = true) :
    isWs c = false ∧ c ≠ ']' ∧ c ≠ '}' := by
  refine ⟨?_, ?_, ?_⟩
  · rw [Bool.eq_false_iff]
    intro hw
    simp only [isWs, Bool.or_eq_true, beq_iff_eq] at hw
    rcases hw with ((rfl | rfl) | rfl) | rfl <;> cases h
  · rintro rfl
    cases h
  · rintro rfl
    cases h

theorem numberChars_head {tok : List Char} (ht : ∀ c ∈ tok, isNumberChar c = true)
    (h₀ : tok ≠ []) : ∃ c cs, tok = c :: cs ∧ isValueHead c = true := by
  cases tok with
  | nil => exact (h₀ rfl).elim
  | cons c cs =>
    refine ⟨c, cs, rfl, ?_⟩
    simp [isValueHead, ht c (List.mem_cons_self ..)]

theorem skipWs_of_head {c : Char} {cs : List Char} (h : isWs c = false) :
    skipWs (c :: cs) = c :: cs := by
  simp [skipWs, h]

theorem skipWs_gap (sp : Spacing) {c : Char} (cs : List Char) (h : isWs c = false) :
    skipWs (sp.gap ++ c :: cs) = c :: cs := by
  cases sp with
  | default =>
    have hs : isWs ' ' = true := by decide
    simp [skipWs, Spacing.gap, hs, h]
  | compact => exact skipWs_of_head h

section
variable {str : String → List Char} (hq : Quotes str) (sp : Spacing)
include hq

theorem dumpsWith_head (v : Json F) :
    ∃ c cs, dumpsWith str sp v = c :: cs ∧ isValueHead c = true := by
  cases v with
  | null => exact ⟨_, _, rfl, rfl⟩
  | bool b => cases b <;> exact ⟨_, _, rfl, rfl⟩
  | int n =>
    have hl := intText_literal n
    apply numberChars_head (intLiteral_numberChars hl)
    intro h
    rw [h] at hl
    cases hl
  | float x =>
    cases x with
    | finite x =>
      have hl := FloatText.repr_literal x
      apply numberChars_head (floatLiteral_numberChars hl)
      intro h
      rw [h] at hl
      cases hl
    | inf => exact ⟨_, _, rfl, rfl⟩
    | negInf => exact ⟨_, _, rfl, rfl⟩
    | nan => exact ⟨_, _, rfl, rfl⟩
  | str s =>
    obtain ⟨t, ht, -⟩ := hq s
    exact ⟨_, _, ht, rfl⟩
  | list xs => exact ⟨_, _, rfl, rfl⟩
  | dict ms => exact ⟨_, _, rfl, rfl⟩

theorem skipWs_gap_dumpsWith (v : Json F) (cs : List Char) :
    skipWs (sp.gap ++ (dumpsWith str sp v ++ cs)) = dumpsWith str sp v ++ cs := by
  obtain ⟨c, ds, he, hv⟩ := dumpsWith_head hq sp v
  rw [he]
  exact skipWs_gap sp (ds ++ cs) (isValueHead_ne hv).1

mutual
/-- The reader gives back every tree that the writer has written, whatever follows it. -/
theorem readValue_dumpsWith : ∀ (v : Json F) (n : Nat) (cs : List Char),
    (dumpsWith str sp v).length < n → NumberEnd cs →
      readValue n (dumpsWith str sp v ++ cs) = some (v, cs)
  | v, 0, cs, h, _ => by cases h
  | .null, n + 1, cs, _, _ => keyword_append "ull".toList _ cs
  | .bool true, n + 1, cs, _, _ => keyword_append "rue".toList _ cs
  | .bool false, n + 1, cs, _, _ => keyword_append "alse".toList _ cs
  | .int i, n + 1, cs, _, he => by simp only [dumpsWith, readValue_int (F := F) n i he]
  | .float x, n + 1, cs, _, he => by
    rw [dumpsWith]
    exact readValue_floatText n x he
  | .str s, n + 1, cs, _, _ => by
    obtain ⟨t, ht, hs⟩ := hq s
    simp only [dumpsWith, ht, List.cons_append, List.append_assoc, List.nil_append, readValue, hs,
      Option.map_some, String.ofList_toList]
  | .list [], n + 1, cs, _, _ => by
    have hw : isWs ']' = false := by decide
    simp only [dumpsWith, dumpsItemsWith, List.cons_append, List.nil_append, readValue,
      skipWs_of_head hw]
  | .list (v :: vs), n + 1, cs, h, _ => by
    have hi := readItems_dumpsWith v vs n cs (by
      simp only [dumpsWith, dumpsItemsWith, List.length_cons, List.length_append] at h ⊢
      omega)
    obtain ⟨c, ds, he, hv⟩ := dumpsWith_head hq sp v
    obtain ⟨hw, hc, -⟩ := isValueHead_ne hv
    simp only [dumpsWith, dumpsItemsWith, he, List.cons_append, readValue,
      skipWs_of_head hw] at hi ⊢
    split
    · rename_i hm
      injection hm with hm _
      exact (hc hm).elim
    · rw [hi]
      rfl
  | .dict [], n + 1, cs, _, _ => by
    have hw : isWs '}' = false := by decide
    simp only [dumpsWith, dumpsMembersWith, List.cons_append, List.nil_append, readValue,
      skipWs_of_head hw]
  | .dict ((k, v) :: ms), n + 1, cs, h, _ => by
    have hm := readMembers_dumpsWith k v ms n cs (by
      simp only [dumpsWith, dumpsMembersWith, List.length_cons, List.length_append] at h ⊢
      omega)
    have hw : isWs '"' = false := by decide
    obtain ⟨t, ht, -⟩ := hq k
    simp only [dumpsWith, dumpsMembersWith, ht, List.cons_append, readValue,
      skipWs_of_head hw] at hm ⊢
    split
    · rename_i he
      injection he with he _
      cases he
    · rw [hm]
      rfl
theorem readItems_dumpsWith : ∀ (v : Json F) (vs : List (Json F)) (n : Nat)
    (cs : List Char), (dumpsItemsWith str sp (v :: vs)).length < n →
      readItems n (dumpsItemsWith str sp (v :: vs) ++ cs) = some (v :: vs, cs)
  | v, vs, 0, cs, h => by cases h
  | v, [], n + 1, cs, h => by
    have hv := readValue_dumpsWith v n (']' :: cs) (by
      simp only [dumpsItemsWith, dumpsItemsTailWith, List.length_append, List.length_cons,
        List.length_nil] at h
      omega) (numberEnd_cons (by decide))
    have hw : isWs ']' = false := by decide
    simp only [dumpsItemsWith, dumpsItemsTailWith, List.append_assoc, List.cons_append,
      List.nil_append, readItems, hv, skipWs_of_head hw]
  | v, w :: ws, n + 1, cs, h => by
    simp only [dumpsItemsWith, dumpsItemsTailWith, List.length_append, List.length_cons] at h
    have hv := readValue_dumpsWith v n
      (',' :: (sp.gap ++ (dumpsWith str sp w ++ (dumpsItemsTailWith str sp ws ++ cs))))
      (by omega) (numberEnd_cons (by decide))
    have hi := readItems_dumpsWith w ws n cs (by
      simp only [dumpsItemsWith, List.length_append]
      omega)
    have hw : isWs ',' = false := by decide
    simp only [dumpsItemsWith, dumpsItemsTailWith, List.append_assoc, List.cons_append] at hi ⊢
    simp only [readItems, hv, skipWs_of_head hw, skipWs_gap_dumpsWith hq, hi, Option.map_some]
theorem readMembers_dumpsWith : ∀ (k : String) (v : Json F)
    (ms : List (String × Json F)) (n : Nat) (cs : List Char),
    (dumpsMembersWith str sp ((k, v) :: ms)).length < n →
      readMembers n (dumpsMembersWith str sp ((k, v) :: ms) ++ cs) = some ((k, v) :: ms, cs)
  | k, v, ms, 0, cs, h => by cases h
  | k, v, [], n + 1, cs, h => by
    simp only [dumpsMembersWith, dumpsMembersTailWith, List.length_append, List.length_cons,
      List.length_nil] at h
    obtain ⟨t, ht, hk⟩ := hq k
    have hv := readValue_dumpsWith v n ('}' :: cs) (by omega) (numberEnd_cons (by decide))
    have hc : isWs ':' = false := by decide
    have hw : isWs '}' = false := by decide
    simp only [dumpsMembersWith, dumpsMembersTailWith, ht, List.append_assoc, List.cons_append,
      List.nil_append]
    simp only [readMembers, hk, skipWs_of_head hc, skipWs_gap_dumpsWith hq, hv,
      skipWs_of_head hw, String.ofList_toList]
  | k, v, (l, w) :: ms, n + 1, cs, h => by
    simp only [dumpsMembersWith, dumpsMembersTailWith, List.length_append, List.length_cons] at h
    have hv := readValue_dumpsWith v n (',' :: (sp.gap ++ (str l ++ ':' ::
      (sp.gap ++ (dumpsWith str sp w ++ (dumpsMembersTailWith str sp ms ++ cs)))))) (by omega)
      (numberEnd_cons (by decide))
    have hm := readMembers_dumpsWith l w ms n cs (by
      simp only [dumpsMembersWith, List.length_append, List.length_cons]
      omega)
    obtain ⟨t, ht, hk⟩ := hq k
    obtain ⟨u, hu, -⟩ := hq l
    have hc : isWs ':' = false := by decide
    have hw : isWs ',' = false := by decide
    have hquote : isWs '"' = false := by decide
    simp only [dumpsMembersWith, dumpsMembersTailWith, ht, hu, List.append_assoc,
      List.cons_append, List.nil_append] at hv hm ⊢
    simp only [readMembers, hk, skipWs_of_head hc, skipWs_gap_dumpsWith hq, hv,
      skipWs_of_head hw, skipWs_gap sp _ hquote, String.ofList_toList] at hm ⊢
    rw [hm]
    rfl
end

end

theorem trimmed_of_ends {p : Char → Bool} {c d : Char} (cs : List Char) (hc : p c = false)
    (hd : p d = false) : Text.Trimmed p (c :: (cs ++ [d])) :=
  ⟨c, rfl, hc, d, by rw [← List.cons_append, List.getLast?_concat], hd⟩

theorem trimmed_of_all {p : Char → Bool} {cs : List Char} (h₀ : cs ≠ [])
    (h : ∀ c ∈ cs, p c = false) : Text.Trimmed p cs :=
  ⟨_, List.head?_eq_some_head h₀, h _ (List.head_mem h₀), _, List.getLast?_eq_some_getLast h₀,
    h _ (List.getLast_mem h₀)⟩

theorem isSpace_of_isWs {c : Char} (h : isWs c = true) : Text.isSpace c = true := by
  simp only [isWs, Bool.or_eq_true, beq_iff_eq] at h
  rcases h with ((rfl | rfl) | rfl) | rfl <;> decide

theorem isSpace_numberChar {c : Char} (h : isNumberChar c = true) : Text.isSpace c = false := by
  rw [Bool.eq_false_iff]
  intro hs
  simp only [isNumberChar, Bool.or_eq_true, beq_iff_eq] at h
  rcases h with ((((h | rfl) | rfl) | rfl) | rfl) | rfl
  · have hd : 48 ≤ c.toNat ∧ c.toNat ≤ 57 := by
      simp only [Char.isDigit, Bool.and_eq_true, decide_eq_true_eq] at h
      exact h
    simp only [Text.isSpace, Bool.or_eq_true, Bool.and_eq_true, decide_eq_true_eq, List.mem_cons,
      List.not_mem_nil, or_false] at hs
    rcases hs with hs | hs
    · rcases hs with rfl | rfl | rfl | rfl | rfl | rfl | rfl | rfl | rfl | rfl | rfl | rfl | rfl |
        rfl | rfl | rfl | rfl | rfl <;> simp at hd
    · omega
  all_goals cases hs

theorem Trimmed.of_isSpace {cs : List Char} (h : Text.Trimmed Text.isSpace cs) :
    Text.Trimmed isWs cs := by
  have hw {c : Char} (hc : Text.isSpace c = false) : isWs c = false := by
    rw [Bool.eq_false_iff]
    intro hs
    rw [isSpace_of_isWs hs] at hc
    cases hc
  obtain ⟨c, hc, hpc, d, hd, hpd⟩ := h
  exact ⟨c, hc, hw hpc, d, hd, hw hpd⟩

theorem dumpsItemsTailWith_last (str : String → List Char) (sp : Spacing) (vs : List (Json F)) :
    ∃ cs, dumpsItemsTailWith str sp vs = cs ++ [']'] := by
  induction vs with
  | nil => exact ⟨[], rfl⟩
  | cons v vs ih =>
    obtain ⟨cs, he⟩ := ih
    exact ⟨',' :: (sp.gap ++ (dumpsWith str sp v ++ cs)), by simp [dumpsItemsTailWith, he]⟩

theorem dumpsMembersTailWith_last (str : String → List Char) (sp : Spacing)
    (ms : List (String × Json F)) : ∃ cs, dumpsMembersTailWith str sp ms = cs ++ ['}'] := by
  induction ms with
  | nil => exact ⟨[], rfl⟩
  | cons p ms ih =>
    obtain ⟨k, v⟩ := p
    obtain ⟨cs, he⟩ := ih
    exact ⟨',' :: (sp.gap ++ (str k ++ ':' :: (sp.gap ++ (dumpsWith str sp v ++ cs)))),
      by simp [dumpsMembersTailWith, he]⟩

theorem dumpsWith_list_ends (str : String → List Char) (sp : Spacing) (vs : List (Json F)) :
    ∃ cs, dumpsWith str sp (.list vs) = '[' :: (cs ++ [']']) := by
  cases vs with
  | nil => exact ⟨[], rfl⟩
  | cons v vs =>
    obtain ⟨cs, he⟩ := dumpsItemsTailWith_last str sp vs
    exact ⟨dumpsWith str sp v ++ cs, by simp [dumpsWith, dumpsItemsWith, he]⟩

theorem dumpsWith_dict_ends (str : String → List Char) (sp : Spacing)
    (ms : List (String × Json F)) : ∃ cs, dumpsWith str sp (.dict ms) = '{' :: (cs ++ ['}']) := by
  cases ms with
  | nil => exact ⟨[], rfl⟩
  | cons p ms =>
    obtain ⟨k, v⟩ := p
    obtain ⟨cs, he⟩ := dumpsMembersTailWith_last str sp ms
    exact ⟨str k ++ ':' :: (sp.gap ++ (dumpsWith str sp v ++ cs)), by
      simp [dumpsWith, dumpsMembersWith, he]⟩

section
variable {str : String → List Char} (hq : Quotes str) (sp : Spacing)
include hq

/-- A document starts and ends with something other than whitespace. -/
theorem dumpsWith_trimmed (v : Json F) : Text.Trimmed Text.isSpace (dumpsWith str sp v) := by
  cases v with
  | null => exact trimmed_of_ends ['u', 'l'] (by decide) (by decide)
  | bool b =>
    cases b with
    | true => exact trimmed_of_ends ['r', 'u'] (by decide) (by decide)
    | false => exact trimmed_of_ends ['a', 'l', 's'] (by decide) (by decide)
  | int n =>
    have hl := intText_literal n
    refine trimmed_of_all ?_ fun c hc => isSpace_numberChar (intLiteral_numberChars hl c hc)
    rintro h
    rw [dumpsWith] at h
    rw [h] at hl
    cases hl
  | float x =>
    cases x with
    | finite x =>
      have hl := FloatText.repr_literal x
      refine trimmed_of_all ?_ fun c hc => isSpace_numberChar (floatLiteral_numberChars hl c hc)
      rintro h
      rw [dumpsWith, floatText] at h
      rw [h] at hl
      cases hl
    | inf => exact trimmed_of_ends ['n', 'f', 'i', 'n', 'i', 't'] (by decide) (by decide)
    | negInf => exact trimmed_of_ends ['I', 'n', 'f', 'i', 'n', 'i', 't'] (by decide) (by decide)
    | nan => exact trimmed_of_ends ['a'] (by decide) (by decide)
  | str s =>
    obtain ⟨t, ht, -⟩ := hq s
    rw [dumpsWith, ht]
    exact trimmed_of_ends t (by decide) (by decide)
  | list xs =>
    obtain ⟨cs, he⟩ := dumpsWith_list_ends str sp xs
    rw [he]
    exact trimmed_of_ends cs (by decide) (by decide)
  | dict ms =>
    obtain ⟨cs, he⟩ := dumpsWith_dict_ends str sp ms
    rw [he]
    exact trimmed_of_ends cs (by decide) (by decide)

theorem trim_dumpsWith (v : Json F) : Text.trim isWs (dumpsWith str sp v) = dumpsWith str sp v := by
  have ht := Text.trim_of_trimmed (w := []) (v := [])
    (Trimmed.of_isSpace (dumpsWith_trimmed hq sp v)) (by simp) (by simp)
  simpa using ht

/-- What the writer has written is loaded as the value with its dictionaries built. -/
theorem loads_dumpsWith (v : Json F) : loads (dumpsWith str sp v) = some v.build := by
  have hr := readValue_dumpsWith hq sp v _ [] (Nat.lt_succ_self _) numberEnd_nil
  rw [List.append_nil] at hr
  simp only [loads, trim_dumpsWith hq, hr]

end

theorem readValue_dumps (sp : Spacing) (v : Json F) (n : Nat) (cs : List Char)
    (h : (dumps sp v).length < n) (he : NumberEnd cs) :
    readValue n (dumps sp v ++ cs) = some (v, cs) := by
  rw [dumps_eq] at h ⊢
  exact readValue_dumpsWith quotes_stringText sp v n cs h he

theorem dumps_trimmed (sp : Spacing) (v : Json F) : Text.Trimmed Text.isSpace (dumps sp v) := by
  rw [dumps_eq]
  exact dumpsWith_trimmed quotes_stringText sp v

/-- `json.loads(json.dumps(v))` is the value with its dictionaries built. -/
theorem loads_dumps (sp : Spacing) (v : Json F) : loads (dumps sp v) = some v.build := by
  rw [dumps_eq]
  exact loads_dumpsWith quotes_stringText sp v

theorem loads_dumpsAscii (sp : Spacing) (v : Json F) : loads (dumpsAscii sp v) = some v.build :=
  loads_dumpsWith quotes_stringAscii sp v

/-- A text is written by one tree at most. -/
theorem dumps_injective (sp : Spacing) {v w : Json F} (h : dumps sp v = dumps sp w) : v = w := by
  have hv := readValue_dumps sp v ((dumps sp v).length + 1) [] (Nat.lt_succ_self _) numberEnd_nil
  have hw := readValue_dumps sp w ((dumps sp w).length + 1) [] (Nat.lt_succ_self _) numberEnd_nil
  rw [h, hw] at hv
  injection hv with he
  injection he with he _
  exact he.symm

theorem escapeChar_ge (c : Char) : ∀ d ∈ escapeChar c, 0x20 ≤ d.toNat := by
  have hx : ∀ n, n < 16 → 0x20 ≤ (Nat.digitChar n).toNat := by decide
  unfold escapeChar
  split_ifs with h₁ h₂ h₃ h₄ h₅ h₆ h₇ h₈
  · exact Text.forall_mem_of_all (by decide)
  · exact Text.forall_mem_of_all (by decide)
  · exact Text.forall_mem_of_all (by decide)
  · exact Text.forall_mem_of_all (by decide)
  · exact Text.forall_mem_of_all (by decide)
  · exact Text.forall_mem_of_all (by decide)
  · exact Text.forall_mem_of_all (by decide)
  · intro d hm
    simp only [List.mem_cons, List.not_mem_nil, or_false] at hm
    rcases hm with rfl | rfl | rfl | rfl | rfl | rfl
    · decide
    · decide
    · decide
    · decide
    · exact hx _ (by omega)
    · exact hx _ (by omega)
  · intro d hm
    rw [List.mem_singleton.1 hm]
    omega

theorem stringText_ge (s : String) : ∀ d ∈ stringText s, 0x20 ≤ d.toNat := by
  intro d hd
  simp only [stringText, List.mem_cons, List.mem_append, List.mem_flatMap, List.not_mem_nil,
    or_false] at hd
  rcases hd with rfl | ⟨c, -, hc⟩ | rfl
  · decide
  · exact escapeChar_ge c d hc
  · decide

theorem numberChar_printable {c : Char} (h : isNumberChar c = true) :
    0x20 ≤ c.toNat ∧ c.toNat < 0x7f := by
  simp only [isNumberChar, Bool.or_eq_true, beq_iff_eq] at h
  rcases h with ((((h | rfl) | rfl) | rfl) | rfl) | rfl
  · simp only [Char.isDigit, Bool.and_eq_true, decide_eq_true_eq] at h
    exact ⟨Nat.le_trans (by decide) h.1, Nat.lt_of_le_of_lt h.2 (by decide)⟩
  all_goals decide

theorem gap_printable (sp : Spacing) : ∀ c ∈ sp.gap, 0x20 ≤ c.toNat ∧ c.toNat < 0x7f := by
  cases sp with
  | default => exact Text.forall_mem_of_all (by decide)
  | compact => exact Text.forall_mem_of_all (by decide)

theorem forall_mem_of_printable {P : Char → Prop}
    (hp : ∀ c, 0x20 ≤ c.toNat ∧ c.toNat < 0x7f → P c) {cs : List Char}
    (h : (cs.all fun c => decide (0x20 ≤ c.toNat ∧ c.toNat < 0x7f)) = true) : ∀ c ∈ cs, P c :=
  fun c hc => hp c (Text.forall_mem_of_all h c hc)

section
variable {P : Char → Prop} {str : String → List Char}
  (hp : ∀ c, 0x20 ≤ c.toNat ∧ c.toNat < 0x7f → P c) (hs : ∀ s, ∀ c ∈ str s, P c) (sp : Spacing)
include hp hs

mutual
/-- What holds of the printable ASCII characters and of the texts of strings holds of a document. -/
theorem forall_mem_dumpsWith : ∀ (v : Json F), ∀ c ∈ dumpsWith str sp v, P c
  | .null => by
    simp only [dumpsWith]
    exact forall_mem_of_printable hp (by decide)
  | .bool true => by
    simp only [dumpsWith]
    exact forall_mem_of_printable hp (by decide)
  | .bool false => by
    simp only [dumpsWith]
    exact forall_mem_of_printable hp (by decide)
  | .int n => fun c hc =>
    hp c (numberChar_printable (intLiteral_numberChars (intText_literal n) c hc))
  | .float (.finite x) => fun c hc =>
    hp c (numberChar_printable (floatLiteral_numberChars (FloatText.repr_literal x) c hc))
  | .float .inf => by
    simp only [dumpsWith, floatText]
    exact forall_mem_of_printable hp (by decide)
  | .float .negInf => by
    simp only [dumpsWith, floatText]
    exact forall_mem_of_printable hp (by decide)
  | .float .nan => by
    simp only [dumpsWith, floatText]
    exact forall_mem_of_printable hp (by decide)
  | .str s => hs s
  | .list [] => by
    simp only [dumpsWith, dumpsItemsWith]
    exact forall_mem_of_printable hp (by decide)
  | .list (v :: vs) => by
    intro c hc
    simp only [dumpsWith, dumpsItemsWith, List.mem_cons, List.mem_append] at hc
    rcases hc with rfl | hc | hc
    · exact hp _ (by decide)
    · exact forall_mem_dumpsWith v c hc
    · exact forall_mem_dumpsItemsTailWith vs c hc
  | .dict [] => by
    simp only [dumpsWith, dumpsMembersWith]
    exact forall_mem_of_printable hp (by decide)
  | .dict ((k, v) :: ms) => by
    intro c hc
    simp only [dumpsWith, dumpsMembersWith, List.mem_cons, List.mem_append] at hc
    rcases hc with rfl | hc | rfl | hc | hc | hc
    · exact hp _ (by decide)
    · exact hs k c hc
    · exact hp _ (by decide)
    · exact hp c (gap_printable sp c hc)
    · exact forall_mem_dumpsWith v c hc
    · exact forall_mem_dumpsMembersTailWith ms c hc
theorem forall_mem_dumpsItemsTailWith :
    ∀ (vs : List (Json F)), ∀ c ∈ dumpsItemsTailWith str sp vs, P c
  | [] => by
    simp only [dumpsItemsTailWith]
    exact forall_mem_of_printable hp (by decide)
  | v :: vs => by
    intro c hc
    simp only [dumpsItemsTailWith, List.mem_cons, List.mem_append] at hc
    rcases hc with rfl | hc | hc | hc
    · exact hp _ (by decide)
    · exact hp c (gap_printable sp c hc)
    · exact forall_mem_dumpsWith v c hc
    · exact forall_mem_dumpsItemsTailWith vs c hc
theorem forall_mem_dumpsMembersTailWith :
    ∀ (ms : List (String × Json F)), ∀ c ∈ dumpsMembersTailWith str sp ms, P c
  | [] => by
    simp only [dumpsMembersTailWith]
    exact forall_mem_of_printable hp (by decide)
  | (k, v) :: ms => by
    intro c hc
    simp only [dumpsMembersTailWith, List.mem_cons, List.mem_append] at hc
    rcases hc with rfl | hc | hc | rfl | hc | hc | hc
    · exact hp _ (by decide)
    · exact hp c (gap_printable sp c hc)
    · exact hs k c hc
    · exact hp _ (by decide)
    · exact hp c (gap_printable sp c hc)
    · exact forall_mem_dumpsWith v c hc
    · exact forall_mem_dumpsMembersTailWith ms c hc
end

end

/-- The writer escapes every control character, so a document is one line. -/
theorem dumps_ge (sp : Spacing) (v : Json F) : ∀ c ∈ dumps sp v, 0x20 ≤ c.toNat := by
  rw [dumps_eq]
  exact forall_mem_dumpsWith (fun _ h => h.1) stringText_ge sp v

theorem digitChar_printable :
    ∀ n < 16, 0x20 ≤ (Nat.digitChar n).toNat ∧ (Nat.digitChar n).toNat < 0x7f := by
  decide

theorem unicodeEscape_printable {n : Nat} (hn : n < 0x10000) :
    ∀ c ∈ unicodeEscape n, 0x20 ≤ c.toNat ∧ c.toNat < 0x7f := by
  simp only [unicodeEscape, List.forall_mem_cons, List.not_mem_nil, false_imp_iff, implies_true,
    and_true]
  exact ⟨by decide, by decide, digitChar_printable _ (by omega), digitChar_printable _ (by omega),
    digitChar_printable _ (by omega), digitChar_printable _ (by omega)⟩

theorem escapeChar_printable : ∀ n < 0x7f, (escapeChar (Char.ofNat n)).all
    (fun d => decide (0x20 ≤ d.toNat ∧ d.toNat < 0x7f)) = true := by
  decide +kernel

theorem escapeAscii_printable (c : Char) :
    ∀ d ∈ escapeAscii c, 0x20 ≤ d.toNat ∧ d.toNat < 0x7f := by
  have hv := char_not_surrogate c
  rw [escapeAscii]
  split_ifs with h₁ h₂
  · have he := escapeChar_printable c.toNat h₁
    rw [Char.ofNat_toNat] at he
    exact Text.forall_mem_of_all he
  · exact unicodeEscape_printable h₂
  · intro d hd
    rcases List.mem_append.1 hd with hd | hd
    · exact unicodeEscape_printable (by omega) d hd
    · exact unicodeEscape_printable (by omega) d hd

theorem stringAscii_printable (s : String) :
    ∀ d ∈ stringAscii s, 0x20 ≤ d.toNat ∧ d.toNat < 0x7f := by
  intro d hd
  simp only [stringAscii, List.mem_cons, List.mem_append, List.mem_flatMap, List.not_mem_nil,
    or_false] at hd
  rcases hd with rfl | ⟨c, -, hc⟩ | rfl
  · decide
  · exact escapeAscii_printable c d hc
  · decide

/-- Under `ensure_ascii=True` a document has only printable ASCII characters. -/
theorem dumpsAscii_printable (sp : Spacing) (v : Json F) :
    ∀ c ∈ dumpsAscii sp v, 0x20 ≤ c.toNat ∧ c.toNat < 0x7f :=
  forall_mem_dumpsWith (fun _ h => h) stringAscii_printable sp v

theorem mem_dumpsMembersTail {sp : Spacing} {ms : List (String × Json F)} {p : String × Json F}
    {c : Char} (hp : p ∈ ms) (hc : c ∈ dumps sp p.2) : c ∈ dumpsMembersTail sp ms := by
  induction ms with
  | nil => cases hp
  | cons q ms ih =>
    simp only [dumpsMembersTail, List.mem_cons, List.mem_append]
    rcases List.mem_cons.1 hp with rfl | hp
    · simp [hc]
    · simp [ih hp]

theorem mem_dumps_dict {sp : Spacing} {ms : List (String × Json F)} {p : String × Json F}
    {c : Char} (hp : p ∈ ms) (hc : c ∈ dumps sp p.2) : c ∈ dumps sp (.dict ms) := by
  cases ms with
  | nil => cases hp
  | cons q ms =>
    simp only [dumps, dumpsMembers, List.mem_cons, List.mem_append]
    rcases List.mem_cons.1 hp with rfl | hp
    · simp [hc]
    · simp [mem_dumpsMembersTail hp hc]

/-- The characters that the writer puts between the parts of a dictionary. -/
def punctuation : List Char := ['{', '}', ',', ':', ' ']

theorem gap_punctuation {sp : Spacing} {c : Char} (h : c ∈ sp.gap) : c ∈ punctuation := by
  cases sp with
  | default =>
    rw [List.mem_singleton.1 h]
    decide
  | compact => cases h

theorem of_mem_dumpsMembersTail {sp : Spacing} {ms : List (String × Json F)} {c : Char}
    (hc : c ∈ dumpsMembersTail sp ms) :
    c ∈ punctuation ∨ ∃ p ∈ ms, c ∈ stringText p.1 ∨ c ∈ dumps sp p.2 := by
  induction ms with
  | nil =>
    rw [List.mem_singleton.1 hc]
    exact .inl (by decide)
  | cons p ms ih =>
    simp only [dumpsMembersTail, List.mem_cons, List.mem_append] at hc
    rcases hc with rfl | hc | hc | rfl | hc | hc | hc
    · exact .inl (by decide)
    · exact .inl (gap_punctuation hc)
    · exact .inr ⟨p, .head _, .inl hc⟩
    · exact .inl (by decide)
    · exact .inl (gap_punctuation hc)
    · exact .inr ⟨p, .head _, .inr hc⟩
    · rcases ih hc with h | ⟨q, hq, h⟩
      · exact .inl h
      · exact .inr ⟨q, .tail _ hq, h⟩

theorem of_mem_dumps_dict {sp : Spacing} {ms : List (String × Json F)} {c : Char}
    (hc : c ∈ dumps sp (.dict ms)) :
    c ∈ punctuation ∨ ∃ p ∈ ms, c ∈ stringText p.1 ∨ c ∈ dumps sp p.2 := by
  cases ms with
  | nil =>
    simp only [dumps, dumpsMembers, List.mem_cons, List.not_mem_nil, or_false] at hc
    rcases hc with rfl | rfl
    · exact .inl (by decide)
    · exact .inl (by decide)
  | cons p ms =>
    simp only [dumps, dumpsMembers, List.mem_cons, List.mem_append] at hc
    rcases hc with rfl | hc | rfl | hc | hc | hc
    · exact .inl (by decide)
    · exact .inr ⟨p, .head _, .inl hc⟩
    · exact .inl (by decide)
    · exact .inl (gap_punctuation hc)
    · exact .inr ⟨p, .head _, .inr hc⟩
    · rcases of_mem_dumpsMembersTail hc with h | ⟨q, hq, h⟩
      · exact .inl h
      · exact .inr ⟨q, .tail _ hq, h⟩

end

end Obase.Json

namespace Obase.Json
set_option autoImplicit true

section
variable [FloatText F]

/-- A written object is read back whatever follows it, a number too. -/
theorem readValue_dumps_dict (sp : Spacing) (ms : List (String × Json F)) (n : Nat)
    (cs : List Char) (h : (dumps sp (.dict ms : Json F)).length < n) :
    readValue n (dumps sp (.dict ms) ++ cs) = some (.dict ms, cs) := by
  rw [dumps_eq] at h ⊢
  cases n with
  | zero => cases h
  | succ n =>
    cases ms with
    | nil =>
      have hw : isWs '}' = false := by decide
      simp only [dumpsWith, dumpsMembersWith, List.cons_append, List.nil_append, readValue,
        skipWs_of_head hw]
    | cons p ms =>
      obtain ⟨k, v⟩ := p
      have hm := readMembers_dumpsWith quotes_stringText sp k v ms n cs (by
        simp only [dumpsWith, dumpsMembersWith, List.length_cons, List.length_append] at h ⊢
        omega)
      have hw : isWs '"' = false := by decide
      obtain ⟨t, ht, -⟩ := quotes_stringText k
      simp only [dumpsWith, dumpsMembersWith, ht, List.cons_append, readValue,
        skipWs_of_head hw] at hm ⊢
      split
      · rename_i he
        injection he with he _
        cases he
      · rw [hm]
        rfl

/-- What follows a written object in a document is blank. -/
theorem blank_of_loads_trailing {sp : Spacing} {ms : List (String × Json F)} {w : List Char}
    {v : Json F} (h : loads (dumps sp (.dict ms : Json F) ++ w) = some v) :
    ∀ c ∈ w, isWs c = true := by
  by_cases hb : w.rdropWhile isWs = []
  · exact List.rdropWhile_eq_nil_iff.1 hb
  exfalso
  obtain ⟨cs, hd⟩ := dumpsWith_dict_ends stringText sp ms
  rw [← dumps_eq] at hd
  have hlast := List.rdropWhile_last_not isWs w hb
  have hw : w = w.rdropWhile isWs ++ w.rtakeWhile isWs := List.rdropWhile_append_rtakeWhile.symm
  have ht : Text.Trimmed isWs (dumps sp (.dict ms : Json F) ++ w.rdropWhile isWs) := by
    rw [← List.dropLast_append_getLast hb, hd]
    have he := trimmed_of_ends (p := isWs) (c := '{') (cs ++ ['}'] ++ (w.rdropWhile isWs).dropLast)
      (by decide) (Bool.eq_false_iff.2 hlast)
    simpa using he
  have htrim : Text.trim isWs (dumps sp (.dict ms : Json F) ++ w) =
      dumps sp (.dict ms : Json F) ++ w.rdropWhile isWs := by
    have he := Text.trim_of_trimmed (w := []) (v := w.rtakeWhile isWs) ht (fun _ hm => nomatch hm)
      fun c hc => List.mem_rtakeWhile_imp hc
    rw [List.nil_append, List.append_assoc, ← hw] at he
    exact he
  rw [loads, htrim, readValue_dumps_dict _ _ _ _ (by rw [List.length_append]; omega)] at h
  split at h
  · rename_i he
    injection he with he
    injection he with _ he
    exact hb he
  · cases h

end

end Obase.Json
