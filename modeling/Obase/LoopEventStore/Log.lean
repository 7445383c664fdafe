import Obase.Json.RoundTrip
import Obase.LoopEventStore.Store

namespace Obase.LoopEventStore
set_option autoImplicit true
open Json Text

/-- The text of a file with one document a line, as the store writes it. -/
def fileText [FloatText F] (docs : List (Json F)) : List Char := unlines (docs.map (dumps .default))

/-- No character of the document ends a line for `str.splitlines`. -/
def Unbroken [FloatText F] (doc : Json F) : Prop :=
  ∀ c ∈ dumps .default doc, isLineBoundary c = false

instance [FloatText F] (doc : Json F) : Decidable (Unbroken doc) :=
  List.decidableBAll (fun c => isLineBoundary c = false) (dumps .default doc)

section
variable [Builtins F]

theorem newline_not_mem_dumps (sp : Spacing) (doc : Json F) :
    ∀ c ∈ dumps sp doc, isNewline c = false := by
  intro c hc
  have hge := dumps_ge sp doc c hc
  rw [Bool.eq_false_iff]
  intro hn
  rw [eq_of_beq hn] at hge
  revert hge
  decide

theorem fileText_concat (docs : List (Json F)) (doc : Json F) :
    fileText (docs ++ [doc]) = fileText docs ++ (dumps .default doc ++ ['\n']) := by
  simp [fileText, unlines_append]

theorem universalNewlines_fileText (docs : List (Json F)) :
    universalNewlines (fileText docs) = fileText docs := by
  apply universalNewlines_of_no_cr
  intro h
  obtain ⟨l, hl, hc⟩ := List.mem_flatMap.1 h
  obtain ⟨doc, -, rfl⟩ := List.mem_map.1 hl
  rcases List.mem_append.1 hc with hc | hc
  · have hge := dumps_ge .default doc _ hc
    revert hge
    decide
  · cases List.mem_singleton.1 hc

theorem readLines_dumps (n : Nat) (docs : List (Json F)) :
    readLines n (docs.map (dumps .default)) = .ok (docs.map Value.build) := by
  induction docs generalizing n with
  | nil => rfl
  | cons doc docs ih =>
    have ht := dumps_trimmed .default doc
    have hne : (dumps .default doc).isEmpty = false := List.isEmpty_eq_false_iff.2 ht.ne_nil
    simp only [List.map_cons, readLines, strip_of_trimmed ht, hne, Bool.false_eq_true, ↓reduceIte,
      loads_dumps, ih, Except.map]

/-- Reading the lines of a written file gives back what its documents decode to. -/
theorem readAll_fileText (docs : List (Json F)) :
    readAll (fileText docs) = .ok (docs.map Value.build) := by
  rw [readAll, universalNewlines_fileText, fileText, lines_unlines rfl, readLines_dumps]
  intro l hl
  obtain ⟨doc, -, rfl⟩ := List.mem_map.1 hl
  exact newline_not_mem_dumps .default doc

theorem splitlines_fileText {docs : List (Json F)} (h : ∀ doc ∈ docs, Unbroken doc) :
    splitlines (fileText docs) = docs.map (dumps .default) := by
  rw [splitlines, universalNewlines_fileText, fileText, lines_unlines rfl]
  intro l hl
  obtain ⟨doc, hd, rfl⟩ := List.mem_map.1 hl
  exact h doc hd

theorem splitlines_fileText_cons (doc : Json F) (docs : List (Json F)) :
    splitlines (fileText (doc :: docs)) =
      lines isLineBoundary (dumps .default doc ++ ['\n']) ++ splitlines (fileText docs) := by
  rw [splitlines, universalNewlines_fileText, splitlines, universalNewlines_fileText, fileText,
    List.map_cons, unlines_cons, lines_append rfl]
  rfl

theorem countP_line_of_unbroken {doc : Json F} (h : Unbroken doc) :
    (lines isLineBoundary (dumps .default doc ++ ['\n'])).countP notBlank = 1 := by
  rw [lines_terminated h rfl]
  simp [lines, notBlank_of_trimmed (dumps_trimmed .default doc)]

theorem mem_of_head?_append {c : Char} {xs ys : List Char} {d : Char}
    (h : (xs ++ d :: ys).head? = some c) (hd : c ≠ d) : c ∈ xs := by
  cases xs with
  | nil =>
    cases h
    exact (hd rfl).elim
  | cons x xs =>
    cases h
    exact .head _

theorem mem_of_getLast?_append {c : Char} {xs ys : List Char} {d : Char}
    (h : (xs ++ d :: ys).getLast? = some c) (hd : c ≠ d) : c ∈ ys := by
  rw [List.getLast?_append_of_ne_nil _ (by simp)] at h
  cases ys with
  | nil =>
    cases h
    exact (hd rfl).elim
  | cons y ys =>
    rw [List.getLast?_cons_cons] at h
    exact List.mem_of_getLast? h

/-- A document with a line boundary inside it counts as two lines at least. -/
theorem countP_line_of_broken {doc : Json F} (h : ¬ Unbroken doc) :
    2 ≤ (lines isLineBoundary (dumps .default doc ++ ['\n'])).countP notBlank := by
  simp only [Unbroken, not_forall] at h
  obtain ⟨b, hb, hn⟩ := h
  rw [Bool.not_eq_false] at hn
  obtain ⟨c, hc, hsc, d, hd, hsd⟩ := dumps_trimmed .default doc
  obtain ⟨xs, ys, he⟩ := List.append_of_mem hb
  have hne {e : Char} (hs : isSpace e = false) : e ≠ b := by
    rintro rfl
    rw [isSpace_of_isLineBoundary hn] at hs
    cases hs
  rw [he] at hc hd
  have h₁ := countP_notBlank_pos (List.mem_append_left [b] (mem_of_head?_append hc (hne hsc))) hsc
  have h₂ := countP_notBlank_pos
    (List.mem_append_left ['\n'] (mem_of_getLast?_append hd (hne hsd))) hsd
  rw [he, List.append_assoc, List.cons_append, lines_append hn, List.countP_append]
  omega

theorem count_fileText_ge (docs : List (Json F)) : docs.length ≤ count (fileText docs) := by
  induction docs with
  | nil => exact Nat.zero_le _
  | cons doc docs ih =>
    rw [count] at ih ⊢
    rw [splitlines_fileText_cons, List.countP_append, List.length_cons]
    by_cases h : Unbroken doc
    · rw [countP_line_of_unbroken h]
      omega
    · have h₂ := countP_line_of_broken h
      omega

/-- `count` is the number of documents exactly when none of them has a line boundary inside. -/
theorem count_fileText_eq_iff {docs : List (Json F)} :
    count (fileText docs) = docs.length ↔ ∀ doc ∈ docs, Unbroken doc := by
  induction docs with
  | nil => simp [fileText, count, splitlines, universalNewlines, lines]
  | cons doc docs ih =>
    have hge := count_fileText_ge docs
    rw [count] at ih hge ⊢
    rw [splitlines_fileText_cons, List.countP_append, List.length_cons, List.forall_mem_cons]
    by_cases h : Unbroken doc
    · rw [countP_line_of_unbroken h, ← ih]
      simp only [h, true_and]
      omega
    · have h₂ := countP_line_of_broken h
      simp only [h, false_and, iff_false]
      omega

theorem strip_fileText_concat (docs : List (Json F)) (doc : Json F) :
    strip (fileText (docs ++ [doc])) = fileText docs ++ dumps .default doc := by
  obtain ⟨d, hd, hsd⟩ : ∃ d, (fileText docs ++ dumps .default doc).getLast? = some d ∧
      isSpace d = false := by
    obtain ⟨_, _, _, d, hd, hsd⟩ := dumps_trimmed .default doc
    have hne := (dumps_trimmed .default doc).ne_nil
    exact ⟨d, by rw [List.getLast?_append_of_ne_nil _ hne, hd], hsd⟩
  obtain ⟨c, hc, hsc⟩ : ∃ c, (fileText docs ++ dumps .default doc).head? = some c ∧
      isSpace c = false := by
    cases docs with
    | nil =>
      obtain ⟨c, hc, hsc, -⟩ := dumps_trimmed .default doc
      exact ⟨c, hc, hsc⟩
    | cons e docs =>
      obtain ⟨c, hc, hsc, -⟩ := dumps_trimmed .default e
      refine ⟨c, ?_, hsc⟩
      rw [fileText, List.map_cons, unlines_cons, List.append_assoc,
        List.head?_append, hc, Option.some_or]
  have ht := trim_of_trimmed (w := []) (v := ['\n']) ⟨c, hc, hsc, d, hd, hsd⟩ (by simp)
    (forall_mem_of_all (by decide))
  rw [List.nil_append, List.append_assoc, ← fileText_concat] at ht
  exact ht

/-- The head of a written file is its last document, unless a line boundary splits it. -/
theorem readHead_fileText_concat (docs : List (Json F)) {doc : Json F} (h : Unbroken doc) :
    readHead (fileText (docs ++ [doc])) = some doc.build := by
  have hne := (dumps_trimmed .default doc).ne_nil
  have hl : (lines isLineBoundary (fileText docs ++ dumps .default doc)).getLast? =
      some (dumps .default doc) := by
    rcases List.eq_nil_or_concat' docs with rfl | ⟨es, e, rfl⟩
    · rw [show fileText ([] : List (Json F)) = [] from rfl, List.nil_append,
        lines_unterminated h hne]
      rfl
    · rw [fileText_concat, List.append_assoc, List.append_assoc, List.singleton_append,
        ← List.append_assoc, lines_append rfl, lines_unterminated h hne, List.getLast?_concat]
  have hcr : '\r' ∉ fileText docs ++ dumps .default doc := by
    intro hm
    have hu := cr_not_mem_universalNewlines (fileText (docs ++ [doc]))
    rw [universalNewlines_fileText, fileText_concat, ← List.append_assoc] at hu
    exact hu (List.mem_append_left _ hm)
  rw [readHead, universalNewlines_fileText, strip_fileText_concat, splitlines,
    universalNewlines_of_no_cr hcr, hl, Option.bind_some, loads_dumps]

theorem not_boundary_of_numberChar {c : Char} (h : isNumberChar c = true) :
    isLineBoundary c = false := by
  rw [Bool.eq_false_iff]
  intro hb
  have hs := isSpace_numberChar h
  rw [isSpace_of_isLineBoundary hb] at hs
  cases hs

theorem unbroken_int (n : Int) : Unbroken (F := F) (.int n) := fun _ hc =>
  not_boundary_of_numberChar (intLiteral_numberChars (intText_literal n) _ hc)

theorem unbroken_float (x : F) : Unbroken (.float (.finite x)) := fun _ hc =>
  not_boundary_of_numberChar (floatLiteral_numberChars (FloatText.repr_literal x) _ hc)

/-- Escaping brings no line boundary into a string. -/
theorem not_boundary_escapeChar {c : Char} (h : isLineBoundary c = false) :
    ∀ d ∈ escapeChar c, isLineBoundary d = false := by
  have hd : ∀ n, n < 16 → isLineBoundary (Nat.digitChar n) = false := by decide
  unfold escapeChar
  split_ifs with h₁ h₂ h₃ h₄ h₅ h₆ h₇ h₈
  · exact forall_mem_of_all (by decide)
  · exact forall_mem_of_all (by decide)
  · exact forall_mem_of_all (by decide)
  · exact forall_mem_of_all (by decide)
  · exact forall_mem_of_all (by decide)
  · exact forall_mem_of_all (by decide)
  · exact forall_mem_of_all (by decide)
  · intro d hm
    simp only [List.mem_cons, List.not_mem_nil, or_false] at hm
    rcases hm with rfl | rfl | rfl | rfl | rfl | rfl
    · decide
    · decide
    · decide
    · decide
    · exact hd _ (by omega)
    · exact hd _ (by omega)
  · intro d hm
    rw [List.mem_singleton.1 hm]
    exact h

theorem not_boundary_stringText {s : String} (h : ∀ c ∈ s.toList, isLineBoundary c = false) :
    ∀ c ∈ stringText s, isLineBoundary c = false := by
  intro c hc
  simp only [stringText, List.mem_cons, List.mem_append, List.mem_flatMap, List.not_mem_nil,
    or_false] at hc
  rcases hc with rfl | ⟨d, hd, hc⟩ | rfl
  · decide
  · exact not_boundary_escapeChar (h d hd) c hc
  · decide

theorem unbroken_str {s : String} (h : ∀ c ∈ s.toList, isLineBoundary c = false) :
    Unbroken (F := F) (.str s) :=
  not_boundary_stringText h

theorem not_boundary_hexDigit {c : Char}
    (h : c.isDigit = true ∨ ('a' ≤ c ∧ c ≤ 'f') ∨ c = '-') : isLineBoundary c = false := by
  rw [Bool.eq_false_iff]
  intro hb
  simp only [isLineBoundary, List.mem_cons, List.not_mem_nil, or_false, decide_eq_true_eq] at hb
  rcases hb with rfl | rfl | rfl | rfl | rfl | rfl | rfl | rfl | rfl | rfl <;>
    · revert h
      decide

theorem unbroken_hex (bs : List UInt8) : Unbroken (F := F) (.str (hex bs)) :=
  unbroken_str fun c hc => not_boundary_hexDigit ((hex_digits bs c hc).imp_right .inl)

theorem unbroken_dict {ms : List (String × Json F)}
    (hk : ∀ p ∈ ms, ∀ c ∈ stringText p.1, isLineBoundary c = false)
    (hv : ∀ p ∈ ms, Unbroken p.2) : Unbroken (.dict ms) := by
  have hpun : ∀ c ∈ punctuation, isLineBoundary c = false := forall_mem_of_all (by decide)
  intro c hc
  rcases of_mem_dumps_dict hc with hp | ⟨p, hp, hc | hc⟩
  · exact hpun c hp
  · exact hk p hp c hc
  · exact hv p hp c hc

theorem Unbroken.of_mem {ms : List (String × Json F)} {p : String × Json F}
    (h : Unbroken (.dict ms)) (hp : p ∈ ms) : Unbroken p.2 := fun c hc =>
  h c (mem_dumps_dict hp hc)

end
end Obase.LoopEventStore
