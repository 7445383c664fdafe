import Obase.Json.Documents
import Obase.Stripped

namespace Obase.Text
set_option autoImplicit true
open Json

/-- A line at the end of a text whose last line is ended is a line more. -/
theorem lines_append_line {p : Char → Bool} {cs l : List Char} {b : Char} (hb : p b = true)
    (hl : ∀ c ∈ l, p c = false) (h : ∀ c, cs.getLast? = some c → p c = true) :
    lines p (cs ++ (l ++ [b])) = lines p cs ++ [l] := by
  have hline : lines p (l ++ [b]) = [l] := lines_terminated hl hb []
  rcases List.eq_nil_or_concat' cs with rfl | ⟨ds, c, rfl⟩
  · exact hline
  · have hc := h c List.getLast?_concat
    rw [List.append_assoc, List.singleton_append, lines_append hc, hline]

/-- After a character that ends no line, what ends the last line adds none. -/
theorem length_lines_append_line {p : Char → Bool} {cs l : List Char} {b c : Char}
    (hb : p b = true) (hl : ∀ c ∈ l, p c = false) (hc : p c = false) :
    (lines p (cs ++ [c] ++ (l ++ [b]))).length = (lines p (cs ++ [c])).length := by
  induction cs with
  | nil =>
    have h := lines_terminated (l := c :: l) (List.forall_mem_cons.2 ⟨hc, hl⟩) hb []
    have hs : lines p [c] = [[c]] :=
      lines_unterminated (List.forall_mem_singleton.2 hc) (List.cons_ne_nil c [])
    change (lines p (c :: l ++ b :: [])).length = (lines p [c]).length
    rw [h, hs]
    rfl
  | cons d cs ih =>
    rw [List.cons_append, List.cons_append, lines, lines]
    split
    · exact congrArg Nat.succ ih
    · cases h : lines p (cs ++ [c] ++ (l ++ [b])) with
      | nil =>
        rw [h] at ih
        cases h' : lines p (cs ++ [c]) with
        | nil => rfl
        | cons =>
          rw [h'] at ih
          cases ih
      | cons m ms =>
        rw [h] at ih
        cases h' : lines p (cs ++ [c]) with
        | nil =>
          rw [h'] at ih
          cases ih
        | cons n ns =>
          rw [h'] at ih
          exact ih

theorem notBlank_append_false (cs ds : List Char) :
    notBlank (cs ++ ds) = false ↔ notBlank cs = false ∧ notBlank ds = false := by
  rw [notBlank_eq_false_iff, notBlank_eq_false_iff, notBlank_eq_false_iff,
    List.forall_mem_append]

namespace LastLine

/-- The blanks before a line's first other character. -/
theorem line_eq (l : List Char) :
    ∃ v, l = l.takeWhile isSpace ++ (Text.strip l ++ v) ∧ Text.notBlank v = false := by
  refine ⟨(l.dropWhile isSpace).rtakeWhile isSpace, ?_, ?_⟩
  · rw [Text.strip, trim, List.rdropWhile_append_rtakeWhile, List.takeWhile_append_dropWhile]
  · exact notBlank_eq_false_iff.2 fun c hc => List.mem_rtakeWhile_imp hc

end LastLine

namespace LastLine

end LastLine
end Obase.Text
