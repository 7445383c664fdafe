import Obase.Stripped

namespace Obase.Text
set_option autoImplicit true

theorem head?_strip (cs : List Char) :
    (strip cs).head? = cs.find? fun c => !isSpace c := by
  obtain ⟨w, w', he, hw, hw'⟩ := trim_split isSpace cs
  have hnone : w.find? (fun c => !isSpace c) = none := by
    rw [List.find?_eq_none]
    intro c hc
    rw [hw c hc]
    exact fun h => nomatch h
  conv_rhs => rw [he, List.find?_append, hnone, Option.none_or]
  by_cases hs : trim isSpace cs = []
  · have hnone' : w'.find? (fun c => !isSpace c) = none := by
      rw [List.find?_eq_none]
      intro c hc
      rw [hw' c hc]
      exact fun h => nomatch h
    rw [strip, hs, List.nil_append, hnone']
    rfl
  · obtain ⟨c, hc, hp, -⟩ := trim_trimmed hs
    obtain ⟨l, hl⟩ := List.head?_eq_some_iff.1 hc
    rw [strip, hl, List.cons_append, List.find?_cons_of_pos (by rw [hp]; rfl)]
    rfl

/-- What is read off a line whatever blanks are around it, and off no blank line. -/
structure IgnoresBlanks (f : List Char → Option α) : Prop where
  strip : ∀ l, f (strip l) = f l
  nil : f [] = none

/-- What is read off the lines of a text. -/
def pieces (f : List Char → Option α) (cs : List Char) : List α :=
  (lines isLineBoundary cs).filterMap f

@[simp] theorem pieces_nil (f : List Char → Option α) : pieces f [] = [] := rfl

theorem pieces_line {f : List Char → Option α} (hf : f [] = none) {l : List Char}
    (hl : ∀ c ∈ l, isLineBoundary c = false) : pieces f l = (f l).toList := by
  by_cases h₀ : l = []
  · rw [h₀, hf]
    rfl
  · rw [pieces, lines_unterminated hl h₀, List.filterMap_cons]
    cases f l <;> rfl

theorem pieces_terminated (f : List Char → Option α) {l : List Char} {b : Char}
    (hl : ∀ c ∈ l, isLineBoundary c = false) (hb : isLineBoundary b = true) (cs : List Char) :
    pieces f (l ++ b :: cs) = (f l).toList ++ pieces f cs := by
  rw [pieces, lines_terminated hl hb, List.filterMap_cons]
  cases f l <;> rfl

/-- Induction on the lines of a text. -/
theorem lines_induction {P : List Char → Prop}
    (last : ∀ l, (∀ c ∈ l, isLineBoundary c = false) → P l)
    (line : ∀ l b cs, (∀ c ∈ l, isLineBoundary c = false) → isLineBoundary b = true →
      (∀ ds, ds.length ≤ cs.length → P ds) → P (l ++ b :: cs)) (cs : List Char) : P cs := by
  induction hlen : cs.length using Nat.strongRecOn generalizing cs with
  | ind n ih =>
    by_cases hb : ∀ c ∈ cs, isLineBoundary c = false
    · exact last cs hb
    · obtain ⟨x, b, y, rfl, hx, hb⟩ := exists_first_boundary hb
      rw [List.length_append, List.length_cons] at hlen
      exact line x b y hx hb fun ds hd => ih ds.length (by omega) ds rfl

namespace IgnoresBlanks
variable {f : List Char → Option α}

theorem cons (h : IgnoresBlanks f) {c : Char} (hc : isSpace c = true) (l : List Char) :
    f (c :: l) = f l := by
  rw [← h.strip (c :: l), ← h.strip l, Text.strip, trim_cons hc]
  rfl

theorem concat (h : IgnoresBlanks f) {c : Char} (hc : isSpace c = true) (l : List Char) :
    f (l ++ [c]) = f l := by
  rw [← h.strip (l ++ [c]), ← h.strip l, Text.strip, trim_concat hc]
  rfl

theorem pieces_cons (h : IgnoresBlanks f) {c : Char} (hc : isSpace c = true) (cs : List Char) :
    pieces f (c :: cs) = pieces f cs := by
  rw [pieces, lines]
  split
  · rw [List.filterMap_cons, h.nil]
    rfl
  · rw [pieces]
    cases lines isLineBoundary cs with
    | nil =>
      have he : f [c] = none := (h.cons hc []).trans h.nil
      rw [List.filterMap_cons, he]
    | cons l ls => rw [List.filterMap_cons, List.filterMap_cons, h.cons hc]

theorem pieces_concat (h : IgnoresBlanks f) {c : Char} (hc : isSpace c = true) (cs : List Char) :
    pieces f (cs ++ [c]) = pieces f cs := by
  induction cs using lines_induction with
  | last l hl =>
    rw [pieces_line h.nil hl]
    by_cases hb : isLineBoundary c = true
    · rw [pieces_terminated f hl hb, pieces_nil, List.append_nil]
    · rw [pieces_line h.nil, h.concat hc]
      exact List.forall_mem_append.2 ⟨hl, List.forall_mem_singleton.2 (Bool.eq_false_iff.2 hb)⟩
  | line l b cs hl hb ih =>
    rw [List.append_assoc, List.cons_append, pieces_terminated f hl hb,
      pieces_terminated f hl hb, ih cs (Nat.le_refl _)]

theorem pieces_append (h : IgnoresBlanks f) {w v : List Char} (hw : ∀ c ∈ w, isSpace c = true)
    (hv : ∀ c ∈ v, isSpace c = true) (cs : List Char) :
    pieces f (w ++ (cs ++ v)) = pieces f cs := by
  induction w with
  | nil =>
    rw [List.nil_append]
    induction v using List.reverseRecOn with
    | nil => rw [List.append_nil]
    | append_singleton v c ih =>
      rw [← List.append_assoc, h.pieces_concat (hv c (by simp))]
      exact ih fun c hc => hv c (by simp [hc])
  | cons c w ih =>
    rw [List.cons_append, h.pieces_cons (hw c (.head _))]
    exact ih fun c hc => hw c (.tail _ hc)

theorem pieces_strip (h : IgnoresBlanks f) (cs : List Char) :
    pieces f (Text.strip cs) = pieces f cs := by
  obtain ⟨w, w', he, hw, hw'⟩ := trim_split isSpace cs
  conv_rhs => rw [he, h.pieces_append hw hw']
  rfl

theorem pieces_break (h : IgnoresBlanks f) {b : Char} (hb : isLineBoundary b = true)
    (cs ds : List Char) : pieces f (cs ++ b :: ds) = pieces f cs ++ pieces f ds := by
  rw [pieces, lines_append hb, List.filterMap_append, ← pieces, ← pieces,
    h.pieces_concat (isSpace_of_isLineBoundary hb)]

/-- The lines of `str.splitlines` and those at each line boundary differ in blank ones only. -/
theorem filterMap_splitlines (h : IgnoresBlanks f) (cs : List Char) :
    (splitlines cs).filterMap f = pieces f cs := by
  change pieces f (universalNewlines cs) = pieces f cs
  induction cs using lines_induction with
  | last l hl =>
    have hr : '\r' ∉ l := fun hm => nomatch hl _ hm
    rw [universalNewlines_of_no_cr hr]
  | line l b cs hl hb ih =>
    have hr : '\r' ∉ l := fun hm => nomatch hl _ hm
    have hn : isLineBoundary '\n' = true := rfl
    rw [universalNewlines_append_of_no_cr hr, pieces_terminated f hl hb]
    by_cases hcr : b = '\r'
    · subst hcr
      by_cases hlf : ∃ ds, cs = '\n' :: ds
      · obtain ⟨ds, rfl⟩ := hlf
        rw [universalNewlines, pieces_terminated f hl hn, ih ds (Nat.le_succ _),
          h.pieces_cons rfl]
      · rw [universalNewlines, pieces_terminated f hl hn, ih cs (Nat.le_refl _)]
        exact fun ds he => hlf ⟨ds, he⟩
    · rw [universalNewlines, pieces_terminated f hl hb, ih cs (Nat.le_refl _)]
      · exact fun _ he _ => hcr he
      · exact fun he => hcr he

end IgnoresBlanks
end Obase.Text

namespace Obase.EventStream
set_option autoImplicit true
open Text

/-- A text within a line. -/
def Content := {cs : List Char // '\n' ∉ cs ∧ '\r' ∉ cs}

inductive Ending where
  | lf
  | crlf

def Ending.text : Ending → List Char
  | .lf => ['\n']
  | .crlf => ['\r', '\n']

/-- A line of an event: a field, or a comment. -/
inductive Line where
  | data (value : Content)
  | event (value : Content)
  | id (value : Content)
  | comment (text : Content)

def Line.text : Line → List Char
  | .data value => "data:".toList ++ value.1
  | .event value => "event:".toList ++ value.1
  | .id value => "id:".toList ++ value.1
  | .comment text => ':' :: text.1

/-- A space after the colon of a field does not belong to its value. -/
def fieldValue : List Char → List Char
  | ' ' :: cs => cs
  | cs => cs

def Line.data? : Line → Option (List Char)
  | .data value => some (fieldValue value.1)
  | _ => none

/-- An event: its lines, and the end of the blank line that dispatches it. -/
structure Event where
  lines : List (Line × Ending)
  blank : Ending

def Event.text (e : Event) : List Char :=
  e.lines.flatMap (fun l => l.1.text ++ l.2.text) ++ e.blank.text

def Event.data (e : Event) : List (List Char) := e.lines.filterMap fun l => l.1.data?

def text (es : List Event) : List Char := es.flatMap Event.text

def lines (es : List Event) : List Line := es.flatMap fun e => e.lines.map Prod.fst

/-- The data of the last event that has any. -/
def lastData (es : List Event) : List (List Char) :=
  ((es.map Event.data).filter fun ds => !ds.isEmpty).getLastD []

/-- The last message of a stream: the data of its event, joined by line feeds. -/
def lastMessage (es : List Event) : Option (List Char) :=
  if (lastData es).isEmpty then none else some (['\n'].intercalate (lastData es))

/-- The last data line and the lines after it. -/
def sinceData : List Line → List Line
  | [] => []
  | l :: ls =>
    if (sinceData ls).isEmpty then if l.data?.isSome then l :: ls else [] else sinceData ls

theorem sinceData_of_none {ls : List Line} (h : ∀ l ∈ ls, l.data? = none) : sinceData ls = [] := by
  induction ls with
  | nil => rfl
  | cons l ls ih =>
    rw [List.forall_mem_cons] at h
    rw [sinceData, ih h.2, h.1]
    rfl

theorem sinceData_append (pre : List Line) (value : Content) {post : List Line}
    (h : ∀ l ∈ post, l.data? = none) :
    sinceData (pre ++ .data value :: post) = .data value :: post := by
  induction pre with
  | nil =>
    rw [List.nil_append, sinceData, sinceData_of_none h]
    rfl
  | cons l pre ih =>
    rw [List.cons_append, sinceData, ih]
    rfl

/-- A list of lines with data, around the last of its data lines. -/
theorem exists_last_data {ls : List Line} (h : ls.filterMap Line.data? ≠ []) :
    ∃ pre value post, ls = pre ++ .data value :: post ∧ (∀ l ∈ post, l.data? = none) ∧
      ls.filterMap Line.data? = pre.filterMap Line.data? ++ [fieldValue value.1] := by
  induction ls using List.reverseRecOn with
  | nil => exact (h rfl).elim
  | append_singleton ls l ih =>
    cases hl : l.data? with
    | none =>
      have he : (ls ++ [l]).filterMap Line.data? = ls.filterMap Line.data? := by
        rw [List.filterMap_append, List.filterMap_cons, hl, List.filterMap_nil, List.append_nil]
      rw [he] at h
      obtain ⟨pre, value, post, rfl, hpost, hdata⟩ := ih h
      refine ⟨pre, value, post ++ [l], by simp, ?_, he.trans hdata⟩
      exact List.forall_mem_append.2 ⟨hpost, List.forall_mem_singleton.2 hl⟩
    | some d =>
      cases l with
      | data value =>
        cases hl
        refine ⟨ls, value, [], rfl, fun _ hm => (nomatch hm), ?_⟩
        rw [List.filterMap_append]
        rfl
      | _ => cases hl

theorem Event.data_eq (e : Event) : e.data = (e.lines.map Prod.fst).filterMap Line.data? := by
  rw [Event.data, List.filterMap_map]
  rfl

/-- The last message of a stream ends with the last of its data lines. -/
theorem exists_lastData {es : List Event} (h : lastData es ≠ []) :
    ∃ pre value post, lines es = pre ++ .data value :: post ∧ (∀ l ∈ post, l.data? = none) ∧
      ∃ ds, lastData es = ds ++ [fieldValue value.1] := by
  induction es using List.reverseRecOn with
  | nil => exact (h rfl).elim
  | append_singleton es e ih =>
    have hlines : lines (es ++ [e]) = lines es ++ e.lines.map Prod.fst := by
      rw [lines, List.flatMap_append, List.flatMap_singleton, ← lines]
    by_cases he : e.data = []
    · have hlast : lastData (es ++ [e]) = lastData es := by
        rw [lastData, List.map_append, List.filter_append, List.map_singleton, he]
        exact congrArg (List.getLastD · []) (List.append_nil _)
      rw [hlast] at h ⊢
      obtain ⟨pre, value, post, hpre, hpost, hdata⟩ := ih h
      refine ⟨pre, value, post ++ e.lines.map Prod.fst, ?_, ?_, hdata⟩
      · rw [hlines, hpre, List.append_assoc, List.cons_append]
      · rw [Event.data_eq, List.filterMap_eq_nil_iff] at he
        exact List.forall_mem_append.2 ⟨hpost, he⟩
    · have hlast : lastData (es ++ [e]) = e.data := by
        have hb : [e.data].filter (fun ds => !ds.isEmpty) = [e.data] := by
          rw [List.filter_eq_self, List.forall_mem_singleton, Bool.not_eq_true',
            List.isEmpty_eq_false_iff]
          exact he
        rw [lastData, List.map_append, List.filter_append, List.map_singleton, hb,
          List.getLastD_concat]
      rw [Event.data_eq] at he
      obtain ⟨pre, value, post, hpre, hpost, hdata⟩ := exists_last_data he
      refine ⟨lines es ++ pre, value, post, ?_, hpost, pre.filterMap Line.data?, ?_⟩
      · rw [hlines, hpre, List.append_assoc]
      · rw [hlast, Event.data_eq, hdata]

section
variable {f : List Char → Option α} (hf : IgnoresBlanks f)
include hf

theorem pieces_ended (e : Ending) (cs ds : List Char) :
    pieces f (cs ++ (e.text ++ ds)) = pieces f cs ++ pieces f ds := by
  cases e with
  | lf => exact hf.pieces_break rfl cs ds
  | crlf =>
    change pieces f (cs ++ '\r' :: ('\n' :: ds)) = _
    rw [hf.pieces_break rfl, hf.pieces_cons rfl]

/-- What is read off a stream is read off its lines. -/
theorem pieces_text (es : List Event) :
    pieces f (text es) = (lines es).flatMap fun l => pieces f l.text := by
  have hlines (ls : List (Line × Ending)) (ds : List Char) :
      pieces f (ls.flatMap (fun l => l.1.text ++ l.2.text) ++ ds) =
        (ls.map Prod.fst).flatMap (fun l => pieces f l.text) ++ pieces f ds := by
    induction ls with
    | nil => rfl
    | cons l ls ih =>
      rw [List.flatMap_cons, List.append_assoc, List.append_assoc, pieces_ended hf, ih,
        List.map_cons, List.flatMap_cons, List.append_assoc]
  induction es with
  | nil => rfl
  | cons e es ih =>
    rw [text, List.flatMap_cons, Event.text, List.append_assoc, hlines, lines, List.flatMap_cons,
      List.flatMap_append]
    have hb := pieces_ended hf e.blank [] (text es)
    rw [List.nil_append, pieces_nil, List.nil_append] at hb
    exact congrArg _ (hb.trans ih)

end

/-- A stream begins, after blanks, with the name of a field or with a comment. -/
theorem head_strip_text {es : List Event} {c : Char} (h : (strip (text es)).head? = some c) :
    c ∈ ['d', 'e', 'i', ':'] := by
  rw [head?_strip] at h
  have hend (e : Ending) (cs : List Char) :
      (e.text ++ cs).find? (fun c => !isSpace c) = cs.find? fun c => !isSpace c := by
    cases e with
    | lf => rfl
    | crlf => rfl
  have hline (l : Line) (cs : List Char) :
      ∃ c ∈ ['d', 'e', 'i', ':'], (l.text ++ cs).find? (fun c => !isSpace c) = some c := by
    cases l with
    | data value => exact ⟨'d', by decide, rfl⟩
    | event value => exact ⟨'e', by decide, rfl⟩
    | id value => exact ⟨'i', by decide, rfl⟩
    | comment text => exact ⟨':', by decide, rfl⟩
  induction es with
  | nil => cases h
  | cons e es ih =>
    rw [text, List.flatMap_cons, Event.text, List.append_assoc] at h
    cases hl : e.lines with
    | nil =>
      rw [hl, List.flatMap_nil, List.nil_append, hend] at h
      exact ih h
    | cons l ls =>
      rw [hl, List.flatMap_cons, List.append_assoc, List.append_assoc] at h
      obtain ⟨d, hd, he⟩ := hline l.1 (l.2.text ++ (ls.flatMap (fun l => l.1.text ++ l.2.text) ++
        (e.blank.text ++ es.flatMap Event.text)))
      rw [he] at h
      cases h
      exact hd

end Obase.EventStream
