import Obase.KnowledgeStore.Store
import Obase.Separated
import Obase.Stripped

namespace Obase.KnowledgeStore
set_option autoImplicit true
open Text

/-- The fields that the lines of a text give. -/
def entries (cs : List Char) : List (String × Field) :=
  (lines isLineBoundary cs).filterMap parseLine

/-- The text of a file with some lines between its delimiters. -/
def frame (ls : List (List Char)) (body : List Char) : List Char :=
  delimiter ++ ('\n' :: unlines ls ++ (delimiter ++ '\n' :: '\n' :: (body ++ ['\n'])))

theorem intercalate_newline (ls : List (List Char)) (cs : List Char) :
    ['\n'].intercalate (ls ++ [cs]) = unlines ls ++ cs := by
  induction ls with
  | nil => exact (Separated.intercalate_cons '\n' cs []).trans (List.append_nil cs)
  | cons l ls ih =>
    obtain ⟨m, ms, he⟩ := List.exists_cons_of_ne_nil (l := ls ++ [cs]) (by simp)
    rw [List.cons_append, he, List.intercalate_cons_cons, ← he, ih, unlines_cons]
    simp

theorem serializeFrontmatter_eq (U : Casing) (printable : Char → Bool) (fm : FrontMatter)
    (body : List Char) : serializeFrontmatter U printable fm body =
      (frontLines U printable fm).map fun ls => frame ls (strip body) := by
  rw [serializeFrontmatter]
  congr 1
  funext ls
  have hsplit : [delimiter] ++ ls ++ [delimiter, [], strip body] =
      ([delimiter] ++ ls ++ [delimiter, []]) ++ [strip body] := by simp
  rw [hsplit, intercalate_newline, unlines_append, unlines_append, frame]
  simp

theorem parseLine_eq {k : List Char} (hk : ':' ∉ k) (v : List Char) :
    parseLine (k ++ ':' :: v) = some (String.ofList (strip k), parseValue (strip v)) := by
  rw [parseLine, partition_char hk]
  rfl

theorem parseLine_eq_none {l : List Char} (h : ':' ∉ l) : parseLine l = none := by
  rw [parseLine, Option.map_eq_none_iff, partition_eq_none (List.cons_ne_nil _ _)]
  exact fun hi => h (hi.subset (.head _))

/-- Spaces at the ends of a line do not matter. -/
theorem parseLine_cons {c : Char} (h : isSpace c = true) (l : List Char) :
    parseLine (c :: l) = parseLine l := by
  have hc : c ≠ ':' := by
    rintro rfl
    exact absurd h (by decide)
  by_cases hl : ':' ∈ l
  · obtain ⟨k, v, rfl, hk⟩ := List.eq_append_cons_of_mem hl
    rw [← List.cons_append, parseLine_eq hk, parseLine_eq fun hm => (List.mem_cons.1 hm).elim
      (fun he => hc he.symm) hk]
    congr 3
    exact trim_cons h k
  · rw [parseLine_eq_none hl, parseLine_eq_none fun hm => (List.mem_cons.1 hm).elim
      (fun he => hc he.symm) hl]

theorem parseLine_concat {c : Char} (h : isSpace c = true) (l : List Char) :
    parseLine (l ++ [c]) = parseLine l := by
  have hc : ':' ∉ [c] := by
    intro hm
    rw [← List.mem_singleton.1 hm] at h
    exact absurd h (by decide)
  by_cases hl : ':' ∈ l
  · obtain ⟨k, v, rfl, hk⟩ := List.eq_append_cons_of_mem hl
    rw [List.append_assoc, List.cons_append, parseLine_eq hk, parseLine_eq hk]
    congr 3
    exact trim_concat h v
  · rw [parseLine_eq_none hl, parseLine_eq_none fun hm => (List.mem_append.1 hm).elim hl hc]

theorem entries_cons {c : Char} (h : isSpace c = true) (cs : List Char) :
    entries (c :: cs) = entries cs := by
  have hnil : parseLine [] = none := rfl
  rw [entries, entries, lines]
  split
  · exact List.filterMap_cons_none hnil
  · cases lines isLineBoundary cs with
    | nil => exact List.filterMap_cons_none ((parseLine_cons h []).trans hnil)
    | cons l ls =>
      dsimp only
      rw [List.filterMap_cons, List.filterMap_cons, parseLine_cons h]

/-- What a character that ends no line adds to the last of them. -/
theorem lines_last {p : Char → Bool} {c : Char} (hc : p c = false) (cs : List Char) :
    lines p (cs ++ [c]) = lines p cs ++ [[c]] ∨
      ∃ ls l, lines p cs = ls ++ [l] ∧ lines p (cs ++ [c]) = ls ++ [l ++ [c]] := by
  induction cs with
  | nil => exact .inl (lines_unterminated (List.forall_mem_singleton.2 hc) (List.cons_ne_nil _ _))
  | cons d cs ih =>
    rw [List.cons_append, lines, lines]
    by_cases hd : p d = true
    · rw [if_pos hd, if_pos hd]
      obtain ih | ⟨ls, l, hl, ih⟩ := ih
      · exact .inl (by rw [ih]; rfl)
      · exact .inr ⟨[] :: ls, l, by rw [hl]; rfl, by rw [ih]; rfl⟩
    · rw [if_neg hd, if_neg hd]
      obtain ih | ⟨ls, l, hl, ih⟩ := ih
      · rw [ih]
        cases hls : lines p cs with
        | nil => exact .inr ⟨[], [d], rfl, rfl⟩
        | cons l ls => exact .inl rfl
      · rw [ih, hl]
        cases ls with
        | nil => exact .inr ⟨[], d :: l, rfl, rfl⟩
        | cons l' ls => exact .inr ⟨(d :: l') :: ls, l, rfl, rfl⟩

theorem entries_concat {c : Char} (h : isSpace c = true) (cs : List Char) :
    entries (cs ++ [c]) = entries cs := by
  have hnone : parseLine [c] = none := parseLine_cons h []
  rw [entries, entries]
  by_cases hb : isLineBoundary c = true
  · obtain he | he := lines_concat hb cs
    · rw [he]
    · rw [he, List.filterMap_append]
      exact List.append_nil _
  · obtain he | ⟨ls, l, hl, he⟩ := lines_last (Bool.eq_false_iff.2 hb) cs
    · rw [he, List.filterMap_append, List.filterMap_cons_none hnone]
      exact List.append_nil _
    · rw [he, hl, List.filterMap_append, List.filterMap_append, List.filterMap_cons,
        List.filterMap_cons, parseLine_concat h]

theorem entries_append {w v : List Char} (hw : ∀ c ∈ w, isSpace c = true)
    (hv : ∀ c ∈ v, isSpace c = true) (cs : List Char) : entries (w ++ (cs ++ v)) = entries cs := by
  induction w with
  | nil =>
    induction v using List.reverseRecOn with
    | nil => rw [List.append_nil, List.nil_append]
    | append_singleton v c ih =>
      rw [List.forall_mem_append, List.forall_mem_singleton] at hv
      rw [List.nil_append] at ih ⊢
      rw [← List.append_assoc, entries_concat hv.2, ih hv.1]
  | cons c w ih =>
    rw [List.forall_mem_cons] at hw
    rw [List.cons_append, entries_cons hw.1, ih hw.2]

theorem entries_strip (cs : List Char) : entries (strip cs) = entries cs := by
  obtain ⟨w, w', he, hw, hw'⟩ := trim_split isSpace cs
  conv_rhs => rw [he, entries_append hw hw']
  rfl

/-- The text begins, and not with a line feed. -/
def Begins (cs : List Char) : Prop := ∃ c, cs.head? = some c ∧ c ≠ '\n'

theorem Begins.append {cs : List Char} (h : Begins cs) (ds : List Char) : Begins (cs ++ ds) := by
  obtain ⟨c, hc, hn⟩ := h
  exact ⟨c, by rw [List.head?_append, hc]; rfl, hn⟩

theorem fieldLine_begins {name : String} (h : Begins name.toList) (cs : List Char) :
    Begins (fieldLine name cs) :=
  (h.append _).append _

theorem listLine_begins {name : String} (h : Begins name.toList) {v : Field}
    {ls : List (List Char)} (hl : listLine name v = some ls) : ∀ l ∈ ls, Begins l := by
  rw [listLine] at hl
  split at hl
  · obtain ⟨cs, -, rfl⟩ := Option.map_eq_some_iff.1 hl
    exact List.forall_mem_singleton.2 (((h.append _).append _).append _)
  · cases hl
    exact fun l hl => nomatch hl

theorem frontLines_begins {U : Casing} {printable : Char → Bool} {fm : FrontMatter}
    {ls : List (List Char)} (h : frontLines U printable fm = some ls) :
    ls ≠ [] ∧ ∀ l ∈ ls, Begins l := by
  obtain ⟨covers, hc, h⟩ := Option.bind_eq_some_iff.1 h
  obtain ⟨dependsOn, hd, h⟩ := Option.bind_eq_some_iff.1 h
  obtain ⟨rfl⟩ := Option.some.inj h
  refine ⟨by simp, ?_⟩
  have hline {name : String} {c : Char} (hn : name.toList.head? = some c) (hc : c ≠ '\n')
      (cs : List Char) : Begins (fieldLine name cs) := fieldLine_begins ⟨c, hn, hc⟩ cs
  simp only [List.forall_mem_append, List.forall_mem_cons]
  refine ⟨⟨⟨⟨⟨⟨hline rfl (by decide) _, hline rfl (by decide) _, fun _ hm => nomatch hm⟩,
    listLine_begins ⟨'c', rfl, by decide⟩ hc⟩, listLine_begins ⟨'d', rfl, by decide⟩ hd⟩,
    hline rfl (by decide) _, hline rfl (by decide) _, fun _ hm => nomatch hm⟩, ?_⟩,
    hline rfl (by decide) _, hline rfl (by decide) _, fun _ hm => nomatch hm⟩
  split
  · exact List.forall_mem_singleton.2 (hline rfl (by decide) _)
  · exact fun _ hm => nomatch hm

theorem head_unlines {ls : List (List Char)} (h : ∀ l ∈ ls, Begins l) :
    (unlines ls).head? ≠ some '\n' := by
  cases ls with
  | nil => exact fun he => nomatch he
  | cons l ls =>
    obtain ⟨c, hc, hn⟩ := h l (.head _)
    rw [unlines_cons, List.head?_append, hc]
    exact fun he => hn (Option.some.inj he)

/-- Lines that are ended give their fields one after another. -/
theorem entries_unlines {ls : List (List Char)} (h : ∀ l ∈ ls, Begins l) :
    entries (universalNewlines (unlines ls)) =
      ls.flatMap fun l => entries (universalNewlines l) := by
  have hb : isLineBoundary '\n' = true := by decide
  induction ls with
  | nil => rfl
  | cons l ls ih =>
    rw [List.forall_mem_cons] at h
    obtain ⟨ds, hds⟩ := universalNewlines_concat l
    have hl : entries (ds ++ ['\n']) = entries (universalNewlines l) := by
      rw [← hds]
      obtain he | he := universalNewlines_end l
      · rw [he, entries_concat (by decide)]
      · rw [he]
    have hsplit : unlines (l :: ls) = (l ++ ['\n']) ++ unlines ls := by
      rw [unlines_cons, List.append_assoc]
      rfl
    rw [hsplit, universalNewlines_append (head_unlines h.2), hds, List.flatMap_cons, ← ih h.2,
      ← hl, List.append_assoc, List.singleton_append, entries, lines_append hb,
      List.filterMap_append]
    rfl

theorem nl_not_mem_delimiter : '\n' ∉ delimiter := by decide

theorem delimiter_ne_nil : delimiter ≠ [] := by decide

/-- What newlines between the delimiters are translated to. -/
theorem universalNewlines_frame (ls : List (List Char)) (body : List Char) :
    universalNewlines (frame ls body) =
      delimiter ++ ('\n' :: universalNewlines (unlines ls) ++
        (delimiter ++ '\n' :: '\n' :: universalNewlines (body ++ ['\n']))) := by
  have hcr : '\r' ∉ delimiter ++ ['\n'] := by decide
  have hcr' : '\r' ∉ delimiter ++ ['\n', '\n'] := by decide
  have hhead : (delimiter ++ ['\n', '\n'] ++ (body ++ ['\n'])).head? ≠ some '\n' :=
    fun he => nomatch he
  have hframe : frame ls body = (delimiter ++ ['\n']) ++
      (unlines ls ++ (delimiter ++ ['\n', '\n'] ++ (body ++ ['\n']))) := by
    rw [frame]
    simp only [List.append_assoc, List.cons_append, List.nil_append]
  rw [hframe, universalNewlines_append_of_no_cr hcr, universalNewlines_append hhead,
    universalNewlines_append_of_no_cr hcr']
  simp only [List.append_assoc, List.cons_append, List.nil_append]

theorem partition_delimiter (cs : List Char) :
    partition delimiter (delimiter ++ cs) = some ([], cs) :=
  partition_append (l := []) delimiter_ne_nil (fun hi => absurd hi.length_le (by decide)) cs

theorem parse_delimited (cs : List Char) : parseFrontmatter (delimiter ++ cs) =
    (partition delimiter cs).map fun p =>
      (Dict.ofPairs ((splitlines (strip p.1)).filterMap parseLine), strip p.2) := by
  have hp : delimiter.isPrefixOf (delimiter ++ cs) = true :=
    List.isPrefixOf_iff_prefix.2 ⟨cs, rfl⟩
  rw [parseFrontmatter, hp, partition_delimiter]
  cases h : partition delimiter cs with
  | none => simp [h]
  | some p => simp [h]

theorem ends_newline {ls : List (List Char)} (h₀ : ls ≠ []) :
    ∃ ds, universalNewlines (unlines ls) = ds ++ ['\n'] := by
  obtain ⟨ls, l, rfl⟩ : ∃ ms l, ls = ms ++ [l] :=
    ⟨ls.dropLast, ls.getLast h₀, (List.dropLast_append_getLast h₀).symm⟩
  rw [unlines_append, unlines_cons, unlines_nil, ← List.append_assoc]
  exact universalNewlines_concat _

theorem infix_unlines {sep : List Char} (hn : '\n' ∉ sep) (hs : sep ≠ []) {ls : List (List Char)} :
    sep <:+: unlines ls ↔ ∃ l ∈ ls, sep <:+: l := by
  constructor
  · intro h
    induction ls with
    | nil => exact (hs (List.infix_nil.1 h)).elim
    | cons l ls ih =>
      rw [unlines_cons] at h
      obtain h | h := infix_append_cons hn h
      · exact ⟨l, .head _, h⟩
      · obtain ⟨m, hm, h⟩ := ih h
        exact ⟨m, .tail _ hm, h⟩
  · rintro ⟨l, hl, h⟩
    obtain ⟨as, bs, rfl⟩ := List.append_of_mem hl
    rw [unlines_append, unlines_cons]
    exact h.trans ⟨unlines as, '\n' :: unlines bs, by simp⟩

/-- A delimiter in a line stays one when newlines are translated. -/
theorem infix_universalNewlines {cs : List Char} :
    delimiter <:+: universalNewlines cs ↔ delimiter <:+: cs := by
  constructor
  · exact infix_of_universalNewlines nl_not_mem_delimiter
  · rintro ⟨x, y, rfl⟩
    have hhead : (delimiter ++ y).head? ≠ some '\n' := fun he => nomatch he
    rw [List.append_assoc, universalNewlines_append hhead,
      universalNewlines_append_of_no_cr (by decide)]
    exact ⟨universalNewlines x, universalNewlines y, List.append_assoc ..⟩

/-- A file whose lines have no delimiter in them is read back line by line. -/
theorem parse_frame {ls : List (List Char)} (h₀ : ls ≠ []) (h : ∀ l ∈ ls, Begins l)
    (hd : ∀ l ∈ ls, ¬ delimiter <:+: l) (body : List Char) :
    parseFrontmatter (universalNewlines (frame ls body)) =
      some (Dict.ofPairs (ls.flatMap fun l => entries (universalNewlines l)),
        strip (universalNewlines body)) := by
  obtain ⟨ds, hds⟩ := ends_newline h₀
  have hfree : ¬ delimiter <:+: ('\n' :: universalNewlines (unlines ls)) ++ delimiter.dropLast := by
    rw [hds]
    intro hi
    rw [← List.cons_append, List.append_assoc] at hi
    obtain hi | hi := infix_append_cons nl_not_mem_delimiter hi
    · obtain hi | hi := infix_append_cons (l := []) nl_not_mem_delimiter hi
      · exact absurd hi.length_le (by decide)
      · have hu : delimiter <:+: universalNewlines (unlines ls) :=
          hds ▸ hi.trans (List.prefix_append ..).isInfix
        obtain ⟨l, hl, hi⟩ := (infix_unlines nl_not_mem_delimiter delimiter_ne_nil).1
          (infix_universalNewlines.1 hu)
        exact hd l hl hi
    · exact absurd hi.length_le (by decide)
  have hbody : strip ('\n' :: '\n' :: universalNewlines (body ++ ['\n'])) =
      strip (universalNewlines body) := by
    rw [strip, trim_cons (by decide), trim_cons (by decide)]
    obtain he | he := universalNewlines_end body
    · rw [he, trim_concat (by decide)]
      rfl
    · rw [he]
      rfl
  have hcr : universalNewlines (strip ('\n' :: universalNewlines (unlines ls))) =
      strip ('\n' :: universalNewlines (unlines ls)) := by
    apply universalNewlines_of_no_cr
    intro hm
    obtain hm | hm := List.mem_cons.1 (mem_trim hm)
    · exact absurd hm (by decide)
    · exact cr_not_mem_universalNewlines _ hm
  rw [universalNewlines_frame, parse_delimited,
    partition_append delimiter_ne_nil hfree, Option.map_some, hbody, splitlines, hcr]
  change some (Dict.ofPairs (entries (strip _)), _) = _
  rw [entries_strip, entries_cons (by decide), entries_unlines h]

/-- A file is read back, and where a line has a delimiter in it, a part of the lines comes to the
body. -/
theorem parse_frame_body {ls : List (List Char)} (h₀ : ls ≠ []) (h : ∀ l ∈ ls, Begins l)
    (body : List Char) : ∃ fm body',
      parseFrontmatter (universalNewlines (frame ls body)) = some (fm, body') ∧
        ((∃ l ∈ ls, delimiter <:+: l) → visible body < visible body') := by
  by_cases hd : ∃ l ∈ ls, delimiter <:+: l
  · have hi : delimiter <:+: '\n' :: universalNewlines (unlines ls) :=
      (infix_universalNewlines.2
        ((infix_unlines nl_not_mem_delimiter delimiter_ne_nil).2 hd)).trans
        (List.suffix_cons ..).isInfix
    cases hp : partition delimiter ('\n' :: universalNewlines (unlines ls)) with
    | none => exact ((partition_eq_none delimiter_ne_nil).1 hp hi).elim
    | some p =>
      obtain ⟨l, r⟩ := p
      rw [universalNewlines_frame, parse_delimited, partition_append_right hp]
      refine ⟨_, _, rfl, fun _ => ?_⟩
      have hdash : visible delimiter = 3 := by decide
      have hbody : visible (universalNewlines (body ++ ['\n'])) = visible body := by
        rw [visible_universalNewlines, visible_append]
        rfl
      have hn (cs : List Char) : visible ('\n' :: cs) = visible cs :=
        List.countP_cons_of_neg (by decide)
      rw [visible_strip, visible_append, visible_append, hn, hn, hdash, hbody]
      omega
  · push Not at hd
    exact ⟨_, _, parse_frame h₀ h hd body, fun ⟨l, hl, hi⟩ => (hd l hl hi).elim⟩

end Obase.KnowledgeStore
