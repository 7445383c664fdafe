import Obase.Json.Lexical

namespace Obase.Json
set_option autoImplicit true
open Text

/-- Decode every line that is not blank. -/
def documents [FloatText F] (ls : List (List Char)) : Option (List (Json F)) :=
  (ls.filter notBlank).mapM loads

/-- Strip every line that is not blank and decode it. -/
def strippedDocuments [FloatText F] (ls : List (List Char)) : Option (List (Json F)) :=
  (ls.filter notBlank).mapM fun l => loads (strip l)

theorem notBlank_eq_false_iff {l : List Char} :
    notBlank l = false ↔ ∀ c ∈ l, isSpace c = true := by
  constructor
  · intro h c hc
    by_contra hs
    rw [notBlank_of_mem hc (Bool.eq_false_iff.2 hs)] at h
    cases h
  · intro h
    have hd : l.dropWhile isSpace = [] := List.dropWhile_eq_nil_iff.2 h
    rw [notBlank, strip, trim, hd]
    rfl

theorem strip_trimmed {l : List Char} (h : notBlank l = true) : Trimmed isSpace (strip l) := by
  apply trim_trimmed
  intro hs
  rw [notBlank, strip, hs] at h
  cases h

theorem strip_blank_append {w l : List Char} (hw : notBlank w = false) :
    strip (w ++ l) = strip l := by
  rw [strip, trim, List.dropWhile_append_of_pos (notBlank_eq_false_iff.1 hw)]
  rfl

theorem strip_append_blank {w l : List Char} (hl : notBlank l = true) (hw : notBlank w = false) :
    strip (l ++ w) = strip l := by
  obtain ⟨u, u', he, hu, hu'⟩ := trim_split isSpace l
  have ht := trim_of_trimmed (w := u) (v := u' ++ w) (strip_trimmed hl) hu (by
    intro c hc
    rcases List.mem_append.1 hc with hc | hc
    · exact hu' c hc
    · exact notBlank_eq_false_iff.1 hw c hc)
  calc strip (l ++ w) = trim isSpace (u ++ (trim isSpace l ++ u') ++ w) := by rw [← he]; rfl
    _ = trim isSpace (u ++ (strip l ++ (u' ++ w))) := by simp [strip]
    _ = strip l := ht

theorem isWs_of_isSpace {c : Char} (hs : isSpace c = true) (hp : isPlain c = true) :
    isWs c = true := by
  simp only [isPlain, Bool.or_eq_true, decide_eq_true_eq, beq_iff_eq] at hp
  rcases hp with (((((((hp | hp) | rfl) | rfl) | rfl) | rfl) | rfl) | rfl) | hp
  · rw [isSpace_numberChar hp] at hs
    cases hs
  · exact hp
  all_goals try cases hs
  simp only [List.mem_cons, List.not_mem_nil, or_false] at hp
  rcases hp with rfl | rfl | rfl | rfl | rfl | rfl | rfl | rfl | rfl | rfl | rfl | rfl <;> cases hs

/-- Whitespace that is scanned outside strings is whitespace of a document. -/
theorem scan_spaces {u : List Char} {q : Lex} (hu : ∀ c ∈ u, isSpace c = true)
    (h : scan .outside u = some q) : q = .outside ∧ ∀ c ∈ u, isWs c = true := by
  induction u generalizing q with
  | nil =>
    cases h
    exact ⟨rfl, by simp⟩
  | cons c u ih =>
    have hc := hu c (.head _)
    have hq : c ≠ '"' := by
      rintro rfl
      cases hc
    rw [scan, Lex.step, if_neg hq] at h
    by_cases hp : isPlain c = true
    · rw [if_pos hp] at h
      obtain ⟨he, hw⟩ := ih (fun d hd => hu d (.tail _ hd)) h
      exact ⟨he, List.forall_mem_cons.2 ⟨isWs_of_isSpace hc hp, hw⟩⟩
    · rw [if_neg hp] at h
      cases h

theorem scan_spaces_inside {u : List Char} (hu : ∀ c ∈ u, isSpace c = true) :
    scan .inside u = some .inside := by
  induction u with
  | nil => rfl
  | cons c u ih =>
    have hc := hu c (.head _)
    have hq : c ≠ '"' := by
      rintro rfl
      cases hc
    have hb : c ≠ '\\' := by
      rintro rfl
      cases hc
    rw [scan, Lex.step, if_neg hq, if_neg hb]
    exact ih fun d hd => hu d (.tail _ hd)

theorem step_escaped_space {c : Char} (hc : isSpace c = true) : Lex.escaped.step c = none := by
  have hu : c ≠ 'u' := by
    rintro rfl
    cases hc
  have he : unescape c = none := by
    unfold unescape
    split <;> first | rfl | cases hc
  rw [Lex.step, if_neg (by simp [hu, he])]

/-- Whitespace at the end of a text that is scanned whole stands outside its strings. -/
theorem scan_append_spaces {t u : List Char} (hu : ∀ c ∈ u, isSpace c = true)
    (h : scan .outside (t ++ u) = some .outside) :
    scan .outside t = some .outside ∧ ∀ c ∈ u, isWs c = true := by
  rw [scan_append] at h
  obtain ⟨q, hq, h⟩ := Option.bind_eq_some_iff.1 h
  cases q with
  | outside => exact ⟨hq, (scan_spaces hu h).2⟩
  | inside =>
    rw [scan_spaces_inside hu] at h
    cases h
  | escaped =>
    cases u with
    | nil => cases h
    | cons c u =>
      rw [scan, step_escaped_space (hu c (.head _))] at h
      cases h

theorem scan_blank_append {u t : List Char} {q : Lex} (hu : ∀ c ∈ u, isSpace c = true)
    (h : scan .outside (u ++ t) = some q) :
    scan .outside t = some q ∧ ∀ c ∈ u, isWs c = true := by
  rw [scan_append] at h
  obtain ⟨r, hr, h⟩ := Option.bind_eq_some_iff.1 h
  obtain ⟨rfl, hw⟩ := scan_spaces hu hr
  exact ⟨h, hw⟩

section
variable [FloatText F]

/-- A line that decodes as it is decodes to the same when it is stripped. -/
theorem loads_strip {l : List Char} {v : Json F} (hl : notBlank l = true)
    (h : loads l = some v) : loads (strip l) = some v := by
  obtain ⟨u, u', he, hu, hu'⟩ := trim_split isSpace l
  have hs := scan_of_loads h
  rw [he] at hs
  obtain ⟨hs, hw⟩ := scan_blank_append hu hs
  obtain ⟨-, hw'⟩ := scan_append_spaces hu' hs
  have ht := Trimmed.of_isSpace (strip_trimmed hl)
  have h₁ : trim isWs l = strip l :=
    calc trim isWs l = trim isWs (u ++ (trim isSpace l ++ u')) := congrArg _ he
      _ = strip l := trim_of_trimmed ht hw hw'
  have h₂ : trim isWs (strip l) = strip l := by
    simpa using trim_of_trimmed (w := []) (v := []) ht (by simp) (by simp)
  rw [loads, h₂, ← h₁]
  rw [loads] at h
  exact h

theorem boundary_stringOnly {b : Char} (hb : isLineBoundary b = true) (hn : b ≠ '\n')
    (hr : b ≠ '\r') : StringOnly b := by
  simp only [isLineBoundary, List.mem_cons, List.not_mem_nil, or_false, decide_eq_true_eq] at hb
  rcases hb with rfl | rfl | rfl | rfl | rfl | rfl | rfl | rfl | rfl | rfl
  · exact (hn rfl).elim
  · exact (hr rfl).elim
  all_goals exact ⟨by decide, by decide, by decide, rfl⟩

/-- A document is not followed on its line by anything behind another line boundary. -/
theorem no_document_before {x y : List Char} {b : Char} {v w : Json F} (hb : StringOnly b)
    (hx : notBlank x = true) (hy : notBlank y = true)
    (hv : loads x = some v) : loads (strip (x ++ b :: y)) ≠ some w := by
  intro hw
  obtain ⟨u, u', hex, hu, hu'⟩ := trim_split isSpace x
  obtain ⟨z, z', hey, hz, hz'⟩ := trim_split isSpace y
  obtain ⟨c, hc, hpc, -⟩ := strip_trimmed hx
  obtain ⟨-, -, -, d, hd, hpd⟩ := strip_trimmed hy
  have ht : Trimmed isSpace (strip x ++ (u' ++ b :: (z ++ strip y))) := by
    refine ⟨c, by rw [List.head?_append, hc, Option.some_or], hpc, d, ?_, hpd⟩
    have hne : strip y ≠ [] := (strip_trimmed hy).ne_nil
    rw [List.getLast?_append_of_ne_nil _ (by simp), List.getLast?_append_of_ne_nil _ (by simp),
      List.getLast?_cons, List.getLast?_append_of_ne_nil _ hne, hd]
    rfl
  have he : x ++ b :: y = u ++ ((strip x ++ (u' ++ b :: (z ++ strip y))) ++ z') := by
    calc x ++ b :: y = (u ++ (trim isSpace x ++ u')) ++ b :: (z ++ (trim isSpace y ++ z')) := by
          rw [← hex, ← hey]
      _ = _ := by simp [strip]
  have hst : strip (x ++ b :: y) = (strip x ++ u') ++ b :: (z ++ strip y) := by
    rw [he, strip, trim_of_trimmed ht hu hz', List.append_assoc]
  have hin := scan_split hb (hst ▸ scan_of_loads hw)
  have hout := scan_of_loads hv
  rw [hex] at hout
  rw [show strip x = trim isSpace x from rfl, (scan_blank_append hu hout).1] at hin
  cases hin

theorem documents_cons {l : List Char} {ls : List (List Char)} {rows : List (Json F)}
    (h : documents (l :: ls) = some rows) :
    (notBlank l = false ∧ documents ls = some rows) ∨
      ∃ v rows', notBlank l = true ∧ loads l = some v ∧ documents ls = some rows' ∧
        rows = v :: rows' := by
  rw [documents] at h
  cases hl : notBlank l with
  | false =>
    rw [List.filter_cons_of_neg (by simp [hl])] at h
    exact .inl ⟨rfl, h⟩
  | true =>
    rw [List.filter_cons_of_pos hl] at h
    simp only [List.mapM_cons, Option.bind_eq_bind, Option.bind_eq_some_iff, Option.pure_def,
      Option.some.injEq] at h
    obtain ⟨v, hv, rows', hr, rfl⟩ := h
    exact .inr ⟨v, rows', rfl, hv, hr, rfl⟩

theorem documents_append (ls ms : List (List Char)) :
    documents (F := F) (ls ++ ms) =
      (documents ls).bind fun rows => (documents ms).map fun rows' => rows ++ rows' := by
  rw [documents, List.filter_append, List.mapM_append]
  simp only [documents, Option.bind_eq_bind, Option.pure_def]
  cases List.mapM (loads (F := F)) (List.filter notBlank ls) with
  | none => rfl
  | some rows => cases List.mapM (loads (F := F)) (List.filter notBlank ms) <;> rfl

theorem documents_blank {l : List Char} (hl : notBlank l = false) :
    documents (F := F) (lines isLineBoundary l) = some [] := by
  have hf : (lines isLineBoundary l).filter notBlank = [] := by
    rw [List.filter_eq_nil_iff]
    intro m hm hb
    obtain ⟨c, hc, hs, -⟩ := strip_trimmed hb
    have hmem : c ∈ m := by
      obtain ⟨w, w', he, -, -⟩ := trim_split isSpace m
      rw [he]
      exact List.mem_append_right _ (List.mem_append_left _ (List.mem_of_mem_head? hc))
    rw [notBlank_eq_false_iff.1 hl c (mem_of_mem_lines hm hmem)] at hs
    cases hs
  rw [documents, hf]
  rfl

/-- On one line of a text file, cutting at the other line boundaries changes nothing if every piece
decodes. -/
theorem documents_line {l : List Char} {rows : List (Json F)} (hn : '\n' ∉ l) (hr : '\r' ∉ l)
    (h : documents (lines isLineBoundary l) = some rows) :
    if notBlank l then ∀ w : Json F, loads (strip l) = some w → rows = [w] else rows = [] := by
  induction hlen : l.length using Nat.strongRecOn generalizing l rows with
  | ind n ih =>
    cases hl : notBlank l with
    | false =>
      rw [documents_blank hl] at h
      cases h
      rfl
    | true =>
      intro w hw
      by_cases hb : ∀ c ∈ l, isLineBoundary c = false
      · have hne : l ≠ [] := by
          rintro rfl
          cases hl
        rw [lines_unterminated hb hne] at h
        rcases documents_cons h with ⟨hl', -⟩ | ⟨v, rows', -, hv, hrs, rfl⟩
        · rw [hl] at hl'
          cases hl'
        · cases hrs
          rw [loads_strip hl hv] at hw
          cases hw
          rfl
      · obtain ⟨x, b, y, rfl, hx, hbb⟩ := exists_first_boundary hb
        rw [lines_terminated hx hbb] at h
        have hbs := isSpace_of_isLineBoundary hbb
        have hyn : '\n' ∉ y := fun hm => hn (by simp [hm])
        have hyr : '\r' ∉ y := fun hm => hr (by simp [hm])
        have hlt : y.length < n := by
          rw [← hlen, List.length_append, List.length_cons]
          omega
        have hso : StringOnly b := boundary_stringOnly hbb (by rintro rfl; exact hn (by simp))
          (by rintro rfl; exact hr (by simp))
        rcases documents_cons h with ⟨hxb, hd⟩ | ⟨v, rows', hxb, hv, hd, rfl⟩
        · have hblank : notBlank (x ++ [b]) = false := by
            rw [notBlank_eq_false_iff] at hxb ⊢
            intro c hc
            rcases List.mem_append.1 hc with hc | hc
            · exact hxb c hc
            · rw [List.mem_singleton.1 hc]
              exact hbs
          have he : strip (x ++ b :: y) = strip y := by
            rw [List.append_cons, strip_blank_append hblank]
          have hy : notBlank y = true := by
            rw [notBlank, ← he]
            exact hl
          have hi := ih y.length hlt hyn hyr hd rfl
          rw [hy, if_pos rfl] at hi
          exact hi w (he ▸ hw)
        · cases hy : notBlank y with
          | false =>
            rw [documents_blank hy] at hd
            cases hd
            have hblank : notBlank (b :: y) = false := by
              rw [notBlank_eq_false_iff] at hy ⊢
              exact List.forall_mem_cons.2 ⟨hbs, hy⟩
            rw [strip_append_blank hxb hblank, loads_strip hxb hv] at hw
            cases hw
            rfl
          | true => exact (no_document_before hso hxb hy hv hw).elim

theorem documents_concat_newline (l : List Char) :
    documents (F := F) (lines isLineBoundary (l ++ ['\n'])) =
      documents (lines isLineBoundary l) := by
  rcases lines_concat (p := isLineBoundary) (b := '\n') rfl l with he | he
  · rw [he]
  · rw [he, documents, documents, List.filter_append]
    have hf : [([] : List Char)].filter notBlank = [] := rfl
    rw [hf, List.append_nil]

theorem strippedDocuments_cons {l : List Char} {ls : List (List Char)} {rows : List (Json F)}
    (h : strippedDocuments (l :: ls) = some rows) :
    (notBlank l = false ∧ strippedDocuments ls = some rows) ∨
      ∃ v rows', notBlank l = true ∧ loads (strip l) = some v ∧
        strippedDocuments ls = some rows' ∧ rows = v :: rows' := by
  rw [strippedDocuments] at h
  cases hl : notBlank l with
  | false =>
    rw [List.filter_cons_of_neg (by simp [hl])] at h
    exact .inl ⟨rfl, h⟩
  | true =>
    rw [List.filter_cons_of_pos hl] at h
    simp only [List.mapM_cons, Option.bind_eq_bind, Option.bind_eq_some_iff, Option.pure_def,
      Option.some.injEq] at h
    obtain ⟨v, hv, rows', hr, rfl⟩ := h
    exact .inr ⟨v, rows', rfl, hv, hr, rfl⟩

/-- Two readers of one file, one that cuts it at newlines and strips the lines and one that cuts
it at every line boundary, read the same documents when both succeed. -/
theorem documents_agree {cs : List Char} {rows rows' : List (Json F)} (hr : '\r' ∉ cs)
    (h : strippedDocuments (lines isNewline cs) = some rows)
    (h' : documents (lines isLineBoundary cs) = some rows') : rows' = rows := by
  induction hlen : cs.length using Nat.strongRecOn generalizing cs rows rows' with
  | ind n ih =>
    by_cases hb : ∀ c ∈ cs, isNewline c = false
    · have hn : '\n' ∉ cs := fun hm => by cases hb _ hm
      have hline := documents_line hn hr h'
      by_cases hne : cs = []
      · subst hne
        cases h
        exact hline
      · rw [lines_unterminated hb hne] at h
        rcases strippedDocuments_cons h with ⟨hl, hs⟩ | ⟨v, rs, hl, hv, hs, rfl⟩
        · cases hs
          rwa [hl, if_neg Bool.false_ne_true] at hline
        · cases hs
          rw [hl, if_pos rfl] at hline
          exact hline v hv
    · obtain ⟨x, b, y, rfl, hx, hbb⟩ := exists_first_boundary hb
      have hbn : b = '\n' := eq_of_beq hbb
      subst hbn
      have hn : '\n' ∉ x := fun hm => by cases hx _ hm
      rw [lines_append rfl, documents_append, documents_concat_newline] at h'
      obtain ⟨r₁, h₁, h'⟩ := Option.bind_eq_some_iff.1 h'
      obtain ⟨r₂, h₂, rfl⟩ := Option.map_eq_some_iff.1 h'
      have hline := documents_line hn (fun hm => hr (by simp [hm])) h₁
      have hlt : y.length < n := by
        rw [← hlen, List.length_append, List.length_cons]
        omega
      have hy : '\r' ∉ y := fun hm => hr (by simp [hm])
      rw [lines_terminated hx hbb] at h
      rcases strippedDocuments_cons h with ⟨hl, hs⟩ | ⟨v, rs, hl, hv, hs, rfl⟩
      · rw [hl, if_neg Bool.false_ne_true] at hline
        rw [hline, List.nil_append, ih y.length hlt hy hs h₂ rfl]
      · rw [hl, if_pos rfl] at hline
        rw [hline v hv, ih y.length hlt hy hs h₂ rfl, List.singleton_append]

end
end Obase.Json
