import Obase.Text

namespace Obase.Text
set_option autoImplicit true

theorem not_boundary_of_mem_lines {p : Char → Bool} {l cs : List Char} (hl : l ∈ lines p cs) :
    ∀ c ∈ l, p c = false := by
  induction cs generalizing l with
  | nil => cases hl
  | cons d cs ih =>
    rw [lines] at hl
    split at hl
    · obtain rfl | hl := List.mem_cons.1 hl
      · exact List.forall_mem_nil _
      · exact ih hl
    · rename_i hd
      have hd : p d = false := Bool.eq_false_iff.2 hd
      split at hl
      · rw [List.mem_singleton.1 hl]
        exact List.forall_mem_singleton.2 hd
      · rename_i l' ls he
        rw [he] at ih
        obtain rfl | hl := List.mem_cons.1 hl
        · exact List.forall_mem_cons.2 ⟨hd, ih (.head _)⟩
        · exact ih (.tail _ hl)

theorem trim_eq_nil_iff {p : Char → Bool} {cs : List Char} :
    trim p cs = [] ↔ ∀ c ∈ cs, p c = true := by
  constructor
  · intro h c hc
    obtain ⟨w, w', he, hw, hw'⟩ := trim_split p cs
    rw [he, h, List.nil_append] at hc
    obtain hc | hc := List.mem_append.1 hc
    · exact hw c hc
    · exact hw' c hc
  · intro h
    rw [trim, List.dropWhile_eq_nil_iff.2 h]
    rfl

/-- Characters of the kind at the ends of a text do not matter. -/
theorem trim_append {p : Char → Bool} {w v : List Char} (hw : ∀ c ∈ w, p c = true)
    (hv : ∀ c ∈ v, p c = true) (cs : List Char) : trim p (w ++ (cs ++ v)) = trim p cs := by
  by_cases h : trim p cs = []
  · rw [h, trim_eq_nil_iff]
    have hcs := trim_eq_nil_iff.1 h
    exact List.forall_mem_append.2 ⟨hw, List.forall_mem_append.2 ⟨hcs, hv⟩⟩
  · obtain ⟨a, b, he, ha, hb⟩ := trim_split p cs
    have hsplit : w ++ (cs ++ v) = (w ++ a) ++ (trim p cs ++ (b ++ v)) := by
      conv_lhs => rw [he]
      simp only [List.append_assoc]
    rw [hsplit]
    exact trim_of_trimmed (trim_trimmed h) (List.forall_mem_append.2 ⟨hw, ha⟩)
      (List.forall_mem_append.2 ⟨hb, hv⟩)

theorem trim_cons {p : Char → Bool} {c : Char} (h : p c = true) (cs : List Char) :
    trim p (c :: cs) = trim p cs := by
  have ht := trim_append (w := [c]) (v := []) (List.forall_mem_singleton.2 h)
    (fun _ hm => nomatch hm) cs
  rwa [List.append_nil] at ht

theorem trim_concat {p : Char → Bool} {c : Char} (h : p c = true) (cs : List Char) :
    trim p (cs ++ [c]) = trim p cs :=
  trim_append (w := []) (fun _ hm => nomatch hm) (List.forall_mem_singleton.2 h) cs

/-- Only the characters before the first part are trimmed from a text that ends otherwise. -/
theorem trim_append_trimmed {p : Char → Bool} {cs : List Char} (h : Trimmed p cs)
    (w : List Char) : trim p (w ++ cs) = w.dropWhile p ++ cs := by
  obtain ⟨c, hc, hpc, d, hd, hpd⟩ := h
  have hdrop : (w ++ cs).dropWhile p = w.dropWhile p ++ cs := by
    rw [List.dropWhile_append]
    split
    · rename_i he
      obtain ⟨cs, rfl⟩ := List.head?_eq_some_iff.1 hc
      rw [List.isEmpty_iff.1 he, List.dropWhile_cons_of_neg (by rw [hpc]; exact Bool.false_ne_true)]
      rfl
    · rfl
  have hne : w.dropWhile p ++ cs ≠ [] := by
    rintro he
    rw [(List.append_eq_nil_iff.1 he).2] at hd
    cases hd
  rw [trim, hdrop, List.rdropWhile_eq_self_iff]
  intro hl
  have hlast : (w.dropWhile p ++ cs).getLast? = some d := by
    rw [List.getLast?_append, hd]
    rfl
  rw [List.getLast?_eq_some_getLast hl, Option.some.injEq] at hlast
  rw [hlast, hpd]
  exact Bool.false_ne_true

theorem mem_trim {p : Char → Bool} {c : Char} {cs : List Char} (h : c ∈ trim p cs) : c ∈ cs := by
  obtain ⟨w, w', he, -, -⟩ := trim_split p cs
  rw [he]
  exact List.mem_append_right _ (List.mem_append_left _ h)

theorem infix_trim (p : Char → Bool) (cs : List Char) : trim p cs <:+: cs := by
  obtain ⟨w, w', he, -, -⟩ := trim_split p cs
  exact ⟨w, w', (List.append_assoc ..).trans he.symm⟩

/-- The first line of a text begins it. -/
theorem prefix_of_lines_cons {p : Char → Bool} {l cs : List Char} {ls : List (List Char)}
    (h : lines p cs = l :: ls) : l <+: cs := by
  induction cs generalizing l ls with
  | nil => cases h
  | cons c cs ih =>
    rw [lines] at h
    split at h
    · cases h
      exact List.nil_prefix
    · split at h
      · cases h
        exact List.prefix_append [c] cs
      · rename_i l' ls' he
        cases h
        exact List.cons_prefix_cons.2 ⟨rfl, ih he⟩

theorem infix_of_mem_lines {p : Char → Bool} {l cs : List Char} (h : l ∈ lines p cs) :
    l <:+: cs := by
  induction cs generalizing l with
  | nil => cases h
  | cons c cs ih =>
    have hfirst : ∀ {l' ls}, lines p (c :: cs) = l' :: ls → l ∈ ls → l ∈ lines p cs := by
      intro l' ls he hl
      rw [lines] at he
      split at he
      · cases he
        exact hl
      · split at he
        · cases he
          cases hl
        · rename_i hls
          cases he
          rw [hls]
          exact .tail _ hl
    have hne : lines p (c :: cs) ≠ [] := lines_ne_nil
    obtain ⟨l', ls, he⟩ := List.exists_cons_of_ne_nil hne
    rw [he] at h
    obtain rfl | h := List.mem_cons.1 h
    · exact (prefix_of_lines_cons he).isInfix
    · exact (ih (hfirst he h)).trans (List.suffix_cons ..).isInfix

/-- Characters that end no line join the first line of what follows. -/
theorem lines_append_left {p : Char → Bool} {as : List Char} (h : ∀ c ∈ as, p c = false)
    (h₀ : as ≠ []) (cs : List Char) :
    lines p (as ++ cs) = (as ++ (lines p cs).headD []) :: (lines p cs).tail := by
  induction as with
  | nil => exact (h₀ rfl).elim
  | cons a as ih =>
    rw [List.forall_mem_cons] at h
    rw [List.cons_append, lines, if_neg (Bool.eq_false_iff.1 h.1)]
    by_cases hn : as = []
    · subst hn
      rw [List.nil_append]
      cases lines p cs with
      | nil => rfl
      | cons l ls => rfl
    · rw [ih h.2 hn]
      rfl

theorem trim_trim (p : Char → Bool) (cs : List Char) : trim p (trim p cs) = trim p cs := by
  obtain ⟨w, w', he, hw, hw'⟩ := trim_split p cs
  conv_rhs => rw [he, trim_append hw hw']

/-- A text is trimmed already exactly where neither of its ends is of the kind. -/
theorem trim_eq_self_iff {p : Char → Bool} {cs : List Char} :
    trim p cs = cs ↔ (∀ c ∈ cs.head?, p c = false) ∧ ∀ c ∈ cs.getLast?, p c = false := by
  constructor
  · intro h
    by_cases hn : cs = []
    · subst hn
      exact ⟨fun _ hm => (nomatch hm), fun _ hm => (nomatch hm)⟩
    · obtain ⟨c, hc, hp, d, hd, hq⟩ := trim_trimmed (h.symm ▸ hn)
      rw [h] at hc hd
      rw [hc, hd]
      refine ⟨fun x hx => ?_, fun x hx => ?_⟩
      · cases hx
        exact hp
      · cases hx
        exact hq
  · rintro ⟨hh, hl⟩
    by_cases hn : cs = []
    · subst hn
      rfl
    · obtain ⟨c, hc⟩ := Option.isSome_iff_exists.1 (List.isSome_head?.2 hn)
      have hd := List.getLast?_eq_some_getLast hn
      have ht := trim_of_trimmed (w := []) (v := []) (p := p)
        ⟨c, hc, hh c hc, _, hd, hl _ hd⟩ (fun _ hm => nomatch hm) (fun _ hm => nomatch hm)
      rwa [List.append_nil] at ht

/-- The number of characters that are no spaces. -/
def visible (cs : List Char) : Nat := cs.countP fun c => !isSpace c

theorem visible_append (cs ds : List Char) : visible (cs ++ ds) = visible cs + visible ds :=
  List.countP_append

theorem visible_eq_zero {cs : List Char} (h : ∀ c ∈ cs, isSpace c = true) : visible cs = 0 := by
  rw [visible, List.countP_eq_zero]
  intro c hc
  rw [h c hc]
  exact fun he => nomatch he

theorem visible_strip (cs : List Char) : visible (strip cs) = visible cs := by
  obtain ⟨w, w', he, hw, hw'⟩ := trim_split isSpace cs
  conv_rhs => rw [he, visible_append, visible_append, visible_eq_zero hw, visible_eq_zero hw']
  rw [Nat.zero_add, Nat.add_zero]
  rfl

theorem visible_universalNewlines (cs : List Char) :
    visible (universalNewlines cs) = visible cs := by
  fun_induction universalNewlines cs with
  | case1 => rfl
  | case2 cs ih =>
    have hn (ds : List Char) : visible ('\n' :: ds) = visible ds :=
      List.countP_cons_of_neg (by decide)
    have hr (ds : List Char) : visible ('\r' :: ds) = visible ds :=
      List.countP_cons_of_neg (by decide)
    rw [hn, hr, hn, ih]
  | case3 cs _ ih =>
    have hn (ds : List Char) : visible ('\n' :: ds) = visible ds :=
      List.countP_cons_of_neg (by decide)
    have hr (ds : List Char) : visible ('\r' :: ds) = visible ds :=
      List.countP_cons_of_neg (by decide)
    rw [hn, hr, ih]
  | case4 c cs _ _ ih =>
    rw [visible, List.countP_cons, ← visible, ih, visible, visible, List.countP_cons]

/-- A line feed at the end of a text ends its last line, or belongs to the end of it. -/
theorem universalNewlines_end (cs : List Char) :
    universalNewlines (cs ++ ['\n']) = universalNewlines cs ++ ['\n'] ∨
      universalNewlines (cs ++ ['\n']) = universalNewlines cs := by
  fun_induction universalNewlines cs with
  | case1 => exact .inl rfl
  | case2 cs ih =>
    rw [List.cons_append, List.cons_append, universalNewlines]
    obtain ih | ih := ih
    · exact .inl (by rw [ih]; rfl)
    · exact .inr (by rw [ih])
  | case3 cs hc ih =>
    cases cs with
    | nil => exact .inr rfl
    | cons c cs =>
      have hstep (ds : List Char) (hd : ∀ es, ds ≠ '\n' :: es) :
          universalNewlines ('\r' :: ds) = '\n' :: universalNewlines ds := by
        rw [universalNewlines]
        exact fun es he => hd es he
      have hcn : ∀ es, c :: cs ++ ['\n'] ≠ '\n' :: es := by
        intro es he
        injection he with he _
        exact hc cs (by rw [he])
      rw [List.cons_append, hstep _ hcn]
      obtain ih | ih := ih
      · exact .inl (by rw [ih]; rfl)
      · exact .inr (by rw [ih])
  | case4 c cs h₁ h₂ ih =>
    have hstep (ds : List Char) : universalNewlines (c :: ds) = c :: universalNewlines ds := by
      rw [universalNewlines]
      · rintro _ rfl
        exact absurd rfl h₂
      · exact h₂
    rw [List.cons_append, hstep]
    obtain ih | ih := ih
    · exact .inl (by rw [ih]; rfl)
    · exact .inr (by rw [ih])

theorem prefix_of_universalNewlines {sep cs : List Char} (hn : '\n' ∉ sep)
    (h : sep <+: universalNewlines cs) : sep <+: cs := by
  induction sep generalizing cs with
  | nil => exact List.nil_prefix
  | cons s sep ih =>
    rw [List.mem_cons, not_or] at hn
    fun_cases universalNewlines cs with
    | case1 => exact h
    | case2 cs =>
      rw [universalNewlines, List.cons_prefix_cons] at h
      exact (hn.1 h.1.symm).elim
    | case3 cs hc =>
      rw [universalNewlines, List.cons_prefix_cons] at h
      · exact (hn.1 h.1.symm).elim
      · exact hc
    | case4 c cs h₁ h₂ =>
      rw [universalNewlines, List.cons_prefix_cons] at h
      · exact List.cons_prefix_cons.2 ⟨h.1, ih hn.2 h.2⟩
      · exact h₁
      · exact h₂

/-- The translation of newlines brings in nothing else. -/
theorem infix_of_universalNewlines {sep cs : List Char} (hn : '\n' ∉ sep)
    (h : sep <:+: universalNewlines cs) : sep <:+: cs := by
  have hcons {c : Char} {cs ds : List Char} (hp : sep <+: c :: universalNewlines cs → sep <+: ds)
      (hi : sep <:+: universalNewlines cs → sep <:+: ds)
      (h : sep <:+: c :: universalNewlines cs) : sep <:+: ds :=
    (List.infix_cons_iff.1 h).elim (fun h => (hp h).isInfix) hi
  have hline {cs ds : List Char} (h : sep <+: '\n' :: universalNewlines cs) : sep <+: ds := by
    cases sep with
    | nil => exact List.nil_prefix
    | cons s sep =>
      rw [List.cons_prefix_cons] at h
      exact (hn (h.1 ▸ .head _)).elim
  fun_induction universalNewlines cs with
  | case1 => exact h
  | case2 cs ih => exact hcons hline (fun h => ((ih h).trans (List.suffix_cons ..).isInfix).trans
      (List.suffix_cons ..).isInfix) h
  | case3 cs _ ih => exact hcons hline (fun h => (ih h).trans (List.suffix_cons ..).isInfix) h
  | case4 c cs h₁ h₂ ih =>
    refine hcons (fun h => ?_) (fun h => (ih h).trans (List.suffix_cons ..).isInfix) h
    apply prefix_of_universalNewlines hn
    rw [universalNewlines]
    · exact h
    · exact h₁
    · exact h₂

/-- The last line of a text that ends with characters which end no line. -/
theorem getLast?_lines {p : Char → Bool} {ds : List Char} (hds : ∀ c ∈ ds, p c = false)
    (hne : ds ≠ []) (cs : List Char) :
    (lines p (cs ++ ds)).getLast? = some ((cs.rtakeWhile fun c => !p c) ++ ds) := by
  have hlast : ∀ c ∈ (cs.rtakeWhile fun c => !p c) ++ ds, p c = false := by
    intro c hc
    obtain hc | hc := List.mem_append.1 hc
    · have hn := List.mem_rtakeWhile_imp hc
      rwa [Bool.not_eq_true'] at hn
    · exact hds c hc
  have hlast' := lines_unterminated hlast fun he => hne (List.append_eq_nil_iff.1 he).2
  have hsplit : cs ++ ds = (cs.rdropWhile fun c => !p c) ++
      ((cs.rtakeWhile fun c => !p c) ++ ds) := by
    rw [← List.append_assoc, List.rdropWhile_append_rtakeWhile]
  rw [hsplit]
  by_cases he : (cs.rdropWhile fun c => !p c) = []
  · rw [he, List.nil_append, hlast']
    rfl
  · have hb := List.rdropWhile_last_not (fun c => !p c) cs he
    rw [Bool.not_eq_true, Bool.not_eq_false'] at hb
    rw [← List.dropLast_append_getLast he, List.append_assoc, List.singleton_append,
      lines_append hb, hlast', List.getLast?_concat]

end Obase.Text
