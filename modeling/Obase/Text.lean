import Mathlib.Data.List.DropRight
import Mathlib.Data.List.Infix
import Mathlib.Data.List.TakeWhile

namespace Obase.Text
set_option autoImplicit true

instance instLawfulBEqChars : LawfulBEq (List Char) := inferInstance

/-- Remove the characters of a kind from both ends. -/
def trim (p : Char → Bool) (cs : List Char) : List Char :=
  (cs.dropWhile p).rdropWhile p

/-- The characters that `str.isspace` holds of. -/
def isSpace (c : Char) : Bool :=
  c ∈ ['\t', '\n', '\x0b', '\x0c', '\r', '\x1c', '\x1d', '\x1e', '\x1f', ' ', '\x85', '\xa0',
    '\u1680', '\u2028', '\u2029', '\u202f', '\u205f', '\u3000'] ||
    (0x2000 ≤ c.toNat && c.toNat ≤ 0x200a)

def strip (cs : List Char) : List Char := trim isSpace cs

/-- The characters at which `str.splitlines` ends a line. -/
def isLineBoundary (c : Char) : Bool :=
  c ∈ ['\n', '\r', '\x0b', '\x0c', '\x1c', '\x1d', '\x1e', '\x85', '\u2028', '\u2029']

def isNewline (c : Char) : Bool := c == '\n'

/-- The newline translation of a file opened in text mode. -/
def universalNewlines : List Char → List Char
  | [] => []
  | '\r' :: '\n' :: cs => '\n' :: universalNewlines cs
  | '\r' :: cs => '\n' :: universalNewlines cs
  | c :: cs => c :: universalNewlines cs

/-- The lines of a text without their ends; an unterminated last line counts if not empty. -/
def lines (p : Char → Bool) : List Char → List (List Char)
  | [] => []
  | c :: cs =>
    if p c then [] :: lines p cs
    else
      match lines p cs with
      | [] => [[c]]
      | l :: ls => (c :: l) :: ls

theorem lines_nil (p : Char → Bool) : lines p [] = [] := rfl

theorem lines_cons (p : Char → Bool) (c : Char) (cs : List Char) :
    lines p (c :: cs) =
      if p c then [] :: lines p cs
      else
        match lines p cs with
        | [] => [[c]]
        | l :: ls => (c :: l) :: ls := rfl

/-- `str.splitlines`: both `\r\n` and a lone `\r` end one line. -/
def splitlines (cs : List Char) : List (List Char) := lines isLineBoundary (universalNewlines cs)

def replaceFrom (old new : List Char) : Nat → List Char → List Char
  | _, [] => []
  | n + 1, _ :: cs => replaceFrom old new n cs
  | 0, c :: cs =>
    if old.isPrefixOf (c :: cs) then new ++ replaceFrom old new (old.length - 1) cs
    else c :: replaceFrom old new 0 cs

/-- `str.replace` of a text that is not empty. -/
def replace (old new cs : List Char) : List Char := replaceFrom old new 0 cs

/-- `if line.strip()`. -/
def notBlank (cs : List Char) : Bool := !(strip cs).isEmpty

theorem trim_split (p : Char → Bool) (cs : List Char) :
    ∃ w w', cs = w ++ (trim p cs ++ w') ∧ (∀ c ∈ w, p c = true) ∧ ∀ c ∈ w', p c = true := by
  refine ⟨cs.takeWhile p, (cs.dropWhile p).rtakeWhile p, ?_, ?_, ?_⟩
  · rw [trim, List.rdropWhile_append_rtakeWhile, List.takeWhile_append_dropWhile]
  · intro c hc
    exact List.mem_takeWhile_imp hc
  · intro c hc
    exact List.mem_rtakeWhile_imp hc

/-- Neither end of the text is a character of the kind, and there are ends. -/
def Trimmed (p : Char → Bool) (cs : List Char) : Prop :=
  ∃ c, cs.head? = some c ∧ p c = false ∧ ∃ d, cs.getLast? = some d ∧ p d = false

theorem Trimmed.ne_nil (h : Trimmed p cs) : cs ≠ [] := by
  rintro rfl
  obtain ⟨c, hc, -⟩ := h
  cases hc

/-- A property of the characters of a text that is given, by a look at each of them. -/
theorem forall_mem_of_all {P : Char → Prop} [DecidablePred P] {cs : List Char}
    (h : (cs.all fun c => decide (P c)) = true) : ∀ c ∈ cs, P c :=
  fun c hc => of_decide_eq_true (List.all_eq_true.1 h c hc)

/-- A property of the ASCII characters, by a look at each of them. -/
theorem forall_ascii {P : Char → Prop} (h : ∀ n < 128, P (Char.ofNat n)) {c : Char}
    (hc : c.toNat < 128) : P c := by
  have hp := h c.toNat hc
  rwa [Char.ofNat_toNat] at hp

theorem trim_of_trimmed (h : Trimmed p cs) (hw : ∀ c ∈ w, p c = true) (hv : ∀ c ∈ v, p c = true) :
    trim p (w ++ (cs ++ v)) = cs := by
  obtain ⟨c, hc, hpc, d, hd, hpd⟩ := h
  obtain ⟨cs', rfl⟩ : ∃ cs', cs = c :: cs' := by
    cases cs with
    | nil => cases hc
    | cons a cs => cases hc; exact ⟨cs, rfl⟩
  have hdrop : (w ++ (c :: cs' ++ v)).dropWhile p = c :: cs' ++ v := by
    rw [List.dropWhile_append_of_pos hw, List.cons_append, List.dropWhile_cons_of_neg (by simp [hpc])]
  rw [trim, hdrop]
  induction v using List.reverseRecOn with
  | nil =>
    rw [List.append_nil, List.rdropWhile_eq_self_iff]
    intro hl
    rw [List.getLast?_eq_some_getLast hl] at hd
    cases hd
    simp [hpd]
  | append_singleton v x ih =>
    rw [← List.append_assoc, List.rdropWhile_concat_pos _ _ _ (hv x (by simp))]
    apply ih (fun c hc => hv c (by simp [hc]))
    rw [List.dropWhile_append_of_pos hw, List.cons_append, List.dropWhile_cons_of_neg (by simp [hpc])]

theorem trim_trimmed (h : trim p cs ≠ []) : Trimmed p (trim p cs) := by
  have hne : cs.dropWhile p ≠ [] := by
    intro hd
    rw [trim, hd] at h
    exact h rfl
  obtain ⟨c, ds, hd⟩ := List.exists_cons_of_ne_nil hne
  have hpc : p c = false := by
    have hh := List.head_dropWhile_not p hne
    simpa [hd] using hh
  obtain ⟨t, ht⟩ := List.rdropWhile_prefix p (l := cs.dropWhile p)
  refine ⟨c, ?_, hpc, _, List.getLast?_eq_some_getLast h, ?_⟩
  · rw [trim] at h ⊢
    obtain ⟨a, as, ha⟩ := List.exists_cons_of_ne_nil h
    rw [ha, hd] at ht
    injection ht with ht _
    rw [ha, ht]
    rfl
  · have hl := List.rdropWhile_last_not p (cs.dropWhile p) h
    exact Bool.eq_false_iff.2 hl

theorem isSpace_of_isLineBoundary {c : Char} (h : isLineBoundary c = true) : isSpace c = true := by
  simp only [isLineBoundary, List.mem_cons, List.not_mem_nil, or_false, decide_eq_true_eq] at h
  rcases h with rfl | rfl | rfl | rfl | rfl | rfl | rfl | rfl | rfl | rfl <;> decide

theorem universalNewlines_of_no_cr {cs : List Char} (h : '\r' ∉ cs) :
    universalNewlines cs = cs := by
  induction cs with
  | nil => rfl
  | cons c cs ih =>
    simp only [List.mem_cons, not_or] at h
    rw [universalNewlines, ih h.2]
    · rintro _ rfl
      exact (h.1 rfl).elim
    · rintro rfl
      exact (h.1 rfl).elim

theorem cr_not_mem_universalNewlines (cs : List Char) : '\r' ∉ universalNewlines cs := by
  fun_induction universalNewlines cs with
  | case1 => simp
  | case2 cs ih => simp [ih]
  | case3 cs _ ih => simp [ih]
  | case4 c cs _ hc ih =>
    rw [List.mem_cons, not_or]
    exact ⟨fun he => hc he.symm, ih⟩

theorem notBlank_of_mem {c : Char} {cs : List Char} (h : c ∈ cs) (hc : isSpace c = false) :
    notBlank cs = true := by
  obtain ⟨w, w', he, hw, hw'⟩ := trim_split isSpace cs
  rw [notBlank, strip, Bool.not_eq_true', List.isEmpty_eq_false_iff]
  intro hs
  rw [he, hs, List.nil_append, List.mem_append] at h
  rcases h with h | h
  · rw [hw c h] at hc
    cases hc
  · rw [hw' c h] at hc
    cases hc

theorem notBlank_of_trimmed {cs : List Char} (h : Trimmed isSpace cs) : notBlank cs = true := by
  obtain ⟨c, hc, hs, -⟩ := h
  exact notBlank_of_mem (List.mem_of_mem_head? hc) hs

theorem strip_of_trimmed {cs : List Char} (h : Trimmed isSpace cs) : strip cs = cs := by
  have ht := trim_of_trimmed (w := []) (v := []) h (by simp) (by simp)
  simpa [strip] using ht

theorem lines_ne_nil {c : Char} {cs : List Char} : lines p (c :: cs) ≠ [] := by
  rw [lines_cons]
  split
  · simp
  · split <;> simp

/-- A terminated line is the first line. -/
theorem lines_terminated {l : List Char} {b : Char} (hl : ∀ c ∈ l, p c = false) (hb : p b = true)
    (cs : List Char) : lines p (l ++ b :: cs) = l :: lines p cs := by
  induction l with
  | nil => rw [List.nil_append, lines_cons, if_pos hb]
  | cons c l ih =>
    rw [List.cons_append, lines_cons, if_neg (by simp [hl c (List.mem_cons_self ..)]),
      ih fun d hd => hl d (List.mem_cons_of_mem _ hd)]

theorem lines_unterminated {l : List Char} (hl : ∀ c ∈ l, p c = false) (h₀ : l ≠ []) :
    lines p l = [l] := by
  induction l with
  | nil => exact (h₀ rfl).elim
  | cons c l ih =>
    rw [lines_cons, if_neg (by simp [hl c (List.mem_cons_self ..)])]
    cases l with
    | nil => rfl
    | cons d l => rw [ih (fun d hd => hl d (List.mem_cons_of_mem _ hd)) (by simp)]

/-- Lines before the end of a line do not depend on what follows it. -/
theorem lines_append {b : Char} (hb : p b = true) (cs ds : List Char) :
    lines p (cs ++ b :: ds) = lines p (cs ++ [b]) ++ lines p ds := by
  induction cs with
  | nil => simp [lines_cons, lines_nil, hb]
  | cons c cs ih =>
    rw [List.cons_append, List.cons_append, lines_cons, lines_cons, ih]
    split
    · rfl
    · cases h : lines p (cs ++ [b]) with
      | nil =>
        cases cs with
        | nil => exact (lines_ne_nil h).elim
        | cons => exact (lines_ne_nil h).elim
      | cons l ls => rfl

/-- A character that ends no line is on one. -/
theorem exists_line_of_mem {c : Char} {cs : List Char} (h : c ∈ cs) (hc : p c = false) :
    ∃ l ∈ lines p cs, c ∈ l := by
  induction cs with
  | nil => cases h
  | cons d cs ih =>
    rw [lines_cons]
    rcases List.mem_cons.1 h with rfl | h
    · rw [if_neg (by simp [hc])]
      split
      · exact ⟨_, .head _, .head _⟩
      · exact ⟨_, .head _, .head _⟩
    · obtain ⟨l, hl, hm⟩ := ih h
      split
      · exact ⟨l, .tail _ hl, hm⟩
      · split
        · rename_i he
          rw [he] at hl
          cases hl
        · rename_i l' ls he
          rw [he] at hl
          rcases List.mem_cons.1 hl with rfl | hl
          · exact ⟨_, .head _, .tail _ hm⟩
          · exact ⟨l, .tail _ hl, hm⟩

theorem mem_of_mem_lines {c : Char} {l cs : List Char} (hl : l ∈ lines p cs) (hc : c ∈ l) :
    c ∈ cs := by
  induction cs generalizing l with
  | nil => cases hl
  | cons d cs ih =>
    rw [lines_cons] at hl
    split at hl
    · rcases List.mem_cons.1 hl with rfl | hl
      · cases hc
      · exact .tail _ (ih hl hc)
    · split at hl
      · rw [List.mem_singleton.1 hl, List.mem_singleton] at hc
        rw [hc]
        exact .head _
      · rename_i l' ls he
        rw [he] at ih
        rcases List.mem_cons.1 hl with rfl | hl
        · rcases List.mem_cons.1 hc with rfl | hc
          · exact .head _
          · exact .tail _ (ih (.head _) hc)
        · exact .tail _ (ih (.tail _ hl) hc)

theorem exists_first_boundary {p : Char → Bool} {cs : List Char} (h : ¬ ∀ c ∈ cs, p c = false) :
    ∃ x b y, cs = x ++ b :: y ∧ (∀ c ∈ x, p c = false) ∧ p b = true := by
  induction cs with
  | nil => simp at h
  | cons c cs ih =>
    by_cases hc : p c = true
    · exact ⟨[], c, cs, rfl, by simp, hc⟩
    · have hf : p c = false := Bool.eq_false_iff.2 hc
      obtain ⟨x, b, y, rfl, hx, hb⟩ := ih fun hall => h (List.forall_mem_cons.2 ⟨hf, hall⟩)
      exact ⟨c :: x, b, y, rfl, List.forall_mem_cons.2 ⟨hf, hx⟩, hb⟩

theorem countP_notBlank_pos {c : Char} {cs : List Char} (h : c ∈ cs) (hc : isSpace c = false) :
    0 < (lines isLineBoundary cs).countP notBlank := by
  have hp : isLineBoundary c = false := by
    rw [Bool.eq_false_iff]
    intro hb
    rw [isSpace_of_isLineBoundary hb] at hc
    cases hc
  obtain ⟨l, hl, hm⟩ := exists_line_of_mem h hp
  exact List.countP_pos_iff.2 ⟨l, hl, notBlank_of_mem hm hc⟩

/-- Ending the last line changes nothing but, perhaps, to add an empty line. -/
theorem lines_concat {b : Char} (hb : p b = true) (cs : List Char) :
    lines p (cs ++ [b]) = lines p cs ∨ lines p (cs ++ [b]) = lines p cs ++ [[]] := by
  induction cs with
  | nil => exact .inr (by simp [lines_cons, lines_nil, hb])
  | cons c cs ih =>
    rw [List.cons_append, lines_cons, lines_cons]
    by_cases hc : p c = true
    · rw [if_pos hc, if_pos hc]
      rcases ih with he | he
      · exact .inl (by rw [he])
      · exact .inr (by rw [he]; rfl)
    · rw [if_neg hc, if_neg hc]
      rcases ih with he | he
      · exact .inl (by rw [he])
      · rw [he]
        cases h : lines p cs with
        | nil => exact .inl rfl
        | cons l ls => exact .inr rfl

/-- A text of terminated lines. -/
def unlines (ls : List (List Char)) : List Char := ls.flatMap fun l => l ++ ['\n']

@[simp] theorem unlines_nil : unlines [] = [] := rfl

@[simp] theorem unlines_cons (l : List Char) (ls : List (List Char)) :
    unlines (l :: ls) = l ++ '\n' :: unlines ls := by
  simp [unlines]

theorem unlines_append (ls ms : List (List Char)) : unlines (ls ++ ms) = unlines ls ++ unlines ms :=
  List.flatMap_append

theorem lines_unlines (hp : p '\n' = true) {ls : List (List Char)}
    (h : ∀ l ∈ ls, ∀ c ∈ l, p c = false) : lines p (unlines ls) = ls := by
  induction ls with
  | nil => rfl
  | cons l ls ih =>
    rw [unlines_cons, lines_terminated (h l (List.mem_cons_self ..)) hp,
      ih fun m hm => h m (List.mem_cons_of_mem _ hm)]

theorem replaceFrom_skip (old new cs : List Char) (n : Nat) :
    replaceFrom old new n cs = replaceFrom old new 0 (cs.drop n) := by
  induction n generalizing cs with
  | zero => rfl
  | succ n ih =>
    cases cs with
    | nil => rfl
    | cons c cs => exact ih cs

/-- A text is replaced at the end of another that does not have its first character. -/
theorem replace_end {o : Char} {os cs : List Char} (h : o ∉ cs) (new : List Char) :
    replace (o :: os) new (cs ++ o :: os) = cs ++ new := by
  induction cs with
  | nil =>
    have hp : (o :: os).isPrefixOf (o :: os) = true := List.isPrefixOf_iff_prefix.2 List.prefix_rfl
    rw [replace, List.nil_append, replaceFrom, if_pos hp, replaceFrom_skip]
    simp [replaceFrom]
  | cons c cs ih =>
    rw [List.mem_cons, not_or] at h
    have hp : ¬ (o :: os).isPrefixOf (c :: (cs ++ o :: os)) = true := by
      intro hp
      obtain ⟨t, ht⟩ := List.isPrefixOf_iff_prefix.1 hp
      injection ht with ho _
      exact h.1 ho
    rw [replace] at ih
    rw [replace, List.cons_append, replaceFrom, if_neg hp, ih h.2, List.cons_append]

/-- A text that does not begin with a line feed is translated by itself after any other. -/
theorem universalNewlines_append {cs ds : List Char} (h : ds.head? ≠ some '\n') :
    universalNewlines (cs ++ ds) = universalNewlines cs ++ universalNewlines ds := by
  fun_induction universalNewlines cs with
  | case1 => rfl
  | case2 cs ih =>
    rw [List.cons_append, List.cons_append, universalNewlines, ih, List.cons_append]
  | case3 cs hc ih =>
    rw [List.cons_append, universalNewlines, ih, List.cons_append]
    intro ds' he
    cases cs with
    | nil =>
      apply h
      rw [List.nil_append] at he
      rw [he]
      rfl
    | cons d cs =>
      injection he with hd _
      rw [hd] at hc
      exact hc _ rfl
  | case4 c cs hc hr ih =>
    rw [List.cons_append, universalNewlines, ih, List.cons_append]
    · rintro ds' rfl
      exact absurd rfl hr
    · exact hr

theorem universalNewlines_append_of_no_cr {cs : List Char} (h : '\r' ∉ cs) (ds : List Char) :
    universalNewlines (cs ++ ds) = cs ++ universalNewlines ds := by
  induction cs with
  | nil => rfl
  | cons c cs ih =>
    rw [List.mem_cons, not_or] at h
    rw [List.cons_append, universalNewlines, ih h.2, List.cons_append]
    · rintro _ rfl
      exact absurd rfl h.1
    · rintro rfl
      exact absurd rfl h.1

theorem universalNewlines_concat (cs : List Char) :
    ∃ ds, universalNewlines (cs ++ ['\n']) = ds ++ ['\n'] := by
  fun_induction universalNewlines cs with
  | case1 => exact ⟨[], rfl⟩
  | case2 cs ih =>
    obtain ⟨ds, he⟩ := ih
    exact ⟨'\n' :: ds, by rw [List.cons_append, List.cons_append, universalNewlines, he]; rfl⟩
  | case3 cs hc ih =>
    cases cs with
    | nil => exact ⟨[], rfl⟩
    | cons c cs =>
      obtain ⟨ds, he⟩ := ih
      refine ⟨'\n' :: ds, ?_⟩
      rw [List.cons_append, universalNewlines, he]
      · rfl
      · intro cs' h
        injection h with hn _
        exact hc _ (by rw [hn])
  | case4 c cs hc hr ih =>
    obtain ⟨ds, he⟩ := ih
    refine ⟨c :: ds, ?_⟩
    rw [List.cons_append, universalNewlines, he]
    · rfl
    · rintro _ rfl
      exact absurd rfl hr
    · exact hr

/-- A line without a boundary in it is found between any others. -/
theorem mem_splitlines_unlines {l : List Char} {ls : List (List Char)} (hm : l ∈ ls)
    (hl : ∀ c ∈ l, isLineBoundary c = false) (h₀ : l ≠ []) : l ∈ splitlines (unlines ls) := by
  have hn : isLineBoundary '\n' = true := by decide
  have hcr : '\r' ∉ l := by
    intro hc
    have hb := hl _ hc
    cases hb
  obtain ⟨as, bs, rfl⟩ := List.append_of_mem hm
  have hline : l ∈ lines isLineBoundary (universalNewlines (unlines (l :: bs))) := by
    have hu : universalNewlines ('\n' :: unlines bs) = '\n' :: universalNewlines (unlines bs) := by
      rw [universalNewlines]
      · intro cs h
        cases h
      · intro h
        cases h
    rw [unlines_cons, universalNewlines_append_of_no_cr hcr, hu, lines_terminated hl hn]
    exact .head _
  have hhead : (unlines (l :: bs)).head? ≠ some '\n' := by
    obtain ⟨c, cs, rfl⟩ := List.exists_cons_of_ne_nil h₀
    rw [unlines_cons, List.cons_append, List.head?_cons]
    intro he
    cases he
    have hb := hl _ (.head _)
    cases hb
  rw [splitlines, unlines_append, universalNewlines_append hhead]
  induction as using List.reverseRecOn with
  | nil => exact hline
  | append_singleton as a _ =>
    have he : unlines (as ++ [a]) = (unlines as ++ a) ++ ['\n'] := by
      rw [unlines_append, unlines_cons, unlines_nil, List.append_assoc]
    obtain ⟨ds, hds⟩ := universalNewlines_concat (unlines as ++ a)
    rw [he, hds, List.append_assoc, List.singleton_append, lines_append hn]
    exact List.mem_append_right _ hline

end Obase.Text

namespace Obase
set_option autoImplicit true

theorem ascii_of_isDigit {c : Char} (h : c.isDigit = true) : c.toNat < 128 := by
  simp only [Char.isDigit, Bool.and_eq_true, decide_eq_true_eq] at h
  have hle := UInt32.le_iff_toNat_le.1 h.2
  exact Nat.lt_of_le_of_lt hle (by decide)

theorem digitChar_of_isDigit {c : Char} (h : c.isDigit = true) :
    (c.toNat - '0'.toNat).digitChar = c ∧ c.toNat - '0'.toNat < 10 := by
  have hlt := ascii_of_isDigit h
  revert h
  exact Text.forall_ascii (P := fun c => c.isDigit = true →
    (c.toNat - '0'.toNat).digitChar = c ∧ c.toNat - '0'.toNat < 10) (by decide +kernel) hlt

theorem toDigits_append_digits {n : Nat} (hn : 0 < n) {ds : List Char}
    (h : ∀ c ∈ ds, c.isDigit = true) :
    Nat.toDigits 10 (Nat.ofDigitChars 10 ds n) = Nat.toDigits 10 n ++ ds := by
  induction ds generalizing n with
  | nil => rw [Nat.ofDigitChars_nil, List.append_nil]
  | cons c ds ih =>
    obtain ⟨hc, hlt⟩ := digitChar_of_isDigit (h c (.head _))
    rw [Nat.ofDigitChars_cons, ih (by omega) fun d hd => h d (.tail _ hd),
      ← Nat.toDigits_append_toDigits (by decide) hn hlt, Nat.toDigits_of_lt_base hlt, hc,
      List.append_assoc, List.singleton_append]

theorem toDigits_inj {m n : Nat} : Nat.toDigits 10 m = Nat.toDigits 10 n ↔ m = n := by
  constructor
  · intro h
    rw [← Nat.ofDigitChars_ten_toDigits (n := m), h, Nat.ofDigitChars_ten_toDigits]
  · rintro rfl
    rfl

theorem digits_of_toDigits {n : Nat} : ∀ c ∈ Nat.toDigits 10 n, c.isDigit = true :=
  fun _ hc => Nat.isDigit_of_mem_toDigits (by decide) (by decide) hc

end Obase
