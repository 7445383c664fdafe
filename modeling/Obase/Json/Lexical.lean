import Obase.Json.RoundTrip

namespace Obase.Json
set_option autoImplicit true

/-- Where a scan of a JSON text stands: between the characters of a string, after a backslash
in one, or outside. -/
inductive Lex where
  | outside
  | inside
  | escaped
deriving DecidableEq

/-- The characters that occur outside strings. -/
def isPlain (c : Char) : Bool :=
  isNumberChar c || isWs c || c == '{' || c == '}' || c == '[' || c == ']' || c == ',' ||
    c == ':' || c ∈ ['n', 'u', 'l', 't', 'r', 'f', 'a', 's', 'N', 'I', 'i', 'y']

def Lex.step : Lex → Char → Option Lex
  | .outside, c => if c = '"' then some .inside else if isPlain c then some .outside else none
  | .inside, c =>
    if c = '"' then some .outside else if c = '\\' then some .escaped else some .inside
  | .escaped, c => if c = 'u' ∨ (unescape c).isSome then some .inside else none

def scan : Lex → List Char → Option Lex
  | q, [] => some q
  | q, c :: cs =>
    match q.step c with
    | none => none
    | some q => scan q cs

theorem scan_append (q : Lex) (cs ds : List Char) :
    scan q (cs ++ ds) = (scan q cs).bind fun q => scan q ds := by
  induction cs generalizing q with
  | nil => rfl
  | cons c cs ih =>
    rw [List.cons_append, scan, scan]
    cases q.step c with
    | none => rfl
    | some q => exact ih q

theorem scan_plain {cs : List Char} (h : ∀ c ∈ cs, isPlain c = true) :
    scan .outside cs = some .outside := by
  induction cs with
  | nil => rfl
  | cons c cs ih =>
    have hc := h c (List.mem_cons_self ..)
    have hq : c ≠ '"' := by
      rintro rfl
      cases hc
    rw [scan, Lex.step, if_neg hq, if_pos hc]
    exact ih fun d hd => h d (List.mem_cons_of_mem _ hd)

/-- The containers that are open after a character, of those around it. -/
def Lex.level : Lex → Nat → Char → Nat
  | .outside, d, c =>
    if c = '{' ∨ c = '[' then d + 1 else if c = '}' ∨ c = ']' then d - 1 else d
  | _, d, _ => d

/-- A scan within open containers, which it counts: nothing follows the end of the last of them,
and a string holds no control characters. -/
def nest : Lex → Nat → List Char → Option (Lex × Nat)
  | q, d, [] => some (q, d)
  | _, 0, _ :: _ => none
  | q, d + 1, c :: cs =>
    if q ≠ .outside ∧ c.toNat < 0x20 then none
    else
      match q.step c with
      | none => none
      | some r => nest r (q.level (d + 1) c) cs

theorem nest_append (q : Lex) (d : Nat) (cs ds : List Char) :
    nest q d (cs ++ ds) = (nest q d cs).bind fun p => nest p.1 p.2 ds := by
  induction cs generalizing q d with
  | nil => simp [nest]
  | cons c cs ih =>
    cases d with
    | zero => rfl
    | succ d =>
      rw [List.cons_append, nest, nest]
      split
      · rfl
      · cases q.step c with
        | none => rfl
        | some r => exact ih r _

theorem nest_cons {q r : Lex} {c : Char} (hc : q = .outside ∨ 0x20 ≤ c.toNat)
    (hs : q.step c = some r) (d : Nat) (cs : List Char) :
    nest q (d + 1) (c :: cs) = nest r (q.level (d + 1) c) cs := by
  rw [nest, if_neg, hs]
  rintro ⟨hq, hlt⟩
  rcases hc with hc | hc
  · exact hq hc
  · omega

theorem scan_of_nest {q : Lex} {d : Nat} {cs : List Char} {p : Lex × Nat}
    (h : nest q d cs = some p) : scan q cs = some p.1 := by
  induction cs generalizing q d with
  | nil =>
    cases h
    rfl
  | cons c cs ih =>
    cases d with
    | zero => cases h
    | succ d =>
      rw [nest] at h
      split at h
      · cases h
      · rw [scan]
        cases hs : q.step c with
        | none =>
          rw [hs] at h
          cases h
        | some r =>
          rw [hs] at h
          exact ih h

/-- The characters outside strings that open and close nothing. -/
def isFlat (c : Char) : Bool :=
  isPlain c && !(c == '{' || c == '}' || c == '[' || c == ']')

theorem step_plain {c : Char} (h : isPlain c = true) : Lex.outside.step c = some .outside := by
  have hq : c ≠ '"' := by
    rintro rfl
    cases h
  rw [Lex.step, if_neg hq, if_pos h]

theorem level_flat {c : Char} (h : isFlat c = true) (d : Nat) : Lex.outside.level d c = d := by
  simp only [isFlat, Bool.and_eq_true, Bool.not_eq_true', Bool.or_eq_false_iff,
    beq_eq_false_iff_ne] at h
  obtain ⟨-, ⟨⟨h₁, h₂⟩, h₃⟩, h₄⟩ := h
  rw [Lex.level, if_neg (by simp [h₁, h₃]), if_neg (by simp [h₂, h₄])]

theorem isPlain_of_isFlat {c : Char} (h : isFlat c = true) : isPlain c = true := by
  rw [isFlat, Bool.and_eq_true] at h
  exact h.1

theorem nest_flat {cs : List Char} (h : ∀ c ∈ cs, isFlat c = true) (d : Nat) :
    nest .outside (d + 1) cs = some (.outside, d + 1) := by
  induction cs with
  | nil => rfl
  | cons c cs ih =>
    have hc := h c (List.mem_cons_self ..)
    rw [nest_cons (.inl rfl) (step_plain (isPlain_of_isFlat hc)), level_flat hc]
    exact ih fun c hc => h c (List.mem_cons_of_mem _ hc)

theorem isFlat_of_isWs {c : Char} (h : isWs c = true) : isFlat c = true := by
  simp only [isWs, Bool.or_eq_true, beq_iff_eq] at h
  obtain ((rfl | rfl) | rfl) | rfl := h <;> rfl

theorem isFlat_of_isNumberChar {c : Char} (h : isNumberChar c = true) : isFlat c = true := by
  have hp : isPlain c = true := by simp [isPlain, h]
  have hn : ∀ b : Char, isNumberChar b = false → (c == b) = false := by
    intro b hb
    rw [beq_eq_false_iff_ne]
    rintro rfl
    rw [h] at hb
    cases hb
  rw [isFlat, hp, hn '{' (by decide), hn '}' (by decide), hn '[' (by decide), hn ']' (by decide)]
  rfl

/-- The part of a text that a reader has consumed, scanned from one state to another. -/
def Spans (q : Lex) (d : Nat) (q' : Lex) (d' : Nat) (cs rest : List Char) : Prop :=
  ∃ tok, cs = tok ++ rest ∧ nest q d tok = some (q', d')

theorem Spans.trans (h : Spans q d q' d' cs ds) (h' : Spans q' d' q'' d'' ds es) :
    Spans q d q'' d'' cs es := by
  obtain ⟨t, rfl, ht⟩ := h
  obtain ⟨u, rfl, hu⟩ := h'
  exact ⟨t ++ u, (List.append_assoc ..).symm, by rw [nest_append, ht]; exact hu⟩

theorem Spans.cons {q r s : Lex} {c : Char} {cs rest : List Char}
    (hc : q = .outside ∨ 0x20 ≤ c.toNat) (hs : q.step c = some r)
    (h : Spans r (q.level (d + 1) c) s e cs rest) : Spans q (d + 1) s e (c :: cs) rest := by
  obtain ⟨t, rfl, ht⟩ := h
  exact ⟨c :: t, rfl, (nest_cons hc hs _ _).trans ht⟩

theorem Spans.refl (q : Lex) (d : Nat) (cs : List Char) : Spans q d q d cs cs := ⟨[], rfl, rfl⟩

theorem spans_flat {c : Char} {cs rest : List Char} (hc : isFlat c = true)
    (h : Spans .outside (d + 1) .outside e cs rest) :
    Spans .outside (d + 1) .outside e (c :: cs) rest :=
  .cons (.inl rfl) (step_plain (isPlain_of_isFlat hc)) ((level_flat hc (d + 1)).symm ▸ h)

theorem spans_skipWs (d : Nat) (cs : List Char) :
    Spans .outside (d + 1) .outside (d + 1) cs (skipWs cs) :=
  ⟨cs.takeWhile isWs, List.takeWhile_append_dropWhile.symm,
    nest_flat (fun _ hc => isFlat_of_isWs (List.mem_takeWhile_imp hc)) d⟩

/-- Skipping to a flat character and passing it. -/
theorem spans_token {c : Char} {cs ds rest : List Char} (hc : isFlat c = true)
    (hs : skipWs cs = c :: ds) (h : Spans .outside (d + 1) .outside e ds rest) :
    Spans .outside (d + 1) .outside e cs rest :=
  (spans_skipWs d cs).trans (hs ▸ spans_flat hc h)

/-- Skipping to the end of a container and passing it. -/
theorem spans_close {c : Char} {cs ds : List Char} (hc : c = '}' ∨ c = ']')
    (hs : skipWs cs = c :: ds) : Spans .outside (d + 1) .outside d cs ds := by
  refine (spans_skipWs d cs).trans (hs ▸ .cons (.inl rfl) (r := .outside) ?_ ?_)
  · rcases hc with rfl | rfl <;> rfl
  · rcases hc with rfl | rfl <;> exact .refl _ _ _

theorem push_eq_some (h : push c r = some p) : ∃ q, r = some q ∧ p.2 = q.2 := by
  obtain ⟨q, hq, rfl⟩ := Option.map_eq_some_iff.1 h
  exact ⟨q, hq, rfl⟩

theorem hexValue_step {c : Char} (h : hexValue c = some n) : Lex.inside.step c = some .inside := by
  have hq : c ≠ '"' := by
    rintro rfl
    cases h
  have hb : c ≠ '\\' := by
    rintro rfl
    cases h
  rw [Lex.step, if_neg hq, if_neg hb]

theorem hexValue_ge {c : Char} (h : hexValue c = some n) : 0x20 ≤ c.toNat := by
  have hle {a b : Char} (h : a ≤ b) : a.toNat ≤ b.toNat := h
  rw [hexValue] at h
  split at h
  · rename_i hd
    simp only [Char.isDigit, Bool.and_eq_true, decide_eq_true_eq] at hd
    exact Nat.le_trans (by decide) (hle hd.1)
  split at h
  · rename_i hd
    exact Nat.le_trans (by decide) (hle hd.1)
  split at h
  · rename_i hd
    exact Nat.le_trans (by decide) (hle hd.1)
  · cases h

theorem unescape_ge {c c' : Char} (h : unescape c = some c') : 0x20 ≤ c.toNat := by
  unfold unescape at h
  split at h <;> first | decide | cases h

theorem spans_hex {c : Char} {cs rest : List Char} (h : hexValue c = some n)
    (hs : Spans .inside (d + 1) q e cs rest) : Spans .inside (d + 1) q e (c :: cs) rest :=
  .cons (.inr (hexValue_ge h)) (hexValue_step h) hs

/-- Four hexadecimal digits after `\u` stay inside the string. -/
theorem spans_hex4 (h : hex4 a b c e = some n) (d : Nat) (cs : List Char) :
    Spans .inside (d + 1) .inside (d + 1) ('\\' :: 'u' :: a :: b :: c :: e :: cs) cs := by
  simp only [hex4, Option.bind_eq_bind, Option.bind_eq_some_iff] at h
  obtain ⟨_, ha, _, hb, _, hc, _, he, _⟩ := h
  exact .cons (.inr (by decide)) rfl (.cons (.inr (by decide)) rfl
    (spans_hex ha (spans_hex hb (spans_hex hc (spans_hex he (.refl _ _ _))))))

/-- Reading a string consumes a text that leaves the string at its end. -/
theorem spans_readString {cs : List Char} {p : List Char × List Char} (d : Nat)
    (h : readString cs = some p) : Spans .inside (d + 1) .outside (d + 1) cs p.2 := by
  fun_induction readString cs generalizing p with
  | case1 | case3 | case4 | case6 | case7 | case8 | case10 | case12 => cases h
  | case2 cs =>
    cases h
    exact .cons (.inr (by decide)) rfl (.refl _ _ _)
  | case5 a b c d hi h4 _ e f g k cs lo h4' _ ih =>
    obtain ⟨q, hq, he⟩ := push_eq_some h
    rw [he]
    exact ((spans_hex4 h4 _ _).trans (spans_hex4 h4' _ _)).trans (ih hq)
  | case9 a b c d cs hi h4 _ _ ih =>
    obtain ⟨q, hq, he⟩ := push_eq_some h
    rw [he]
    exact (spans_hex4 h4 _ _).trans (ih hq)
  | case11 c cs _ c' hu ih =>
    obtain ⟨q, hq, he⟩ := push_eq_some h
    rw [he]
    refine .cons (.inr (by decide)) (r := .escaped) rfl
      (.cons (.inr (unescape_ge hu)) (r := .inside) ?_ (ih hq))
    rw [Lex.step, if_pos (.inr (by simp [hu]))]
  | case13 c cs hq _ _ hc ih =>
    obtain ⟨q, hr, he⟩ := push_eq_some h
    rw [he]
    refine .cons (.inr ?_) (r := .inside) ?_ (ih hr)
    · by_contra hlt
      exact hc (.inl (by omega))
    · rw [Lex.step, if_neg fun he => hq he, if_neg fun he => hc (.inr he)]

theorem spans_keyword [FloatText F] {word cs : List Char} {v : Json F} {p : Json F × List Char}
    (d : Nat) (hw : ∀ c ∈ word, isFlat c = true) (h : keyword word v cs = some p) :
    Spans .outside (d + 1) .outside (d + 1) cs p.2 := by
  rw [keyword] at h
  split at h
  · rename_i hp
    obtain ⟨ds, rfl⟩ := List.isPrefixOf_iff_prefix.1 hp
    cases h
    rw [List.drop_left]
    exact ⟨word, rfl, nest_flat hw d⟩
  · cases h

section
variable [FloatText F]

theorem spans_readNumber {cs : List Char} {p : Json F × List Char} (d : Nat)
    (h : readNumber cs = some p) : Spans .outside (d + 1) .outside (d + 1) cs p.2 := by
  have hp : p.2 = cs.dropWhile isNumberChar := by
    simp only [readNumber] at h
    split at h
    · cases h; rfl
    · split at h
      · cases h; rfl
      · cases h
  exact ⟨cs.takeWhile isNumberChar, by rw [hp, List.takeWhile_append_dropWhile],
    nest_flat (fun _ hc => isFlat_of_isNumberChar (List.mem_takeWhile_imp hc)) d⟩

/-- What a reader with this much fuel consumes leaves as many containers open as there were, or
closes the one it was called in. -/
def ReadersSpan (F : Type) [FloatText F] (n : Nat) : Prop :=
  (∀ d cs p, readValue (F := F) n cs = some p →
    Spans .outside (d + 1) .outside (d + 1) cs p.2) ∧
  (∀ d cs p, readItems (F := F) n cs = some p → Spans .outside (d + 1) .outside d cs p.2) ∧
  ∀ d cs p, readMembers (F := F) n cs = some p → Spans .outside (d + 1) .outside d cs p.2

theorem readValue_spans (ih : ReadersSpan F n) {cs : List Char} {p : Json F × List Char}
    (d : Nat) (h : readValue (n + 1) cs = some p) :
    Spans .outside (d + 1) .outside (d + 1) cs p.2 := by
  rw [readValue.eq_def] at h
  split at h
  · cases h
  rename_i m _ he
  injection he with he
  subst he
  split at h
  · exact spans_flat (by decide) (spans_keyword d (Text.forall_mem_of_all (by decide)) h)
  · exact spans_flat (by decide) (spans_keyword d (Text.forall_mem_of_all (by decide)) h)
  · exact spans_flat (by decide) (spans_keyword d (Text.forall_mem_of_all (by decide)) h)
  · exact spans_flat (by decide) (spans_keyword d (Text.forall_mem_of_all (by decide)) h)
  · exact spans_flat (by decide) (spans_keyword d (Text.forall_mem_of_all (by decide)) h)
  · obtain ⟨q, hq, rfl⟩ := Option.map_eq_some_iff.1 h
    exact .cons (.inl rfl) rfl (spans_readString d hq)
  · rename_i cs
    refine .cons (.inl rfl) (r := .outside) rfl ?_
    split at h
    · rename_i hs
      cases h
      exact spans_close (.inr rfl) hs
    · obtain ⟨q, hq, rfl⟩ := Option.map_eq_some_iff.1 h
      exact (spans_skipWs (d + 1) cs).trans (ih.2.1 _ _ _ hq)
  · rename_i cs
    refine .cons (.inl rfl) (r := .outside) rfl ?_
    split at h
    · rename_i hs
      cases h
      exact spans_close (.inl rfl) hs
    · obtain ⟨q, hq, rfl⟩ := Option.map_eq_some_iff.1 h
      exact (spans_skipWs (d + 1) cs).trans (ih.2.2 _ _ _ hq)
  · exact spans_flat (by decide)
      (spans_flat (by decide) (spans_keyword d (Text.forall_mem_of_all (by decide)) h))
  · exact spans_readNumber d h

theorem readItems_spans (ih : ReadersSpan F n) {cs : List Char}
    {p : List (Json F) × List Char} (d : Nat) (h : readItems (n + 1) cs = some p) :
    Spans .outside (d + 1) .outside d cs p.2 := by
  rw [readItems] at h
  split at h
  · cases h
  rename_i v ds hv
  refine (ih.1 d _ _ hv).trans ?_
  split at h
  · rename_i hs
    cases h
    exact spans_close (.inr rfl) hs
  · rename_i es hs
    obtain ⟨q, hq, rfl⟩ := Option.map_eq_some_iff.1 h
    exact spans_token (by decide) hs ((spans_skipWs d es).trans (ih.2.1 d _ q hq))
  · cases h

theorem readMembers_spans (ih : ReadersSpan F n) {cs : List Char}
    {p : List (String × Json F) × List Char} (d : Nat) (h : readMembers (n + 1) cs = some p) :
    Spans .outside (d + 1) .outside d cs p.2 := by
  rw [readMembers.eq_def] at h
  split at h
  · cases h
  rename_i m _ he
  injection he with he
  subst he
  split at h
  swap
  · cases h
  split at h
  · cases h
  rename_i k ds hk
  refine .cons (.inl rfl) (r := .inside) rfl ((spans_readString d hk).trans ?_)
  split at h
  swap
  · cases h
  rename_i es hs
  refine spans_token (by decide) hs ((spans_skipWs d es).trans ?_)
  split at h
  · cases h
  rename_i v fs hv
  refine (ih.1 d _ _ hv).trans ?_
  split at h
  · rename_i hs
    cases h
    exact spans_close (.inl rfl) hs
  · rename_i gs hs
    obtain ⟨q, hq, rfl⟩ := Option.map_eq_some_iff.1 h
    exact spans_token (by decide) hs ((spans_skipWs d gs).trans (ih.2.2 d _ q hq))
  · cases h

theorem readersSpan (n : Nat) : ReadersSpan F n := by
  induction n with
  | zero => exact ⟨by simp [readValue], by simp [readItems], by simp [readMembers]⟩
  | succ n ih =>
    exact ⟨fun d _ _ => readValue_spans ih d, fun d _ _ => readItems_spans ih d,
      fun d _ _ => readMembers_spans ih d⟩

/-- A text that decodes leaves as many containers open as there were. -/
theorem nest_of_loads {cs : List Char} {v : Json F} (h : loads cs = some v) (d : Nat) :
    nest .outside (d + 1) cs = some (.outside, d + 1) := by
  have hws {w : List Char} (hw : ∀ c ∈ w, isWs c = true) :
      nest .outside (d + 1) w = some (.outside, d + 1) :=
    nest_flat (fun c hc => isFlat_of_isWs (hw c hc)) d
  obtain ⟨w, w', he, hw, hw'⟩ := Text.trim_split isWs cs
  rw [loads] at h
  split at h
  · rename_i u hr
    obtain ⟨tok, ht, hs⟩ := (readersSpan _).1 d _ _ hr
    rw [List.append_nil] at ht
    rw [he, nest_append, hws hw, Option.bind_some, nest_append, ht, hs]
    exact hws hw'
  · cases h

/-- A text that decodes is scanned to its end. -/
theorem scan_of_loads {cs : List Char} {v : Json F} (h : loads cs = some v) :
    scan .outside cs = some .outside :=
  scan_of_nest (nest_of_loads h 0)

theorem scan_dumps (sp : Spacing) (v : Json F) : scan .outside (dumps sp v) = some .outside :=
  scan_of_loads (loads_dumps sp v)

end

/-- A character that only a string can hold. -/
def StringOnly (c : Char) : Prop :=
  c ≠ '"' ∧ isPlain c = false ∧ c ≠ 'u' ∧ unescape c = none

/-- Such a character splits a text inside one of its strings. -/
theorem scan_split {c : Char} {cs ds : List Char} (hc : StringOnly c)
    (h : scan .outside (cs ++ c :: ds) = some q) : scan .outside cs = some .inside := by
  rw [scan_append] at h
  obtain ⟨r, hr, h⟩ := Option.bind_eq_some_iff.1 h
  rw [hr]
  obtain ⟨h₁, h₂, h₃, h₄⟩ := hc
  cases r with
  | inside => rfl
  | outside => simp [scan, Lex.step, h₁, h₂] at h
  | escaped => simp [scan, Lex.step, h₃, h₄] at h

/-- Two scans of one text, one from outside and one from inside a string, stay on opposite sides:
a backslash would end the first and every other character keeps them apart. -/
theorem scan_opposite {cs : List Char} {q r q' r' : Lex}
    (hqr : (q = .outside ∧ r = .inside) ∨ (q = .inside ∧ r = .outside))
    (hq : scan q cs = some q') (hr : scan r cs = some r') :
    (q' = .outside ∧ r' = .inside) ∨ (q' = .inside ∧ r' = .outside) := by
  induction cs generalizing q r with
  | nil =>
    cases hq
    cases hr
    exact hqr
  | cons c cs ih =>
    have hb : isPlain '\\' = false := by decide
    rw [scan] at hq hr
    by_cases h₁ : c = '"'
    · subst h₁
      rcases hqr with ⟨rfl, rfl⟩ | ⟨rfl, rfl⟩
      · exact ih (.inr ⟨rfl, rfl⟩) hq hr
      · exact ih (.inl ⟨rfl, rfl⟩) hq hr
    by_cases h₂ : c = '\\'
    · subst h₂
      rcases hqr with ⟨rfl, rfl⟩ | ⟨rfl, rfl⟩
      · simp [Lex.step, hb] at hq
      · simp [Lex.step, hb] at hr
    rcases hqr with ⟨rfl, rfl⟩ | ⟨rfl, rfl⟩
    · simp only [Lex.step, if_neg h₁, if_neg h₂] at hq hr
      split at hq
      · cases hq
      rename_i hs
      split at hs
      · cases hs
        exact ih (.inl ⟨rfl, rfl⟩) hq hr
      · cases hs
    · simp only [Lex.step, if_neg h₁, if_neg h₂] at hq hr
      split at hr
      · cases hr
      rename_i hs
      split at hs
      · cases hs
        exact ih (.inr ⟨rfl, rfl⟩) hq hr
      · cases hs

/-- A text that is scanned whole has no other such text as its end behind a character that only
a string can hold. -/
theorem scan_suffix {c : Char} {cs ds : List Char} (hc : StringOnly c)
    (h : scan .outside (cs ++ c :: ds) = some .outside) :
    scan .outside ds ≠ some .outside := by
  intro hd
  have hi := scan_split hc h
  have hs : Lex.inside.step c = some .inside ∨ Lex.inside.step c = some .escaped := by
    rw [Lex.step, if_neg hc.1]
    split
    · exact .inr rfl
    · exact .inl rfl
  rw [scan_append, hi, Option.bind_some, scan] at h
  rcases hs with hs | hs
  · rw [hs] at h
    rcases scan_opposite (.inl ⟨rfl, rfl⟩) hd h with ⟨-, he⟩ | ⟨he, -⟩ <;> cases he
  · simp only [Lex.step, if_neg hc.1] at hs
    split at hs
    · rename_i hb
      subst hb
      obtain ⟨-, -, -, hu⟩ := hc
      cases hu
    · cases hs

end Obase.Json
