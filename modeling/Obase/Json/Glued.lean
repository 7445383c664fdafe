import Obase.Json.Documents
import Obase.Json.Lexical
import Obase.Stripped

namespace Obase.Json
set_option autoImplicit true

section
variable [FloatText F]

/-- More fuel reads the same. -/
def ReadersKeep (F : Type) [FloatText F] (n : Nat) : Prop :=
  (∀ cs p, readValue (F := F) n cs = some p → readValue (n + 1) cs = some p) ∧
  (∀ cs p, readItems (F := F) n cs = some p → readItems (n + 1) cs = some p) ∧
  ∀ cs p, readMembers (F := F) n cs = some p → readMembers (n + 1) cs = some p

theorem readValue_keeps (ih : ReadersKeep F n) {cs : List Char} {p : Json F × List Char}
    (h : readValue (n + 1) cs = some p) : readValue (n + 2) cs = some p := by
  rw [readValue.eq_def] at h ⊢
  split at h
  · cases h
  rename_i m _ he
  injection he with he
  subst he
  split at h
  · exact h
  · exact h
  · exact h
  · exact h
  · exact h
  · exact h
  · split at h
    · exact h
    · obtain ⟨q, hq, rfl⟩ := Option.map_eq_some_iff.1 h
      rw [ih.2.1 _ _ hq]
      rfl
  · split at h
    · exact h
    · obtain ⟨q, hq, rfl⟩ := Option.map_eq_some_iff.1 h
      rw [ih.2.2 _ _ hq]
      rfl
  · exact h
  · exact h

theorem readItems_keeps (ih : ReadersKeep F n) {cs : List Char}
    {p : List (Json F) × List Char} (h : readItems (n + 1) cs = some p) :
    readItems (n + 2) cs = some p := by
  rw [readItems] at h ⊢
  split at h
  · cases h
  rename_i v ds hv
  rw [ih.1 _ _ hv]
  dsimp only
  split at h
  · exact h
  · obtain ⟨q, hq, rfl⟩ := Option.map_eq_some_iff.1 h
    rw [ih.2.1 _ _ hq]
    rfl
  · cases h

theorem readMembers_keeps (ih : ReadersKeep F n) {cs : List Char}
    {p : List (String × Json F) × List Char} (h : readMembers (n + 1) cs = some p) :
    readMembers (n + 2) cs = some p := by
  rw [readMembers.eq_def] at h ⊢
  split at h
  · cases h
  rename_i m _ he
  injection he with he
  subst he
  split at h
  swap
  · cases h
  split at h
  · cases h
  split at h
  swap
  · cases h
  split at h
  · cases h
  rename_i hv
  rw [ih.1 _ _ hv]
  dsimp only
  split at h
  · exact h
  · obtain ⟨q, hq, rfl⟩ := Option.map_eq_some_iff.1 h
    rw [ih.2.2 _ _ hq]
    rfl
  · cases h

theorem readersKeep (n : Nat) : ReadersKeep F n := by
  induction n with
  | zero => exact ⟨by simp [readValue], by simp [readItems], by simp [readMembers]⟩
  | succ n ih =>
    exact ⟨fun _ _ => readValue_keeps ih, fun _ _ => readItems_keeps ih,
      fun _ _ => readMembers_keeps ih⟩

theorem readValue_of_le {n m : Nat} (hnm : n ≤ m) {cs : List Char} {p : Json F × List Char}
    (h : readValue n cs = some p) : readValue m cs = some p := by
  induction m, hnm using Nat.le_induction with
  | base => exact h
  | succ m _ ih => exact (readersKeep m).1 _ _ ih

end

/-- What stands in a string literal. -/
inductive Body : List Char → Prop where
  | nil : Body []
  | char : c ≠ '"' → c ≠ '\\' → Body cs → Body (c :: cs)
  | escape : c = 'u' ∨ (unescape c).isSome → Body cs → Body ('\\' :: c :: cs)

theorem Body.hex {c : Char} (h : hexValue c = some n) (hb : Body cs) : Body (c :: cs) := by
  refine .char ?_ ?_ hb
  · rintro rfl
    cases h
  · rintro rfl
    cases h

theorem Body.hex4 (h : hex4 a b c d = some n) (hb : Body cs) :
    Body ('\\' :: 'u' :: a :: b :: c :: d :: cs) := by
  simp only [Json.hex4, Option.bind_eq_bind, Option.bind_eq_some_iff] at h
  obtain ⟨_, ha, _, hb', _, hc, _, hd, _⟩ := h
  exact .escape (.inl rfl) (.hex ha (.hex hb' (.hex hc (.hex hd hb))))

theorem body_of_readString {cs : List Char} {p : List Char × List Char}
    (h : readString cs = some p) : ∃ body, Body body ∧ cs = body ++ '"' :: p.2 := by
  fun_induction readString cs generalizing p with
  | case1 | case3 | case4 | case6 | case7 | case8 | case10 | case12 => cases h
  | case2 cs =>
    cases h
    exact ⟨[], .nil, rfl⟩
  | case5 a b c d hi h4 _ e f g k cs lo h4' _ ih =>
    obtain ⟨q, hq, he⟩ := push_eq_some h
    obtain ⟨body, hb, rfl⟩ := ih hq
    rw [he]
    exact ⟨_, (hb.hex4 h4').hex4 h4, rfl⟩
  | case9 a b c d cs hi h4 _ _ ih =>
    obtain ⟨q, hq, he⟩ := push_eq_some h
    obtain ⟨body, hb, rfl⟩ := ih hq
    rw [he]
    exact ⟨_, hb.hex4 h4, rfl⟩
  | case11 c cs _ c' hu ih =>
    obtain ⟨q, hq, he⟩ := push_eq_some h
    obtain ⟨body, hb, rfl⟩ := ih hq
    rw [he]
    exact ⟨_, .escape (.inr (by rw [hu]; rfl)) hb, rfl⟩
  | case13 c cs hq _ _ hc ih =>
    obtain ⟨q, hr, he⟩ := push_eq_some h
    obtain ⟨body, hb, rfl⟩ := ih hr
    rw [he]
    exact ⟨_, .char (fun he => hq he) (fun he => hc (.inr he)) hb, rfl⟩

/-- An object does not begin within a string and leave it open. -/
theorem Body.not_glued {x z : List Char} (h : Body (x ++ '{' :: '"' :: z)) : False := by
  generalize he : x ++ '{' :: '"' :: z = cs at h
  induction h generalizing x with
  | nil => cases x with
    | nil => cases he
    | cons c x => cases he
  | char hq hb h ih =>
    cases x with
    | nil =>
      injection he with _ he
      rw [← he] at h
      cases h with
      | char hq => exact hq rfl
    | cons c x =>
      injection he with _ he
      exact ih he
  | escape hc h ih =>
    cases x with
    | nil => cases he
    | cons c x =>
      injection he with _ he
      cases x with
      | nil =>
        injection he with he _
        subst he
        obtain he | he := hc
        · cases he
        · cases he
      | cons d x =>
        injection he with _ he
        exact ih he

/-- What is left of a text after a part of its beginning. -/
def LeavesAll (x t r : List Char) : Prop := ∃ x', x' <:+ x ∧ r = x' ++ t

/-- A string before an object ends before it, or at the quote of its first key. -/
theorem readString_glued {x t : List Char} {p : List Char × List Char}
    (h : readString (x ++ '{' :: '"' :: t) = some p) :
    LeavesAll x ('{' :: '"' :: t) p.2 ∨ p.2 = t := by
  obtain ⟨body, hb, he⟩ := body_of_readString h
  obtain ⟨y, rfl, hy⟩ | ⟨y, rfl, hy⟩ := List.append_eq_append_iff.1 he
  · cases y with
    | nil => cases hy
    | cons c y =>
      injection hy with hc hy
      subst hc
      cases y with
      | nil =>
        injection hy with _ hy
        exact .inr hy.symm
      | cons c y =>
        injection hy with hc _
        subst hc
        exact hb.not_glued.elim
  · cases y with
    | nil => cases hy
    | cons c y =>
      injection hy with _ hy
      exact .inl ⟨y, List.suffix_append_of_suffix (List.suffix_cons c y), hy⟩

section
variable {x y t o r : List Char} {a b : Char}

theorem LeavesAll.trans (h : LeavesAll x o (y ++ o)) (h' : LeavesAll y o r) : LeavesAll x o r := by
  obtain ⟨x', hx, he⟩ := h
  obtain ⟨y', hy, rfl⟩ := h'
  rw [List.append_cancel_right_eq] at he
  subst he
  exact ⟨y', hy.trans hx, rfl⟩

theorem LeavesAll.cons (h : LeavesAll x o r) (c : Char) : LeavesAll (c :: x) o r := by
  obtain ⟨x', hx, rfl⟩ := h
  exact ⟨x', hx.trans (List.suffix_cons c x), rfl⟩

theorem dropWhile_glued {p : Char → Bool} (hp : p b = false) (x t : List Char) :
    (x ++ b :: t).dropWhile p = x.dropWhile p ++ b :: t := by
  rw [List.dropWhile_append]
  split
  · rename_i he
    rw [List.isEmpty_iff.1 he, List.dropWhile_cons_of_neg (by rw [hp]; exact Bool.false_ne_true)]
    rfl
  · rfl

theorem skipWs_glued (x t : List Char) : skipWs (x ++ '{' :: t) = skipWs x ++ '{' :: t :=
  dropWhile_glued (by decide) x t

theorem leavesAll_skipWs (x t : List Char) :
    LeavesAll x ('{' :: t) (skipWs (x ++ '{' :: t)) :=
  ⟨skipWs x, List.dropWhile_suffix _, skipWs_glued x t⟩

/-- A token after what is left is there before the object. -/
theorem token_glued {cs : List Char} (ha : isPlain a = false) (hb : isPlain b = true)
    (hne : b ≠ '{') (h : LeavesAll x ('{' :: t) r ∨ r = [] ∨ ∃ ds, r = a :: ds)
    (hs : skipWs r = b :: cs) :
    LeavesAll x ('{' :: t) cs := by
  obtain ⟨x', hx, rfl⟩ | rfl | ⟨ds, rfl⟩ := h
  · rw [skipWs_glued] at hs
    cases hd : skipWs x' with
    | nil =>
      rw [hd] at hs
      injection hs with he _
      exact (hne he.symm).elim
    | cons c y =>
      rw [hd] at hs
      injection hs with _ hs
      have hy : c :: y <:+ x' := by
        rw [← hd]
        exact List.dropWhile_suffix _
      exact ⟨y, ((List.suffix_cons c y).trans hy).trans hx, hs.symm⟩
  · cases hs
  · have hw : isWs a = false := by
      rw [Bool.eq_false_iff]
      intro hw
      rw [isPlain, hw] at ha
      simp at ha
    rw [skipWs_of_head hw] at hs
    injection hs with he _
    rw [he, hb] at ha
    cases ha

end

section
variable [FloatText F] {x t : List Char} {a : Char}

omit [FloatText F] in
theorem keyword_glued {word : List Char} {v : Json F} {p : Json F × List Char} (hw : '{' ∉ word)
    (h : keyword word v (x ++ '{' :: t) = some p) : LeavesAll x ('{' :: t) p.2 := by
  rw [keyword] at h
  split at h
  · rename_i hp
    cases h
    have hpre : word <+: x := by
      obtain hp | ⟨y, rfl⟩ := List.prefix_or_prefix_of_prefix (List.isPrefixOf_iff_prefix.1 hp)
        (List.prefix_append x _)
      · exact hp
      · cases y with
        | nil =>
          exact ⟨[], by rw [List.append_nil, List.append_nil]⟩
        | cons c y =>
          have hp := List.isPrefixOf_iff_prefix.1 hp
          rw [List.prefix_append_right_inj] at hp
          obtain ⟨rfl, -⟩ := List.cons_prefix_cons.1 hp
          exact (hw (List.mem_append_right _ List.mem_cons_self)).elim
    rw [List.drop_append_of_le_length hpre.length_le]
    exact ⟨x.drop word.length, List.drop_suffix _ _, rfl⟩
  · cases h

theorem readNumber_glued {p : Json F × List Char} (h : readNumber (x ++ '{' :: t) = some p) :
    LeavesAll x ('{' :: t) p.2 := by
  have hp : p.2 = (x ++ '{' :: t).dropWhile isNumberChar := by
    simp only [readNumber] at h
    split at h
    · cases h; rfl
    · split at h
      · cases h; rfl
      · cases h
  rw [hp, dropWhile_glued (by decide)]
  exact ⟨_, List.dropWhile_suffix _, rfl⟩

/-- What a reader with this much fuel leaves of an object after some text. -/
def ReadersLeave (F : Type) [FloatText F] (o : List Char) (r : List Char) (n : Nat) : Prop :=
  (∀ x p, readValue (F := F) n (x ++ o) = some p →
    LeavesAll x o p.2 ∨ (x = [] ∧ p.2 = []) ∨ p.2 = r) ∧
  (∀ x p, readItems (F := F) n (x ++ o) = some p → LeavesAll x o p.2) ∧
  ∀ x p, readMembers (F := F) n (x ++ o) = some p → LeavesAll x o p.2

theorem readValue_glued
    (hz : ∀ n p, readValue (F := F) n ('{' :: '"' :: a :: t) = some p → p.2 = [])
    (ha : isPlain a = false) (ih : ReadersLeave F ('{' :: '"' :: a :: t) (a :: t) n)
    {p : Json F × List Char} (h : readValue (n + 1) (x ++ '{' :: '"' :: a :: t) = some p) :
    LeavesAll x ('{' :: '"' :: a :: t) p.2 ∨ (x = [] ∧ p.2 = []) ∨ p.2 = a :: t := by
  cases x with
  | nil => exact .inr (.inl ⟨rfl, hz _ _ h⟩)
  | cons c x =>
    rw [List.cons_append] at h
    generalize hcs : c :: (x ++ '{' :: '"' :: a :: t) = cs at h
    rw [readValue.eq_def] at h
    split at h
    · cases h
    rename_i m _ he
    injection he with he
    subst he
    split at h
    · injection hcs with _ hcs
      subst hcs
      exact .inl ((keyword_glued (by decide) h).cons c)
    · injection hcs with _ hcs
      subst hcs
      exact .inl ((keyword_glued (by decide) h).cons c)
    · injection hcs with _ hcs
      subst hcs
      exact .inl ((keyword_glued (by decide) h).cons c)
    · injection hcs with _ hcs
      subst hcs
      exact .inl ((keyword_glued (by decide) h).cons c)
    · injection hcs with _ hcs
      subst hcs
      exact .inl ((keyword_glued (by decide) h).cons c)
    · injection hcs with _ hcs
      subst hcs
      obtain ⟨q, hq, rfl⟩ := Option.map_eq_some_iff.1 h
      obtain hl | hr := readString_glued hq
      · exact .inl (hl.cons c)
      · exact .inr (.inr hr)
    · injection hcs with _ hcs
      subst hcs
      have hskip := leavesAll_skipWs x ('"' :: a :: t)
      split at h
      · rename_i hs
        cases h
        exact .inl ((token_glued ha (by decide) (by decide) (.inl ⟨x, List.suffix_refl x, rfl⟩)
          hs).cons c)
      · obtain ⟨q, hq, rfl⟩ := Option.map_eq_some_iff.1 h
        obtain ⟨y, hy, he⟩ := hskip
        rw [he] at hq
        exact .inl ((LeavesAll.trans ⟨y, hy, rfl⟩ (ih.2.1 _ _ hq)).cons c)
    · injection hcs with _ hcs
      subst hcs
      have hskip := leavesAll_skipWs x ('"' :: a :: t)
      split at h
      · rename_i hs
        cases h
        exact .inl ((token_glued ha (by decide) (by decide) (.inl ⟨x, List.suffix_refl x, rfl⟩)
          hs).cons c)
      · obtain ⟨q, hq, rfl⟩ := Option.map_eq_some_iff.1 h
        obtain ⟨y, hy, he⟩ := hskip
        rw [he] at hq
        exact .inl ((LeavesAll.trans ⟨y, hy, rfl⟩ (ih.2.2 _ _ hq)).cons c)
    · injection hcs with _ hcs
      cases x with
      | nil => cases hcs
      | cons d x =>
        injection hcs with _ hcs
        subst hcs
        exact .inl (((keyword_glued (by decide) h).cons d).cons c)
    · subst hcs
      exact .inl (readNumber_glued (x := c :: x) h)

theorem readItems_glued (ha : isPlain a = false)
    (ih : ReadersLeave F ('{' :: '"' :: a :: t) (a :: t) n) {p : List (Json F) × List Char}
    (h : readItems (n + 1) (x ++ '{' :: '"' :: a :: t) = some p) :
    LeavesAll x ('{' :: '"' :: a :: t) p.2 := by
  rw [readItems] at h
  split at h
  · cases h
  rename_i v ds hv
  have hleft : LeavesAll x ('{' :: '"' :: a :: t) ds ∨ ds = [] ∨ ∃ es, ds = a :: es := by
    obtain hl | ⟨-, hl⟩ | hl := ih.1 _ _ hv
    · exact .inl hl
    · exact .inr (.inl hl)
    · exact .inr (.inr ⟨t, hl⟩)
  split at h
  · rename_i hs
    cases h
    exact token_glued ha (by decide) (by decide) hleft hs
  · rename_i es hs
    obtain ⟨q, hq, rfl⟩ := Option.map_eq_some_iff.1 h
    obtain ⟨y, hy, rfl⟩ := token_glued ha (by decide) (by decide) hleft hs
    obtain ⟨z, hz, he⟩ := leavesAll_skipWs y ('"' :: a :: t)
    rw [he] at hq
    exact LeavesAll.trans ⟨z, hz.trans hy, rfl⟩ (ih.2.1 z q hq)
  · cases h

theorem readMembers_glued (ha : isPlain a = false)
    (ih : ReadersLeave F ('{' :: '"' :: a :: t) (a :: t) n)
    {p : List (String × Json F) × List Char}
    (h : readMembers (n + 1) (x ++ '{' :: '"' :: a :: t) = some p) :
    LeavesAll x ('{' :: '"' :: a :: t) p.2 := by
  generalize hcs : x ++ '{' :: '"' :: a :: t = cs at h
  rw [readMembers.eq_def] at h
  split at h
  · cases h
  rename_i m _ he
  injection he with he
  subst he
  split at h
  swap
  · cases h
  cases x with
  | nil => cases hcs
  | cons c x =>
    injection hcs with _ hcs
    subst hcs
    split at h
    · cases h
    rename_i k ds hk
    have hkey : LeavesAll x ('{' :: '"' :: a :: t) ds ∨ ds = [] ∨ ∃ es, ds = a :: es := by
      obtain hl | hl := readString_glued hk
      · exact .inl hl
      · exact .inr (.inr ⟨t, hl⟩)
    split at h
    swap
    · cases h
    rename_i es hs
    obtain ⟨y, hy, rfl⟩ := token_glued ha (by decide) (by decide) hkey hs
    obtain ⟨z, hz, he⟩ := leavesAll_skipWs y ('"' :: a :: t)
    rw [he] at h
    split at h
    · cases h
    rename_i v fs hv
    have hleft : LeavesAll z ('{' :: '"' :: a :: t) fs ∨ fs = [] ∨ ∃ es, fs = a :: es := by
      obtain hl | ⟨-, hl⟩ | hl := ih.1 _ _ hv
      · exact .inl hl
      · exact .inr (.inl hl)
      · exact .inr (.inr ⟨t, hl⟩)
    have hto (r : List Char) (hr : LeavesAll z ('{' :: '"' :: a :: t) r) :
        LeavesAll (c :: x) ('{' :: '"' :: a :: t) r :=
      (LeavesAll.trans ⟨z, hz.trans hy, rfl⟩ hr).cons c
    split at h
    · rename_i hs
      cases h
      exact hto _ (token_glued ha (by decide) (by decide) hleft hs)
    · rename_i gs hs
      obtain ⟨q, hq, rfl⟩ := Option.map_eq_some_iff.1 h
      obtain ⟨u, hu, rfl⟩ := token_glued ha (by decide) (by decide) hleft hs
      obtain ⟨w, hw, he⟩ := leavesAll_skipWs u ('"' :: a :: t)
      rw [he] at hq
      exact hto _ (LeavesAll.trans ⟨w, hw.trans hu, rfl⟩ (ih.2.2 w q hq))
    · cases h

theorem readersLeave (hz : ∀ n p, readValue (F := F) n ('{' :: '"' :: a :: t) = some p → p.2 = [])
    (ha : isPlain a = false) (n : Nat) : ReadersLeave F ('{' :: '"' :: a :: t) (a :: t) n := by
  induction n with
  | zero => exact ⟨by simp [readValue], by simp [readItems], by simp [readMembers]⟩
  | succ n ih =>
    exact ⟨fun _ _ => readValue_glued hz ha ih, fun _ _ => readItems_glued ha ih,
      fun _ _ => readMembers_glued ha ih⟩

/-- Blanks before a document do not matter. -/
theorem loads_of_blank {w : List Char} (hw : ∀ c ∈ w, isWs c = true) (cs : List Char) :
    loads (F := F) (w ++ cs) = loads cs := by
  have ht : Text.trim isWs (w ++ cs) = Text.trim isWs cs := by
    rw [Text.trim, Text.trim, List.dropWhile_append_of_pos hw]
  rw [loads, loads, ht]

/-- A written object is no end of a document that begins with anything but blanks, if its first key
begins with a character that stands in strings alone. -/
theorem blank_of_loads_glued {str : String → List Char} (hq : Quotes str) {sp : Spacing}
    {ms : List (String × Json F)} {w : List Char} {v : Json F}
    (ho : dumpsWith str sp (.dict ms) = '{' :: '"' :: a :: t) (ha : isPlain a = false)
    (h : loads (w ++ dumpsWith str sp (.dict ms)) = some v) : ∀ c ∈ w, isWs c = true := by
  have hz (n : Nat) (p : Json F × List Char)
      (hp : readValue n ('{' :: '"' :: a :: t) = some p) : p.2 = [] := by
    have hread := readValue_dumpsWith hq sp (.dict ms : Json F)
      (max n ((dumpsWith str sp (.dict ms : Json F)).length + 1)) []
      (Nat.lt_of_lt_of_le (Nat.lt_succ_self _) (le_max_right ..)) numberEnd_nil
    have hp := readValue_of_le
      (le_max_left n ((dumpsWith str sp (.dict ms : Json F)).length + 1)) hp
    rw [← ho] at hp
    rw [List.append_nil] at hread
    cases hp.symm.trans hread
    rfl
  have htrim : Text.trim isWs (w ++ dumpsWith str sp (.dict ms : Json F)) =
      w.dropWhile isWs ++ dumpsWith str sp (.dict ms : Json F) :=
    Text.trim_append_trimmed
      (Trimmed.of_isSpace (dumpsWith_trimmed hq sp (.dict ms : Json F))) w
  rw [loads, htrim] at h
  split at h
  · rename_i u hr
    rw [ho] at hr
    obtain ⟨x', -, he⟩ | ⟨hx, -⟩ | he := (readersLeave hz ha _).1 _ _ hr
    · exact absurd he.symm (by simp)
    · exact List.dropWhile_eq_nil_iff.1 hx
    · cases he
  · cases h

end

end Obase.Json

namespace Obase.Json
set_option autoImplicit true
open Text

/-- A line break of a text with balanced containers stands outside its strings, within some of
them. -/
theorem nest_newline {x y : List Char} {q : Lex} {e : Nat}
    (h : nest .outside (d + 1) (x ++ '\n' :: y) = some (q, e)) :
    ∃ k, nest .outside (d + 1) x = some (.outside, k + 1) ∧
      nest .outside (k + 1) y = some (q, e) := by
  rw [nest_append] at h
  obtain ⟨⟨r, k⟩, hx, h⟩ := Option.bind_eq_some_iff.1 h
  cases k with
  | zero => cases h
  | succ k =>
    cases r with
    | outside => exact ⟨k, hx, h⟩
    | inside => cases h
    | escaped => cases h

/-- A text cut at a character that only a string can hold is no document. -/
theorem not_loads_before [FloatText F] {x y : List Char} {b : Char} {q : Lex} (hb : StringOnly b)
    (h : scan .outside (x ++ b :: y) = some q) (v : Json F) : loads (strip x) ≠ some v := by
  intro hv
  have hin := scan_split hb h
  obtain ⟨u, u', he, hu, hu'⟩ := trim_split isSpace x
  rw [he] at hin
  have hs := (scan_blank_append hu hin).1
  rw [scan_append, show scan .outside (trim isSpace x) = _ from scan_of_loads hv] at hs
  cases (scan_spaces hu' hs).1

section
variable [FloatText F]

/-- An object is read from its opening bracket to the end of the containers it opens. -/
theorem readValue_dict {cs rest : List Char} {ms : List (String × Json F)}
    (h : readValue n cs = some (.dict ms, rest)) :
    ∃ tok, cs = '{' :: (tok ++ rest) ∧ nest .outside 1 tok = some (.outside, 0) := by
  have hkeyword {word ds : List Char} {v : Json F} (hk : keyword word v ds = some (.dict ms, rest))
      (hv : ∀ l, v ≠ .dict l) : False := by
    rw [keyword] at hk
    split at hk
    · cases hk
      exact hv _ rfl
    · cases hk
  rw [readValue.eq_def] at h
  split at h
  · cases h
  split at h
  · exact (hkeyword h fun _ hl => by cases hl).elim
  · exact (hkeyword h fun _ hl => by cases hl).elim
  · exact (hkeyword h fun _ hl => by cases hl).elim
  · exact (hkeyword h fun _ hl => by cases hl).elim
  · exact (hkeyword h fun _ hl => by cases hl).elim
  · obtain ⟨p, -, he⟩ := Option.map_eq_some_iff.1 h
    cases he
  · split at h
    · cases h
    · obtain ⟨p, -, he⟩ := Option.map_eq_some_iff.1 h
      cases he
  · rename_i cs
    split at h
    · rename_i hs
      cases h
      obtain ⟨tok, ht, hn⟩ := spans_close (d := 0) (.inl rfl) hs
      exact ⟨tok, by rw [ht], hn⟩
    · obtain ⟨p, hp, he⟩ := Option.map_eq_some_iff.1 h
      cases he
      obtain ⟨tok, ht, hn⟩ := (spans_skipWs 0 cs).trans ((readersSpan _).2.2 0 _ _ hp)
      exact ⟨tok, by rw [ht], hn⟩
  · exact (hkeyword h fun _ hl => by cases hl).elim
  · simp only [readNumber] at h
    split at h
    · cases h
    · split at h
      · cases h
      · cases h

/-- The text of an object: blanks, and between brackets what closes the first of them last. -/
theorem exists_dict_text {cs : List Char} {ms : List (String × Json F)}
    (h : loads cs = some (.dict ms)) :
    ∃ w tok w', cs = w ++ '{' :: (tok ++ w') ∧ (∀ c ∈ w, isWs c = true) ∧
      (∀ c ∈ w', isWs c = true) ∧ nest .outside 1 tok = some (.outside, 0) := by
  obtain ⟨w, w', he, hw, hw'⟩ := trim_split isWs cs
  rw [loads] at h
  split at h
  · rename_i v hr
    rw [Option.some.injEq] at h
    cases v with
    | dict ms' =>
      obtain ⟨tok, ht, hn⟩ := readValue_dict hr
      rw [List.append_nil] at ht
      refine ⟨w, tok, w', ?_, hw, hw', hn⟩
      rw [he, ht]
      rfl
    | _ => simp [Value.build] at h
  · cases h

/-- A suffix that has a character which another has not is the longer one. -/
theorem exists_suffix {x y tok w' : List Char} {p : Char → Bool} (h : x ++ y = tok ++ w')
    (hw' : ∀ c ∈ w', p c = true) (hy : ∃ c ∈ y, p c = false) :
    ∃ z, y = z ++ w' ∧ tok = x ++ z := by
  obtain ⟨z, rfl, rfl⟩ | ⟨z, rfl, rfl⟩ := List.append_eq_append_iff.1 h
  · exact ⟨z, rfl, rfl⟩
  · obtain ⟨c, hc, hp⟩ := hy
    rw [hw' c (List.mem_append_right _ hc)] at hp
    cases hp

/-- A text whose containers are not all closed has more to come than a document. -/
theorem not_loads_of_nest {cs : List Char} {k : Nat}
    (h : nest .outside (k + 1) cs = some (.outside, 0)) (v : Json F) :
    loads (strip cs) ≠ some v := by
  intro hv
  obtain ⟨u, u', he, hu, hu'⟩ := trim_split isSpace cs
  have hws {w : List Char} (hw : ∀ c ∈ w, isWs c = true) :
      nest .outside (k + 1) w = some (.outside, k + 1) :=
    nest_flat (fun c hc => isFlat_of_isWs (hw c hc)) k
  have hs := scan_of_nest h
  rw [he] at hs
  obtain ⟨hs, hw⟩ := scan_blank_append hu hs
  obtain ⟨-, hw'⟩ := scan_append_spaces hu' hs
  have hn : nest .outside (k + 1) cs = some (.outside, k + 1) := by
    rw [he, nest_append, hws hw, Option.bind_some, nest_append,
      show nest .outside (k + 1) (trim isSpace cs) = _ from nest_of_loads hv k]
    exact hws hw'
  rw [hn] at h
  cases h

theorem exists_not_ws {cs : List Char} (h : notBlank cs = true) : ∃ c ∈ cs, isWs c = false := by
  obtain ⟨c, hc, hs, -⟩ := strip_trimmed h
  refine ⟨c, mem_trim (List.mem_of_mem_head? hc), ?_⟩
  by_contra hw
  rw [isSpace_of_isWs (Bool.not_eq_false _ ▸ hw)] at hs
  cases hs

theorem notBlank_of_loads {cs : List Char} {v : Json F} (h : loads cs = some v) :
    notBlank cs = true := by
  by_contra hb
  have hs := notBlank_eq_false_iff.1 (Bool.eq_false_iff.2 hb)
  have he := loads_of_blank (F := F) (scan_spaces hs (scan_of_loads h)).2 []
  rw [List.append_nil, h] at he
  cases he

/-- Behind a line break within an object no other document ends it. -/
theorem not_loads_after {x y : List Char} {ms : List (String × Json F)}
    (hx : notBlank x = true) (h : loads (x ++ '\n' :: y) = some (.dict ms)) (v : Json F) :
    loads (strip y) ≠ some v := by
  intro hv
  have hy : notBlank y = true := by
    rw [notBlank, Bool.not_eq_true', List.isEmpty_eq_false_iff]
    intro hs
    rw [hs] at hv
    cases hv
  obtain ⟨w, tok, w', he, hw, hw', hn⟩ := exists_dict_text h
  obtain ⟨x', rfl, hrest⟩ : ∃ x', x = w ++ '{' :: x' ∧ x' ++ '\n' :: y = tok ++ w' := by
    obtain ⟨z, rfl, hz⟩ | ⟨z, rfl, -⟩ := List.append_eq_append_iff.1 he.symm
    · cases z with
      | nil => cases hz
      | cons c z =>
        injection hz with hc hz
        exact ⟨z, by rw [hc], hz.symm⟩
    · obtain ⟨c, hc, hs⟩ := exists_not_ws hx
      rw [hw c (List.mem_append_left _ hc)] at hs
      cases hs
  rw [List.append_cons] at hrest
  obtain ⟨z, rfl, rfl⟩ := exists_suffix hrest hw' (exists_not_ws hy)
  rw [List.append_assoc] at hn
  obtain ⟨k, -, hk⟩ := nest_newline hn
  have hstrip : strip (z ++ w') = strip z :=
    trim_append (w := []) (fun _ hm => by cases hm) (fun c hc => isSpace_of_isWs (hw' c hc)) z
  rw [hstrip] at hv
  exact not_loads_of_nest hk v hv

end
end Obase.Json
