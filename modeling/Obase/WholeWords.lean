import Mathlib.Data.List.Basic

namespace Obase.WholeWords
set_option autoImplicit true

/-- A piece of a text: a run of word characters, or a character between such runs. -/
inductive Piece where
  | word (cs : List Char)
  | other (c : Char)
deriving DecidableEq

def Piece.text : Piece → List Char
  | word cs => cs
  | other c => [c]

section
variable (W : Char → Bool)

/-- The text with a word character before the first of its pieces. -/
def consWord (c : Char) : List Piece → List Piece
  | .word w :: ps => .word (c :: w) :: ps
  | ps => .word [c] :: ps

def pieces : List Char → List Piece
  | [] => []
  | c :: cs => if W c then consWord c (pieces cs) else .other c :: pieces cs

/-- The text begins with a word character. -/
def startsWord : List Char → Bool
  | [] => false
  | c :: _ => W c

/-- The substitution of `\b{old}\b` from a place on: whether a word character is before it, and how
many characters of a match are left. -/
def replaceWordFrom (old new : List Char) : Bool → Nat → List Char → List Char
  | _, _, [] => []
  | _, n + 1, c :: cs => replaceWordFrom old new (W c) n cs
  | before, 0, c :: cs =>
    if before ≠ W c ∧ old.isPrefixOf (c :: cs) ∧
        startsWord W ((c :: cs).drop old.length) = false then
      new ++ replaceWordFrom old new (W c) (old.length - 1) cs
    else c :: replaceWordFrom old new (W c) 0 cs

/-- `re.sub` of `\b{old}\b`, where `old` is a word. -/
def replaceWord (old new cs : List Char) : List Char := replaceWordFrom W old new false 0 cs

/-- The text of the characters is a word. -/
def IsWord (w : List Char) : Prop := w ≠ [] ∧ ∀ c ∈ w, W c = true

/-- The pieces are those of a text. -/
def Cut : List Piece → Prop
  | [] => True
  | .word w :: ps => IsWord W w ∧ (∀ v, ps.head? ≠ some (.word v)) ∧ Cut ps
  | .other c :: ps => W c = false ∧ Cut ps

end

variable {W : Char → Bool}

theorem pieces_cons (c : Char) (cs : List Char) :
    pieces W (c :: cs) = if W c then consWord c (pieces W cs) else .other c :: pieces W cs := rfl

theorem startsWord_cons (c : Char) (cs : List Char) : startsWord W (c :: cs) = W c := rfl

theorem replaceWordFrom_succ (old new : List Char) (before : Bool) (n : Nat) (c : Char)
    (cs : List Char) : replaceWordFrom W old new before (n + 1) (c :: cs) =
      replaceWordFrom W old new (W c) n cs := by
  cases before <;> rfl

theorem replaceWordFrom_zero (old new : List Char) (before : Bool) (c : Char) (cs : List Char) :
    replaceWordFrom W old new before 0 (c :: cs) =
      if before ≠ W c ∧ old.isPrefixOf (c :: cs) ∧
          startsWord W ((c :: cs).drop old.length) = false then
        new ++ replaceWordFrom W old new (W c) (old.length - 1) cs
      else c :: replaceWordFrom W old new (W c) 0 cs := by
  cases before <;> rfl

theorem text_consWord (c : Char) (ps : List Piece) :
    (consWord c ps).flatMap Piece.text = c :: ps.flatMap Piece.text := by
  cases ps with
  | nil => rfl
  | cons p ps => cases p <;> rfl

theorem text_pieces (cs : List Char) : (pieces W cs).flatMap Piece.text = cs := by
  induction cs with
  | nil => rfl
  | cons c cs ih =>
    rw [pieces_cons]
    split
    · rw [text_consWord, ih]
    · rw [List.flatMap_cons, ih]
      rfl

theorem cut_consWord {c : Char} (hc : W c = true) {ps : List Piece} (h : Cut W ps) :
    Cut W (consWord c ps) := by
  have hone : IsWord W [c] := ⟨List.cons_ne_nil _ _, List.forall_mem_singleton.2 hc⟩
  cases ps with
  | nil => exact ⟨hone, fun _ hv => (nomatch hv), trivial⟩
  | cons p ps =>
    cases p with
    | word w =>
      obtain ⟨⟨-, hw⟩, hh, hps⟩ := h
      exact ⟨⟨List.cons_ne_nil _ _, List.forall_mem_cons.2 ⟨hc, hw⟩⟩, hh, hps⟩
    | other d => exact ⟨hone, fun _ hv => (nomatch hv), h⟩

theorem cut_pieces (cs : List Char) : Cut W (pieces W cs) := by
  induction cs with
  | nil => trivial
  | cons c cs ih =>
    rw [pieces_cons]
    split
    · rename_i hc
      exact cut_consWord hc ih
    · rename_i hc
      exact ⟨Bool.eq_false_iff.2 hc, ih⟩

/-- What follows a word does not begin with a word character. -/
theorem startsWord_text {ps : List Piece} (h : Cut W ps) (hh : ∀ v, ps.head? ≠ some (.word v)) :
    startsWord W (ps.flatMap Piece.text) = false := by
  cases ps with
  | nil => rfl
  | cons p ps =>
    cases p with
    | word w => exact (hh w rfl).elim
    | other c => exact h.1

theorem pieces_word {w : List Char} (hw : IsWord W w) {ps : List Piece}
    (hh : ∀ v, ps.head? ≠ some (.word v)) {cs : List Char} (h : pieces W cs = ps) :
    pieces W (w ++ cs) = .word w :: ps := by
  obtain ⟨hn, hw⟩ := hw
  induction w with
  | nil => exact (hn rfl).elim
  | cons c w ih =>
    rw [List.cons_append, pieces_cons, if_pos (hw c (.head _))]
    cases w with
    | nil =>
      rw [List.nil_append, h]
      cases ps with
      | nil => rfl
      | cons p ps =>
        cases p with
        | word v => exact (hh v rfl).elim
        | other d => rfl
    | cons d w =>
      rw [ih (List.cons_ne_nil _ _) fun x hx => hw x (.tail _ hx)]
      rfl

/-- The pieces of a text can be read back from it. -/
theorem pieces_text {ps : List Piece} (h : Cut W ps) : pieces W (ps.flatMap Piece.text) = ps := by
  induction ps with
  | nil => rfl
  | cons p ps ih =>
    cases p with
    | word w =>
      obtain ⟨hw, hh, hps⟩ := h
      rw [List.flatMap_cons]
      exact pieces_word hw hh (ih hps)
    | other c =>
      rw [List.flatMap_cons, Piece.text, List.singleton_append, pieces_cons,
        if_neg (by rw [h.1]; decide), ih h.2]

section
variable {old new : List Char}

theorem replaceWordFrom_skip (before : Bool) (u cs : List Char) (hu : IsWord W u) :
    replaceWordFrom W old new before u.length (u ++ cs) =
      replaceWordFrom W old new true 0 cs := by
  obtain ⟨hn, hu⟩ := hu
  induction u generalizing before with
  | nil => exact (hn rfl).elim
  | cons c u ih =>
    rw [List.length_cons, List.cons_append, replaceWordFrom_succ, hu c (.head _)]
    by_cases hn : u = []
    · subst hn
      rfl
    · exact ih true hn fun x hx => hu x (.tail _ hx)

/-- Inside a word nothing is replaced. -/
theorem replaceWordFrom_inside (u cs : List Char) (hu : ∀ c ∈ u, W c = true) :
    replaceWordFrom W old new true 0 (u ++ cs) = u ++ replaceWordFrom W old new true 0 cs := by
  induction u with
  | nil => rfl
  | cons c u ih =>
    rw [List.cons_append, replaceWordFrom_zero, if_neg, hu c (.head _),
      ih fun x hx => hu x (.tail _ hx)]
    · rfl
    · rintro ⟨hc, -⟩
      exact hc (hu c (.head _)).symm

/-- A word at the start of what is left is replaced if it is the one that is looked for. -/
theorem replaceWordFrom_word {w cs : List Char} (ho : IsWord W old) (hw : IsWord W w)
    (hs : startsWord W cs = false) : replaceWordFrom W old new false 0 (w ++ cs) =
      (if w = old then new else w) ++ replaceWordFrom W old new true 0 cs := by
  by_cases he : w = old
  · subst he
    obtain ⟨c, u, rfl⟩ := List.exists_cons_of_ne_nil hw.1
    have hc := hw.2 c (.head _)
    rw [if_pos rfl, List.cons_append, replaceWordFrom_zero, if_pos, List.length_cons,
      Nat.add_sub_cancel, hc]
    · by_cases hn : u = []
      · subst hn
        rfl
      · rw [replaceWordFrom_skip true u cs ⟨hn, fun x hx => hw.2 x (.tail _ hx)⟩]
    · refine ⟨by rw [hc]; decide, List.isPrefixOf_iff_prefix.2 ⟨cs, rfl⟩, ?_⟩
      have hd : (c :: (u ++ cs)).drop (c :: u).length = cs := List.drop_left
      rw [hd, hs]
  · rw [if_neg he]
    obtain ⟨c, u, rfl⟩ := List.exists_cons_of_ne_nil hw.1
    have hc := hw.2 c (.head _)
    rw [List.cons_append, replaceWordFrom_zero, if_neg, hc,
      replaceWordFrom_inside u cs fun x hx => hw.2 x (.tail _ hx)]
    · rfl
    · rintro ⟨-, hp, hd⟩
      apply he
      rw [List.isPrefixOf_iff_prefix] at hp
      obtain ⟨v, hv⟩ := hp
      rw [← hv, List.drop_left] at hd
      rcases List.append_eq_append_iff.1 (show old ++ v = (c :: u) ++ cs from hv) with
        ⟨x, hx, hy⟩ | ⟨x, hx, hy⟩
      · cases x with
        | nil => rw [hx, List.append_nil]
        | cons d x =>
          rw [hy] at hd
          have := hw.2 d (by rw [hx]; exact List.mem_append_right _ (.head _))
          rw [List.cons_append, startsWord_cons, this] at hd
          cases hd
      · cases x with
        | nil => rw [hx, List.append_nil]
        | cons d x =>
          rw [hy] at hs
          have := ho.2 d (by rw [hx]; exact List.mem_append_right _ (.head _))
          rw [List.cons_append, startsWord_cons, this] at hs
          cases hs

theorem replaceWordFrom_other {c : Char} (hc : W c = false) (ho : IsWord W old) (before : Bool)
    (cs : List Char) : replaceWordFrom W old new before 0 (c :: cs) =
      c :: replaceWordFrom W old new false 0 cs := by
  rw [replaceWordFrom_zero, if_neg, hc]
  rintro ⟨-, hp, -⟩
  obtain ⟨d, u, rfl⟩ := List.exists_cons_of_ne_nil ho.1
  rw [List.isPrefixOf_cons_cons, Bool.and_eq_true, beq_iff_eq] at hp
  have hd := ho.2 d (.head _)
  rw [hp.1, hc] at hd
  cases hd

/-- The substitution replaces the pieces that are the word. -/
theorem replaceWordFrom_text (ho : IsWord W old) {ps : List Piece} (h : Cut W ps) (before : Bool)
    (hb : before = true → ∀ v, ps.head? ≠ some (.word v)) :
    replaceWordFrom W old new before 0 (ps.flatMap Piece.text) =
      ps.flatMap fun p => if p = .word old then new else p.text := by
  induction ps generalizing before with
  | nil =>
    rw [List.flatMap_nil, List.flatMap_nil]
    cases before <;> rfl
  | cons p ps ih =>
    rw [List.flatMap_cons, List.flatMap_cons]
    cases p with
    | word w =>
      obtain ⟨hw, hh, hps⟩ := h
      have hf : before = false := by
        cases before with
        | false => rfl
        | true => exact (hb rfl w rfl).elim
      rw [hf, Piece.text, replaceWordFrom_word ho hw (startsWord_text hps hh),
        ih hps true fun _ => hh]
      by_cases he : w = old
      · rw [if_pos he, if_pos (by rw [he])]
      · rw [if_neg he, if_neg fun hp => he (Piece.word.inj hp)]
    | other c =>
      rw [if_neg fun hp => (by cases hp), Piece.text, List.singleton_append,
        replaceWordFrom_other h.1 ho, ih h.2 false fun hf => (by cases hf), List.singleton_append]

/-- The pieces that a piece becomes where a word is replaced by others. -/
def substitute (old : List Char) (new : List Piece) (p : Piece) : List Piece :=
  if p = .word old then new else [p]

theorem cut_substitute {news : List Piece} (hn : ∀ qs, Cut W qs → Cut W (news ++ qs))
    {ps : List Piece} (h : Cut W ps) : Cut W (ps.flatMap (substitute old news)) := by
  induction ps with
  | nil => trivial
  | cons p ps ih =>
    rw [List.flatMap_cons, substitute]
    cases p with
    | word w =>
      obtain ⟨hw, hh, hps⟩ := h
      split
      · exact hn _ (ih hps)
      · refine ⟨hw, fun v hv => ?_, ih hps⟩
        cases ps with
        | nil => cases hv
        | cons q qs =>
          cases q with
          | word u => exact hh u rfl
          | other d => cases hv
    | other c =>
      rw [if_neg fun hp => (nomatch hp)]
      exact ⟨h.1, ih h.2⟩

/-- The substitution of a word in a text is that of the piece in its pieces. -/
theorem pieces_replaceWord (ho : IsWord W old) {news : List Piece}
    (hn : ∀ qs, Cut W qs → Cut W (news ++ qs)) (cs : List Char) :
    pieces W (replaceWord W old (news.flatMap Piece.text) cs) =
      (pieces W cs).flatMap (substitute old news) := by
  have ht : replaceWord W old (news.flatMap Piece.text) cs =
      ((pieces W cs).flatMap (substitute old news)).flatMap Piece.text := by
    have h := @replaceWordFrom_text W old (news.flatMap Piece.text) ho _ (cut_pieces cs) false
      fun hf => (by cases hf)
    rw [text_pieces] at h
    rw [replaceWord, h, List.flatMap_assoc]
    congr 1
    funext p
    rw [substitute]
    split
    · rfl
    · exact (List.append_nil _).symm
  rw [ht, pieces_text (cut_substitute hn (cut_pieces cs))]

end

end Obase.WholeWords
