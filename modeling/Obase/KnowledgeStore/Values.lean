import Obase.KnowledgeStore.Parse

namespace Obase.KnowledgeStore
set_option autoImplicit true
open Text

def OneLine (cs : List Char) : Prop := ∀ c ∈ cs, isLineBoundary c = false

instance (cs : List Char) : Decidable (OneLine cs) :=
  List.decidableBAll (fun c => isLineBoundary c = false) cs

theorem OneLine.no_cr {cs : List Char} (h : OneLine cs) : '\r' ∉ cs :=
  fun hm => absurd (h _ hm) (by decide)

theorem OneLine.of_subset {cs ds : List Char} (h : OneLine cs) (hs : ∀ c ∈ ds, c ∈ cs) :
    OneLine ds := fun c hc => h c (hs c hc)

/-- A text that is read as the text that it is. -/
structure PlainText (cs : List Char) : Prop where
  oneLine : OneLine cs
  no_delimiter : ¬ delimiter <:+: cs
  stripped : strip cs = cs
  not_true : cs ≠ "true".toList
  not_false : cs ≠ "false".toList
  not_list : ¬ bracketed cs

/-- An item of a list that is read as it is. -/
structure PlainItem (x : String) : Prop where
  oneLine : OneLine x.toList
  no_delimiter : ¬ delimiter <:+: x.toList
  no_comma : ',' ∉ x.toList
  not_empty : x ≠ ""
  stripped : strip x.toList = x.toList
  unquoted : stripQuotes x.toList = x.toList

/-- A value that is no list. -/
def Field.Scalar (v : Field) : Prop := ∀ xs, v ≠ .list xs

variable {printable : Char → Bool}

theorem parseValue_of_plain {cs : List Char} (ht : cs ≠ "true".toList) (hf : cs ≠ "false".toList)
    (hl : ¬ bracketed cs) : parseValue cs = .str (String.ofList cs) := by
  rw [parseValue, if_neg ht, if_neg hf, if_neg hl]

/-- When the value that is read has the text that was written. -/
theorem parseValue_text_iff {cs : List Char} :
    (parseValue (strip cs)).Scalar ∧ (parseValue (strip cs)).text printable = cs ↔
      strip cs = cs ∧ cs ≠ "true".toList ∧ cs ≠ "false".toList ∧ ¬ bracketed cs := by
  constructor
  · rintro ⟨hs, ht⟩
    by_cases h₁ : strip cs = "true".toList
    · rw [h₁] at ht
      have ht : "True".toList = cs := ht
      rw [← ht] at h₁
      exact absurd h₁ (by decide)
    by_cases h₂ : strip cs = "false".toList
    · rw [h₂] at ht
      have ht : "False".toList = cs := ht
      rw [← ht] at h₂
      exact absurd h₂ (by decide)
    by_cases h₃ : bracketed (strip cs)
    · refine (hs (parseItems (strip cs).tail.dropLast) ?_).elim
      rw [parseValue, if_neg h₁, if_neg h₂, if_pos h₃]
    rw [parseValue_of_plain h₁ h₂ h₃] at ht
    have hcs : strip cs = cs := String.toList_ofList.symm.trans ht
    rw [hcs] at h₁ h₂ h₃
    exact ⟨hcs, h₁, h₂, h₃⟩
  · rintro ⟨hcs, h₁, h₂, h₃⟩
    rw [hcs, parseValue_of_plain h₁ h₂ h₃]
    exact ⟨fun xs he => (nomatch he), String.toList_ofList⟩

theorem PlainText.parse {cs : List Char} (h : PlainText cs) :
    parseValue (strip cs) = .str (String.ofList cs) := by
  rw [h.stripped, parseValue_of_plain h.not_true h.not_false h.not_list]

/-- A value as the parser gives it. -/
def Field.Parsed : Field → Prop
  | .bool _ => True
  | .str s => OneLine s.toList
  | .list xs => ∀ x ∈ xs, OneLine x.toList ∧ ',' ∉ x.toList
  | _ => False

theorem mem_parseItems {cs : List Char} {x : String} (h : x ∈ parseItems cs) :
    (∀ c ∈ x.toList, c ∈ cs) ∧ ',' ∉ x.toList := by
  obtain ⟨l, hl, rfl⟩ := List.mem_map.1 h
  have hm := (List.mem_filter.1 hl).1
  rw [String.toList_ofList]
  refine ⟨fun c hc => ?_, fun hc => ?_⟩
  · exact Separated.mem_of_mem_splitOn hm (mem_trim (mem_trim hc))
  · exact Separated.not_mem_splitOn hm (mem_trim (mem_trim hc))

theorem parseValue_parsed {cs : List Char} (h : OneLine cs) : (parseValue cs).Parsed := by
  rw [parseValue]
  split
  · trivial
  · split
    · trivial
    · split
      · intro x hx
        obtain ⟨hm, hc⟩ := mem_parseItems hx
        refine ⟨h.of_subset fun c hx => ?_, hc⟩
        exact List.mem_of_mem_tail (List.mem_of_mem_dropLast (hm c hx))
      · change OneLine (String.ofList cs).toList
        rw [String.toList_ofList]
        exact h

theorem parseLine_value {l : List Char} {p : String × Field} (h : parseLine l = some p) :
    ∃ v, p.2 = parseValue (strip v) ∧ v <:+: l := by
  obtain ⟨⟨k, v⟩, hp, rfl⟩ := Option.map_eq_some_iff.1 h
  refine ⟨v, rfl, ?_⟩
  rw [partition_ok hp]
  exact (List.suffix_append ..).isInfix

/-- The fields that are read are as the parser gives them, of a part of a line of the text. -/
theorem entries_value {cs : List Char} {p : String × Field} (h : p ∈ entries cs) :
    p.2.Parsed ∧ ∃ v, p.2 = parseValue (strip v) ∧ OneLine v ∧ v <:+: cs := by
  obtain ⟨l, hl, hp⟩ := List.mem_filterMap.1 h
  obtain ⟨v, hv, hi⟩ := parseLine_value hp
  have hone : OneLine v := fun c hc => not_boundary_of_mem_lines hl c (hi.subset hc)
  refine ⟨?_, v, hv, hone, hi.trans (infix_of_mem_lines hl)⟩
  rw [hv]
  exact parseValue_parsed (hone.of_subset fun c hc => mem_trim hc)

theorem Field.Parsed.text_oneLine {v : Field} (h : v.Parsed) (hs : v.Scalar) :
    OneLine (v.text printable) := by
  cases v with
  | none => exact h.elim
  | int n => exact h.elim
  | bool b =>
    cases b with
    | true =>
      change OneLine "True".toList
      decide
    | false =>
      change OneLine "False".toList
      decide
  | str s => exact h
  | list xs => exact (hs xs rfl).elim

theorem joinComma_cons (x : List Char) (xs : List (List Char)) :
    joinComma (x :: xs) = [','].intercalate (x :: xs.map fun x => ' ' :: x) := by
  induction xs generalizing x with
  | nil => rfl
  | cons y xs ih =>
    rw [joinComma, List.intercalate_cons_cons, ← joinComma, ih, List.map_cons,
      List.intercalate_cons_cons, Separated.intercalate_cons, Separated.intercalate_cons]
    simp

/-- Items without commas are told apart again, but for blank ones. -/
theorem parseItems_join {xs : List String} (h : ∀ x ∈ xs, ',' ∉ x.toList) :
    parseItems (joinComma (xs.map String.toList)) =
      (xs.filter fun x => notBlank x.toList).map fun x =>
        String.ofList (stripQuotes (strip x.toList)) := by
  cases xs with
  | nil => rfl
  | cons x xs =>
    have hcomma : ∀ l ∈ x.toList :: (xs.map String.toList).map fun y => ' ' :: y, ',' ∉ l := by
      rw [List.forall_mem_cons] at h ⊢
      refine ⟨h.1, ?_⟩
      intro l hl hm
      obtain ⟨y, hy, rfl⟩ := List.mem_map.1 hl
      obtain ⟨z, hz, rfl⟩ := List.mem_map.1 hy
      obtain hm | hm := List.mem_cons.1 hm
      · exact absurd hm (by decide)
      · exact h.2 z hz hm
    have hspace (cs : List Char) : strip (' ' :: cs) = strip cs := trim_cons (by decide) cs
    have hblank (cs : List Char) : notBlank (' ' :: cs) = notBlank cs := by
      rw [notBlank, notBlank, hspace]
    have htail : (((xs.map String.toList).map fun y => ' ' :: y).filter notBlank).map
        (fun x => String.ofList (stripQuotes (strip x))) =
          (xs.filter fun x => notBlank x.toList).map fun x =>
            String.ofList (stripQuotes (strip x.toList)) := by
      rw [List.map_map, List.filter_map, List.map_map]
      refine congrArg₂ List.map (funext fun x => ?_) (List.filter_congr fun x _ => ?_)
      · exact congrArg (fun cs => String.ofList (stripQuotes cs)) (hspace x.toList)
      · exact hblank x.toList
    rw [parseItems, List.map_cons, joinComma_cons,
      List.splitOn_intercalate ',' hcomma (List.cons_ne_nil _ _), List.filter_cons,
      List.filter_cons]
    split
    · rw [List.map_cons, List.map_cons, htail]
    · exact htail

theorem trim_length (p : Char → Bool) (cs : List Char) : (trim p cs).length ≤ cs.length := by
  obtain ⟨w, w', he, -, -⟩ := trim_split p cs
  conv_rhs => rw [he]
  rw [List.length_append, List.length_append]
  omega

theorem trim_eq_of_length {p : Char → Bool} {cs : List Char}
    (h : cs.length ≤ (trim p cs).length) : trim p cs = cs := by
  obtain ⟨w, w', he, -, -⟩ := trim_split p cs
  have hlen := congrArg List.length he
  rw [List.length_append, List.length_append] at hlen
  obtain rfl : w = [] := List.eq_nil_of_length_eq_zero (by omega)
  obtain rfl : w' = [] := List.eq_nil_of_length_eq_zero (by omega)
  rw [List.nil_append, List.append_nil] at he
  exact he.symm

theorem filter_map_eq_self_iff {xs : List α} {p : α → Bool} {f : α → α} :
    (xs.filter p).map f = xs ↔ ∀ x ∈ xs, p x = true ∧ f x = x := by
  constructor
  · intro h
    have hlen := congrArg List.length h
    rw [List.length_map] at hlen
    have hp := List.filter_eq_self.1 (List.filter_sublist.eq_of_length hlen)
    rw [List.filter_eq_self.2 hp] at h
    have hf : xs.map f = xs.map id := h.trans (List.map_id xs).symm
    exact fun x hx => ⟨hp x hx, List.map_inj_left.1 hf x hx⟩
  · intro h
    rw [List.filter_eq_self.2 fun x hx => (h x hx).1]
    exact (List.map_congr_left fun x hx => (h x hx).2).trans (List.map_id xs)

/-- When the items that are read are those that were written. -/
theorem parseItems_iff {xs : List String} (h : ∀ x ∈ xs, ',' ∉ x.toList) :
    parseItems (joinComma (xs.map String.toList)) = xs ↔ ∀ x ∈ xs,
      x ≠ "" ∧ strip x.toList = x.toList ∧ stripQuotes x.toList = x.toList := by
  rw [parseItems_join h, filter_map_eq_self_iff]
  refine forall₂_congr fun x _ => ?_
  have hq : String.ofList (stripQuotes (strip x.toList)) = x ↔
      stripQuotes (strip x.toList) = x.toList := by
    rw [← String.toList_inj, String.toList_ofList]
  rw [hq]
  constructor
  · rintro ⟨hb, he⟩
    have hs : strip x.toList = x.toList := by
      apply trim_eq_of_length
      have h₁ := trim_length (fun c => c ∈ ['\'', '"']) (strip x.toList)
      rw [← stripQuotes, he] at h₁
      exact h₁
    rw [hs] at he
    refine ⟨?_, hs, he⟩
    rintro rfl
    exact absurd hb (by decide)
  · rintro ⟨hne, hs, he⟩
    rw [hs]
    refine ⟨?_, he⟩
    rw [notBlank, hs, Bool.not_eq_true', List.isEmpty_eq_false_iff]
    exact fun hn => hne (String.toList_eq_nil_iff.1 hn)

/-- The text of a list is read as a list. -/
theorem parseValue_list (cs : List Char) :
    parseValue (strip ('[' :: (cs ++ [']']))) = .list (parseItems cs) := by
  have hs : strip ('[' :: (cs ++ [']'])) = '[' :: (cs ++ [']']) := by
    refine trim_eq_self_iff.2 ⟨fun c hc => ?_, fun c hc => ?_⟩
    · obtain rfl := Option.some.inj hc
      decide
    · rw [← List.cons_append, List.getLast?_concat] at hc
      obtain rfl := Option.some.inj hc
      decide
  have hb : bracketed ('[' :: (cs ++ [']'])) := by
    refine ⟨rfl, ?_⟩
    rw [← List.cons_append, List.getLast?_concat]
  have ht : '[' :: (cs ++ [']']) ≠ "true".toList := fun he => by
    injection he with he _
    exact absurd he (by decide)
  have hf : '[' :: (cs ++ [']']) ≠ "false".toList := fun he => by
    injection he with he _
    exact absurd he (by decide)
  rw [hs, parseValue, if_neg ht, if_neg hf, if_pos hb, List.tail_cons, List.dropLast_concat]

theorem joinComma_singleton (x : List Char) : joinComma [x] = x :=
  List.intercalate_singleton

theorem joinComma_cons_cons (x y : List Char) (xs : List (List Char)) :
    joinComma (x :: y :: xs) = x ++ ',' :: ' ' :: joinComma (y :: xs) := by
  rw [joinComma, List.intercalate_cons_cons, ← joinComma, List.append_assoc]
  rfl

theorem mem_joinComma {c : Char} {xs : List (List Char)} (h : c ∈ joinComma xs) :
    c = ',' ∨ c = ' ' ∨ ∃ x ∈ xs, c ∈ x := by
  cases xs with
  | nil => cases h
  | cons x xs =>
    rw [joinComma_cons] at h
    obtain h | ⟨y, hy, h⟩ := Separated.mem_intercalate h
    · exact .inl h
    · obtain hy | hy := List.mem_cons.1 hy
      · exact .inr (.inr ⟨x, .head _, hy ▸ h⟩)
      · obtain ⟨z, hz, rfl⟩ := List.mem_map.1 hy
        obtain h | h := List.mem_cons.1 h
        · exact .inr (.inl h)
        · exact .inr (.inr ⟨z, .tail _ hz, h⟩)

theorem delimiter_joinComma {xs : List (List Char)} (h : delimiter <:+: joinComma xs) :
    ∃ x ∈ xs, delimiter <:+: x := by
  induction xs with
  | nil => exact absurd h.length_le (by decide)
  | cons x xs ih =>
    cases xs with
    | nil => exact ⟨x, .head _, joinComma_singleton x ▸ h⟩
    | cons y xs =>
      rw [joinComma_cons_cons] at h
      obtain h | h := infix_append_cons (by decide) h
      · exact ⟨x, .head _, h⟩
      · obtain h | h := infix_append_cons (l := []) (by decide) h
        · exact absurd h.length_le (by decide)
        · obtain ⟨z, hz, h⟩ := ih h
          exact ⟨z, .tail _ hz, h⟩

theorem parseValue_true : parseValue (strip "true".toList) = .bool true := by decide

theorem parseValue_false : parseValue (strip "false".toList) = .bool false := by decide

theorem PlainText.text {cs : List Char} (h : PlainText cs) :
    (parseValue (strip cs)).Scalar ∧ (parseValue (strip cs)).text printable = cs :=
  parseValue_text_iff.2 ⟨h.stripped, h.not_true, h.not_false, h.not_list⟩

end Obase.KnowledgeStore
