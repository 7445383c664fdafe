import Obase.Json.RoundTrip

namespace Obase.Json
set_option autoImplicit true

/-- A line break, and the indentation of a level. -/
def lineBreak (indent level : Nat) : List Char := '\n' :: List.replicate (indent * level) ' '

section
variable {F : Type} [FloatText F] (indent : Nat)

mutual
/-- `json.dumps(v, ensure_ascii=False, indent=indent)` inside containers up to a level. -/
def dumpsIndent (level : Nat) : Json F → List Char
  | .null => dumps .default (.null : Json F)
  | .bool b => dumps .default (.bool b : Json F)
  | .int n => dumps .default (.int n : Json F)
  | .float x => dumps .default (.float x)
  | .str s => dumps .default (.str s : Json F)
  | .list [] => ['[', ']']
  | .list (v :: vs) =>
    '[' :: (lineBreak indent (level + 1) ++ (dumpsIndent (level + 1) v ++ itemsIndent level vs))
  | .dict [] => ['{', '}']
  | .dict ((k, v) :: ms) =>
    '{' :: (lineBreak indent (level + 1) ++
      (stringText k ++ ':' :: ' ' :: (dumpsIndent (level + 1) v ++ membersIndent level ms)))
def itemsIndent (level : Nat) : List (Json F) → List Char
  | [] => lineBreak indent level ++ [']']
  | v :: vs =>
    ',' :: (lineBreak indent (level + 1) ++ (dumpsIndent (level + 1) v ++ itemsIndent level vs))
def membersIndent (level : Nat) : List (String × Json F) → List Char
  | [] => lineBreak indent level ++ ['}']
  | (k, v) :: ms =>
    ',' :: (lineBreak indent (level + 1) ++
      (stringText k ++ ':' :: ' ' :: (dumpsIndent (level + 1) v ++ membersIndent level ms)))
end

theorem skipWs_lineBreak {indent level : Nat} {c : Char} (cs : List Char) (h : isWs c = false) :
    skipWs (lineBreak indent level ++ c :: cs) = c :: cs := by
  have hn : isWs '\n' = true := by decide
  have hs : isWs ' ' = true := by decide
  have hr (n : Nat) : skipWs (List.replicate n ' ' ++ c :: cs) = c :: cs := by
    induction n with
    | zero => exact skipWs_of_head h
    | succ n ih =>
      rw [List.replicate_succ, List.cons_append, skipWs, List.dropWhile_cons_of_pos hs]
      exact ih
  rw [lineBreak, List.cons_append, skipWs, List.dropWhile_cons_of_pos hn]
  exact hr _

theorem dumpsIndent_head (level : Nat) (v : Json F) :
    ∃ c cs, dumpsIndent indent level v = c :: cs ∧ isValueHead c = true := by
  have hscalar (w : Json F) : ∃ c cs, dumps .default w = c :: cs ∧ isValueHead c = true := by
    rw [dumps_eq]
    exact dumpsWith_head quotes_stringText .default w
  cases v with
  | null | bool | int | float | str =>
    rw [dumpsIndent]
    exact hscalar _
  | list xs =>
    cases xs with
    | nil => exact ⟨_, _, rfl, rfl⟩
    | cons => exact ⟨_, _, rfl, rfl⟩
  | dict ms =>
    cases ms with
    | nil => exact ⟨_, _, rfl, rfl⟩
    | cons => exact ⟨_, _, rfl, rfl⟩

theorem skipWs_lineBreak_dumpsIndent (level level' : Nat) (v : Json F) (cs : List Char) :
    skipWs (lineBreak indent level ++ (dumpsIndent indent level' v ++ cs)) =
      dumpsIndent indent level' v ++ cs := by
  obtain ⟨c, ds, he, hv⟩ := dumpsIndent_head indent level' v
  rw [he]
  exact skipWs_lineBreak _ (isValueHead_ne hv).1

theorem skipWs_space_dumpsIndent (level : Nat) (v : Json F) (cs : List Char) :
    skipWs (' ' :: (dumpsIndent indent level v ++ cs)) = dumpsIndent indent level v ++ cs := by
  obtain ⟨c, ds, he, hv⟩ := dumpsIndent_head indent level v
  rw [he]
  exact skipWs_gap .default _ (isValueHead_ne hv).1

theorem numberEnd_items (level : Nat) (vs : List (Json F)) (cs : List Char) :
    NumberEnd (itemsIndent indent level vs ++ cs) := by
  cases vs with
  | nil => exact numberEnd_cons (by decide)
  | cons => exact numberEnd_cons (by decide)

theorem numberEnd_members (level : Nat) (ms : List (String × Json F)) (cs : List Char) :
    NumberEnd (membersIndent indent level ms ++ cs) := by
  cases ms with
  | nil => exact numberEnd_cons (by decide)
  | cons => exact numberEnd_cons (by decide)

mutual
/-- The reader gives back every tree that was written with indentation. -/
theorem readValue_dumpsIndent : ∀ (v : Json F) (level n : Nat) (cs : List Char),
    (dumpsIndent indent level v).length < n → NumberEnd cs →
      readValue n (dumpsIndent indent level v ++ cs) = some (v, cs)
  | v, _, 0, cs, h, _ => by cases h
  | .null, _, n + 1, cs, h, he => readValue_dumps .default _ _ cs h he
  | .bool _, _, n + 1, cs, h, he => readValue_dumps .default _ _ cs h he
  | .int _, _, n + 1, cs, h, he => readValue_dumps .default _ _ cs h he
  | .float _, _, n + 1, cs, h, he => readValue_dumps .default _ _ cs h he
  | .str _, _, n + 1, cs, h, he => readValue_dumps .default _ _ cs h he
  | .list [], level, n + 1, cs, _, _ => by
    have hw : isWs ']' = false := by decide
    simp only [dumpsIndent, List.cons_append, List.nil_append, readValue, skipWs_of_head hw]
  | .list (v :: vs), level, n + 1, cs, h, _ => by
    simp only [dumpsIndent, List.length_cons, List.length_append] at h
    have hi := readItems_dumpsIndent v vs level n cs (by omega)
    obtain ⟨c, ds, he, hv⟩ := dumpsIndent_head indent (level + 1) v
    obtain ⟨-, hc, -⟩ := isValueHead_ne hv
    simp only [dumpsIndent, List.cons_append, List.append_assoc, readValue,
      skipWs_lineBreak_dumpsIndent]
    rw [he] at hi ⊢
    split
    · rename_i hm
      injection hm with hm _
      exact (hc hm).elim
    · rw [hi]
      rfl
  | .dict [], level, n + 1, cs, _, _ => by
    have hw : isWs '}' = false := by decide
    simp only [dumpsIndent, List.cons_append, List.nil_append, readValue, skipWs_of_head hw]
  | .dict ((k, v) :: ms), level, n + 1, cs, h, _ => by
    simp only [dumpsIndent, List.length_cons, List.length_append] at h
    have hm := readMembers_dumpsIndent k v ms level n cs (by omega)
    have hw : isWs '"' = false := by decide
    simp only [dumpsIndent, stringText, List.cons_append, List.append_assoc, readValue,
      skipWs_lineBreak _ hw] at hm ⊢
    split
    · rename_i he
      injection he with he _
      cases he
    · rw [hm]
      rfl
theorem readItems_dumpsIndent : ∀ (v : Json F) (vs : List (Json F)) (level n : Nat)
    (cs : List Char),
    (dumpsIndent indent (level + 1) v).length + (itemsIndent indent level vs).length < n →
      readItems n (dumpsIndent indent (level + 1) v ++ (itemsIndent indent level vs ++ cs)) =
        some (v :: vs, cs)
  | v, vs, _, 0, cs, h => by cases h
  | v, vs, level, n + 1, cs, h => by
    have hpos : 0 < (itemsIndent indent level vs).length := by
      cases vs with
      | nil => simp [itemsIndent]
      | cons => simp [itemsIndent]
    have hv := readValue_dumpsIndent v (level + 1) n (itemsIndent indent level vs ++ cs) (by omega)
      (numberEnd_items indent level vs cs)
    rw [readItems, hv]
    dsimp only
    cases vs with
    | nil =>
      have hw : isWs ']' = false := by decide
      simp only [itemsIndent, List.append_assoc, List.cons_append, List.nil_append,
        skipWs_lineBreak _ hw]
    | cons w ws =>
      simp only [itemsIndent, List.length_cons, List.length_append] at h
      have hi := readItems_dumpsIndent w ws level n cs (by omega)
      have hw : isWs ',' = false := by decide
      simp only [itemsIndent, List.append_assoc, List.cons_append, skipWs_of_head hw,
        skipWs_lineBreak_dumpsIndent, hi, Option.map_some]
theorem readMembers_dumpsIndent : ∀ (k : String) (v : Json F) (ms : List (String × Json F))
    (level n : Nat) (cs : List Char),
    (stringText k).length + ((dumpsIndent indent (level + 1) v).length +
        (membersIndent indent level ms).length) < n →
      readMembers n (stringText k ++ ':' :: ' ' :: (dumpsIndent indent (level + 1) v ++
        (membersIndent indent level ms ++ cs))) = some ((k, v) :: ms, cs)
  | k, v, ms, _, 0, cs, h => by cases h
  | k, v, ms, level, n + 1, cs, h => by
    have hpos : 0 < (membersIndent indent level ms).length := by
      cases ms with
      | nil => simp [membersIndent]
      | cons => simp [membersIndent]
    have hv := readValue_dumpsIndent v (level + 1) n (membersIndent indent level ms ++ cs)
      (by omega) (numberEnd_members indent level ms cs)
    obtain ⟨t, ht, hk⟩ := quotes_stringText k
    have hc : isWs ':' = false := by decide
    simp only [ht, List.cons_append, List.append_assoc, List.nil_append, readMembers, hk,
      skipWs_of_head hc, skipWs_space_dumpsIndent, hv, String.ofList_toList]
    cases ms with
    | nil =>
      have hw : isWs '}' = false := by decide
      simp only [membersIndent, List.append_assoc, List.cons_append, List.nil_append,
        skipWs_lineBreak _ hw]
    | cons m ms =>
      obtain ⟨l, w⟩ := m
      simp only [membersIndent, List.length_cons, List.length_append] at h
      have hm := readMembers_dumpsIndent l w ms level n cs (by omega)
      have hw : isWs ',' = false := by decide
      have hquote : isWs '"' = false := by decide
      have hs : stringText l = '"' :: (l.toList.flatMap escapeChar ++ ['"']) := rfl
      simp only [hs, List.cons_append, List.append_assoc, membersIndent, skipWs_of_head hw,
        skipWs_lineBreak _ hquote] at hm ⊢
      rw [hm]
      rfl
end

theorem itemsIndent_last (level : Nat) (vs : List (Json F)) :
    ∃ cs, itemsIndent indent level vs = cs ++ [']'] := by
  induction vs with
  | nil => exact ⟨_, rfl⟩
  | cons v vs ih =>
    obtain ⟨cs, he⟩ := ih
    exact ⟨',' :: (lineBreak indent (level + 1) ++ (dumpsIndent indent (level + 1) v ++ cs)), by
      simp [itemsIndent, he]⟩

theorem membersIndent_last (level : Nat) (ms : List (String × Json F)) :
    ∃ cs, membersIndent indent level ms = cs ++ ['}'] := by
  induction ms with
  | nil => exact ⟨_, rfl⟩
  | cons m ms ih =>
    obtain ⟨k, v⟩ := m
    obtain ⟨cs, he⟩ := ih
    exact ⟨',' :: (lineBreak indent (level + 1) ++ (stringText k ++ ':' :: ' ' ::
      (dumpsIndent indent (level + 1) v ++ cs))), by simp [membersIndent, he]⟩

theorem dumpsIndent_trimmed (level : Nat) (v : Json F) :
    Text.Trimmed Text.isSpace (dumpsIndent indent level v) := by
  cases v with
  | null | bool | int | float | str =>
    rw [dumpsIndent]
    exact dumps_trimmed .default _
  | list xs =>
    cases xs with
    | nil => exact trimmed_of_ends [] (by decide) (by decide)
    | cons v vs =>
      obtain ⟨cs, he⟩ := itemsIndent_last indent level vs
      rw [dumpsIndent, he, ← List.append_assoc, ← List.append_assoc]
      exact trimmed_of_ends _ (by decide) (by decide)
  | dict ms =>
    cases ms with
    | nil => exact trimmed_of_ends [] (by decide) (by decide)
    | cons m ms =>
      obtain ⟨k, v⟩ := m
      obtain ⟨cs, he⟩ := membersIndent_last indent level ms
      have hd : dumpsIndent indent level (.dict ((k, v) :: ms)) = '{' ::
          ((lineBreak indent (level + 1) ++ (stringText k ++ ':' :: ' ' ::
            (dumpsIndent indent (level + 1) v ++ cs))) ++ ['}']) := by
        simp [dumpsIndent, he]
      rw [hd]
      exact trimmed_of_ends _ (by decide) (by decide)

/-- `json.loads` of a text with indentation is the value with its dictionaries built. -/
theorem loads_dumpsIndent (v : Json F) : loads (dumpsIndent indent 0 v) = some v.build := by
  have ht := Text.trim_of_trimmed (w := []) (v := [])
    (Trimmed.of_isSpace (dumpsIndent_trimmed indent 0 v)) (by simp) (by simp)
  rw [List.nil_append, List.append_nil] at ht
  have hr := readValue_dumpsIndent indent v 0 _ [] (Nat.lt_succ_self _) numberEnd_nil
  rw [List.append_nil] at hr
  simp only [loads, ht, hr]

theorem lineBreak_ge (level : Nat) : ∀ c ∈ lineBreak indent level, c = '\n' ∨ 0x20 ≤ c.toNat := by
  rw [lineBreak]
  refine List.forall_mem_cons.2 ⟨.inl rfl, fun c hc => .inr ?_⟩
  rw [List.eq_of_mem_replicate hc]
  decide

mutual
/-- Only line breaks are control characters in an indented document. -/
theorem dumpsIndent_ge : ∀ (v : Json F) (level : Nat), ∀ c ∈ dumpsIndent indent level v,
    c = '\n' ∨ 0x20 ≤ c.toNat
  | .null, _ => fun c hc => .inr (dumps_ge .default .null c hc)
  | .bool b, _ => fun c hc => .inr (dumps_ge .default (.bool b) c hc)
  | .int n, _ => fun c hc => .inr (dumps_ge .default (.int n) c hc)
  | .float x, _ => fun c hc => .inr (dumps_ge .default (.float x) c hc)
  | .str s, _ => fun c hc => .inr (dumps_ge .default (.str s) c hc)
  | .list [], _ => by
    rw [dumpsIndent]
    exact Text.forall_mem_of_all (by decide)
  | .list (v :: vs), level => by
    rw [dumpsIndent]
    refine List.forall_mem_cons.2 ⟨by decide, List.forall_mem_append.2 ⟨lineBreak_ge indent _, ?_⟩⟩
    exact List.forall_mem_append.2 ⟨dumpsIndent_ge v _, itemsIndent_ge vs _⟩
  | .dict [], _ => by
    rw [dumpsIndent]
    exact Text.forall_mem_of_all (by decide)
  | .dict ((k, v) :: ms), level => by
    rw [dumpsIndent]
    refine List.forall_mem_cons.2 ⟨by decide, List.forall_mem_append.2 ⟨lineBreak_ge indent _, ?_⟩⟩
    refine List.forall_mem_append.2 ⟨fun c hc => .inr (stringText_ge k c hc), ?_⟩
    refine List.forall_mem_cons.2 ⟨by decide, List.forall_mem_cons.2 ⟨by decide, ?_⟩⟩
    exact List.forall_mem_append.2 ⟨dumpsIndent_ge v _, membersIndent_ge ms _⟩
theorem itemsIndent_ge : ∀ (vs : List (Json F)) (level : Nat), ∀ c ∈ itemsIndent indent level vs,
    c = '\n' ∨ 0x20 ≤ c.toNat
  | [], level => by
    rw [itemsIndent]
    exact List.forall_mem_append.2 ⟨lineBreak_ge indent _, Text.forall_mem_of_all (by decide)⟩
  | v :: vs, level => by
    rw [itemsIndent]
    refine List.forall_mem_cons.2 ⟨by decide, List.forall_mem_append.2 ⟨lineBreak_ge indent _, ?_⟩⟩
    exact List.forall_mem_append.2 ⟨dumpsIndent_ge v _, itemsIndent_ge vs _⟩
theorem membersIndent_ge : ∀ (ms : List (String × Json F)) (level : Nat),
    ∀ c ∈ membersIndent indent level ms, c = '\n' ∨ 0x20 ≤ c.toNat
  | [], level => by
    rw [membersIndent]
    exact List.forall_mem_append.2 ⟨lineBreak_ge indent _, Text.forall_mem_of_all (by decide)⟩
  | (k, v) :: ms, level => by
    rw [membersIndent]
    refine List.forall_mem_cons.2 ⟨by decide, List.forall_mem_append.2 ⟨lineBreak_ge indent _, ?_⟩⟩
    refine List.forall_mem_append.2 ⟨fun c hc => .inr (stringText_ge k c hc), ?_⟩
    refine List.forall_mem_cons.2 ⟨by decide, List.forall_mem_cons.2 ⟨by decide, ?_⟩⟩
    exact List.forall_mem_append.2 ⟨dumpsIndent_ge v _, membersIndent_ge ms _⟩
end

/-- Reading a file translates nothing in an indented document. -/
theorem universalNewlines_dumpsIndent (level : Nat) (v : Json F) :
    Text.universalNewlines (dumpsIndent indent level v) = dumpsIndent indent level v := by
  apply Text.universalNewlines_of_no_cr
  intro hc
  exact absurd (dumpsIndent_ge indent v level _ hc) (by decide)

end

end Obase.Json
