import Mathlib.Data.List.Basic

namespace Obase.Shell
set_option autoImplicit true

/-- Where the reader of a word is. -/
inductive Mode where
  | plain
  | escaped
  | single
  | double
  | doubleEscaped
deriving DecidableEq

def isBlank (c : Char) : Bool := c == ' ' || c == '\t'

/-- The characters that end a command or begin an expansion where they are not quoted. -/
def isOperator (c : Char) : Bool := c ∈ ['\n', '|', '&', ';', '<', '>', '(', ')', '$', '\x60']

/-- The next character of a word, `none` where it is an operator or begins an expansion. -/
def step (mode : Mode) (word : List Char) (c : Char) : Option (Mode × List Char) :=
  match mode with
  | .plain =>
    if c = '\'' then some (.single, word)
    else if c = '"' then some (.double, word)
    else if c = '\\' then some (.escaped, word)
    else if isOperator c then none
    else some (.plain, word ++ [c])
  | .escaped => if c = '\n' then none else some (.plain, word ++ [c])
  | .single => if c = '\'' then some (.plain, word) else some (.single, word ++ [c])
  | .double =>
    if c = '"' then some (.plain, word)
    else if c = '\\' then some (.doubleEscaped, word)
    else if c = '$' ∨ c = '\x60' then none
    else some (.double, word ++ [c])
  | .doubleEscaped =>
    if c = '\n' then none
    else if c ∈ ['$', '\x60', '"', '\\'] then some (.double, word ++ [c])
    else some (.double, word ++ ['\\', c])

/-- The words from between two words, or from inside a word. -/
def wordsFrom : Option (Mode × List Char) → List Char → Option (List (List Char))
  | none, [] => some []
  | none, c :: cs =>
    if isBlank c then wordsFrom none cs
    else if c = '#' ∨ c = '~' then none
    else (step .plain [] c).bind fun s => wordsFrom (some s) cs
  | some (mode, word), [] => if mode = .plain then some [word] else none
  | some (mode, word), c :: cs =>
    if mode = .plain ∧ isBlank c = true then (wordsFrom none cs).map (word :: ·)
    else (step mode word c).bind fun s => wordsFrom (some s) cs

/-- The words that `sh` makes of a simple command without expansions. -/
def words (command : List Char) : Option (List (List Char)) := wordsFrom none command

theorem mem_of_step {mode mode' : Mode} {word word' : List Char} {c x : Char}
    (h : step mode word c = some (mode', word')) (hx : x ∈ word') :
    x ∈ word ∨ x = c ∨ x = '\\' := by
  have hadd (ds : List Char) (hw : word' = word ++ ds) (hd : ∀ y ∈ ds, y = c ∨ y = '\\') :
      x ∈ word ∨ x = c ∨ x = '\\' := by
    rw [hw, List.mem_append] at hx
    exact hx.imp_right (hd x)
  have hsame (hw : word' = word) : x ∈ word ∨ x = c ∨ x = '\\' := .inl (hw ▸ hx)
  have hone (hw : word' = word ++ [c]) : x ∈ word ∨ x = c ∨ x = '\\' :=
    hadd [c] hw fun y hy => .inl (List.mem_singleton.1 hy)
  cases mode with
  | plain =>
    simp only [step] at h
    split_ifs at h
    · exact hsame (congrArg Prod.snd (Option.some.inj h)).symm
    · exact hsame (congrArg Prod.snd (Option.some.inj h)).symm
    · exact hsame (congrArg Prod.snd (Option.some.inj h)).symm
    · exact hone (congrArg Prod.snd (Option.some.inj h)).symm
  | escaped =>
    simp only [step] at h
    split_ifs at h
    exact hone (congrArg Prod.snd (Option.some.inj h)).symm
  | single =>
    simp only [step] at h
    split_ifs at h
    · exact hsame (congrArg Prod.snd (Option.some.inj h)).symm
    · exact hone (congrArg Prod.snd (Option.some.inj h)).symm
  | double =>
    simp only [step] at h
    split_ifs at h
    · exact hsame (congrArg Prod.snd (Option.some.inj h)).symm
    · exact hsame (congrArg Prod.snd (Option.some.inj h)).symm
    · exact hone (congrArg Prod.snd (Option.some.inj h)).symm
  | doubleEscaped =>
    simp only [step] at h
    split_ifs at h
    · exact hone (congrArg Prod.snd (Option.some.inj h)).symm
    · refine hadd ['\\', c] (congrArg Prod.snd (Option.some.inj h)).symm fun y hy => ?_
      simp only [List.mem_cons, List.not_mem_nil, or_false] at hy
      exact hy.symm

/-- The characters of the words are characters of the command, but for a backslash. -/
theorem mem_of_wordsFrom {s : Option (Mode × List Char)} {cs : List Char}
    {ws : List (List Char)} (h : wordsFrom s cs = some ws) {w : List Char} (hw : w ∈ ws) {x : Char}
    (hx : x ∈ w) (hb : x ≠ '\\') : x ∈ cs ∨ ∃ p, s = some p ∧ x ∈ p.2 := by
  have hstep {mode : Mode} {word : List Char} {c : Char} {cs : List Char}
      (ih : ∀ {s ws}, wordsFrom s cs = some ws → w ∈ ws → x ∈ cs ∨ ∃ p, s = some p ∧ x ∈ p.2)
      {ws : List (List Char)} (hw : w ∈ ws)
      (h : (step mode word c).bind (fun s => wordsFrom (some s) cs) = some ws) :
      x ∈ c :: cs ∨ x ∈ word := by
    obtain ⟨⟨mode', word'⟩, hs, h⟩ := Option.bind_eq_some_iff.1 h
    obtain hc | ⟨p, hp, hx⟩ := ih h hw
    · exact .inl (.tail _ hc)
    · cases hp
      obtain hm | rfl | rfl := mem_of_step hs hx
      · exact .inr hm
      · exact .inl (.head _)
      · exact (hb rfl).elim
  induction cs generalizing s ws with
  | nil =>
    cases s with
    | none =>
      cases h
      cases hw
    | some p =>
      rw [wordsFrom] at h
      split_ifs at h
      cases h
      rw [List.mem_singleton.1 hw] at hx
      exact .inr ⟨p, rfl, hx⟩
  | cons c cs ih =>
    cases s with
    | none =>
      rw [wordsFrom] at h
      split_ifs at h
      · obtain hc | ⟨p, hp, -⟩ := ih h hw
        · exact .inl (.tail _ hc)
        · cases hp
      · obtain hc | hc := hstep ih hw h
        · exact .inl hc
        · cases hc
    | some p =>
      rw [wordsFrom] at h
      split_ifs at h
      · obtain ⟨ws', hws, rfl⟩ := Option.map_eq_some_iff.1 h
        obtain rfl | hw := List.mem_cons.1 hw
        · exact .inr ⟨p, rfl, hx⟩
        · obtain hc | ⟨p', hp, -⟩ := ih hws hw
          · exact .inl (.tail _ hc)
          · cases hp
      · obtain hc | hc := hstep ih hw h
        · exact .inl hc
        · exact .inr ⟨p, rfl, hc⟩

theorem mem_of_words {command : List Char} {ws : List (List Char)} (h : words command = some ws)
    {w : List Char} (hw : w ∈ ws) {x : Char} (hx : x ∈ w) (hb : x ≠ '\\') : x ∈ command := by
  obtain hc | ⟨p, hp, -⟩ := mem_of_wordsFrom h hw hx hb
  · exact hc
  · cases hp

example : words "curl -o 'a b' \"http://x/\\$1\" c\\ d".toList =
    some ["curl".toList, "-o".toList, "a b".toList, "http://x/$1".toList, "c d".toList] := by
  decide +kernel

end Obase.Shell
