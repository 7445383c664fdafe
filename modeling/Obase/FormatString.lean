import Mathlib.Data.List.TakeWhile
import Obase.Fallible

namespace Obase.FormatString
set_option autoImplicit true

/-- A piece of a format string: a character, a doubled brace, a replacement field, or a place where
the string is refused. -/
inductive Chunk where
  | lit (c : Char)
  | esc (c : Char)
  | field (name : List Char) (conversion : Option Char) (spec : Option (List Char))
  | broken
deriving DecidableEq

/-- A place in a format string, with what has been read of a field. -/
inductive State where
  | text
  | opening
  | closing
  | name (n : List Char)
  | bracket (n : List Char)
  | bang (n : List Char)
  | converted (n : List Char) (k : Char)
  | spec (n : List Char) (k : Option Char) (s : List Char) (depth : Nat)

/-- A character of the name of a field, outside brackets. -/
def nameStep (n : List Char) (c : Char) : Option (State × List Chunk) :=
  if c = '{' then none
  else if c = '[' then some (.bracket (n ++ [c]), [])
  else if c = '}' then some (.text, [.field n none none])
  else if c = ':' then some (.spec n none [] 0, [])
  else if c = '!' then some (.bang n, [])
  else some (.name (n ++ [c]), [])

/-- The state after a character, with what ends there; `none` where the string is refused. -/
def step : State → Char → Option (State × List Chunk)
  | .text, c =>
    if c = '{' then some (.opening, [])
    else if c = '}' then some (.closing, [])
    else some (.text, [.lit c])
  | .opening, c => if c = '{' then some (.text, [.esc c]) else nameStep [] c
  | .closing, c => if c = '}' then some (.text, [.esc c]) else none
  | .name n, c => nameStep n c
  | .bracket n, c => some (if c = ']' then .name (n ++ [c]) else .bracket (n ++ [c]), [])
  | .bang n, c => some (.converted n c, [])
  | .converted n k, c =>
    if c = '}' then some (.text, [.field n (some k) none])
    else if c = ':' then some (.spec n (some k) [] 0, [])
    else none
  | .spec n k s depth, c =>
    if c = '{' then some (.spec n k (s ++ [c]) (depth + 1), [])
    else if c = '}' then
      match depth with
      | 0 => some (.text, [.field n k (some s)])
      | d + 1 => some (.spec n k (s ++ [c]) d, [])
    else some (.spec n k (s ++ [c]) depth, [])

def parseFrom : State → List Char → List Chunk
  | .text, [] => []
  | _, [] => [.broken]
  | s, c :: cs =>
    match step s c with
    | none => [.broken]
    | some (t, out) => out ++ parseFrom t cs

/-- The pieces of a format string. -/
def parse (cs : List Char) : List Chunk := parseFrom .text cs

/-- What the formatting of a field raises. -/
inductive Raised where
  | valueError
  | indexError
  | keyError (name : List Char)
  | other (name : String)
deriving DecidableEq

/-- What a version of Python does with a value: its decimal digits and `sys.maxsize`, what the
attributes and indices of a value lead to, the conversions of a value and its formatting. A brace
that is not in a string comes from the fill character of its specification, which has one. -/
structure Formatter where
  decimal : Char → Option Nat
  maxSize : Nat
  Value : Type
  ofString : List Char → Value
  access : Value → List Char → Except Raised Value
  convert : Char → Value → Except Raised Value
  render : Value → List Char → Except Raised (List Char)
  render_plain : ∀ v, render (ofString v) [] = .ok v
  render_brace : ∀ v s out, '{' ∉ v → render (ofString v) s = .ok out → '{' ∈ out →
    '{' ∈ s ∧ '}' ∉ s
  convert_brace : ∀ k v x, '{' ∉ v → convert k (ofString v) = .ok x →
    ∃ w, x = ofString w ∧ '{' ∉ w
  access_index : ∀ r, ∃ e, access (ofString []) ('[' :: r) = .error e

def fieldName (n : List Char) : List Char := n.takeWhile fun c => c ≠ '.' && c ≠ '['

/-- The attributes and indices of a field. -/
def fieldRest (n : List Char) : List Char := n.dropWhile fun c => c ≠ '.' && c ≠ '['

section
variable (P : Formatter) (vars : List Char → Option (List Char))

/-- A number that goes on from a value: too large a one is refused where it becomes that. -/
def getIntegerFrom : Nat → List Char → Except Raised (Option Nat)
  | acc, [] => .ok (some acc)
  | acc, c :: cs =>
    match P.decimal c with
    | none => .ok none
    | some d =>
      if acc > (P.maxSize - d) / 10 then .error .valueError else getIntegerFrom (acc * 10 + d) cs

/-- The position that the name of a field stands for. -/
def getInteger (n : List Char) : Except Raised (Option Nat) :=
  if n = [] then .ok none else getIntegerFrom P 0 n

/-- The argument that a field names: there are no positional ones. -/
def getField (n : List Char) : Except Raised P.Value := do
  let index ← getInteger P (fieldName n)
  if fieldName n = [] ∨ index ≠ none then .error .indexError
  else
    match vars (fieldName n) with
    | none => .error (.keyError (fieldName n))
    | some v =>
      if fieldRest n = [] then .ok (P.ofString v) else P.access (P.ofString v) (fieldRest n)

def doConversion (k : Option Char) (x : P.Value) : Except Raised P.Value :=
  match k with
  | none => .ok x
  | some k => if k ∈ ['r', 's', 'a'] then P.convert k x else .error .valueError

def formatField (expand : List Char → Except Raised (List Char)) (n : List Char)
    (k : Option Char) (s : List Char) : Except Raised (List Char) := do
  let x ← getField P vars n
  let y ← doConversion P k x
  let s ← expand s
  P.render y s

def formatChunk (expand : List Char → Except Raised (List Char)) :
    Chunk → Except Raised (List Char)
  | .lit c => .ok [c]
  | .esc c => .ok [c]
  | .field n k s => formatField P vars expand n k (s.getD [])
  | .broken => .error .valueError

def formatChunks (expand : List Char → Except Raised (List Char)) :
    List Chunk → Except Raised (List Char)
  | [] => .ok []
  | p :: ps => do
    let a ← formatChunk P vars expand p
    let b ← formatChunks expand ps
    .ok (a ++ b)

/-- Formatting with fields in specifications down to a depth. -/
def formatAt : Nat → List Char → Except Raised (List Char)
  | 0, _ => .error .valueError
  | d + 1, cs =>
    formatChunks P vars (fun s => if '{' ∈ s then formatAt d s else .ok s) (parse cs)

/-- `cs.format(**vars)`. -/
def format (cs : List Char) : Except Raised (List Char) := formatAt P vars 2 cs

end

/-- No field of a format string reads an attribute, nor do the fields of the specifications. -/
def ReadsNoAttribute (cs : List Char) : Prop :=
  ∀ n k s, .field n k s ∈ parse cs → (fieldRest n).head? ≠ some '.' ∧
    ∀ n' k' s', .field n' k' s' ∈ parse (s.getD []) → (fieldRest n').head? ≠ some '.'

def conversionText : Option Char → List Char
  | none => []
  | some k => ['!', k]

def specText : Option (List Char) → List Char
  | none => []
  | some s => ':' :: s

/-- The text of a piece. -/
def Chunk.raw : Chunk → List Char
  | lit c => [c]
  | esc c => [c, c]
  | field n k s => '{' :: (n ++ (conversionText k ++ (specText s ++ ['}'])))
  | broken => []

/-- What has been read of a piece that has not ended. -/
def State.raw : State → List Char
  | text => []
  | opening => ['{']
  | closing => ['}']
  | name n => '{' :: n
  | bracket n => '{' :: n
  | bang n => '{' :: (n ++ ['!'])
  | converted n k => '{' :: (n ++ ['!', k])
  | spec n k s _ => '{' :: (n ++ (conversionText k ++ ':' :: s))

/-- The name of a field has no marks before its first bracket. -/
def NameOk (n : List Char) : Prop :=
  ∀ c ∈ n.takeWhile (· ≠ '['), c ≠ '{' ∧ c ≠ '}' ∧ c ≠ ':' ∧ c ≠ '!'

/-- What holds of the pieces of a format string: the braces of a specification balance. -/
def Chunk.Ok : Chunk → Prop
  | lit c => c ≠ '{' ∧ c ≠ '}'
  | esc c => c = '{' ∨ c = '}'
  | field n _ s => NameOk n ∧ (s.getD []).count '{' = (s.getD []).count '}'
  | broken => False

def State.Ok : State → Prop
  | text | opening | closing => True
  | name n | bang n | converted n _ => NameOk n
  | bracket n => NameOk n ∧ '[' ∈ n
  | spec n _ s depth => NameOk n ∧ s.count '{' = s.count '}' + depth

theorem nameOk_nil : NameOk [] := fun _ hc => (nomatch hc)

theorem nameOk_concat {n : List Char} {c : Char} (h : NameOk n)
    (hc : '[' ∈ n ∨ c ≠ '{' ∧ c ≠ '}' ∧ c ≠ ':' ∧ c ≠ '!') : NameOk (n ++ [c]) := by
  intro x hx
  rw [List.takeWhile_append] at hx
  split at hx
  · rename_i hl
    have he : n.takeWhile (· ≠ '[') = n := (List.takeWhile_prefix _).eq_of_length hl
    rcases hc with hb | hc
    · rw [← he] at hb
      exact absurd (List.mem_takeWhile_imp hb) (by decide)
    · rcases List.mem_append.1 hx with hx | hx
      · rw [← he] at hx
        exact h x hx
      · rw [List.mem_singleton.1 ((List.takeWhile_prefix _).subset hx)]
        exact hc
  · exact h x hx

/-- What a step leads to. -/
structure Stepped (s : State) (c : Char) (t : State) (out : List Chunk) : Prop where
  raw : s.raw ++ [c] = out.flatMap Chunk.raw ++ t.raw
  state : t.Ok
  chunks : ∀ p ∈ out, p.Ok

theorem stepped_name {s : State} {n : List Char} {c : Char} {t : State} {out : List Chunk}
    (hs : s.raw = '{' :: n) (hn : NameOk n) (h : nameStep n c = some (t, out)) :
    Stepped s c t out := by
  rw [nameStep] at h
  by_cases h₁ : c = '{'
  · rw [if_pos h₁] at h
    cases h
  rw [if_neg h₁] at h
  by_cases h₂ : c = '['
  · rw [if_pos h₂] at h
    cases h
    refine ⟨by rw [hs]; rfl, ⟨nameOk_concat hn (.inr ?_), ?_⟩, fun _ hp => (nomatch hp)⟩
    · rw [h₂]
      decide
    · exact List.mem_append_right _ (List.mem_singleton.2 h₂.symm)
  rw [if_neg h₂] at h
  by_cases h₃ : c = '}'
  · rw [if_pos h₃] at h
    cases h
    refine ⟨?_, trivial, List.forall_mem_singleton.2 ⟨hn, rfl⟩⟩
    rw [hs, h₃, List.flatMap_singleton]
    exact (List.append_nil _).symm
  rw [if_neg h₃] at h
  by_cases h₄ : c = ':'
  · rw [if_pos h₄] at h
    cases h
    exact ⟨by rw [hs, h₄]; rfl, ⟨hn, rfl⟩, fun _ hp => (nomatch hp)⟩
  rw [if_neg h₄] at h
  by_cases h₅ : c = '!'
  · rw [if_pos h₅] at h
    cases h
    exact ⟨by rw [hs, h₅]; rfl, hn, fun _ hp => (nomatch hp)⟩
  rw [if_neg h₅] at h
  cases h
  exact ⟨by rw [hs]; rfl, nameOk_concat hn (.inr ⟨h₁, h₃, h₄, h₅⟩), fun _ hp => (nomatch hp)⟩

theorem step_stepped {s : State} {c : Char} {t : State} {out : List Chunk} (hs : s.Ok)
    (h : step s c = some (t, out)) : Stepped s c t out := by
  cases s with
  | text =>
    rw [step] at h
    by_cases ho : c = '{'
    · rw [if_pos ho] at h
      cases h
      exact ⟨by rw [ho]; rfl, trivial, fun _ hp => (nomatch hp)⟩
    rw [if_neg ho] at h
    by_cases hc : c = '}'
    · rw [if_pos hc] at h
      cases h
      exact ⟨by rw [hc]; rfl, trivial, fun _ hp => (nomatch hp)⟩
    rw [if_neg hc] at h
    cases h
    exact ⟨rfl, trivial, List.forall_mem_singleton.2 ⟨ho, hc⟩⟩
  | opening =>
    rw [step] at h
    by_cases ho : c = '{'
    · rw [if_pos ho] at h
      cases h
      exact ⟨by rw [ho]; rfl, trivial, List.forall_mem_singleton.2 (.inl ho)⟩
    · rw [if_neg ho] at h
      exact stepped_name rfl nameOk_nil h
  | closing =>
    rw [step] at h
    by_cases hc : c = '}'
    · rw [if_pos hc] at h
      cases h
      exact ⟨by rw [hc]; rfl, trivial, List.forall_mem_singleton.2 (.inr hc)⟩
    · rw [if_neg hc] at h
      cases h
  | name n => exact stepped_name rfl hs h
  | bracket n =>
    obtain ⟨hn, hb⟩ := hs
    rw [step] at h
    by_cases hc : c = ']'
    · rw [if_pos hc] at h
      cases h
      exact ⟨rfl, nameOk_concat hn (.inl hb), fun _ hp => (nomatch hp)⟩
    · rw [if_neg hc] at h
      cases h
      exact ⟨rfl, ⟨nameOk_concat hn (.inl hb), List.mem_append_left _ hb⟩,
        fun _ hp => (nomatch hp)⟩
  | bang n =>
    cases h
    refine ⟨?_, hs, fun _ hp => (nomatch hp)⟩
    rw [State.raw, State.raw, List.cons_append, List.append_assoc]
    rfl
  | converted n k =>
    rw [step] at h
    by_cases hc : c = '}'
    · rw [if_pos hc] at h
      cases h
      refine ⟨?_, trivial, List.forall_mem_singleton.2 ⟨hs, rfl⟩⟩
      have hraw : (State.converted n k).raw = '{' :: (n ++ ['!', k]) := rfl
      rw [hraw, hc, List.flatMap_singleton, List.cons_append, List.append_assoc]
      exact (List.append_nil _).symm
    rw [if_neg hc] at h
    by_cases ho : c = ':'
    · rw [if_pos ho] at h
      cases h
      refine ⟨?_, ⟨hs, rfl⟩, fun _ hp => (nomatch hp)⟩
      rw [State.raw, ho, List.cons_append, List.append_assoc]
      rfl
    · rw [if_neg ho] at h
      cases h
  | spec n k s depth =>
    obtain ⟨hn, hd⟩ := hs
    have hraw : (State.spec n k s depth).raw ++ [c] =
        '{' :: (n ++ (conversionText k ++ ':' :: (s ++ [c]))) := by
      rw [State.raw, List.cons_append, List.append_assoc, List.append_assoc]
      rfl
    change (if c = '{' then _ else if c = '}' then _ else _) = _ at h
    by_cases ho : c = '{'
    · rw [if_pos ho] at h
      cases h
      refine ⟨hraw, ⟨hn, ?_⟩, fun _ hp => (nomatch hp)⟩
      rw [ho, List.count_append, List.count_append, hd]
      exact Nat.add_assoc _ _ _
    rw [if_neg ho] at h
    by_cases hc : c = '}'
    · rw [if_pos hc] at h
      cases depth with
      | zero =>
        cases h
        refine ⟨?_, trivial, List.forall_mem_singleton.2 ⟨hn, hd⟩⟩
        rw [hraw, hc, List.flatMap_singleton]
        exact (List.append_nil _).symm
      | succ d =>
        cases h
        refine ⟨hraw, ⟨hn, ?_⟩, fun _ hp => (nomatch hp)⟩
        have ho : ['}'].count '{' = 0 := rfl
        have hc : ['}'].count '}' = 1 := rfl
        rw [‹c = '}'›, List.count_append, List.count_append, hd, ho, hc]
        omega
    · rw [if_neg hc] at h
      cases h
      refine ⟨hraw, ⟨hn, ?_⟩, fun _ hp => (nomatch hp)⟩
      rw [List.count_append, List.count_append, hd, List.count_singleton, List.count_singleton,
        if_neg (by rw [beq_iff_eq]; exact ho), if_neg (by rw [beq_iff_eq]; exact hc)]
      omega

theorem parseFrom_cons (s : State) (c : Char) (cs : List Char) :
    parseFrom s (c :: cs) = match step s c with
      | none => [.broken]
      | some (t, out) => out ++ parseFrom t cs := by
  cases s <;> rfl

theorem parseFrom_raw {s : State} (hs : s.Ok) {cs : List Char}
    (h : Chunk.broken ∉ parseFrom s cs) :
    (parseFrom s cs).flatMap Chunk.raw = s.raw ++ cs ∧ ∀ p ∈ parseFrom s cs, p.Ok := by
  induction cs generalizing s with
  | nil =>
    have hb : s = .text := by
      cases s with
      | text => rfl
      | opening => exact absurd (.head _) h
      | closing => exact absurd (.head _) h
      | name n => exact absurd (.head _) h
      | bracket n => exact absurd (.head _) h
      | bang n => exact absurd (.head _) h
      | converted n k => exact absurd (.head _) h
      | spec n k s depth => exact absurd (.head _) h
    rw [hb]
    exact ⟨rfl, fun _ hp => (nomatch hp)⟩
  | cons c cs ih =>
    rw [parseFrom_cons] at h ⊢
    cases hstep : step s c with
    | none =>
      rw [hstep] at h
      exact absurd (.head _) h
    | some r =>
      obtain ⟨t, out⟩ := r
      rw [hstep] at h
      dsimp only at h ⊢
      have hst := step_stepped hs hstep
      obtain ⟨hraw, hok⟩ := ih hst.state fun hp => h (List.mem_append_right _ hp)
      refine ⟨?_, fun p hp => ?_⟩
      · rw [List.flatMap_append, hraw, ← List.append_assoc, ← hst.raw, List.append_assoc]
        rfl
      · exact (List.mem_append.1 hp).elim (hst.chunks p) (hok p)

/-- The text of the pieces of a format string is the string. -/
theorem raw_parse {cs : List Char} (h : .broken ∉ parse cs) :
    (parse cs).flatMap Chunk.raw = cs := (@parseFrom_raw .text trivial cs h).1

theorem ok_parse {cs : List Char} (h : .broken ∉ parse cs) : ∀ p ∈ parse cs, p.Ok :=
  (@parseFrom_raw .text trivial cs h).2

/-- A character, or a field with nothing but a name. -/
def Chunk.Simple : Chunk → Prop
  | lit c => c ≠ '{' ∧ c ≠ '}'
  | field n k s => (n ≠ [] ∧ ∀ c ∈ n, c ∉ ['{', '[', '}', ':', '!']) ∧ k = none ∧ s = none
  | _ => False

theorem parseFrom_name {n m cs : List Char} (hm : ∀ c ∈ m, c ∉ ['{', '[', '}', ':', '!']) :
    parseFrom (.name n) (m ++ '}' :: cs) = .field (n ++ m) none none :: parseFrom .text cs := by
  induction m generalizing n with
  | nil =>
    rw [List.append_nil]
    rfl
  | cons c m ih =>
    have hc := hm c (.head _)
    rw [List.mem_cons, not_or, List.mem_cons, not_or, List.mem_cons, not_or, List.mem_cons, not_or,
      List.mem_singleton] at hc
    have hstep : step (.name n) c = some (.name (n ++ [c]), []) := by
      rw [step, nameStep, if_neg hc.1, if_neg hc.2.1, if_neg hc.2.2.1, if_neg hc.2.2.2.1,
        if_neg hc.2.2.2.2]
    rw [List.cons_append, parseFrom_cons, hstep]
    dsimp only
    rw [ih fun x hx => hm x (.tail _ hx), List.append_assoc]
    rfl

/-- A string of characters and plain fields has these as its pieces. -/
theorem parse_raw {ps : List Chunk} (h : ∀ p ∈ ps, p.Simple) :
    parse (ps.flatMap Chunk.raw) = ps := by
  induction ps with
  | nil => rfl
  | cons p ps ih =>
    have ih := ih fun q hq => h q (.tail _ hq)
    have hp := h p (.head _)
    rw [parse] at ih ⊢
    rw [List.flatMap_cons]
    cases p with
    | lit c =>
      obtain ⟨ho, hc⟩ := hp
      rw [Chunk.raw, List.singleton_append, parseFrom_cons, step, if_neg ho, if_neg hc]
      dsimp only
      rw [ih]
      rfl
    | esc c => exact hp.elim
    | broken => exact hp.elim
    | field n k s =>
      obtain ⟨⟨hn, hm⟩, rfl, rfl⟩ := hp
      obtain ⟨c, m, rfl⟩ := List.exists_cons_of_ne_nil hn
      have hname := @parseFrom_name [] (c :: m) (ps.flatMap Chunk.raw) hm
      have hc := hm c (.head _)
      rw [List.mem_cons, not_or] at hc
      have hraw : (Chunk.field (c :: m) none none).raw ++ ps.flatMap Chunk.raw =
          '{' :: (c :: m ++ '}' :: ps.flatMap Chunk.raw) := by
        rw [Chunk.raw, List.cons_append, List.append_assoc]
        rfl
      have hopen : parseFrom .opening (c :: m ++ '}' :: ps.flatMap Chunk.raw) =
          parseFrom (.name []) (c :: m ++ '}' :: ps.flatMap Chunk.raw) := by
        rw [List.cons_append, parseFrom_cons, parseFrom_cons, step, if_neg hc.1]
        rfl
      have hstart : parseFrom .text ('{' :: (c :: m ++ '}' :: ps.flatMap Chunk.raw)) =
          [] ++ parseFrom .opening (c :: m ++ '}' :: ps.flatMap Chunk.raw) := rfl
      rw [hraw, hstart, hopen, hname, ih]
      rfl

/-- A measure of the pieces, added up. -/
def total (f : Chunk → Nat) : List Chunk → Nat
  | [] => 0
  | p :: ps => f p + total f ps

/-- The doubled braces of one kind. -/
def Chunk.escapes (b : Char) : Chunk → Nat
  | lit _ | broken => 0
  | esc c => if c = b then 1 else 0
  | field _ _ _ => 0

def Chunk.fields : Chunk → Nat
  | lit _ | esc _ | broken => 0
  | field _ _ _ => 1

theorem total_add (f g : Chunk → Nat) (ps : List Chunk) :
    total (fun p => f p + g p) ps = total f ps + total g ps := by
  induction ps with
  | nil => rfl
  | cons p ps ih =>
    rw [total, total, total, ih]
    omega

theorem total_zero (ps : List Chunk) : total (fun _ => 0) ps = 0 := by
  induction ps with
  | nil => rfl
  | cons p ps ih => rw [total, ih]

theorem total_congr {f g : Chunk → Nat} {ps : List Chunk} (h : ∀ p ∈ ps, f p = g p) :
    total f ps = total g ps := by
  induction ps with
  | nil => rfl
  | cons p ps ih => rw [total, total, h p (.head _), ih fun q hq => h q (.tail _ hq)]

theorem total_pos {f : Chunk → Nat} {ps : List Chunk} (h : 0 < total f ps) : ∃ p ∈ ps, 0 < f p := by
  induction ps with
  | nil => cases h
  | cons p ps ih =>
    rw [total] at h
    by_cases hp : 0 < f p
    · exact ⟨p, .head _, hp⟩
    · obtain ⟨q, hq, hpos⟩ := ih (by omega)
      exact ⟨q, .tail _ hq, hpos⟩

theorem le_total {f : Chunk → Nat} {p : Chunk} {ps : List Chunk} (h : p ∈ ps) :
    f p ≤ total f ps := by
  induction ps with
  | nil => cases h
  | cons q ps ih =>
    rw [total]
    rcases List.mem_cons.1 h with rfl | h
    · exact Nat.le_add_right _ _
    · have hle := ih h
      omega

theorem count_raw (c : Char) (ps : List Chunk) :
    (ps.flatMap Chunk.raw).count c = total (fun p => p.raw.count c) ps := by
  induction ps with
  | nil => rfl
  | cons p ps ih => rw [List.flatMap_cons, List.count_append, ih, total]

section
variable {P : Formatter} {vars : List Char → Option (List Char)}
  {expand : List Char → Except Raised (List Char)}

theorem formatChunks_cons {p : Chunk} {ps : List Chunk} {out : List Char}
    (h : formatChunks P vars expand (p :: ps) = .ok out) : ∃ a b,
      formatChunk P vars expand p = .ok a ∧ formatChunks P vars expand ps = .ok b ∧
        out = a ++ b := by
  rw [formatChunks] at h
  obtain ⟨a, ha, h⟩ := bind_ok h
  obtain ⟨b, hb, h⟩ := bind_ok h
  cases h
  exact ⟨a, b, ha, hb, rfl⟩

theorem ok_of_mem {p : Chunk} {ps : List Chunk} {out : List Char}
    (h : formatChunks P vars expand ps = .ok out) (hp : p ∈ ps) :
    ∃ a, formatChunk P vars expand p = .ok a ∧ ∀ c ∈ a, c ∈ out := by
  induction ps generalizing out with
  | nil => cases hp
  | cons q ps ih =>
    obtain ⟨a, b, ha, hb, rfl⟩ := formatChunks_cons h
    rcases List.mem_cons.1 hp with rfl | hp
    · exact ⟨a, ha, fun c hc => List.mem_append_left _ hc⟩
    · obtain ⟨a', ha', hsub⟩ := ih hb hp
      exact ⟨a', ha', fun c hc => List.mem_append_right _ (hsub c hc)⟩

/-- A measure of the outputs of the pieces is one of the whole output. -/
theorem total_formatChunks {μ : List Char → Nat} (hnil : μ [] = 0)
    (happ : ∀ a b, μ (a ++ b) = μ a + μ b) {f : Chunk → Nat} {ps : List Chunk}
    (hf : ∀ p ∈ ps, ∀ a, formatChunk P vars expand p = .ok a → μ a = f p) {out : List Char}
    (h : formatChunks P vars expand ps = .ok out) : μ out = total f ps := by
  induction ps generalizing out with
  | nil =>
    cases h
    exact hnil
  | cons p ps ih =>
    obtain ⟨a, b, ha, hb, rfl⟩ := formatChunks_cons h
    rw [happ, hf p (.head _) a ha, ih (fun q hq => hf q (.tail _ hq)) hb, total]

theorem not_broken {ps : List Chunk} {out : List Char}
    (h : formatChunks P vars expand ps = .ok out) : Chunk.broken ∉ ps := by
  intro hp
  obtain ⟨a, ha, _⟩ := ok_of_mem h hp
  cases ha

/-- What a field that can be formatted is. -/
theorem formatField_ok {n : List Char} {k : Option Char} {s out : List Char}
    (h : formatField P vars expand n k s = .ok out) :
    ∃ x y s', getField P vars n = .ok x ∧ doConversion P k x = .ok y ∧ expand s = .ok s' ∧
      P.render y s' = .ok out := by
  rw [formatField] at h
  obtain ⟨x, hx, h⟩ := bind_ok h
  obtain ⟨y, hy, h⟩ := bind_ok h
  obtain ⟨s', hs, h⟩ := bind_ok h
  exact ⟨x, y, s', hx, hy, hs, h⟩

/-- What the name of a field that can be formatted is. -/
theorem getField_ok {n : List Char} {x : P.Value} (h : getField P vars n = .ok x) :
    fieldName n ≠ [] ∧ getInteger P (fieldName n) = .ok none ∧ ∃ v, vars (fieldName n) = some v ∧
      (if fieldRest n = [] then .ok (P.ofString v) else P.access (P.ofString v) (fieldRest n)) =
        .ok x := by
  rw [getField] at h
  obtain ⟨index, hi, h⟩ := bind_ok h
  by_cases hn : fieldName n = [] ∨ index ≠ none
  · rw [if_pos hn] at h
    cases h
  · rw [if_neg hn] at h
    rw [not_or, not_not] at hn
    rw [hn.2] at hi
    refine ⟨hn.1, hi, ?_⟩
    cases hl : vars (fieldName n) with
    | none =>
      rw [hl] at h
      cases h
    | some v =>
      rw [hl] at h
      exact ⟨v, rfl, h⟩

theorem fieldRest_cons {n r : List Char} {c : Char} (h : fieldRest n = c :: r) :
    c = '.' ∨ c = '[' := by
  have hh := List.head?_dropWhile_not (fun c => c ≠ '.' && c ≠ '[') n
  rw [fieldRest] at h
  rw [h] at hh
  change (_ && _) = false at hh
  rw [Bool.and_eq_false_iff, decide_eq_false_iff_not, decide_eq_false_iff_not, not_not,
    not_not] at hh
  exact hh

/-- The name of a field without attributes and indices has no marks. -/
theorem nameOk_of_rest {n : List Char} (h : NameOk n) (hr : fieldRest n = []) :
    ∀ c ∈ n, c ≠ '{' ∧ c ≠ '}' ∧ c ≠ ':' ∧ c ≠ '!' := by
  intro c hc
  apply h
  rw [fieldRest, List.dropWhile_eq_nil_iff] at hr
  rw [List.takeWhile_eq_self_iff.2]
  · exact hc
  · intro x hx
    have hd := hr x hx
    rw [Bool.and_eq_true] at hd
    exact hd.2

theorem doConversion_ok {k : Option Char} {x y : P.Value} (h : doConversion P k x = .ok y)
    (hb : b = '{' ∨ b = '}') : b ∉ conversionText k := by
  cases k with
  | none => exact fun hm => (nomatch hm)
  | some k =>
    rw [doConversion] at h
    by_cases hk : k ∈ ['r', 's', 'a']
    · rw [conversionText, List.mem_cons, List.mem_singleton]
      rintro (hm | hm)
      · rw [hm] at hb
        exact absurd hb (by decide)
      · rw [← hm] at hk
        rcases hb with rfl | rfl
        · exact absurd hk (by decide)
        · exact absurd hk (by decide)
    · rw [if_neg hk] at h
      cases h

theorem count_raw_field {n : List Char} {k : Option Char} {s : Option (List Char)} {b : Char}
    (hb : b = '{' ∨ b = '}') (hn : b ∉ n) (hk : b ∉ conversionText k) :
    (Chunk.field n k s).raw.count b = (s.getD []).count b + 1 := by
  have hs : (specText s).count b = (s.getD []).count b := by
    cases s with
    | none => rfl
    | some s =>
      rw [specText, List.count_cons, if_neg, Nat.add_zero]
      · rfl
      · rw [beq_iff_eq]
        rintro rfl
        exact absurd hb (by decide)
  rw [Chunk.raw, List.count_cons, List.count_append, List.count_append, List.count_append,
    List.count_eq_zero_of_not_mem hn, List.count_eq_zero_of_not_mem hk, hs, Nat.zero_add,
    Nat.zero_add]
  rcases hb with rfl | rfl
  · rfl
  · rfl

/-- The marks of a kind in an output are the doubled ones and those of the fields. -/
theorem count_formatted {ps : List Chunk} {b : Char} {l : Nat} {out : List Char}
    (hb : b = '{' ∨ b = '}') (hok : ∀ p ∈ ps, p.Ok)
    (hf : ∀ n k s a, .field n k s ∈ ps →
      formatField P vars expand n k (s.getD []) = .ok a → a.count b = l)
    (h : formatChunks P vars expand ps = .ok out) :
    out.count b = total (Chunk.escapes b) ps + total (fun p => l * p.fields) ps := by
  rw [← total_add]
  apply @total_formatChunks P vars expand (List.count b) rfl (fun _ _ => List.count_append)
    _ ps _ out h
  intro p hp a ha
  have hp' := hok p hp
  cases p with
  | lit c =>
    cases ha
    have hc : c ≠ b := by
      rcases hb with rfl | rfl
      · exact hp'.1
      · exact hp'.2
    rw [List.count_singleton, if_neg (by rw [beq_iff_eq]; exact hc)]
    rfl
  | esc c =>
    cases ha
    rw [List.count_singleton, Chunk.escapes, Chunk.fields, Nat.mul_zero]
    by_cases hc : c = b
    · rw [if_pos hc, if_pos (by rw [beq_iff_eq]; exact hc)]
    · rw [if_neg hc, if_neg (by rw [beq_iff_eq]; exact hc)]
  | field n k s =>
    rw [hf n k s a hp ha, Chunk.escapes, Chunk.fields, Nat.zero_add, Nat.mul_one]
  | broken => exact hp'.elim

section
variable (hv : ∀ n v, vars n = some v → v = [])
include hv

/-- A field of an empty argument, where its attributes are not read, is a name. -/
theorem rest_of_empty {n : List Char} {x : P.Value} (hr : (fieldRest n).head? ≠ some '.')
    (h : getField P vars n = .ok x) : fieldRest n = [] ∧ x = P.ofString [] := by
  obtain ⟨_, _, v, hl, hx⟩ := getField_ok h
  rw [hv _ _ hl] at hx
  cases hrest : fieldRest n with
  | nil =>
    rw [hrest, if_pos rfl] at hx
    cases hx
    exact ⟨rfl, rfl⟩
  | cons c r =>
    rw [hrest] at hr hx
    rcases fieldRest_cons hrest with rfl | rfl
    · exact absurd rfl hr
    · obtain ⟨e, he⟩ := P.access_index r
      rw [if_neg (List.cons_ne_nil _ _), he] at hx
      cases hx

theorem formatField_empty {n : List Char} {k : Option Char} {s out : List Char}
    (hr : (fieldRest n).head? ≠ some '.') (h : formatField P vars expand n k s = .ok out) :
    fieldRest n = [] ∧ (∀ b, b = '{' ∨ b = '}' → b ∉ conversionText k) ∧
      ∃ s', expand s = .ok s' ∧ ('{' ∈ out → '{' ∈ s' ∧ '}' ∉ s') := by
  obtain ⟨x, y, s', hx, hy, hs, hout⟩ := formatField_ok h
  obtain ⟨hrest, rfl⟩ := rest_of_empty hv hr hx
  refine ⟨hrest, fun b hb => doConversion_ok hy hb, s', hs, ?_⟩
  cases k with
  | none =>
    cases hy
    exact P.render_brace [] s' out (fun hm => (nomatch hm)) hout
  | some k =>
    rw [doConversion] at hy
    by_cases hk : k ∈ ['r', 's', 'a']
    · rw [if_pos hk] at hy
      obtain ⟨w, rfl, hw⟩ := P.convert_brace k [] y (fun hm => (nomatch hm)) hy
      exact P.render_brace w s' out hw hout
    · rw [if_neg hk] at hy
      cases hy

/-- The text of a field with a balanced specification has marks of each kind alike. -/
theorem count_field_empty {n : List Char} {k : Option Char} {s : Option (List Char)}
    {out : List Char} {b : Char} (hb : b = '{' ∨ b = '}') (hok : (Chunk.field n k s).Ok)
    (hr : (fieldRest n).head? ≠ some '.')
    (h : formatField P vars expand n k (s.getD []) = .ok out) :
    (Chunk.field n k s).raw.count b = (s.getD []).count '{' + 1 := by
  obtain ⟨hrest, hk, _⟩ := formatField_empty hv hr h
  have hn := nameOk_of_rest hok.1 hrest
  rw [count_raw_field hb ?_ (hk b hb)]
  · rcases hb with rfl | rfl
    · rfl
    · rw [hok.2]
  · intro hm
    rcases hb with rfl | rfl
    · exact (hn _ hm).1 rfl
    · exact (hn _ hm).2.1 rfl

/-- An expanded specification that has an opening brace has a closing one. -/
theorem expanded_closes {s s' : List Char} (hs : s.count '{' = s.count '}')
    (hr : ∀ n k t, .field n k t ∈ parse s → (fieldRest n).head? ≠ some '.')
    (h : formatAt P vars 1 s = .ok s') (ho : '{' ∈ s') : '}' ∈ s' := by
  rw [formatAt] at h
  have hok := ok_parse (not_broken h)
  have hraw := raw_parse (not_broken h)
  have hfield : ∀ n k t a, .field n k t ∈ parse s → formatField P vars
      (fun s => if '{' ∈ s then formatAt P vars 0 s else .ok s) n k (t.getD []) = .ok a →
        '{' ∉ t.getD [] ∧ a.count '{' = 0 := by
    intro n k t a hp ha
    obtain ⟨_, _, s'', hs'', hbrace⟩ := formatField_empty hv (hr n k t hp) ha
    by_cases ht : '{' ∈ t.getD []
    · rw [if_pos ht] at hs''
      cases hs''
    · rw [if_neg ht] at hs''
      cases hs''
      exact ⟨ht, List.count_eq_zero_of_not_mem fun hm => ht (hbrace hm).1⟩
  have hcount : ∀ b, b = '{' ∨ b = '}' →
      s.count b = total (Chunk.escapes b) (parse s) +
        (total (Chunk.escapes b) (parse s) + total Chunk.fields (parse s)) := by
    intro b hb
    have htotal : s.count b = total (fun p => p.raw.count b) (parse s) := by
      rw [← count_raw, hraw]
    rw [← total_add, ← total_add, htotal]
    apply total_congr
    intro p hp
    have hp' := hok p hp
    cases p with
    | lit c =>
      rw [Chunk.raw, List.count_singleton, if_neg]
      · rfl
      · rw [beq_iff_eq]
        rintro rfl
        rcases hb with rfl | rfl
        · exact hp'.1 rfl
        · exact hp'.2 rfl
    | esc c =>
      rw [Chunk.raw, List.count_cons, List.count_singleton, Chunk.escapes, Chunk.fields,
        Nat.add_zero]
      by_cases hc : c = b
      · rw [if_pos hc, if_pos (by rw [beq_iff_eq]; exact hc)]
      · rw [if_neg hc, if_neg (by rw [beq_iff_eq]; exact hc)]
    | field n k t =>
      obtain ⟨a, ha, _⟩ := ok_of_mem h hp
      rw [formatChunk] at ha
      rw [count_field_empty hv hb hp' (hr n k t hp) ha,
        List.count_eq_zero_of_not_mem (hfield n k t a hp ha).1]
      rfl
    | broken => exact hp'.elim
  have hopen := @count_formatted P vars _ (parse s) '{' 0 s' (.inl rfl) hok
    (fun n k t a hp ha => (hfield n k t a hp ha).2) h
  have hzero : total (fun p => 0 * p.fields) (parse s) = 0 := by
    rw [@total_congr _ (fun _ => 0) _ fun p _ => Nat.zero_mul _]
    exact total_zero _
  have hpos := List.count_pos_iff.2 ho
  have hopens := hcount '{' (.inl rfl)
  have hcloses := hcount '}' (.inr rfl)
  obtain ⟨p, hp, hc⟩ := @total_pos (Chunk.escapes '}') (parse s) (by omega)
  cases p with
  | lit c => cases hc
  | esc c =>
    by_cases he : c = '}'
    · obtain ⟨a, ha, hsub⟩ := ok_of_mem h hp
      cases ha
      rw [he] at hsub
      exact hsub _ (.head _)
    · rw [Chunk.escapes, if_neg he] at hc
      cases hc
  | field n k t => cases hc
  | broken => cases hc

/-- With empty arguments the opening braces of the output are the doubled ones. -/
theorem count_format_empty {cs out : List Char} (hr : ReadsNoAttribute cs)
    (h : format P vars cs = .ok out) :
    out.count '{' = total (Chunk.escapes '{') (parse cs) := by
  rw [format, formatAt] at h
  have hok := ok_parse (not_broken h)
  have hf : ∀ n k s a, .field n k s ∈ parse cs → formatField P vars
      (fun s => if '{' ∈ s then formatAt P vars 1 s else .ok s) n k (s.getD []) = .ok a →
        a.count '{' = 0 := by
    intro n k s a hp ha
    obtain ⟨_, _, s', hs', hbrace⟩ := formatField_empty hv (hr n k s hp).1 ha
    apply List.count_eq_zero_of_not_mem
    intro hm
    obtain ⟨ho, hc⟩ := hbrace hm
    by_cases hs : '{' ∈ s.getD []
    · rw [if_pos hs] at hs'
      exact hc (expanded_closes hv (hok _ hp).2 (hr n k s hp).2 hs' ho)
    · rw [if_neg hs] at hs'
      cases hs'
      exact hs ho
  have hcount := count_formatted (.inl rfl) hok hf h
  rw [@total_congr _ (fun _ => 0) _ fun p _ => Nat.zero_mul _, total_zero] at hcount
  exact hcount

end

theorem fieldName_of_rest {n : List Char} (h : fieldRest n = []) : fieldName n = n := by
  have happ := @List.takeWhile_append_dropWhile _ (fun c => c ≠ '.' && c ≠ '[') n
  rw [fieldRest] at h
  rw [h, List.append_nil] at happ
  exact happ

/-- A field of nothing but a name is its argument. -/
theorem formatField_name {n v : List Char} (he : expand [] = .ok []) (hr : fieldRest n = []) :
    formatField P vars expand n none [] = .ok v ↔
      n ≠ [] ∧ getInteger P n = .ok none ∧ vars n = some v := by
  constructor
  · intro h
    obtain ⟨x, y, s', hx, hy, hs, hout⟩ := formatField_ok h
    obtain ⟨hn, hi, w, hw, hx⟩ := getField_ok hx
    rw [if_pos hr] at hx
    cases hx
    cases hy
    rw [he] at hs
    cases hs
    rw [P.render_plain] at hout
    cases hout
    rw [fieldName_of_rest hr] at hn hi hw
    exact ⟨hn, hi, hw⟩
  · rintro ⟨hn, hi, hv⟩
    have hf : getField P vars n = .ok (P.ofString v) := by
      rw [getField, fieldName_of_rest hr, hi]
      change (if n = [] ∨ none ≠ none then _ else _) = _
      rw [if_neg (not_or.2 ⟨hn, not_not.2 rfl⟩), hv]
      exact if_pos hr
    rw [formatField, hf]
    change (expand [] >>= fun s => P.render (P.ofString v) s) = _
    rw [he]
    exact P.render_plain v

end

end Obase.FormatString
