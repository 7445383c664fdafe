import Mathlib.Data.List.Dedup
import Obase.Dict
import Obase.FormatString
import Obase.Text

namespace Obase.Template
open FormatString
set_option autoImplicit true

/-- The characters that `\w` matches. -/
structure WordChars where
  word : Char → Bool
  word_ascii : ∀ c, c.toNat < 128 → word c = (c.isAlphanum || c == '_')

/-- A placeholder of a text, or a character between them. -/
inductive Segment where
  | place (w : List Char)
  | char (c : Char)
deriving DecidableEq

def Segment.raw : Segment → List Char
  | place w => '{' :: (w ++ ['}'])
  | char c => [c]

def Segment.name? : Segment → Option String
  | place w => some (String.ofList w)
  | char _ => none

section
variable (W : WordChars)

/-- The word of the match of `_PLACEHOLDER_RE` that a text begins with. -/
def placeAt : List Char → Option (List Char)
  | [] => none
  | c :: cs =>
    let w := cs.takeWhile W.word
    if c = '{' ∧ w ≠ [] ∧ (cs.drop w.length).head? = some '}' then some w else none

/-- The placeholders and the characters between them, from the end of a match on that has some
characters left. -/
def segmentsFrom : Nat → List Char → List Segment
  | _, [] => []
  | n + 1, _ :: cs => segmentsFrom n cs
  | 0, c :: cs =>
    match placeAt W (c :: cs) with
    | some w => .place w :: segmentsFrom (w.length + 1) cs
    | none => .char c :: segmentsFrom 0 cs

def segments (text : List Char) : List Segment := segmentsFrom W 0 text

/-- `_PLACEHOLDER_RE.findall(text)`. -/
def findall (text : List Char) : List String := (segments W text).filterMap Segment.name?

/-- What `render_prompt` raises: its own error, or one of `str.format`. -/
inductive Failure where
  | templateError (message : String)
  | raised (e : Raised)
deriving DecidableEq

/-- The placeholders without a value, sorted. -/
def missing (text : List Char) (vars : Dict String String) : List String :=
  ((findall W text).filter fun w => w ∉ vars.keys).dedup.mergeSort fun a b => decide (a ≤ b)

def missingMessage (names : List String) : String :=
  "Missing template variables: [" ++ ", ".intercalate (names.map fun w => "'" ++ w ++ "'") ++ "]"

/-- The keyword arguments of a mapping. -/
def arguments (vars : Dict String String) (n : List Char) : Option (List Char) :=
  (vars.lookup (String.ofList n)).map String.toList

def renderPrompt (P : Formatter) (systemPrompt : String) (vars : Dict String String) :
    Except Failure String :=
  if missing W systemPrompt.toList vars ≠ [] then
    .error (.templateError (missingMessage (missing W systemPrompt.toList vars)))
  else
    match format P (arguments vars) systemPrompt.toList with
    | .error e => .error (.raised e)
    | .ok out => .ok (String.ofList out)

def Segment.fill (vars : Dict String String) : Segment → List Char
  | place w => ((vars.lookup (String.ofList w)).getD "").toList
  | char c => [c]

/-- The text with each placeholder replaced by its value. -/
def filled (text : List Char) (vars : Dict String String) : List Char :=
  (segments W text).flatMap (Segment.fill vars)

/-- A placeholder without a value is reported; otherwise each one is replaced by its value, and
nothing else changes. -/
def Meets (P : Formatter) (systemPrompt : String) (vars : Dict String String) : Prop :=
  ((∃ w ∈ findall W systemPrompt.toList, w ∉ vars.keys) →
    ∃ message, renderPrompt W P systemPrompt vars = .error (.templateError message)) ∧
  ((∀ w ∈ findall W systemPrompt.toList, w ∈ vars.keys) →
    renderPrompt W P systemPrompt vars = .ok (String.ofList (filled W systemPrompt.toList vars)))

def Segment.Plain (P : Formatter) : Segment → Prop
  | place w => getInteger P w = .ok none
  | char c => c ≠ '{' ∧ c ≠ '}'

/-- Every brace of the text is one of a placeholder, and no placeholder reads as a number. -/
def Plain (P : Formatter) (text : List Char) : Prop := ∀ s ∈ segments W text, s.Plain P

/-- A field of nothing but a word. -/
def isPlace : Chunk → Bool
  | .field n none none => n ≠ [] && n.all W.word
  | _ => false

end

section
variable {W : WordChars} {P : Formatter}

theorem word_mark {c : Char} (h : c ∈ ['{', '}', '[', '.', ':', '!']) : W.word c = false := by
  have hm : ∀ c ∈ ['{', '}', '[', '.', ':', '!'],
      c.toNat < 128 ∧ (c.isAlphanum || c == '_') = false := Text.forall_mem_of_all (by decide)
  rw [W.word_ascii c (hm c h).1]
  exact (hm c h).2

theorem not_mark {c d : Char} (hd : W.word d = true) (h : c ∈ ['{', '}', '[', '.', ':', '!']) :
    d ≠ c := by
  rintro rfl
  rw [word_mark h] at hd
  cases hd

theorem placeAt_some {c : Char} {cs w : List Char} (h : placeAt W (c :: cs) = some w) :
    c = '{' ∧ (w ≠ [] ∧ ∀ x ∈ w, W.word x = true) ∧ ∃ r, cs = w ++ '}' :: r := by
  rw [placeAt] at h
  by_cases hc : c = '{' ∧ cs.takeWhile W.word ≠ [] ∧
      (cs.drop (cs.takeWhile W.word).length).head? = some '}'
  · rw [if_pos hc] at h
    cases h
    refine ⟨hc.1, ⟨hc.2.1, fun x hx => List.mem_takeWhile_imp hx⟩, ?_⟩
    obtain ⟨r, hr⟩ := List.head?_eq_some_iff.1 hc.2.2
    refine ⟨r, ?_⟩
    have htake := List.prefix_iff_eq_take.1 (@List.takeWhile_prefix _ cs W.word)
    have happ := List.take_append_drop (cs.takeWhile W.word).length cs
    rw [← htake, hr] at happ
    exact happ.symm
  · rw [if_neg hc] at h
    cases h

theorem placeAt_place {w r : List Char} (hn : w ≠ []) (hw : ∀ x ∈ w, W.word x = true) :
    placeAt W ('{' :: (w ++ '}' :: r)) = some w := by
  have ht : (w ++ '}' :: r).takeWhile W.word = w := by
    rw [List.takeWhile_append_of_pos hw, List.takeWhile_cons_of_neg, List.append_nil]
    rw [word_mark (.tail _ (.head _))]
    exact Bool.false_ne_true
  rw [placeAt, ht, List.drop_left, if_pos ⟨rfl, hn, rfl⟩]

theorem segmentsFrom_drop (n : Nat) (cs : List Char) :
    segmentsFrom W n cs = segmentsFrom W 0 (cs.drop n) := by
  induction cs generalizing n with
  | nil => cases n <;> rfl
  | cons c cs ih =>
    cases n with
    | zero => rfl
    | succ n => exact ih n

/-- The words of the placeholders are words. -/
theorem word_of_place {n : Nat} {cs w : List Char} (h : .place w ∈ segmentsFrom W n cs) :
    w ≠ [] ∧ ∀ x ∈ w, W.word x = true := by
  induction cs generalizing n with
  | nil => cases n <;> cases h
  | cons c cs ih =>
    cases n with
    | succ n => exact ih h
    | zero =>
      rw [segmentsFrom] at h
      cases hp : placeAt W (c :: cs) with
      | none =>
        rw [hp] at h
        rcases List.mem_cons.1 h with he | h
        · cases he
        · exact ih h
      | some v =>
        rw [hp] at h
        rcases List.mem_cons.1 h with he | h
        · cases he
          exact (placeAt_some hp).2.1
        · exact ih h

theorem raw_segmentsFrom (n : Nat) (cs : List Char) :
    (segmentsFrom W n cs).flatMap Segment.raw = cs.drop n := by
  induction cs generalizing n with
  | nil => cases n <;> rfl
  | cons c cs ih =>
    cases n with
    | succ n => exact ih n
    | zero =>
      rw [segmentsFrom]
      cases hp : placeAt W (c :: cs) with
      | none =>
        dsimp only
        rw [List.flatMap_cons, ih]
        rfl
      | some w =>
        dsimp only
        obtain ⟨rfl, _, r, rfl⟩ := placeAt_some hp
        rw [List.flatMap_cons, ih, Segment.raw, List.drop_append, List.drop_eq_nil_of_le (by omega),
          Nat.add_sub_cancel_left]
        rw [List.cons_append, List.append_assoc]
        rfl

/-- The placeholders and the characters between them make up the text. -/
theorem raw_segments (text : List Char) : (segments W text).flatMap Segment.raw = text :=
  raw_segmentsFrom 0 text

/-- The places of a text where a placeholder begins. -/
def places (W : WordChars) : List Char → Nat
  | [] => 0
  | c :: cs => (if (placeAt W (c :: cs)).isSome then 1 else 0) + places W cs

theorem length_findall_le (n : Nat) (cs : List Char) :
    ((segmentsFrom W n cs).filterMap Segment.name?).length ≤ places W cs := by
  induction cs generalizing n with
  | nil => cases n <;> exact Nat.le_refl 0
  | cons c cs ih =>
    rw [places]
    cases n with
    | succ n => exact (ih n).trans (Nat.le_add_left _ _)
    | zero =>
      rw [segmentsFrom]
      cases hp : placeAt W (c :: cs) with
      | none => exact (ih 0).trans (Nat.le_add_left _ _)
      | some w =>
        dsimp only
        rw [List.filterMap_cons, Segment.name?]
        dsimp only
        rw [List.length_cons, Option.isSome_some, if_pos rfl, Nat.add_comm]
        exact Nat.add_le_add_left (ih _) 1

theorem places_append_le (a b : List Char) :
    places W (a ++ b) ≤ a.count '{' + places W b := by
  induction a with
  | nil => exact Nat.le_add_left _ _
  | cons c a ih =>
    rw [List.cons_append, places, List.count_cons]
    cases hp : placeAt W (c :: (a ++ b)) with
    | none =>
      rw [Option.isSome_none, if_neg Bool.false_ne_true]
      omega
    | some w =>
      rw [(placeAt_some hp).1, Option.isSome_some, if_pos rfl, if_pos (beq_self_eq_true '{')]
      omega

theorem specText_head (k : Option Char) (s : Option (List Char)) (b : List Char) :
    ∃ x xs, conversionText k ++ (specText s ++ '}' :: b) = x :: xs ∧
      x ∈ ['{', '}', '[', '.', ':', '!'] ∧ (x = '}' → k = none ∧ s = none) := by
  cases k with
  | some k => exact ⟨_, _, rfl, by decide, fun h => absurd h (by decide)⟩
  | none =>
    cases s with
    | some s => exact ⟨_, _, rfl, by decide, fun h => absurd h (by decide)⟩
    | none => exact ⟨_, _, rfl, by decide, fun _ => ⟨rfl, rfl⟩⟩

theorem placeAt_field {n : List Char} {k : Option Char} {s : Option (List Char)} (hn : NameOk n)
    {b w : List Char} (h : placeAt W ((Chunk.field n k s).raw ++ b) = some w) :
    n = w ∧ k = none ∧ s = none := by
  have hraw : (Chunk.field n k s).raw ++ b =
      '{' :: (n ++ (conversionText k ++ (specText s ++ '}' :: b))) := by
    rw [Chunk.raw, List.cons_append, List.append_assoc, List.append_assoc, List.append_assoc]
    rfl
  obtain ⟨x, xs, hx, hm, hend⟩ := specText_head k s b
  rw [hraw, hx] at h
  obtain ⟨_, ⟨_, hw⟩, r, hr⟩ := placeAt_some h
  have hclose : n = w ∧ x = '}' := by
    rcases List.append_eq_append_iff.1 hr with ⟨as, rfl, he⟩ | ⟨bs, rfl, he⟩
    · cases as with
      | nil =>
        cases he
        exact ⟨(List.append_nil _).symm, rfl⟩
      | cons y as =>
        cases he
        exact absurd rfl (not_mark (hw x (List.mem_append_right _ (.head _))) hm)
    · cases bs with
      | nil =>
        cases he
        exact ⟨List.append_nil _, rfl⟩
      | cons y bs =>
        cases he
        have hopen : ∀ c ∈ w, (decide (c ≠ '[')) = true := fun c hc =>
          decide_eq_true (not_mark (hw c hc) (by decide))
        have hc := hn '}'
        rw [List.takeWhile_append_of_pos hopen, List.takeWhile_cons_of_pos (by decide)] at hc
        exact absurd rfl (hc (List.mem_append_right _ (.head _))).2.1
  exact ⟨hclose.1, hend hclose.2⟩

/-- No placeholder begins where a piece that is not one does. -/
theorem placeAt_raw {p : Chunk} (hok : p.Ok) (hp : isPlace W p = false) (b : List Char) :
    placeAt W (p.raw ++ b) = none := by
  cases hs : placeAt W (p.raw ++ b) with
  | none => rfl
  | some w =>
    cases p with
    | lit c => exact absurd (placeAt_some hs).1 hok.1
    | esc c =>
      obtain ⟨rfl, ⟨hw, hword⟩, r, hr⟩ := placeAt_some hs
      obtain ⟨x, w, rfl⟩ := List.exists_cons_of_ne_nil hw
      cases hr
      exact absurd rfl (not_mark (hword _ (.head _)) (.head _))
    | field n k s =>
      obtain ⟨rfl, rfl, rfl⟩ := placeAt_field hok.1 hs
      obtain ⟨_, ⟨hw, hword⟩, _⟩ := placeAt_some hs
      rw [isPlace, List.all_eq_true.2 hword, decide_eq_true hw] at hp
      cases hp
    | broken => exact hok.elim

/-- How many placeholders a piece can begin. -/
def gain (W : WordChars) (p : Chunk) : Nat := p.raw.count '{' - if isPlace W p then 0 else 1

theorem head_raw {p : Chunk} (hok : p.Ok) {c : Char} {a : List Char} (h : p.raw = c :: a) :
    c = '{' ∨ a.count '{' = 0 := by
  cases p with
  | lit d =>
    cases h
    exact .inr rfl
  | esc d =>
    cases h
    rcases hok with rfl | rfl
    · exact .inl rfl
    · exact .inr rfl
  | field n k s =>
    cases h
    exact .inl rfl
  | broken => cases h

theorem places_raw_le {ps : List Chunk} (h : ∀ p ∈ ps, p.Ok) :
    places W (ps.flatMap Chunk.raw) ≤ total (gain W) ps := by
  induction ps with
  | nil => exact Nat.le_refl 0
  | cons p ps ih =>
    have ih := ih fun q hq => h q (.tail _ hq)
    have hok := h p (.head _)
    rw [List.flatMap_cons, total, gain]
    have happ := @places_append_le W p.raw (ps.flatMap Chunk.raw)
    by_cases hp : isPlace W p = true
    · rw [if_pos hp]
      omega
    · rw [if_neg hp]
      rw [Bool.not_eq_true] at hp
      have hnone := placeAt_raw hok hp (ps.flatMap Chunk.raw)
      cases hraw : p.raw with
      | nil =>
        rw [hraw] at happ
        exact happ.trans (Nat.add_le_add_left ih _)
      | cons c a =>
        rw [hraw] at hnone happ
        rw [List.cons_append] at hnone
        have htail := @places_append_le W a (ps.flatMap Chunk.raw)
        rw [List.cons_append, places, hnone, Option.isSome_none, if_neg Bool.false_ne_true,
          List.count_cons]
        rcases head_raw hok hraw with rfl | hzero
        · rw [if_pos (beq_self_eq_true '{')]
          omega
        · omega

theorem count_place {b : Char} (hb : b = '{' ∨ b = '}') {w : List Char}
    (hw : ∀ x ∈ w, W.word x = true) : (Segment.place w).raw.count b = 1 := by
  have hn : b ∉ w := by
    intro hm
    rcases hb with rfl | rfl
    · exact not_mark (hw _ hm) (.head _) rfl
    · exact not_mark (hw _ hm) (.tail _ (.head _)) rfl
  rw [Segment.raw, List.count_cons, List.count_append, List.count_eq_zero_of_not_mem hn]
  rcases hb with rfl | rfl
  · rfl
  · rfl

/-- The marks of a filled text, against those of the text. -/
theorem count_fill {b : Char} (hb : b = '{' ∨ b = '}') {vars : Dict String String} {l : Nat}
    {ss : List Segment}
    (h : ∀ w, .place w ∈ ss →
      (∀ x ∈ w, W.word x = true) ∧ ((Segment.place w).fill vars).count b = l) :
    (ss.flatMap (Segment.fill vars)).count b + (ss.filterMap Segment.name?).length =
      (ss.flatMap Segment.raw).count b + l * (ss.filterMap Segment.name?).length := by
  induction ss with
  | nil => exact Nat.zero_add _
  | cons s ss ih =>
    have ih := ih fun w hw => h w (.tail _ hw)
    rw [List.flatMap_cons, List.flatMap_cons, List.count_append, List.count_append,
      List.filterMap_cons]
    cases s with
    | place w =>
      obtain ⟨hw, hl⟩ := h w (.head _)
      rw [count_place hb hw, hl, Segment.name?]
      dsimp only
      rw [List.length_cons, Nat.mul_add]
      omega
    | char c =>
      rw [Segment.name?, Segment.fill, Segment.raw]
      dsimp only
      omega

theorem mem_findall {text : List Char} {w : String} (h : w ∈ findall W text) :
    ∃ v, .place v ∈ segments W text ∧ w = String.ofList v := by
  obtain ⟨s, hs, he⟩ := List.mem_filterMap.1 h
  cases s with
  | place v =>
    cases he
    exact ⟨v, hs, rfl⟩
  | char c => cases he

theorem findall_of_place {text w : List Char} (h : .place w ∈ segments W text) :
    String.ofList w ∈ findall W text := List.mem_filterMap.2 ⟨_, h, rfl⟩

/-- Every placeholder of a text with one value. -/
def constant (W : WordChars) (text : List Char) (v : List Char) : Dict String String :=
  (findall W text).map fun w => (w, String.ofList v)

theorem keys_constant (text v : List Char) : (constant W text v).keys = findall W text := by
  rw [constant, Dict.keys, List.map_map]
  exact List.map_id _

theorem arguments_constant {text v n a : List Char}
    (h : arguments (constant W text v) n = some a) : a = v := by
  obtain ⟨u, hu, rfl⟩ := Option.map_eq_some_iff.1 h
  obtain ⟨w, _, he⟩ := List.mem_map.1 (Dict.lookup_mem hu)
  cases he
  exact String.toList_ofList

theorem fill_constant {text v w : List Char} (h : .place w ∈ segments W text) :
    (Segment.place w).fill (constant W text v) = v := by
  have hk : String.ofList w ∈ (constant W text v).keys := by
    rw [keys_constant]
    exact findall_of_place h
  obtain ⟨u, hu⟩ := Dict.mem_keys_iff.1 hk
  rw [Segment.fill, hu]
  apply @arguments_constant W text v w
  rw [arguments, hu]
  rfl

theorem count_filled {b : Char} (hb : b = '{' ∨ b = '}') {text v : List Char} :
    (filled W text (constant W text v)).count b + (findall W text).length =
      text.count b + v.count b * (findall W text).length := by
  have hfill := @count_fill W b hb (constant W text v) (v.count b) (segments W text)
    fun w hw => ⟨(word_of_place hw).2, by rw [fill_constant hw]⟩
  rw [raw_segments] at hfill
  exact hfill

theorem isPlace_field {n : List Char} {k : Option Char} {s : Option (List Char)}
    (h : isPlace W (.field n k s) = true) :
    (n ≠ [] ∧ ∀ c ∈ n, W.word c = true) ∧ k = none ∧ s = none := by
  cases k with
  | some k => cases h
  | none =>
    cases s with
    | some s => cases h
    | none =>
      rw [isPlace, Bool.and_eq_true, decide_eq_true_iff, List.all_eq_true] at h
      exact ⟨h, rfl, rfl⟩

theorem fieldRest_word {n : List Char} (h : ∀ c ∈ n, W.word c = true) : fieldRest n = [] := by
  rw [fieldRest, List.dropWhile_eq_nil_iff]
  intro c hc
  rw [Bool.and_eq_true, decide_eq_true_iff, decide_eq_true_iff]
  exact ⟨not_mark (h c hc) (by decide), not_mark (h c hc) (by decide)⟩

theorem count_raw_esc {c b : Char} :
    (Chunk.esc c).raw.count b = (Chunk.esc c).escapes b + (Chunk.esc c).escapes b := by
  rw [Chunk.raw, List.count_cons, List.count_singleton, Chunk.escapes]
  by_cases hc : c = b
  · rw [if_pos hc, if_pos (by rw [beq_iff_eq]; exact hc)]
  · rw [if_neg hc, if_neg (by rw [beq_iff_eq]; exact hc)]

theorem count_raw_lit {c b : Char} (hok : (Chunk.lit c).Ok) (hb : b = '{' ∨ b = '}') :
    (Chunk.lit c).raw.count b = 0 := by
  apply List.count_eq_zero_of_not_mem
  intro hm
  rw [List.mem_singleton.1 hm] at hb
  exact hb.elim hok.1 hok.2

/-- A field that is no placeholder. -/
def strays (W : WordChars) (p : Chunk) : Nat := if isPlace W p then 0 else p.fields

theorem count_raw_stray {p : Chunk} (hok : p.Ok) :
    p.raw.count '{' = gain W p + p.escapes '{' + strays W p := by
  cases p with
  | lit c =>
    rw [gain, count_raw_lit hok (.inl rfl), Nat.zero_sub]
    rfl
  | esc c =>
    rcases hok with rfl | rfl
    · rfl
    · rfl
  | field n k s =>
    have hpos : 0 < (Chunk.field n k s).raw.count '{' := List.count_pos_iff.2 (.head _)
    rw [gain, strays, Chunk.escapes]
    by_cases hp : isPlace W (.field n k s) = true
    · rw [if_pos hp, if_pos hp]
      rfl
    · rw [if_neg hp, if_neg hp, Chunk.fields]
      omega
  | broken => exact hok.elim

/-- Where empty values are filled in, each field is a placeholder. -/
theorem isPlace_of_filled {text : List Char} (hr : ReadsNoAttribute text)
    (h : format P (arguments (constant W text [])) text =
      .ok (filled W text (constant W text []))) :
    ∀ n k s, .field n k s ∈ parse text → isPlace W (.field n k s) = true := by
  have hformat := h
  rw [format, formatAt] at hformat
  have hok := ok_parse (not_broken hformat)
  have hraw := raw_parse (not_broken hformat)
  have hout := count_format_empty (fun _ _ hv => arguments_constant hv) hr h
  have hfilled := @count_filled W '{' (.inl rfl) text []
  have hle := @length_findall_le W 0 text
  have hgain := @places_raw_le W _ hok
  have htotal : text.count '{' = total (gain W) (parse text) +
      total (Chunk.escapes '{') (parse text) + total (strays W) (parse text) := by
    have hcount : text.count '{' = total (fun p => p.raw.count '{') (parse text) := by
      rw [← count_raw, hraw]
    rw [← total_add, ← total_add, hcount]
    exact total_congr fun p hp => count_raw_stray (hok p hp)
  rw [hraw] at hgain
  intro n k s hp
  by_cases hplace : isPlace W (.field n k s) = true
  · exact hplace
  · have hone : strays W (.field n k s) = 1 := if_neg hplace
    have hstray := @le_total (strays W) _ _ hp
    have hlen : (findall W text).length ≤ places W text := hle
    rw [List.count_nil, Nat.zero_mul] at hfilled
    omega

/-- Where braces are filled in, none is doubled. -/
theorem no_esc_of_filled {text : List Char}
    (hplace : ∀ n k s, .field n k s ∈ parse text → isPlace W (.field n k s) = true)
    (h : format P (arguments (constant W text ['{', '}'])) text =
      .ok (filled W text (constant W text ['{', '}']))) (c : Char) : .esc c ∉ parse text := by
  have hformat := h
  rw [format, formatAt] at hformat
  have hok := ok_parse (not_broken hformat)
  have hraw := raw_parse (not_broken hformat)
  intro hp
  have hb : c = '{' ∨ c = '}' := hok _ hp
  have hvalue : ['{', '}'].count c = 1 := by
    rcases hb with rfl | rfl
    · rfl
    · rfl
  have hfilled := @count_filled W c hb text ['{', '}']
  have hout := @count_formatted P _ _ (parse text) c 1 _ hb hok (fun n k s a hm ha => ?_) hformat
  · have htotal : text.count c = total (Chunk.escapes c) (parse text) +
        (total (Chunk.escapes c) (parse text) + total (fun p => 1 * p.fields) (parse text)) := by
      have hcount : text.count c = total (fun p => p.raw.count c) (parse text) := by
        rw [← count_raw, hraw]
      rw [← total_add, ← total_add, hcount]
      apply total_congr
      intro p hm
      cases p with
      | lit d => exact count_raw_lit (hok _ hm) hb
      | esc d => exact count_raw_esc
      | field n k s =>
        obtain ⟨⟨_, hword⟩, rfl, rfl⟩ := isPlace_field (hplace n k s hm)
        exact count_place hb hword
      | broken => exact (hok _ hm).elim
    have hone : (Chunk.esc c).escapes c = 1 := if_pos rfl
    have hle := @le_total (Chunk.escapes c) _ _ hp
    rw [hvalue] at hfilled
    omega
  · obtain ⟨⟨_, hword⟩, rfl, rfl⟩ := isPlace_field (hplace n k s hm)
    have ha := ((formatField_name rfl (fieldRest_word hword)).1 ha).2.2
    rw [arguments_constant ha]
    exact hvalue

/-- A text of characters and placeholders that do not read as numbers. -/
theorem plain_raw {ps : List Chunk} (hok : ∀ p ∈ ps, p.Ok) (hesc : ∀ c, .esc c ∉ ps)
    (hplace : ∀ n k s, .field n k s ∈ ps → isPlace W (.field n k s) = true)
    (hint : ∀ n k s, .field n k s ∈ ps → getInteger P n = .ok none) :
    Plain W P (ps.flatMap Chunk.raw) := by
  induction ps with
  | nil => exact fun _ hs => (nomatch hs)
  | cons p ps ih =>
    have ih := ih (fun q hq => hok q (.tail _ hq)) (fun c hc => hesc c (.tail _ hc))
      (fun n k s hm => hplace n k s (.tail _ hm)) (fun n k s hm => hint n k s (.tail _ hm))
    rw [List.flatMap_cons]
    cases p with
    | lit c =>
      have hc := hok _ (.head _)
      have hnone : placeAt W (c :: ps.flatMap Chunk.raw) = none :=
        @placeAt_raw W (.lit c) hc rfl (ps.flatMap Chunk.raw)
      have hsegments : segments W (c :: ps.flatMap Chunk.raw) =
          .char c :: segments W (ps.flatMap Chunk.raw) := by
        rw [segments, segmentsFrom, hnone]
        rfl
      rw [Chunk.raw, List.singleton_append, Plain, hsegments]
      exact List.forall_mem_cons.2 ⟨hc, ih⟩
    | esc c => exact absurd (.head _) (hesc c)
    | field n k s =>
      obtain ⟨⟨hn, hword⟩, rfl, rfl⟩ := isPlace_field (hplace n k s (.head _))
      have hraw : (Chunk.field n none none).raw ++ ps.flatMap Chunk.raw =
          '{' :: (n ++ '}' :: ps.flatMap Chunk.raw) := by
        rw [Chunk.raw, List.cons_append, List.append_assoc]
        rfl
      have hsegments : segments W ('{' :: (n ++ '}' :: ps.flatMap Chunk.raw)) =
          .place n :: segments W (ps.flatMap Chunk.raw) := by
        rw [segments, segmentsFrom, placeAt_place hn hword]
        dsimp only
        rw [segmentsFrom_drop, List.drop_append, List.drop_eq_nil_of_le (by omega),
          Nat.add_sub_cancel_left]
        rfl
      rw [hraw, Plain, hsegments]
      exact List.forall_mem_cons.2 ⟨hint n none none (.head _), ih⟩
    | broken => exact (hok _ (.head _)).elim

/-- The piece of a format string that a placeholder or a character is. -/
def Segment.chunk : Segment → Chunk
  | place w => .field w none none
  | char c => .lit c

theorem parse_plain {text : List Char} (h : Plain W P text) :
    parse text = (segments W text).map Segment.chunk := by
  have hraw : ((segments W text).map Segment.chunk).flatMap Chunk.raw = text := by
    rw [List.flatMap_map]
    nth_rewrite 2 [← @raw_segments W text]
    apply List.flatMap_congr
    intro s hs
    cases s <;> rfl
  nth_rewrite 1 [← hraw]
  apply parse_raw
  intro p hp
  obtain ⟨s, hs, rfl⟩ := List.mem_map.1 hp
  cases s with
  | char c => exact h _ hs
  | place w =>
    obtain ⟨hn, hword⟩ := word_of_place hs
    refine ⟨⟨hn, fun c hc hm => ?_⟩, rfl, rfl⟩
    have hsub : ∀ c ∈ ['{', '[', '}', ':', '!'], c ∈ ['{', '}', '[', '.', ':', '!'] :=
      Text.forall_mem_of_all (by decide)
    exact not_mark (hword c hc) (hsub c hm) rfl

theorem formatChunks_fill {vars : Dict String String} {d : Nat} {ss : List Segment}
    (h : ∀ s ∈ ss, s.Plain P) (hw : ∀ w, .place w ∈ ss →
      (w ≠ [] ∧ ∀ c ∈ w, W.word c = true) ∧ String.ofList w ∈ vars.keys) :
    formatChunks P (arguments vars) (fun s => if '{' ∈ s then formatAt P (arguments vars) d s
      else .ok s) (ss.map Segment.chunk) = .ok (ss.flatMap (Segment.fill vars)) := by
  induction ss with
  | nil => rfl
  | cons s ss ih =>
    have ih := ih (fun t ht => h t (.tail _ ht)) fun w hm => hw w (.tail _ hm)
    rw [List.map_cons, List.flatMap_cons, formatChunks, ih]
    cases s with
    | char c => rfl
    | place w =>
      obtain ⟨⟨hn, hword⟩, hk⟩ := hw w (.head _)
      obtain ⟨v, hv⟩ := Dict.mem_keys_iff.1 hk
      have harg : arguments vars w = some v.toList := by
        rw [arguments, hv]
        rfl
      have hfill : (Segment.place w).fill vars = v.toList := by
        rw [Segment.fill, hv]
        rfl
      have hfield := (@formatField_name P (arguments vars) (fun s => if '{' ∈ s then
        formatAt P (arguments vars) d s else .ok s) w v.toList rfl (fieldRest_word hword)).2
          ⟨hn, h _ (.head _), harg⟩
      rw [Segment.chunk, formatChunk, Option.getD_none, hfield, hfill]
      rfl

/-- A text with nothing but placeholders for braces is filled in. -/
theorem format_plain {text : List Char} {vars : Dict String String} (h : Plain W P text)
    (hk : ∀ w ∈ findall W text, w ∈ vars.keys) :
    format P (arguments vars) text = .ok (filled W text vars) := by
  rw [format, formatAt, parse_plain h, filled]
  exact formatChunks_fill h fun w hm => ⟨word_of_place hm, hk _ (findall_of_place hm)⟩

theorem missing_eq_nil {text : List Char} {vars : Dict String String} :
    missing W text vars = [] ↔ ∀ w ∈ findall W text, w ∈ vars.keys := by
  rw [missing, ← List.length_eq_zero_iff, List.length_mergeSort, List.length_eq_zero_iff,
    List.dedup_eq_nil, List.filter_eq_nil_iff]
  apply forall₂_congr
  intro w _
  rw [decide_eq_true_iff, not_not]

theorem format_of_render {systemPrompt out : String} {vars : Dict String String}
    (h : renderPrompt W P systemPrompt vars = .ok out) :
    format P (arguments vars) systemPrompt.toList = .ok out.toList := by
  rw [renderPrompt] at h
  by_cases hm : missing W systemPrompt.toList vars ≠ []
  · rw [if_pos hm] at h
    cases h
  · rw [if_neg hm] at h
    cases hf : format P (arguments vars) systemPrompt.toList with
    | error e =>
      rw [hf] at h
      cases h
    | ok o =>
      rw [hf] at h
      cases h
      rw [String.toList_ofList]

theorem format_of_meets {systemPrompt : String} {v : List Char}
    (h : ∀ vars, Meets W P systemPrompt vars) :
    format P (arguments (constant W systemPrompt.toList v)) systemPrompt.toList =
      .ok (filled W systemPrompt.toList (constant W systemPrompt.toList v)) := by
  have hm := (h (constant W systemPrompt.toList v)).2 fun w hw => by
    rw [keys_constant]
    exact hw
  rw [format_of_render hm, String.toList_ofList]

/-- A template whose only braces are those of its placeholders is rendered as it says, and any other
one is not, for some of the values; a field that reads an attribute of a value is left out. -/
theorem renders_iff (W : WordChars) (P : Formatter) (systemPrompt : String) :
    (Plain W P systemPrompt.toList → ∀ vars, Meets W P systemPrompt vars) ∧
      (ReadsNoAttribute systemPrompt.toList → (∀ vars, Meets W P systemPrompt vars) →
        Plain W P systemPrompt.toList) := by
  constructor
  · intro h vars
    constructor
    · rintro ⟨w, hw, hk⟩
      have hm : missing W systemPrompt.toList vars ≠ [] := fun he =>
        hk (missing_eq_nil.1 he w hw)
      exact ⟨_, if_pos hm⟩
    · intro hk
      rw [renderPrompt, if_neg (not_not.2 (missing_eq_nil.2 hk)), format_plain h hk]
  · intro hr h
    have hempty := format_of_meets (v := []) h
    have hbraces := format_of_meets (v := ['{', '}']) h
    have hplace := isPlace_of_filled hr hempty
    have hesc := no_esc_of_filled hplace hbraces
    have hformat := hempty
    rw [format, formatAt] at hformat
    rw [← raw_parse (not_broken hformat)]
    apply plain_raw (ok_parse (not_broken hformat)) hesc hplace
    intro n k s hm
    obtain ⟨a, ha, _⟩ := ok_of_mem hformat hm
    obtain ⟨⟨_, hword⟩, rfl, rfl⟩ := isPlace_field (hplace n k s hm)
    exact ((formatField_name rfl (fieldRest_word hword)).1 ha).2.1

end

def asciiWords : WordChars where
  word c := c.isAlphanum || c == '_'
  word_ascii _ _ := rfl

/-- Strings that are written as they are. -/
def bareStrings : Formatter where
  decimal c := if c.isDigit then some (c.toNat - 48) else none
  maxSize := 9223372036854775807
  Value := List Char
  ofString v := v
  access _ _ := .error .indexError
  convert _ v := .ok v
  render v s := if s = [] then .ok v else .error .valueError
  render_plain _ := rfl
  render_brace v s out hv h ho := by
    by_cases hs : s = []
    · rw [if_pos hs] at h
      cases h
      exact absurd ho hv
    · rw [if_neg hs] at h
      cases h
  convert_brace _ v x hv h := by
    cases h
    exact ⟨v, rfl, hv⟩
  access_index _ := ⟨_, rfl⟩

/-- The braces of an object are read as a field. -/
theorem json_keyError : ¬ Meets asciiWords bareStrings
    (String.ofList ['{', '"', 'k', '"', ':', ' ', '{', 'v', '}', '}']) [("v", "x")] := by
  intro h
  have hok := format_of_render (h.2 (by decide))
  rw [String.toList_ofList] at hok
  have hraised : format bareStrings (arguments [("v", "x")])
      ['{', '"', 'k', '"', ':', ' ', '{', 'v', '}', '}'] =
        .error (.keyError ['"', 'k', '"']) := rfl
  rw [hraised] at hok
  cases hok

end Obase.Template
