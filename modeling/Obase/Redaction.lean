import Obase.Casing
import Obase.Concrete

namespace Obase.Redaction
set_option autoImplicit true

/-- The kinds of containers that are redacted item by item. -/
inductive Kind where
  | list
  | tuple
  | set
  | frozenset

/-- A nested value. The items of a set are in the order in which it yields them, and another object
has the name of its type and the text that `str` makes of it. -/
inductive Payload (κ F : Type) where
  | null
  | bool (b : Bool)
  | int (n : Int)
  | float (x : PyFloat F)
  | str (s : String)
  | sequence (kind : Kind) (xs : List (Payload κ F))
  | mapping (items : List (κ × Payload κ F))
  | object (typeName text : String)

def marker : String := "[REDACTED]"

section
variable {κ F : Type} (str : κ → String) (isSecret : String → Bool) (onStr : String → String)
  (onObject : String → String → String)

mutual
/-- The traversal that the two redactors have in common; `str` is that of the keys. -/
def redact : Payload κ F → Json F
  | .null => .null
  | .bool b => .bool b
  | .int n => .int n
  | .float x => .float x
  | .str s => .str (onStr s)
  | .sequence _ xs => .list (redactList xs)
  | .mapping items => .dict (Dict.ofPairs (redactItems items))
  | .object typeName text => .str (onObject typeName text)
def redactList : List (Payload κ F) → List (Json F)
  | [] => []
  | v :: vs => redact v :: redactList vs
def redactItems : List (κ × Payload κ F) → List (String × Json F)
  | [] => []
  | (k, v) :: items =>
    (str k, if isSecret (str k) then .str marker else redact v) :: redactItems items
end

/-- What becomes of the value under a key. -/
def redactEntry (key : String) (v : Payload κ F) : Json F :=
  if isSecret key then .str marker else redact str isSecret onStr onObject v

end

section
variable (U : Casing)

/-- `str(key).lower().replace("-", "_")`, of the text of a key. -/
def normalized (key : String) : List Char := Text.replace ['-'] ['_'] (U.lower key.toList)

/-- `_SECRET_KEY_PARTS`. -/
def secretKeyParts : List String :=
  ["token", "secret", "password", "credential", "private_key", "authorization", "api_key",
    "access_key", "client_secret", "webhook"]

/-- `tool_governance._secret_key`. -/
def secretKey (key : String) : Bool :=
  secretKeyParts.any fun part => decide (part.toList <:+: normalized U key)

/-- `_SECRET_WORDS`. -/
def secretWords : List String :=
  ["authorization", "credential", "password", "private_key", "secret", "token", "api_key",
    "access_key", "client_secret", "webhook"]

/-- The parts of a key that hide it from the action path. -/
def plainParts : List String := ["token", "password", "secret", "credential"]

/-- `action._is_secret_key`. -/
def isSecretKey (key : String) : Bool :=
  secretWords.any (fun word => normalized U key == word.toList) ||
    plainParts.any fun part => decide (part.toList <:+: normalized U key)

variable {κ F : Type} (str : κ → String)

/-- A string without the secrets that are given. -/
def withoutSecrets (secrets : List String) (value : String) : String :=
  String.ofList ((secrets.filter (· ≠ "")).foldl
    (fun output secret => Text.replace secret.toList marker.toList output) value.toList)

/-- `tool_governance.redact_payload`. -/
def redactPayload (secrets : List String) : Payload κ F → Json F :=
  redact str (secretKey U) (withoutSecrets secrets) fun typeName _ => "<" ++ typeName ++ ">"

/-- `action.redact_value`. -/
def redactValue : Payload κ F → Json F := redact str (isSecretKey U) id fun _ text => text

end

/-- A step into a value: to an item of a dictionary or of a list. -/
inductive Step where
  | key (s : String)
  | index (i : Nat)

def child : Json F → Step → Option (Json F)
  | .dict ms, .key s => ms.lookup s
  | .list xs, .index i => xs[i]?
  | _, _ => none

/-- The value at a position inside another. -/
def descend : List Step → Json F → Option (Json F)
  | [], v => some v
  | s :: path, v => (child v s).bind (descend path)

/-- The items of a mapping under the texts of their keys; of the items whose keys have the same text
the last one counts. -/
def entries (str : κ → String) (items : List (κ × Payload κ F)) : Dict String (Payload κ F) :=
  Dict.ofPairs (items.map fun p => (str p.1, p.2))

/-- The key is met, over a value, on a way into a payload that leads through no secret key. -/
inductive Met (U : Casing) (str : κ → String) : Payload κ F → String → Payload κ F → Prop where
  | here : (entries str items).lookup s = some w → Met U str (.mapping items) s w
  | under : (entries str items).lookup s = some v → secretKey U s = false → Met U str v s' w →
      Met U str (.mapping items) s' w
  | item : v ∈ xs → Met U str v s w → Met U str (.sequence kind xs) s w

/-- The text that the action path shows of a value, if it is no container and no number. -/
def Payload.shown : Payload κ F → Option String
  | .str s => some s
  | .object _ text => some text
  | _ => none

/-- The words that hide a key from the action path only where they are the whole key. -/
def looseWords : List String :=
  ["private_key", "authorization", "api_key", "access_key", "webhook"]

/-- A key that contains one of those words is one of them, or it contains one of the parts. -/
def Strict (U : Casing) (key : String) : Prop :=
  ∀ word ∈ looseWords, word.toList <:+: normalized U key →
    (∃ word' ∈ looseWords, normalized U key = word'.toList) ∨
      ∃ part ∈ plainParts, part.toList <:+: normalized U key

theorem part_cases : ∀ part ∈ secretKeyParts,
    part ∈ looseWords ∨ ∃ part' ∈ plainParts, part'.toList <:+: part.toList := by
  decide +kernel

theorem word_cases : ∀ word ∈ secretWords,
    word ∈ looseWords ∨ ∃ part ∈ plainParts, part.toList <:+: word.toList := by
  decide +kernel

theorem secretKey_iff {U : Casing} {key : String} : secretKey U key = true ↔
    ∃ part ∈ secretKeyParts, part.toList <:+: normalized U key := by
  simp only [secretKey, List.any_eq_true, decide_eq_true_eq]

theorem isSecretKey_iff {U : Casing} {key : String} : isSecretKey U key = true ↔
    (∃ word ∈ secretWords, normalized U key = word.toList) ∨
      ∃ part ∈ plainParts, part.toList <:+: normalized U key := by
  simp only [isSecretKey, Bool.or_eq_true, List.any_eq_true, decide_eq_true_eq, beq_iff_eq]

theorem strict_iff {U : Casing} {key : String} :
    Strict U key ↔ (secretKey U key = true → isSecretKey U key = true) := by
  have hwords : looseWords ⊆ secretWords := by decide
  have hparts : looseWords ⊆ secretKeyParts := by decide
  rw [secretKey_iff, isSecretKey_iff]
  constructor
  · rintro h ⟨part, hp, hn⟩
    obtain hl | ⟨part', hp', hi⟩ := part_cases part hp
    · obtain ⟨word, hw, he⟩ | hr := h part hl hn
      · exact .inl ⟨word, hwords hw, he⟩
      · exact .inr hr
    · exact .inr ⟨part', hp', hi.trans hn⟩
  · intro h word hw hn
    obtain ⟨word', hm, he⟩ | hr := h ⟨word, hparts hw, hn⟩
    · obtain hl | ⟨part, hp, hi⟩ := word_cases word' hm
      · exact .inl ⟨word', hl, he⟩
      · exact .inr ⟨part, hp, he ▸ hi⟩
    · exact .inr hr

/-- What the action path hides by its key the tool path hides too. -/
theorem secretKey_of_isSecretKey {U : Casing} {key : String} (h : isSecretKey U key = true) :
    secretKey U key = true := by
  have hwords : secretWords ⊆ secretKeyParts := by decide
  have hparts : plainParts ⊆ secretKeyParts := by decide
  rw [isSecretKey_iff] at h
  rw [secretKey_iff]
  rcases h with ⟨word, hw, he⟩ | ⟨part, hp, hn⟩
  · exact ⟨word, hwords hw, he ▸ List.infix_rfl⟩
  · exact ⟨part, hparts hp, hn⟩

theorem isSecretKey_eq_false {U : Casing} {key : String} (h : secretKey U key = false) :
    isSecretKey U key = false := by
  rw [Bool.eq_false_iff]
  intro hi
  rw [secretKey_of_isSecretKey hi] at h
  cases h

section
variable {κ F : Type} (str : κ → String) (isSecret : String → Bool) (onStr : String → String)
  (onObject : String → String → String)

theorem redactList_eq (xs : List (Payload κ F)) :
    redactList str isSecret onStr onObject xs = xs.map (redact str isSecret onStr onObject) := by
  induction xs with
  | nil => rfl
  | cons v vs ih => rw [redactList, ih, List.map_cons]

theorem redactItems_eq (items : List (κ × Payload κ F)) :
    redactItems str isSecret onStr onObject items =
      (items.map fun p => (str p.1, p.2)).map fun p =>
        (p.1, redactEntry str isSecret onStr onObject p.1 p.2) := by
  induction items with
  | nil => rfl
  | cons p items ih =>
    obtain ⟨k, v⟩ := p
    rw [redactItems, ih]
    rfl

/-- A mapping is redacted entry by entry. -/
theorem redact_mapping (items : List (κ × Payload κ F)) :
    redact str isSecret onStr onObject (.mapping items) =
      .dict ((entries str items).map fun p =>
        (p.1, redactEntry str isSecret onStr onObject p.1 p.2)) := by
  rw [redact, redactItems_eq, entries]
  exact congrArg Value.dict (Dict.ofPairs_map _ _)

theorem child_mapping (items : List (κ × Payload κ F)) (s : String) :
    child (redact str isSecret onStr onObject (.mapping items)) (.key s) =
      ((entries str items).lookup s).map (redactEntry str isSecret onStr onObject s) := by
  rw [redact_mapping, child, Dict.lookup_map_keyed]

theorem child_sequence (kind : Kind) (xs : List (Payload κ F)) (i : Nat) :
    child (redact str isSecret onStr onObject (.sequence kind xs)) (.index i) =
      xs[i]?.map (redact str isSecret onStr onObject) := by
  rw [redact, redactList_eq, child, List.getElem?_map]

/-- What a redactor makes of the value at a position comes from an entry of a mapping or an item of
a sequence. -/
theorem child_redact {v : Payload κ F} {step : Step} {u : Json F}
    (h : child (redact str isSecret onStr onObject v) step = some u) :
    (∃ items s w, v = .mapping items ∧ step = .key s ∧ (entries str items).lookup s = some w ∧
      u = redactEntry str isSecret onStr onObject s w) ∨
    ∃ kind xs i w, v = .sequence kind xs ∧ step = .index i ∧ xs[i]? = some w ∧
      u = redact str isSecret onStr onObject w := by
  cases v with
  | mapping items =>
    cases step with
    | index => cases h
    | key s =>
      rw [child_mapping, Option.map_eq_some_iff] at h
      obtain ⟨w, hw, rfl⟩ := h
      exact .inl ⟨items, s, w, rfl, rfl, hw, rfl⟩
  | sequence kind xs =>
    cases step with
    | key => cases h
    | index i =>
      rw [child_sequence, Option.map_eq_some_iff] at h
      obtain ⟨w, hw, rfl⟩ := h
      exact .inr ⟨kind, xs, i, w, rfl, rfl, hw, rfl⟩
  | null | bool | int | float | str | object => cases h

end

theorem withoutSecrets_nil (s : String) : withoutSecrets [] s = s := String.ofList_toList ..

section
variable {κ F : Type} (U : Casing) (str : κ → String)

/-- The positions that the tool path hides by a key, and that the action path hides too. -/
theorem hides_of_strict {path : List Step} {key : String} {v : Payload κ F}
    (h : ∀ s w, Met U str v s w → Strict U s ∨ w.shown = some marker)
    (hk : secretKey U key = true)
    (hd : descend (path ++ [.key key]) (redactPayload U str [] v) = some (.str marker)) :
    descend (path ++ [.key key]) (redactValue U str v) = some (.str marker) := by
  induction path generalizing v with
  | nil =>
    rw [List.nil_append, descend, Option.bind_eq_some_iff] at hd
    obtain ⟨u, hu, -⟩ := hd
    obtain ⟨items, s, w, rfl, hs, hw, -⟩ | ⟨_, _, _, _, -, hs, -⟩ :=
      child_redact _ _ _ _ hu
    · cases hs
      have hc : child (redactValue U str (.mapping items)) (.key key) =
          some (redactEntry str (isSecretKey U) id (fun _ text => text) key w) := by
        rw [redactValue, child_mapping, hw, Option.map_some]
      rw [List.nil_append, descend, hc]
      apply congrArg some
      rw [redactEntry]
      obtain hs | hs := h key w (.here hw)
      · exact if_pos (strict_iff.1 hs hk)
      · cases w with
        | str t =>
          cases hs
          exact ite_self _
        | object n t =>
          cases hs
          exact ite_self _
        | null | bool | int | float | sequence | mapping => cases hs
    · cases hs
  | cons step path ih =>
    rw [List.cons_append, descend, Option.bind_eq_some_iff] at hd
    obtain ⟨u, hu, hd⟩ := hd
    obtain ⟨items, s, w, rfl, rfl, hw, rfl⟩ | ⟨kind, xs, i, w, rfl, rfl, hw, rfl⟩ :=
      child_redact _ _ _ _ hu
    · have hs : secretKey U s = false := by
        rw [Bool.eq_false_iff]
        intro hs
        rw [redactEntry, if_pos hs] at hd
        cases path with
        | nil => cases hd
        | cons => cases hd
      have hs' := isSecretKey_eq_false hs
      have hc : child (redactValue U str (.mapping items)) (.key s) =
          some (redactValue U str w) := by
        rw [redactValue, child_mapping, hw, Option.map_some, redactEntry, hs']
        rfl
      rw [redactEntry, hs] at hd
      rw [List.cons_append, descend, hc]
      exact ih (fun s' w' hm => h s' w' (.under hw hs hm)) hd
    · have hc : child (redactValue U str (.sequence kind xs)) (.index i) =
          some (redactValue U str w) := by
        rw [redactValue, child_sequence, hw, Option.map_some]
      rw [List.cons_append, descend, hc]
      exact ih (fun s' w' hm => h s' w' (.item (List.mem_of_getElem? hw) hm)) hd

/-- A key that is met has a position, where the tool path hides what is under it if it is secret. -/
theorem exists_position {v w : Payload κ F} {key : String} (h : Met U str v key w) :
    ∃ path, (secretKey U key = true →
        descend (path ++ [.key key]) (redactPayload U str [] v) = some (.str marker)) ∧
      (isSecretKey U key = false →
        descend (path ++ [.key key]) (redactValue U str v) = some (redactValue U str w)) := by
  induction h with
  | @here items s w hw =>
    refine ⟨[], fun hs => ?_, fun hs => ?_⟩
    · rw [List.nil_append, descend, redactPayload, child_mapping, hw, Option.map_some, redactEntry,
        if_pos hs]
      rfl
    · rw [List.nil_append, descend, redactValue, child_mapping, hw, Option.map_some, redactEntry,
        hs]
      rfl
  | @under items s v s' w hv hs _ ih =>
    obtain ⟨path, ht, ha⟩ := ih
    have hs' := isSecretKey_eq_false hs
    refine ⟨.key s :: path, fun hk => ?_, fun hk => ?_⟩
    · rw [List.cons_append, descend, redactPayload, child_mapping, hv, Option.map_some,
        redactEntry, hs]
      exact ht hk
    · rw [List.cons_append, descend, redactValue, child_mapping, hv, Option.map_some,
        redactEntry, hs']
      exact ha hk
  | @item v xs s w kind hm _ ih =>
    obtain ⟨path, ht, ha⟩ := ih
    obtain ⟨i, hi⟩ := List.mem_iff_getElem?.1 hm
    refine ⟨.index i :: path, fun hk => ?_, fun hk => ?_⟩
    · rw [List.cons_append, descend, redactPayload, child_sequence, hi, Option.map_some]
      exact ht hk
    · rw [List.cons_append, descend, redactValue, child_sequence, hi, Option.map_some]
      exact ha hk

theorem shown_of_redactValue {w : Payload κ F} (h : redactValue U str w = .str marker) :
    w.shown = some marker := by
  cases w with
  | str s =>
    injection h with h
    exact congrArg some h
  | object n t =>
    injection h with h
    exact congrArg some h
  | mapping items =>
    rw [redactValue, redact_mapping] at h
    cases h
  | null | bool | int | float | sequence => cases h

/-- Wherever the tool path hides a value by its key, the action path shows the marker too, exactly
when every key that is met is strict, or is over the marker. -/
theorem redactors_agree_iff (v : Payload κ F) :
    (∀ path key, secretKey U key = true →
        descend (path ++ [.key key]) (redactPayload U str [] v) = some (.str marker) →
        descend (path ++ [.key key]) (redactValue U str v) = some (.str marker)) ↔
      ∀ key w, Met U str v key w → Strict U key ∨ w.shown = some marker := by
  constructor
  · intro h key w hm
    rw [strict_iff]
    by_cases hk : secretKey U key = true
    · cases hi : isSecretKey U key with
      | true => exact .inl fun _ => rfl
      | false =>
        obtain ⟨path, ht, ha⟩ := exists_position U str hm
        have hd := h path key hk (ht hk)
        rw [ha hi] at hd
        exact .inr (shown_of_redactValue U str (Option.some.inj hd))
    · exact .inl fun hs => absurd hs hk
  · intro h path key hk hd
    exact hides_of_strict U str h hk hd

end

/-- A key that ends in a word is hidden on the tool path and shown on the action path. -/
theorem prefixed_key_shown :
    let v : Payload String WholeFloat := .mapping [("my_api_key", .str "sk-1")]
    ¬ ∀ path key, secretKey Casing.ascii key = true →
      descend (path ++ [.key key]) (redactPayload Casing.ascii id [] v) = some (.str marker) →
      descend (path ++ [.key key]) (redactValue Casing.ascii id v) = some (.str marker) := by
  intro v h
  have hk : secretKey Casing.ascii "my_api_key" = true := by decide +kernel
  have hm : Met Casing.ascii id v "my_api_key" (.str "sk-1") := .here rfl
  obtain ⟨path, ht, ha⟩ := exists_position Casing.ascii id hm
  have hd := h path "my_api_key" hk (ht hk)
  rw [ha (by decide +kernel)] at hd
  injection hd with hd
  injection hd with hd
  exact absurd hd (by decide)

end Obase.Redaction
