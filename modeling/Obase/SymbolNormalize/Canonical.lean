import Obase.Regex
import Obase.Separated
import Mathlib.Data.List.Infix

namespace Obase.SymbolNormalize
set_option autoImplicit true

/-- The class `[A-Z0-9]`. -/
def isAlnum (c : Char) : Bool := ('A' ≤ c && c ≤ 'Z') || ('0' ≤ c && c ≤ '9')

def isHyphen (c : Char) : Bool := c == '-'

/-- `[A-Z0-9]{1,10}`. -/
def componentPattern : Regex := .rep (.char isAlnum) 1 10

/-- What `^` and `$` enclose in `CANONICAL_PATTERN`. -/
def bodyPattern : Regex :=
  .seq componentPattern (.rep (.seq (.char isHyphen) componentPattern) 0 5)

def canonicalPattern : Regex := .seq .start (.seq bodyPattern .stop)

/-- `$` of Python: the end, or the line feed that ends the text. -/
def atEndOfText (rest : List Char) : Bool := rest.isEmpty || rest == ['\n']

def canonicalRegexMatch (s : List Char) : Bool := canonicalPattern.isMatch atEndOfText s

def maxLength : Nat := 64

def spotSuffix : List Char := ['-', 'S', 'P', 'O', 'T']

def isCanonical (symbol : List Char) : Bool :=
  if maxLength < symbol.length then false
  else if spotSuffix.isSuffixOf symbol then false
  else canonicalRegexMatch symbol

inductive ValidationError where
  | stringTooLong (maxLength : Nat)
  | stringPatternMismatch
  | valueError (message : String)
deriving DecidableEq

/-- The validated model; its pattern is searched for with `$` at the end only. -/
structure SymbolModel where
  raw : List Char
  max_length : raw.length ≤ maxLength
  pattern : canonicalPattern.search List.isEmpty raw = true
  must_be_canonical : spotSuffix.isSuffixOf raw = false

def SymbolModel.new (raw : List Char) : Except ValidationError SymbolModel :=
  if hl : raw.length ≤ maxLength then
    if hp : canonicalPattern.search List.isEmpty raw = true then
      if hs : spotSuffix.isSuffixOf raw = false then .ok ⟨raw, hl, hp, hs⟩
      else .error (.valueError "SPOT suffix forbidden, use base form")
    else .error .stringPatternMismatch
  else .error (.stringTooLong maxLength)

/-- One to ten characters of the class. -/
def Component (p : List Char) : Prop := 1 ≤ p.length ∧ p.length ≤ 10 ∧ ∀ c ∈ p, isAlnum c = true

/-- One to six components joined by single hyphens. -/
def Joined (s : List Char) : Prop :=
  ∃ parts : List (List Char), 1 ≤ parts.length ∧ parts.length ≤ 6 ∧ (∀ p ∈ parts, Component p) ∧
    s = ['-'].intercalate parts

/-- The grammar of canonical symbols. -/
def Grammar (s : List Char) : Prop := s.length ≤ maxLength ∧ Joined s ∧ ¬ spotSuffix <:+ s

theorem hyphen_not_alnum : isAlnum '-' = false := by decide

theorem newline_not_alnum : isAlnum '\n' = false := by decide

theorem Component.hyphen_not_mem (h : Component p) : '-' ∉ p := by
  intro hm
  have ha := h.2.2 _ hm
  rw [hyphen_not_alnum] at ha
  cases ha

theorem reads_component : componentPattern.Reads p ↔ Component p := by
  constructor
  · rintro ⟨us, rfl, hus, hlo, hhi⟩
    have hl : us.flatten.length = us.length ∧ ∀ c ∈ us.flatten, isAlnum c = true := by
      clear hlo hhi
      induction us with
      | nil => simp
      | cons u us ih =>
        rw [List.forall_mem_cons] at hus
        obtain ⟨⟨c, rfl, hc⟩, hus⟩ := hus
        obtain ⟨hl, ha⟩ := ih hus
        rw [List.flatten_cons, List.singleton_append, List.length_cons, List.length_cons, hl]
        exact ⟨rfl, List.forall_mem_cons.2 ⟨hc, ha⟩⟩
    rw [Component, hl.1]
    exact ⟨hlo, hhi, hl.2⟩
  · rintro ⟨hlo, hhi, ha⟩
    refine ⟨p.map fun c => [c], ?_, ?_, by rwa [List.length_map], by rwa [List.length_map]⟩
    · rw [← List.flatMap_def, List.flatMap_singleton']
    · intro v hv
      obtain ⟨c, hc, rfl⟩ := List.mem_map.1 hv
      exact ⟨c, rfl, ha c hc⟩

theorem reads_body : bodyPattern.Reads s ↔ Joined s := by
  constructor
  · rintro ⟨p, _, rfl, hp, us, rfl, hus, -, hhi⟩
    have hps : ∃ ps : List (List Char), us = ps.map ('-' :: ·) ∧ ∀ p ∈ ps, Component p := by
      clear hhi
      induction us with
      | nil => exact ⟨[], rfl, by simp⟩
      | cons u us ih =>
        rw [List.forall_mem_cons] at hus
        obtain ⟨⟨_, q, rfl, ⟨c, rfl, hc⟩, hq⟩, hus⟩ := hus
        obtain ⟨ps, rfl, hps⟩ := ih hus
        cases eq_of_beq hc
        exact ⟨q :: ps, rfl, List.forall_mem_cons.2 ⟨reads_component.1 hq, hps⟩⟩
    obtain ⟨ps, rfl, hps⟩ := hps
    rw [List.length_map] at hhi
    exact ⟨p :: ps, Nat.succ_pos _, Nat.succ_le_succ hhi,
      List.forall_mem_cons.2 ⟨reads_component.1 hp, hps⟩, (Separated.intercalate_cons ..).symm⟩
  · rintro ⟨parts, hlo, hhi, hp, rfl⟩
    cases parts with
    | nil => cases hlo
    | cons p ps =>
      rw [List.forall_mem_cons] at hp
      rw [Separated.intercalate_cons]
      refine ⟨p, _, rfl, reads_component.2 hp.1, ps.map ('-' :: ·), rfl, ?_, Nat.zero_le _, ?_⟩
      · intro v hv
        obtain ⟨q, hq, rfl⟩ := List.mem_map.1 hv
        exact ⟨['-'], q, rfl, ⟨'-', rfl, rfl⟩, reads_component.2 (hp.2 q hq)⟩
      · rw [List.length_map]
        exact Nat.le_of_succ_le_succ hhi

theorem body_plain : bodyPattern.Plain := ⟨trivial, trivial, trivial⟩

theorem canonicalRegexMatch_iff (s : List Char) :
    canonicalRegexMatch s = true ↔ Joined s ∨ ∃ t, s = t ++ ['\n'] ∧ Joined t := by
  rw [canonicalRegexMatch, canonicalPattern, Regex.isMatch_anchored _ body_plain]
  constructor
  · rintro ⟨u, t, rfl, hu, ht⟩
    rw [atEndOfText, Bool.or_eq_true, List.isEmpty_iff, beq_iff_eq] at ht
    rcases ht with rfl | rfl
    · rw [List.append_nil]
      exact .inl (reads_body.1 hu)
    · exact .inr ⟨u, rfl, reads_body.1 hu⟩
  · rintro (h | ⟨t, rfl, h⟩)
    · exact ⟨s, [], (List.append_nil s).symm, reads_body.2 h, rfl⟩
    · exact ⟨t, ['\n'], rfl, reads_body.2 h, rfl⟩

theorem search_iff (s : List Char) :
    canonicalPattern.search List.isEmpty s = true ↔ Joined s := by
  rw [canonicalPattern, Regex.search_start, Regex.isMatch_anchored _ body_plain]
  constructor
  · rintro ⟨u, t, rfl, hu, ht⟩
    rw [List.isEmpty_iff.1 ht, List.append_nil]
    exact reads_body.1 hu
  · intro h
    exact ⟨s, [], (List.append_nil s).symm, reads_body.2 h, rfl⟩

theorem isCanonical_iff (s : List Char) :
    isCanonical s = true ↔
      s.length ≤ maxLength ∧ canonicalRegexMatch s = true ∧ ¬ spotSuffix <:+ s := by
  rw [isCanonical, ← List.isSuffixOf_iff_suffix]
  by_cases hl : maxLength < s.length
  · rw [if_pos hl]
    constructor
    · intro h
      cases h
    · intro h
      exact absurd hl (Nat.not_lt.2 h.1)
  · rw [if_neg hl]
    by_cases hs : spotSuffix.isSuffixOf s = true
    · simp [hs]
    · rw [if_neg hs]
      exact ⟨fun h => ⟨Nat.not_lt.1 hl, h, hs⟩, fun h => h.2.1⟩

theorem SymbolModel.new_ok {m : SymbolModel} (h : SymbolModel.new s = .ok m) : m.raw = s := by
  rw [SymbolModel.new] at h
  split at h
  · split at h
    · split at h
      · cases h
        rfl
      · cases h
    · cases h
  · cases h

theorem SymbolModel.grammar (m : SymbolModel) : Grammar m.raw := by
  refine ⟨m.max_length, (search_iff _).1 m.pattern, ?_⟩
  rw [← List.isSuffixOf_iff_suffix, m.must_be_canonical]
  exact Bool.false_ne_true

/-- The model accepts the grammar and nothing else. -/
theorem SymbolModel.accepts_iff (s : List Char) :
    (∃ m, SymbolModel.new s = .ok m) ↔ Grammar s := by
  constructor
  · rintro ⟨m, hm⟩
    rw [← SymbolModel.new_ok hm]
    exact m.grammar
  · rintro ⟨hl, hj, hs⟩
    rw [← List.isSuffixOf_iff_suffix, Bool.not_eq_true] at hs
    rw [SymbolModel.new, dif_pos hl, dif_pos ((search_iff s).2 hj), dif_pos hs]
    exact ⟨_, rfl⟩

theorem Joined.mem (h : Joined s) (hc : c ∈ s) : isAlnum c = true ∨ c = '-' := by
  obtain ⟨parts, -, -, hp, rfl⟩ := h
  rcases Separated.mem_intercalate hc with he | ⟨p, hpm, hc⟩
  · exact .inr he
  · exact .inl ((hp p hpm).2.2 c hc)

theorem Joined.newline_not_mem (h : Joined s) : '\n' ∉ s := by
  intro hm
  rcases h.mem hm with ha | he
  · rw [newline_not_alnum] at ha
    cases ha
  · cases he

theorem not_spot_of_newline (t : List Char) : ¬ spotSuffix <:+ t ++ ['\n'] := by
  rintro ⟨u, hu⟩
  have hl := congrArg List.getLast? hu
  simp [spotSuffix] at hl

theorem grammar_iff_of_newline {s : List Char} (h : ¬ ∃ t, s = t ++ ['\n'] ∧ Joined t) :
    isCanonical s = true ↔ Grammar s := by
  rw [isCanonical_iff, canonicalRegexMatch_iff, Grammar, or_iff_left h]

/-- The recogniser and the validated model both decide the grammar except on a line feed after
components of at most 63 characters. -/
theorem recognisers_meet_grammar_iff (s : List Char) :
    ((isCanonical s = true ↔ Grammar s) ∧ ((∃ m, SymbolModel.new s = .ok m) ↔ Grammar s)) ↔
      ¬ ∃ t, s = t ++ ['\n'] ∧ Joined t ∧ t.length < maxLength := by
  rw [and_iff_left (SymbolModel.accepts_iff s)]
  constructor
  · rintro h ⟨t, rfl, ht, hl⟩
    have hc : isCanonical (t ++ ['\n']) = true := by
      rw [isCanonical_iff, List.length_append]
      exact ⟨hl, (canonicalRegexMatch_iff _).2 (.inr ⟨t, rfl, ht⟩), not_spot_of_newline t⟩
    exact (h.1 hc).2.1.newline_not_mem (by simp)
  · intro h
    by_cases ht : ∃ t, s = t ++ ['\n'] ∧ Joined t
    · obtain ⟨t, rfl, ht⟩ := ht
      have hl : ¬ (t ++ ['\n']).length ≤ maxLength := by
        rw [List.length_append]
        exact fun hl => h ⟨t, rfl, ht, hl⟩
      rw [isCanonical_iff, Grammar]
      exact iff_of_false (fun hc => hl hc.1) fun hg => hl hg.1
    · exact grammar_iff_of_newline ht

theorem newline_is_canonical :
    ¬ ∀ s, (isCanonical s = true ↔ Grammar s) ∧
      ((∃ m, SymbolModel.new s = .ok m) ↔ Grammar s) := by
  intro h
  have hc := (h ['B', 'T', 'C', '\n']).1.1 (by decide)
  exact hc.2.1.newline_not_mem (by simp)

end Obase.SymbolNormalize
