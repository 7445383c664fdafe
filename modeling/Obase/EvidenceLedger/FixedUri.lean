import Obase.EvidenceLedger.SourceUri

namespace Obase.EvidenceLedger
set_option autoImplicit true
open Url

variable {U : UrlText}

def endsInSpace (cs : List Char) : Bool := cs.getLast?.any Text.isSpace

/-- The canonical text ends in a blank, which the next `strip` takes away: nothing of the query
is written and the path ends in a blank, or the scheme is not that of a web page and the whole
ends in one. -/
def Frays (U : UrlText) (parts : SplitResult) : Prop :=
  if isWeb (U.lower parts.scheme) then
    parseQsl U.decode parts.query = [] ∧ endsInSpace parts.path = true
  else endsInSpace (parts.netloc ++ parts.path ++ parts.query) = true

/-- The source URI has a canonical form that is read as it was written. -/
def SteadyUri (U : UrlText) (value : List Char) : Prop :=
  ∀ parts, urlsplit U (Text.strip value) = some parts →
    ¬ Frays U parts ∧ (isWeb (U.lower parts.scheme) = true → ¬ LosesBracket parts.netloc)

theorem endsInSpace_append {y : List Char} (hy : y ≠ []) (x : List Char) :
    endsInSpace (x ++ y) = endsInSpace y := by
  rw [endsInSpace, List.getLast?_append_of_ne_nil _ hy, endsInSpace]

theorem urlencode_eq_nil {pairs : List (List Char × List Char)} (h : urlencode pairs = []) :
    pairs = [] := by
  cases pairs with
  | nil => rfl
  | cons p ps =>
    have hm : '=' ∈ urlencode (p :: ps) := by
      rw [urlencode, List.map_cons, Separated.intercalate_cons]
      simp
    rw [h] at hm
    cases hm

theorem canonicalQuery_eq_nil {query : List Char} :
    canonicalQuery U query = [] ↔ parseQsl U.decode query = [] := by
  constructor
  · intro h
    have hs := urlencode_eq_nil h
    rw [← List.length_eq_zero_iff, List.length_insertionSort] at hs
    exact List.length_eq_zero_iff.1 hs
  · intro h
    rw [canonicalQuery, h]
    rfl

theorem canonicalQuery_ends (query : List Char) :
    endsInSpace (canonicalQuery U query) = false := by
  rw [endsInSpace]
  cases hl : (canonicalQuery U query).getLast? with
  | none => rfl
  | some c => exact (mark_facts (canonicalQuery_chars (List.mem_of_getLast? hl))).2.1

theorem endsInSpace_urlunsplit {p : SplitResult} (h : Separate p) :
    endsInSpace (urlunsplit p) = endsInSpace (p.netloc ++ p.path ++ p.query) := by
  rcases h.getLast with hl | ⟨he, hl⟩
  · rw [endsInSpace, endsInSpace, hl]
  · rw [he, endsInSpace]
    rcases hl with hl | hl
    · rw [hl]
      decide
    · rw [hl]
      decide

theorem Canonical.frays_iff {p r : SplitResult} (h : Canonical U p r) :
    endsInSpace (r.netloc ++ r.path ++ r.query) = true ↔ Frays U p := by
  cases h with
  | web hs hw hn hk =>
    rw [Frays, if_pos hw]
    dsimp only
    by_cases hq : parseQsl U.decode p.query = []
    · rw [canonicalQuery_eq_nil.2 hq, List.append_nil, and_iff_right hq]
      split
      · rename_i hp
        rw [endsInSpace_append (by simp), hp]
        decide
      · rename_i hp
        rw [endsInSpace_append hp]
    · rw [endsInSpace_append (mt canonicalQuery_eq_nil.1 hq), canonicalQuery_ends]
      exact iff_of_false (by simp) fun hf => hq hf.1
  | other hs hw ha => rw [Frays, if_neg (by simp [hw])]

theorem Canonical.valid_iff {x : List Char} {r : SplitResult} (h : Canonical U (components x) r)
    (hv : validNetloc U (components x).netloc = true) : validNetloc U r.netloc = true ↔
      (isWeb (U.lower (components x).scheme) = true → ¬ LosesBracket (components x).netloc) := by
  cases h with
  | web hs hw hn hk =>
    obtain ⟨ha, -, q, -, rfl⟩ := canonicalNetloc_ok.1 hn
    rw [forall_prop_of_true hw]
    exact validNetloc_join_iff ha (components_netloc x) hv
  | other hs hw ha => exact iff_of_true hv fun hw' => by simp [hw] at hw'

theorem canonicalQuery_again (query : List Char) :
    canonicalQuery U (canonicalQuery U query) = canonicalQuery U query ∧
      (secretKey U query = none → secretKey U (canonicalQuery U query) = none) := by
  have hp : parseQsl U.decode (canonicalQuery U query) =
      (parseQsl U.decode query).insertionSort pairLe :=
    parseQsl_urlencode U.decode_utf8 _
  constructor
  · have hs : ((parseQsl U.decode query).insertionSort pairLe).insertionSort pairLe =
        (parseQsl U.decode query).insertionSort pairLe :=
      (List.pairwise_insertionSort pairLe _).insertionSort_eq
    rw [canonicalQuery, hp, hs]
    rfl
  · intro h
    rw [secretKey, List.find?_eq_none] at h ⊢
    intro key hk
    apply h
    rw [hp] at hk
    exact ((List.perm_insertionSort pairLe _).map Prod.fst).mem_iff.1 hk

/-- Canonical components are their own canonical components. -/
theorem Canonical.again {x : List Char} {r : SplitResult} (h : Canonical U (components x) r)
    (hv : validNetloc U (components x).netloc = true)
    (hl : isWeb (U.lower (components x).scheme) = true → ¬ LosesBracket (components x).netloc) :
    Canonical U r r := by
  obtain ⟨hsch, hs⟩ := h.scheme_eq
  have hlow : U.lower r.scheme = r.scheme := lower_allowed hs
  cases h with
  | web hs' hw hn hk =>
    dsimp only at hlow
    have hpath : (if (components x).path = [] then ['/'] else (components x).path) ≠ [] := by
      split
      · simp
      · assumption
    have hn' := canonicalNetloc_again (components_netloc x) hv (hl hw) hn
    have hq := canonicalQuery_again (U := U) (components x).query
    have hc := Canonical.web (U := U)
      (p := ⟨U.lower (components x).scheme, _,
        if (components x).path = [] then ['/'] else (components x).path,
        canonicalQuery U (components x).query, []⟩)
      (by rwa [hlow]) (by rwa [hlow]) (by rwa [hlow]) (hq.2 hk)
    dsimp only at hc
    rw [hlow, if_neg hpath, hq.1] at hc
    exact hc
  | other hs' hw ha =>
    dsimp only at hlow
    have hc := Canonical.other (U := U)
      (p := ⟨U.lower (components x).scheme, (components x).netloc, (components x).path,
        (components x).query, []⟩) (by rwa [hlow]) (by rwa [hlow]) ha
    dsimp only at hc
    rw [hlow] at hc
    exact hc

theorem strip_of_head {cs : List Char} {c : Char} (hh : cs.head? = some c)
    (hc : Text.isSpace c = false) :
    (Text.strip cs).head? = some c ∧ endsInSpace (Text.strip cs) = false ∧
      Text.strip cs <+: cs := by
  have hm : c ∈ cs := List.mem_of_mem_head? hh
  have hb := Text.notBlank_of_mem hm hc
  have hne : Text.strip cs ≠ [] := by
    intro he
    rw [Text.notBlank, he] at hb
    cases hb
  obtain ⟨d, hd, -, e, he, hs⟩ := Text.trim_trimmed hne
  have hdrop : cs.dropWhile Text.isSpace = cs := by
    cases cs with
    | nil => rfl
    | cons a cs =>
      cases hh
      exact List.dropWhile_cons_of_neg (by simp [hc])
  have hp : Text.strip cs <+: cs := by
    rw [Text.strip, Text.trim, hdrop]
    exact List.rdropWhile_prefix Text.isSpace cs
  refine ⟨?_, ?_, hp⟩
  · obtain ⟨t, ht⟩ := hp
    rw [← ht, List.head?_append_of_ne_nil _ hne] at hh
    exact hh
  · rw [endsInSpace, Text.strip, he]
    exact hs

theorem strip_of_ends {cs : List Char} {c : Char} (hh : cs.head? = some c)
    (hc : Text.isSpace c = false) (he : endsInSpace cs = false) : Text.strip cs = cs := by
  apply Text.strip_of_trimmed
  refine ⟨c, hh, hc, ?_⟩
  cases hl : cs.getLast? with
  | none =>
    rw [List.getLast?_eq_none_iff.1 hl] at hh
    cases hh
  | some d =>
    rw [endsInSpace, hl] at he
    exact ⟨d, rfl, he⟩

theorem canonicalSourceUri_ok {value uri : List Char} :
    canonicalSourceUri U value = .ok uri ↔ Text.strip value ≠ [] ∧
      validNetloc U (components (cleaned (Text.strip value))).netloc = true ∧
      ∃ r, Canonical U (components (cleaned (Text.strip value))) r ∧ uri = urlunsplit r := by
  rw [canonicalSourceUri, urlsplit]
  constructor
  · intro h
    split at h
    · cases h
    · rename_i hne
      split at h
      · cases h
      · rename_i parts hs
        split at hs
        · rename_i hv
          cases hs
          obtain ⟨r, hr, he⟩ := map_ok h
          exact ⟨hne, hv, r, canonicalParts_ok.1 hr, he⟩
        · cases hs
  · rintro ⟨hne, hv, r, hr, rfl⟩
    rw [if_neg hne, if_pos hv]
    dsimp only
    rw [canonicalParts_ok.2 hr]
    rfl

theorem steadyUri_iff {value : List Char}
    (hv : validNetloc U (components (cleaned (Text.strip value))).netloc = true) :
    SteadyUri U value ↔ ¬ Frays U (components (cleaned (Text.strip value))) ∧
      (isWeb (U.lower (components (cleaned (Text.strip value))).scheme) = true →
        ¬ LosesBracket (components (cleaned (Text.strip value))).netloc) := by
  have hs : urlsplit U (Text.strip value) = some (components (cleaned (Text.strip value))) :=
    if_pos hv
  rw [SteadyUri, hs]
  constructor
  · intro h
    exact h _ rfl
  · intro h parts he
    cases he
    exact h

/-- A text that the last character was stripped of does not end in a blank. -/
theorem not_frays {x : List Char} {r : SplitResult} (h : Canonical U (components x) r)
    (hx : '#' ∉ x) (hm : r.query = [] → '?' ∉ x) (he : endsInSpace x = false) :
    ¬ Frays U (components x) := by
  intro hf
  have hq : (components x).query = [] → '?' ∉ x := by
    cases h with
    | web hs hw hn hk =>
      rw [Frays, if_pos hw] at hf
      exact fun _ => hm (canonicalQuery_eq_nil.2 hf.1)
    | other hs hw ha => exact hm
  have hends : endsInSpace ((components x).netloc ++ (components x).path ++
      (components x).query) = true := by
    rw [Frays] at hf
    split at hf
    · rename_i hw
      have hquery : (components x).query = [] := by
        by_contra hne
        cases h with
        | web hs _ hn hk => exact hm (canonicalQuery_eq_nil.2 hf.1) (mark_of_components_query hne)
        | other hs hw' ha =>
          rw [hw] at hw'
          cases hw'
      have hpath : (components x).path ≠ [] := by
        intro hp
        rw [hp] at hf
        cases hf.2
      rw [hquery, List.append_nil, endsInSpace_append hpath, hf.2]
    · exact hf
  have hne : (components x).netloc ++ (components x).path ++ (components x).query ≠ [] := by
    intro hn
    rw [hn] at hends
    cases hends
  rw [endsInSpace, components_getLast hx hq hne, ← endsInSpace, he] at hends
  cases hends

/-- A canonical source URI is its own canonical form exactly when it was steady. -/
theorem canonicalSourceUri_again_iff {value uri : List Char}
    (h : canonicalSourceUri U value = .ok uri) :
    canonicalSourceUri U uri = .ok uri ↔ SteadyUri U value := by
  obtain ⟨-, hv, r, hr, rfl⟩ := canonicalSourceUri_ok.1 h
  rw [steadyUri_iff hv]
  have hsep := hr.separate hv
  obtain ⟨c, hc, halpha⟩ := hsep.head
  have hspace := (isAlpha_spec halpha).1
  have hclean := hr.clean hv (cleaned_clean _)
  have hends : endsInSpace (urlunsplit r) = true ↔
      Frays U (components (cleaned (Text.strip value))) := by
    rw [endsInSpace_urlunsplit hsep, hr.frays_iff]
  constructor
  · intro hfix
    obtain ⟨-, hv', r', hr', he⟩ := canonicalSourceUri_ok.1 hfix
    obtain ⟨hhead, hlast, hpre⟩ := strip_of_head hc hspace
    rw [cleaned_of_clean hhead halpha fun c hc => hclean c (hpre.subset hc)] at hv' hr'
    have hsep' := hr'.separate hv'
    have hrr : r' = r := by
      rw [← components_urlunsplit hsep', ← he, components_urlunsplit hsep]
    subst hrr
    have hfr := not_frays hr' (fun hm => hsep.no_hash (hpre.subset hm))
      (fun hq hm => hsep.no_mark hq (hpre.subset hm)) hlast
    have hnot : ¬ endsInSpace (urlunsplit r') = true := by
      rw [endsInSpace_urlunsplit hsep, hr'.frays_iff]
      exact hfr
    refine ⟨mt hends.2 hnot, ?_⟩
    rw [strip_of_ends hc hspace (Bool.eq_false_iff.2 hnot), components_urlunsplit hsep] at hv'
    exact (hr.valid_iff hv).1 hv'
  · rintro ⟨hfr, hl⟩
    have hstrip : Text.strip (urlunsplit r) = urlunsplit r :=
      strip_of_ends hc hspace (Bool.eq_false_iff.2 (mt hends.1 hfr))
    apply canonicalSourceUri_ok.2
    rw [hstrip, cleaned_of_clean hc halpha hclean, components_urlunsplit hsep]
    refine ⟨?_, (hr.valid_iff hv).2 hl, r, hr.again hv hl, rfl⟩
    intro hn
    rw [hn] at hc
    cases hc

end Obase.EvidenceLedger
