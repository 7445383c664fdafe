import Obase.KnowledgeStore.RoundTrip

namespace Obase.KnowledgeStore
set_option autoImplicit true
open Text

/-- A value as `read` gives it. -/
def Field.Kept : Field → Prop
  | .bool _ => True
  | .str s => PlainText s.toList
  | .list xs => ∀ x ∈ xs, OneLine x.toList ∧ ',' ∉ x.toList ∧ ¬ delimiter <:+: x.toList
  | _ => False

/-- A list that is written and read as it is. -/
def Field.PlainList (v : Field) : Prop :=
  ∃ xs, v = .list xs ∧ xs ≠ [] ∧
    ∀ x ∈ xs, x ≠ "" ∧ strip x.toList = x.toList ∧ stripQuotes x.toList = x.toList

/-- The names of the fields above the reason that the marks leave alone. -/
def lasting : List String := ["id", "type", "covers", "depends_on", "auto_update"]

/-- The fields that are left alone are written and read as they are. -/
structure Settled (U : Casing) (fm : FrontMatter) : Prop where
  id : ∃ s, fm.lookup "id" = some (.str s)
  type : ∃ s, fm.lookup "type" = some (.str s)
  covers : ∀ v, fm.lookup "covers" = some v → v.PlainList
  dependsOn : ∀ v, fm.lookup "depends_on" = some v → v.PlainList
  autoUpdate : (∃ b, fm.lookup "auto_update" = some (.bool b)) ∨
    ∃ s, fm.lookup "auto_update" = some (.str s) ∧ U.lower s.toList = s.toList
  schemaVersion : ∃ s, fm.lookup "schema_version" = some (.str s)

/-- A reason without a delimiter, of which no line but the first gives a field that lasts or that
`write` cannot take. -/
structure Quiet (reason : String) : Prop where
  no_delimiter : ¬ delimiter <:+: reason.toList
  lines : ∀ l ∈ (splitlines reason.toList).tail, ∀ p, parseLine l = some p →
    p.1 ∉ lasting ∧ p.1 ∉ parameters

theorem parseValue_kept {cs : List Char} (h : OneLine cs) (hd : ¬ delimiter <:+: cs)
    (hs : strip cs = cs) : (parseValue cs).Kept := by
  by_cases ht : cs = "true".toList
  · rw [ht]
    trivial
  by_cases hf : cs = "false".toList
  · rw [hf]
    trivial
  by_cases hb : bracketed cs
  · rw [parseValue, if_neg ht, if_neg hf, if_pos hb]
    intro x hx
    obtain ⟨hm, hc⟩ := mem_parseItems hx
    obtain ⟨l, hl, rfl⟩ := List.mem_map.1 hx
    refine ⟨h.of_subset fun c hc => List.mem_of_mem_tail (List.mem_of_mem_dropLast (hm c hc)), hc,
      fun hi => hd ?_⟩
    rw [String.toList_ofList] at hi
    have hl := Separated.infix_of_mem_splitOn (List.mem_filter.1 hl).1
    exact (((hi.trans (Text.infix_trim ..)).trans (Text.infix_trim ..)).trans hl).trans
      ((List.dropLast_prefix _).isInfix.trans (List.tail_suffix cs).isInfix)
  · rw [parseValue_of_plain ht hf hb]
    change PlainText (String.ofList cs).toList
    rw [String.toList_ofList]
    exact ⟨h, hd, hs, ht, hf, hb⟩

/-- What is read of a text. -/
theorem parse_kept {text : List Char} {doc : Doc} (hcr : '\r' ∉ text)
    (h : parseFrontmatter text = some doc) : Dict.Distinct doc.1 ∧
      (∀ k v, doc.1.lookup k = some v → v.Kept) ∧ strip doc.2 = doc.2 ∧ '\r' ∉ doc.2 := by
  by_cases hp : delimiter <+: text
  · obtain ⟨cs, rfl⟩ := hp
    rw [parse_delimited] at h
    obtain ⟨⟨front, body⟩, hfront, rfl⟩ := Option.map_eq_some_iff.1 h
    have hcs := partition_ok hfront
    have hd := partition_first delimiter_ne_nil hfront
    have hmem : ∀ c ∈ front ++ body, c ∈ delimiter ++ cs := by
      rw [List.forall_mem_append, hcs]
      exact ⟨fun c hc => by simp [hc], fun c hc => by simp [hc]⟩
    rw [List.forall_mem_append] at hmem
    refine ⟨Dict.ofPairs_distinct _, fun k v hl => ?_, trim_trim isSpace body,
      fun hm => hcr (hmem.2 _ (mem_trim hm))⟩
    have hun : universalNewlines (strip front) = strip front :=
      universalNewlines_of_no_cr fun hm => hcr (hmem.1 _ (mem_trim hm))
    rw [Dict.lookup_ofPairs, splitlines, hun] at hl
    have he : (k, v) ∈ entries (strip front) := List.mem_reverse.1 (Dict.lookup_mem hl)
    obtain ⟨-, w, rfl, hone, hi⟩ := entries_value he
    refine parseValue_kept (hone.of_subset fun c hc => mem_trim hc) (fun hi' => hd ?_)
      (trim_trim isSpace w)
    exact ((hi'.trans (infix_trim ..)).trans hi).trans (infix_trim ..)
  · rw [parseFrontmatter, Bool.eq_false_iff.2 fun hb => hp (List.isPrefixOf_iff_prefix.1 hb)] at h
    cases h

/-- What the lines of a quiet reason give. -/
theorem Quiet.entries {reason : String} (h : Quiet reason) :
    ∀ p ∈ entries (universalNewlines (pairLine ("stale_reason", reason.toList))),
      p.1 ∉ lasting ∧ p.1 ∉ parameters := by
  have hcr : '\r' ∉ "stale_reason".toList ++ [':', ' '] := by decide
  have hone : OneLine ("stale_reason".toList ++ [':', ' ']) := by decide
  have hcolon : ':' ∉ "stale_reason".toList := by decide
  intro p hp
  have hline : pairLine ("stale_reason", reason.toList) =
      ("stale_reason".toList ++ [':', ' ']) ++ reason.toList := by
    rw [pairLine_eq, List.append_assoc]
    rfl
  rw [hline, universalNewlines_append_of_no_cr hcr, KnowledgeStore.entries,
    lines_append_left hone (by decide), List.append_assoc, List.cons_append,
    List.filterMap_cons_some (parseLine_eq hcolon _)] at hp
  obtain rfl | hp := List.mem_cons.1 hp
  · have hname : String.ofList (strip "stale_reason".toList) ∉ lasting ∧
        String.ofList (strip "stale_reason".toList) ∉ parameters := by decide
    exact hname
  · obtain ⟨l, hl, hp⟩ := List.mem_filterMap.1 hp
    exact h.lines l hl p hp

def Field.items : Field → List String
  | .list xs => xs
  | _ => []

/-- The texts that `write` makes of a front matter. -/
def Front.of (U : Casing) (printable : Char → Bool) (fm : FrontMatter) (now : Time) (stale : Bool)
    (reason : Option String) : Front where
  id := ((fm.lookup "id").getD .none).text printable
  type := ((fm.lookup "type").getD .none).text printable
  covers := ((fm.lookup "covers").getD .none).items
  dependsOn := ((fm.lookup "depends_on").getD .none).items
  autoUpdate := U.lower (((fm.lookup "auto_update").getD .none).text printable)
  stale := stale
  staleReason := reason
  lastSyncedAt := ((fm.lookup "last_synced_at").getD (.str now.strftime)).text printable
  schemaVersion := ((fm.lookup "schema_version").getD .none).text printable

section
variable {U : Casing} {printable : Char → Bool} {base : Path} {t : FileTree} {id : String}
  {type : Field} {fm : FrontMatter} {body : List Char} {now : Time} {stale : Bool}
  {reason : Option String}

theorem items_getD {v : Option Field} (h : ∀ w, v = some w → w.PlainList) :
    v.getD (.list []) = .list (v.getD .none).items := by
  cases v with
  | none => rfl
  | some v =>
    obtain ⟨xs, rfl, -⟩ := h v rfl
    rfl

theorem Settled.gives (h : Settled U fm) (hd : Dict.Distinct fm)
    (hs : fm.lookup "stale" = some (.bool stale))
    (hr : fm.lookup "stale_reason" = some (reason.elim .none .str)) :
    Gives U printable id type fm now (Front.of U printable fm now stale reason) where
  distinct := hd
  id := by
    obtain ⟨s, hl⟩ := h.id
    rw [Front.of, hl]
    rfl
  type := by
    obtain ⟨s, hl⟩ := h.type
    rw [Front.of, hl]
    rfl
  covers := items_getD h.covers
  dependsOn := items_getD h.dependsOn
  autoUpdate := by
    obtain ⟨b, hl⟩ | ⟨s, hl, -⟩ := h.autoUpdate
    · rw [Front.of, hl]
      rfl
    · rw [Front.of, hl]
      rfl
  stale := by
    rw [hs]
    rfl
  staleReason := by
    rw [hr]
    rfl
  lastSyncedAt := rfl
  schemaVersion := by
    obtain ⟨s, hl⟩ := h.schemaVersion
    rw [Front.of, hl]
    rfl

/-- A text that ends its line and has no delimiter in it. -/
def Clean (cs : List Char) : Prop := OneLine cs ∧ ¬ delimiter <:+: cs

theorem PlainText.clean {cs : List Char} (h : PlainText cs) : Clean cs :=
  ⟨h.oneLine, h.no_delimiter⟩

theorem Field.Kept.clean {v : Field} (h : v.Kept) (hs : v.Scalar) : Clean (v.text printable) := by
  cases v with
  | none => exact h.elim
  | int n => exact h.elim
  | bool b =>
    cases b with
    | true =>
      change Clean "True".toList
      exact ⟨by decide, by decide⟩
    | false =>
      change Clean "False".toList
      exact ⟨by decide, by decide⟩
  | str s => exact PlainText.clean h
  | list xs => exact (hs xs rfl).elim

theorem items_clean {v : Option Field} (h : ∀ w, v = some w → w.Kept) :
    Clean (listText (v.getD .none).items) := by
  have hitems : ∀ x ∈ (v.getD .none).items, OneLine x.toList ∧ ¬ delimiter <:+: x.toList := by
    cases v with
    | none => exact fun x hx => nomatch hx
    | some v =>
      have hk := h v rfl
      cases v with
      | list xs => exact fun x hx => ⟨(hk x hx).1, (hk x hx).2.2⟩
      | none => exact fun x hx => nomatch hx
      | bool b => exact fun x hx => nomatch hx
      | int n => exact fun x hx => nomatch hx
      | str s => exact fun x hx => nomatch hx
  refine ⟨listText_oneLine fun x hx => (hitems x hx).1, fun hi => ?_⟩
  obtain ⟨x, hx, hi⟩ := delimiter_listText.1 hi
  exact (hitems x hx).2 hi

theorem boolText_clean (b : Bool) : Clean (boolText b) := by
  cases b with
  | true => exact ⟨by decide, by decide⟩
  | false => exact ⟨by decide, by decide⟩

/-- Where a settled front matter was read, its lines but for the reason are clean. -/
theorem Settled.clean (h : Settled U fm)
    (hk : ∀ k v, k ≠ "stale_reason" → fm.lookup k = some v → v.Kept)
    (hl : ∀ v, fm.lookup "last_synced_at" = some v → v.Scalar) :
    ∀ p ∈ (Front.of U printable fm now stale none).pairs, Clean p.2 := by
  have htext {name : String} (hn : name ≠ "stale_reason")
      (hs : ∃ s, fm.lookup name = some (.str s)) :
      Clean (((fm.lookup name).getD .none).text printable) := by
    obtain ⟨s, hs⟩ := hs
    rw [hs]
    exact (hk name _ hn hs).clean fun xs he => nomatch he
  have hauto : Clean (Front.of U printable fm now stale none).autoUpdate := by
    rw [Front.of]
    obtain ⟨b, hb⟩ | ⟨s, hb, hlow⟩ := h.autoUpdate
    · rw [hb]
      cases b with
      | true =>
        change Clean (U.lower "True".toList)
        rw [lower_true]
        exact boolText_clean true
      | false =>
        change Clean (U.lower "False".toList)
        rw [lower_false]
        exact boolText_clean false
    · rw [hb]
      change Clean (U.lower s.toList)
      rw [hlow]
      exact PlainText.clean (hk "auto_update" _ (by decide) hb)
  have hsynced : Clean (Front.of U printable fm now stale none).lastSyncedAt := by
    rw [Front.of]
    dsimp only
    cases he : fm.lookup "last_synced_at" with
    | none => exact (strftime_plain now).clean
    | some v => exact (hk _ v (by decide) he).clean (hl v he)
  exact (Front.forall_texts (Q := Clean)).2 ⟨htext (by decide) h.id, htext (by decide) h.type,
    fun _ => items_clean fun w => hk _ w (by decide),
    fun _ => items_clean fun w => hk _ w (by decide),
    hauto, boolText_clean stale, fun r hr => (nomatch hr), hsynced,
    htext (by decide) h.schemaVersion⟩

theorem list_parsed {v : Option Field} (hp : ∀ w, v = some w → w.PlainList)
    (hk : ∀ w, v = some w → w.Kept) :
    (if (v.getD .none).items = [] then none else some (listText (v.getD .none).items)).map
      (fun cs => parseValue (strip cs)) = v := by
  cases v with
  | none => rfl
  | some v =>
    obtain ⟨xs, rfl, hn, hx⟩ := hp v rfl
    change (if xs = [] then none else some (listText xs)).map (fun cs => parseValue (strip cs)) = _
    rw [if_neg hn, Option.map_some, listText, parseValue_list,
      (parseItems_iff fun x hm => (hk _ rfl x hm).2.1).2 hx]

/-- The fields that last are read as they were. -/
theorem Settled.parsed (h : Settled U fm)
    (hk : ∀ k v, k ≠ "stale_reason" → fm.lookup k = some v → v.Kept) :
    ∀ k ∈ "schema_version" :: lasting,
      (Front.of U printable fm now stale reason).parsed.lookup k = fm.lookup k := by
  obtain ⟨hid, htype, hauto, -, -, hschema⟩ :=
    (Front.of U printable fm now stale reason).lookup_fixed
  have htext {name : String} (hn : name ≠ "stale_reason")
      (hs : ∃ s, fm.lookup name = some (.str s)) :
      parseValue (strip (((fm.lookup name).getD .none).text printable)) ∈ fm.lookup name := by
    obtain ⟨s, hs⟩ := hs
    rw [hs]
    have hp : PlainText s.toList := hk name _ hn hs
    change some (Field.str s) = some (parseValue (strip s.toList))
    rw [hp.parse, String.ofList_toList]
  intro k hm
  rw [Front.parsed_lookup]
  simp only [lasting, List.mem_cons, List.not_mem_nil, or_false] at hm
  obtain rfl | rfl | rfl | rfl | rfl | rfl := hm
  · rw [hschema]
    exact (htext (by decide) h.schemaVersion).symm
  · rw [hid]
    exact (htext (by decide) h.id).symm
  · rw [htype]
    exact (htext (by decide) h.type).symm
  · rw [Front.lookup_covers]
    exact list_parsed h.covers fun w => hk _ w (by decide)
  · rw [Front.lookup_dependsOn]
    exact list_parsed h.dependsOn fun w => hk _ w (by decide)
  · rw [hauto, Front.of, Option.map_some]
    obtain ⟨b, hb⟩ | ⟨s, hb, hlow⟩ := h.autoUpdate
    · rw [hb]
      cases b with
      | true =>
        change some (parseValue (strip (U.lower "True".toList))) = _
        rw [lower_true, parseValue_true]
      | false =>
        change some (parseValue (strip (U.lower "False".toList))) = _
        rw [lower_false, parseValue_false]
    · rw [hb]
      have hp : PlainText s.toList := hk "auto_update" _ (by decide) hb
      change some (parseValue (strip (U.lower s.toList))) = _
      rw [hlow, hp.parse, String.ofList_toList]

theorem mem_reasonPair {p : String × List Char} (h : p ∈ reasonPair reason) :
    ∃ r ∈ reason, p = ("stale_reason", r.toList) := by
  cases reason with
  | none => cases h
  | some r =>
    rw [reasonPair] at h
    split at h
    · cases h
    · exact ⟨r, rfl, List.mem_singleton.1 h⟩

/-- A file with a quiet reason has no delimiter in a line. -/
theorem no_delimiter_of_quiet {f : Front} (hc : ∀ p ∈ f.before ++ f.after, Clean p.2)
    (hq : ∀ r ∈ f.staleReason, Quiet r) : ∀ p ∈ f.pairs, ¬ delimiter <:+: p.2 := by
  rw [List.forall_mem_append] at hc
  simp only [Front.pairs, List.forall_mem_append]
  refine ⟨⟨fun p hp => (hc.1 p hp).2, fun p hp => ?_⟩, fun p hp => (hc.2 p hp).2⟩
  obtain ⟨r, hr, rfl⟩ := mem_reasonPair hp
  exact (hq r hr).no_delimiter

/-- The names of the fields of a file with a quiet reason. -/
theorem names_of_quiet {f : Front} (hc : ∀ p ∈ f.before ++ f.after, Clean p.2)
    (hq : ∀ r ∈ f.staleReason, Quiet r) :
    ∀ p ∈ f.pairs.flatMap fun p => entries (universalNewlines (pairLine p)),
      p.1 ∉ parameters ∧ (f.staleReason = none → p.1 ∈ names) := by
  have hnames : ∀ name ∈ names, name ∉ parameters := by decide
  rw [List.forall_mem_append] at hc
  intro e he
  obtain ⟨p, hp, he⟩ := List.mem_flatMap.1 he
  have hclean (hc : Clean p.2) : e.1 ∉ parameters ∧ (f.staleReason = none → e.1 ∈ names) := by
    rw [entries_pairLine (f.mem_names hp) hc.1, List.mem_singleton] at he
    rw [he]
    exact ⟨hnames _ (f.mem_names hp), fun _ => f.mem_names hp⟩
  obtain hp' | hp' := List.mem_append.1 hp
  · obtain hp' | hp' := List.mem_append.1 hp'
    · exact hclean (hc.1 p hp')
    · obtain ⟨r, hr, rfl⟩ := mem_reasonPair hp'
      refine ⟨((hq r hr).entries e he).2, fun hn => ?_⟩
      rw [hn] at hr
      cases hr
  · exact hclean (hc.2 p hp')

/-- The fields that last are read of their own lines. -/
theorem lookup_of_quiet {f : Front} (hc : ∀ p ∈ f.before ++ f.after, Clean p.2)
    (hq : ∀ r ∈ f.staleReason, Quiet r) : ∀ k ∈ "schema_version" :: lasting,
      (Dict.ofPairs (f.pairs.flatMap fun p => entries (universalNewlines (pairLine p)))).lookup k =
        f.parsed.lookup k := by
  have hparse {ps : Dict String (List Char)} (hn : ∀ p ∈ ps, p.1 ∈ names)
      (hc : ∀ p ∈ ps, Clean p.2) : (ps.flatMap fun p => entries (universalNewlines (pairLine p))) =
        Dict.mapVals (fun cs => parseValue (strip cs)) ps := by
    rw [Dict.mapVals, List.map_eq_flatMap]
    exact List.flatMap_congr fun p hp => entries_pairLine (hn p hp) (hc p hp).1
  have hbn : ∀ p ∈ f.before, p.1 ∈ names := fun p hp =>
    f.mem_names (List.mem_append_left _ (List.mem_append_left _ hp))
  have han : ∀ p ∈ f.after, p.1 ∈ names := fun p hp => f.mem_names (List.mem_append_right _ hp)
  have hafter : ∀ k ∈ lasting, k ∉ ["schema_version", "last_synced_at"] := by decide
  have hreason : ∀ k ∈ lasting, k ≠ "stale_reason" := by decide
  rw [List.forall_mem_append] at hc
  intro k hk
  rw [Dict.lookup_ofPairs, Front.pairs, List.flatMap_append, List.flatMap_append, hparse hbn hc.1,
    hparse han hc.2, List.reverse_append, List.reverse_append, List.lookup_append,
    List.lookup_append, Front.parsed_lookup]
  obtain rfl | hk := List.mem_cons.1 hk
  · rw [f.lookup_fixed.2.2.2.2.2]
    rfl
  · have hnone : (Dict.mapVals (fun cs => parseValue (strip cs)) f.after).reverse.lookup k = none :=
      Dict.lookup_eq_none_of_not_mem (hafter k hk)
    have hquiet : ((reasonPair f.staleReason).flatMap fun p =>
        entries (universalNewlines (pairLine p))).reverse.lookup k = none := by
      apply Dict.lookup_eq_none_of_not_mem
      intro hm
      obtain ⟨e, he, rfl⟩ := List.mem_map.1 hm
      obtain ⟨p, hp, he⟩ := List.mem_flatMap.1 (List.mem_reverse.1 he)
      obtain ⟨r, hr, rfl⟩ := mem_reasonPair hp
      exact ((hq r hr).entries e he).1 hk
    have hd : Dict.Distinct (Dict.mapVals (fun cs => parseValue (strip cs)) f.before) := by
      rw [Dict.Distinct, Dict.keys_mapVals]
      have hp := f.distinct
      rw [Front.pairs, List.append_assoc, Dict.Distinct, Dict.keys_append] at hp
      exact (List.nodup_append'.1 hp).1
    have hlast : f.after.lookup k = none := Dict.lookup_eq_none_of_not_mem fun hm =>
      hafter k hk (List.mem_reverse.1 hm)
    rw [hnone, hquiet, Option.none_or, Option.none_or,
      Dict.lookup_perm hd (List.reverse_perm _).symm, Dict.lookup_mapVals, Front.pairs,
      List.lookup_append, List.lookup_append, lookup_reasonPair_ne (hreason k hk), hlast,
      Option.or_none, Option.or_none]

/-- A front matter that can be written again. -/
structure Writable (U : Casing) (fm : FrontMatter) : Prop where
  distinct : Dict.Distinct fm
  settled : Settled U fm
  kept : ∀ k v, k ≠ "stale_reason" → fm.lookup k = some v → v.Kept
  names : ∀ k ∈ Dict.keys fm, k ∉ parameters

theorem Settled.congr {fm' : FrontMatter} (h : Settled U fm)
    (he : ∀ k ∈ "schema_version" :: lasting, fm'.lookup k = fm.lookup k) : Settled U fm' where
  id := by
    rw [he "id" (by decide)]
    exact h.id
  type := by
    rw [he "type" (by decide)]
    exact h.type
  covers := by
    rw [he "covers" (by decide)]
    exact h.covers
  dependsOn := by
    rw [he "depends_on" (by decide)]
    exact h.dependsOn
  autoUpdate := by
    rw [he "auto_update" (by decide)]
    exact h.autoUpdate
  schemaVersion := by
    rw [he "schema_version" (by decide)]
    exact h.schemaVersion

/-- The names of the fields that the marks change. -/
def changed : List String := ["stale", "stale_reason", "last_synced_at"]

theorem lookup_marked {k k' : String} (hk : k ∈ changed) (hk' : k' ∉ changed) (v : Field)
    (fm : FrontMatter) : (Dict.set k v fm).lookup k' = fm.lookup k' :=
  Dict.lookup_set_ne (fun he => hk' (by rw [he]; exact hk)) v fm

theorem lasting_unchanged : ∀ k ∈ "schema_version" :: lasting, k ∉ changed := by decide

/-- A mark keeps a front matter writable. -/
theorem Writable.set {k : String} {v : Field} (h : Writable U fm) (hk : k ∈ changed)
    (hv : k ≠ "stale_reason" → v.Kept) : Writable U (Dict.set k v fm) := by
  have hparam : ∀ k ∈ changed, k ∉ parameters := by decide
  refine ⟨h.distinct.set k v, h.settled.congr fun k' hk' =>
    lookup_marked hk (lasting_unchanged k' hk') v fm, fun k' v' hn hl => ?_, fun k' hk' => ?_⟩
  · by_cases he : k' = k
    · subst he
      rw [Dict.lookup_set_self] at hl
      exact Option.some.inj hl ▸ hv hn
    · rw [Dict.lookup_set_ne he] at hl
      exact h.kept k' v' hn hl
  · obtain rfl | hk' := Dict.mem_keys_set.1 hk'
    · exact hparam _ hk
    · exact h.names k' hk'

/-- A document is written again, and what lasts of it is read. -/
theorem Writable.rewrite (h : Writable U fm) (hf : Flat base t) (hn : '\x00' ∉ id.toList)
    (hl : ∀ v, fm.lookup "last_synced_at" = some v → v.Scalar)
    (hs : fm.lookup "stale" = some (.bool stale))
    (hr : fm.lookup "stale_reason" = some (reason.elim .none .str)) (hq : ∀ r ∈ reason, Quiet r)
    (hb : strip body = body) (hcr : '\r' ∉ body) :
    ∃ t' fm', KnowledgeStore.rewrite U printable base t id (fm, body) now = (.ok true, t') ∧
      Flat base t' ∧ read base t' id = some (fm', body) ∧ (∀ k ∈ Dict.keys fm', k ∉ parameters) ∧
      (reason = none → ∀ k ∈ Dict.keys fm', k ∈ KnowledgeStore.names) ∧
      ∀ k ∈ "schema_version" :: lasting, fm'.lookup k = fm.lookup k := by
  have hc : ∀ p ∈ (Front.of U printable fm now stale reason).before ++
      (Front.of U printable fm now stale reason).after, Clean p.2 := by
    have hclean : ∀ p ∈ (Front.of U printable fm now stale none).pairs, Clean p.2 :=
      h.settled.clean h.kept hl
    have hpairs : (Front.of U printable fm now stale none).pairs =
        (Front.of U printable fm now stale reason).before ++
          (Front.of U printable fm now stale reason).after :=
      congrArg (· ++ _) (List.append_nil _)
    rwa [hpairs] at hclean
  obtain ⟨type, htype⟩ := h.settled.type
  have hg : Gives U printable id (.str type) fm now (Front.of U printable fm now stale reason) :=
    h.settled.gives h.distinct hs hr
  obtain ⟨t', hw, hf', hread⟩ :=
    write_gives hf hg (fun p hp => h.names _ (List.mem_map_of_mem hp)) hn body
  have hkeys : ∀ k ∈ Dict.keys (Dict.ofPairs
      ((Front.of U printable fm now stale reason).pairs.flatMap fun p =>
        entries (universalNewlines (pairLine p)))),
      k ∉ parameters ∧ (reason = none → k ∈ KnowledgeStore.names) := by
    intro k hk
    obtain ⟨v, hv⟩ := Dict.mem_keys_iff.1 hk
    rw [Dict.lookup_ofPairs] at hv
    exact names_of_quiet hc hq _ (List.mem_reverse.1 (Dict.lookup_mem hv))
  refine ⟨t', _, ?_, hf', ?_, fun k hk => (hkeys k hk).1, fun hn k hk => (hkeys k hk).2 hn,
    fun k hk => ?_⟩
  · rw [KnowledgeStore.rewrite, htype]
    dsimp only
    rw [hw]
  · rw [hread, Front.parse_of_no_delimiter (no_delimiter_of_quiet hc hq), hb,
      universalNewlines_of_no_cr hcr, hb]
  · exact (lookup_of_quiet hc hq k hk).trans (h.settled.parsed h.kept k hk)

theorem read_kept {doc : Doc} (h : read base t id = some doc) :
    '\x00' ∉ id.toList ∧ Dict.Distinct doc.1 ∧ (∀ k v, doc.1.lookup k = some v → v.Kept) ∧
      strip doc.2 = doc.2 ∧ '\r' ∉ doc.2 := by
  rw [read] at h
  split at h
  · cases h
  · rename_i hn
    cases hr : t.readText (path base id) with
    | error e =>
      rw [hr] at h
      cases h
    | ok cs =>
      rw [hr] at h
      exact ⟨hn, parse_kept (cr_not_mem_universalNewlines cs) h⟩

/-- A front matter whose fields the marks leave as they are. -/
structure Steady (U : Casing) (fm : FrontMatter) : Prop where
  settled : Settled U fm
  names : ∀ k ∈ Dict.keys fm, k ∈ names
  lastSyncedAt : ∀ v, fm.lookup "last_synced_at" = some v → v.Scalar

/-- `mark_stale` and then `mark_fresh` change nothing else of a steady document. -/
theorem stale_fresh {reason : String} {later : Time} (h : Flat base t)
    (hread : read base t id = some (fm, body)) (hs : Steady U fm) (hq : Quiet reason) :
    ∃ t₁ t₂ fm₂, markStale U printable base t id reason now = (.ok true, t₁) ∧
      markFresh U printable base t₁ id later = (.ok true, t₂) ∧
      read base t₂ id = some (fm₂, body) ∧ ∀ k ∉ changed, fm₂.lookup k = fm.lookup k := by
  have hparam : ∀ k ∈ names, k ∉ parameters := by decide
  obtain ⟨hn, hd, hkept, hb, hcr⟩ := read_kept hread
  have hw : Writable U fm :=
    ⟨hd, hs.settled, fun k v _ hl => hkept k v hl, fun k hm => hparam k (hs.names k hm)⟩
  have hw₁ : Writable U (Dict.set "stale_reason" (if reason = "" then .none else .str reason)
      (Dict.set "stale" (.bool true) fm)) :=
    (hw.set (v := .bool true) (by decide) fun _ => trivial).set (by decide) fun hne =>
      (hne rfl).elim
  have hs₁ : (Dict.set "stale_reason" (if reason = "" then .none else .str reason)
      (Dict.set "stale" (.bool true) fm)).lookup "stale" = some (.bool true) := by
    rw [Dict.lookup_set_ne (by decide), Dict.lookup_set_self]
  have hr₁ : (Dict.set "stale_reason" (if reason = "" then .none else .str reason)
      (Dict.set "stale" (.bool true) fm)).lookup "stale_reason" =
        some ((if reason = "" then none else some reason).elim .none .str) := by
    rw [Dict.lookup_set_self]
    split
    · rfl
    · rfl
  have hq₁ : ∀ r ∈ (if reason = "" then none else some reason), Quiet r := by
    intro r hr
    split at hr
    · cases hr
    · exact Option.some.inj hr ▸ hq
  have hl₁ : ∀ v, (Dict.set "stale_reason" (if reason = "" then .none else .str reason)
      (Dict.set "stale" (.bool true) fm)).lookup "last_synced_at" = some v → v.Scalar := by
    rw [Dict.lookup_set_ne (by decide), Dict.lookup_set_ne (by decide)]
    exact hs.lastSyncedAt
  obtain ⟨t₁, fm₁, hstale, hf₁, hread₁, hparam₁, -, hlast₁⟩ :=
    hw₁.rewrite h hn hl₁ hs₁ hr₁ hq₁ hb hcr
  obtain ⟨-, hd₁, hkept₁, -, -⟩ := read_kept hread₁
  have hsame₁ : ∀ k ∈ "schema_version" :: lasting, fm₁.lookup k = fm.lookup k := by
    intro k hk
    rw [hlast₁ k hk, lookup_marked (by decide) (lasting_unchanged k hk),
      lookup_marked (by decide) (lasting_unchanged k hk)]
  have hfresh : Writable U fm₁ :=
    ⟨hd₁, hs.settled.congr hsame₁, fun k v _ hl => hkept₁ k v hl, hparam₁⟩
  have hw₂ : Writable U (Dict.set "last_synced_at" (.str later.strftime)
      (Dict.set "stale_reason" .none (Dict.set "stale" (.bool false) fm₁))) :=
    ((hfresh.set (v := .bool false) (by decide) fun _ => trivial).set (by decide) fun hne =>
      (hne rfl).elim).set (by decide) fun _ => strftime_plain later
  have hs₂ : (Dict.set "last_synced_at" (.str later.strftime) (Dict.set "stale_reason" .none
      (Dict.set "stale" (.bool false) fm₁))).lookup "stale" = some (.bool false) := by
    rw [Dict.lookup_set_ne (by decide), Dict.lookup_set_ne (by decide), Dict.lookup_set_self]
  have hr₂ : (Dict.set "last_synced_at" (.str later.strftime) (Dict.set "stale_reason" .none
      (Dict.set "stale" (.bool false) fm₁))).lookup "stale_reason" =
        some (Option.elim (none : Option String) .none .str) := by
    rw [Dict.lookup_set_ne (by decide), Dict.lookup_set_self]
    rfl
  have hl₂ : ∀ v, (Dict.set "last_synced_at" (.str later.strftime) (Dict.set "stale_reason" .none
      (Dict.set "stale" (.bool false) fm₁))).lookup "last_synced_at" = some v → v.Scalar := by
    rw [Dict.lookup_set_self]
    intro v hv xs he
    rw [he] at hv
    cases hv
  obtain ⟨t₂, fm₂, hmark, -, hread₂, -, hnames₂, hlast₂⟩ :=
    hw₂.rewrite hf₁ hn hl₂ hs₂ hr₂ (fun r hr => nomatch hr) hb hcr
  refine ⟨t₁, t₂, fm₂, ?_, ?_, hread₂, fun k hk => ?_⟩
  · rw [markStale, hread]
    exact hstale
  · rw [markFresh, hread₁]
    exact hmark
  · by_cases hlast : k ∈ "schema_version" :: lasting
    · rw [hlast₂ k hlast, lookup_marked (by decide) hk, lookup_marked (by decide) hk,
        lookup_marked (by decide) hk, hsame₁ k hlast]
    · have hother : ∀ k ∈ names, k ∈ "schema_version" :: lasting ∨ k ∈ changed := by decide
      have hk' : k ∉ names := fun hm => (hother k hm).elim hlast hk
      rw [Dict.lookup_eq_none_of_not_mem fun hm => hk' (hs.names k hm),
        Dict.lookup_eq_none_of_not_mem fun hm => hk' (hnames₂ rfl k hm)]

end
end Obase.KnowledgeStore
