import Obase.KnowledgeStore.Store
import Obase.KnowledgeStore.Values

namespace Obase.KnowledgeStore
set_option autoImplicit true
open Text

/-- The values of the front matter as a file has them. -/
structure Front where
  id : List Char
  type : List Char
  covers : List String
  dependsOn : List String
  autoUpdate : List Char
  stale : Bool
  staleReason : Option String
  lastSyncedAt : List Char
  schemaVersion : List Char

def listText (xs : List String) : List Char :=
  '[' :: (joinComma (xs.map String.toList) ++ [']'])

/-- The text of a list, which is left out where it is empty. -/
def listPair (name : String) (xs : List String) : Dict String (List Char) :=
  if xs = [] then [] else [(name, listText xs)]

def reasonPair (reason : Option String) : Dict String (List Char) :=
  match reason with
  | none => []
  | some r => if r = "" then [] else [("stale_reason", r.toList)]

def boolText (b : Bool) : List Char := if b then "true".toList else "false".toList

/-- The names and the texts of the lines, up to the reason. -/
def Front.before (f : Front) : Dict String (List Char) :=
  [("id", f.id), ("type", f.type)] ++ listPair "covers" f.covers ++
    listPair "depends_on" f.dependsOn ++
    [("auto_update", f.autoUpdate), ("stale", boolText f.stale)]

def Front.after (f : Front) : Dict String (List Char) :=
  [("last_synced_at", f.lastSyncedAt), ("schema_version", f.schemaVersion)]

def Front.pairs (f : Front) : Dict String (List Char) :=
  f.before ++ reasonPair f.staleReason ++ f.after

def pairLine (p : String × List Char) : List Char := fieldLine p.1 p.2

/-- Keyword arguments of which `write` makes a front matter. -/
structure Gives (U : Casing) (printable : Char → Bool) (id : String) (type : Field)
    (kwargs : FrontMatter) (now : Time) (f : Front) : Prop where
  distinct : Dict.Distinct kwargs
  id : ((kwargs.lookup "id").getD (.str id)).text printable = f.id
  type : ((kwargs.lookup "type").getD type).text printable = f.type
  covers : (kwargs.lookup "covers").getD (.list []) = .list f.covers
  dependsOn : (kwargs.lookup "depends_on").getD (.list []) = .list f.dependsOn
  autoUpdate : U.lower (((kwargs.lookup "auto_update").getD (.bool true)).text printable) =
    f.autoUpdate
  stale : (kwargs.lookup "stale").getD (.bool false) = .bool f.stale
  staleReason : (kwargs.lookup "stale_reason").getD .none = f.staleReason.elim .none .str
  lastSyncedAt : ((kwargs.lookup "last_synced_at").getD (.str now.strftime)).text printable =
    f.lastSyncedAt
  schemaVersion : ((kwargs.lookup "schema_version").getD (.int 1)).text printable = f.schemaVersion

section
variable {id : String} {type : Field} {kwargs : FrontMatter} {now : Time} {name : String}

theorem distinct_rest (hd : Dict.Distinct kwargs) :
    Dict.Distinct (kwargs.filter fun p => p.1 ∉ popped) :=
  hd.sublist (List.filter_sublist.map Prod.fst)

theorem lookup_popped (hd : Dict.Distinct kwargs) (h : name ∈ popped) :
    (frontmatterOf id type kwargs now).lookup name = (known id type kwargs now).lookup name := by
  have hnone : (kwargs.filter fun p => p.1 ∉ popped).lookup name = none := by
    apply Dict.lookup_eq_none_of_not_mem
    intro hm
    obtain ⟨p, hp, rfl⟩ := List.mem_map.1 hm
    exact of_decide_eq_true (List.mem_filter.1 hp).2 h
  rw [frontmatterOf, Dict.lookup_update (distinct_rest hd), hnone, Option.none_or]

theorem lookup_not_popped (hd : Dict.Distinct kwargs) (h : name ∉ popped) {default : Field}
    (hk : (known id type kwargs now).lookup name = some default) :
    (frontmatterOf id type kwargs now).lookup name = some ((kwargs.lookup name).getD default) := by
  have hrest : (kwargs.filter fun p => p.1 ∉ popped).lookup name = kwargs.lookup name := by
    apply Option.ext
    intro v
    rw [Dict.lookup_eq_some_iff hd, Dict.lookup_eq_some_iff (distinct_rest hd), List.mem_filter]
    exact and_iff_left (decide_eq_true h)
  rw [frontmatterOf, Dict.lookup_update (distinct_rest hd), hrest, hk, Option.or_some]

end

theorem listLine_list (name : String) (xs : List String) :
    listLine name (.list xs) = some ((listPair name xs).map pairLine) := by
  rw [listLine, listPair]
  by_cases h : xs = []
  · subst h
    rfl
  · have ht : (Field.list xs).truthy = true := decide_eq_true h
    rw [if_pos ht, if_neg h, listText, Field.join, Option.map_some, List.map_singleton, pairLine,
      fieldLine]
    simp only [String.toList, List.append_assoc]
    congr 2

theorem lower_true (U : Casing) : U.lower "True".toList = "true".toList :=
  (U.lower_ascii (forall_mem_of_all (by decide))).trans (by decide)

theorem lower_false (U : Casing) : U.lower "False".toList = "false".toList :=
  (U.lower_ascii (forall_mem_of_all (by decide))).trans (by decide)

/-- The lines that `write` makes of keyword arguments. -/
theorem frontLines_gives {U : Casing} {printable : Char → Bool} {id : String} {type : Field}
    {kwargs : FrontMatter} {now : Time} {f : Front} (h : Gives U printable id type kwargs now f) :
    frontLines U printable (frontmatterOf id type kwargs now) = some (f.pairs.map pairLine) := by
  have hd := h.distinct
  have hid : (frontmatterOf id type kwargs now).lookup "id" =
      some ((kwargs.lookup "id").getD (.str id)) := lookup_not_popped hd (by decide) rfl
  have htype : (frontmatterOf id type kwargs now).lookup "type" =
      some ((kwargs.lookup "type").getD type) := lookup_not_popped hd (by decide) rfl
  have hcovers : (frontmatterOf id type kwargs now).lookup "covers" = some (.list f.covers) :=
    (lookup_popped hd (by decide)).trans (congrArg some h.covers)
  have hdepends : (frontmatterOf id type kwargs now).lookup "depends_on" =
      some (.list f.dependsOn) := (lookup_popped hd (by decide)).trans (congrArg some h.dependsOn)
  have hauto : (frontmatterOf id type kwargs now).lookup "auto_update" =
      some ((kwargs.lookup "auto_update").getD (.bool true)) := lookup_popped hd (by decide)
  have hstale : (frontmatterOf id type kwargs now).lookup "stale" = some (.bool f.stale) :=
    (lookup_popped hd (by decide)).trans (congrArg some h.stale)
  have hreason : (frontmatterOf id type kwargs now).lookup "stale_reason" =
      some (f.staleReason.elim .none .str) :=
    (lookup_popped hd (by decide)).trans (congrArg some h.staleReason)
  have hsynced : (frontmatterOf id type kwargs now).lookup "last_synced_at" =
      some ((kwargs.lookup "last_synced_at").getD (.str now.strftime)) :=
    lookup_not_popped hd (by decide) rfl
  have hschema : (frontmatterOf id type kwargs now).lookup "schema_version" =
      some ((kwargs.lookup "schema_version").getD (.int 1)) := lookup_popped hd (by decide)
  have hbool : U.lower ((Field.bool f.stale).text printable) = boolText f.stale := by
    cases f.stale with
    | true => exact lower_true U
    | false => exact lower_false U
  have hline : (if (f.staleReason.elim Field.none Field.str).truthy = true then
      [fieldLine "stale_reason" ((f.staleReason.elim Field.none Field.str).text printable)]
      else []) = (reasonPair f.staleReason).map pairLine := by
    cases f.staleReason with
    | none => rfl
    | some r =>
      by_cases hr : r = ""
      · subst hr
        rfl
      · have ht : (Field.str r).truthy = true := decide_eq_true hr
        rw [reasonPair, if_neg hr]
        exact if_pos ht
  rw [frontLines]
  dsimp only
  rw [hid, htype, hcovers, hdepends, hauto, hstale, hreason, hsynced, hschema]
  dsimp only [Option.getD_some]
  rw [listLine_list, listLine_list, h.id, h.type, h.autoUpdate, h.lastSyncedAt, h.schemaVersion,
    hbool, hline, Front.pairs, Front.before, Front.after]
  simp only [List.map_append]
  rfl

/-- The names of the lines. -/
def names : List String :=
  ["id", "type", "covers", "depends_on", "auto_update", "stale", "stale_reason", "last_synced_at",
    "schema_version"]

/-- A name is the same without the spaces around it, and has no colon. -/
theorem name_plain : ∀ name ∈ names, ':' ∉ name.toList ∧ strip name.toList = name.toList ∧
    OneLine name.toList ∧ '-' ∉ name.toList ∧ name.toList.head?.isSome = true := by decide

theorem pairLine_eq (name : String) (cs : List Char) :
    pairLine (name, cs) = name.toList ++ ':' :: ' ' :: cs := by
  rw [pairLine, fieldLine, List.append_assoc]
  rfl

theorem pairLine_begins {p : String × List Char} (h : p.1 ∈ names) : Begins (pairLine p) := by
  obtain ⟨-, -, hone, -, hs⟩ := name_plain p.1 h
  obtain ⟨c, hc⟩ := Option.isSome_iff_exists.1 hs
  refine fieldLine_begins ⟨c, hc, ?_⟩ _
  rintro rfl
  exact absurd (hone _ (List.mem_of_mem_head? hc)) (by decide)

theorem delimiter_pairLine {p : String × List Char} (h : p.1 ∈ names) :
    delimiter <:+: pairLine p ↔ delimiter <:+: p.2 := by
  obtain ⟨-, -, -, hn, -⟩ := name_plain p.1 h
  rw [pairLine_eq p.1 p.2]
  constructor
  · intro hi
    obtain hi | hi := infix_append_cons (c := ':') (by decide) hi
    · exact (hn (hi.subset (.head _))).elim
    · obtain hi | hi := infix_append_cons (c := ' ') (l := []) (by decide) hi
      · exact absurd hi.length_le (by decide)
      · exact hi
  · exact fun hi => hi.trans ⟨p.1.toList ++ [':', ' '], [], by simp⟩

/-- A line of one line gives one field. -/
theorem entries_pairLine {p : String × List Char} (h : p.1 ∈ names) (hc : OneLine p.2) :
    entries (universalNewlines (pairLine p)) = [(p.1, parseValue (strip p.2))] := by
  obtain ⟨hcolon, hstrip, hone, -, -⟩ := name_plain p.1 h
  have hline : OneLine (pairLine p) := by
    rw [pairLine_eq p.1 p.2]
    exact List.forall_mem_append.2 ⟨hone, List.forall_mem_cons.2 ⟨by decide,
      List.forall_mem_cons.2 ⟨by decide, hc⟩⟩⟩
  have hne : pairLine p ≠ [] := by
    rw [pairLine_eq p.1 p.2]
    simp
  have hparse : parseLine (pairLine p) = some (p.1, parseValue (strip p.2)) := by
    rw [pairLine_eq p.1 p.2, parseLine_eq hcolon, hstrip, String.ofList_toList, strip,
      trim_cons (by decide)]
    rfl
  rw [universalNewlines_of_no_cr hline.no_cr, entries, lines_unterminated hline hne,
    List.filterMap_cons_some hparse, List.filterMap_nil]

theorem listPair_keys (name : String) (xs : List String) :
    Dict.keys (listPair name xs) = [] ∨ Dict.keys (listPair name xs) = [name] := by
  rw [listPair]
  split
  · exact .inl rfl
  · exact .inr rfl

theorem reasonPair_keys (reason : Option String) :
    Dict.keys (reasonPair reason) = [] ∨ Dict.keys (reasonPair reason) = ["stale_reason"] := by
  cases reason with
  | none => exact .inl rfl
  | some r =>
    by_cases hr : r = ""
    · exact .inl (by rw [reasonPair, if_pos hr]; rfl)
    · exact .inr (by rw [reasonPair, if_neg hr]; rfl)

theorem lookup_listPair_ne {k name : String} (h : k ≠ name) (xs : List String) :
    (listPair name xs).lookup k = none := by
  apply Dict.lookup_eq_none_of_not_mem
  intro hm
  obtain he | he := listPair_keys name xs
  · rw [he] at hm
    cases hm
  · rw [he] at hm
    exact h (List.mem_singleton.1 hm)

theorem lookup_listPair (name : String) (xs : List String) : (listPair name xs).lookup name =
    if xs = [] then none else some (listText xs) := by
  rw [listPair]
  split
  · rfl
  · exact List.lookup_cons_self

theorem lookup_reasonPair_ne {k : String} (h : k ≠ "stale_reason") (reason : Option String) :
    (reasonPair reason).lookup k = none := by
  apply Dict.lookup_eq_none_of_not_mem
  intro hm
  obtain he | he := reasonPair_keys reason
  · rw [he] at hm
    cases hm
  · rw [he] at hm
    exact h (List.mem_singleton.1 hm)

theorem listText_oneLine {xs : List String} (h : ∀ x ∈ xs, OneLine x.toList) :
    OneLine (listText xs) := by
  refine List.forall_mem_cons.2 ⟨by decide, List.forall_mem_append.2 ⟨fun c hc => ?_,
    forall_mem_of_all (by decide)⟩⟩
  obtain rfl | rfl | ⟨l, hl, hc⟩ := mem_joinComma hc
  · decide
  · decide
  · obtain ⟨x, hx, rfl⟩ := List.mem_map.1 hl
    exact h x hx c hc

theorem delimiter_listText {xs : List String} :
    delimiter <:+: listText xs ↔ ∃ x ∈ xs, delimiter <:+: x.toList := by
  constructor
  · intro h
    obtain h | h := infix_append_cons (l := []) (by decide) h
    · exact absurd h.length_le (by decide)
    · obtain h | h := infix_append_cons (r := []) (by decide) h
      · obtain ⟨l, hl, h⟩ := delimiter_joinComma h
        obtain ⟨x, hx, rfl⟩ := List.mem_map.1 hl
        exact ⟨x, hx, h⟩
      · exact absurd h.length_le (by decide)
  · rintro ⟨x, hx, h⟩
    have hj : delimiter <:+: joinComma (xs.map String.toList) :=
      h.trans (Separated.infix_intercalate (List.mem_map_of_mem hx))
    exact hj.trans ⟨['['], [']'], by simp [listText]⟩

theorem parseValue_boolText (b : Bool) : parseValue (strip (boolText b)) = .bool b := by
  cases b with
  | true => exact parseValue_true
  | false => exact parseValue_false

namespace Front
variable (f : Front)

theorem lookup_pairs (k : String) : f.pairs.lookup k =
    (((((List.lookup k [("id", f.id), ("type", f.type)]).or
      ((listPair "covers" f.covers).lookup k)).or
      ((listPair "depends_on" f.dependsOn).lookup k)).or
      (List.lookup k [("auto_update", f.autoUpdate), ("stale", boolText f.stale)])).or
      ((reasonPair f.staleReason).lookup k)).or
      (List.lookup k
        [("last_synced_at", f.lastSyncedAt), ("schema_version", f.schemaVersion)]) := by
  rw [pairs, before, after, List.lookup_append, List.lookup_append, List.lookup_append,
    List.lookup_append, List.lookup_append]

/-- The texts that every file has. -/
theorem lookup_fixed : f.pairs.lookup "id" = some f.id ∧ f.pairs.lookup "type" = some f.type ∧
    f.pairs.lookup "auto_update" = some f.autoUpdate ∧
    f.pairs.lookup "stale" = some (boolText f.stale) ∧
    f.pairs.lookup "last_synced_at" = some f.lastSyncedAt ∧
    f.pairs.lookup "schema_version" = some f.schemaVersion := by
  refine ⟨rfl, rfl, ?_, ?_, ?_, ?_⟩
  all_goals
    rw [lookup_pairs, lookup_listPair_ne (by decide), lookup_listPair_ne (by decide),
      lookup_reasonPair_ne (by decide)]
    rfl

theorem lookup_covers : f.pairs.lookup "covers" =
    if f.covers = [] then none else some (listText f.covers) := by
  rw [lookup_pairs, lookup_listPair, lookup_listPair_ne (by decide),
    lookup_reasonPair_ne (by decide)]
  split
  · rfl
  · rfl

theorem lookup_dependsOn : f.pairs.lookup "depends_on" =
    if f.dependsOn = [] then none else some (listText f.dependsOn) := by
  rw [lookup_pairs, lookup_listPair, lookup_listPair_ne (by decide),
    lookup_reasonPair_ne (by decide)]
  split
  · rfl
  · rfl

theorem lookup_staleReason : f.pairs.lookup "stale_reason" =
    f.staleReason.bind fun r => if r = "" then none else some r.toList := by
  rw [lookup_pairs, lookup_listPair_ne (by decide), lookup_listPair_ne (by decide)]
  cases f.staleReason with
  | none => rfl
  | some r =>
    by_cases hr : r = ""
    · rw [reasonPair, if_pos hr, Option.bind_some, if_pos hr]
      rfl
    · rw [reasonPair, if_neg hr, Option.bind_some, if_neg hr]
      rfl

theorem keys_sublist : List.Sublist (Dict.keys f.pairs) names := by
  have hopt {ks : List String} {name : String} (h : ks = [] ∨ ks = [name]) :
      ks.Sublist [name] := by
    obtain rfl | rfl := h
    · exact List.nil_sublist _
    · exact List.Sublist.refl _
  have hids : List.Sublist (Dict.keys [("id", f.id), ("type", f.type)]) ["id", "type"] :=
    List.Sublist.refl _
  have hflags : List.Sublist (Dict.keys [("auto_update", f.autoUpdate),
      ("stale", boolText f.stale)]) ["auto_update", "stale"] := List.Sublist.refl _
  have hafter : List.Sublist (Dict.keys f.after) ["last_synced_at", "schema_version"] :=
    List.Sublist.refl _
  rw [pairs, before, Dict.keys_append, Dict.keys_append, Dict.keys_append, Dict.keys_append,
    Dict.keys_append]
  exact ((((hids.append (hopt (listPair_keys "covers" f.covers))).append
    (hopt (listPair_keys "depends_on" f.dependsOn))).append hflags).append
    (hopt (reasonPair_keys f.staleReason))).append hafter

theorem distinct : Dict.Distinct f.pairs := f.keys_sublist.nodup (by decide)

theorem mem_names {p : String × List Char} (h : p ∈ f.pairs) : p.1 ∈ names :=
  f.keys_sublist.subset (List.mem_map_of_mem h)

theorem lines_begin : ∀ l ∈ f.pairs.map pairLine, Begins l :=
  List.forall_mem_map.2 fun _ hp => pairLine_begins (f.mem_names hp)

theorem lines_ne_nil : f.pairs.map pairLine ≠ [] := fun h => nomatch h

/-- The front matter that is read where every text is on one line. -/
def parsed : FrontMatter := Dict.mapVals (fun cs => parseValue (strip cs)) f.pairs

variable {f}

theorem parse_of_no_delimiter (h : ∀ p ∈ f.pairs, ¬ delimiter <:+: p.2) (body : List Char) :
    parseFrontmatter (universalNewlines (frame (f.pairs.map pairLine) body)) =
      some (Dict.ofPairs (f.pairs.flatMap fun p => entries (universalNewlines (pairLine p))),
        strip (universalNewlines body)) := by
  rw [parse_frame f.lines_ne_nil f.lines_begin _ body, List.flatMap_map]
  exact List.forall_mem_map.2 fun p hp hi => h p hp ((delimiter_pairLine (f.mem_names hp)).1 hi)

theorem entries_of_oneLine (h : ∀ p ∈ f.pairs, OneLine p.2) :
    Dict.ofPairs (f.pairs.flatMap fun p => entries (universalNewlines (pairLine p))) =
      f.parsed := by
  have hmap : (f.pairs.flatMap fun p => entries (universalNewlines (pairLine p))) =
      f.pairs.map fun p => (p.1, parseValue (strip p.2)) := by
    rw [List.map_eq_flatMap]
    refine List.flatMap_congr fun p hp => ?_
    exact entries_pairLine (f.mem_names hp) (h p hp)
  have hd : Dict.Distinct f.parsed := by
    rw [Dict.Distinct, parsed, Dict.keys_mapVals]
    exact f.distinct
  rw [hmap]
  exact Dict.ofPairs_of_distinct hd

theorem forall_texts {Q : List Char → Prop} : (∀ p ∈ f.pairs, Q p.2) ↔ Q f.id ∧ Q f.type ∧
    (f.covers ≠ [] → Q (listText f.covers)) ∧ (f.dependsOn ≠ [] → Q (listText f.dependsOn)) ∧
    Q f.autoUpdate ∧ Q (boolText f.stale) ∧ (∀ r ∈ f.staleReason, r ≠ "" → Q r.toList) ∧
    Q f.lastSyncedAt ∧ Q f.schemaVersion := by
  have hlist (name : String) (xs : List String) :
      (∀ p ∈ listPair name xs, Q p.2) ↔ (xs ≠ [] → Q (listText xs)) := by
    rw [listPair]
    split
    · rename_i h
      exact iff_of_true (fun _ hm => nomatch hm) fun hn => (hn h).elim
    · rename_i h
      rw [List.forall_mem_singleton]
      exact ⟨fun hq _ => hq, fun hq => hq h⟩
  have hreason : (∀ p ∈ reasonPair f.staleReason, Q p.2) ↔
      ∀ r ∈ f.staleReason, r ≠ "" → Q r.toList := by
    cases f.staleReason with
    | none => exact iff_of_true (fun _ hm => nomatch hm) fun _ hm => nomatch hm
    | some r =>
      by_cases hr : r = ""
      · rw [reasonPair, if_pos hr]
        refine iff_of_true (fun _ hm => nomatch hm) fun r' hm hne => ?_
        obtain rfl := Option.some.inj hm
        exact (hne hr).elim
      · rw [reasonPair, if_neg hr, List.forall_mem_singleton]
        constructor
        · intro hq r' hm _
          obtain rfl := Option.some.inj hm
          exact hq
        · exact fun hq => hq r rfl hr
  rw [pairs, before, after]
  simp only [List.forall_mem_append, List.forall_mem_cons, hlist, hreason]
  constructor
  · rintro ⟨⟨⟨⟨⟨⟨h₁, h₂, -⟩, h₃⟩, h₄⟩, h₅, h₆, -⟩, h₇⟩, h₈, h₉, -⟩
    exact ⟨h₁, h₂, h₃, h₄, h₅, h₆, h₇, h₈, h₉⟩
  · rintro ⟨h₁, h₂, h₃, h₄, h₅, h₆, h₇, h₈, h₉⟩
    exact ⟨⟨⟨⟨⟨⟨h₁, h₂, fun _ hm => nomatch hm⟩, h₃⟩, h₄⟩, h₅, h₆, fun _ hm => nomatch hm⟩, h₇⟩,
      h₈, h₉, fun _ hm => nomatch hm⟩

theorem parsed_lookup (name : String) :
    f.parsed.lookup name = (f.pairs.lookup name).map fun cs => parseValue (strip cs) :=
  Dict.lookup_mapVals ..

end Front

end Obase.KnowledgeStore
