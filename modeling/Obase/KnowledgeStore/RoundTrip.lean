import Obase.KnowledgeStore.Files
import Obase.KnowledgeStore.Front

namespace Obase.KnowledgeStore
set_option autoImplicit true
open Text

/-- The front matter has a text under a name. -/
def Shows (printable : Char → Bool) (fm : FrontMatter) (name : String) (cs : List Char) : Prop :=
  ∃ v, fm.lookup name = some v ∧ v.Scalar ∧ v.text printable = cs

/-- The front matter has a value under its name, as the same text where it is no list. -/
def Held (printable : Char → Bool) (fm : FrontMatter) (p : String × Field) : Prop :=
  (p.2.Scalar → Shows printable fm p.1 (p.2.text printable)) ∧
    (¬ p.2.Scalar → fm.lookup p.1 = some p.2)

/-- The arguments of `write`. Of the fields that the caller adds, those that are serialised are no
lists. -/
structure Args where
  id : String
  type : String
  body : List Char
  covers : List String
  dependsOn : List String
  lastSyncedCommit : String
  stale : Bool
  staleReason : Option String
  extra : FrontMatter
  distinct : Dict.Distinct extra
  names : ∀ k ∈ Dict.keys extra, k ∉ parameters ∧
    k ∉ ["covers", "depends_on", "last_synced_commit", "stale", "stale_reason"]
  scalar : ∀ p ∈ extra, p.1 ∈ KnowledgeStore.names → p.2.Scalar

namespace Args

def kwargs (a : Args) : FrontMatter :=
  [("covers", .list a.covers), ("depends_on", .list a.dependsOn),
    ("last_synced_commit", .str a.lastSyncedCommit), ("stale", .bool a.stale),
    ("stale_reason", a.staleReason.elim .none .str)] ++ a.extra

section
variable (U : Casing) (printable : Char → Bool) (a : Args)

/-- The texts that are written. -/
def front (now : Time) : Front where
  id := ((a.extra.lookup "id").getD (.str a.id)).text printable
  type := ((a.extra.lookup "type").getD (.str a.type)).text printable
  covers := a.covers
  dependsOn := a.dependsOn
  autoUpdate := U.lower (((a.extra.lookup "auto_update").getD (.bool true)).text printable)
  stale := a.stale
  staleReason := a.staleReason
  lastSyncedAt := ((a.extra.lookup "last_synced_at").getD (.str now.strftime)).text printable
  schemaVersion := ((a.extra.lookup "schema_version").getD (.int 1)).text printable

/-- A document has what was given to `write`. -/
structure Returned (doc : Doc) : Prop where
  body : doc.2 = strip a.body
  id : Shows printable doc.1 "id" a.id.toList
  type : Shows printable doc.1 "type" a.type.toList
  covers : (doc.1.lookup "covers").getD (.list []) = .list a.covers
  dependsOn : (doc.1.lookup "depends_on").getD (.list []) = .list a.dependsOn
  stale : doc.1.lookup "stale" = some (.bool a.stale)
  staleReason : (doc.1.lookup "stale_reason").getD .none = a.staleReason.elim .none .str
  lastSyncedCommit : (doc.1.lookup "last_synced_commit").getD (.str "") =
    .str a.lastSyncedCommit
  extra : ∀ p ∈ a.extra, Held printable doc.1 p

/-- A text that is lower-cased when it is written. -/
def PlainFlag (cs : List Char) : Prop :=
  cs = "True".toList ∨ cs = "False".toList ∨ PlainText cs ∧ U.lower cs = cs

/-- A field of the caller that is written, and as it is. -/
def PlainExtra (p : String × Field) : Prop :=
  p.1 = "id" ∧ p.2.text printable = a.id.toList ∨
    p.1 = "type" ∧ p.2.text printable = a.type.toList ∨
    p.1 = "auto_update" ∧ PlainFlag U (p.2.text printable) ∨
    (p.1 = "last_synced_at" ∨ p.1 = "schema_version") ∧ PlainText (p.2.text printable)

/-- Arguments that are read as they are. -/
structure Plain : Prop where
  file : '\x00' ∉ a.id.toList
  body : '\r' ∉ strip a.body
  id : PlainText a.id.toList
  type : PlainText a.type.toList
  covers : ∀ x ∈ a.covers, PlainItem x
  dependsOn : ∀ x ∈ a.dependsOn, PlainItem x
  staleReason : ∀ r ∈ a.staleReason, r ≠ "" ∧ PlainText r.toList
  lastSyncedCommit : a.lastSyncedCommit = ""
  extra : ∀ p ∈ a.extra, a.PlainExtra U printable p

/-- What is written is returned by `read`. -/
def RoundTrips (base : Path) (t : FileTree) (now : Time) : Prop :=
  ∃ t' doc, write U printable base t a.id (.str a.type) a.body a.kwargs now = (.ok (), t') ∧
    read base t' a.id = some doc ∧ a.Returned printable doc

end

theorem kwargs_distinct (a : Args) : Dict.Distinct a.kwargs := by
  rw [Dict.Distinct, kwargs, Dict.keys_append]
  refine List.nodup_append'.2 ⟨?_, a.distinct, fun k hk hx => (a.names k hx).2 hk⟩
  change ["covers", "depends_on", "last_synced_commit", "stale", "stale_reason"].Nodup
  decide

theorem lookup_kwargs (a : Args) {k : String}
    (h : k ∉ ["covers", "depends_on", "last_synced_commit", "stale", "stale_reason"]) :
    a.kwargs.lookup k = a.extra.lookup k := by
  rw [kwargs, List.lookup_append, Dict.lookup_eq_none_of_not_mem h, Option.none_or]

theorem gives (U : Casing) (printable : Char → Bool) (a : Args) (now : Time) :
    Gives U printable a.id (.str a.type) a.kwargs now (a.front U printable now) where
  distinct := a.kwargs_distinct
  id := by
    rw [a.lookup_kwargs (by decide)]
    rfl
  type := by
    rw [a.lookup_kwargs (by decide)]
    rfl
  covers := rfl
  dependsOn := rfl
  autoUpdate := by
    rw [a.lookup_kwargs (by decide)]
    rfl
  stale := rfl
  staleReason := rfl
  lastSyncedAt := by
    rw [a.lookup_kwargs (by decide)]
    rfl
  schemaVersion := by
    rw [a.lookup_kwargs (by decide)]
    rfl

end Args

theorem repr_isDigit {n : Nat} : ∀ c ∈ n.repr.toList, c.isDigit = true := by
  intro c hc
  rw [Nat.repr_eq_ofList_toDigits, String.toList_ofList] at hc
  exact Nat.isDigit_of_mem_toDigits (by decide) (by decide) hc

theorem twoDigits_isDigit {n : Nat} : ∀ c ∈ twoDigits n, c.isDigit = true := by
  rw [twoDigits]
  split
  · exact List.forall_mem_cons.2 ⟨by decide, repr_isDigit⟩
  · exact repr_isDigit

theorem digit_bounds {c : Char} (h : c.isDigit = true) : 48 ≤ c.toNat ∧ c.toNat ≤ 57 := by
  rw [Char.isDigit, Bool.and_eq_true, decide_eq_true_eq, decide_eq_true_eq] at h
  exact ⟨UInt32.le_iff_toNat_le.1 h.1, UInt32.le_iff_toNat_le.1 h.2⟩

theorem digit_not_dash {c : Char} (h : c.isDigit = true) : c ≠ '-' := by
  rintro rfl
  exact absurd h (by decide)

theorem digit_visible {c : Char} (h : c.isDigit = true) : isSpace c = false :=
  forall_ascii (P := fun c => c.isDigit = true → isSpace c = false) (by decide)
    (by have := (digit_bounds h).2; omega) h

theorem count_dash {cs : List Char} (h : ∀ c ∈ cs, c.isDigit = true) : cs.count '-' = 0 :=
  List.count_eq_zero.2 fun hm => digit_not_dash (h _ hm) rfl

/-- The time is read as it was written. -/
theorem strftime_plain (now : Time) : PlainText now.strftime.toList := by
  have htext : now.strftime.toList = now.year.repr.toList ++ '-' :: twoDigits now.month ++
      '-' :: twoDigits now.day ++ 'T' :: twoDigits now.hour ++ ':' :: twoDigits now.minute ++
      ':' :: twoDigits now.second ++ ['Z'] := String.toList_ofList
  have hmem : ∀ c ∈ now.strftime.toList, c.isDigit = true ∨ c ∈ ['-', 'T', ':', 'Z'] := by
    have hdigits {cs : List Char} (h : ∀ c ∈ cs, c.isDigit = true) :
        ∀ c ∈ cs, c.isDigit = true ∨ c ∈ ['-', 'T', ':', 'Z'] := fun c hc => .inl (h c hc)
    rw [htext]
    simp only [List.forall_mem_append, List.forall_mem_cons]
    exact ⟨⟨⟨⟨⟨⟨hdigits repr_isDigit, .inr (by decide), hdigits twoDigits_isDigit⟩,
      .inr (by decide), hdigits twoDigits_isDigit⟩, .inr (by decide), hdigits twoDigits_isDigit⟩,
      .inr (by decide), hdigits twoDigits_isDigit⟩, .inr (by decide), hdigits twoDigits_isDigit⟩,
      .inr (by decide), fun c hc => nomatch hc⟩
  have hvisible : ∀ c ∈ now.strftime.toList, isSpace c = false := by
    intro c hc
    obtain hd | hm := hmem c hc
    · exact digit_visible hd
    · exact forall_mem_of_all (P := fun c => isSpace c = false) (by decide) c hm
  have hdash : now.strftime.toList.count '-' = 2 := by
    rw [htext]
    simp only [List.count_append, List.count_cons, List.count_nil, count_dash repr_isDigit,
      count_dash twoDigits_isDigit]
    decide
  have hlast : now.strftime.toList.getLast? = some 'Z' := by
    rw [htext, List.getLast?_concat]
  refine ⟨fun c hc => ?_, fun hi => ?_, ?_, fun he => ?_, fun he => ?_, fun hb => ?_⟩
  · rw [Bool.eq_false_iff]
    intro hb
    have hv := hvisible c hc
    rw [isSpace_of_isLineBoundary hb] at hv
    cases hv
  · obtain ⟨x, y, he⟩ := hi
    have hcount := congrArg (List.count '-') he
    rw [List.count_append, List.count_append, hdash] at hcount
    have h3 : delimiter.count '-' = 3 := by decide
    omega
  · exact trim_eq_self_iff.2 ⟨fun c hc => hvisible c (List.mem_of_mem_head? hc),
      fun c hc => hvisible c (List.mem_of_mem_getLast? hc)⟩
  · rw [he] at hlast
    exact absurd hlast (by decide)
  · rw [he] at hlast
    exact absurd hlast (by decide)
  · rw [hb.2] at hlast
    exact absurd hlast (by decide)

section
variable {U : Casing} {printable : Char → Bool} {base : Path} {t : FileTree} {id : String}
  {type : Field} {body : List Char} {kwargs : FrontMatter} {now : Time} {f : Front}

/-- A written document is read as what its front matter and its body are parsed to. -/
theorem write_gives (h : Flat base t) (hg : Gives U printable id type kwargs now f)
    (hp : ∀ p ∈ kwargs, p.1 ∉ parameters) (hn : '\x00' ∉ id.toList) (body : List Char) :
    ∃ t', write U printable base t id type body kwargs now = (.ok (), t') ∧ Flat base t' ∧
      read base t' id = parseFrontmatter (universalNewlines
        (frame (f.pairs.map pairLine) (strip body))) := by
  have hs : serializeFrontmatter U printable (frontmatterOf id type kwargs now) body =
      some (frame (f.pairs.map pairLine) (strip body)) := by
    rw [serializeFrontmatter_eq, frontLines_gives hg]
    rfl
  have hany : ¬ (kwargs.any fun p => p.1 ∈ parameters) = true := by
    intro ha
    obtain ⟨p, hm, hpar⟩ := List.any_eq_true.1 ha
    exact hp p hm (of_decide_eq_true hpar)
  obtain ⟨t', ha, hf, he, -⟩ := h.atomicWrite hn (frame (f.pairs.map pairLine) (strip body))
  refine ⟨t', ?_, hf, ?_⟩
  · rw [write, if_neg hany, hs]
    exact ha
  · rw [read, if_neg hn, FileTree.readText, he]

theorem write_nul (h : Flat base t) (hn : '\x00' ∈ id.toList) (U : Casing)
    (printable : Char → Bool) (type : Field) (body : List Char) (kwargs : FrontMatter)
    (now : Time) : ∃ e, write U printable base t id type body kwargs now = (.error e, t) := by
  obtain ⟨content, t', -, -, hn', -⟩ | ⟨e, he, -⟩ := h.write U printable id type body kwargs now
  · exact (hn' hn).elim
  · exact ⟨e, he⟩

/-- A file of plain lines is read as its front matter and its body. -/
theorem parse_clean (h₁ : ∀ p ∈ f.pairs, OneLine p.2) (h₂ : ∀ p ∈ f.pairs, ¬ delimiter <:+: p.2)
    (body : List Char) :
    parseFrontmatter (universalNewlines (frame (f.pairs.map pairLine) body)) =
      some (f.parsed, strip (universalNewlines body)) := by
  rw [Front.parse_of_no_delimiter h₂, Front.entries_of_oneLine h₁]

end

theorem one_plain : PlainText "1".toList :=
  ⟨by decide, by decide, by decide, by decide, by decide, by decide⟩

namespace Args
variable {U : Casing} {printable : Char → Bool} {a : Args} {now : Time} {v : Field}

theorem plainExtra_id :
    a.PlainExtra U printable ("id", v) ↔ v.text printable = a.id.toList := by
  simp [PlainExtra]

theorem plainExtra_type :
    a.PlainExtra U printable ("type", v) ↔ v.text printable = a.type.toList := by
  simp [PlainExtra]

theorem plainExtra_autoUpdate :
    a.PlainExtra U printable ("auto_update", v) ↔ PlainFlag U (v.text printable) := by
  simp [PlainExtra]

theorem plainExtra_lastSyncedAt :
    a.PlainExtra U printable ("last_synced_at", v) ↔ PlainText (v.text printable) := by
  simp [PlainExtra]

theorem plainExtra_schemaVersion :
    a.PlainExtra U printable ("schema_version", v) ↔ PlainText (v.text printable) := by
  simp [PlainExtra]

theorem PlainExtra.mem_names {p : String × Field} (h : a.PlainExtra U printable p) :
    p.1 ∈ KnowledgeStore.names := by
  obtain ⟨hn, -⟩ | ⟨hn, -⟩ | ⟨hn, -⟩ | ⟨hn | hn, -⟩ := h
  all_goals
    rw [hn]
    decide

namespace Plain

theorem extra_lookup (h : a.Plain U printable) {k : String} (hl : a.extra.lookup k = some v) :
    a.PlainExtra U printable (k, v) :=
  h.extra _ (Dict.lookup_mem hl)

theorem front_id (h : a.Plain U printable) : (a.front U printable now).id = a.id.toList := by
  change ((a.extra.lookup "id").getD (.str a.id)).text printable = _
  cases hl : a.extra.lookup "id" with
  | none => rfl
  | some v => exact plainExtra_id.1 (h.extra_lookup hl)

theorem front_type (h : a.Plain U printable) : (a.front U printable now).type = a.type.toList := by
  change ((a.extra.lookup "type").getD (.str a.type)).text printable = _
  cases hl : a.extra.lookup "type" with
  | none => rfl
  | some v => exact plainExtra_type.1 (h.extra_lookup hl)

theorem front_autoUpdate (h : a.Plain U printable) :
    PlainFlag U (((a.extra.lookup "auto_update").getD (.bool true)).text printable) := by
  cases hl : a.extra.lookup "auto_update" with
  | none => exact .inl rfl
  | some v => exact plainExtra_autoUpdate.1 (h.extra_lookup hl)

theorem front_lastSyncedAt (h : a.Plain U printable) :
    PlainText (a.front U printable now).lastSyncedAt := by
  change PlainText (((a.extra.lookup "last_synced_at").getD (.str now.strftime)).text printable)
  cases hl : a.extra.lookup "last_synced_at" with
  | none => exact strftime_plain now
  | some v => exact plainExtra_lastSyncedAt.1 (h.extra_lookup hl)

theorem front_schemaVersion (h : a.Plain U printable) :
    PlainText (a.front U printable now).schemaVersion := by
  change PlainText (((a.extra.lookup "schema_version").getD (.int 1)).text printable)
  cases hl : a.extra.lookup "schema_version" with
  | none => exact one_plain
  | some v => exact plainExtra_schemaVersion.1 (h.extra_lookup hl)

end Plain
end Args

/-- A flag is written on one line, without a delimiter. -/
theorem Args.PlainFlag.clean {U : Casing} {cs : List Char} (h : PlainFlag U cs) :
    OneLine (U.lower cs) ∧ ¬ delimiter <:+: U.lower cs := by
  obtain rfl | rfl | ⟨hp, he⟩ := h
  · rw [lower_true]
    decide
  · rw [lower_false]
    decide
  · rw [he]
    exact ⟨hp.oneLine, hp.no_delimiter⟩

/-- A flag is read as the text that was given. -/
theorem Args.PlainFlag.text {U : Casing} {printable : Char → Bool} {cs : List Char}
    (h : PlainFlag U cs) : (parseValue (strip (U.lower cs))).Scalar ∧
      (parseValue (strip (U.lower cs))).text printable = cs := by
  obtain rfl | rfl | ⟨hp, he⟩ := h
  · rw [lower_true, parseValue_true]
    exact ⟨fun _ he => (nomatch he), rfl⟩
  · rw [lower_false, parseValue_false]
    exact ⟨fun _ he => (nomatch he), rfl⟩
  · rw [he]
    exact hp.text

section
variable {U : Casing} {printable : Char → Bool} {a : Args} {now : Time}

theorem Args.Plain.clean (h : a.Plain U printable) :
    ∀ p ∈ (a.front U printable now).pairs, OneLine p.2 ∧ ¬ delimiter <:+: p.2 := by
  have hlist {xs : List String} (h : ∀ x ∈ xs, PlainItem x) :
      OneLine (listText xs) ∧ ¬ delimiter <:+: listText xs := by
    refine ⟨listText_oneLine fun x hx => (h x hx).oneLine, fun hi => ?_⟩
    obtain ⟨x, hx, hi⟩ := delimiter_listText.1 hi
    exact (h x hx).no_delimiter hi
  have hplain {cs : List Char} (h : PlainText cs) : OneLine cs ∧ ¬ delimiter <:+: cs :=
    ⟨h.oneLine, h.no_delimiter⟩
  have hbool (b : Bool) : OneLine (boolText b) ∧ ¬ delimiter <:+: boolText b := by
    cases b with
    | true => decide
    | false => decide
  have hid : OneLine (a.front U printable now).id ∧
      ¬ delimiter <:+: (a.front U printable now).id := by
    rw [h.front_id]
    exact hplain h.id
  have htype : OneLine (a.front U printable now).type ∧
      ¬ delimiter <:+: (a.front U printable now).type := by
    rw [h.front_type]
    exact hplain h.type
  exact (Front.forall_texts (Q := fun cs => OneLine cs ∧ ¬ delimiter <:+: cs)).2 ⟨hid, htype,
    fun _ => hlist h.covers, fun _ => hlist h.dependsOn, h.front_autoUpdate.clean, hbool _,
    fun r hr _ => hplain (h.staleReason r hr).2, hplain h.front_lastSyncedAt,
    hplain h.front_schemaVersion⟩

theorem PlainItem.iff {xs : List String} : (∀ x ∈ xs, PlainItem x) ↔
    (∀ x ∈ xs, OneLine x.toList ∧ ',' ∉ x.toList) ∧ (∀ x ∈ xs, ¬ delimiter <:+: x.toList) ∧
      ∀ x ∈ xs, x ≠ "" ∧ strip x.toList = x.toList ∧ stripQuotes x.toList = x.toList := by
  constructor
  · intro h
    exact ⟨fun x hx => ⟨(h x hx).oneLine, (h x hx).no_comma⟩, fun x hx => (h x hx).no_delimiter,
      fun x hx => ⟨(h x hx).not_empty, (h x hx).stripped, (h x hx).unquoted⟩⟩
  · rintro ⟨h₁, h₂, h₃⟩ x hx
    exact ⟨(h₁ x hx).1, h₂ x hx, (h₁ x hx).2, (h₃ x hx).1, (h₃ x hx).2.1, (h₃ x hx).2.2⟩

/-- When a list is read as it was written. -/
theorem list_returned_iff {xs : List String} (h : ∀ x ∈ xs, ',' ∉ x.toList) :
    ((if xs = [] then none else some (listText xs)).map fun cs =>
        parseValue (strip cs)).getD (.list []) = .list xs ↔
      ∀ x ∈ xs, x ≠ "" ∧ strip x.toList = x.toList ∧ stripQuotes x.toList = x.toList := by
  by_cases hn : xs = []
  · subst hn
    exact iff_of_true rfl fun x hx => nomatch hx
  · rw [if_neg hn, Option.map_some, Option.getD_some, listText, parseValue_list, ← parseItems_iff h,
      Field.list.injEq]

theorem shows_parsed_iff {f : Front} {name : String} {cs ds : List Char}
    (h : f.pairs.lookup name = some ds) : Shows printable f.parsed name cs ↔
      (parseValue (strip ds)).Scalar ∧ (parseValue (strip ds)).text printable = cs := by
  rw [Shows, Front.parsed_lookup, h, Option.map_some]
  constructor
  · rintro ⟨v, hv, hs, ht⟩
    obtain rfl := Option.some.inj hv
    exact ⟨hs, ht⟩
  · exact fun ⟨hs, ht⟩ => ⟨_, rfl, hs, ht⟩

theorem parsed_lookup_none {f : Front} {name : String} (h : name ∉ names) :
    f.parsed.lookup name = none := by
  rw [Front.parsed_lookup, Dict.lookup_eq_none_of_not_mem fun hm => h (f.keys_sublist.subset hm)]
  rfl

theorem parsed_staleReason {f : Front} (h : ∀ r ∈ f.staleReason, PlainText r.toList) :
    (f.parsed.lookup "stale_reason").getD .none = f.staleReason.elim .none .str ↔
      ∀ r ∈ f.staleReason, r ≠ "" := by
  rw [Front.parsed_lookup, Front.lookup_staleReason]
  cases hf : f.staleReason with
  | none => exact iff_of_true rfl fun r hr => nomatch hr
  | some r =>
    rw [hf] at h
    have hp := (h r rfl).parse
    rw [String.ofList_toList] at hp
    rw [Option.bind_some]
    by_cases hr : r = ""
    · subst hr
      exact iff_of_false (fun he => nomatch he) fun hn => hn "" rfl rfl
    · rw [if_neg hr, Option.map_some, hp]
      exact iff_of_true rfl fun r' hr' => Option.some.inj hr' ▸ hr

/-- Plain arguments are returned. -/
theorem Args.Plain.returned (h : a.Plain U printable) : a.Returned printable
    ((a.front U printable now).parsed, strip (universalNewlines (strip a.body))) := by
  obtain ⟨hid, htype, hauto, hstale, hsynced, hschema⟩ := (a.front U printable now).lookup_fixed
  have hlist {xs : List String} (h : ∀ x ∈ xs, PlainItem x) :
      ((if xs = [] then none else some (listText xs)).map fun cs =>
        parseValue (strip cs)).getD (.list []) = .list xs :=
    (list_returned_iff fun x hx => (h x hx).no_comma).2 (PlainItem.iff.1 h).2.2
  have hshow {name : String} {cs : List Char}
      (hl : (a.front U printable now).pairs.lookup name = some cs) (hp : PlainText cs) :
      Shows printable (a.front U printable now).parsed name cs :=
    (shows_parsed_iff hl).2 hp.text
  have hid' := hshow (hid.trans (congrArg some h.front_id)) h.id
  have htype' := hshow (htype.trans (congrArg some h.front_type)) h.type
  refine ⟨?_, hid', htype', ?_, ?_, ?_, ?_, ?_, fun p hp => ?_⟩
  · rw [universalNewlines_of_no_cr h.body]
    exact trim_trim isSpace a.body
  · rw [Front.parsed_lookup, Front.lookup_covers]
    exact hlist h.covers
  · rw [Front.parsed_lookup, Front.lookup_dependsOn]
    exact hlist h.dependsOn
  · rw [Front.parsed_lookup, hstale, Option.map_some, parseValue_boolText]
    rfl
  · exact (parsed_staleReason fun r hr => (h.staleReason r hr).2).2 fun r hr =>
      (h.staleReason r hr).1
  · rw [parsed_lookup_none (by decide), h.lastSyncedCommit]
    rfl
  · obtain ⟨name, v⟩ := p
    have hl : a.extra.lookup name = some v := (Dict.lookup_eq_some_iff a.distinct).2 hp
    have hget (default : Field) : (a.extra.lookup name).getD default = v := by rw [hl]; rfl
    refine ⟨fun _ => ?_, fun hs => (hs (a.scalar _ hp (h.extra _ hp).mem_names)).elim⟩
    obtain ⟨hn, hv⟩ | ⟨hn, hv⟩ | ⟨hn, hv⟩ | ⟨hn | hn, hv⟩ := h.extra _ hp
    · cases hn
      rw [hv]
      exact hid'
    · cases hn
      rw [hv]
      exact htype'
    · cases hn
      refine (shows_parsed_iff hauto).2 ?_
      rw [Args.front, hget]
      exact hv.text
    · cases hn
      refine hshow (hsynced.trans ?_) hv
      rw [Args.front, hget]
    · cases hn
      refine hshow (hschema.trans ?_) hv
      rw [Args.front, hget]

end
end Obase.KnowledgeStore
