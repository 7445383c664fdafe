import Obase.KnowledgeStore.RoundTrip

namespace Obase.KnowledgeStore
set_option autoImplicit true
open Text

section
variable {U : Casing} {printable : Char → Bool} {base : Path} {t : FileTree} {a : Args} {now : Time}

theorem mem_universalNewlines {c : Char} {cs : List Char} (h : c ∈ universalNewlines cs) :
    c = '\n' ∨ c ∈ cs := by
  fun_induction universalNewlines cs with
  | case1 => cases h
  | case2 cs ih =>
    obtain h | h := List.mem_cons.1 h
    · exact .inl h
    · exact (ih h).imp_right fun h => .tail _ (.tail _ h)
  | case3 cs _ ih =>
    obtain h | h := List.mem_cons.1 h
    · exact .inl h
    · exact (ih h).imp_right (.tail _)
  | case4 d cs _ _ ih =>
    obtain rfl | h := List.mem_cons.1 h
    · exact .inr (.head _)
    · exact (ih h).imp_right (.tail _)

theorem Shows.unique {fm : FrontMatter} {name : String} {cs ds : List Char}
    (h : Shows printable fm name cs) (h' : Shows printable fm name ds) : cs = ds := by
  obtain ⟨v, hv, -, rfl⟩ := h
  obtain ⟨w, hw, -, rfl⟩ := h'
  obtain rfl := Option.some.inj (hv.symm.trans hw)
  rfl

/-- What the parser gives as a text is the text that it read. -/
theorem toList_of_parseValue {cs : List Char} {s : String} (h : parseValue cs = .str s) :
    s.toList = cs := by
  rw [parseValue] at h
  split at h
  · cases h
  · split at h
    · cases h
    · split at h
      · cases h
      · cases h
        exact String.toList_ofList

/-- A field that is read was in one of the lines. -/
theorem exists_line {f : Front} {name : String} {v : Field}
    (h : (Dict.ofPairs (f.pairs.flatMap fun p =>
      entries (universalNewlines (pairLine p)))).lookup name = some v) :
    ∃ p ∈ f.pairs, (name, v) ∈ entries (universalNewlines (pairLine p)) := by
  rw [Dict.lookup_ofPairs] at h
  exact List.mem_flatMap.1 (List.mem_reverse.1 (Dict.lookup_mem h))

theorem parsed_of_lookup {f : Front} {name : String} {v : Field}
    (h : (Dict.ofPairs (f.pairs.flatMap fun p =>
      entries (universalNewlines (pairLine p)))).lookup name = some v) : v.Parsed := by
  obtain ⟨p, -, he⟩ := exists_line h
  exact (entries_value he).1

/-- A lower-cased line keeps what is read of it lower-cased. -/
theorem lowered_line {name : String} (h : name ∈ names) {cs : List Char} :
    ∀ c ∈ universalNewlines (pairLine (name, U.lower cs)), U.Lowered c := by
  have hascii {c : Char} (hc : c.toNat < 128 ∧ c.toLower = c) : U.Lowered c :=
    ⟨[], c, [], by rw [U.lowerAt_ascii _ _ _ hc.1, hc.2]; exact .head _⟩
  have hnames : ∀ name ∈ names,
      (name.toList.all fun c => decide (c.toNat < 128 ∧ c.toLower = c)) = true := by decide
  intro c hc
  obtain rfl | hc := mem_universalNewlines hc
  · exact hascii (by decide)
  · rw [pairLine_eq] at hc
    obtain hc | hc := List.mem_append.1 hc
    · exact hascii (forall_mem_of_all (hnames name h) c hc)
    · obtain rfl | hc := List.mem_cons.1 hc
      · exact hascii (by decide)
      · obtain rfl | hc := List.mem_cons.1 hc
        · exact hascii (by decide)
        · exact U.lowered_of_mem hc

/-- A flag that is returned is a truth value, or a text on one line that is lower-cased. -/
theorem flag_of_shows {f : Front} {cs : List Char} (hf : f.autoUpdate = U.lower cs)
    (hone : ∀ p ∈ f.pairs, OneLine p.2 ∨ p.2 = f.autoUpdate)
    (h : Shows printable (Dict.ofPairs (f.pairs.flatMap fun p =>
      entries (universalNewlines (pairLine p)))) "auto_update" cs) :
    cs = "True".toList ∨ cs = "False".toList ∨ OneLine cs ∧ U.lower cs = cs := by
  obtain ⟨v, hv, hs, rfl⟩ := h
  obtain ⟨p, hp, he⟩ := exists_line hv
  obtain ⟨name, ds⟩ := p
  have hds : ds = U.lower (v.text printable) := by
    obtain ho | ho := hone _ hp
    · rw [entries_pairLine (f.mem_names hp) ho, List.mem_singleton, Prod.mk.injEq] at he
      obtain ⟨rfl, -⟩ := he
      have hl := (Dict.lookup_eq_some_iff f.distinct).2 hp
      rw [f.lookup_fixed.2.2.1] at hl
      exact (Option.some.inj hl).symm.trans hf
    · exact ho.trans hf
  subst hds
  obtain ⟨hparsed, w, hw, -, hi⟩ := entries_value he
  cases v with
  | none => exact hparsed.elim
  | int n => exact hparsed.elim
  | list xs => exact (hs xs rfl).elim
  | bool b =>
    cases b with
    | true => exact .inl rfl
    | false => exact .inr (.inl rfl)
  | str s =>
    have hsw : s.toList = strip w := toList_of_parseValue hw.symm
    refine .inr (.inr ⟨hparsed, U.lower_of_lowered fun c hc => ?_⟩)
    change c ∈ s.toList at hc
    rw [hsw] at hc
    exact lowered_line (f.mem_names hp) c (hi.subset (mem_trim hc))

/-- What a document of given arguments says of their texts. -/
structure Args.Texts (printable : Char → Bool) (a : Args) : Prop where
  id : OneLine a.id.toList
  type : OneLine a.type.toList
  covers : ∀ x ∈ a.covers, OneLine x.toList ∧ ',' ∉ x.toList
  dependsOn : ∀ x ∈ a.dependsOn, OneLine x.toList ∧ ',' ∉ x.toList
  staleReason : ∀ r ∈ a.staleReason, OneLine r.toList
  extra : ∀ p ∈ a.extra, p.1 ∈ KnowledgeStore.names → OneLine (p.2.text printable)

theorem Args.Returned.texts {body : List Char} (h : a.Returned printable
    (Dict.ofPairs ((a.front U printable now).pairs.flatMap fun p =>
      entries (universalNewlines (pairLine p))), body)) : a.Texts printable := by
  have hshow {name : String} {cs : List Char} (h : Shows printable
      (Dict.ofPairs ((a.front U printable now).pairs.flatMap fun p =>
        entries (universalNewlines (pairLine p)))) name cs) : OneLine cs := by
    obtain ⟨v, hv, hs, rfl⟩ := h
    exact (parsed_of_lookup hv).text_oneLine hs
  have hlist {name : String} {xs : List String}
      (h : ((Dict.ofPairs ((a.front U printable now).pairs.flatMap fun p =>
        entries (universalNewlines (pairLine p)))).lookup name).getD (.list []) = .list xs) :
      ∀ x ∈ xs, OneLine x.toList ∧ ',' ∉ x.toList := by
    cases hl : (Dict.ofPairs ((a.front U printable now).pairs.flatMap fun p =>
      entries (universalNewlines (pairLine p)))).lookup name with
    | none =>
      rw [hl] at h
      cases h
      exact fun x hx => nomatch hx
    | some v =>
      rw [hl] at h
      cases h
      exact parsed_of_lookup hl
  refine ⟨hshow h.id, hshow h.type, hlist h.covers, hlist h.dependsOn, fun r hr => ?_,
    fun p hp hn => hshow ((h.extra p hp).1 (a.scalar p hp hn))⟩
  have hreason := h.staleReason
  rw [Option.mem_def.1 hr] at hreason
  cases hl : (Dict.ofPairs ((a.front U printable now).pairs.flatMap fun p =>
      entries (universalNewlines (pairLine p)))).lookup "stale_reason" with
  | none =>
    rw [hl] at hreason
    cases hreason
  | some v =>
    rw [hl] at hreason
    cases hreason
    exact parsed_of_lookup hl

theorem Args.Texts.getD (h : a.Texts printable) {name : String} {default : Field}
    (hn : name ∈ KnowledgeStore.names) (hd : OneLine (default.text printable)) :
    OneLine (((a.extra.lookup name).getD default).text printable) := by
  cases hl : a.extra.lookup name with
  | none => exact hd
  | some v => exact h.extra _ (Dict.lookup_mem hl) hn

/-- The lines of such arguments, but for the flag. -/
theorem Args.Texts.pairs (h : a.Texts printable) :
    ∀ p ∈ (a.front U printable now).pairs,
      OneLine p.2 ∨ p.2 = (a.front U printable now).autoUpdate := by
  have hbool (b : Bool) : OneLine (boolText b) := by
    cases b with
    | true => decide
    | false => decide
  exact (Front.forall_texts
    (Q := fun cs => OneLine cs ∨ cs = (a.front U printable now).autoUpdate)).2
    ⟨.inl (h.getD (by decide) h.id), .inl (h.getD (by decide) h.type),
      fun _ => .inl (listText_oneLine fun x hx => (h.covers x hx).1),
      fun _ => .inl (listText_oneLine fun x hx => (h.dependsOn x hx).1), .inr rfl, .inl (hbool _),
      fun r hr _ => .inl (h.staleReason r hr),
      .inl (h.getD (by decide) (strftime_plain now).oneLine),
      .inl (h.getD (by decide) one_plain.oneLine)⟩

/-- A text that is returned from a plain file is plain. -/
theorem plainText_of_shows {f : Front} {name : String} {cs : List Char}
    (hl : f.pairs.lookup name = some cs) (hone : ∀ p ∈ f.pairs, OneLine p.2)
    (hd : ∀ p ∈ f.pairs, ¬ delimiter <:+: p.2) (h : Shows printable f.parsed name cs) :
    PlainText cs := by
  obtain ⟨hs, ht, hf, hb⟩ := parseValue_text_iff.1 ((shows_parsed_iff hl).1 h)
  exact ⟨hone _ (Dict.lookup_mem hl), hd _ (Dict.lookup_mem hl), hs, ht, hf, hb⟩

/-- Arguments that are returned from a plain file are plain. -/
theorem Args.plain_of_parsed (hn : '\x00' ∉ a.id.toList)
    (hone : ∀ p ∈ (a.front U printable now).pairs, OneLine p.2)
    (hd : ∀ p ∈ (a.front U printable now).pairs, ¬ delimiter <:+: p.2) (ht : a.Texts printable)
    (hflag : ∀ v, a.extra.lookup "auto_update" = some v → v.text printable = "True".toList ∨
      v.text printable = "False".toList ∨
        OneLine (v.text printable) ∧ U.lower (v.text printable) = v.text printable)
    (hr : a.Returned printable
      ((a.front U printable now).parsed, strip (universalNewlines (strip a.body)))) :
    a.Plain U printable := by
  obtain ⟨hid, htype, hauto, -, hsynced, hschema⟩ := (a.front U printable now).lookup_fixed
  obtain ⟨-, -, hcd, hdd, -, -, -, -, -⟩ :=
    (Front.forall_texts (Q := fun cs => ¬ delimiter <:+: cs)).1 hd
  have hshow {p : String × Field} (hp : p ∈ a.extra) (hn : p.1 ∈ KnowledgeStore.names) :
      Shows printable (a.front U printable now).parsed p.1 (p.2.text printable) :=
    (hr.extra p hp).1 (a.scalar p hp hn)
  have hget {name : String} {default : Field} {cs : List Char} (hn : name ∈ KnowledgeStore.names)
      (hs : Shows printable (a.front U printable now).parsed name cs)
      (hd : default.text printable = cs) :
      ((a.extra.lookup name).getD default).text printable = cs := by
    cases hl : a.extra.lookup name with
    | none => exact hd
    | some v => exact (hshow (Dict.lookup_mem hl) hn).unique hs
  have hextra {name : String} {v default : Field} (hm : (name, v) ∈ a.extra) :
      (a.extra.lookup name).getD default = v := by
    rw [(Dict.lookup_eq_some_iff a.distinct).2 hm]
    rfl
  have hlist {xs : List String} (h : ∀ x ∈ xs, OneLine x.toList ∧ ',' ∉ x.toList)
      (hi : xs ≠ [] → ¬ delimiter <:+: listText xs)
      (he : ((if xs = [] then none else some (listText xs)).map fun cs =>
        parseValue (strip cs)).getD (.list []) = .list xs) : ∀ x ∈ xs, PlainItem x := by
    refine PlainItem.iff.2 ⟨h, fun x hx hx' => ?_, (list_returned_iff fun x hx => (h x hx).2).1 he⟩
    exact hi (List.ne_nil_of_mem hx) (delimiter_listText.2 ⟨x, hx, hx'⟩)
  have hfid : (a.front U printable now).id = a.id.toList := hget (by decide) hr.id rfl
  have hftype : (a.front U printable now).type = a.type.toList := hget (by decide) hr.type rfl
  rw [hfid] at hid
  rw [hftype] at htype
  refine ⟨hn, fun hm => ?_, plainText_of_shows hid hone hd hr.id,
    plainText_of_shows htype hone hd hr.type, ?_, ?_, fun r hm => ?_, ?_, fun p hp => ?_⟩
  · have hb : strip (universalNewlines (strip a.body)) = strip a.body := hr.body
    rw [← hb] at hm
    exact cr_not_mem_universalNewlines _ (mem_trim hm)
  · have hc := hr.covers
    rw [Front.parsed_lookup, Front.lookup_covers] at hc
    exact hlist ht.covers hcd hc
  · have hc := hr.dependsOn
    rw [Front.parsed_lookup, Front.lookup_dependsOn] at hc
    exact hlist ht.dependsOn hdd hc
  · have hc := hr.staleReason
    have hf : (a.front U printable now).staleReason = some r := hm
    have hl := (a.front U printable now).lookup_staleReason
    rw [Option.mem_def.1 hm, Front.parsed_lookup] at hc
    rw [hf, Option.bind_some] at hl
    by_cases hr' : r = ""
    · rw [hl, if_pos hr'] at hc
      cases hc
    · rw [if_neg hr'] at hl
      rw [hl] at hc
      have hs : Shows printable (a.front U printable now).parsed "stale_reason" r.toList := by
        refine ⟨.str r, ?_, fun xs he => (nomatch he), rfl⟩
        rw [Front.parsed_lookup, hl]
        exact congrArg some hc
      exact ⟨hr', plainText_of_shows hl hone hd hs⟩
  · have hc := hr.lastSyncedCommit
    rw [parsed_lookup_none (by decide)] at hc
    exact (Field.str.inj hc).symm
  · obtain ⟨name, v⟩ := p
    have hl : a.extra.lookup name = some v := (Dict.lookup_eq_some_iff a.distinct).2 hp
    have hname : name ∈ KnowledgeStore.names := by
      by_contra hn
      by_cases hv : v.Scalar
      · obtain ⟨w, hw, -⟩ := (hr.extra _ hp).1 hv
        rw [parsed_lookup_none hn] at hw
        cases hw
      · have hw := (hr.extra _ hp).2 hv
        rw [parsed_lookup_none hn] at hw
        cases hw
    have hs := hshow hp hname
    have hother := (a.names name (List.mem_map_of_mem hp)).2
    simp only [KnowledgeStore.names, List.mem_cons, List.not_mem_nil, or_false, not_or]
      at hname hother
    obtain ⟨h₁, h₂, -, h₄, h₅⟩ := hother
    obtain rfl | rfl | hn | hn | rfl | hn | hn | rfl | rfl := hname
    · exact .inl ⟨rfl, hs.unique hr.id⟩
    · exact .inr (.inl ⟨rfl, hs.unique hr.type⟩)
    · exact (h₁ hn).elim
    · exact (h₂ hn).elim
    · refine .inr (.inr (.inl ⟨rfl, ?_⟩))
      obtain ht | hf | ⟨ho, he⟩ := hflag v hl
      · exact .inl ht
      · exact .inr (.inl hf)
      · refine .inr (.inr ⟨plainText_of_shows ?_ hone hd hs, he⟩)
        rw [hauto, Args.front, hextra hp]
        exact congrArg some he
    · exact (h₄ hn).elim
    · exact (h₅ hn).elim
    · refine .inr (.inr (.inr ⟨.inl rfl, plainText_of_shows ?_ hone hd hs⟩))
      rw [hsynced, Args.front, hextra hp]
    · refine .inr (.inr (.inr ⟨.inr rfl, plainText_of_shows ?_ hone hd hs⟩))
      rw [hschema, Args.front, hextra hp]

/-- Arguments that are returned are plain. -/
theorem Args.plain_of_returned (hn : '\x00' ∉ a.id.toList) {doc : Doc}
    (hp : parseFrontmatter (universalNewlines
      (frame ((a.front U printable now).pairs.map pairLine) (strip a.body))) = some doc)
    (hr : a.Returned printable doc) : a.Plain U printable := by
  have hdelim : ∀ p ∈ (a.front U printable now).pairs, ¬ delimiter <:+: p.2 := by
    obtain ⟨fm, body, hp', hv⟩ := parse_frame_body (a.front U printable now).lines_ne_nil
      (a.front U printable now).lines_begin (strip a.body)
    obtain rfl := Option.some.inj (hp.symm.trans hp')
    intro p hm hi
    have hlt := hv ⟨pairLine p, List.mem_map_of_mem hm,
      (delimiter_pairLine ((a.front U printable now).mem_names hm)).2 hi⟩
    have hbody : body = strip a.body := hr.body
    rw [hbody] at hlt
    exact Nat.lt_irrefl _ hlt
  rw [Front.parse_of_no_delimiter hdelim] at hp
  obtain rfl := Option.some.inj hp
  have ht := hr.texts
  have hflag : ∀ v, a.extra.lookup "auto_update" = some v → v.text printable = "True".toList ∨
      v.text printable = "False".toList ∨
        OneLine (v.text printable) ∧ U.lower (v.text printable) = v.text printable := by
    intro v hl
    have hname : "auto_update" ∈ KnowledgeStore.names := by decide
    refine flag_of_shows ?_ ht.pairs
      ((hr.extra _ (Dict.lookup_mem hl)).1 (a.scalar _ (Dict.lookup_mem hl) hname))
    rw [Args.front, hl]
    rfl
  have hauto : OneLine (a.front U printable now).autoUpdate := by
    rw [Args.front]
    dsimp only
    cases hl : a.extra.lookup "auto_update" with
    | none =>
      rw [Option.getD_none]
      exact (Args.PlainFlag.clean (.inl rfl)).1
    | some v =>
      rw [Option.getD_some]
      obtain he | he | ⟨ho, he⟩ := hflag v hl
      · exact (Args.PlainFlag.clean (.inl he)).1
      · exact (Args.PlainFlag.clean (.inr (.inl he))).1
      · rw [he]
        exact ho
  have hone : ∀ p ∈ (a.front U printable now).pairs, OneLine p.2 := by
    intro p hm
    obtain ho | he := ht.pairs p hm
    · exact ho
    · rw [he]
      exact hauto
  rw [Front.entries_of_oneLine hone] at hr
  exact Args.plain_of_parsed hn hone hdelim ht hflag hr

theorem roundTrips_iff (h : Flat base t) :
    a.RoundTrips U printable base t now ↔ a.Plain U printable := by
  have hg := Args.gives U printable a now
  have hpar : ∀ p ∈ a.kwargs, p.1 ∉ parameters := by
    intro p hp
    obtain hp | hp := List.mem_append.1 hp
    · have hkey : ∀ k ∈ ["covers", "depends_on", "last_synced_commit", "stale", "stale_reason"],
          k ∉ parameters := by decide
      exact hkey p.1 (List.mem_map_of_mem hp)
    · exact (a.names p.1 (List.mem_map_of_mem hp)).1
  constructor
  · rintro ⟨t', doc, hw, hread, hr⟩
    by_cases hn : '\x00' ∈ a.id.toList
    · obtain ⟨e, he⟩ := write_nul h hn U printable (.str a.type) a.body a.kwargs now
      rw [he] at hw
      cases hw
    · obtain ⟨t₁, hw', -, hread'⟩ := write_gives h hg hpar hn a.body
      cases hw.symm.trans hw'
      exact Args.plain_of_returned hn (hread'.symm.trans hread) hr
  · intro hp
    obtain ⟨t', hw, -, hread⟩ := write_gives h hg hpar hp.file a.body
    refine ⟨t', ((a.front U printable now).parsed, strip (universalNewlines (strip a.body))), hw,
      ?_, hp.returned⟩
    rw [hread]
    exact parse_clean (fun p hm => (hp.clean p hm).1) (fun p hm => (hp.clean p hm).2) _

end
end Obase.KnowledgeStore
