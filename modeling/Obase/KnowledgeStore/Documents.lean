import Obase.KnowledgeStore.Files
import Obase.KnowledgeStore.Returned
import Obase.KnowledgeStore.Stale

namespace Obase.KnowledgeStore
set_option autoImplicit true
open Text

/-- The states of a store whose directory was made by `__init__`. -/
inductive Reached (U : Casing) (printable : Char → Bool) (base : Path) : FileTree → Prop
  | init : Reached U printable base (FileTree.root base)
  | write (h : Reached U printable base t) (id : String) (type : Field) (body : List Char)
      (kwargs : FrontMatter) (now : Time) :
      Reached U printable base (write U printable base t id type body kwargs now).2
  | delete (h : Reached U printable base t) (id : String) :
      Reached U printable base (delete base t id).2
  | markStale (h : Reached U printable base t) (id reason : String) (now : Time) :
      Reached U printable base (markStale U printable base t id reason now).2
  | markFresh (h : Reached U printable base t) (id : String) (now : Time) :
      Reached U printable base (markFresh U printable base t id now).2

section
variable {U : Casing} {printable : Char → Bool} {base : Path} {t : FileTree}

theorem Flat.write_snd (h : Flat base t) (id : String) (type : Field) (body : List Char)
    (kwargs : FrontMatter) (now : Time) :
    Flat base (KnowledgeStore.write U printable base t id type body kwargs now).2 := by
  obtain ⟨content, t', -, -, -, hw, hf, -⟩ | ⟨e, hw, -⟩ :=
    h.write U printable id type body kwargs now
  · rw [hw]
    exact hf
  · rw [hw]
    exact h

theorem Flat.rewrite (h : Flat base t) (id : String) (doc : Doc) (now : Time) :
    Flat base (KnowledgeStore.rewrite U printable base t id doc now).2 := by
  rw [KnowledgeStore.rewrite]
  split
  · exact h
  · rename_i type _
    have hf : Flat base (KnowledgeStore.write U printable base t id type doc.2 doc.1 now).2 :=
      h.write_snd id type doc.2 doc.1 now
    split
    · rename_i hw
      rw [hw] at hf
      exact hf
    · rename_i hw
      rw [hw] at hf
      exact hf

theorem Reached.flat (h : Reached U printable base t) : Flat base t := by
  induction h with
  | init => exact .root base
  | write _ id type body kwargs now ih => exact ih.write_snd id type body kwargs now
  | delete _ id ih =>
    obtain ⟨r, t', hd, hf, -⟩ := ih.delete id
    rw [hd]
    exact hf
  | markStale _ id reason now ih =>
    rw [KnowledgeStore.markStale]
    split
    · exact ih
    · exact ih.rewrite id _ now
  | markFresh _ id now ih =>
    rw [KnowledgeStore.markFresh]
    split
    · exact ih
    · exact ih.rewrite id _ now

/-- Plain arguments make a steady document. -/
theorem Args.Plain.steady {a : Args} {now : Time} (h : a.Plain U printable) :
    Steady U (a.front U printable now).parsed := by
  obtain ⟨hid, htype, hauto, -, hsynced, hschema⟩ := (a.front U printable now).lookup_fixed
  have htext {name : String} {cs : List Char}
      (hl : (a.front U printable now).pairs.lookup name = some cs) (hp : PlainText cs) :
      (a.front U printable now).parsed.lookup name = some (.str (String.ofList cs)) := by
    rw [Front.parsed_lookup, hl, Option.map_some, hp.parse]
  have hlist {xs : List String} (hx : ∀ x ∈ xs, PlainItem x) :
      ∀ v, (if xs = [] then none else some (listText xs)).map (fun cs => parseValue (strip cs)) =
        some v → v.PlainList := by
    intro v hv
    split at hv
    · cases hv
    · rename_i hn
      rw [Option.map_some, listText, parseValue_list,
        (parseItems_iff fun x hm => (hx x hm).no_comma).2 (PlainItem.iff.1 hx).2.2] at hv
      exact ⟨xs, (Option.some.inj hv).symm, hn, (PlainItem.iff.1 hx).2.2⟩
  rw [h.front_id] at hid
  rw [h.front_type] at htype
  refine ⟨⟨⟨_, htext hid h.id⟩, ⟨_, htext htype h.type⟩, ?_, ?_, ?_,
    ⟨_, htext hschema h.front_schemaVersion⟩⟩, fun k hk => ?_, fun v hv => ?_⟩
  · rw [Front.parsed_lookup, Front.lookup_covers]
    exact hlist h.covers
  · rw [Front.parsed_lookup, Front.lookup_dependsOn]
    exact hlist h.dependsOn
  · rw [Front.parsed_lookup, hauto, Option.map_some, Args.front]
    obtain he | he | ⟨hp, he⟩ := h.front_autoUpdate
    · rw [he, lower_true, parseValue_true]
      exact .inl ⟨true, rfl⟩
    · rw [he, lower_false, parseValue_false]
      exact .inl ⟨false, rfl⟩
    · rw [he, hp.parse]
      exact .inr ⟨_, rfl, by rw [String.toList_ofList, he]⟩
  · rw [Front.parsed, Dict.keys_mapVals] at hk
    exact (a.front U printable now).keys_sublist.subset hk
  · rw [htext hsynced h.front_lastSyncedAt] at hv
    cases hv
    rintro xs ⟨⟩

/-- What `write` is given is returned by `read` exactly where it is plain, and `mark_stale` and
`mark_fresh` change nothing else of a steady document if the reason is quiet. -/
theorem documents_restored (h : Reached U printable base t) :
    (∀ (a : Args) (now : Time), a.RoundTrips U printable base t now ↔ a.Plain U printable) ∧
      ∀ (id reason : String) (fm : FrontMatter) (body : List Char) (now later : Time),
        read base t id = some (fm, body) → Steady U fm → Quiet reason →
          ∃ t₁ t₂ fm₂, markStale U printable base t id reason now = (.ok true, t₁) ∧
            markFresh U printable base t₁ id later = (.ok true, t₂) ∧
            read base t₂ id = some (fm₂, body) ∧ ∀ k ∉ changed, fm₂.lookup k = fm.lookup k :=
  ⟨fun _ _ => roundTrips_iff h.flat, fun _ _ _ _ _ _ hr hs hq => stale_fresh h.flat hr hs hq⟩

end

/-- A document of the tests. -/
def auth (commit : String) : Args where
  id := "auth"
  type := "module"
  body := "# Auth".toList
  covers := ["login", "oauth"]
  dependsOn := []
  lastSyncedCommit := commit
  stale := false
  staleReason := none
  extra := []
  distinct := List.nodup_nil
  names := fun _ h => nomatch h
  scalar := fun _ h => nomatch h

theorem auth_plain : (auth "").Plain .ascii fun c => c.toNat < 128 := by
  have hitem {x : String} (h : x ∈ (auth "").covers) : PlainItem x := by
    obtain rfl | h := List.mem_cons.1 h
    · exact ⟨by decide, by decide, by decide, by decide, by decide, by decide⟩
    · rw [List.mem_singleton.1 h]
      exact ⟨by decide, by decide, by decide, by decide, by decide, by decide⟩
  exact ⟨by decide, by decide, ⟨by decide, by decide, by decide, by decide, by decide, by decide⟩,
    ⟨by decide, by decide, by decide, by decide, by decide, by decide⟩, fun x hx => hitem hx,
    fun x hx => (nomatch hx), fun r hr => (nomatch hr), rfl, fun p hp => (nomatch hp)⟩

theorem auth_restored :
    (auth "").RoundTrips .ascii (fun c => c.toNat < 128) ["home"] (FileTree.root ["home"]) noon ∧
      ∃ t fm t₁ t₂ fm₂, read ["home"] t "auth" = some (fm, "# Auth".toList) ∧
        markStale .ascii (fun c => c.toNat < 128) ["home"] t "auth" "API changed" noon =
          (.ok true, t₁) ∧
        markFresh .ascii (fun c => c.toNat < 128) ["home"] t₁ "auth" noon = (.ok true, t₂) ∧
        read ["home"] t₂ "auth" = some (fm₂, "# Auth".toList) ∧
        ∀ k ∉ changed, fm₂.lookup k = fm.lookup k := by
  refine ⟨((documents_restored .init).1 (auth "") noon).2 auth_plain, ?_⟩
  obtain ⟨t, hw, -, hread⟩ := write_gives (Flat.root ["home"])
    ((auth "").gives .ascii (fun c => c.toNat < 128) noon) (by decide) auth_plain.file
    (auth "").body
  have ht : Reached .ascii (fun c => c.toNat < 128) ["home"] t := by
    have hr : Reached .ascii (fun c => c.toNat < 128) ["home"] (write .ascii
        (fun c => c.toNat < 128) ["home"] (FileTree.root ["home"]) "auth" (.str "module")
        (auth "").body (auth "").kwargs noon).2 := Reached.init.write ..
    rw [show write .ascii (fun c => c.toNat < 128) ["home"] (FileTree.root ["home"]) "auth"
      (.str "module") (auth "").body (auth "").kwargs noon = (.ok (), t) from hw] at hr
    exact hr
  rw [parse_clean (fun p hm => (auth_plain.clean p hm).1) (fun p hm => (auth_plain.clean p hm).2)]
    at hread
  obtain ⟨t₁, t₂, fm₂, hs, hf, hr, hk⟩ := (documents_restored ht).2 "auth" "API changed" _ _ noon
    noon hread auth_plain.steady ⟨by decide, by decide⟩
  exact ⟨t, _, t₁, t₂, fm₂, hread, hs, hf, hr, hk⟩

/-- A commit is not serialised. -/
theorem commit_dropped : ¬ (auth "0c0ffee").RoundTrips .ascii (fun c => c.toNat < 128) ["home"]
    (FileTree.root ["home"]) noon := by
  intro h
  exact absurd ((roundTrips_iff (.root ["home"])).1 h).lastSyncedCommit (by decide)

end Obase.KnowledgeStore
