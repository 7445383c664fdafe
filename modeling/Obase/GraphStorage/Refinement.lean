import Obase.GraphStorage.Store

namespace Obase.GraphStorage
set_option autoImplicit true
open Json

theorem exists_of_forall_map {f : β → α} {P : β → Prop} {xs : List α}
    (h : ∀ x ∈ xs, ∃ y, P y ∧ x = f y) : ∃ ys : List β, xs = ys.map f ∧ ∀ y ∈ ys, P y := by
  induction xs with
  | nil => exact ⟨[], rfl, fun y hy => (nomatch hy)⟩
  | cons x xs ih =>
    rw [List.forall_mem_cons] at h
    obtain ⟨⟨y, hy, rfl⟩, hxs⟩ := h
    obtain ⟨ys, rfl, hys⟩ := ih hxs
    exact ⟨y :: ys, rfl, List.forall_mem_cons.2 ⟨hy, hys⟩⟩

theorem Op.apply_of_ne {m : String → Option (GraphNode F)} {op : Op F} {id : String}
    (h : id ≠ op.id) : op.apply m id = m id := by
  cases op with
  | save n => exact Function.update_of_ne h _ _
  | delete => exact Function.update_of_ne h _ _

theorem markdown_injective {cs ds : List Char} (h : markdown cs = markdown ds) : cs = ds :=
  List.append_cancel_right (String.ofList_injective h)

theorem markdown_suffix (cs : List Char) :
    ".md".toList.isSuffixOf (markdown cs).toList = true := by
  have ht : (markdown cs).toList = cs ++ ".md".toList := String.toList_ofList
  rw [ht, List.isSuffixOf_iff_suffix]
  exact List.suffix_append ..

section
variable (sha256 : List UInt8 → List UInt8)

theorem suffix_no_hyphen (id : String) : '-' ∉ suffix sha256 id := by
  intro h
  have hd := hex_digits _ _ (List.mem_of_mem_take h)
  revert hd
  decide

theorem suffix_of_hashedName {x y : String} (h : hashedName sha256 x = hashedName sha256 y) :
    suffix sha256 x = suffix sha256 y := by
  have hr := congrArg (Separated.rsplit '-') h
  rw [hashedName, hashedName, Separated.rsplit_append (suffix_no_hyphen sha256 x),
    Separated.rsplit_append (suffix_no_hyphen sha256 y)] at hr
  injection hr with hr
  injection hr

theorem filename_suffix (id : String) :
    ".md".toList.isSuffixOf (filename sha256 id).toList = true := by
  rw [filename]
  split
  · exact markdown_suffix _
  · exact markdown_suffix _

/-- No simple id is the hashed name of an unusual one. -/
def Apart (ids : Set String) : Prop :=
  ∀ x ∈ ids, ∀ y ∈ ids, isSimple x = true → isSimple y = false → x.toList ≠ hashedName sha256 y

/-- Ids that are apart have names of their own. -/
theorem filename_injOn {ids : Set String} (hs : Set.InjOn (suffix sha256) ids)
    (ha : Apart sha256 ids) : Set.InjOn (filename sha256) ids := by
  intro x hx y hy h
  rw [filename, filename] at h
  cases hsx : isSimple x with
  | true =>
    cases hsy : isSimple y with
    | true =>
      rw [if_pos hsx, if_pos hsy] at h
      exact String.toList_injective (markdown_injective h)
    | false =>
      rw [if_pos hsx, if_neg (Bool.eq_false_iff.1 hsy)] at h
      exact (ha x hx y hy hsx hsy (markdown_injective h)).elim
  | false =>
    cases hsy : isSimple y with
    | true =>
      rw [if_neg (Bool.eq_false_iff.1 hsx), if_pos hsy] at h
      exact (ha y hy x hx hsy hsx (markdown_injective h).symm).elim
    | false =>
      rw [if_neg (Bool.eq_false_iff.1 hsx), if_neg (Bool.eq_false_iff.1 hsy)] at h
      exact hs hx hy (suffix_of_hashedName sha256 (markdown_injective h))

theorem candidates_cases (id : String) :
    (candidates sha256 id = [filename sha256 id]) ∨
      (legacy sha256 id ≠ filename sha256 id ∧
        candidates sha256 id = [filename sha256 id, legacy sha256 id]) := by
  rw [candidates]
  split
  · exact .inl rfl
  · rename_i h
    exact .inr ⟨fun he => h he.symm, rfl⟩

end

section
variable {F : Type} [FloatText F] {sha256 : List UInt8 → List UInt8} {ids : Set String}
  {files : Files} {m : String → Option (GraphNode F)}

theorem Stored.empty : Stored (F := F) sha256 ids [] fun _ => none := by
  refine ⟨List.nodup_nil, fun id n h => (nomatch h), fun name content => ?_⟩
  constructor
  · intro h
    cases h
  · rintro ⟨n, h, -⟩
    cases h

/-- The page of a node is found under the name of its id. -/
theorem Stored.lookup (h : Stored sha256 ids files m) {id : String} {n : GraphNode F}
    (hm : m id = some n) : files.lookup (filename sha256 id) = some (page n) := by
  obtain ⟨he, -⟩ := h.known id n hm
  subst he
  exact (h.lookup_iff _ _).2 ⟨n, hm, rfl, rfl⟩

/-- What is found under a name is the page of a node. -/
theorem Stored.exists_node (h : Stored sha256 ids files m) {name : String} {content : List Char}
    (hl : files.lookup name = some content) : ∃ n, m n.nodeId = some n ∧ n.nodeId.1 ∈ ids ∧
      name = filename sha256 n.nodeId ∧ decode (firstLine content) = .ok (some n) := by
  obtain ⟨n, hm, hn, rfl⟩ := (h.lookup_iff _ _).1 hl
  obtain ⟨-, hi, hp⟩ := h.known _ _ hm
  exact ⟨n, hm, hi, hn, decode_page hp⟩

theorem Stored.lookup_none (h : Stored sha256 ids files m)
    (hf : Set.InjOn (filename sha256) ids) {id : String} (hi : id ∈ ids) (hm : m id = none) :
    files.lookup (filename sha256 id) = none := by
  cases hl : files.lookup (filename sha256 id) with
  | none => rfl
  | some content =>
    obtain ⟨n, hn, hin, he, -⟩ := h.exists_node hl
    rw [← hf hi hin he, hm] at hn
    cases hn

/-- A page under another name than that of the id is not found to be the id's. -/
theorem Stored.other (h : Stored sha256 ids files m) {id name : String} {content : List Char}
    (hl : files.lookup name = some content) (hne : name ≠ filename sha256 id) :
    ∃ n : GraphNode F, n.nodeId.1 ≠ id ∧ decode (firstLine content) = .ok (some n) := by
  obtain ⟨n, -, -, he, hd⟩ := h.exists_node hl
  refine ⟨n, ?_, hd⟩
  rintro rfl
  exact hne he

theorem Stored.getNode_eq (h : Stored sha256 ids files m)
    (hf : Set.InjOn (filename sha256) ids) {id : String} (hi : id ∈ ids)
    (hb : Text.notBlank id.toList = true) : getNode sha256 files id = .ok (m id) := by
  rw [getNode, if_pos hb]
  cases hm : m id with
  | some n =>
    obtain ⟨he, -, hp⟩ := h.known id n hm
    have hg (paths : List String) : getFrom files id (filename sha256 id)
        (filename sha256 id :: paths) = .ok (some n) := by
      rw [getFrom, h.lookup hm]
      dsimp only
      rw [decode_page hp]
      exact if_pos he
    obtain hc | ⟨-, hc⟩ := candidates_cases sha256 id
    · rw [hc, hg]
    · rw [hc, hg]
  | none =>
    have hl := h.lookup_none hf hi hm
    obtain hc | ⟨hne, hc⟩ := candidates_cases sha256 id
    · rw [hc, getFrom, hl]
      rfl
    · rw [hc, getFrom, hl]
      dsimp only
      rw [getFrom]
      cases hg : files.lookup (legacy sha256 id) with
      | none => rfl
      | some content =>
        obtain ⟨n, hn, hd⟩ := h.other hg hne
        dsimp only
        rw [hd]
        dsimp only
        rw [if_neg hn, if_neg hne]
        rfl

/-- Where a path other than that of the id comes last, nothing more is deleted. -/
theorem Stored.deleteFrom_legacy (h : Stored sha256 ids files m) {id path : String}
    (hne : path ≠ filename sha256 id) (removed : Bool) {files' : Files}
    (hs : files' = files ∨ files' = Dict.erase (filename sha256 id) files) :
    deleteFrom F id [path] files' removed = (.ok removed, files') := by
  have hl : files'.lookup path = files.lookup path := by
    rcases hs with rfl | rfl
    · rfl
    · exact Dict.lookup_erase_ne hne files
  rw [deleteFrom, hl]
  cases hg : files.lookup path with
  | none => rfl
  | some content =>
    obtain ⟨n, hn, hd⟩ := h.other hg hne
    dsimp only
    rw [hd]
    dsimp only
    rw [if_neg hn]
    rfl

theorem Stored.deleteNode_eq (h : Stored sha256 ids files m)
    (hf : Set.InjOn (filename sha256) ids) {id : String} (hi : id ∈ ids)
    (hb : Text.notBlank id.toList = true) : deleteNode sha256 F files id =
      (.ok (m id).isSome, Dict.erase (filename sha256 id) files) := by
  rw [deleteNode, if_pos hb]
  cases hm : m id with
  | some n =>
    obtain ⟨he, -, hp⟩ := h.known id n hm
    have hd (paths : List String) : deleteFrom F id (filename sha256 id :: paths) files false =
        deleteFrom F id paths (Dict.erase (filename sha256 id) files) true := by
      rw [deleteFrom, h.lookup hm]
      dsimp only
      rw [decode_page hp]
      exact if_pos he
    obtain hc | ⟨hne, hc⟩ := candidates_cases sha256 id
    · rw [hc, hd]
      rfl
    · rw [hc, hd]
      exact h.deleteFrom_legacy hne true (.inr rfl)
  | none =>
    have hl := h.lookup_none hf hi hm
    have he : Dict.erase (filename sha256 id) files = files := by
      rw [Dict.erase, List.filter_eq_self]
      intro p hp
      rw [decide_eq_true_eq]
      intro hk
      have hs := (Dict.lookup_eq_some_iff h.distinct).2 hp
      rw [hk, hl] at hs
      cases hs
    rw [he]
    obtain hc | ⟨hne, hc⟩ := candidates_cases sha256 id
    · rw [hc, deleteFrom, hl]
      rfl
    · rw [hc, deleteFrom, hl]
      exact h.deleteFrom_legacy hne false (.inl rfl)

theorem Stored.save (h : Stored sha256 ids files m) (hf : Set.InjOn (filename sha256) ids)
    {n : GraphNode F} (hi : n.nodeId.1 ∈ ids) (hp : n.Plain) :
    Stored sha256 ids (saveNode sha256 files n).2 (Function.update m n.nodeId (some n)) := by
  refine ⟨h.distinct.set _ _, fun id n' hm => ?_, fun name content => ?_⟩
  · by_cases hid : id = n.nodeId
    · subst hid
      rw [Function.update_self] at hm
      cases hm
      exact ⟨rfl, hi, hp⟩
    · rw [Function.update_of_ne hid] at hm
      exact h.known id n' hm
  · change (Dict.set (filename sha256 n.nodeId) (page n) files).lookup name = _ ↔ _
    by_cases hn : name = filename sha256 n.nodeId
    · subst hn
      rw [Dict.lookup_set_self, Option.some_inj]
      constructor
      · rintro rfl
        exact ⟨n, Function.update_self .., rfl, rfl⟩
      · rintro ⟨n', hm, he, rfl⟩
        by_cases hid : n'.nodeId.1 = n.nodeId
        · rw [hid, Function.update_self] at hm
          cases hm
          rfl
        · rw [Function.update_of_ne hid] at hm
          exact (hid (hf (h.known _ _ hm).2.1 hi he.symm)).elim
    · rw [Dict.lookup_set_ne hn, h.lookup_iff]
      apply exists_congr
      intro n'
      by_cases hid : n'.nodeId.1 = n.nodeId
      · rw [hid]
        exact iff_of_false (fun hx => hn hx.2.1) fun hx => hn hx.2.1
      · rw [Function.update_of_ne hid]

theorem Stored.delete (h : Stored sha256 ids files m) (hf : Set.InjOn (filename sha256) ids)
    {id : String} (hi : id ∈ ids) :
    Stored sha256 ids (Dict.erase (filename sha256 id) files) (Function.update m id none) := by
  refine ⟨h.distinct.erase _, fun id' n hm => ?_, fun name content => ?_⟩
  · by_cases hid : id' = id
    · subst hid
      rw [Function.update_self] at hm
      cases hm
    · rw [Function.update_of_ne hid] at hm
      exact h.known id' n hm
  · by_cases hn : name = filename sha256 id
    · subst hn
      rw [Dict.lookup_erase_self]
      constructor
      · intro hx
        cases hx
      · rintro ⟨n, hm, he, rfl⟩
        by_cases hid : n.nodeId.1 = id
        · rw [hid, Function.update_self] at hm
          cases hm
        · rw [Function.update_of_ne hid] at hm
          exact (hid (hf (h.known _ _ hm).2.1 hi he.symm)).elim
    · rw [Dict.lookup_erase_ne hn, h.lookup_iff]
      apply exists_congr
      intro n
      by_cases hid : n.nodeId.1 = id
      · rw [hid]
        exact iff_of_false (fun hx => hn hx.2.1) fun hx => hn hx.2.1
      · rw [Function.update_of_ne hid]

/-- A call on one of the ids does to the files what it does to the map. -/
theorem Stored.run (h : Stored sha256 ids files m) (hf : Set.InjOn (filename sha256) ids)
    (hb : ∀ id ∈ ids, Text.notBlank id.toList = true) {op : Op F} (ho : op.Within ids) :
    Stored sha256 ids (op.run sha256 files) (op.apply m) := by
  cases op with
  | save n => exact h.save hf ho.1 ho.2
  | delete id =>
    change Stored sha256 ids (deleteNode sha256 F files id).2 _
    rw [h.deleteNode_eq hf ho (hb id ho)]
    exact h.delete hf ho

theorem Stored.runAll (hf : Set.InjOn (filename sha256) ids)
    (hb : ∀ id ∈ ids, Text.notBlank id.toList = true) {ops : List (Op F)}
    (ho : ∀ op ∈ ops, op.Within ids) : Stored sha256 ids (runAll sha256 ops) (saved ops) := by
  induction ops using List.reverseRecOn with
  | nil => exact .empty
  | append_singleton ops op ih =>
    rw [GraphStorage.runAll, saved, List.foldl_concat, List.foldl_concat]
    exact (ih fun op' hm => ho op' (List.mem_append_left _ hm)).run hf hb (ho op (by simp))

theorem collect_nodes {ns : List (GraphNode F)} (hp : ∀ n ∈ ns, n.Plain)
    (d : Dict String (GraphNode F)) :
    collect d (ns.map fun n => (filename sha256 n.nodeId, page n)) =
      .ok ((ns.map fun n => (n.nodeId.1, n)).foldl (fun d p => Dict.set p.1 p.2 d) d) := by
  induction ns generalizing d with
  | nil => rfl
  | cons n ns ih =>
    rw [List.forall_mem_cons] at hp
    rw [List.map_cons, collect]
    dsimp only
    rw [decode_page hp.1]
    exact ih hp.2 _

theorem mem_pages {p : String × List Char} :
    p ∈ pages files ↔ p ∈ files ∧ ".md".toList.isSuffixOf p.1.toList = true := by
  rw [pages, List.mem_insertionSort, List.mem_filter]

/-- The pages that are listed are those of some nodes of the map, and of all of them. -/
theorem Stored.exists_pages (h : Stored sha256 ids files m) :
    ∃ ns : List (GraphNode F), pages files =
        ns.map (fun n => (filename sha256 n.nodeId, page n)) ∧ ∀ n ∈ ns, m n.nodeId = some n := by
  apply exists_of_forall_map
  rintro ⟨name, content⟩ hp
  have hl := (Dict.lookup_eq_some_iff h.distinct).2 (mem_pages.1 hp).1
  obtain ⟨n, hm, rfl, rfl⟩ := (h.lookup_iff _ _).1 hl
  exact ⟨n, hm, rfl⟩

theorem Stored.mem_pages (h : Stored sha256 ids files m) {n : GraphNode F}
    (hm : m n.nodeId = some n) : (filename sha256 n.nodeId, page n) ∈ pages files :=
  GraphStorage.mem_pages.2 ⟨Dict.lookup_mem (h.lookup hm), filename_suffix sha256 _⟩

theorem pages_nodup (h : Dict.Distinct files) : ((pages files).map Prod.fst).Nodup := by
  rw [pages, ((List.perm_insertionSort keyLe _).map Prod.fst).nodup_iff]
  exact List.Nodup.sublist (List.filter_sublist.map Prod.fst) h

theorem Stored.loadAll_eq (h : Stored sha256 ids files m)
    (hf : Set.InjOn (filename sha256) ids) :
    ∃ ns : List (GraphNode F), loadAll files = .ok ns ∧
      ns.Pairwise (fun a b => a.nodeId.1 < b.nodeId.1) ∧ ∀ n, n ∈ ns ↔ m n.nodeId = some n := by
  obtain ⟨ns, hpages, hns⟩ := h.exists_pages
  have hp : ∀ n ∈ ns, n.Plain := fun n hn => (h.known _ _ (hns n hn)).2.2
  have hd : Dict.Distinct (ns.map fun n => (n.nodeId.1, n)) := by
    have hnames := pages_nodup h.distinct
    rw [hpages, List.map_map] at hnames
    rw [Dict.Distinct, Dict.keys, List.map_map]
    apply List.Nodup.of_map (filename sha256)
    rw [List.map_map]
    exact hnames
  have hcollect : collect [] (pages files) = .ok (ns.map fun n => (n.nodeId.1, n)) := by
    rw [hpages, collect_nodes hp]
    exact congrArg Except.ok (Dict.ofPairs_of_distinct hd)
  have hvals : (ns.map fun n => (n.nodeId.1, n)).map Prod.snd = ns := by
    rw [List.map_map]
    exact List.map_id ns
  have hperm := List.mergeSort_perm ns fun a b => decide (a.nodeId.1 ≤ b.nodeId.1)
  refine ⟨ns.mergeSort fun a b => decide (a.nodeId.1 ≤ b.nodeId.1), ?_, ?_, fun n => ?_⟩
  · rw [loadAll, hcollect]
    dsimp only
    rw [hvals]
  · have htotal (a b : GraphNode F) :
        (decide (a.nodeId.1 ≤ b.nodeId.1) || decide (b.nodeId.1 ≤ a.nodeId.1)) = true := by
      simpa using le_total a.nodeId.1 b.nodeId.1
    have hle := @List.pairwise_mergeSort (GraphNode F)
      (fun a b => decide (a.nodeId.1 ≤ b.nodeId.1))
      (fun a b c hab hbc => decide_eq_true (le_trans (of_decide_eq_true hab)
        (of_decide_eq_true hbc))) htotal ns
    have hn : ((ns.mergeSort fun a b => decide (a.nodeId.1 ≤ b.nodeId.1)).map
        fun n => n.nodeId.1).Nodup := by
      rw [(hperm.map _).nodup_iff]
      rw [Dict.Distinct, Dict.keys, List.map_map] at hd
      exact hd
    exact (hle.and (List.pairwise_map.1 hn)).imp fun hlt =>
      lt_of_le_of_ne (of_decide_eq_true hlt.1) hlt.2
  · rw [hperm.mem_iff]
    refine ⟨hns n, fun hm => ?_⟩
    have hmem := h.mem_pages hm
    rw [hpages] at hmem
    obtain ⟨n', hn', he⟩ := List.mem_map.1 hmem
    injection he with he _
    have hid := hf (h.known _ _ (hns n' hn')).2.1 (h.known _ _ hm).2.1 he
    have hm' := hns n' hn'
    rw [hid, hm] at hm'
    cases hm'
    exact hn'

theorem Stored.isMap (h : Stored sha256 ids files m) (hf : Set.InjOn (filename sha256) ids)
    (hb : ∀ id ∈ ids, Text.notBlank id.toList = true) : IsMap sha256 ids files m := by
  refine ⟨fun id hi => h.getNode_eq hf hi (hb id hi), fun id hi => ?_, h.loadAll_eq hf,
    fun op ho id hi hne => ?_⟩
  · rw [h.deleteNode_eq hf hi (hb id hi)]
  · rw [(h.run hf hb ho).getNode_eq hf hi (hb id hi), h.getNode_eq hf hi (hb id hi),
      Op.apply_of_ne hne]

end

/-- A node with nothing but an id. -/
def bare (id : NonBlank) : GraphNode F := ⟨id, "", "", "", "", [], .str ""⟩

theorem bare_plain (id : NonBlank) : (bare id : GraphNode F).Plain := ⟨"", rfl⟩

section
variable {F : Type} [FloatText F] (sha256 : List UInt8 → List UInt8)

/-- A page that was saved over that of another id is taken for a wrong page of that id. -/
theorem getNode_overwritten {x y : NonBlank} (hne : x ≠ y)
    (hf : filename sha256 x.1 = filename sha256 y.1) :
    getNode (F := F) sha256 (runAll sha256 [.save (bare y : GraphNode F), .save (bare x)]) y.1 =
      .error .valueError := by
  have hl : (runAll sha256 [.save (bare y : GraphNode F), .save (bare x)]).lookup
      (filename sha256 y.1) = some (page (bare x : GraphNode F)) := by
    rw [← hf]
    exact Dict.lookup_set_self ..
  have hid : (bare x : GraphNode F).nodeId.1 ≠ y.1 := fun h => hne (Subtype.ext h)
  have hg (paths : List String) : getFrom
      (runAll sha256 [.save (bare y : GraphNode F), .save (bare x)]) y.1 (filename sha256 y.1)
      (filename sha256 y.1 :: paths) = (.error .valueError : Except _ (Option (GraphNode F))) := by
    rw [getFrom, hl]
    dsimp only
    rw [decode_page (bare_plain x)]
    dsimp only
    rw [if_neg hid, if_pos rfl]
  rw [getNode, if_pos y.2]
  obtain hc | ⟨-, hc⟩ := candidates_cases sha256 y.1
  · rw [hc, hg]
  · rw [hc, hg]

variable (F) in
/-- Whatever calls on some ids are made on an empty root, the store is the map of the nodes saved
last, exactly when none of the simple ids is the hashed name of an unusual one. -/
theorem refines_iff (ids : Set String) (hb : ∀ id ∈ ids, Text.notBlank id.toList = true)
    (hs : Set.InjOn (suffix sha256) ids) :
    (∀ ops : List (Op F), (∀ op ∈ ops, op.Within ids) →
        IsMap sha256 ids (runAll sha256 ops) (saved ops)) ↔
      Apart sha256 ids := by
  constructor
  · intro h x hx y hy hsx hsy he
    have hne : (⟨x, hb x hx⟩ : NonBlank) ≠ ⟨y, hb y hy⟩ := by
      intro heq
      injection heq with heq
      rw [heq, hsy] at hsx
      cases hsx
    have hf : filename sha256 x = filename sha256 y := by
      rw [filename, filename, if_pos hsx, if_neg (Bool.eq_false_iff.1 hsy), he]
    have hm := (h [.save (bare ⟨y, hb y hy⟩), .save (bare ⟨x, hb x hx⟩)] (by
      intro op ho
      simp only [List.mem_cons, List.not_mem_nil, or_false] at ho
      obtain rfl | rfl := ho
      · exact ⟨hy, bare_plain _⟩
      · exact ⟨hx, bare_plain _⟩)).get y hy
    rw [getNode_overwritten sha256 hne hf] at hm
    cases hm
  · intro ha ops ho
    have hf := filename_injOn sha256 hs ha
    exact (Stored.runAll hf hb ho).isMap hf hb

end

/-- SHA-256 of three ids. -/
def idDigest : List UInt8 → List UInt8 := knownDigest [
  ("/", "8a5edab282632443219e051e4ade2d1d5bbc671c781051bf1437897cbdfea0f1"),
  ("node-8a5edab28263", "963d849f8e6efb9930c69bd426b79b9d6d9a2f871713b154d79aeb647cf104ee"),
  ("alpha", "8ed3f6ad685b959ead7022518e1af76cd816f8e8ec7ccdda1ed4018e8f2223f8")]

/-- A simple id and an unusual one do not disturb each other. -/
theorem refines_alpha_slash :
    let ops : List (Op WholeFloat) :=
      [.save (bare ⟨"alpha", by decide⟩), .save (bare ⟨"/", by decide⟩), .delete "alpha"]
    IsMap idDigest {"alpha", "/"} (runAll idDigest ops) (saved ops) := by
  intro ops
  have ho : ∀ op ∈ ops, op.Within {"alpha", "/"} := by
    intro op ho
    simp only [ops, List.mem_cons, List.not_mem_nil, or_false] at ho
    obtain rfl | rfl | rfl := ho
    · exact ⟨.inl rfl, bare_plain _⟩
    · exact ⟨.inr rfl, bare_plain _⟩
    · exact .inl rfl
  have hb : ∀ id ∈ ({"alpha", "/"} : Set String), Text.notBlank id.toList = true := by
    rintro _ (rfl | rfl)
    · decide
    · decide
  have hs : Set.InjOn (suffix idDigest) {"alpha", "/"} := by
    rw [Set.injOn_pair]
    exact fun h => absurd h (by decide +kernel)
  refine (refines_iff WholeFloat idDigest _ hb hs).2 ?_ ops ho
  rintro _ (rfl | rfl) _ (rfl | rfl) hx hy
  · cases hy
  · decide +kernel
  · cases hx
  · cases hx

/-- A simple id that is the hashed name of the path `/` takes its page. -/
theorem slash_overwritten :
    let y : NonBlank := ⟨"/", by decide⟩
    let x : NonBlank := ⟨"node-8a5edab28263", by decide⟩
    let ops : List (Op WholeFloat) := [.save (bare y), .save (bare x)]
    Set.InjOn (suffix idDigest) {x.1, y.1} ∧ (∀ op ∈ ops, op.Within {x.1, y.1}) ∧
      ¬ IsMap idDigest {x.1, y.1} (runAll idDigest ops) (saved ops) := by
  intro y x ops
  have hne : x ≠ y := by decide
  have hf : filename idDigest x.1 = filename idDigest y.1 := by decide +kernel
  refine ⟨?_, ?_, fun h => ?_⟩
  · rw [Set.injOn_pair]
    exact fun h => absurd h (by decide +kernel)
  · intro op ho
    simp only [ops, List.mem_cons, List.not_mem_nil, or_false] at ho
    obtain rfl | rfl := ho
    · exact ⟨.inr rfl, bare_plain y⟩
    · exact ⟨.inl rfl, bare_plain x⟩
  · have hg := h.get y.1 (.inr rfl)
    rw [getNode_overwritten idDigest hne hf] at hg
    cases hg

end Obase.GraphStorage
