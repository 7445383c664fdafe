import Obase.CausalGraph.Copies
import Obase.Concrete

namespace Obase.CausalGraph
set_option autoImplicit true
open Json

/-- An attribute that is there is put back. -/
def regain (attrs : Dict String (Attr F)) (k : String) (d : Dict String (Attr F)) :
    Dict String (Attr F) :=
  match attrs.lookup k with
  | none => d
  | some v => Dict.set k v d

/-- The attributes with the probabilities at the end, where `add_node` puts them. -/
def settle (attrs : Dict String (Attr F)) : Dict String (Attr F) :=
  regain attrs "cond_fail" (regain attrs "p_fail" (Dict.erase "cond_fail" (Dict.erase "p_fail" attrs)))

theorem lookup_regain {attrs d : Dict String (Attr F)} {k k' : String}
    (h : k' ≠ k → d.lookup k' = attrs.lookup k') (hk : d.lookup k = none) :
    (regain attrs k d).lookup k' = attrs.lookup k' := by
  rw [regain]
  by_cases he : k' = k
  · subst he
    cases attrs.lookup k' with
    | none => exact hk
    | some v => exact Dict.lookup_set_self ..
  · cases attrs.lookup k with
    | none => exact h he
    | some v => exact (Dict.lookup_set_ne he ..).trans (h he)

theorem lookup_settle (attrs : Dict String (Attr F)) (k : String) :
    (settle attrs).lookup k = attrs.lookup k := by
  apply lookup_regain
  · intro hk
    rw [regain]
    by_cases hp : k = "p_fail"
    · subst hp
      cases attrs.lookup "p_fail" with
      | none => rw [Dict.lookup_erase_ne hk, Dict.lookup_erase_self]
      | some v => exact Dict.lookup_set_self ..
    · have hr : (Dict.erase "cond_fail" (Dict.erase "p_fail" attrs)).lookup k = attrs.lookup k := by
        rw [Dict.lookup_erase_ne hk, Dict.lookup_erase_ne hp]
      cases attrs.lookup "p_fail" with
      | none => exact hr
      | some v => exact (Dict.lookup_set_ne hp ..).trans hr
  · rw [regain]
    cases attrs.lookup "p_fail" with
    | none => exact Dict.lookup_erase_self ..
    | some v => exact (Dict.lookup_set_ne (by decide) ..).trans (Dict.lookup_erase_self ..)

theorem regain_distinct {d : Dict String (Attr F)} (hd : Dict.Distinct d)
    (attrs : Dict String (Attr F)) (k : String) : Dict.Distinct (regain attrs k d) := by
  rw [regain]
  split
  · exact hd
  · exact hd.set _ _

theorem settle_distinct {attrs : Dict String (Attr F)} (hd : Dict.Distinct attrs) :
    Dict.Distinct (settle attrs) :=
  regain_distinct (regain_distinct ((hd.erase _).erase _) ..) ..

/-- The keys are those that were there. -/
theorem keys_settle {attrs : Dict String (Attr F)} {k : String} :
    k ∈ Dict.keys (settle attrs) ↔ k ∈ Dict.keys attrs := by
  rw [Dict.mem_keys_iff, Dict.mem_keys_iff, lookup_settle]

/-- What `_clean` makes of a stored attribute. -/
def cleaned : Attr F → Attr F
  | .table rows => .json (.list (rows.map fun r => .list [.list r.1, r.2]))
  | .tuple xs => .json (.list xs)
  | .json v => .json v

theorem addGiven_regain {kwargs attrs d : Dict String (Attr F)} {k : String}
    {convert : Attr F → Except PyError (Attr F)} (hnone : attrs.lookup k = none → kwargs.lookup k = none)
    (hsome : ∀ v, attrs.lookup k = some v →
      ∃ w, kwargs.lookup k = some w ∧ w ≠ .json .null ∧ convert w = .ok v) :
    addGiven kwargs k convert d = .ok (regain attrs k d) := by
  cases hv : attrs.lookup k with
  | none => rw [addGiven, regain, hv, hnone hv]
  | some v =>
    obtain ⟨w, hw, hnull, hc⟩ := hsome v hv
    rw [addGiven, regain, hv, hw]
    split
    · rename_i h
      cases h
    · rename_i h
      cases h
      exact (hnull rfl).elim
    · rename_i h
      cases h
      rw [hc]
      rfl

theorem distinct_of_hashable {v : Json F} (h : hashable v = true) : v.Distinct := by
  cases v with
  | list | dict => cases h
  | null | bool | int | float | str => trivial

section
variable [Builtins F]

/-- Rows with distinct keys are read back as they are. -/
theorem readRows_rows (pre : List (List (Json F) × Json F))
    {rows : List (List (Json F) × Json F)} (h : StoredRows (pre ++ rows)) :
    readRows pre (rows.map fun r => .list [.list r.1, r.2]) = .ok (pre ++ rows) := by
  induction rows generalizing pre with
  | nil => rw [List.append_nil, List.map_nil, readRows]
  | cons r rows ih =>
    obtain ⟨k, v⟩ := r
    obtain ⟨x, hx⟩ := h.2 (k, v) (List.mem_append_right _ (.head _))
    change v = _ at hx
    subst hx
    have hk : k.all hashable = true := h.1.1 k (List.mem_map_of_mem (f := Prod.fst)
      (List.mem_append_right pre (.head rows)))
    have hnew : ∀ k' ∈ pre.map Prod.fst, sameStates k' k = false := by
      intro k' hk'
      have hp := h.1.2
      rw [List.map_append] at hp
      exact (List.pairwise_append.1 hp).2.2 k' hk' k (.head _)
    have hih := ih (pre ++ [(k, .float x)]) (by rwa [List.append_assoc])
    rw [List.append_assoc, ← assign_of_new hnew] at hih
    rw [List.map_cons, readRows]
    change (if k.all hashable = true then
      readRows (assign k (.float x) pre) (rows.map fun r => .list [.list r.1, r.2])
      else .error .typeError) = _
    rw [if_pos hk]
    exact hih

/-- Stored attributes are passed on with the probabilities at the end, also when the table is given
in another form. -/
theorem StoredAttrs.nodeAttrs {attrs : Dict String (Attr F)} (h : StoredAttrs attrs)
    {f : Attr F → Attr F} (hj : ∀ v, f (.json v) = .json v)
    (ht : ∀ rows, StoredRows rows → f (.table rows) ≠ .json .null ∧
      convertCondFail (f (.table rows)) = .ok (.table rows)) :
    nodeAttrs (Dict.mapVals f attrs) = .ok (settle attrs) := by
  have hrest : Dict.erase "cond_fail" (Dict.erase "p_fail" (Dict.mapVals f attrs)) =
      Dict.erase "cond_fail" (Dict.erase "p_fail" attrs) := by
    rw [Dict.erase_mapVals, Dict.erase_mapVals, Dict.mapVals]
    refine (List.map_congr_left ?_).trans (List.map_id _)
    intro p hp
    obtain ⟨hm, hc⟩ := Dict.mem_erase.1 hp
    obtain ⟨hm, hp⟩ := Dict.mem_erase.1 hm
    have hs := h.stored p.1 p.2 ((Dict.lookup_eq_some_iff h.distinct).2 hm)
    rw [StoredAttr, if_neg hc, if_neg hp] at hs
    obtain ⟨w, hw, -⟩ := hs
    rw [hw, hj, ← hw]
    rfl
  have hgiven {k : String} {convert : Attr F → Except PyError (Attr F)}
      (hf : ∀ v, StoredAttr k v → f v ≠ .json .null ∧ convert (f v) = .ok v)
      (d : Dict String (Attr F)) :
      addGiven (Dict.mapVals f attrs) k convert d = .ok (regain attrs k d) := by
    apply addGiven_regain
    · intro hn
      rw [Dict.lookup_mapVals, hn]
      rfl
    · intro v hv
      refine ⟨f v, ?_, hf v (h.stored k v hv)⟩
      rw [Dict.lookup_mapVals, hv]
      rfl
  have hp : ∀ v, StoredAttr "p_fail" v → f v ≠ .json .null ∧ floatOf (f v) = .ok v := by
    intro v hv
    rw [StoredAttr, if_neg (by decide), if_pos rfl] at hv
    obtain ⟨x, rfl⟩ := hv
    rw [hj]
    exact ⟨by rintro ⟨⟩, rfl⟩
  have hc : ∀ v, StoredAttr "cond_fail" v →
      f v ≠ .json .null ∧ convertCondFail (f v) = .ok v := by
    intro v hv
    rw [StoredAttr, if_pos rfl] at hv
    obtain ⟨rows, rfl, hr⟩ := hv
    exact ht rows hr
  rw [CausalGraph.nodeAttrs, hrest, hgiven hp]
  exact hgiven hc _

theorem StoredAttrs.addNode {attrs : Dict String (Attr F)} (h : StoredAttrs attrs)
    {f : Attr F → Attr F} (ha : CausalGraph.nodeAttrs (Dict.mapVals f attrs) = .ok (settle attrs))
    (s : Store String F) (node : String) : s.addNode node (Dict.mapVals f attrs) =
      .ok ⟨s.graph.addNode node (settle attrs), s.version + 1⟩ := by
  have hk {k : String} (hm : k ∈ ["self", "node", "node_for_adding"]) : k ∉ Dict.keys attrs :=
    fun hin => h.callable k hin hm
  rw [Store.addNode, Dict.keys_mapVals, if_neg (by simp [hk]), ha]
  exact if_neg fun hm => hk (by simp) (keys_settle.1 hm)

/-- A table is read back from its JSON form. -/
theorem convertCondFail_cleaned {rows : List (List (Json F) × Json F)} (h : StoredRows rows) :
    cleaned (.table rows) ≠ .json .null ∧
      convertCondFail (cleaned (.table rows)) = .ok (.table rows) := by
  refine ⟨(fun he => nomatch he), ?_⟩
  rw [cleaned, convertCondFail, readRows_rows [] h]
  rfl

theorem StoredAttrs.addNode_self {attrs : Dict String (Attr F)} (h : StoredAttrs attrs)
    (s : Store String F) (node : String) :
    s.addNode node attrs = .ok ⟨s.graph.addNode node (settle attrs), s.version + 1⟩ := by
  have ht : ∀ rows : List (List (Json F) × Json F), StoredRows rows →
      id (.table rows) ≠ Attr.json .null ∧
        convertCondFail (id (.table rows)) = .ok (.table rows) := by
    intro rows hr
    refine ⟨(fun he => nomatch he), ?_⟩
    rw [id, convertCondFail, floatValues_of_float hr.2]
    rfl
  have hid : Dict.mapVals id attrs = attrs := List.map_id attrs
  have hadd := h.addNode (h.nodeAttrs (fun _ => rfl) ht) s node
  rwa [hid] at hadd

/-- Attributes in the form that `to_dict` gives them are stored as they were. -/
theorem StoredAttrs.addNode_cleaned {attrs : Dict String (Attr F)} (h : StoredAttrs attrs)
    (s : Store String F) (node : String) :
    s.addNode node (Dict.mapVals cleaned attrs) = s.addNode node attrs := by
  rw [h.addNode (h.nodeAttrs (fun _ => rfl) fun _ => convertCondFail_cleaned), h.addNode_self]

/-- `_clean` succeeds on a stored attribute, with a JSON value that has distinct keys. -/
theorem StoredAttr.clean {k : String} {v : Attr F} (h : StoredAttr k v) :
    ∃ w, cleanAttr k v = .ok w ∧ cleaned v = .json w ∧ w.Distinct := by
  rw [StoredAttr] at h
  split at h
  · rename_i hk
    obtain ⟨rows, rfl, hr⟩ := h
    refine ⟨_, if_pos hk, rfl, distinctList_iff.2 fun v hv => ?_⟩
    obtain ⟨r, hm, rfl⟩ := List.mem_map.1 hv
    obtain ⟨x, hx⟩ := hr.2 r hm
    rw [hx]
    refine ⟨distinctList_iff.2 fun c hc => ?_, trivial, trivial⟩
    exact distinct_of_hashable
      (List.all_eq_true.1 (hr.1.1 r.1 (List.mem_map_of_mem (f := Prod.fst) hm)) c hc)
  · rename_i hk
    have hj : ∃ w, v = .json w ∧ w.Distinct := by
      split at h
      · obtain ⟨x, rfl⟩ := h
        exact ⟨_, rfl, trivial⟩
      · exact h
    obtain ⟨w, rfl, hw⟩ := hj
    exact ⟨w, if_neg hk, rfl, hw⟩

theorem clean_stored {attrs : Dict String (Attr F)} (h : ∀ p ∈ attrs, StoredAttr p.1 p.2) :
    ∃ cs, clean attrs = .ok cs ∧ Dict.mapVals .json cs = Dict.mapVals cleaned attrs ∧
      Value.DistinctMembers cs := by
  induction attrs with
  | nil => exact ⟨[], rfl, rfl, trivial⟩
  | cons p attrs ih =>
    rw [List.forall_mem_cons] at h
    obtain ⟨w, hw, hc, hd⟩ := h.1.clean
    obtain ⟨cs, hcs, hm, hds⟩ := ih h.2
    refine ⟨(p.1, w) :: cs, ?_, ?_, hd, hds⟩
    · rw [clean] at hcs ⊢
      rw [List.mapM_cons, hw, hcs]
      rfl
    · rw [Dict.mapVals, List.map_cons, ← hc]
      exact congrArg _ hm

theorem StoredAttrs.clean {attrs : Dict String (Attr F)} (h : StoredAttrs attrs) :
    ∃ cs, clean attrs = .ok cs ∧ Dict.mapVals .json cs = Dict.mapVals cleaned attrs ∧
      (Value.dict cs).Distinct := by
  obtain ⟨cs, hcs, hm, hd⟩ := clean_stored fun p hp =>
    h.stored p.1 p.2 ((Dict.lookup_eq_some_iff h.distinct).2 hp)
  refine ⟨cs, hcs, hm, ?_, hd⟩
  have hk : Dict.keys cs = Dict.keys attrs := by
    rw [← Dict.keys_mapVals Attr.json cs, hm, Dict.keys_mapVals]
  rw [Dict.Distinct, hk]
  exact h.distinct

/-- The nodes in the form that `to_dict` gives them are loaded just as the nodes are copied. -/
theorem clean_nodes (ps : Dict String (Dict String (Attr F)))
    (h : ∀ p ∈ ps, StoredAttrs p.2) : ∃ items,
      (ps.mapM fun p => (clean p.2).map fun attrs => (p.1, Value.dict attrs)) = .ok items ∧
      Dict.keys items = Dict.keys ps ∧ Value.DistinctMembers items ∧
      ∀ s, loadNodes stringName s items = copyNodes s ps := by
  induction ps with
  | nil => exact ⟨[], rfl, rfl, trivial, fun s => rfl⟩
  | cons p ps ih =>
    rw [List.forall_mem_cons] at h
    obtain ⟨cs, hcs, hm, hd⟩ := h.1.clean
    obtain ⟨items, hi, hk, hds, hl⟩ := ih h.2
    refine ⟨(p.1, .dict cs) :: items, ?_, ?_, ⟨hd, hds⟩, fun s => ?_⟩
    · rw [List.mapM_cons, hcs, hi]
      rfl
    · rw [Dict.keys_cons, Dict.keys_cons, hk]
    · rw [loadNodes, copyNodes, hm]
      change ((s.addNode p.1 (Dict.mapVals cleaned p.2)).bind fun s =>
        loadNodes stringName s items) = _
      rw [h.1.addNode_cleaned, h.1.addNode_self]
      exact hl _

theorem copyNodes_ok {s : Store String F} {ps : Dict String (Dict String (Attr F))}
    (h : ∀ p ∈ ps, StoredAttrs p.2) (hd : Dict.Distinct (s.graph.nodes ++ ps)) :
    ∃ t, copyNodes s ps = .ok t ∧ t.graph.nodes = s.graph.nodes ++ Dict.mapVals settle ps ∧
      t.graph.edges = s.graph.edges := by
  induction ps generalizing s with
  | nil => exact ⟨s, rfl, (List.append_nil _).symm, rfl⟩
  | cons p ps ih =>
    rw [List.forall_mem_cons] at h
    have hnew : p.1 ∉ Dict.keys s.graph.nodes := by
      rw [Dict.Distinct, Dict.keys_append, List.nodup_append] at hd
      exact fun hm => hd.2.2 _ hm _ (.head _) rfl
    have hadd := DiGraph.addNode_new hnew (settle_distinct h.1.distinct)
    obtain ⟨t, ht, hn, he⟩ := ih (s := ⟨s.graph.addNode p.1 (settle p.2), s.version + 1⟩) h.2 (by
      rw [Dict.Distinct, Dict.keys_append] at hd ⊢
      rw [hadd, Dict.keys_append, List.append_assoc]
      exact hd)
    refine ⟨t, ?_, ?_, he⟩
    · rw [copyNodes, h.1.addNode_self]
      exact ht
    · rw [hn, hadd, List.append_assoc]
      rfl

/-- The node items of what `to_dict` returns. -/
theorem nodeItems_eq (items : List (String × Json F)) (edges : Json F) :
    nodeItems (.dict [("nodes", .dict items), ("edges", edges)]) = .ok items := by
  cases items with
  | nil => rfl
  | cons p items => rfl

theorem edgeItems_eq (nodes : Json F) (items : List (Json F)) :
    edgeItems (.dict [("nodes", nodes), ("edges", .list items)]) = .ok items := by
  cases items with
  | nil => rfl
  | cons item items => rfl

end

/-- Edges are added one after another. -/
def addEdges (s : Store String F) :
    List ((String × String) × Dict String (Attr F)) → Except (Failure String) (Store String F)
  | [] => .ok s
  | p :: ps =>
    match s.addEdge p.1.1 p.1.2 p.2 with
    | (.ok (), s) => addEdges s ps
    | (.error e, _) => .error e

theorem copyEdges_eq (target : String) (s : Store String F)
    (ps : List ((String × String) × Dict String (Attr F))) :
    copyEdges target s ps = addEdges s (ps.filter fun p => p.1.2 ≠ target) := by
  induction ps generalizing s with
  | nil => rfl
  | cons p ps ih =>
    rw [copyEdges, List.filter_cons]
    by_cases ht : p.1.2 = target
    · rw [if_pos ht, if_neg (by simpa using ht)]
      exact ih s
    · rw [if_neg ht, if_pos (by simpa using ht), addEdges]
      obtain ⟨e | ⟨⟩, t⟩ := s.addEdge p.1.1 p.1.2 p.2
      · rfl
      · exact ih t

theorem loadEdges_eq (s : Store String F)
    (ps : List ((String × String) × Dict String (Attr F))) :
    loadEdges stringName s (ps.map fun p => .list [.str p.1.1, .str p.1.2]) =
      addEdges s (ps.map fun p => (p.1, [])) := by
  induction ps generalizing s with
  | nil => rfl
  | cons p ps ih =>
    have hpair : ((unpack (.list [.str p.1.1, .str p.1.2] : Json F)).bind fun q =>
        (stringName q.1).bind fun u => (stringName q.2).map fun v => (u, v)) =
          .ok (p.1.1, p.1.2) := rfl
    rw [List.map_cons, List.map_cons, loadEdges, addEdges, hpair]
    dsimp only
    obtain ⟨e | ⟨⟩, t⟩ := s.addEdge p.1.1 p.1.2 []
    · rfl
    · exact ih t

/-- New edges between nodes that are there are all added where they close no loop. -/
theorem addEdges_ok {s : Store String F} (ps : List ((String × String) × Dict String (Attr F)))
    (hl : DiGraph.Loopless (Dict.keys (s.graph.edges ++ ps)))
    (hd : Dict.Distinct (s.graph.edges ++ ps))
    (he : ∀ p ∈ ps, p.1.1 ∈ Dict.keys s.graph.nodes ∧ p.1.2 ∈ Dict.keys s.graph.nodes)
    (ha : ∀ p ∈ ps, Dict.Distinct p.2 ∧ Callable p.2) :
    ∃ t, addEdges s ps = .ok t ∧ t.graph.nodes = s.graph.nodes ∧
      t.graph.edges = s.graph.edges ++ ps := by
  induction ps generalizing s with
  | nil => exact ⟨s, rfl, rfl, (List.append_nil _).symm⟩
  | cons p ps ih =>
    rw [List.forall_mem_cons] at he ha
    have hnew : p.1 ∉ Dict.keys s.graph.edges := by
      rw [Dict.Distinct, Dict.keys_append, List.nodup_append] at hd
      exact fun hm => hd.2.2 _ hm _ (.head _) rfl
    obtain ⟨hn, hes⟩ := DiGraph.addEdge_new hnew he.1.1 he.1.2 ha.1.1
    have happ : (s.graph.addEdge p.1.1 p.1.2 p.2).edges ++ ps = s.graph.edges ++ p :: ps := by
      rw [hes, List.append_assoc]
      rfl
    have hac : (s.graph.addEdge p.1.1 p.1.2 p.2).Acyclic := by
      refine DiGraph.Loopless.mono hl ?_
      rw [← happ, Dict.keys_append]
      exact List.subset_append_left ..
    obtain ⟨hc, -⟩ | ⟨-, -, hadd⟩ | ⟨-, hc, -⟩ := s.addEdge_cases p.1.1 p.1.2 p.2
    · exact (hc ha.1.2).elim
    · obtain ⟨t, ht, htn, hte⟩ := ih (s := ⟨s.graph.addEdge p.1.1 p.1.2 p.2, s.version + 1⟩)
        (by rwa [happ]) (by rwa [happ]) (by rw [hn]; exact he.2) ha.2
      refine ⟨t, ?_, htn.trans hn, hte.trans happ⟩
      rw [addEdges, hadd]
      exact ht
    · exact (hc hac).elim

section
variable [Builtins F] {s : Store String F}

theorem Built.edge (h : Built s) {p : (String × String) × Dict String (Attr F)}
    (hp : p ∈ s.graph.listEdges) : (p.1.1 ∈ Dict.keys s.graph.nodes ∧
      p.1.2 ∈ Dict.keys s.graph.nodes) ∧ Dict.Distinct p.2 ∧ Callable p.2 := by
  have hm := DiGraph.mem_listEdges.1 hp
  refine ⟨s.graph.ends _ (List.mem_map_of_mem hm), h.edges p.1 p.2 ?_⟩
  rw [DiGraph.lookup_edge]
  exact (Dict.lookup_eq_some_iff s.graph.edges_distinct).2 hm

theorem Built.loopless (h : Built s) : DiGraph.Loopless (Dict.keys s.graph.listEdges) :=
  DiGraph.Loopless.mono h.acyclic (s.graph.listEdges_perm.map Prod.fst).subset

/-- The nodes are copied with their attributes, and no edges. -/
theorem Built.copyNodes (h : Built s) : ∃ t, copyNodes .new s.graph.nodes = .ok t ∧
    t.graph.nodes = Dict.mapVals settle s.graph.nodes ∧ t.graph.edges = [] :=
  copyNodes_ok (s := .new) (fun p hp =>
    h.nodes p.1 p.2 ((Dict.lookup_eq_some_iff s.graph.nodes_distinct).2 hp)) s.graph.nodes_distinct

/-- Listed edges are added to the copied nodes. -/
theorem Built.addEdges (h : Built s) {t : Store String F}
    (hn : t.graph.nodes = Dict.mapVals settle s.graph.nodes) (he : t.graph.edges = [])
    (ps : List ((String × String) × Dict String (Attr F)))
    (hs : (Dict.keys ps).Sublist (Dict.keys s.graph.listEdges))
    (ha : ∀ p ∈ ps, Dict.Distinct p.2 ∧ Callable p.2) : ∃ c, CausalGraph.addEdges t ps = .ok c ∧
      c.graph.nodes = Dict.mapVals settle s.graph.nodes ∧ c.graph.edges = ps := by
  obtain ⟨c, hc, hcn, hce⟩ := addEdges_ok (s := t) ps
    (by
      rw [he]
      exact h.loopless.mono hs.subset)
    (by
      rw [he]
      exact s.graph.listEdges_distinct.sublist hs)
    (by
      intro p hp
      obtain ⟨q, hq, hk⟩ := List.mem_map.1 (hs.subset (List.mem_map_of_mem hp))
      rw [hn, Dict.keys_mapVals, ← hk]
      exact (h.edge hq).1)
    ha
  refine ⟨c, hc, hcn.trans hn, ?_⟩
  rw [hce, he]
  rfl

theorem Built.mutilatedCopy (h : Built s) {target : String}
    (ht : target ∈ Dict.keys s.graph.nodes) : ∃ c, s.mutilatedCopy target = .ok c ∧
      c.graph.nodes = Dict.mapVals settle s.graph.nodes ∧
      c.graph.edges = s.graph.listEdges.filter fun p => p.1.2 ≠ target := by
  obtain ⟨t, hc, hn, he⟩ := h.copyNodes
  obtain ⟨c, hadd, hcopy⟩ := h.addEdges hn he
    (s.graph.listEdges.filter fun p => p.1.2 ≠ target)
    (List.filter_sublist.map Prod.fst) fun p hp => (h.edge (List.mem_of_mem_filter hp)).2
  refine ⟨c, ?_, hcopy⟩
  rw [Store.mutilatedCopy, if_pos ht, hc]
  exact (copyEdges_eq ..).trans hadd

/-- What `to_dict` returns has distinct keys everywhere, and `from_dict` makes a store of it. -/
theorem Built.toDict (h : Built s) : ∃ d, s.toDict = .ok d ∧ d.Distinct ∧
    ∃ c, fromDict stringName d = .ok c ∧ c.graph.nodes = Dict.mapVals settle s.graph.nodes ∧
      c.graph.edges = s.graph.listEdges.map fun p => (p.1, []) := by
  obtain ⟨items, hi, hk, hd, hl⟩ := clean_nodes s.graph.nodes fun p hp =>
    h.nodes p.1 p.2 ((Dict.lookup_eq_some_iff s.graph.nodes_distinct).2 hp)
  obtain ⟨t, hc, hn, he⟩ := h.copyNodes
  obtain ⟨c, hadd, hcopy⟩ := h.addEdges hn he
    (s.graph.listEdges.map fun p => (p.1, []))
    (by rw [Dict.keys, List.map_map]; exact List.Sublist.refl _)
    (fun p hp => by
      obtain ⟨q, -, rfl⟩ := List.mem_map.1 hp
      exact ⟨List.nodup_nil, List.forall_mem_nil _⟩)
  have hdist : (Value.dict [("nodes", .dict items), ("edges", .list (s.graph.listEdges.map
      fun p => .list [.str p.1.1, .str p.1.2]))] : Json F).Distinct := by
    refine ⟨?_, ⟨?_, hd⟩, ?_, trivial⟩
    · change ["nodes", "edges"].Nodup
      decide
    · rw [Dict.Distinct, hk]
      exact s.graph.nodes_distinct
    · refine distinctList_iff.2 fun v hv => ?_
      obtain ⟨p, -, rfl⟩ := List.mem_map.1 hv
      exact ⟨trivial, trivial, trivial⟩
  refine ⟨_, ?_, hdist, c, ?_, hcopy⟩
  · rw [Store.toDict, hi]
    rfl
  · have hload : (Except.ok items : Except PyError _).bind (loadNodes stringName .new) = .ok t :=
      (hl _).trans hc
    rw [fromDict, nodeItems_eq, hload, edgeItems_eq]
    exact (loadEdges_eq ..).trans hadd

end

end Obase.CausalGraph

namespace Obase.CausalGraph
set_option autoImplicit true
open Json

/-- The store that calls build from a new one. -/
def build [Builtins F] (ops : List (Op String F)) : Store String F :=
  ops.foldl (Op.run stringName) Store.new

/-- No edge has attributes. -/
def BareEdges (g : DiGraph String (Attr F)) : Prop :=
  ∀ e attrs, g.edges.lookup e = some attrs → attrs = []

section
variable {g h : DiGraph String (Attr F)}

theorem lookup_settled (hn : h.nodes = Dict.mapVals settle g.nodes) (n k : String) :
    (h.nodes.lookup n).bind (·.lookup k) = (g.nodes.lookup n).bind (·.lookup k) := by
  rw [hn, Dict.lookup_mapVals]
  cases g.nodes.lookup n with
  | none => rfl
  | some attrs => exact lookup_settle attrs k

theorem lookup_listEdges (g : DiGraph String (Attr F)) (e : String × String) :
    g.listEdges.lookup e = g.edges.lookup e := by
  rw [DiGraph.lookup_edge, DiGraph.lookup_edge]
  exact Dict.lookup_perm g.edges_distinct g.listEdges_perm.symm e

/-- A copy by way of `to_dict` is faithful just when no edge has attributes, and the parents of
every node were linked to it in their order. -/
theorem same_dict_iff (hn : h.nodes = Dict.mapVals settle g.nodes)
    (he : h.edges = g.listEdges.map fun p => (p.1, [])) :
    Same g h (fun _ => True) ↔ BareEdges g ∧ ∀ v, InOrder g v := by
  have hk : Dict.keys h.edges = Dict.keys g.listEdges := by
    rw [he, Dict.keys, List.map_map]
    rfl
  have hl (e : String × String) : h.edges.lookup e = (g.edges.lookup e).map fun _ => [] := by
    rw [he, ← lookup_listEdges g, DiGraph.lookup_edge, DiGraph.lookup_edge]
    exact Dict.lookup_map_keyed (fun _ _ => []) _ e
  have hp (v : String) : h.parents v = g.parents v ↔ InOrder g v := by
    rw [DiGraph.parents, hk]
    exact g.parents_listEdges_eq_iff v
  constructor
  · intro hs
    refine ⟨fun e attrs ha => ?_, fun v => (hp v).1 (hs.parents v trivial)⟩
    have hes := hs.edges e trivial
    rw [hl, ha] at hes
    exact (Option.some.inj hes).symm
  · rintro ⟨hb, ho⟩
    refine ⟨by rw [hn, Dict.keys_mapVals], lookup_settled hn, fun e _ => ?_,
      fun e hc => (hc trivial).elim, fun v _ => (hp v).2 (ho v)⟩
    rw [hl]
    cases ha : g.edges.lookup e with
    | none => rfl
    | some attrs => rw [hb e attrs ha, Option.map_some]

/-- A mutilated copy is faithful just when the parents of every other node were linked to it in
their order. -/
theorem same_cut_iff {target : String} (hn : h.nodes = Dict.mapVals settle g.nodes)
    (he : h.edges = g.listEdges.filter fun p => p.1.2 ≠ target) :
    Same g h (· ≠ target) ↔ ∀ v, v ≠ target → InOrder g v := by
  have hd : Dict.Distinct h.edges := h.edges_distinct
  have hm (p : (String × String) × Dict String (Attr F)) :
      p ∈ h.edges ↔ p ∈ g.edges ∧ p.1.2 ≠ target := by
    rw [he, List.mem_filter, DiGraph.mem_listEdges, decide_eq_true_eq]
  have hl (e : String × String) (attrs : Dict String (Attr F)) :
      h.edges.lookup e = some attrs ↔ g.edges.lookup e = some attrs ∧ e.2 ≠ target := by
    rw [DiGraph.lookup_edge, DiGraph.lookup_edge, Dict.lookup_eq_some_iff hd,
      Dict.lookup_eq_some_iff g.edges_distinct]
    exact hm (e, attrs)
  have hp (v : String) (hv : v ≠ target) : h.parents v = g.parents v ↔ InOrder g v := by
    have hk : h.parents v = ((Dict.keys g.listEdges).filter fun e => e.2 = v).map Prod.fst := by
      rw [DiGraph.parents, he, Dict.keys, Dict.keys, List.filter_map, List.filter_map,
        List.filter_filter]
      congr 2
      refine List.filter_congr fun p _ => ?_
      by_cases hpv : p.1.2 = v
      · simp [hpv, hv]
      · simp [hpv]
    rw [hk]
    exact g.parents_listEdges_eq_iff v
  constructor
  · intro hs v hv
    exact (hp v hv).1 (hs.parents v hv)
  · intro ho
    refine ⟨by rw [hn, Dict.keys_mapVals], lookup_settled hn, fun e hk => ?_, fun e hk => ?_,
      fun v hv => (hp v hv).2 (ho v hv)⟩
    · apply Option.ext
      intro attrs
      rw [hl]
      exact and_iff_left hk
    · rw [Option.eq_none_iff_forall_ne_some]
      intro attrs ha
      exact hk ((hl e attrs).1 ha).2

end

section
variable [Builtins F] {s : Store String F}

theorem Built.dictCopy_same_iff (h : Built s) :
    (∃ c, s.dictCopy = .ok c ∧ Same s.graph c.graph fun _ => True) ↔
      BareEdges s.graph ∧ ∀ v, InOrder s.graph v := by
  obtain ⟨d, hd, -, c, hc, hn, he⟩ := h.toDict
  have hcopy : s.dictCopy = .ok c := by
    rw [Store.dictCopy, hd]
    exact hc
  rw [← same_dict_iff hn he]
  constructor
  · rintro ⟨c', hc', hs⟩
    rw [hcopy] at hc'
    cases hc'
    exact hs
  · exact fun hs => ⟨c, hcopy, hs⟩

/-- The JSON text gives what the dictionary gives. -/
theorem Built.jsonCopy (h : Built s) : s.jsonCopy = s.dictCopy := by
  obtain ⟨d, hd, hdist, -⟩ := h.toDict
  have hj : s.toJson = .ok (dumpsIndent 2 0 d) := by
    rw [Store.toJson, hd]
    rfl
  rw [Store.jsonCopy, Store.dictCopy, hd, hj]
  dsimp only
  rw [loads_dumpsIndent, Value.build_of_distinct d hdist]

theorem Built.mutilatedCopy_same_iff (h : Built s) {target : String}
    (ht : target ∈ Dict.keys s.graph.nodes) :
    (∃ c, s.mutilatedCopy target = .ok c ∧ Same s.graph c.graph (· ≠ target)) ↔
      ∀ v, v ≠ target → InOrder s.graph v := by
  obtain ⟨c, hcopy, hn, he⟩ := h.mutilatedCopy ht
  rw [← same_cut_iff hn he]
  constructor
  · rintro ⟨c', hc', hs⟩
    rw [hcopy] at hc'
    cases hc'
    exact hs
  · exact fun hs => ⟨c, hcopy, hs⟩

end

/-- The copies of a store that plain calls build are faithful just when the parents of every node,
for a mutilated copy of every other node, were linked to it in the order in which they were added,
and for the two copies by way of `to_dict` no edge has attributes. -/
theorem copies_faithful_iff [Builtins F] {ops : List (Op String F)} (hp : ∀ op ∈ ops, op.Plain) :
    ((∃ c, (build ops).dictCopy = .ok c ∧ Same (build ops).graph c.graph fun _ => True) ↔
      BareEdges (build ops).graph ∧ ∀ v, InOrder (build ops).graph v) ∧
    ((∃ c, (build ops).jsonCopy = .ok c ∧ Same (build ops).graph c.graph fun _ => True) ↔
      BareEdges (build ops).graph ∧ ∀ v, InOrder (build ops).graph v) ∧
    ∀ target ∈ Dict.keys (build ops).graph.nodes,
      ((∃ c, (build ops).mutilatedCopy target = .ok c ∧
          Same (build ops).graph c.graph (· ≠ target)) ↔
        ∀ v, v ≠ target → InOrder (build ops).graph v) := by
  have hb : Built (build ops) := Built.new.runs hp
  refine ⟨hb.dictCopy_same_iff, ?_, fun target ht => hb.mutilatedCopy_same_iff ht⟩
  rw [hb.jsonCopy]
  exact hb.dictCopy_same_iff

/-- A node that fails when the first of its two parents is down. -/
def condFail : Attr WholeFloat :=
  .table [([.int 1, .int 0], .int 1), ([.int 0, .int 1], .int 0)]

/-- Two nodes, and a third that they are linked to in an order. -/
def twoParents (first second : String) : List (Op String WholeFloat) :=
  [.addNode "a" [], .addNode "b" [], .addNode "c" [("cond_fail", condFail)],
    .addEdge first "c" [], .addEdge second "c" []]

theorem twoParents_plain (first second : String) :
    ∀ op ∈ twoParents first second, op.Plain := by
  have hnil : PlainArgs ([] : Dict String (Attr WholeFloat)) :=
    ⟨List.nodup_nil, fun _ h => (nomatch h), fun _ _ _ h => (nomatch h)⟩
  have hc : PlainArgs [("cond_fail", condFail)] := by
    refine ⟨List.nodup_singleton _, fun v hv => ?_, fun k v hk hv => ?_⟩
    · cases hv
      refine .inr (.inr ⟨_, rfl, ?_, ?_⟩)
      · exact List.forall_mem_cons.2 ⟨rfl, List.forall_mem_singleton.2 rfl⟩
      · exact List.pairwise_pair.2 (by decide)
    · rw [List.lookup_cons, beq_false_of_ne hk] at hv
      cases hv
  rw [twoParents]
  simp only [List.forall_mem_cons]
  exact ⟨hnil, hnil, hc, List.nodup_nil, List.nodup_nil, fun _ h => (nomatch h)⟩

/-- Parents that are linked in their order keep it in all copies. -/
theorem copies_in_order :
    (∃ c, (build (twoParents "a" "b")).jsonCopy = .ok c ∧
      Same (build (twoParents "a" "b")).graph c.graph fun _ => True) ∧
    ∃ c, (build (twoParents "a" "b")).mutilatedCopy "a" = .ok c ∧
      Same (build (twoParents "a" "b")).graph c.graph (· ≠ "a") := by
  have hparents (v : String) : InOrder (build (twoParents "a" "b")).graph v := by
    change ((([("a", "c"), ("b", "c")] : List (String × String)).filter
      fun e => e.2 = v).map Prod.fst).Sublist ["a", "b", "c"]
    by_cases hv : "c" = v
    · subst hv
      decide
    · rw [List.filter_eq_nil_iff.2 (by simp [hv])]
      exact List.nil_sublist _
  have hbare : BareEdges (build (twoParents "a" "b")).graph := by
    intro e attrs h
    rw [DiGraph.lookup_edge] at h
    have hall : ∀ p ∈ (build (twoParents "a" "b")).graph.edges, p.2 = [] :=
      List.forall_mem_cons.2 ⟨rfl, List.forall_mem_singleton.2 rfl⟩
    exact hall _ (Dict.lookup_mem h)
  obtain ⟨-, hj, hm⟩ := copies_faithful_iff (twoParents_plain "a" "b")
  exact ⟨hj.2 ⟨hbare, hparents⟩, (hm "a" (.head _)).2 fun v _ => hparents v⟩

/-- Parents that are linked in another order are swapped in all copies, under a table that is
kept. -/
theorem copies_swap_parents :
    (∀ op ∈ twoParents "b" "a", op.Plain) ∧
      (build (twoParents "b" "a")).graph.parents "c" = ["b", "a"] ∧
      (∃ c, (build (twoParents "b" "a")).dictCopy = .ok c ∧ c.graph.parents "c" = ["a", "b"]) ∧
      (∃ c, (build (twoParents "b" "a")).mutilatedCopy "b" = .ok c ∧
        c.graph.parents "c" = ["a", "b"]) :=
  ⟨twoParents_plain "b" "a", rfl, ⟨_, rfl, rfl⟩, ⟨_, rfl, rfl⟩⟩

end Obase.CausalGraph
