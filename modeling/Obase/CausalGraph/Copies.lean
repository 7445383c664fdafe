import Obase.CausalGraph.Acyclic
import Obase.Json.Canonical
import Obase.Json.Indent

namespace Obase.CausalGraph
set_option autoImplicit true
open Json

section
variable [Builtins F]

/-- The value of an attribute in the JSON form. A dictionary whose keys are no strings has one only
as a `cond_fail`. -/
def cleanAttr (k : String) (v : Attr F) : Except PyError (Json F) :=
  if k = "cond_fail" then
    match v with
    | .table rows => .ok (.list (rows.map fun r => .list [.list r.1, r.2]))
    | .json (.dict ms) =>
      .ok (.list (ms.map fun p =>
        .list [.list (p.1.toList.map fun c => .str (String.singleton c)), p.2]))
    | _ => .error .attributeError
  else
    match v with
    | .json w => .ok w
    | .tuple xs => .ok (.list xs)
    | .table _ => .error .typeError

/-- `_clean`. -/
def clean (attrs : Dict String (Attr F)) : Except PyError (Dict String (Json F)) :=
  attrs.mapM fun p => (cleanAttr p.1 p.2).map fun v => (p.1, v)

def Store.toDict (s : Store String F) : Except PyError (Json F) :=
  (s.graph.nodes.mapM fun p => (clean p.2).map fun attrs => (p.1, Value.dict attrs)).map
    fun nodes => .dict [("nodes", .dict nodes),
      ("edges", .list (s.graph.listEdges.map fun p => .list [.str p.1.1, .str p.1.2]))]

def Store.toJson (s : Store String F) : Except PyError (List Char) :=
  s.toDict.map (dumpsIndent 2 0)

/-- `from_dict(to_dict(s))`. -/
def Store.dictCopy (s : Store String F) : Except (Failure String) (Store String F) :=
  match s.toDict with
  | .ok d => fromDict stringName d
  | .error e => .error (.raised e)

/-- `from_dict(json.loads(to_json(s)))`. -/
def Store.jsonCopy (s : Store String F) : Except (Failure String) (Store String F) :=
  match s.toJson with
  | .ok cs =>
    match loads cs with
    | some v => fromDict stringName v
    | none => .error (.raised .valueError)
  | .error e => .error (.raised e)

/-- The rows of a dictionary whose keys are tuples of states. -/
def Rows (rows : List (List (Json F) × Json F)) : Prop :=
  (∀ k ∈ rows.map Prod.fst, k.all hashable = true) ∧
    (rows.map Prod.fst).Pairwise fun k k' => sameStates k k' = false

/-- The arguments are JSON values, except that `cond_fail` is a dictionary whose keys are tuples of
states, or its JSON form. -/
structure PlainArgs (kwargs : Dict String (Attr F)) : Prop where
  distinct : Dict.Distinct kwargs
  condFail : ∀ v, kwargs.lookup "cond_fail" = some v →
    v = .json .null ∨ (∃ items, v = .json (.list items)) ∨ ∃ rows, v = .table rows ∧ Rows rows
  other : ∀ k v, k ≠ "cond_fail" → kwargs.lookup k = some v → ∃ w, v = .json w ∧ w.Distinct

/-- A call that builds a graph. -/
def Op.Plain : Op String F → Prop
  | .addNode _ kwargs => PlainArgs kwargs
  | .addEdge _ _ kwargs => Dict.Distinct kwargs
  | _ => False

end

/-- Two graphs have the same nodes with the same attributes, the same edges into the nodes that are
kept with the same attributes, no others, and the same parents of the nodes that are kept. -/
structure Same (g h : DiGraph String (Attr F)) (kept : String → Prop) : Prop where
  nodes : Dict.keys h.nodes = Dict.keys g.nodes
  attrs : ∀ n k, (h.nodes.lookup n).bind (·.lookup k) = (g.nodes.lookup n).bind (·.lookup k)
  edges : ∀ e, kept e.2 → h.edges.lookup e = g.edges.lookup e
  cut : ∀ e, ¬ kept e.2 → h.edges.lookup e = none
  parents : ∀ v, kept v → h.parents v = g.parents v

/-- The parents of the node were linked to it in the order in which they were added as nodes. -/
def InOrder (g : DiGraph String (Attr F)) (v : String) : Prop :=
  (g.parents v).Sublist (Dict.keys g.nodes)

theorem addGiven_ok {kwargs attrs attrs' : Dict String (Attr F)} {k : String}
    {convert : Attr F → Except PyError (Attr F)}
    (h : addGiven kwargs k convert attrs = .ok attrs') : attrs' = attrs ∨
      ∃ v w, kwargs.lookup k = some v ∧ convert v = .ok w ∧ attrs' = Dict.set k w attrs := by
  rw [addGiven] at h
  split at h
  · cases h
    exact .inl rfl
  · cases h
    exact .inl rfl
  · rename_i v _ hv
    obtain ⟨w, hw, rfl⟩ := map_ok h
    exact .inr ⟨v, w, hv, hw, rfl⟩

section
variable [Builtins F]

/-- The rows of a stored `cond_fail`. -/
def StoredRows (rows : List (List (Json F) × Json F)) : Prop :=
  Rows rows ∧ ∀ r ∈ rows, ∃ x, r.2 = .float x

/-- An attribute as `add_node` stores it. -/
def StoredAttr (k : String) (v : Attr F) : Prop :=
  if k = "cond_fail" then ∃ rows, v = .table rows ∧ StoredRows rows
  else if k = "p_fail" then ∃ x, v = .json (.float x)
  else ∃ w, v = .json w ∧ w.Distinct

/-- The attributes of a node that was built. -/
structure StoredAttrs (attrs : Dict String (Attr F)) : Prop where
  distinct : Dict.Distinct attrs
  callable : ∀ k ∈ Dict.keys attrs, k ∉ ["self", "node", "node_for_adding"]
  stored : ∀ k v, attrs.lookup k = some v → StoredAttr k v

/-- A store that was built by calls of `add_node` and `add_edge`. -/
structure Built (s : Store String F) : Prop where
  acyclic : s.Acyclic
  nodes : ∀ n attrs, s.graph.nodes.lookup n = some attrs → StoredAttrs attrs
  edges : ∀ e attrs, s.graph.edges.lookup e = some attrs → Dict.Distinct attrs ∧ Callable attrs

/-- A value is assigned to a key that is there, or the key is new and comes last. -/
theorem assign_cases (k : List (Json F)) (v : Json F) (rows : List (List (Json F) × Json F)) :
    (assign k v rows).map Prod.fst = rows.map Prod.fst ∨
      assign k v rows = rows ++ [(k, v)] ∧ ∀ k' ∈ rows.map Prod.fst, sameStates k' k = false := by
  induction rows with
  | nil => exact .inr ⟨rfl, fun k' hk' => (nomatch hk')⟩
  | cons r rows ih =>
    rw [assign]
    split
    · exact .inl rfl
    · rename_i hr
      obtain he | ⟨he, hn⟩ := ih
      · exact .inl (by rw [List.map_cons, List.map_cons, he])
      · refine .inr ⟨by rw [he]; rfl, ?_⟩
        exact List.forall_mem_cons.2 ⟨Bool.eq_false_iff.2 hr, hn⟩

theorem assign_of_new {k : List (Json F)} {rows : List (List (Json F) × Json F)}
    (h : ∀ k' ∈ rows.map Prod.fst, sameStates k' k = false) (v : Json F) :
    assign k v rows = rows ++ [(k, v)] := by
  induction rows with
  | nil => rfl
  | cons r rows ih =>
    rw [List.map_cons, List.forall_mem_cons] at h
    rw [assign, if_neg (by rw [h.1]; exact Bool.false_ne_true), ih h.2]
    rfl

theorem StoredRows.assign {k : List (Json F)} {x : PyFloat F}
    {rows : List (List (Json F) × Json F)} (h : StoredRows rows) (hk : k.all hashable = true) :
    StoredRows (assign k (.float x) rows) := by
  have hv : ∀ r ∈ CausalGraph.assign k (.float x) rows, r.2 = .float x ∨ r ∈ rows := by
    clear h
    induction rows with
    | nil =>
      intro r hr
      rw [List.mem_singleton.1 hr]
      exact .inl rfl
    | cons q rows ih =>
      intro r hr
      rw [CausalGraph.assign] at hr
      split at hr
      · obtain rfl | hr := List.mem_cons.1 hr
        · exact .inl rfl
        · exact .inr (.tail _ hr)
      · obtain rfl | hr := List.mem_cons.1 hr
        · exact .inr (.head _)
        · exact (ih r hr).imp_right (.tail _)
  refine ⟨?_, fun r hr => ?_⟩
  · obtain he | ⟨he, hn⟩ := assign_cases k (.float x) rows
    · rw [Rows, he]
      exact h.1
    · rw [Rows, he, List.map_append]
      refine ⟨List.forall_mem_append.2 ⟨h.1.1, List.forall_mem_singleton.2 hk⟩, ?_⟩
      refine List.pairwise_append.2 ⟨h.1.2, List.pairwise_singleton .., fun k' hk' k'' hk'' => ?_⟩
      rw [List.mem_singleton.1 hk'']
      exact hn k' hk'
  · obtain he | hm := hv r hr
    · exact ⟨x, he⟩
    · exact h.2 r hm

theorem StoredRows.readRows {items : List (Json F)} {rows rows' : List (List (Json F) × Json F)}
    (h : StoredRows rows) (hr : readRows rows items = .ok rows') : StoredRows rows' := by
  induction items generalizing rows with
  | nil =>
    cases hr
    exact h
  | cons item items ih =>
    rw [CausalGraph.readRows] at hr
    obtain ⟨⟨k, v⟩, -, hr⟩ := bind_ok hr
    obtain ⟨ks, -, hr⟩ := bind_ok hr
    obtain ⟨x, -, hr⟩ := bind_ok hr
    split at hr
    · rename_i hk
      exact ih (h.assign hk) hr
    · cases hr

/-- Only the values of the rows become floats. -/
theorem floatValues_ok {κ : Type} {rows rows' : List (κ × Json F)}
    (h : floatValues rows = .ok rows') : rows'.map Prod.fst = rows.map Prod.fst ∧
      ∀ r ∈ rows', ∃ x, r.2 = .float x := by
  induction rows generalizing rows' with
  | nil =>
    cases h
    exact ⟨rfl, fun r hr => (nomatch hr)⟩
  | cons r rows ih =>
    obtain ⟨q, qs, hq, hqs, rfl⟩ := mapM_cons_ok h
    obtain ⟨x, -, rfl⟩ := map_ok hq
    obtain ⟨hk, hv⟩ := ih hqs
    exact ⟨by rw [List.map_cons, List.map_cons, hk], List.forall_mem_cons.2 ⟨⟨x, rfl⟩, hv⟩⟩

theorem floatValues_of_float {κ : Type} {rows : List (κ × Json F)}
    (h : ∀ r ∈ rows, ∃ x, r.2 = .float x) : floatValues rows = .ok rows := by
  induction rows with
  | nil => rfl
  | cons r rows ih =>
    rw [List.forall_mem_cons] at h
    obtain ⟨⟨x, hx⟩, hrows⟩ := h
    obtain ⟨k, v⟩ := r
    change v = _ at hx
    subst hx
    have hr := ih hrows
    rw [floatValues] at hr ⊢
    rw [List.mapM_cons, hr]
    rfl

theorem StoredRows.nil : StoredRows ([] : List (List (Json F) × Json F)) :=
  ⟨⟨fun _ hk => (nomatch hk), List.Pairwise.nil⟩, fun _ hr => (nomatch hr)⟩

theorem PlainArgs.condFail_stored {kwargs : Dict String (Attr F)} (h : PlainArgs kwargs)
    {v w : Attr F} (hv : kwargs.lookup "cond_fail" = some v) (hc : convertCondFail v = .ok w) :
    ∃ rows, w = .table rows ∧ StoredRows rows := by
  obtain rfl | ⟨items, rfl⟩ | ⟨rows, rfl, hr⟩ := h.condFail v hv
  · cases hc
  · obtain ⟨rows, hr, rfl⟩ := map_ok hc
    exact ⟨rows, rfl, StoredRows.nil.readRows hr⟩
  · obtain ⟨rows', hr', rfl⟩ := map_ok hc
    obtain ⟨hk, hf⟩ := floatValues_ok hr'
    refine ⟨rows', rfl, ?_, hf⟩
    rw [Rows, hk]
    exact hr

/-- What `add_node` makes of plain arguments. -/
theorem PlainArgs.nodeAttrs {kwargs attrs : Dict String (Attr F)} (h : PlainArgs kwargs)
    (ha : nodeAttrs kwargs = .ok attrs) : Dict.Distinct attrs ∧
      (∀ k ∈ Dict.keys attrs, k ∈ Dict.keys kwargs) ∧
      ∀ k v, attrs.lookup k = some v → StoredAttr k v := by
  obtain ⟨attrs₁, h₁, h₂⟩ := bind_ok ha
  have hd₀ : Dict.Distinct (Dict.erase "cond_fail" (Dict.erase "p_fail" kwargs)) :=
    (h.distinct.erase _).erase _
  have hk₀ : ∀ k ∈ Dict.keys (Dict.erase "cond_fail" (Dict.erase "p_fail" kwargs)),
      k ∈ Dict.keys kwargs := fun k hk => (Dict.mem_keys_erase.1 (Dict.mem_keys_erase.1 hk).1).1
  have hs₀ : ∀ k v, (Dict.erase "cond_fail" (Dict.erase "p_fail" kwargs)).lookup k = some v →
      StoredAttr k v := by
    intro k v hv
    have hm := Dict.mem_erase.1 (Dict.lookup_mem hv)
    have hm' := Dict.mem_erase.1 hm.1
    rw [StoredAttr, if_neg hm.2, if_neg hm'.2]
    exact h.other k v hm.2 ((Dict.lookup_eq_some_iff h.distinct).2 hm'.1)
  have hstep {attrs attrs' : Dict String (Attr F)} {k : String}
      {convert : Attr F → Except PyError (Attr F)} (hd : Dict.Distinct attrs)
      (hk : ∀ k ∈ Dict.keys attrs, k ∈ Dict.keys kwargs)
      (hs : ∀ k v, attrs.lookup k = some v → StoredAttr k v)
      (hc : ∀ v w, kwargs.lookup k = some v → convert v = .ok w → StoredAttr k w)
      (hg : addGiven kwargs k convert attrs = .ok attrs') : Dict.Distinct attrs' ∧
        (∀ k ∈ Dict.keys attrs', k ∈ Dict.keys kwargs) ∧
        ∀ k v, attrs'.lookup k = some v → StoredAttr k v := by
    obtain rfl | ⟨v, w, hv, hw, rfl⟩ := addGiven_ok hg
    · exact ⟨hd, hk, hs⟩
    · refine ⟨hd.set _ _, fun k' hk' => ?_, fun k' v' hv' => ?_⟩
      · obtain rfl | hk' := Dict.mem_keys_set.1 hk'
        · exact Dict.mem_keys_iff.2 ⟨v, hv⟩
        · exact hk k' hk'
      · by_cases he : k' = k
        · subst he
          rw [Dict.lookup_set_self] at hv'
          cases hv'
          exact hc v w hv hw
        · rw [Dict.lookup_set_ne he] at hv'
          exact hs k' v' hv'
  have hp : ∀ v w, kwargs.lookup "p_fail" = some v → floatOf v = .ok w →
      StoredAttr "p_fail" w := by
    intro v w hv hw
    rw [StoredAttr, if_neg (by decide), if_pos rfl]
    obtain ⟨u, rfl, -⟩ := h.other "p_fail" v (by decide) hv
    obtain ⟨x, -, rfl⟩ := map_ok hw
    exact ⟨x, rfl⟩
  obtain ⟨hd₁, hk₁, hs₁⟩ := hstep hd₀ hk₀ hs₀ hp h₁
  refine hstep hd₁ hk₁ hs₁ ?_ h₂
  intro v w hv hw
  rw [StoredAttr, if_pos rfl]
  exact h.condFail_stored hv hw

theorem StoredAttrs.nil : StoredAttrs ([] : Dict String (Attr F)) :=
  ⟨List.nodup_nil, fun _ h => (nomatch h), fun _ _ h => (nomatch h)⟩

theorem StoredAttrs.update {a b : Dict String (Attr F)} (ha : StoredAttrs a)
    (hb : StoredAttrs b) : StoredAttrs (Dict.update a b) := by
  have hl (k : String) (v : Attr F) (h : (Dict.update a b).lookup k = some v) :
      b.lookup k = some v ∨ a.lookup k = some v := by
    rw [Dict.lookup_update hb.distinct] at h
    cases hv : b.lookup k with
    | none =>
      rw [hv] at h
      exact .inr h
    | some w =>
      rw [hv] at h
      exact .inl h
  refine ⟨ha.distinct.update b, fun k hk => ?_, fun k v h => ?_⟩
  · obtain ⟨v, hv⟩ := Dict.mem_keys_iff.1 hk
    obtain h | h := hl k v hv
    · exact hb.callable k (Dict.mem_keys_iff.2 ⟨v, h⟩)
    · exact ha.callable k (Dict.mem_keys_iff.2 ⟨v, h⟩)
  · obtain h | h := hl k v h
    · exact hb.stored k v h
    · exact ha.stored k v h

/-- A call of `add_node` with plain arguments stores them in their converted form. -/
theorem Store.addNode_stored {s t : Store String F} {node : String}
    {kwargs : Dict String (Attr F)} (h : PlainArgs kwargs) (ht : s.addNode node kwargs = .ok t) :
    ∃ attrs, StoredAttrs attrs ∧ t = ⟨s.graph.addNode node attrs, s.version + 1⟩ := by
  rw [Store.addNode] at ht
  split at ht
  · cases ht
  · rename_i hn
    push Not at hn
    split at ht
    · cases ht
    · rename_i attrs ha
      split at ht
      · cases ht
      · rename_i hg
        cases ht
        obtain ⟨hd, hk, hs⟩ := h.nodeAttrs ha
        refine ⟨attrs, ⟨hd, fun k hm => ?_, hs⟩, rfl⟩
        intro hc
        simp only [List.mem_cons, List.not_mem_nil, or_false] at hc
        obtain rfl | rfl | rfl := hc
        · exact hn.1 (hk _ hm)
        · exact hn.2 (hk _ hm)
        · exact hg hm

theorem Built.new : Built (Store.new : Store String F) :=
  ⟨Store.new_acyclic, fun _ _ h => (nomatch h), fun _ _ h => (nomatch h)⟩

theorem Built.setNodes {s : Store String F} (h : Built s) (node : String)
    {attrs : Dict String (Attr F)} (ha : StoredAttrs attrs) (version : Nat) :
    Built ⟨s.graph.addNode node attrs, version⟩ := by
  refine ⟨DiGraph.Acyclic.addNode h.acyclic node attrs, fun n as hn => ?_, h.edges⟩
  change (Dict.set node _ s.graph.nodes).lookup n = _ at hn
  by_cases he : n = node
  · subst he
    rw [Dict.lookup_set_self] at hn
    cases hn
    cases hs : s.graph.nodes.lookup n with
    | none => exact StoredAttrs.nil.update ha
    | some old => exact (h.nodes n old hs).update ha
  · rw [Dict.lookup_set_ne he] at hn
    exact h.nodes n as hn

theorem Built.addEdge {s : Store String F} (h : Built s) (parent child : String)
    {kwargs : Dict String (Attr F)} (hd : Dict.Distinct kwargs) :
    Built (s.addEdge parent child kwargs).2 := by
  have hnodes := (h.setNodes parent StoredAttrs.nil s.version).setNodes child StoredAttrs.nil
    s.version
  obtain ⟨-, he⟩ | ⟨hc, ha, he⟩ | ⟨-, hn, he⟩ := s.addEdge_cases parent child kwargs
  · rw [he]
    exact h
  · rw [he]
    refine ⟨ha, hnodes.nodes, fun e attrs hl => ?_⟩
    rw [DiGraph.lookup_edge] at hl
    change @List.lookup _ _ instBEqOfDecidableEq e
      (Dict.set (parent, child) _ s.graph.edges) = _ at hl
    by_cases hp : e = (parent, child)
    · subst hp
      rw [Dict.lookup_set_self] at hl
      cases hl
      cases hs : s.graph.edges.lookup (parent, child) with
      | none =>
        rw [Option.getD_none, Dict.update, ← Dict.ofPairs, Dict.ofPairs_of_distinct hd]
        exact ⟨hd, hc⟩
      | some old =>
        obtain ⟨hod, hoc⟩ := h.edges _ old hs
        refine ⟨hod.update kwargs, fun k hk => ?_⟩
        obtain ⟨v, hv⟩ := Dict.mem_keys_iff.1 hk
        rw [Option.getD_some, Dict.lookup_update hd] at hv
        cases hw : kwargs.lookup k with
        | some w => exact hc k (Dict.mem_keys_iff.2 ⟨w, hw⟩)
        | none =>
          rw [hw] at hv
          exact hoc k (Dict.mem_keys_iff.2 ⟨v, hv⟩)
    · rw [Dict.lookup_set_ne hp, ← DiGraph.lookup_edge] at hl
      exact h.edges e attrs hl
  · rw [he, DiGraph.removeEdge_addEdge (DiGraph.ends_of_loop h.acyclic hn).1]
    exact hnodes

theorem Built.run {s : Store String F} (h : Built s) {op : Op String F} (hp : op.Plain) :
    Built (op.run stringName s) := by
  cases op with
  | addNode node kwargs =>
    rw [Op.run]
    split
    · rename_i ht
      obtain ⟨attrs, ha, rfl⟩ := Store.addNode_stored hp ht
      exact h.setNodes node ha _
    · exact h
  | addEdge parent child kwargs => exact h.addEdge parent child hp
  | recordFailure | deserialize | mutilatedCopy => exact hp.elim

/-- Every store that plain calls build from a new one is built. -/
theorem Built.runs {s : Store String F} (h : Built s) {ops : List (Op String F)}
    (hp : ∀ op ∈ ops, op.Plain) : Built (ops.foldl (Op.run stringName) s) := by
  induction ops generalizing s with
  | nil => exact h
  | cons op ops ih =>
    rw [List.forall_mem_cons] at hp
    exact ih (h.run hp.1) hp.2

end

end Obase.CausalGraph
