import Mathlib.Data.Fintype.Card
import Mathlib.Data.Set.Finite.Basic
import Mathlib.Logic.Relation
import Mathlib.Order.WellFounded
import Obase.Dict

namespace Obase
set_option autoImplicit true

/-- A directed graph as `networkx` keeps it: nodes and edges in the order in which they came, with
their attributes. The order of the edges is that of both adjacencies. -/
structure DiGraph (ν α : Type) where
  nodes : Dict ν (Dict String α)
  edges : Dict (ν × ν) (Dict String α)
  nodes_distinct : Dict.Distinct nodes
  edges_distinct : Dict.Distinct edges
  ends : ∀ e ∈ Dict.keys edges, e.1 ∈ Dict.keys nodes ∧ e.2 ∈ Dict.keys nodes

namespace DiGraph
variable {ν α : Type}

@[ext] theorem ext {g h : DiGraph ν α} (hn : g.nodes = h.nodes) (he : g.edges = h.edges) : g = h := by
  cases g
  cases h
  cases hn
  cases he
  rfl

def empty : DiGraph ν α := ⟨[], [], List.nodup_nil, List.nodup_nil, fun _ h => (nomatch h)⟩

section
variable [DecidableEq ν]

/-- `add_node`: a node that is there gets the attributes, another one goes to the end. -/
def addNode (g : DiGraph ν α) (n : ν) (attrs : Dict String α) : DiGraph ν α where
  nodes := Dict.set n (Dict.update ((g.nodes.lookup n).getD []) attrs) g.nodes
  edges := g.edges
  nodes_distinct := g.nodes_distinct.set _ _
  edges_distinct := g.edges_distinct
  ends e he := ⟨Dict.mem_keys_set.2 (.inr (g.ends e he).1), Dict.mem_keys_set.2 (.inr (g.ends e he).2)⟩

/-- The attributes of a node that is there are replaced. -/
def setNode (g : DiGraph ν α) (n : ν) (attrs : Dict String α) : DiGraph ν α where
  nodes := Dict.set n attrs g.nodes
  edges := g.edges
  nodes_distinct := g.nodes_distinct.set _ _
  edges_distinct := g.edges_distinct
  ends e he := ⟨Dict.mem_keys_set.2 (.inr (g.ends e he).1), Dict.mem_keys_set.2 (.inr (g.ends e he).2)⟩

/-- `add_edge`: its ends are added where they are missing, and an edge that is there gets the
attributes. -/
def addEdge (g : DiGraph ν α) (u v : ν) (attrs : Dict String α) : DiGraph ν α where
  nodes := ((g.addNode u []).addNode v []).nodes
  edges := Dict.set (u, v) (Dict.update ((g.edges.lookup (u, v)).getD []) attrs) g.edges
  nodes_distinct := ((g.addNode u []).addNode v []).nodes_distinct
  edges_distinct := g.edges_distinct.set _ _
  ends e he := by
    obtain rfl | he := Dict.mem_keys_set.1 he
    · exact ⟨Dict.mem_keys_set.2 (.inr (Dict.mem_keys_set.2 (.inl rfl))),
        Dict.mem_keys_set.2 (.inl rfl)⟩
    · exact ((g.addNode u []).addNode v []).ends e he

/-- `remove_edge` of an edge that is there. -/
def removeEdge (g : DiGraph ν α) (u v : ν) : DiGraph ν α where
  nodes := g.nodes
  edges := Dict.erase (u, v) g.edges
  nodes_distinct := g.nodes_distinct
  edges_distinct := g.edges_distinct.erase _
  ends e he := g.ends e (Dict.mem_keys_erase.1 he).1

/-- `predecessors`. -/
def parents (g : DiGraph ν α) (v : ν) : List ν :=
  ((Dict.keys g.edges).filter fun e => e.2 = v).map Prod.fst

/-- `edges`: those of one node after those of another, in the order of the nodes. -/
def listEdges (g : DiGraph ν α) : Dict (ν × ν) (Dict String α) :=
  (Dict.keys g.nodes).flatMap fun u => g.edges.filter fun p => p.1.1 = u

/-- The edges whose source has an edge into it. -/
def inner (es : List (ν × ν)) : List (ν × ν) :=
  es.filter fun e => es.any fun e' => e'.2 = e.1

/-- Nothing is left of the edges after a number of rounds in which sources are removed. -/
def runsDry : Nat → List (ν × ν) → Bool
  | 0, es => es.isEmpty
  | n + 1, es => runsDry n (inner es)

/-- `is_directed_acyclic_graph`. -/
def isDag (g : DiGraph ν α) : Bool := runsDry g.edges.length (Dict.keys g.edges)

end

/-- Every edge leads from a node to another that does not lead back. -/
def Loopless (es : List (ν × ν)) : Prop :=
  ∀ x, ¬ Relation.TransGen (fun u v => (u, v) ∈ es) x x

def Acyclic (g : DiGraph ν α) : Prop := Loopless (Dict.keys g.edges)

theorem Loopless.mono {es fs : List (ν × ν)} (h : Loopless fs) (hs : es ⊆ fs) : Loopless es :=
  fun x hx => h x (Relation.TransGen.mono (fun _ _ he => hs he) x x hx)

theorem empty_acyclic : (empty : DiGraph ν α).Acyclic := by
  intro x hx
  obtain ⟨y, -, he⟩ := Relation.TransGen.tail'_iff.1 hx
  cases he

/-- Edges without a loop have one whose source has no edge into it. -/
theorem Loopless.exists_source {es : List (ν × ν)} (h : Loopless es) (hne : es ≠ []) :
    ∃ e ∈ es, ∀ e' ∈ es, e'.2 ≠ e.1 := by
  by_contra hall
  push Not at hall
  let R (a b : {x // x ∈ es.map Prod.fst}) : Prop :=
    Relation.TransGen (fun u v => (u, v) ∈ es) a.1 b.1
  have : IsTrans _ R := ⟨fun a b c => Relation.TransGen.trans⟩
  have : Std.Irrefl R := ⟨fun a => h a.1⟩
  have : Finite {x // x ∈ es.map Prod.fst} := (List.finite_toSet (es.map Prod.fst)).to_subtype
  have hwf : WellFounded R := Finite.wellFounded_of_trans_of_irrefl R
  obtain ⟨e, he⟩ := List.exists_mem_of_ne_nil es hne
  obtain ⟨⟨x, hx⟩, -, hmin⟩ := hwf.has_min Set.univ
    ⟨⟨e.1, List.mem_map_of_mem he⟩, trivial⟩
  obtain ⟨f, hf, rfl⟩ := List.mem_map.1 hx
  obtain ⟨f', hf', hlink⟩ := hall f hf
  refine hmin ⟨f'.1, List.mem_map_of_mem hf'⟩ trivial (.single ?_)
  change (f'.1, f.1) ∈ es
  rw [← hlink]
  exact hf'

/-- A path over the edges and one more leads over the old ones, or through the new one. -/
theorem path_insert (es : List (ν × ν)) {u v x y : ν}
    (h : Relation.TransGen (fun a b => (a, b) = (u, v) ∨ (a, b) ∈ es) x y) :
    Relation.TransGen (fun a b => (a, b) ∈ es) x y ∨
      Relation.ReflTransGen (fun a b => (a, b) ∈ es) x u ∧
        Relation.ReflTransGen (fun a b => (a, b) ∈ es) v y := by
  induction h with
  | single he =>
    obtain he | he := he
    · cases he
      exact .inr ⟨.refl, .refl⟩
    · exact .inl (.single he)
  | tail _ he ih =>
    obtain he | he := he
    · cases he
      obtain ih | ⟨ih, -⟩ := ih
      · exact .inr ⟨ih.to_reflTransGen, .refl⟩
      · exact .inr ⟨ih, .refl⟩
    · obtain ih | ⟨ih, ih'⟩ := ih
      · exact .inl (ih.tail he)
      · exact .inr ⟨ih, ih'.tail he⟩

section
variable [DecidableEq ν]

theorem mem_inner {es : List (ν × ν)} {e : ν × ν} :
    e ∈ inner es ↔ e ∈ es ∧ ∃ e' ∈ es, e'.2 = e.1 := by
  rw [inner, List.mem_filter, List.any_eq_true]
  simp only [decide_eq_true_eq]

/-- A path from a node that has an edge into it runs over inner edges. -/
theorem path_inner {es : List (ν × ν)} {x y : ν}
    (h : Relation.TransGen (fun u v => (u, v) ∈ es) x y) (hx : ∃ e ∈ es, e.2 = x) :
    Relation.TransGen (fun u v => (u, v) ∈ inner es) x y := by
  induction h using Relation.TransGen.head_induction_on with
  | single he => exact .single (mem_inner.2 ⟨he, hx⟩)
  | head he _ ih => exact .head (mem_inner.2 ⟨he, hx⟩) (ih ⟨_, he, rfl⟩)

theorem loopless_inner {es : List (ν × ν)} : Loopless (inner es) ↔ Loopless es := by
  constructor
  · intro h x hx
    obtain ⟨y, -, he⟩ := Relation.TransGen.tail'_iff.1 hx
    exact h x (path_inner hx ⟨_, he, rfl⟩)
  · intro h
    exact h.mono fun e he => (mem_inner.1 he).1

theorem runsDry_fixed {es : List (ν × ν)} (h : inner es = es) (n : Nat) :
    runsDry n es = es.isEmpty := by
  induction n with
  | zero => rfl
  | succ n ih => rw [runsDry, h, ih]

theorem runsDry_iff {n : Nat} {es : List (ν × ν)} (hn : es.length ≤ n) :
    runsDry n es = true ↔ Loopless es := by
  have hle (es : List (ν × ν)) : (inner es).length ≤ es.length := List.length_filter_le ..
  induction n generalizing es with
  | zero =>
    obtain rfl := List.eq_nil_of_length_eq_zero (Nat.le_zero.1 hn)
    exact iff_of_true rfl (empty_acyclic (α := Unit))
  | succ n ih =>
    by_cases hlt : (inner es).length < es.length
    · have hn' : (inner es).length ≤ n := by omega
      rw [runsDry]
      exact (ih hn').trans loopless_inner
    · have hfix : inner es = es :=
        List.filter_sublist.eq_of_length (le_antisymm (hle es) (not_lt.1 hlt))
      rw [runsDry_fixed hfix, List.isEmpty_iff]
      constructor
      · rintro rfl
        exact empty_acyclic (α := Unit)
      · intro h
        by_contra hne
        obtain ⟨e, he, hs⟩ := h.exists_source hne
        rw [← hfix] at he
        obtain ⟨e', he', hl⟩ := (mem_inner.1 he).2
        exact hs e' he' hl

theorem isDag_iff (g : DiGraph ν α) : g.isDag = true ↔ g.Acyclic :=
  runsDry_iff (le_of_eq (List.length_map _))

theorem mem_edges_addEdge {g : DiGraph ν α} {u v : ν} {attrs : Dict String α} {e : ν × ν} :
    e ∈ Dict.keys (g.addEdge u v attrs).edges ↔ e = (u, v) ∨ e ∈ Dict.keys g.edges :=
  Dict.mem_keys_set

theorem mem_nodes_addNode {g : DiGraph ν α} {n m : ν} {attrs : Dict String α} :
    m ∈ Dict.keys (g.addNode n attrs).nodes ↔ m = n ∨ m ∈ Dict.keys g.nodes :=
  Dict.mem_keys_set

/-- An edge closes a loop in a graph without loops only if it is new, and leads from a node to
itself or between two nodes that were there. -/
theorem ends_of_loop {g : DiGraph ν α} (hg : g.Acyclic) {u v : ν} {attrs : Dict String α}
    (h : ¬ (g.addEdge u v attrs).Acyclic) : (u, v) ∉ Dict.keys g.edges ∧
      (u = v ∨ u ∈ Dict.keys g.nodes ∧ v ∈ Dict.keys g.nodes) := by
  constructor
  · intro hm
    apply h
    refine hg.mono fun e he => ?_
    obtain rfl | he := mem_edges_addEdge.1 he
    · exact hm
    · exact he
  · rw [Acyclic, Loopless] at h
    push Not at h
    obtain ⟨x, hx⟩ := h
    obtain hx | ⟨hxu, hvx⟩ := path_insert (Dict.keys g.edges)
      (Relation.TransGen.mono (fun _ _ he => mem_edges_addEdge.1 he) x x hx)
    · exact (hg x hx).elim
    · obtain rfl | hp := Relation.reflTransGen_iff_eq_or_transGen.1 (hvx.trans hxu)
      · exact .inl rfl
      · obtain ⟨a, hva, -⟩ := Relation.TransGen.head'_iff.1 hp
        obtain ⟨b, -, hbu⟩ := Relation.TransGen.tail'_iff.1 hp
        exact .inr ⟨(g.ends _ hbu).2, (g.ends _ hva).1⟩

theorem loop_not_acyclic (g : DiGraph ν α) (u : ν) (attrs : Dict String α) :
    ¬ (g.addEdge u u attrs).Acyclic :=
  fun h => h u (.single (mem_edges_addEdge.2 (.inl rfl)))

theorem addNode_of_mem {g : DiGraph ν α} {n : ν} (h : n ∈ Dict.keys g.nodes) :
    g.addNode n [] = g := by
  obtain ⟨attrs, ha⟩ := Dict.mem_keys_iff.1 h
  apply ext
  · change Dict.set n (Dict.update ((g.nodes.lookup n).getD []) []) g.nodes = _
    rw [ha]
    exact Dict.set_of_lookup ha
  · rfl

/-- Taking a new edge out again leaves its ends behind. -/
theorem removeEdge_addEdge {g : DiGraph ν α} {u v : ν} (h : (u, v) ∉ Dict.keys g.edges)
    (attrs : Dict String α) :
    (g.addEdge u v attrs).removeEdge u v = (g.addNode u []).addNode v [] := by
  apply ext
  · rfl
  · change Dict.erase (u, v) (Dict.set (u, v) _ g.edges) = g.edges
    exact Dict.erase_set_of_not_mem h _

/-- A sublist of a list without duplicates is what is left of it when the other elements are
dropped. -/
theorem eq_filter_of_sublist {l ns : List ν} (h : l.Sublist ns) (hn : ns.Nodup) :
    l = ns.filter (· ∈ l) := by
  induction h with
  | slnil => rfl
  | cons a h ih =>
    obtain ⟨ha, hn⟩ := List.nodup_cons.1 hn
    rw [List.filter_cons_of_neg (by simpa using fun hm => ha (h.subset hm))]
    exact ih hn
  | cons_cons a h ih =>
    obtain ⟨ha, hn⟩ := List.nodup_cons.1 hn
    rw [List.filter_cons_of_pos (by simp)]
    congr 1
    refine (ih hn).trans (List.filter_congr fun x hx => ?_)
    have hne : x ≠ a := by
      rintro rfl
      exact ha hx
    simp [hne]

/-- Edges are found by the equality of their ends. -/
theorem lookup_edge {β : Type} (d : Dict (ν × ν) β) (e : ν × ν) :
    d.lookup e = @List.lookup _ _ instBEqOfDecidableEq e d :=
  congrArg (fun b : BEq (ν × ν) => @List.lookup _ _ b e d) (lawful_beq_subsingleton _ _)

theorem mem_listEdges {g : DiGraph ν α} {p : (ν × ν) × Dict String α} :
    p ∈ g.listEdges ↔ p ∈ g.edges := by
  rw [listEdges, List.mem_flatMap]
  constructor
  · rintro ⟨u, -, hp⟩
    exact List.mem_of_mem_filter hp
  · intro hp
    exact ⟨p.1.1, (g.ends _ (List.mem_map_of_mem hp)).1, List.mem_filter.2 ⟨hp, by simp⟩⟩

theorem listEdges_perm (g : DiGraph ν α) : g.listEdges.Perm g.edges := by
  have he : g.edges.Nodup := List.Nodup.of_map _ g.edges_distinct
  refine (List.perm_ext_iff_of_nodup ?_ he).2 fun p => mem_listEdges
  rw [listEdges, List.nodup_flatMap]
  refine ⟨fun u _ => he.filter _, g.nodes_distinct.imp fun {u v} hne => ?_⟩
  intro p hu hv
  have hu' := (List.mem_filter.1 hu).2
  have hv' := (List.mem_filter.1 hv).2
  rw [decide_eq_true_eq] at hu' hv'
  exact hne (hu'.symm.trans hv')

theorem listEdges_distinct (g : DiGraph ν α) : Dict.Distinct g.listEdges :=
  ((g.listEdges_perm.map Prod.fst).nodup_iff).2 g.edges_distinct

theorem mem_parents {g : DiGraph ν α} {u v : ν} : u ∈ g.parents v ↔ (u, v) ∈ Dict.keys g.edges := by
  rw [parents, List.mem_map]
  constructor
  · rintro ⟨e, he, rfl⟩
    obtain ⟨he, hv⟩ := List.mem_filter.1 he
    rw [decide_eq_true_eq] at hv
    rw [← hv]
    exact he
  · intro h
    exact ⟨(u, v), List.mem_filter.2 ⟨h, by simp⟩, rfl⟩

/-- The sources of the edges into a node, where the edges of one node come after those of another. -/
theorem sources_flatMap {es : List (ν × ν)} (hes : es.Nodup) (ns : List ν) (v : ν) :
    ((ns.flatMap fun u => es.filter fun e => e.1 = u).filter fun e => e.2 = v).map Prod.fst =
      ns.filter fun u => (u, v) ∈ es := by
  induction ns with
  | nil => rfl
  | cons u ns ih =>
    have hu : ((es.filter fun e => e.1 = u).filter fun e => e.2 = v).map Prod.fst =
        if (u, v) ∈ es then [u] else [] := by
      have hf : ((es.filter fun e => e.1 = u).filter fun e => e.2 = v) =
          es.filter (· = (u, v)) := by
        rw [List.filter_filter]
        exact List.filter_congr fun e _ => by simp [Prod.ext_iff, Bool.and_comm]
      rw [hf, List.filter_eq, hes.count]
      split
      · rfl
      · rfl
    rw [List.flatMap_cons, List.filter_append, List.map_append, ih, hu, List.filter_cons]
    by_cases h : (u, v) ∈ es
    · rw [if_pos h, if_pos (by simpa using h)]
      rfl
    · rw [if_neg h, if_neg (by simpa using h)]
      rfl

/-- The parents of a node in the order in which the edges are listed. -/
theorem parents_listEdges (g : DiGraph ν α) (v : ν) :
    ((Dict.keys g.listEdges).filter fun e => e.2 = v).map Prod.fst =
      (Dict.keys g.nodes).filter fun u => (u, v) ∈ Dict.keys g.edges := by
  have hk : Dict.keys g.listEdges =
      (Dict.keys g.nodes).flatMap fun u => (Dict.keys g.edges).filter fun e => e.1 = u := by
    rw [listEdges, Dict.keys, List.map_flatMap]
    congr 1
    funext u
    rw [Dict.keys, List.filter_map]
    rfl
  rw [hk]
  exact sources_flatMap g.edges_distinct _ v

/-- The listed edges name the parents in the order of the graph just when that is the order of the
nodes. -/
theorem parents_listEdges_eq_iff (g : DiGraph ν α) (v : ν) :
    ((Dict.keys g.listEdges).filter fun e => e.2 = v).map Prod.fst = g.parents v ↔
      (g.parents v).Sublist (Dict.keys g.nodes) := by
  rw [parents_listEdges]
  constructor
  · intro h
    rw [← h]
    exact List.filter_sublist
  · intro h
    rw [eq_filter_of_sublist h g.nodes_distinct]
    exact List.filter_congr fun u _ => by simp [mem_parents]

theorem addNode_new {g : DiGraph ν α} {n : ν} (h : n ∉ Dict.keys g.nodes) {attrs : Dict String α}
    (hd : Dict.Distinct attrs) : (g.addNode n attrs).nodes = g.nodes ++ [(n, attrs)] := by
  change Dict.set n (Dict.update ((g.nodes.lookup n).getD []) attrs) g.nodes = _
  rw [Dict.lookup_eq_none_of_not_mem h, Dict.set_of_not_mem h]
  congr 3
  exact Dict.ofPairs_of_distinct hd

/-- A new edge between nodes that are there comes last. -/
theorem addEdge_new {g : DiGraph ν α} {u v : ν} (h : (u, v) ∉ Dict.keys g.edges)
    (hu : u ∈ Dict.keys g.nodes) (hv : v ∈ Dict.keys g.nodes) {attrs : Dict String α}
    (hd : Dict.Distinct attrs) : (g.addEdge u v attrs).nodes = g.nodes ∧
      (g.addEdge u v attrs).edges = g.edges ++ [((u, v), attrs)] := by
  constructor
  · change ((g.addNode u []).addNode v []).nodes = _
    rw [addNode_of_mem hu, addNode_of_mem hv]
  · change Dict.set (u, v) (Dict.update ((g.edges.lookup (u, v)).getD []) attrs) g.edges = _
    rw [lookup_edge, Dict.lookup_eq_none_of_not_mem h, Dict.set_of_not_mem h]
    congr 3
    exact Dict.ofPairs_of_distinct hd

theorem Acyclic.addNode {g : DiGraph ν α} (h : g.Acyclic) (n : ν) (attrs : Dict String α) :
    (g.addNode n attrs).Acyclic := h

theorem Acyclic.removeEdge {g : DiGraph ν α} (h : g.Acyclic) (u v : ν) :
    (g.removeEdge u v).Acyclic :=
  h.mono fun _ he => (Dict.mem_keys_erase.1 he).1

end

end DiGraph
end Obase
