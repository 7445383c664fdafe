import Obase.CausalGraph.Store
import Obase.Run

namespace Obase.CausalGraph
set_option autoImplicit true
open Run

/-- The graph has no loop. -/
def Store.Acyclic (s : Store ν F) : Prop := s.graph.Acyclic

theorem Store.new_acyclic : (Store.new : Store ν F).Acyclic := DiGraph.empty_acyclic

variable {ν F : Type} [DecidableEq ν] {s t : Store ν F}

/-- What `add_edge` can do: it refuses the arguments, adds the edge, or takes it out again. -/
theorem Store.addEdge_cases (s : Store ν F) (parent child : ν) (kwargs : Dict String (Attr F)) :
    (¬ Callable kwargs ∧ s.addEdge parent child kwargs = (.error (.raised .typeError), s)) ∨
    (Callable kwargs ∧ (s.graph.addEdge parent child kwargs).Acyclic ∧
      s.addEdge parent child kwargs =
        (.ok (), ⟨s.graph.addEdge parent child kwargs, s.version + 1⟩)) ∨
    (Callable kwargs ∧ ¬ (s.graph.addEdge parent child kwargs).Acyclic ∧
      s.addEdge parent child kwargs = (.error (.causalGraphError parent child),
        ⟨(s.graph.addEdge parent child kwargs).removeEdge parent child, s.version⟩)) := by
  by_cases hc : Callable kwargs
  · by_cases hd : (s.graph.addEdge parent child kwargs).isDag = true
    · refine .inr (.inl ⟨hc, (DiGraph.isDag_iff _).1 hd, ?_⟩)
      rw [Store.addEdge, if_pos hc]
      exact if_pos hd
    · refine .inr (.inr ⟨hc, fun ha => hd ((DiGraph.isDag_iff _).2 ha), ?_⟩)
      rw [Store.addEdge, if_pos hc]
      exact if_neg hd
  · exact .inl ⟨hc, if_neg hc⟩

theorem Store.Acyclic.addEdge (h : s.Acyclic) (parent child : ν)
    (kwargs : Dict String (Attr F)) : (s.addEdge parent child kwargs).2.Acyclic := by
  obtain ⟨-, he⟩ | ⟨-, ha, he⟩ | ⟨-, hn, he⟩ := s.addEdge_cases parent child kwargs
  · rw [he]
    exact h
  · rw [he]
    exact ha
  · rw [he, Store.Acyclic, DiGraph.removeEdge_addEdge (DiGraph.ends_of_loop h hn).1]
    exact (DiGraph.Acyclic.addNode h _ _).addNode _ _

theorem Store.Acyclic.copyEdges {target : ν} {ps : List ((ν × ν) × Dict String (Attr F))}
    (h : s.Acyclic) (ht : copyEdges target s ps = .ok t) : t.Acyclic := by
  induction ps generalizing s with
  | nil =>
    cases ht
    exact h
  | cons p ps ih =>
    rw [CausalGraph.copyEdges] at ht
    split at ht
    · exact ih h ht
    · split at ht
      · rename_i ha
        have hs := h.addEdge p.1.1 p.1.2 p.2
        rw [ha] at hs
        exact ih hs ht
      · cases ht

theorem Store.Acyclic.loadEdges {name : Json F → Except PyError ν} {items : List (Json F)}
    (h : s.Acyclic) (ht : loadEdges name s items = .ok t) : t.Acyclic := by
  induction items generalizing s with
  | nil =>
    cases ht
    exact h
  | cons item items ih =>
    rw [CausalGraph.loadEdges] at ht
    split at ht
    · cases ht
    · rename_i u v _
      split at ht
      · rename_i ha
        have hs := h.addEdge u v []
        rw [ha] at hs
        exact ih hs ht
      · cases ht

theorem Store.Acyclic.appendEvent (h : s.Acyclic) {node : ν} {event : Json F}
    (ht : s.appendEvent node event = .ok t) : t.Acyclic := by
  rw [Store.appendEvent] at ht
  split at ht
  · cases ht
    exact h
  · cases ht

variable [Builtins F]

theorem Store.addNode_graph {node : ν} {kwargs : Dict String (Attr F)}
    (h : s.addNode node kwargs = .ok t) : ∃ attrs, nodeAttrs kwargs = .ok attrs ∧
      t = ⟨s.graph.addNode node attrs, s.version + 1⟩ := by
  rw [Store.addNode] at h
  split at h
  · cases h
  · split at h
    · cases h
    · rename_i attrs ha
      split at h
      · cases h
      · cases h
        exact ⟨attrs, ha, rfl⟩

theorem Store.Acyclic.addNode (h : s.Acyclic) {node : ν} {kwargs : Dict String (Attr F)}
    (ht : s.addNode node kwargs = .ok t) : t.Acyclic := by
  obtain ⟨attrs, -, rfl⟩ := Store.addNode_graph ht
  exact DiGraph.Acyclic.addNode h node attrs

theorem Store.Acyclic.copyNodes {ps : List (ν × Dict String (Attr F))} (h : s.Acyclic)
    (ht : copyNodes s ps = .ok t) : t.Acyclic := by
  induction ps generalizing s with
  | nil =>
    cases ht
    exact h
  | cons p ps ih =>
    rw [CausalGraph.copyNodes] at ht
    split at ht
    · rename_i ha
      exact ih (h.addNode ha) ht
    · cases ht

/-- A mutilated copy has no loop. -/
theorem Store.mutilatedCopy_acyclic {target : ν} (ht : s.mutilatedCopy target = .ok t) :
    t.Acyclic := by
  rw [Store.mutilatedCopy] at ht
  split at ht
  · split at ht
    · rename_i hc
      exact (Store.new_acyclic.copyNodes hc).copyEdges ht
    · cases ht
  · cases ht

theorem Store.Acyclic.recordFailure (h : s.Acyclic) {node : ν} {message result : Json F}
    {extra : Dict String (Json F)} {now : F}
    (ht : s.recordFailure node message result extra now = .ok t) : t.Acyclic := by
  rw [Store.recordFailure] at ht
  split at ht
  · exact h.appendEvent ht
  · obtain ⟨s', hs', ht⟩ := bind_ok ht
    exact (h.addNode hs').appendEvent ht

section
variable {name : Json F → Except PyError ν}

theorem Store.Acyclic.loadNodes {ps : List (String × Json F)} (h : s.Acyclic)
    (ht : loadNodes name s ps = .ok t) : t.Acyclic := by
  induction ps generalizing s with
  | nil =>
    cases ht
    exact h
  | cons p ps ih =>
    unfold CausalGraph.loadNodes at ht
    split at ht
    · cases ht
      exact h
    · rename_i heq
      cases heq
      obtain ⟨node, -, ht⟩ := bind_ok ht
      obtain ⟨s', hs', ht⟩ := bind_ok ht
      exact ih (h.addNode hs') ht
    · cases ht

theorem fromDict_acyclic {data : Json F} (ht : fromDict name data = .ok t) : t.Acyclic := by
  rw [fromDict] at ht
  split at ht
  · cases ht
  · rename_i s hs
    obtain ⟨items, -, hs⟩ := bind_ok hs
    split at ht
    · cases ht
    · exact (Store.new_acyclic.loadNodes hs).loadEdges ht

theorem Store.deserialize_acyclic {data : Data F} (ht : s.deserialize name data = .ok t) :
    t.Acyclic := by
  unfold Store.deserialize at ht
  split at ht
  · obtain ⟨loaded, hl, rfl⟩ := map_ok ht
    have ha := fromDict_acyclic hl
    exact ha
  · split at ht
    · obtain ⟨loaded, hl, rfl⟩ := map_ok ht
      have ha := fromDict_acyclic hl
      exact ha
    · cases ht

/-- No call, whether it fails or not, leads to a loop. -/
theorem Store.Acyclic.run (h : s.Acyclic) (op : Op ν F) : (op.run name s).Acyclic := by
  cases op with
  | addNode node kwargs =>
    rw [Op.run]
    split
    · rename_i ht
      exact h.addNode ht
    · exact h
  | addEdge parent child kwargs => exact h.addEdge parent child kwargs
  | recordFailure node message result extra now =>
    rw [Op.run]
    split
    · rename_i ht
      exact h.recordFailure ht
    · exact h
  | deserialize data =>
    rw [Op.run]
    split
    · rename_i ht
      exact Store.deserialize_acyclic ht
    · exact h
  | mutilatedCopy target onCopy =>
    rw [Op.run]
    split
    · rename_i ht
      split
      · exact Store.mutilatedCopy_acyclic ht
      · exact h
    · exact h

/-- The graph has no loop after the call, nor has a copy that it returns, and an `add_edge` that
raises a `CausalGraphError` changes nothing. -/
structure Sound (s : Store ν F) (op : Op ν F) (t : Store ν F) : Prop where
  acyclic : t.Acyclic
  copy : ∀ target onCopy copy, op = .mutilatedCopy target onCopy →
    s.mutilatedCopy target = .ok copy → copy.Acyclic
  atomic : ∀ parent child kwargs, op = .addEdge parent child kwargs →
    (s.addEdge parent child kwargs).1 = .error (.causalGraphError parent child) → t = s

/-- An edge from a node to itself is added, with attributes that the graph takes, only where the
node is known. -/
def Known (s : Store ν F) (op : Op ν F) : Prop :=
  ∀ node kwargs, op = .addEdge node node kwargs → Callable kwargs →
    node ∈ Dict.keys s.graph.nodes

theorem Store.Acyclic.sound_step (h : s.Acyclic) {op : Op ν F} (ht : Step name s op t) :
    Sound s op t ↔ Known s op := by
  obtain rfl := ht
  constructor
  · rintro ⟨-, -, ha⟩ node kwargs rfl hc
    have hloop := DiGraph.loop_not_acyclic s.graph node kwargs
    obtain ⟨hn, -⟩ | ⟨-, hd, -⟩ | ⟨-, -, he⟩ := s.addEdge_cases node node kwargs
    · exact (hn hc).elim
    · exact (hloop hd).elim
    · have hs := ha node node kwargs rfl (by rw [he])
      rw [Op.run, he] at hs
      rw [← hs]
      exact Dict.mem_keys_set.2 (.inl rfl)
  · intro hk
    refine ⟨h.run op, fun target onCopy copy _ hc => Store.mutilatedCopy_acyclic hc, ?_⟩
    rintro parent child kwargs rfl hr
    rw [Op.run]
    obtain ⟨-, he⟩ | ⟨-, -, he⟩ | ⟨hc, hn, he⟩ := s.addEdge_cases parent child kwargs
    · rw [he]
    · rw [he] at hr
      cases hr
    · obtain ⟨hnew, hends⟩ := DiGraph.ends_of_loop h hn
      have hmem : parent ∈ Dict.keys s.graph.nodes ∧ child ∈ Dict.keys s.graph.nodes := by
        obtain rfl | hends := hends
        · exact ⟨hk parent kwargs rfl hc, hk parent kwargs rfl hc⟩
        · exact hends
      rw [he, DiGraph.removeEdge_addEdge hnew, DiGraph.addNode_of_mem hmem.1,
        DiGraph.addNode_of_mem hmem.2]

end

/-- In a run of a new store, every call is sound exactly when none adds an edge from an unknown node
to itself. -/
theorem sound_iff (name : Json F → Except PyError ν) {l : List (Op ν F × Store ν F)}
    (h : Trace (Step name) Store.new l) :
    Along Sound Store.new l ↔ Always Known Store.new l := by
  apply h.along_iff Store.new_acyclic
  intro s op t hs ht
  refine ⟨?_, hs.sound_step ht⟩
  rw [ht]
  exact hs.run op

theorem states_trace (name : Json F → Except PyError ν) (s : Store ν F) (ops : List (Op ν F)) :
    Trace (Step name) s (states name s ops) := by
  induction ops generalizing s with
  | nil => trivial
  | cons op ops ih => exact ⟨rfl, ih _⟩

/-- An edge back is refused, and nothing changes. -/
theorem sound_back_edge :
    Along Sound Store.new (states (F := WholeFloat) stringName Store.new
      [.addEdge "a" "b" [], .addEdge "b" "a" []]) := by
  refine (sound_iff stringName (states_trace ..)).2 ⟨?_, ?_, trivial⟩
  · rintro node kwargs h
    injection h with hp hc
    exact absurd (hp.trans hc.symm) (by decide)
  · rintro node kwargs h
    injection h with hp hc
    exact absurd (hp.trans hc.symm) (by decide)

/-- An edge from an unknown node to itself is refused, and the node stays. -/
theorem loop_leaves_node :
    ¬ Along Sound Store.new (states (F := WholeFloat) stringName Store.new
      [.addEdge "x" "x" []]) := by
  rintro ⟨h, -⟩
  have he : (Store.new.addEdge "x" "x" [] : Except (Failure String) Unit × Store String WholeFloat).1
      = .error (.causalGraphError "x" "x") := rfl
  have hs := h.atomic "x" "x" [] rfl he
  have hn := congrArg (fun s => s.graph.nodes.length) hs
  exact absurd hn (by decide)

end Obase.CausalGraph
