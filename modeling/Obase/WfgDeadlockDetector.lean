import Mathlib.Data.List.Rotate
import Mathlib.Data.List.Sort
import Obase.DepthFirst
import Obase.Dict
import Obase.Least

namespace Obase.WfgDeadlockDetector
set_option autoImplicit true
open DepthFirst

/-- `WaitForGraph`: the agents that each agent waits for, and the priorities that are set. -/
structure WaitForGraph where
  graph : Dict String (List String)
  priorities : Dict String Int
  distinct : Dict.Distinct graph
  sets : ∀ p ∈ graph, p.2.Nodup

namespace WaitForGraph

def new : WaitForGraph := ⟨[], [], List.nodup_nil, List.forall_mem_nil _⟩

/-- `self.graph.get(node, [])`. -/
def holders (g : WaitForGraph) (node : String) : List String := (g.graph.lookup node).getD []

/-- The agent waits for the other one. -/
def Waits (g : WaitForGraph) (waiter holder : String) : Prop := holder ∈ g.holders waiter

/-- The agents that wait or are waited for. -/
def agents (g : WaitForGraph) : List String := Dict.keys g.graph ++ g.graph.flatMap Prod.snd

theorem Waits.agents {g : WaitForGraph} {waiter holder : String} (h : g.Waits waiter holder) :
    waiter ∈ Dict.keys g.graph ∧ holder ∈ g.agents := by
  rw [Waits, holders] at h
  cases hl : g.graph.lookup waiter with
  | none =>
    rw [hl] at h
    cases h
  | some hs =>
    rw [hl] at h
    have hm := Dict.lookup_mem hl
    exact ⟨List.mem_map_of_mem hm, List.mem_append_right _ (List.mem_flatMap.2 ⟨_, hm, h⟩)⟩

theorem keys_filterMap_sublist {f : String × List String → Option (String × List String)}
    (hf : ∀ p q, f p = some q → q.1 = p.1) (d : Dict String (List String)) :
    (Dict.keys (d.filterMap f)).Sublist (Dict.keys d) := by
  induction d with
  | nil => exact .slnil
  | cons p d ih =>
    cases hp : f p with
    | none =>
      rw [List.filterMap_cons_none hp]
      exact ih.cons _
    | some q =>
      rw [List.filterMap_cons_some hp, Dict.keys, List.map_cons, hf p q hp]
      exact ih.cons_cons _

/-- The order in which a set is iterated over. -/
structure SetOrder where
  list : List String → List String
  perm : ∀ xs, (list xs).Perm xs

/-- `detect_cycles`, for the orders in which the sets of holders are iterated over and for what
may be the depth of the recursion. -/
def detectCycles (g : WaitForGraph) (order : String → SetOrder) (depth : Nat) :
    Option (List (List String)) :=
  (search (fun node => (order node).list (g.holders node)) depth (Dict.keys g.graph)).map
    Search.cycles

/-- `min(active_nodes, key=...)`. -/
def victim (g : WaitForGraph) : List String → Option String
  | [] => none
  | n :: ns =>
    some (least (fun a b =>
      decide ((g.priorities.lookup a).getD 0 < (g.priorities.lookup b).getD 0)) n ns)

/-- The set of victims after one more cycle. -/
def addVictim (g : WaitForGraph) (victims cycle : List String) : List String :=
  match g.victim (cycle.filter fun n => n ∉ victims) with
  | none => victims
  | some v => victims ++ [v]

/-- The set of victims for these cycles, in the order in which they are added. -/
def victims (g : WaitForGraph) (cycles : List (List String)) : List String :=
  (cycles.insertionSort fun c d => c.length ≤ d.length).foldl g.addVictim []

theorem mem_ordered {g : WaitForGraph} {order : String → SetOrder} {x y : String} :
    y ∈ (order x).list (g.holders x) ↔ g.Waits x y := ((order x).perm _).mem_iff

theorem waits_ordered (g : WaitForGraph) (order : String → SetOrder) :
    (fun x y => y ∈ (order x).list (g.holders x)) = g.Waits := by
  funext x y
  exact propext mem_ordered

theorem detectCycles_isCycle {g : WaitForGraph} {order : String → SetOrder} {depth : Nat}
    {cycles : List (List String)} (h : g.detectCycles order depth = some cycles) :
    ∀ c ∈ cycles, IsCycle g.Waits c := by
  obtain ⟨s, hs, rfl⟩ := Option.map_eq_some_iff.1 h
  rw [← waits_ordered g order]
  exact search_sound hs

theorem detectCycles_complete {g : WaitForGraph} {order : String → SetOrder} {depth : Nat}
    {cycles : List (List String)} (h : g.detectCycles order depth = some cycles) :
    cycles ≠ [] ↔ Cyclic g.Waits := by
  obtain ⟨s, hs, rfl⟩ := Option.map_eq_some_iff.1 h
  rw [← waits_ordered g order]
  exact search_complete (fun x y hy => (mem_ordered.1 hy).agents.1) hs

/-- The recursion goes no deeper than there are agents. -/
theorem exists_detectCycles (g : WaitForGraph) (order : String → SetOrder) {depth : Nat}
    (hd : g.agents.length < depth) : ∃ cycles, g.detectCycles order depth = some cycles := by
  have hclosed : ∀ x ∈ g.agents, (order x).list (g.holders x) ⊆ g.agents :=
    fun x _ y hy => (mem_ordered.1 hy).agents.2
  obtain ⟨s, hs⟩ := search_isSome _ hclosed (List.subset_append_left _ _) hd
  exact ⟨s.cycles, by rw [detectCycles, hs, Option.map_some]⟩

/-- `detect_cycles` comes to an end with simple cycles of the graph, and with none only if the graph
has none. -/
theorem detectCycles_spec (g : WaitForGraph) (order : String → SetOrder) (n : Nat) :
    ∃ cycles, g.detectCycles order (g.agents.length + 1 + n) = some cycles ∧
      (∀ c ∈ cycles, IsCycle g.Waits c) ∧ (cycles ≠ [] ↔ Cyclic g.Waits) := by
  obtain ⟨cycles, h⟩ := exists_detectCycles g order
    (show g.agents.length < g.agents.length + 1 + n by omega)
  exact ⟨cycles, h, detectCycles_isCycle h, detectCycles_complete h⟩

theorem victim_mem {g : WaitForGraph} {ns : List String} {v : String} (h : g.victim ns = some v) :
    v ∈ ns := by
  cases ns with
  | nil => cases h
  | cons n ns =>
    cases h
    exact least_mem n ns

theorem victim_isSome {g : WaitForGraph} {ns : List String} (h : ns ≠ []) :
    ∃ v, g.victim ns = some v := by
  cases ns with
  | nil => exact (h rfl).elim
  | cons n ns => exact ⟨_, rfl⟩

/-- A cycle adds one of its agents unless all of them are victims. -/
theorem addVictim_cases (g : WaitForGraph) (victims cycle : List String) :
    (g.addVictim victims cycle = victims ∧ ∀ n ∈ cycle, n ∈ victims) ∨
      ∃ v ∈ cycle, v ∉ victims ∧ g.addVictim victims cycle = victims ++ [v] := by
  rw [addVictim]
  cases hv : g.victim (cycle.filter fun n => n ∉ victims) with
  | none =>
    refine .inl ⟨rfl, fun n hn => ?_⟩
    by_contra hc
    have hm : n ∈ cycle.filter fun n => n ∉ victims :=
      List.mem_filter.2 ⟨hn, decide_eq_true hc⟩
    obtain ⟨v, he⟩ := victim_isSome (g := g) (List.ne_nil_of_mem hm)
    rw [hv] at he
    cases he
  | some v =>
    obtain ⟨hm, hn⟩ := List.mem_filter.1 (victim_mem hv)
    exact .inr ⟨v, hm, of_decide_eq_true hn, rfl⟩

/-- What is true of the victims for these cycles, in whatever order they are gone through. -/
structure VictimsOf (cycles : List (List String)) (vs : List String) : Prop where
  nodup : vs.Nodup
  members : ∀ v ∈ vs, ∃ c ∈ cycles, v ∈ c
  covers : ∀ c ∈ cycles, c ≠ [] → ∃ v ∈ c, v ∈ vs

theorem VictimsOf.addVictim {cycles : List (List String)} {vs : List String}
    (h : VictimsOf cycles vs) (g : WaitForGraph) (cycle : List String) :
    VictimsOf (cycles ++ [cycle]) (g.addVictim vs cycle) := by
  have hmem {v : String} : (∃ c ∈ cycles, v ∈ c) → ∃ c ∈ cycles ++ [cycle], v ∈ c :=
    fun ⟨c, hc, hv⟩ => ⟨c, List.mem_append_left _ hc, hv⟩
  obtain ⟨he, hall⟩ | ⟨v, hv, hn, he⟩ := addVictim_cases g vs cycle
  · rw [he]
    refine ⟨h.nodup, fun v hv => hmem (h.members v hv), fun c hc hne => ?_⟩
    obtain hc | hc := List.mem_append.1 hc
    · exact h.covers c hc hne
    · rw [List.mem_singleton.1 hc] at hne ⊢
      obtain ⟨n, hn⟩ := List.exists_mem_of_ne_nil _ hne
      exact ⟨n, hn, hall n hn⟩
  · rw [he]
    refine ⟨?_, fun u hu => ?_, fun c hc hne => ?_⟩
    · rw [List.nodup_append]
      refine ⟨h.nodup, List.nodup_cons.2 ⟨List.not_mem_nil, List.nodup_nil⟩, ?_⟩
      rintro x hx y hy rfl
      rw [List.mem_singleton.1 hy] at hx
      exact hn hx
    · obtain hu | hu := List.mem_append.1 hu
      · exact hmem (h.members u hu)
      · rw [List.mem_singleton.1 hu]
        exact ⟨cycle, List.mem_append_right _ (.head _), hv⟩
    · obtain hc | hc := List.mem_append.1 hc
      · obtain ⟨u, hu, hm⟩ := h.covers c hc hne
        exact ⟨u, hu, List.mem_append_left _ hm⟩
      · rw [List.mem_singleton.1 hc]
        exact ⟨v, hv, List.mem_append_right _ (.head _)⟩

theorem VictimsOf.foldl {cycles : List (List String)} {vs : List String}
    (h : VictimsOf cycles vs) (g : WaitForGraph) (more : List (List String)) :
    VictimsOf (cycles ++ more) (more.foldl g.addVictim vs) := by
  induction more generalizing cycles vs with
  | nil => rwa [List.append_nil]
  | cons c more ih =>
    rw [List.append_cons, List.foldl_cons]
    exact ih (h.addVictim g c)

/-- The graph `g'` is left of `g` when its deadlocks are resolved by these victims. -/
structure Resolved (g g' : WaitForGraph) (victims : List String) : Prop where
  acyclic : ¬ Cyclic g'.Waits
  nodup : victims.Nodup
  agents : ∀ v ∈ victims, v ∈ g.agents
  edges : ∀ x y, g'.Waits x y ↔ g.Waits x y ∧ x ∉ victims ∧ y ∉ victims

/-- A set that is iterated over in the order in which its elements came. -/
def inOrder : SetOrder := ⟨id, fun _ => .refl _⟩

end WaitForGraph
end Obase.WfgDeadlockDetector
