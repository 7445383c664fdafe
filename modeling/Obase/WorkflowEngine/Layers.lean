import Mathlib.Data.Set.Card
import Obase.Layering
import Obase.WorkflowEngine.Engine

namespace Obase.WorkflowEngine
set_option autoImplicit true
open DepthFirst Layering

/-- The colors tell where a search stands that has met no cycle. -/
structure Colored (color : Dict String Color) (s : Search String) : Prop where
  gray : ∀ x, colorOf color x = .gray ↔ x ∈ s.path
  white : ∀ x, colorOf color x = .white ↔ x ∉ s.visited
  cycles : s.cycles = []

theorem colorOf_set (color : Dict String Color) (x y : String) (c : Color) :
    colorOf (color.set x c) y = if y = x then c else colorOf color y := by
  rw [colorOf]
  split
  · rename_i he
    rw [he, Dict.lookup_set_self]
    rfl
  · rename_i he
    rw [Dict.lookup_set_ne he]
    rfl

theorem Colored.entered {color : Dict String Color} {s : Search String} (h : Colored color s)
    {x : String} (hx : x ∈ s.path) : x ∈ s.visited := by
  by_contra hn
  have hgray := (h.gray x).2 hx
  rw [(h.white x).2 hn] at hgray
  cases hgray

theorem Colored.enter {color : Dict String Color} {s : Search String} (h : Colored color s)
    {node : String} :
    Colored (color.set node .gray) ⟨node :: s.visited, s.path ++ [node], s.cycles⟩ := by
  refine ⟨fun x => ?_, fun x => ?_, h.cycles⟩
  · rw [colorOf_set, List.mem_append, List.mem_singleton, ← h.gray]
    split
    · rename_i he
      exact ⟨fun _ => .inr he, fun _ => rfl⟩
    · rename_i he
      exact ⟨.inl, fun hx => hx.resolve_right he⟩
  · rw [colorOf_set, List.mem_cons, not_or, ← h.white]
    split
    · rename_i he
      exact ⟨fun hc => absurd hc (by decide), fun hx => (hx.1 he).elim⟩
    · rename_i he
      exact ⟨fun hx => ⟨he, hx⟩, fun hx => hx.2⟩

theorem Colored.leave {color : Dict String Color} {s : Search String} (h : Colored color s)
    {path : List String} {node : String} (hn : node ∉ path) (hp : s.path = path ++ [node])
    (hv : node ∈ s.visited) :
    Colored (color.set node .black) { s with path := s.path.dropLast } := by
  refine ⟨fun x => ?_, fun x => ?_, h.cycles⟩
  · have hgray := h.gray x
    rw [hp, List.mem_append, List.mem_singleton] at hgray
    rw [colorOf_set, hp, List.dropLast_concat]
    split
    · rename_i he
      exact ⟨fun hc => absurd hc (by decide), fun hx => (hn (he ▸ hx)).elim⟩
    · rename_i he
      exact ⟨fun hx => (hgray.1 hx).resolve_right he, fun hx => hgray.2 (.inl hx)⟩
  · rw [colorOf_set]
    split
    · rename_i he
      exact ⟨fun hc => absurd hc (by decide), fun hx => (hx (he ▸ hv)).elim⟩
    · exact h.white x

/-- A walk with colors comes out as the search does: it goes on while no cycle is met, and raises at
the first one. -/
def Follows (r : Except Raised (Dict String Color)) (s : Search String) : Prop :=
  (∃ color, r = .ok color ∧ Colored color s) ∨
    (∃ x, r = .error (.cycleError (.involving x))) ∧ s.cycles ≠ []

/-- Two walks over the same nodes stay together if each of their steps does. -/
theorem foldlM_follows {f : Search String → String → Option (Search String)}
    {g : Dict String Color → String → Except Raised (Dict String Color)} {nodes : List String}
    {color : Dict String Color} {s s' : Search String}
    (hstep : ∀ color s s', ∀ x ∈ nodes, Colored color s → f s x = some s' →
      Follows (g color x) s')
    (hf : ∀ s s' : Search String, ∀ x ∈ nodes, f s x = some s' → s.Extends s')
    (hs : Colored color s) (h : nodes.foldlM f s = some s') :
    Follows (nodes.foldlM g color) s' := by
  induction nodes generalizing color s with
  | nil =>
    cases h
    exact .inl ⟨color, rfl, hs⟩
  | cons x nodes ih =>
    rw [List.foldlM_cons, Option.bind_eq_bind, Option.bind_eq_some_iff] at h
    obtain ⟨s₁, h₁, h⟩ := h
    have hrest (u u' : Search String) (y : String) (hy : y ∈ nodes) := hf u u' y (.tail _ hy)
    rw [List.foldlM_cons]
    obtain ⟨color', hg, hc⟩ | ⟨⟨y, hg⟩, hc⟩ := hstep color s s₁ x (.head _) hs h₁
    · rw [hg]
      exact ih (fun color s s' y hy => hstep color s s' y (.tail _ hy)) hrest hc h
    · rw [hg]
      exact .inr ⟨⟨y, rfl⟩, fun hn => hc ((foldlM_extends hrest h).cycles hn)⟩

theorem visit_follows {adj : String → List String} {n : Nat} {node : String}
    {color : Dict String Color} {s s' : Search String} (hs : Colored color s)
    (hn : node ∉ s.visited) (h : dfs adj n node s = some s') :
    Follows (visit adj n node color) s' := by
  induction n generalizing node color s s' with
  | zero => cases h
  | succ n ih =>
    have hp : node ∉ s.path := fun hm => hn (hs.entered hm)
    rw [dfs, if_neg hp, if_neg hn] at h
    obtain ⟨t, ht, rfl⟩ := Option.map_eq_some_iff.1 h
    have hext := foldlM_extends (fun u u' x _ he => dfs_extends he) ht
    have hwalk : Follows _ t := foldlM_follows
      (g := fun color nxt =>
        if colorOf color nxt = .gray then .error (.cycleError (.involving nxt))
        else if colorOf color nxt = .white then visit adj n nxt color else .ok color)
      (fun c u u' x _ hu he => ?_) (fun u u' x _ he => dfs_extends he) (hs.enter) ht
    · rw [visit]
      obtain ⟨color', hg, hc⟩ | ⟨⟨y, hg⟩, hc⟩ := hwalk
      · rw [hg]
        exact .inl ⟨_, rfl, hc.leave hp hext.path (hext.visited (.head _))⟩
      · rw [hg]
        exact .inr ⟨⟨y, rfl⟩, hc⟩
    · cases n with
      | zero => cases he
      | succ n =>
        split
        · rename_i hgray
          rw [dfs, if_pos ((hu.gray x).1 hgray)] at he
          cases he
          exact .inr ⟨⟨x, rfl⟩, List.append_ne_nil_of_right_ne_nil _ (List.cons_ne_nil _ _)⟩
        · rename_i hgray
          split
          · rename_i hwhite
            exact ih hu ((hu.white x).1 hwhite) he
          · rename_i hwhite
            rw [hu.gray] at hgray
            rw [hu.white, not_not] at hwhite
            rw [dfs, if_neg hgray, if_pos hwhite] at he
            cases he
            exact .inl ⟨c, rfl, hu⟩

/-- The walk over the nodes raises if the search meets a cycle. -/
theorem detectCycle_follows {limit : Nat} {nodes : List String} {edges : List (String × String)}
    {s : Search String} (h : search (adjacent edges) limit nodes = some s) :
    (detectCycle limit nodes edges = .ok () ∧ s.cycles = []) ∨
      (∃ x, detectCycle limit nodes edges = .error (.cycleError (.involving x))) ∧
        s.cycles ≠ [] := by
  have hstart : Colored (Dict.ofPairs (nodes.map fun n => (n, Color.white))) ⟨[], [], []⟩ := by
    have hwhite (x : String) :
        colorOf (Dict.ofPairs (nodes.map fun n => (n, Color.white))) x = .white := by
      rw [colorOf]
      cases h : (Dict.ofPairs (nodes.map fun n => (n, Color.white))).lookup x with
      | none => rfl
      | some c =>
        obtain ⟨q, hq, he⟩ := Dict.mem_ofPairs (Dict.lookup_mem h)
        obtain ⟨n, -, rfl⟩ := List.mem_map.1 hq
        exact he
    refine ⟨fun x => ?_, fun x => ?_, rfl⟩
    · rw [hwhite]
      simp
    · rw [hwhite]
      simp
  have hwalk : Follows _ s := foldlM_follows
    (g := fun color n =>
      if colorOf color n = .white then visit (adjacent edges) limit n color else .ok color)
    (fun c u u' x _ hu he => ?_) (fun u u' x _ he => ?_) hstart h
  · rw [detectCycle]
    obtain ⟨color, hg, hc⟩ | ⟨⟨y, hg⟩, hc⟩ := hwalk
    · rw [hg]
      exact .inl ⟨rfl, hc.cycles⟩
    · rw [hg]
      exact .inr ⟨⟨y, rfl⟩, hc⟩
  · split at he
    · rename_i hx
      cases he
      rw [if_neg (fun hw => (hu.white x).1 hw hx)]
      exact .inl ⟨c, rfl, hu⟩
    · rename_i hx
      rw [if_pos ((hu.white x).2 hx)]
      exact visit_follows hu hx he
  · split at he
    · cases he
      exact .refl u
    · exact dfs_extends he

theorem foldl_adjacency (edges : List (String × String)) (adj : Dict String (List String))
    (x : String) :
    ((edges.foldl (fun adj e => adj.set e.1 ((adj.lookup e.1).getD [] ++ [e.2])) adj).lookup
        x).getD [] = (adj.lookup x).getD [] ++ (edges.filter fun e => e.1 = x).map Prod.snd := by
  induction edges generalizing adj with
  | nil => exact (List.append_nil _).symm
  | cons e edges ih =>
    rw [List.foldl_cons, ih]
    by_cases he : e.1 = x
    · rw [he, Dict.lookup_set_self, List.filter_cons_of_pos (by simpa using he), List.map_cons,
        Option.getD_some, List.append_assoc, List.singleton_append]
    · rw [Dict.lookup_set_ne (Ne.symm he), List.filter_cons_of_neg (by simpa using he)]

/-- The ends of the edges from a node, in their order. -/
theorem adjacent_eq (edges : List (String × String)) (x : String) :
    adjacent edges x = (edges.filter fun e => e.1 = x).map Prod.snd := foldl_adjacency edges [] x

theorem mem_adjacent {edges : List (String × String)} {x y : String} :
    y ∈ adjacent edges x ↔ (x, y) ∈ edges := by
  rw [adjacent_eq, List.mem_map]
  constructor
  · rintro ⟨⟨u, v⟩, he, rfl⟩
    obtain ⟨he, hu⟩ := List.mem_filter.1 he
    have hu : u = x := of_decide_eq_true hu
    rwa [← hu]
  · intro he
    exact ⟨(x, y), List.mem_filter.2 ⟨he, decide_eq_true rfl⟩, rfl⟩

theorem foldl_inDegrees (edges : List (String × String)) (deg : Dict String Int) (x : String) :
    ((edges.foldl (fun deg e => deg.set e.2 ((deg.lookup e.2).getD 0 + 1)) deg).lookup x).getD 0 =
      (deg.lookup x).getD 0 + edges.countP (fun e => e.2 = x) := by
  induction edges generalizing deg with
  | nil => simp
  | cons e edges ih =>
    rw [List.foldl_cons, ih]
    by_cases he : e.2 = x
    · rw [he, Dict.lookup_set_self, List.countP_cons_of_pos (by simpa using he), Option.getD_some]
      push_cast
      omega
    · rw [Dict.lookup_set_ne (Ne.symm he), List.countP_cons_of_neg (by simpa using he)]

theorem inDegrees_lookup (nodes : List String) (edges : List (String × String)) (x : String) :
    ((inDegrees nodes edges).lookup x).getD 0 = edges.countP (fun e => e.2 = x) := by
  rw [inDegrees, foldl_inDegrees]
  have hzero : ((Dict.ofPairs (nodes.map fun n => (n, (0 : Int)))).lookup x).getD 0 = 0 := by
    cases h : (Dict.ofPairs (nodes.map fun n => (n, (0 : Int)))).lookup x with
    | none => rfl
    | some k =>
      obtain ⟨q, hq, he⟩ := Dict.mem_ofPairs (Dict.lookup_mem h)
      obtain ⟨n, -, rfl⟩ := List.mem_map.1 hq
      exact he
  rw [hzero, Int.zero_add]

/-- The degrees after these edges, and the queue of the nodes that are down to none. -/
theorem foldl_release (ts : List String) (deg : Dict String Int) :
    (∀ x, ((ts.foldl release (deg, [])).1.lookup x).getD 0 =
        (deg.lookup x).getD 0 - ts.count x) ∧
      (ts.foldl release (deg, [])).2.Nodup ∧
      ∀ x, x ∈ (ts.foldl release (deg, [])).2 ↔
        1 ≤ (deg.lookup x).getD 0 ∧ (deg.lookup x).getD 0 ≤ ts.count x := by
  induction ts using List.reverseRecOn with
  | nil =>
    refine ⟨fun x => by simp, List.nodup_nil, fun x => ?_⟩
    rw [List.foldl_nil, List.count_nil]
    constructor
    · intro h
      cases h
    · rintro ⟨h₁, h₂⟩
      omega
  | append_singleton ts t ih =>
    obtain ⟨hdeg, hn, hm⟩ := ih
    rw [List.foldl_concat]
    generalize ts.foldl release (deg, []) = st at hdeg hn hm
    have hcount (x : String) : ((ts ++ [t]).count x : Int) =
        ts.count x + if x = t then 1 else 0 := by
      rw [List.count_append, List.count_singleton]
      by_cases hx : x = t
      · simp [hx]
      · simp [hx, Ne.symm hx]
    have hlook (x : String) : ((release st t).1.lookup x).getD 0 =
        (deg.lookup x).getD 0 - (ts ++ [t]).count x := by
      rw [hcount, release]
      by_cases hx : x = t
      · subst hx
        rw [Dict.lookup_set_self, Option.getD_some, hdeg, if_pos rfl]
        omega
      · rw [Dict.lookup_set_ne hx, hdeg, if_neg hx]
        omega
    have hqueue : (release st t).2 =
        if (deg.lookup t).getD 0 - ts.count t - 1 = 0 then st.2 ++ [t] else st.2 := by
      rw [release, hdeg]
    refine ⟨hlook, ?_, fun x => ?_⟩
    · rw [hqueue]
      split
      · rename_i he
        refine List.nodup_append.2 ⟨hn, List.nodup_cons.2 ⟨List.not_mem_nil, List.nodup_nil⟩, ?_⟩
        rintro y hy z hz rfl
        rw [List.mem_singleton.1 hz, hm] at hy
        omega
      · exact hn
    · rw [hqueue, hcount]
      by_cases hx : x = t
      · subst hx
        rw [if_pos rfl]
        split
        · rename_i he
          rw [List.mem_append, hm, List.mem_singleton]
          constructor
          · intro _
            omega
          · intro _
            exact .inr rfl
        · rename_i he
          rw [hm]
          omega
      · rw [if_neg hx, Int.add_zero]
        split
        · rw [List.mem_append, hm, List.mem_singleton]
          exact ⟨fun h => h.resolve_right hx, .inl⟩
        · exact hm x

theorem releaseLayer_eq (adj : String → List String) (deg : Dict String Int)
    (layer : List String) :
    releaseLayer adj deg layer = (layer.flatMap adj).foldl release (deg, []) := by
  rw [releaseLayer, List.foldl_flatMap]

/-- The edges into a node that come from none of these. -/
def remaining (edges : List (String × String)) (done : List String) (x : String) : Nat :=
  edges.countP fun e => e.2 = x ∧ e.1 ∉ done

theorem remaining_eq_zero {edges : List (String × String)} {done : List String} {x : String} :
    remaining edges done x = 0 ↔ Free edges done x := by
  rw [remaining, List.countP_eq_zero]
  constructor
  · intro h e he hx
    by_contra hd
    exact h e he (decide_eq_true ⟨hx, hd⟩)
  · intro h e he hp
    obtain ⟨hx, hd⟩ := of_decide_eq_true hp
    exact hd (h e he hx)

theorem count_adjacent (edges : List (String × String)) (q x : String) :
    (adjacent edges q).count x = edges.countP fun e => e.2 = x ∧ e.1 = q := by
  rw [adjacent_eq]
  induction edges with
  | nil => rfl
  | cons e edges ih =>
    by_cases hq : e.1 = q
    · rw [List.filter_cons_of_pos (by simpa using hq), List.map_cons, List.count_cons, ih,
        List.countP_cons]
      simp [hq]
    · rw [List.filter_cons_of_neg (by simpa using hq), ih, List.countP_cons_of_neg (by simp [hq])]

/-- A layer takes from the edges that remain those that come from it. -/
theorem remaining_append (edges : List (String × String)) {done queue : List String} (x : String)
    (hn : (done ++ queue).Nodup) :
    remaining edges done x =
      remaining edges (done ++ queue) x + (queue.flatMap (adjacent edges)).count x := by
  induction queue generalizing done with
  | nil => simp
  | cons q queue ih =>
    rw [List.append_cons] at hn
    rw [List.flatMap_cons, List.count_append, count_adjacent, List.append_cons]
    have hrest := ih hn
    have hq : q ∉ done := by
      intro hm
      rw [List.append_assoc] at hn
      exact (List.nodup_append.1 hn).2.2 q hm q (List.mem_append_left _ (.head _)) rfl
    have hstep : remaining edges done x =
        remaining edges (done ++ [q]) x + edges.countP fun e => e.2 = x ∧ e.1 = q := by
      clear ih hrest hn
      simp only [remaining]
      induction edges with
      | nil => rfl
      | cons e edges ih =>
        simp only [List.countP_cons, ih, List.mem_append, List.mem_singleton, decide_eq_true_eq]
        by_cases hx : e.2 = x
        · by_cases he : e.1 = q
          · simp [hx, he, hq]
            omega
          · simp [hx, he]
            omega
        · simp [hx]
    omega

/-- The name is a node or the end of an edge. -/
def Named (nodes : List String) (edges : List (String × String)) (x : String) : Prop :=
  x ∈ nodes ∨ ∃ e ∈ edges, e.2 = x

/-- What holds whenever the loop comes round: the queue is the next layer, and the degrees count the
edges that remain. -/
structure Turn (A : String → Prop) (edges : List (String × String)) (done : List String)
    (deg : Dict String Int) (queue : List String) : Prop where
  nodup : (done ++ queue).Nodup
  degrees : ∀ x, (deg.lookup x).getD 0 = remaining edges done x
  members : ∀ x, x ∈ done ++ queue ↔ A x ∧ Free edges done x

variable {A : String → Prop} {edges : List (String × String)} {done queue : List String}
  {deg : Dict String Int}

variable (edges) in
theorem turn_start {nodes : List String} (hn : nodes.Nodup) :
    Turn (Named nodes edges) edges [] (inDegrees nodes edges)
      (nodes.filter fun n => ((inDegrees nodes edges).lookup n).getD 0 = 0) := by
  have hdeg (x : String) : ((inDegrees nodes edges).lookup x).getD 0 = remaining edges [] x := by
    rw [inDegrees_lookup, remaining]
    simp
  refine ⟨hn.filter _, hdeg, fun x => ?_⟩
  rw [List.nil_append, List.mem_filter, decide_eq_true_eq, hdeg, ← remaining_eq_zero]
  constructor
  · rintro ⟨hx, h⟩
    exact ⟨.inl hx, by omega⟩
  · rintro ⟨hx | ⟨e, he, hex⟩, h⟩
    · exact ⟨hx, by omega⟩
    · cases remaining_eq_zero.1 h e he hex

/-- A turn of the loop. -/
theorem Turn.next (h : Turn A edges done deg queue) (hA : ∀ e ∈ edges, A e.2) :
    Turn A edges (done ++ queue) (releaseLayer (adjacent edges) deg queue).1
      (releaseLayer (adjacent edges) deg queue).2 := by
  rw [releaseLayer_eq]
  obtain ⟨hdeg, hn, hm⟩ := foldl_release (queue.flatMap (adjacent edges)) deg
  have hrem (x : String) := remaining_append edges x h.nodup
  have hmem (x : String) : x ∈ ((queue.flatMap (adjacent edges)).foldl release (deg, [])).2 ↔
      remaining edges done x ≠ 0 ∧ remaining edges (done ++ queue) x = 0 := by
    have hx := hrem x
    rw [hm, h.degrees]
    omega
  refine ⟨?_, fun x => ?_, fun x => ?_⟩
  · refine List.nodup_append.2 ⟨h.nodup, hn, ?_⟩
    rintro x hx y hy rfl
    exact ((hmem x).1 hy).1 (remaining_eq_zero.2 ((h.members x).1 hx).2)
  · have hx := hrem x
    rw [hdeg, h.degrees]
    omega
  · rw [List.mem_append, h.members, hmem, ← remaining_eq_zero, ← remaining_eq_zero]
    have hx := hrem x
    constructor
    · rintro (⟨hAx, h₀⟩ | ⟨h₁, h₀⟩)
      · exact ⟨hAx, by omega⟩
      · obtain ⟨e, he, hp⟩ := List.countP_pos_iff.1 (Nat.pos_of_ne_zero h₁)
        obtain ⟨hex, -⟩ := of_decide_eq_true hp
        exact ⟨hex ▸ hA e he, h₀⟩
    · rintro ⟨hAx, h₀⟩
      by_cases h₁ : remaining edges done x = 0
      · exact .inl ⟨hAx, h₁⟩
      · exact .inr ⟨h₁, h₀⟩

theorem Turn.queue_iff (h : Turn A edges done deg queue) (x : String) :
    x ∈ queue ↔ x ∉ done ∧ A x ∧ Free edges done x := by
  rw [← h.members x, List.mem_append]
  constructor
  · intro hx
    exact ⟨fun hd => (List.nodup_append.1 h.nodup).2.2 x hd x hx rfl, .inr hx⟩
  · rintro ⟨hd, hx⟩
    exact hx.resolve_left hd

/-- The loop builds the layers. -/
theorem Turn.layered (h : Turn A edges done deg queue) (hA : ∀ e ∈ edges, A e.2) {n : Nat}
    {layers : List (List String)} (hl : layersFrom (adjacent edges) n deg queue = .ok layers) :
    Layered A edges done layers := by
  induction n generalizing done deg queue layers with
  | zero =>
    cases queue with
    | nil =>
      cases hl
      intro x hAx hf
      rw [← List.append_nil done, h.members]
      exact ⟨hAx, hf⟩
    | cons q queue => cases hl
  | succ n ih =>
    cases queue with
    | nil =>
      cases hl
      intro x hAx hf
      rw [← List.append_nil done, h.members]
      exact ⟨hAx, hf⟩
    | cons q queue =>
      rw [layersFrom] at hl
      obtain ⟨rest, hr, rfl⟩ := map_ok hl
      exact ⟨(List.nodup_append.1 h.nodup).2.1, h.queue_iff, ih (h.next hA) hr⟩

/-- The loop goes round no more often than there are edges, and once. -/
theorem Turn.exists_layers (h : Turn A edges done deg queue) (hA : ∀ e ∈ edges, A e.2) {n : Nat}
    (hn : edges.countP (fun e => e.1 ∉ done) < n) :
    ∃ layers, layersFrom (adjacent edges) n deg queue = .ok layers := by
  induction n generalizing done deg queue with
  | zero => exact (Nat.not_lt_zero _ hn).elim
  | succ n ih =>
    cases queue with
    | nil => exact ⟨[], rfl⟩
    | cons q queue =>
      rw [layersFrom]
      have hnext := h.next hA
      cases hq : (releaseLayer (adjacent edges) deg (q :: queue)).2 with
      | nil =>
        refine ⟨[q :: queue], ?_⟩
        cases n with
        | zero => rfl
        | succ n => rfl
      | cons x rest =>
        have hx : x ∈ (releaseLayer (adjacent edges) deg (q :: queue)).2 := hq ▸ .head _
        obtain ⟨hout, hAx, hfree⟩ := (hnext.queue_iff x).1 hx
        have hwas : ¬ Free edges done x := fun hf => hout ((h.members x).2 ⟨hAx, hf⟩)
        rw [Free] at hwas
        push Not at hwas
        obtain ⟨e, he, hex, hed⟩ := hwas
        have hlt : edges.countP (fun e => e.1 ∉ done ++ q :: queue) <
            edges.countP (fun e => e.1 ∉ done) := by
          refine countP_lt (fun y _ hy => ?_) he ?_ (decide_eq_true hed)
          · have hy := of_decide_eq_true hy
            exact decide_eq_true fun hm => hy (List.mem_append_left _ hm)
          · exact decide_eq_false (not_not_intro (hfree e he hex))
        obtain ⟨layers, hl⟩ := ih hnext (by omega)
        rw [← hq, hl]
        exact ⟨_, rfl⟩

end Obase.WorkflowEngine

namespace Obase.WorkflowEngine
set_option autoImplicit true
open DepthFirst Layering

variable {nodes : List String} {edges : List (String × String)}

theorem adjacent_edges : (fun x y => y ∈ adjacent edges x) = fun x y => (x, y) ∈ edges := by
  funext x y
  exact propext mem_adjacent

/-- The walk raises if a node leads to a cycle. -/
theorem detectCycle_cases (nodes : List String) (edges : List (String × String)) (n : Nat) :
    (detectCycle (nodes.length + edges.length + 1 + n) nodes edges = .ok () ∧
        ∀ a ∈ nodes, ∀ x, Relation.ReflTransGen (fun u v => (u, v) ∈ edges) a x →
          ¬ Relation.TransGen (fun u v => (u, v) ∈ edges) x x) ∨
      (∃ y, detectCycle (nodes.length + edges.length + 1 + n) nodes edges =
          .error (.cycleError (.involving y))) ∧
        ∃ a ∈ nodes, ∃ x, Relation.ReflTransGen (fun u v => (u, v) ∈ edges) a x ∧
          Relation.TransGen (fun u v => (u, v) ∈ edges) x x := by
  have hclosed : ∀ x ∈ nodes ++ edges.map Prod.snd,
      adjacent edges x ⊆ nodes ++ edges.map Prod.snd := fun x _ y hy =>
    List.mem_append_right _ (List.mem_map_of_mem (f := Prod.snd) (mem_adjacent.1 hy))
  have hlt : (nodes ++ edges.map Prod.snd).length < nodes.length + edges.length + 1 + n := by
    rw [List.length_append, List.length_map]
    omega
  obtain ⟨s, hs⟩ := search_isSome _ hclosed (List.subset_append_left _ _) hlt
  have hiff := search_cycles_iff hs
  rw [adjacent_edges] at hiff
  obtain ⟨hok, hc⟩ | ⟨herr, hc⟩ := detectCycle_follows hs
  · refine .inl ⟨hok, fun a ha x hpath hloop => ?_⟩
    exact hiff.2 ⟨a, ha, x, hpath, hloop⟩ hc
  · exact .inr ⟨herr, hiff.1 hc⟩

/-- A sort that meets no cycle builds the layers, and counts them. -/
theorem exists_layered (hn : nodes.Nodup) {limit : Nat} (hl : edges.length < limit)
    (hd : detectCycle limit nodes edges = .ok ()) :
    ∃ layers, Layered (Named nodes edges) edges [] layers ∧
      topologicalSort limit nodes edges =
        if layers.flatten.length ≠ nodes.length then .error (.cycleError .notAllProcessed)
        else .ok layers := by
  have hA : ∀ e ∈ edges, Named nodes edges e.2 := fun e he => .inr ⟨e, he, rfl⟩
  have hturn := turn_start edges hn
  have hle : edges.countP (fun e => e.1 ∉ ([] : List String)) ≤ edges.length :=
    List.countP_le_length
  obtain ⟨layers, hlayers⟩ := hturn.exists_layers hA (n := limit) (by omega)
  refine ⟨layers, hturn.layered hA hlayers, ?_⟩
  rw [topologicalSort, hd, List.length_flatten]
  simp only [bind, Except.bind, hlayers]

theorem sort_acyclic (hn : nodes.Nodup) (hends : ∀ e ∈ edges, e.1 ∈ nodes ∧ e.2 ∈ nodes)
    {limit : Nat} (hl : edges.length < limit) (hd : detectCycle limit nodes edges = .ok ())
    (hc : ¬ Cyclic fun u v => (u, v) ∈ edges) :
    ∃ layers, topologicalSort limit nodes edges = .ok layers ∧ layers.flatten.Perm nodes ∧
      Layered (Named nodes edges) edges [] layers := by
  obtain ⟨layers, hlay, he⟩ := exists_layered hn hl hd
  have hready := ready_of_acyclic (A := Named nodes edges) (fun x hx => .inl hx)
    (fun e he => (hends e he).1) fun x hx => hc ⟨x, hx⟩
  have hmem (x : String) : x ∈ layers.flatten ↔ x ∈ nodes := by
    rw [hlay.mem_iff_ready]
    constructor
    · rintro ⟨hx | ⟨e, he, rfl⟩, -⟩
      · exact hx
      · exact (hends e he).2
    · exact hready x
  have hperm : layers.flatten.Perm nodes :=
    (List.perm_ext_iff_of_nodup (hlay.nodup List.nodup_nil) hn).2 hmem
  refine ⟨layers, ?_, hperm, hlay⟩
  rw [he, if_neg (not_not_intro hperm.length_eq)]

variable (edges) in
/-- A sort raises a `CycleError` if there is a cycle, and puts each node into the layer of the
longest path that ends in it if there is none. -/
theorem topologicalSort_spec (hn : nodes.Nodup) (hends : ∀ e ∈ edges, e.1 ∈ nodes ∧ e.2 ∈ nodes)
    (n : Nat) :
    ((∃ e, topologicalSort (nodes.length + edges.length + 1 + n) nodes edges =
        .error (.cycleError e)) ↔ Cyclic fun u v => (u, v) ∈ edges) ∧
      (¬ (Cyclic fun u v => (u, v) ∈ edges) →
        ∃ layers, topologicalSort (nodes.length + edges.length + 1 + n) nodes edges = .ok layers ∧
          layers.flatten.Perm nodes ∧
          ∀ x ∈ nodes, ∀ k, At layers k x ↔ IsGreatest {m | PathTo edges x m} k) := by
  obtain ⟨hok, hnone⟩ | ⟨⟨y, herr⟩, hsome⟩ := detectCycle_cases nodes edges n
  · have hc : ¬ Cyclic fun u v => (u, v) ∈ edges := by
      rintro ⟨x, hloop⟩
      obtain ⟨y, hy, -⟩ := Relation.TransGen.head'_iff.1 hloop
      exact hnone x (hends _ hy).1 x .refl hloop
    obtain ⟨layers, he, hperm, hlay⟩ := sort_acyclic hn hends (by omega) hok hc
    refine ⟨⟨?_, fun h => (hc h).elim⟩, fun _ => ⟨layers, he, hperm, fun x hx k => ?_⟩⟩
    · rintro ⟨e, herr⟩
      rw [he] at herr
      cases herr
    · refine ⟨hlay.isGreatest, fun hk => ?_⟩
      obtain ⟨j, hj⟩ := mem_flatten_iff_at.1 (hperm.mem_iff.2 hx)
      rwa [hk.unique (hlay.isGreatest hj)]
  · obtain ⟨a, -, x, -, hloop⟩ := hsome
    refine ⟨⟨fun _ => ⟨x, hloop⟩, fun _ => ⟨.involving y, ?_⟩⟩, fun hc => (hc ⟨x, hloop⟩).elim⟩
    rw [topologicalSort, herr]
    rfl

/-- Two edges that are one, and a path past a node. -/
theorem topologicalSort_diamond :
    (∃ e, topologicalSort (3 + 4 + 1 + 0) ["a", "b", "c"]
        [("a", "b"), ("a", "b"), ("b", "c"), ("a", "c")] = .error (.cycleError e)) ↔
      Cyclic fun u v => (u, v) ∈ [("a", "b"), ("a", "b"), ("b", "c"), ("a", "c")] :=
  (topologicalSort_spec [("a", "b"), ("a", "b"), ("b", "c"), ("a", "c")]
    (show ["a", "b", "c"].Nodup by decide) (by decide) 0).1

/-- The layers hold the nodes, and every edge between two of them leads to a later layer. -/
def Partition (nodes : List String) (edges : List (String × String))
    (layers : List (List String)) : Prop :=
  layers.flatten.Perm nodes ∧
    ∀ e ∈ edges, e.1 ∈ nodes → e.2 ∈ nodes →
      ∀ j k, At layers j e.1 → At layers k e.2 → j < k

theorem partition_iff (hn : nodes.Nodup) {layers : List (List String)}
    (hlay : Layered (Named nodes edges) edges [] layers)
    (hlen : layers.flatten.length = nodes.length) :
    Partition nodes edges layers ↔ ∀ x ∈ nodes, Ready (Named nodes edges) edges x := by
  have hnd : layers.flatten.Nodup := hlay.nodup List.nodup_nil
  constructor
  · rintro ⟨hperm, -⟩ x hx
    exact (hlay.mem_iff_ready x).1 (hperm.mem_iff.2 hx)
  · intro hready
    have hsub : nodes ⊆ layers.flatten := fun x hx => (hlay.mem_iff_ready x).2 (hready x hx)
    refine ⟨((hn.subperm hsub).perm_of_length_le hlen.le).symm, ?_⟩
    intro e he _ _ j k hj hk
    obtain hd | ⟨i, hi, hati⟩ := hlay.pred hk he rfl
    · cases hd
    · have hij : i = j := (hlay.isGreatest hati).unique (hlay.isGreatest hj)
      omega

theorem ncard_ready {layers : List (List String)}
    (hlay : Layered (Named nodes edges) edges [] layers) :
    {x | Ready (Named nodes edges) edges x}.ncard = layers.flatten.length := by
  have hset : {x | Ready (Named nodes edges) edges x} = (layers.flatten.toFinset : Set String) := by
    ext x
    rw [List.coe_toFinset]
    exact (hlay.mem_iff_ready x).symm
  have hnd : layers.flatten.Nodup := hlay.nodup List.nodup_nil
  rw [hset, Set.ncard_coe_finset, List.toFinset_card_of_nodup hnd]

variable (edges) in
/-- What a sort returns is a partition if every node is ready, if there are not as many ready names
as nodes, or if a node leads to a cycle. -/
theorem topologicalSort_partition_iff (hn : nodes.Nodup) (n : Nat) :
    (∀ layers, topologicalSort (nodes.length + edges.length + 1 + n) nodes edges = .ok layers →
        Partition nodes edges layers) ↔
      (∀ x ∈ nodes, Ready (Named nodes edges) edges x) ∨
        {x | Ready (Named nodes edges) edges x}.ncard ≠ nodes.length ∨
        ∃ a ∈ nodes, ∃ x, Relation.ReflTransGen (fun u v => (u, v) ∈ edges) a x ∧
          Relation.TransGen (fun u v => (u, v) ∈ edges) x x := by
  obtain ⟨hok, hnone⟩ | ⟨⟨y, herr⟩, hsome⟩ := detectCycle_cases nodes edges n
  · obtain ⟨layers, hlay, he⟩ := exists_layered hn (by omega) hok
    rw [ncard_ready hlay, he]
    by_cases hlen : layers.flatten.length = nodes.length
    · rw [if_neg (not_not_intro hlen), ← partition_iff hn hlay hlen]
      constructor
      · exact fun h => .inl (h layers rfl)
      · rintro (h | h | ⟨a, ha, x, hpath, hloop⟩) layers' he'
        · cases he'
          exact h
        · exact (h hlen).elim
        · exact (hnone a ha x hpath hloop).elim
    · rw [if_pos hlen]
      exact ⟨fun _ => .inr (.inl hlen), fun _ layers' he' => by cases he'⟩
  · refine ⟨fun _ => .inr (.inr hsome), fun _ layers he => ?_⟩
    rw [topologicalSort, herr] at he
    cases he

theorem topologicalSort_partition_fork :
    (∀ layers, topologicalSort (3 + 2 + 1 + 0) ["a", "b", "c"] [("a", "b"), ("a", "c")] =
        .ok layers → Partition ["a", "b", "c"] [("a", "b"), ("a", "c")] layers) ↔
      (∀ x ∈ ["a", "b", "c"],
          Ready (Named ["a", "b", "c"] [("a", "b"), ("a", "c")]) [("a", "b"), ("a", "c")] x) ∨
        {x | Ready (Named ["a", "b", "c"] [("a", "b"), ("a", "c")])
          [("a", "b"), ("a", "c")] x}.ncard ≠ 3 ∨
        ∃ a ∈ ["a", "b", "c"], ∃ x,
          Relation.ReflTransGen (fun u v => (u, v) ∈ [("a", "b"), ("a", "c")]) a x ∧
            Relation.TransGen (fun u v => (u, v) ∈ [("a", "b"), ("a", "c")]) x x :=
  topologicalSort_partition_iff [("a", "b"), ("a", "c")]
    (show ["a", "b", "c"].Nodup by decide) 0

/-- A name that no list has takes the place of a node that waits for another such name. -/
theorem topologicalSort_not_partition :
    topologicalSort 1000 ["a", "b"] [("x", "b"), ("a", "y")] = .ok [["a"], ["y"]] ∧
      ¬ Partition ["a", "b"] [("x", "b"), ("a", "y")] [["a"], ["y"]] := by
  refine ⟨by decide +kernel, fun h => ?_⟩
  have hb : "b" ∈ [["a"], ["y"]].flatten := h.1.mem_iff.2 (by decide)
  exact absurd hb (by decide)

end Obase.WorkflowEngine
