import Mathlib.Data.List.Chain
import Mathlib.Logic.Relation

namespace Obase
set_option autoImplicit true

theorem countP_lt {p q : α → Bool} {xs : List α} (h : ∀ x ∈ xs, p x = true → q x = true) {x : α}
    (hx : x ∈ xs) (hp : p x = false) (hq : q x = true) : xs.countP p < xs.countP q := by
  obtain ⟨as, bs, rfl⟩ := List.append_of_mem hx
  have h₁ : as.countP p ≤ as.countP q :=
    List.countP_mono_left fun y hy => h y (List.mem_append_left _ hy)
  have h₂ : bs.countP p ≤ bs.countP q :=
    List.countP_mono_left fun y hy => h y (List.mem_append_right _ (.tail _ hy))
  rw [List.countP_append, List.countP_append, List.countP_cons_of_neg (by simp [hp]),
    List.countP_cons_of_pos hq]
  omega

namespace DepthFirst

/-- A simple directed cycle, from one of its nodes on. -/
structure IsCycle (r : ν → ν → Prop) (c : List ν) : Prop where
  ne_nil : c ≠ []
  nodup : c.Nodup
  chain : c.IsChain r
  closes : r (c.getLast ne_nil) (c.head ne_nil)

/-- Some node leads back to itself. -/
def Cyclic (r : ν → ν → Prop) : Prop := ∃ x, Relation.TransGen r x x

theorem IsCycle.of_mem {r r' : ν → ν → Prop} {c : List ν} (h : IsCycle r c)
    (hr : ∀ x ∈ c, ∀ y ∈ c, r x y → r' x y) : IsCycle r' c :=
  ⟨h.ne_nil, h.nodup, h.chain.imp_of_mem_imp fun x y hx hy => hr x hx y hy,
    hr _ (List.getLast_mem _) _ (List.head_mem _) h.closes⟩

/-- What a depth-first search has visited, the nodes it has entered and not left yet, and the
cycles it has met. -/
structure Search (ν : Type) where
  visited : List ν
  path : List ν
  cycles : List (List ν)

variable {ν : Type} [DecidableEq ν]

/-- A search from a node, `none` where it would go deeper than it may. -/
def dfs (succ : ν → List ν) : Nat → ν → Search ν → Option (Search ν)
  | 0, _, _ => none
  | n + 1, node, s =>
    if node ∈ s.path then
      some { s with cycles := s.cycles ++ [s.path.drop (s.path.idxOf node)] }
    else if node ∈ s.visited then some s
    else
      ((succ node).foldlM (fun s next => dfs succ n next s)
        ⟨node :: s.visited, s.path ++ [node], s.cycles⟩).map fun s =>
          { s with path := s.path.dropLast }

/-- A search from each of these nodes that none before has visited. -/
def search (succ : ν → List ν) (n : Nat) (nodes : List ν) : Option (Search ν) :=
  nodes.foldlM (fun s node => if node ∈ s.visited then some s else dfs succ n node s) ⟨[], [], []⟩

/-- The node has been left. -/
def Search.Left (s : Search ν) (x : ν) : Prop := x ∈ s.visited ∧ x ∉ s.path

/-- What holds between the steps of a search over the edges `r`. -/
structure Search.Ok (r : ν → ν → Prop) (s : Search ν) : Prop where
  nodup : s.path.Nodup
  entered : ∀ x ∈ s.path, x ∈ s.visited
  chain : s.path.IsChain r
  cycles : ∀ c ∈ s.cycles, IsCycle r c
  left : s.cycles = [] → ∀ x, s.Left x → (∀ y, r x y → s.Left y) ∧ ¬ Relation.TransGen r x x

/-- What a search leaves as it was. -/
structure Search.Extends (s s' : Search ν) : Prop where
  path : s'.path = s.path
  visited : s.visited ⊆ s'.visited
  cycles : s'.cycles = [] → s.cycles = []

omit [DecidableEq ν] in
theorem Search.Extends.refl (s : Search ν) : s.Extends s := ⟨rfl, List.Subset.refl _, id⟩

omit [DecidableEq ν] in
theorem Search.Extends.trans {s s' s'' : Search ν} (h : s.Extends s') (h' : s'.Extends s'') :
    s.Extends s'' :=
  ⟨h'.path.trans h.path, fun _ hx => h'.visited (h.visited hx), fun hc => h.cycles (h'.cycles hc)⟩

omit [DecidableEq ν] in
theorem Search.Extends.left {s s' : Search ν} (h : s.Extends s') {x : ν} (hx : s.Left x) :
    s'.Left x := ⟨h.visited hx.1, h.path ▸ hx.2⟩

omit [DecidableEq ν] in
/-- The nodes that have been left lead to no others. -/
theorem Search.Ok.closed {r : ν → ν → Prop} {s : Search ν} (h : s.Ok r) (hc : s.cycles = [])
    {x y : ν} (hx : s.Left x) (hp : Relation.ReflTransGen r x y) : s.Left y := by
  induction hp with
  | refl => exact hx
  | tail _ he ih => exact ((h.left hc _ ih).1 _ he)

/-- The path from a node on it is a cycle when the last node leads to it. -/
theorem Search.Ok.isCycle {r : ν → ν → Prop} {s : Search ν} (h : s.Ok r) {node : ν}
    (hn : node ∈ s.path) (hlast : ∀ x ∈ s.path.getLast?, r x node) :
    IsCycle r (s.path.drop (s.path.idxOf node)) := by
  have hlt := List.idxOf_lt_length_of_mem hn
  have hne : s.path.drop (s.path.idxOf node) ≠ [] := by
    rw [Ne, List.drop_eq_nil_iff]
    omega
  refine ⟨hne, (List.drop_sublist _ _).nodup h.nodup, h.chain.drop _, ?_⟩
  have hhead : (s.path.drop (s.path.idxOf node)).head hne = node := by
    rw [List.head_drop, List.getElem_idxOf]
  rw [hhead]
  apply hlast
  rw [List.getLast_drop hne, Option.mem_def, List.getLast?_eq_some_getLast]

omit [DecidableEq ν] in
/-- Entering a node that has not been visited. -/
theorem Search.Ok.enter {r : ν → ν → Prop} {s : Search ν} (h : s.Ok r) {node : ν}
    (hn : node ∉ s.visited) (hlast : ∀ x ∈ s.path.getLast?, r x node) :
    Search.Ok r ⟨node :: s.visited, s.path ++ [node], s.cycles⟩ := by
  have hp : node ∉ s.path := fun hm => hn (h.entered node hm)
  refine ⟨?_, ?_, ?_, h.cycles, ?_⟩
  · rw [List.nodup_append]
    refine ⟨h.nodup, List.nodup_cons.2 ⟨List.not_mem_nil, List.nodup_nil⟩, fun x hx y hy => ?_⟩
    rw [List.mem_singleton.1 hy]
    rintro rfl
    exact hp hx
  · intro x hx
    obtain hx | hx := List.mem_append.1 hx
    · exact .tail _ (h.entered x hx)
    · rw [List.mem_singleton.1 hx]
      exact .head _
  · rw [List.isChain_append]
    refine ⟨h.chain, .singleton node, fun x hx y hy => ?_⟩
    cases hy
    exact hlast x hx
  · rintro hc x ⟨hx, hxp⟩
    rw [List.mem_append, not_or, List.mem_singleton] at hxp
    obtain rfl | hx := List.mem_cons.1 hx
    · exact (hxp.2 rfl).elim
    obtain ⟨hclosed, hloop⟩ := h.left hc x ⟨hx, hxp.1⟩
    refine ⟨fun y hy => ?_, hloop⟩
    obtain ⟨hyv, hyp⟩ := hclosed y hy
    refine ⟨.tail _ hyv, fun hm => ?_⟩
    obtain hm | hm := List.mem_append.1 hm
    · exact hyp hm
    · rw [List.mem_singleton.1 hm] at hyv
      exact hn hyv

omit [DecidableEq ν] in
/-- Leaving a node that leads to nodes that have been left. -/
theorem Search.Ok.leave {r : ν → ν → Prop} {s : Search ν} (h : s.Ok r) {path : List ν} {node : ν}
    (hp : s.path = path ++ [node]) (hnext : s.cycles = [] → ∀ y, r node y → s.Left y) :
    Search.Ok r { s with path := s.path.dropLast } := by
  have hdrop : s.path.dropLast = path := by rw [hp, List.dropLast_concat]
  have hsub : ∀ x, x ∈ path → x ∈ s.path := fun x hx => hp ▸ List.mem_append_left _ hx
  rw [hdrop]
  refine ⟨?_, fun x hx => h.entered x (hsub x hx), ?_, h.cycles, ?_⟩
  · have hn := h.nodup
    rw [hp] at hn
    exact (List.nodup_append.1 hn).1
  · have hchain := h.chain
    rw [hp] at hchain
    exact hchain.left_of_append
  · rintro hc x ⟨hx, hxp⟩
    have hweak {y : ν} (hy : s.Left y) : y ∈ s.visited ∧ y ∉ path :=
      ⟨hy.1, fun hm => hy.2 (hsub y hm)⟩
    by_cases he : x = node
    · subst he
      refine ⟨fun y hy => hweak (hnext hc y hy), fun hloop => ?_⟩
      obtain ⟨y, hy, hback⟩ := Relation.TransGen.head'_iff.1 hloop
      refine (h.closed hc (hnext hc y hy) hback).2 ?_
      rw [hp]
      exact List.mem_append_right _ (.head _)
    · have hxs : s.Left x := by
        refine ⟨hx, fun hm => ?_⟩
        rw [hp] at hm
        obtain hm | hm := List.mem_append.1 hm
        · exact hxp hm
        · exact he (List.mem_singleton.1 hm)
      obtain ⟨hclosed, hloop⟩ := h.left hc x hxs
      exact ⟨fun y hy => hweak (hclosed y hy), hloop⟩

/-- What a search from a node comes to. -/
structure Search.Visits (r : ν → ν → Prop) (s : Search ν) (nodes : List ν) (s' : Search ν) :
    Prop where
  ok : s'.Ok r
  grown : s.Extends s'
  visited : ∀ x ∈ nodes, x ∈ s'.visited
  left : s'.cycles = [] → ∀ x ∈ nodes, s'.Left x

variable {succ : ν → List ν}

omit [DecidableEq ν] in
/-- A search from one node after another. -/
theorem foldlM_visits {f : Search ν → ν → Option (Search ν)} {r : ν → ν → Prop} {path : List ν}
    {nodes : List ν} {s s' : Search ν}
    (hf : ∀ s s' : Search ν, ∀ x ∈ nodes, s.Ok r → s.path = path → f s x = some s' →
      s.Visits r [x] s')
    (hs : s.Ok r) (hp : s.path = path) (h : nodes.foldlM f s = some s') :
    s.Visits r nodes s' := by
  induction nodes generalizing s with
  | nil =>
    cases h
    exact ⟨hs, .refl _, List.forall_mem_nil _, fun _ => List.forall_mem_nil _⟩
  | cons x nodes ih =>
    rw [List.foldlM_cons, Option.bind_eq_bind, Option.bind_eq_some_iff] at h
    obtain ⟨s₁, h₁, h⟩ := h
    have hx := hf s s₁ x (.head _) hs hp h₁
    have hrest := ih (fun s s' y hy => hf s s' y (.tail _ hy)) hx.ok (hx.grown.path.trans hp) h
    refine ⟨hrest.ok, hx.grown.trans hrest.grown, ?_, ?_⟩
    · rw [List.forall_mem_cons]
      exact ⟨hrest.grown.visited (hx.visited x (.head _)), hrest.visited⟩
    · intro hc
      rw [List.forall_mem_cons]
      exact ⟨hrest.grown.left (hx.left (hrest.grown.cycles hc) x (.head _)), hrest.left hc⟩

omit [DecidableEq ν] in
theorem foldlM_extends {f : Search ν → ν → Option (Search ν)} {nodes : List ν} {s s' : Search ν}
    (hf : ∀ s s' : Search ν, ∀ x ∈ nodes, f s x = some s' → s.Extends s')
    (h : nodes.foldlM f s = some s') : s.Extends s' := by
  induction nodes generalizing s with
  | nil =>
    cases h
    exact .refl _
  | cons x nodes ih =>
    rw [List.foldlM_cons, Option.bind_eq_bind, Option.bind_eq_some_iff] at h
    obtain ⟨s₁, h₁, h⟩ := h
    exact (hf s s₁ x (.head _) h₁).trans (ih (fun u u' y hy => hf u u' y (.tail _ hy)) h)

theorem dfs_extends {n : Nat} {node : ν} {s s' : Search ν} (h : dfs succ n node s = some s') :
    s.Extends s' := by
  induction n generalizing node s s' with
  | zero => cases h
  | succ n ih =>
    rw [dfs] at h
    split at h
    · cases h
      exact ⟨rfl, List.Subset.refl _, fun hc => (List.append_eq_nil_iff.1 hc).1⟩
    · split at h
      · cases h
        exact .refl _
      · obtain ⟨t, ht, rfl⟩ := Option.map_eq_some_iff.1 h
        obtain ⟨hpath, hvisited, hcycles⟩ := foldlM_extends (fun u u' x _ he => ih he) ht
        refine ⟨?_, fun x hx => hvisited (.tail _ hx), hcycles⟩
        rw [hpath, List.dropLast_concat]

theorem dfs_visits {n : Nat} {node : ν} {s s' : Search ν} (hs : s.Ok fun x y => y ∈ succ x)
    (hlast : ∀ x ∈ s.path.getLast?, node ∈ succ x) (h : dfs succ n node s = some s') :
    s.Visits (fun x y => y ∈ succ x) [node] s' := by
  induction n generalizing node s s' with
  | zero => cases h
  | succ n ih =>
    rw [dfs] at h
    split at h
    · rename_i hp
      cases h
      refine ⟨⟨hs.nodup, hs.entered, hs.chain, ?_, fun hc => ?_⟩,
        ⟨rfl, List.Subset.refl _, fun hc => ?_⟩, ?_, fun hc => ?_⟩
      · intro c hc
        obtain hc | hc := List.mem_append.1 hc
        · exact hs.cycles c hc
        · rw [List.mem_singleton.1 hc]
          exact hs.isCycle hp hlast
      · cases (List.append_eq_nil_iff.1 hc).2
      · cases (List.append_eq_nil_iff.1 hc).2
      · exact List.forall_mem_singleton.2 (hs.entered node hp)
      · cases (List.append_eq_nil_iff.1 hc).2
    · rename_i hp
      split at h
      · rename_i hv
        cases h
        exact ⟨hs, .refl s, List.forall_mem_singleton.2 hv,
          fun _ => List.forall_mem_singleton.2 ⟨hv, hp⟩⟩
      · rename_i hv
        obtain ⟨t, ht, rfl⟩ := Option.map_eq_some_iff.1 h
        have hvis : Search.Visits (fun x y => y ∈ succ x)
            ⟨node :: s.visited, s.path ++ [node], s.cycles⟩ (succ node) t := by
          refine foldlM_visits (fun u u' y hy hu hp he => ih hu ?_ he) (hs.enter hv hlast) rfl ht
          intro x hx
          rw [hp, List.getLast?_concat, Option.mem_some_iff] at hx
          rw [← hx]
          exact hy
        have hpath : t.path = s.path ++ [node] := hvis.grown.path
        refine ⟨hvis.ok.leave hpath hvis.left, ⟨?_, ?_, hvis.grown.cycles⟩, ?_, fun _ => ?_⟩
        · rw [hpath, List.dropLast_concat]
        · exact fun x hx => hvis.grown.visited (.tail _ hx)
        · exact List.forall_mem_singleton.2 (hvis.grown.visited (.head _))
        · refine List.forall_mem_singleton.2 ⟨hvis.grown.visited (.head _), ?_⟩
          rw [hpath, List.dropLast_concat]
          exact hp

theorem search_visits {n : Nat} {nodes : List ν} {s : Search ν}
    (h : search succ n nodes = some s) :
    Search.Visits (fun x y => y ∈ succ x) ⟨[], [], []⟩ nodes s := by
  have hnew : Search.Ok (fun x y => y ∈ succ x) (⟨[], [], []⟩ : Search ν) :=
    ⟨List.nodup_nil, List.forall_mem_nil _, .nil, List.forall_mem_nil _,
      fun _ x hx => (List.not_mem_nil hx.1).elim⟩
  refine foldlM_visits (fun u u' x _ hu hp he => ?_) hnew rfl h
  split at he
  · rename_i hx
    cases he
    refine ⟨hu, .refl u, List.forall_mem_singleton.2 hx,
      fun _ => List.forall_mem_singleton.2 ⟨hx, ?_⟩⟩
    rw [hp]
    exact List.not_mem_nil
  · refine dfs_visits hu ?_ he
    rw [hp]
    simp

/-- Every cycle that a search meets is one of the graph. -/
theorem search_sound {n : Nat} {nodes : List ν} {s : Search ν} (h : search succ n nodes = some s) :
    ∀ c ∈ s.cycles, IsCycle (fun x y => y ∈ succ x) c := (search_visits h).ok.cycles

omit [DecidableEq ν] in
/-- What a search walks over has every property that the edges hand on. -/
theorem foldlM_within {f : Search ν → ν → Option (Search ν)} {P : ν → Prop} {nodes : List ν}
    {s s' : Search ν}
    (hf : ∀ s s' : Search ν, ∀ x ∈ nodes, (∀ y ∈ s.path, P y) → (∀ c ∈ s.cycles, ∀ y ∈ c, P y) →
      f s x = some s' → (∀ y ∈ s'.path, P y) ∧ ∀ c ∈ s'.cycles, ∀ y ∈ c, P y)
    (hp : ∀ y ∈ s.path, P y) (hc : ∀ c ∈ s.cycles, ∀ y ∈ c, P y)
    (h : nodes.foldlM f s = some s') :
    (∀ y ∈ s'.path, P y) ∧ ∀ c ∈ s'.cycles, ∀ y ∈ c, P y := by
  induction nodes generalizing s with
  | nil =>
    cases h
    exact ⟨hp, hc⟩
  | cons x nodes ih =>
    rw [List.foldlM_cons, Option.bind_eq_bind, Option.bind_eq_some_iff] at h
    obtain ⟨s₁, h₁, h⟩ := h
    obtain ⟨hp₁, hc₁⟩ := hf s s₁ x (.head _) hp hc h₁
    exact ih (fun s s' y hy => hf s s' y (.tail _ hy)) hp₁ hc₁ h

theorem dfs_within {P : ν → Prop} (hP : ∀ x y, P x → y ∈ succ x → P y) {n : Nat} {node : ν}
    {s s' : Search ν} (hnode : P node) (hp : ∀ y ∈ s.path, P y) (hc : ∀ c ∈ s.cycles, ∀ y ∈ c, P y)
    (h : dfs succ n node s = some s') :
    (∀ y ∈ s'.path, P y) ∧ ∀ c ∈ s'.cycles, ∀ y ∈ c, P y := by
  induction n generalizing node s s' with
  | zero => cases h
  | succ n ih =>
    rw [dfs] at h
    split at h
    · cases h
      refine ⟨hp, fun c hm => ?_⟩
      obtain hm | hm := List.mem_append.1 hm
      · exact hc c hm
      · rw [List.mem_singleton.1 hm]
        exact fun y hy => hp y (List.mem_of_mem_drop hy)
    · split at h
      · cases h
        exact ⟨hp, hc⟩
      · obtain ⟨t, ht, rfl⟩ := Option.map_eq_some_iff.1 h
        have hpath : ∀ y ∈ s.path ++ [node], P y := by
          intro y hy
          obtain hy | hy := List.mem_append.1 hy
          · exact hp y hy
          · rw [List.mem_singleton.1 hy]
            exact hnode
        obtain ⟨hp', hc'⟩ := foldlM_within (s := ⟨node :: s.visited, s.path ++ [node], s.cycles⟩)
          (fun u u' x hx hpu hcu he => ih (hP node x hnode hx) hpu hcu he) hpath hc ht
        exact ⟨fun y hy => hp' y (List.dropLast_subset _ hy), hc'⟩

/-- A search meets a cycle if there is one that its starts lead to. -/
theorem search_cycles_iff {n : Nat} {nodes : List ν} {s : Search ν}
    (h : search succ n nodes = some s) :
    s.cycles ≠ [] ↔ ∃ a ∈ nodes, ∃ x, Relation.ReflTransGen (fun x y => y ∈ succ x) a x ∧
      Relation.TransGen (fun x y => y ∈ succ x) x x := by
  constructor
  · intro hc
    obtain ⟨c, hc⟩ := List.exists_mem_of_ne_nil _ hc
    have hcycle := search_sound h c hc
    have hwithin : ∀ c ∈ s.cycles, ∀ x ∈ c,
        ∃ a ∈ nodes, Relation.ReflTransGen (fun x y => y ∈ succ x) a x := by
      refine (foldlM_within (fun u u' x hx hp hcs he => ?_) (List.forall_mem_nil _)
        (List.forall_mem_nil _) h).2
      split at he
      · cases he
        exact ⟨hp, hcs⟩
      · refine dfs_within (fun x y => ?_) ⟨x, hx, .refl⟩ hp hcs he
        rintro ⟨a, ha, hpath⟩ hy
        exact ⟨a, ha, hpath.tail hy⟩
    obtain ⟨hne, -, hchain, hcloses⟩ := hcycle
    cases c with
    | nil => exact (hne rfl).elim
    | cons x c =>
      obtain ⟨a, ha, hpath⟩ := hwithin _ hc x (.head _)
      exact ⟨a, ha, x, hpath,
        .tail' (List.relationReflTransGen_of_exists_isChain_cons c hchain rfl) hcloses⟩
  · rintro ⟨a, ha, x, hpath, hloop⟩ hc
    have hvis := search_visits h
    exact (hvis.ok.left hc x (hvis.ok.closed hc (hvis.left hc a ha) hpath)).2 hloop

/-- A search from all the nodes that lead anywhere meets a cycle if there is one. -/
theorem search_complete {n : Nat} {nodes : List ν} {s : Search ν}
    (hn : ∀ x y, y ∈ succ x → x ∈ nodes) (h : search succ n nodes = some s) :
    s.cycles ≠ [] ↔ Cyclic fun x y => y ∈ succ x := by
  rw [search_cycles_iff h]
  constructor
  · rintro ⟨-, -, x, -, hloop⟩
    exact ⟨x, hloop⟩
  · rintro ⟨x, hloop⟩
    obtain ⟨y, hy, -⟩ := Relation.TransGen.head'_iff.1 hloop
    exact ⟨x, hn x y hy, x, .refl, hloop⟩

/-- The nodes that have not been visited. -/
def unseen (nodes : List ν) (s : Search ν) : Nat := nodes.countP fun x => x ∉ s.visited

theorem unseen_le {nodes : List ν} {s s' : Search ν} (h : s.visited ⊆ s'.visited) :
    unseen nodes s' ≤ unseen nodes s := by
  refine List.countP_mono_left fun x _ hx => ?_
  rw [decide_eq_true_eq] at hx ⊢
  exact fun hm => hx (h hm)

theorem unseen_lt {nodes : List ν} {s : Search ν} {x : ν} (hx : x ∈ nodes) (hv : x ∉ s.visited)
    (path : List ν) (cycles : List (List ν)) :
    unseen nodes ⟨x :: s.visited, path, cycles⟩ < unseen nodes s := by
  refine countP_lt (fun y _ hy => ?_) hx (by simp) (decide_eq_true hv)
  have hy := of_decide_eq_true hy
  exact decide_eq_true fun hm => hy (.tail _ hm)

omit [DecidableEq ν] in
theorem foldlM_isSome (f : Search ν → ν → Option (Search ν)) (nodes visited : List ν) (s : Search ν)
    (hf : ∀ s : Search ν, ∀ x ∈ nodes, visited ⊆ s.visited →
      ∃ s', f s x = some s' ∧ s.visited ⊆ s'.visited) (hs : visited ⊆ s.visited) :
    ∃ s', nodes.foldlM f s = some s' ∧ s.visited ⊆ s'.visited := by
  induction nodes generalizing s with
  | nil => exact ⟨s, rfl, List.Subset.refl _⟩
  | cons x nodes ih =>
    obtain ⟨s₁, h₁, hsub⟩ := hf s x (.head _) hs
    obtain ⟨s₂, h₂, hsub'⟩ := ih s₁ (fun s y hy => hf s y (.tail _ hy)) fun y hy => hsub (hs hy)
    refine ⟨s₂, ?_, fun y hy => hsub' (hsub hy)⟩
    rw [List.foldlM_cons, h₁, Option.bind_eq_bind, Option.bind_some, h₂]

/-- A search that may go deeper than there are nodes to visit comes to an end. -/
theorem dfs_isSome {nodes : List ν} (hn : ∀ x ∈ nodes, succ x ⊆ nodes) {n : Nat} {node : ν}
    {s : Search ν} (hnode : node ∈ nodes) (h : unseen nodes s < n) :
    ∃ s', dfs succ n node s = some s' ∧ s.visited ⊆ s'.visited := by
  induction n generalizing node s with
  | zero => exact (Nat.not_lt_zero _ h).elim
  | succ n ih =>
    rw [dfs]
    split
    · exact ⟨_, rfl, List.Subset.refl _⟩
    · split
      · exact ⟨s, rfl, List.Subset.refl _⟩
      · rename_i hv
        have hlt := unseen_lt hnode hv (s.path ++ [node]) s.cycles
        obtain ⟨t, ht, hsub⟩ := foldlM_isSome (fun s next => dfs succ n next s)
          (succ node) (node :: s.visited) ⟨node :: s.visited, s.path ++ [node], s.cycles⟩
          (fun u x hx hu => ih (hn node hnode hx) (by
            have hle : unseen nodes u ≤ unseen nodes ⟨node :: s.visited, s.path ++ [node],
              s.cycles⟩ := unseen_le hu
            omega)) (List.Subset.refl _)
        rw [ht]
        exact ⟨_, rfl, fun x hx => hsub (.tail _ hx)⟩

variable (succ) in
theorem search_isSome {nodes starts : List ν} (hn : ∀ x ∈ nodes, succ x ⊆ nodes)
    (hs : starts ⊆ nodes) {n : Nat} (h : nodes.length < n) :
    ∃ s, search succ n starts = some s := by
  obtain ⟨s, he, -⟩ := foldlM_isSome
    (fun s node => if node ∈ s.visited then some s else dfs succ n node s) starts [] ⟨[], [], []⟩
    (fun u x hx _ => by
      split
      · exact ⟨u, rfl, List.Subset.refl _⟩
      · have hle : unseen nodes u ≤ nodes.length := List.countP_le_length
        exact dfs_isSome hn (hs hx) (by omega)) (List.nil_subset _)
  exact ⟨s, he⟩

end DepthFirst
end Obase
