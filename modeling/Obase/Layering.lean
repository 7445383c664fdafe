import Mathlib.Data.List.Chain
import Mathlib.Data.Set.Finite.Basic
import Mathlib.Logic.Relation
import Mathlib.Order.Bounds.Basic
import Mathlib.Order.WellFounded

namespace Obase.Layering
set_option autoImplicit true

variable {ν : Type}

/-- Every edge into the node comes from one of these. -/
def Free (edges : List (ν × ν)) (done : List ν) (x : ν) : Prop :=
  ∀ e ∈ edges, e.2 = x → e.1 ∈ done

theorem Free.mono {edges : List (ν × ν)} {done done' : List ν} {x : ν} (h : Free edges done x)
    (hs : done ⊆ done') : Free edges done' x := fun e he hx => hs (h e he hx)

/-- The layers of the nodes `A` behind those that are done: each has the nodes that the ones before
it set free, and the last leaves no such node. -/
def Layered (A : ν → Prop) (edges : List (ν × ν)) : List ν → List (List ν) → Prop
  | done, [] => ∀ x, A x → Free edges done x → x ∈ done
  | done, layer :: layers =>
    layer.Nodup ∧ (∀ x, x ∈ layer ↔ x ∉ done ∧ A x ∧ Free edges done x) ∧
      Layered A edges (done ++ layer) layers

/-- The node is in the layer of this index. -/
def At (layers : List (List ν)) (k : Nat) (x : ν) : Prop := ∃ l, layers[k]? = some l ∧ x ∈ l

theorem at_zero {layer : List ν} {layers : List (List ν)} {x : ν} :
    At (layer :: layers) 0 x ↔ x ∈ layer := by
  simp [At]

theorem at_succ {layer : List ν} {layers : List (List ν)} {k : Nat} {x : ν} :
    At (layer :: layers) (k + 1) x ↔ At layers k x := by
  simp [At]

theorem mem_flatten_iff_at {layers : List (List ν)} {x : ν} :
    x ∈ layers.flatten ↔ ∃ k, At layers k x := by
  rw [List.mem_flatten]
  constructor
  · rintro ⟨l, hl, hx⟩
    obtain ⟨k, hk⟩ := List.mem_iff_getElem?.1 hl
    exact ⟨k, l, hk, hx⟩
  · rintro ⟨k, l, hk, hx⟩
    exact ⟨l, List.mem_of_getElem? hk, hx⟩

namespace Layered
variable {A : ν → Prop} {edges : List (ν × ν)} {done : List ν} {layers : List (List ν)}

theorem nodup (h : Layered A edges done layers) (hd : done.Nodup) :
    (done ++ layers.flatten).Nodup := by
  induction layers generalizing done with
  | nil => rwa [List.flatten_nil, List.append_nil]
  | cons layer layers ih =>
    obtain ⟨hn, hm, h⟩ := h
    rw [List.flatten_cons, ← List.append_assoc]
    refine ih h (List.nodup_append.2 ⟨hd, hn, ?_⟩)
    rintro x hx y hy rfl
    exact ((hm x).1 hy).1 hx

/-- The layers together are closed under what their nodes set free. -/
theorem mem_iff (h : Layered A edges done layers)
    (hd : ∀ x ∈ done, A x ∧ Free edges done x) (x : ν) :
    x ∈ done ++ layers.flatten ↔ A x ∧ Free edges (done ++ layers.flatten) x := by
  induction layers generalizing done with
  | nil =>
    rw [List.flatten_nil, List.append_nil]
    exact ⟨hd x, fun hx => h x hx.1 hx.2⟩
  | cons layer layers ih =>
    obtain ⟨-, hm, h⟩ := h
    rw [List.flatten_cons, ← List.append_assoc]
    refine ih h fun y hy => ?_
    have hsub : done ⊆ done ++ layer := List.subset_append_left _ _
    obtain hy | hy := List.mem_append.1 hy
    · exact ⟨(hd y hy).1, (hd y hy).2.mono hsub⟩
    · obtain ⟨-, hA, hf⟩ := (hm y).1 hy
      exact ⟨hA, hf.mono hsub⟩

/-- An edge into a node of a layer comes from a layer before it. -/
theorem pred (h : Layered A edges done layers) {k : Nat} {x : ν} (hx : At layers k x)
    {e : ν × ν} (he : e ∈ edges) (hex : e.2 = x) :
    e.1 ∈ done ∨ ∃ j, j < k ∧ At layers j e.1 := by
  induction layers generalizing done k with
  | nil =>
    obtain ⟨l, hl, -⟩ := hx
    cases hl
  | cons layer layers ih =>
    obtain ⟨-, hm, h⟩ := h
    cases k with
    | zero => exact .inl (((hm x).1 (at_zero.1 hx)).2.2 e he hex)
    | succ k =>
      obtain hd | ⟨j, hj, hat⟩ := ih h (at_succ.1 hx)
      · obtain hd | hd := List.mem_append.1 hd
        · exact .inl hd
        · exact .inr ⟨0, Nat.succ_pos k, at_zero.2 hd⟩
      · exact .inr ⟨j + 1, Nat.succ_lt_succ hj, at_succ.2 hat⟩

/-- A node of a layer behind the first has an edge from the layer before it. -/
theorem exists_pred (h : Layered A edges done layers) {k : Nat} {x : ν}
    (hx : At layers (k + 1) x) : ∃ e ∈ edges, e.2 = x ∧ At layers k e.1 := by
  induction layers generalizing done k with
  | nil =>
    obtain ⟨l, hl, -⟩ := hx
    cases hl
  | cons layer layers ih =>
    obtain ⟨-, hm, h⟩ := h
    have hx := at_succ.1 hx
    cases k with
    | zero =>
      cases layers with
      | nil =>
        obtain ⟨l, hl, -⟩ := hx
        cases hl
      | cons layer' layers =>
        obtain ⟨hn, hA, hf⟩ := (h.2.1 x).1 (at_zero.1 hx)
        rw [List.mem_append, not_or] at hn
        have hnf : ¬ Free edges done x := fun hf => hn.2 ((hm x).2 ⟨hn.1, hA, hf⟩)
        rw [Free] at hnf
        push Not at hnf
        obtain ⟨e, he, hex, hed⟩ := hnf
        obtain hd | hd := List.mem_append.1 (hf e he hex)
        · exact (hed hd).elim
        · exact ⟨e, he, hex, at_zero.2 hd⟩
    | succ k =>
      obtain ⟨e, he, hex, hat⟩ := ih h hx
      exact ⟨e, he, hex, at_succ.2 hat⟩

/-- A walk that ends in a node of a layer has no more nodes than there are layers up to it. -/
theorem length_le (h : Layered A edges [] layers) {p : List ν}
    (hp : p.IsChain fun u v => (u, v) ∈ edges) {k : Nat} {x : ν} (hlast : p.getLast? = some x)
    (hx : At layers k x) : p.length ≤ k + 1 := by
  induction p using List.reverseRecOn generalizing k x with
  | nil => exact Nat.zero_le _
  | append_singleton p y ih =>
    rw [List.getLast?_concat, Option.some.injEq] at hlast
    subst hlast
    rw [List.length_append, List.length_singleton]
    obtain rfl | ⟨q, z, rfl⟩ := List.eq_nil_or_concat' p
    · exact Nat.le_add_left _ _
    · have he : (z, y) ∈ edges := by
        rw [List.append_assoc, List.singleton_append] at hp
        exact (List.isChain_append_cons_cons.1 hp).2.1
      obtain hd | ⟨j, hj, hat⟩ := h.pred hx he rfl
      · cases hd
      · have hle := ih hp.left_of_append List.getLast?_concat hat
        omega

end Layered

/-- A simple path of this many edges ends in the node. -/
def PathTo (edges : List (ν × ν)) (x : ν) (n : Nat) : Prop :=
  ∃ p : List ν, p.Nodup ∧ p.IsChain (fun u v => (u, v) ∈ edges) ∧ p.getLast? = some x ∧
    p.length = n + 1

namespace Layered
variable {A : ν → Prop} {edges : List (ν × ν)} {layers : List (List ν)}

theorem exists_path (h : Layered A edges [] layers) {k : Nat} {x : ν} (hx : At layers k x) :
    ∃ p : List ν, p.Nodup ∧ p.IsChain (fun u v => (u, v) ∈ edges) ∧ p.getLast? = some x ∧
      p.length = k + 1 ∧ ∀ y ∈ p, ∃ j, j ≤ k ∧ At layers j y := by
  induction k generalizing x with
  | zero =>
    refine ⟨[x], List.nodup_cons.2 ⟨List.not_mem_nil, List.nodup_nil⟩, .singleton x, rfl, rfl, ?_⟩
    exact List.forall_mem_singleton.2 ⟨0, Nat.le_refl 0, hx⟩
  | succ k ih =>
    obtain ⟨e, he, rfl, hat⟩ := h.exists_pred hx
    obtain ⟨p, hn, hchain, hlast, hlen, hall⟩ := ih hat
    have hchain' : (p ++ [e.2]).IsChain fun u v => (u, v) ∈ edges := by
      refine hchain.append (.singleton e.2) fun y hy z hz => ?_
      rw [hlast, Option.mem_some_iff] at hy
      rw [List.head?_cons, Option.mem_some_iff] at hz
      rw [← hy, ← hz]
      exact he
    have hlen' : (p ++ [e.2]).length = k + 1 + 1 := by
      rw [List.length_append, hlen, List.length_singleton]
    refine ⟨p ++ [e.2], ?_, hchain', List.getLast?_concat, hlen', fun y hy => ?_⟩
    · refine List.nodup_append.2 ⟨hn, List.nodup_cons.2 ⟨List.not_mem_nil, List.nodup_nil⟩, ?_⟩
      rintro y hy z hz rfl
      rw [List.mem_singleton.1 hz] at hy
      obtain ⟨j, hj, hatj⟩ := hall _ hy
      have hle := h.length_le hchain' List.getLast?_concat hatj
      omega
    · obtain hy | hy := List.mem_append.1 hy
      · obtain ⟨j, hj, hatj⟩ := hall y hy
        exact ⟨j, Nat.le_succ_of_le hj, hatj⟩
      · rw [List.mem_singleton.1 hy]
        exact ⟨k + 1, Nat.le_refl _, hx⟩

/-- The index of a node's layer is the length of the longest path that ends in it. -/
theorem isGreatest (h : Layered A edges [] layers) {k : Nat} {x : ν} (hx : At layers k x) :
    IsGreatest {n | PathTo edges x n} k := by
  constructor
  · obtain ⟨p, hn, hchain, hlast, hlen, -⟩ := h.exists_path hx
    exact ⟨p, hn, hchain, hlast, hlen⟩
  · rintro n ⟨p, -, hchain, hlast, hlen⟩
    have hle := h.length_le hchain hlast hx
    omega

end Layered

/-- The node is one of `A`, and so are in turn all those that lead to it. -/
inductive Ready (A : ν → Prop) (edges : List (ν × ν)) : ν → Prop
  | intro : A x → (∀ e ∈ edges, e.2 = x → Ready A edges e.1) → Ready A edges x

namespace Layered
variable {A : ν → Prop} {edges : List (ν × ν)} {layers : List (List ν)}

theorem mem_iff_ready (h : Layered A edges [] layers) (x : ν) :
    x ∈ layers.flatten ↔ Ready A edges x := by
  have hm := h.mem_iff (List.forall_mem_nil _)
  simp only [List.nil_append] at hm
  constructor
  · intro hx
    obtain ⟨k, hk⟩ := mem_flatten_iff_at.1 hx
    induction k using Nat.strongRecOn generalizing x with
    | ind k ih =>
      refine .intro ((hm x).1 hx).1 fun e he hex => ?_
      obtain hd | ⟨j, hj, hat⟩ := h.pred hk he hex
      · cases hd
      · exact ih j hj e.1 (mem_flatten_iff_at.2 ⟨j, hat⟩) hat
  · intro hr
    induction hr with
    | intro hA _ ih => exact (hm _).2 ⟨hA, fun e he hex => ih e he hex⟩

end Layered

/-- Without a cycle every node is ready. -/
theorem ready_of_acyclic {A : ν → Prop} {edges : List (ν × ν)} {nodes : List ν}
    (hA : ∀ x ∈ nodes, A x) (hends : ∀ e ∈ edges, e.1 ∈ nodes)
    (hc : ∀ x, ¬ Relation.TransGen (fun u v => (u, v) ∈ edges) x x) :
    ∀ x ∈ nodes, Ready A edges x := by
  let R (a b : {x // x ∈ nodes}) : Prop :=
    Relation.TransGen (fun u v => (u, v) ∈ edges) a.1 b.1
  have : IsTrans _ R := ⟨fun a b c => Relation.TransGen.trans⟩
  have : Std.Irrefl R := ⟨fun a => hc a.1⟩
  have : Finite {x // x ∈ nodes} := (List.finite_toSet nodes).to_subtype
  have hwf : WellFounded R := Finite.wellFounded_of_trans_of_irrefl R
  have hall : ∀ a : {x // x ∈ nodes}, Ready A edges a.1 := by
    intro a
    induction a using hwf.induction with
    | _ a ih =>
      refine .intro (hA a.1 a.2) fun e he hex => ?_
      exact ih ⟨e.1, hends e he⟩ (.single (hex ▸ he))
  exact fun x hx => hall ⟨x, hx⟩

end Obase.Layering
