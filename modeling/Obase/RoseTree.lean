import Mathlib.Logic.Basic

namespace Obase
set_option autoImplicit true

/-- A finite tree whose nodes have any number of children. -/
inductive RoseTree (α : Type) where
  | node (label : α) (children : List (RoseTree α))

namespace RoseTree

def label : RoseTree α → α
  | .node a _ => a

def children : RoseTree α → List (RoseTree α)
  | .node _ ts => ts

/-- Induction on a tree, with the hypothesis for all the children of a node. -/
@[elab_as_elim]
theorem ind {P : RoseTree α → Prop}
    (node : ∀ a ts, (∀ t ∈ ts, P t) → P (.node a ts)) (t : RoseTree α) : P t := by
  apply @RoseTree.rec α P fun ts => ∀ t ∈ ts, P t
  · exact node
  · intro t ht
    cases ht
  · intro t ts ht hts
    exact List.forall_mem_cons.2 ⟨ht, hts⟩

/-- The number of nodes on the longest way down. -/
def height : RoseTree α → Nat
  | .node _ ts => heights ts + 1
where
  heights : List (RoseTree α) → Nat
    | [] => 0
    | t :: ts => max t.height (heights ts)

theorem heights_le_iff {ts : List (RoseTree α)} {n : Nat} :
    height.heights ts ≤ n ↔ ∀ t ∈ ts, t.height ≤ n := by
  induction ts with
  | nil => simp [height.heights]
  | cons t ts ih => rw [height.heights, Nat.max_le, ih, List.forall_mem_cons]

/-- The trees at the nodes, each before those below it. -/
def preorder : RoseTree α → List (RoseTree α)
  | .node a ts => .node a ts :: preorders ts
where
  preorders : List (RoseTree α) → List (RoseTree α)
    | [] => []
    | t :: ts => t.preorder ++ preorders ts

/-- The first tree is the second or below one of its nodes. -/
inductive Within : RoseTree α → RoseTree α → Prop where
  | refl (t : RoseTree α) : Within t t
  | child {s t : RoseTree α} {a : α} {ts : List (RoseTree α)} (ht : t ∈ ts) (h : Within s t) :
      Within s (.node a ts)

theorem within_node {s : RoseTree α} {a : α} {ts : List (RoseTree α)} :
    Within s (.node a ts) ↔ s = .node a ts ∨ ∃ t ∈ ts, Within s t := by
  constructor
  · intro h
    cases h with
    | refl => exact .inl rfl
    | child ht h => exact .inr ⟨_, ht, h⟩
  · rintro (rfl | ⟨t, ht, h⟩)
    · exact .refl _
    · exact .child ht h

end RoseTree
end Obase
