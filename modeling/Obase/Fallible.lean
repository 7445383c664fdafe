import Mathlib.Logic.Basic

namespace Obase
set_option autoImplicit true

theorem bind_ok {x : Except ε α} {f : α → Except ε β} {b : β} (h : x >>= f = .ok b) :
    ∃ a, x = .ok a ∧ f a = .ok b := by
  cases x with
  | error e => cases h
  | ok a => exact ⟨a, rfl, h⟩

theorem ok_of_toOption {x : Except ε α} {a : α} (h : x.toOption = some a) : x = .ok a := by
  cases x with
  | error e => cases h
  | ok b =>
    cases h
    rfl

theorem map_ok {x : Except ε α} {f : α → β} {b : β} (h : x.map f = .ok b) :
    ∃ a, x = .ok a ∧ b = f a := by
  cases x with
  | error e => cases h
  | ok a =>
    cases h
    exact ⟨a, rfl, rfl⟩

theorem mapM_cons_ok {f : α → Except ε β} {x : α} {xs : List α} {ys : List β}
    (h : (x :: xs).mapM f = .ok ys) : ∃ y zs, f x = .ok y ∧ xs.mapM f = .ok zs ∧ ys = y :: zs := by
  rw [List.mapM_cons] at h
  cases hx : f x with
  | error e =>
    rw [hx] at h
    cases h
  | ok y =>
    cases hxs : xs.mapM f with
    | error e =>
      rw [hx, hxs] at h
      cases h
    | ok zs =>
      rw [hx, hxs] at h
      cases h
      exact ⟨y, zs, rfl, rfl, rfl⟩

/-- A call that a check stops with a report, or lets go on with a value. -/
def guarded (g : Except ρ α) (body : α → ρ) : ρ :=
  match g with
  | .error r => r
  | .ok a => body a

@[simp] theorem guarded_error (r : ρ) (body : α → ρ) : guarded (.error r) body = r := rfl

@[simp] theorem guarded_ok (a : α) (body : α → ρ) : guarded (.ok a) body = body a := rfl

/-- A view that each step of a traversal keeps is kept by the traversal. -/
theorem map_of_mapM {f : α → Except ε α} {g : α → β} {xs ys : List α}
    (hf : ∀ x y, f x = .ok y → g y = g x) (h : xs.mapM f = .ok ys) : ys.map g = xs.map g := by
  induction xs generalizing ys with
  | nil =>
    cases h
    rfl
  | cons x xs ih =>
    obtain ⟨y, zs, hy, hzs, rfl⟩ := mapM_cons_ok h
    rw [List.map_cons, List.map_cons, hf x y hy, ih hzs]

theorem mem_of_mapM {f : α → Except ε β} {xs : List α} {ys : List β} {x : α}
    (h : xs.mapM f = .ok ys) (hx : x ∈ xs) : ∃ y ∈ ys, f x = .ok y := by
  induction xs generalizing ys with
  | nil => cases hx
  | cons z zs ih =>
    obtain ⟨y, ys, hy, hys, rfl⟩ := mapM_cons_ok h
    cases hx with
    | head => exact ⟨y, List.mem_cons_self .., hy⟩
    | tail _ hx =>
      obtain ⟨y', hm, hy'⟩ := ih hys hx
      exact ⟨y', List.mem_cons_of_mem _ hm, hy'⟩

/-- A traversal of the values of an association list keeps its keys. -/
theorem lookup_of_mapM [BEq κ] {f : α → Except ε β} {xs : List (κ × α)} {ys : List (κ × β)}
    {k : κ} {x : α} (h : (xs.mapM fun p => (f p.2).map (p.1, ·)) = .ok ys)
    (hx : xs.lookup k = some x) : ∃ y, ys.lookup k = some y ∧ f x = .ok y := by
  induction xs generalizing ys with
  | nil => cases hx
  | cons p ps ih =>
    obtain ⟨q, qs, hq, hqs, rfl⟩ := mapM_cons_ok h
    obtain ⟨y, hy, rfl⟩ := map_ok hq
    rw [List.lookup_cons] at hx ⊢
    cases hk : k == p.1 with
    | true =>
      rw [hk] at hx
      cases hx
      exact ⟨y, rfl, hy⟩
    | false =>
      rw [hk] at hx
      exact ih hqs hx

/-- A traversal that undoes what has been done to each item. -/
theorem mapM_map_ok {f : α → β} {g : β → Except ε α} {xs : List α}
    (h : ∀ x ∈ xs, g (f x) = .ok x) : (xs.map f).mapM g = .ok xs := by
  induction xs with
  | nil => rfl
  | cons x xs ih =>
    rw [List.forall_mem_cons] at h
    rw [List.map_cons, List.mapM_cons, h.1, ih h.2]
    rfl

theorem ok_of_mapM_self {f : α → Except ε α} {xs : List α} (h : xs.mapM f = .ok xs) :
    ∀ x ∈ xs, f x = .ok x := by
  induction xs with
  | nil => exact List.forall_mem_nil _
  | cons x xs ih =>
    obtain ⟨y, ys, hy, hys, he⟩ := mapM_cons_ok h
    cases he
    exact List.forall_mem_cons.2 ⟨hy, ih hys⟩

/-- A traversal by a step that settles what it is applied to settles the list. -/
theorem mapM_settled {f : α → Except ε α} (hf : ∀ x y, f x = .ok y → f y = .ok y) {xs ys : List α}
    (h : xs.mapM f = .ok ys) : ys.mapM f = .ok ys := by
  induction xs generalizing ys with
  | nil =>
    cases h
    rfl
  | cons x xs ih =>
    obtain ⟨y, zs, hy, hzs, rfl⟩ := mapM_cons_ok h
    rw [List.mapM_cons, hf x y hy, ih hzs]
    rfl

theorem mapM_append_ok {f : α → Except ε β} {xs xs' : List α} {ys zs : List β}
    (hx : xs.mapM f = .ok ys) (h : (xs ++ xs').mapM f = .ok zs) :
    ∃ ys', xs'.mapM f = .ok ys' ∧ zs = ys ++ ys' := by
  rw [List.mapM_append, hx] at h
  obtain ⟨ys', hy, h⟩ := bind_ok (x := xs'.mapM f) h
  cases h
  exact ⟨ys', hy, rfl⟩

theorem exists_mapM_iff {f : α → Except ε β} {xs : List α} :
    (∃ ys, xs.mapM f = .ok ys) ↔ ∀ x ∈ xs, ∃ y, f x = .ok y := by
  constructor
  · rintro ⟨ys, h⟩ x hx
    obtain ⟨y, -, hy⟩ := mem_of_mapM h hx
    exact ⟨y, hy⟩
  · intro h
    induction xs with
    | nil => exact ⟨[], rfl⟩
    | cons x xs ih =>
      rw [List.forall_mem_cons] at h
      obtain ⟨⟨y, hy⟩, h⟩ := h
      obtain ⟨ys, hys⟩ := ih h
      refine ⟨y :: ys, ?_⟩
      rw [List.mapM_cons, hy, hys]
      rfl

theorem mem_of_mem_mapM {f : α → Except ε β} {xs : List α} {ys : List β} {y : β}
    (h : xs.mapM f = .ok ys) (hy : y ∈ ys) : ∃ x ∈ xs, f x = .ok y := by
  induction xs generalizing ys with
  | nil =>
    cases h
    cases hy
  | cons x xs ih =>
    obtain ⟨z, zs, hz, hzs, rfl⟩ := mapM_cons_ok h
    obtain rfl | hy := List.mem_cons.1 hy
    · exact ⟨x, .head _, hz⟩
    · obtain ⟨x', hx, he⟩ := ih hzs hy
      exact ⟨x', .tail _ hx, he⟩

end Obase

/-! Calls that may raise and that leave a state behind in either case. -/

namespace Obase.Effect
set_option autoImplicit true

variable {x : EStateM ε σ α} {f : α → EStateM ε σ β} {v : σ → γ} {s t : σ}

/-- The state that a call leaves behind. -/
def after : EStateM.Result ε σ α → σ
  | .ok _ s => s
  | .error _ s => s

/-- The call changes nothing that the view shows of a state. -/
def Keeps (v : σ → γ) (x : EStateM ε σ α) : Prop := ∀ s, v (after (x s)) = v s

theorem bind_of_ok (h : x s = .ok a t) : (x >>= f) s = f a t := by
  change EStateM.bind x f s = _
  rw [EStateM.bind, h]

theorem bind_of_error (h : x s = .error e t) : (x >>= f) s = .error e t := by
  change EStateM.bind x f s = _
  rw [EStateM.bind, h]

/-- A sequence of calls returns where each of them does. -/
theorem bind_eq_ok : (x >>= f) s = .ok b t ↔ ∃ a s', x s = .ok a s' ∧ f a s' = .ok b t := by
  cases h : x s with
  | ok a s' =>
    rw [bind_of_ok h]
    constructor
    · exact fun hf => ⟨a, s', rfl, hf⟩
    · rintro ⟨_, _, he, hf⟩
      cases he
      exact hf
  | error e s' =>
    rw [bind_of_error h]
    constructor
    · exact fun hf => (nomatch hf)
    · exact fun ⟨_, _, he, _⟩ => (nomatch he)

theorem Keeps.eq_of_ok (h : Keeps v x) (hx : x s = .ok a t) : v t = v s := by
  have hk := h s
  rwa [hx] at hk

theorem Keeps.eq_of_error (h : Keeps v x) (hx : x s = .error e t) : v t = v s := by
  have hk := h s
  rwa [hx] at hk

theorem keeps_pure (a : α) : Keeps v (pure a : EStateM ε σ α) := fun _ => rfl

theorem keeps_throw (e : ε) : Keeps v (throw e : EStateM ε σ α) := fun _ => rfl

theorem keeps_ofExcept (r : Except ε α) : Keeps v (MonadExcept.ofExcept r : EStateM ε σ α) := by
  cases r with
  | ok a => exact keeps_pure a
  | error e => exact keeps_throw e

/-- A view that every call of a sequence keeps is kept by the sequence. -/
theorem Keeps.bind (hx : Keeps v x) (hf : ∀ a s t, x s = .ok a t → Keeps v (f a)) :
    Keeps v (x >>= f) := by
  intro s
  cases h : x s with
  | ok a t =>
    rw [bind_of_ok h, hf a s t h t]
    exact hx.eq_of_ok h
  | error e t =>
    rw [bind_of_error h]
    exact hx.eq_of_error h

theorem keeps_forM {f : α → EStateM ε σ PUnit} (h : ∀ a, Keeps v (f a)) (xs : List α) :
    Keeps v (xs.forM f) := by
  induction xs with
  | nil => exact keeps_pure _
  | cons a xs ih => exact (h a).bind fun _ _ _ _ => ih

theorem Keeps.ite {c : Prop} [Decidable c] {y : EStateM ε σ α} (hx : Keeps v x) (hy : Keeps v y) :
    Keeps v (if c then x else y) := by
  split
  · exact hx
  · exact hy

end Obase.Effect
