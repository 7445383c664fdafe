import Mathlib.Data.List.Basic
import Mathlib.Logic.Relation

namespace Obase.Calls
set_option autoImplicit true

/-- The calls after one more has started. -/
theorem getElem?_start {l : List α} {a b : α} {j : Nat} :
    (l ++ [a])[j]? = some b ↔ (j = l.length ∧ b = a) ∨ l[j]? = some b := by
  rcases Nat.lt_trichotomy j l.length with hj | rfl | hj
  · rw [List.getElem?_append_left hj]
    constructor
    · exact .inr
    · rintro (⟨rfl, -⟩ | h)
      · exact (Nat.lt_irrefl _ hj).elim
      · exact h
  · rw [List.getElem?_concat_length, List.getElem?_eq_none (Nat.le_refl _), Option.some.injEq]
    constructor
    · rintro rfl
      exact .inl ⟨rfl, rfl⟩
    · rintro (⟨-, rfl⟩ | h)
      · rfl
      · cases h
  · rw [List.getElem?_eq_none (by rw [List.length_append, List.length_singleton]; omega),
      List.getElem?_eq_none (Nat.le_of_lt hj)]
    constructor
    · exact fun h => nomatch h
    · rintro (⟨rfl, -⟩ | h)
      · exact (Nat.lt_irrefl _ hj).elim
      · exact h

/-- The calls after one of them went on. -/
theorem getElem?_goOn {l : List α} {a a₀ b : α} {j k : Nat} (hk : l[k]? = some a₀) :
    (l.set k a)[j]? = some b ↔ (j = k ∧ b = a) ∨ (j ≠ k ∧ l[j]? = some b) := by
  have hlt := (List.getElem?_eq_some_iff.1 hk).1
  by_cases hj : j = k
  · subst hj
    rw [List.getElem?_set_self hlt, Option.some.injEq]
    constructor
    · rintro rfl
      exact .inl ⟨rfl, rfl⟩
    · rintro (⟨-, rfl⟩ | ⟨hn, -⟩)
      · rfl
      · exact (hn rfl).elim
  · rw [List.getElem?_set_ne (Ne.symm hj)]
    constructor
    · exact fun hs => .inr ⟨hj, hs⟩
    · rintro (⟨he, -⟩ | ⟨-, hs⟩)
      · exact (hj he).elim
      · exact hs

end Obase.Calls

namespace Obase.History
set_option autoImplicit true

/-- A sequence of events that ends with one is part of a longer history if it is part of the history
before the last event, or ends with that event. -/
theorem sublist_concat {es log : List α} {e x : α} :
    (es ++ [e]).Sublist (log ++ [x]) ↔ (es ++ [e]).Sublist log ∨ e = x ∧ es.Sublist log := by
  have hall : (es ++ [e]).reverse.Sublist (log ++ [x]).reverse ↔ _ := List.reverse_sublist
  have hlast : (es ++ [e]).reverse.Sublist log.reverse ↔ _ := List.reverse_sublist
  have hinit : es.reverse.Sublist log.reverse ↔ _ := List.reverse_sublist
  rw [← hall, ← hlast, ← hinit]
  simp only [List.reverse_append, List.reverse_singleton, List.singleton_append]
  exact List.cons_sublist_cons'

theorem pair_concat {log : List α} {a b x : α} :
    [a, b].Sublist (log ++ [x]) ↔ [a, b].Sublist log ∨ b = x ∧ a ∈ log := by
  have h : ([a] ++ [b]).Sublist (log ++ [x]) ↔ _ := sublist_concat
  rw [List.singleton_sublist] at h
  exact h

theorem triple_concat {log : List α} {a b c x : α} :
    [a, b, c].Sublist (log ++ [x]) ↔ [a, b, c].Sublist log ∨ c = x ∧ [a, b].Sublist log := by
  have h : ([a, b] ++ [c]).Sublist (log ++ [x]) ↔ _ := sublist_concat
  exact h

/-- What stands in a list of which an entry is replaced. -/
theorem getElem?_set_cases {l : List α} {i j : Nat} {y z : α} (h : (l.set i y)[j]? = some z) :
    j = i ∧ z = y ∨ j ≠ i ∧ l[j]? = some z := by
  rw [List.getElem?_set] at h
  split at h
  · rename_i hij
    split at h
    · cases h
      exact .inl ⟨hij.symm, rfl⟩
    · cases h
  · rename_i hij
    exact .inr ⟨Ne.symm hij, h⟩

theorem mem_concat {log : List α} {a x : α} : a ∈ log ++ [x] ↔ a ∈ log ∨ a = x := by
  rw [List.mem_append, List.mem_singleton]

end Obase.History

namespace Obase.Run
set_option autoImplicit true

variable {σ α : Type}

/-- The states that runs from a state lead to, each of their steps taken where it is allowed. -/
def Reaches (step : σ → α → σ → Prop) (allowed : σ → α → Prop) : σ → σ → Prop :=
  Relation.ReflTransGen fun s t => ∃ a, allowed s a ∧ step s a t

variable {step : σ → α → σ → Prop} {allowed : σ → α → Prop}

theorem Reaches.refl (s : σ) : Reaches step allowed s s :=
  Relation.ReflTransGen.refl

theorem Reaches.tail {s t u : σ} {a : α} (h : Reaches step allowed s t) (ha : allowed t a)
    (hs : step t a u) : Reaches step allowed s u :=
  Relation.ReflTransGen.tail h ⟨a, ha, hs⟩

theorem Reaches.trans {s t u : σ} (h : Reaches step allowed s t) (h' : Reaches step allowed t u) :
    Reaches step allowed s u :=
  Relation.ReflTransGen.trans h h'

/-- What holds at first and is kept by every allowed step holds in every state of a run. -/
theorem Reaches.invariant {I : σ → Prop} {s t : σ} (h : Reaches step allowed s t) (h₀ : I s)
    (hstep : ∀ s a t, I s → allowed s a → step s a t → I t) : I t := by
  induction h with
  | refl => exact h₀
  | tail _ hs ih =>
    obtain ⟨a, ha, hs⟩ := hs
    exact hstep _ a _ ih ha hs

/-- A relation that every allowed step from an invariant state is in, and that composes, holds
between the first and the last state of a run. -/
theorem Reaches.related {I : σ → Prop} {R : σ → σ → Prop} {s t : σ}
    (h : Reaches step allowed s t) (h₀ : I s) (hrefl : ∀ s, R s s)
    (htrans : ∀ s t u, R s t → R t u → R s u)
    (hstep : ∀ s a t, I s → allowed s a → step s a t → I t ∧ R s t) : R s t := by
  have hi : I t ∧ R s t := by
    induction h with
    | refl => exact ⟨h₀, hrefl s⟩
    | tail _ hs ih =>
      obtain ⟨a, ha, hs⟩ := hs
      obtain ⟨hi, hr⟩ := hstep _ a _ ih.1 ha hs
      exact ⟨hi, htrans _ _ _ ih.2 hr⟩
  exact hi.2

theorem Reaches.mono {allowed' : σ → α → Prop} {s t : σ} (h : Reaches step allowed s t)
    (hm : ∀ s a, allowed s a → allowed' s a) : Reaches step allowed' s t := by
  induction h with
  | refl => exact .refl _
  | tail _ hs ih =>
    obtain ⟨a, ha, hs⟩ := hs
    exact ih.tail (hm _ a ha) hs

/-- A step that is added to the history of its run, with the state that it is taken in. -/
def Recorded (step : σ → α → σ → Prop) (p : σ × List (σ × α)) (a : α)
    (q : σ × List (σ × α)) : Prop :=
  step p.1 a q.1 ∧ q.2 = p.2 ++ [(p.1, a)]

/-- The steps of a run, each with the state that it leads to. -/
def Trace (step : σ → α → σ → Prop) : σ → List (α × σ) → Prop
  | _, [] => True
  | s, (a, t) :: l => step s a t ∧ Trace step t l

/-- The run that a function makes of some calls. -/
def steps (f : σ → α → σ) : σ → List α → List (α × σ)
  | _, [] => []
  | s, a :: l => (a, f s a) :: steps f (f s a) l

/-- The run of some events, as long as they can happen. -/
def follow (f : σ → α → Option σ) : σ → List α → List (α × σ)
  | _, [] => []
  | s, a :: l =>
    match f s a with
    | none => []
    | some t => (a, t) :: follow f t l

/-- What holds of each step of a run and the state that it is taken in. -/
def Always (P : σ → α → Prop) : σ → List (α × σ) → Prop
  | _, [] => True
  | s, (a, t) :: l => P s a ∧ Always P t l

/-- What holds of each step of a run, the state that it is taken in and the one it leads to. -/
def Along (R : σ → α → σ → Prop) : σ → List (α × σ) → Prop
  | _, [] => True
  | s, (a, t) :: l => R s a t ∧ Along R t l

theorem steps_trace (f : σ → α → σ) (s : σ) (l : List α) :
    Trace (fun s a t => t = f s a) s (steps f s l) := by
  induction l generalizing s with
  | nil => trivial
  | cons a l ih => exact ⟨rfl, ih _⟩

theorem follow_trace (f : σ → α → Option σ) (s : σ) (l : List α) :
    Trace (fun s a t => f s a = some t) s (follow f s l) := by
  induction l generalizing s with
  | nil => trivial
  | cons a l ih =>
    cases hf : f s a with
    | none =>
      simp only [follow, hf]
      trivial
    | some t =>
      simp only [follow, hf]
      exact ⟨hf, ih t⟩

/-- Where the steps in `R` that are taken in a state of an invariant are those where `P` holds, all
steps of a run are in `R` exactly when `P` holds at each of them. -/
theorem Trace.along_iff {I : σ → Prop} {R : σ → α → σ → Prop} {P : σ → α → Prop} {s : σ}
    {l : List (α × σ)} (h : Trace step s l) (h₀ : I s)
    (hstep : ∀ s a t, I s → step s a t → I t ∧ (R s a t ↔ P s a)) : Along R s l ↔ Always P s l := by
  induction l generalizing s with
  | nil => exact Iff.rfl
  | cons p l ih =>
    obtain ⟨a, t⟩ := p
    obtain ⟨hs, hl⟩ := h
    obtain ⟨hi, hr⟩ := hstep s a t h₀ hs
    rw [Along, Always, hr, ih hl hi]

/-- Where `P` keeps an invariant, and the steps in `R` that are taken in a state of it are those
where `P` holds, all steps of a run are in `R` exactly when `P` holds at each of them. -/
theorem Trace.along_iff_while {I : σ → Prop} {R : σ → α → σ → Prop} {P : σ → α → Prop} {s : σ}
    {l : List (α × σ)} (h : Trace step s l) (h₀ : I s)
    (hstep : ∀ s a t, I s → step s a t → (P s a → I t) ∧ (R s a t ↔ P s a)) :
    Along R s l ↔ Always P s l := by
  induction l generalizing s with
  | nil => exact Iff.rfl
  | cons p l ih =>
    obtain ⟨a, t⟩ := p
    obtain ⟨hs, hl⟩ := h
    obtain ⟨hi, hr⟩ := hstep s a t h₀ hs
    rw [Along, Always, hr]
    exact and_congr_right fun ha => ih hl (hi ha)

/-- Where the steps at which `P` holds keep an invariant and are in `R`, all steps of a run are in
`R` if `P` holds at each of them. -/
theorem Trace.along_of_always {I : σ → Prop} {R : σ → α → σ → Prop} {P : σ → α → Prop} {s : σ}
    {l : List (α × σ)} (h : Trace step s l) (h₀ : I s) (hp : Always P s l)
    (hstep : ∀ s a t, I s → P s a → step s a t → I t ∧ R s a t) : Along R s l := by
  induction l generalizing s with
  | nil => trivial
  | cons p l ih =>
    obtain ⟨a, t⟩ := p
    obtain ⟨hs, hl⟩ := h
    obtain ⟨ha, hp⟩ := hp
    obtain ⟨hi, hr⟩ := hstep s a t h₀ ha hs
    exact ⟨hr, ih hl hi hp⟩

/-- Where `P` and `Q` agree in all states of an invariant, they hold alike of the steps of a run. -/
theorem Trace.always_iff {I : σ → Prop} {P Q : σ → α → Prop} {s : σ} {l : List (α × σ)}
    (h : Trace step s l) (h₀ : I s) (hstep : ∀ s a t, I s → step s a t → I t)
    (hiff : ∀ s a, I s → (P s a ↔ Q s a)) : Always P s l ↔ Always Q s l := by
  induction l generalizing s with
  | nil => exact Iff.rfl
  | cons p l ih =>
    obtain ⟨a, t⟩ := p
    obtain ⟨hs, hl⟩ := h
    rw [Always, Always, hiff s a h₀, ih hl (hstep s a t h₀ hs)]

/-- If the steps in a transitive relation are those where `P` holds, the states of a run are
related to all later ones exactly when `P` holds at each of its steps. -/
theorem Trace.pairwise_iff {R : σ → σ → Prop} {P : σ → α → Prop} {s : σ} {l : List (α × σ)}
    (h : Trace step s l) (htrans : ∀ s t u, R s t → R t u → R s u)
    (hstep : ∀ s a t, step s a t → (R s t ↔ P s a)) :
    (s :: l.map Prod.snd).Pairwise R ↔ Always P s l := by
  induction l generalizing s with
  | nil => exact iff_of_true (List.pairwise_singleton ..) trivial
  | cons p l ih =>
    obtain ⟨a, t⟩ := p
    obtain ⟨hs, hl⟩ := h
    rw [List.map_cons, List.pairwise_cons, ih hl, Always, ← hstep s a t hs]
    constructor
    · rintro ⟨hR, hP⟩
      exact ⟨hR t (List.mem_cons_self ..), hP⟩
    · rintro ⟨hR, hP⟩
      refine ⟨fun u hu => ?_, hP⟩
      obtain rfl | hu := List.mem_cons.1 hu
      · exact hR
      · exact htrans s t u hR ((List.pairwise_cons.1 ((ih hl).2 hP)).1 u hu)

end Obase.Run
