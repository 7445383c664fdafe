import Mathlib.Data.List.Basic
import Mathlib.Data.List.Nodup

namespace Obase
set_option autoImplicit true

/-- A store whose operations are on one key each or on all of them. -/
structure KeyedStore (σ α κ β : Type) where
  start : σ
  step : σ → α → σ
  load : σ → κ → β
  empty : β
  key : α → Option κ
  /-- Whether something is saved for a key after an operation, given whether it was before. -/
  saved : κ → Bool → α → Bool

namespace KeyedStore
variable {σ α κ β : Type} (S : KeyedStore σ α κ β)

def run (ops : List α) : σ := ops.foldl S.step S.start

/-- The operations are on two keys only. -/
def On (a b : κ) (ops : List α) : Prop :=
  ∀ op ∈ ops, S.key op = some a ∨ S.key op = some b ∨ S.key op = none

/-- Whether something is saved for a key at the end of a run. -/
def isSaved (a : κ) (ops : List α) : Bool := ops.foldl (S.saved a) false

variable [DecidableEq κ]

/-- The operations that are not on a key. -/
def without (b : κ) (ops : List α) : List α := ops.filter fun op => S.key op ≠ some b

/-- Of all runs on two keys, what is loaded of the first does not depend on the operations on the
second, and is empty where nothing is saved. -/
structure Unaffected (a b : κ) : Prop where
  without : ∀ ops, S.On a b ops → S.load (S.run ops) a = S.load (S.run (S.without b ops)) a
  empty : ∀ ops, S.On a b ops → S.isSaved a ops = false → S.load (S.run ops) a = S.empty

/-- Neither of two keys affects the other. -/
def Apart (a b : κ) : Prop := S.Unaffected a b ∧ S.Unaffected b a

variable {S}

/-- Where related states load alike, the operations on a key stay within a relation, and the others
keep it, they do not affect what is loaded. -/
theorem load_without {R : σ → σ → Prop} {a b : κ} (h₀ : R S.start S.start)
    (hload : ∀ s t, R s t → S.load s a = S.load t a)
    (hhidden : ∀ s t op, S.key op = some b → R s t → R (S.step s op) t)
    (hkept : ∀ s t op, S.key op = some a ∨ S.key op = none → R s t →
      R (S.step s op) (S.step t op)) {ops : List α} (hon : S.On a b ops) :
    S.load (S.run ops) a = S.load (S.run (S.without b ops)) a := by
  have hrun : ∀ (ops : List α) (s t : σ), S.On a b ops → R s t →
      R (ops.foldl S.step s) ((S.without b ops).foldl S.step t) := by
    intro ops
    induction ops with
    | nil => exact fun _ _ _ h => h
    | cons op ops ih =>
      intro s t hon h
      obtain ⟨ho, hon⟩ := List.forall_mem_cons.1 hon
      by_cases hb : S.key op = some b
      · rw [without, List.filter_cons_of_neg (by simpa using hb)]
        exact ih _ _ hon (hhidden s t op hb h)
      · rw [without, List.filter_cons_of_pos (by simpa using hb)]
        refine ih _ _ hon (hkept s t op ?_ h)
        obtain ha | hb' | hn := ho
        · exact .inl ha
        · exact (hb hb').elim
        · exact .inr hn
  exact hload _ _ (hrun ops _ _ hon h₀)

omit [DecidableEq κ] in
/-- What every operation keeps holds at the end of a run. -/
theorem invariant {P : σ → Bool → Prop} {a b : κ} (h₀ : P S.start false)
    (hstep : ∀ s saved op, S.key op = some a ∨ S.key op = some b ∨ S.key op = none → P s saved →
      P (S.step s op) (S.saved a saved op)) {ops : List α} (hon : S.On a b ops) :
    P (S.run ops) (S.isSaved a ops) := by
  have hrun : ∀ (ops : List α) (s : σ) (saved : Bool), S.On a b ops → P s saved →
      P (ops.foldl S.step s) (ops.foldl (S.saved a) saved) := by
    intro ops
    induction ops with
    | nil => exact fun _ _ _ h => h
    | cons op ops ih =>
      intro s saved hon h
      obtain ⟨ho, hon⟩ := List.forall_mem_cons.1 hon
      exact ih _ _ hon (hstep s saved op ho h)
  exact hrun ops _ _ hon h₀

/-- A run that saves something for one key only, after which the other loads it too. -/
theorem not_unaffected {a b : κ} (ops : List α) (hon : S.On a b ops)
    (hs : S.isSaved a ops = false) (hl : S.load (S.run ops) a ≠ S.empty) :
    ¬ S.Unaffected a b :=
  fun h => hl (h.empty ops hon hs)

end KeyedStore
end Obase

namespace Obase
set_option autoImplicit true

/-- Rows that are told apart by their primary key. -/
structure Table {ρ κ : Type} (key : ρ → κ) where
  rows : List ρ
  nodup : (rows.map key).Nodup

namespace Table
variable {ρ κ : Type} {key : ρ → κ}

def empty (key : ρ → κ) : Table key := ⟨[], List.nodup_nil⟩

@[ext] theorem ext {t t' : Table key} (h : t.rows = t'.rows) : t = t' := by
  cases t
  cases t'
  cases h
  rfl

/-- `SELECT … WHERE key = k`. -/
def get [DecidableEq κ] (t : Table key) (k : κ) : Option ρ :=
  t.rows.find? fun r => key r = k

/-- `INSERT`, which fails on a key that the table has. -/
def insert [DecidableEq κ] (t : Table key) (r : ρ) : Option (Table key) :=
  if h : key r ∈ t.rows.map key then none
  else some ⟨t.rows ++ [r], by
    rw [List.map_append]
    exact List.nodup_append'.2 ⟨t.nodup, List.nodup_singleton _,
      List.disjoint_singleton.2 h⟩⟩

/-- `UPDATE … WHERE p`, which gives no row another key. -/
def update (t : Table key) (p : ρ → Bool) (f : ρ → ρ) (hf : ∀ r, key (f r) = key r) :
    Table key :=
  ⟨t.rows.map fun r => if p r then f r else r, by
    rw [List.map_map]
    refine (List.map_congr_left fun r _ => ?_) ▸ t.nodup
    rw [Function.comp_apply]
    split
    · exact (hf r).symm
    · rfl⟩

/-- The rows that a `SELECT … WHERE p` gives. -/
def select (t : Table key) (p : ρ → Bool) : Table key :=
  ⟨t.rows.filter p, t.nodup.sublist (List.filter_sublist.map key)⟩

/-- The number of rows that an `UPDATE … WHERE p` matches. -/
def rowcount (t : Table key) (p : ρ → Bool) : Nat := t.rows.countP p

section
variable [DecidableEq κ]

theorem mem_of_get {t : Table key} {k : κ} {r : ρ} (h : t.get k = some r) : r ∈ t.rows :=
  List.mem_of_find?_eq_some h

theorem key_of_get {t : Table key} {k : κ} {r : ρ} (h : t.get k = some r) : key r = k := by
  simpa using List.find?_some h

theorem get_of_mem {t : Table key} {r : ρ} (h : r ∈ t.rows) : t.get (key r) = some r := by
  cases hr : t.get (key r) with
  | none => exact absurd (decide_eq_true rfl) (List.find?_eq_none.1 hr r h)
  | some r' =>
    rw [List.inj_on_of_nodup_map t.nodup (mem_of_get hr) h (key_of_get hr)]

theorem get_eq_some_iff {t : Table key} {k : κ} {r : ρ} :
    t.get k = some r ↔ r ∈ t.rows ∧ key r = k :=
  ⟨fun h => ⟨mem_of_get h, key_of_get h⟩, fun ⟨h, hk⟩ => hk ▸ get_of_mem h⟩

theorem get_eq_none_iff {t : Table key} {k : κ} : t.get k = none ↔ k ∉ t.rows.map key := by
  rw [get, List.find?_eq_none, List.mem_map]
  constructor
  · rintro h ⟨r, hr, hk⟩
    exact h r hr (decide_eq_true hk)
  · intro h r hr hk
    exact h ⟨r, hr, of_decide_eq_true hk⟩

@[simp] theorem get_empty (k : κ) : (empty key).get k = none := rfl

theorem get_insert {t t' : Table key} {r : ρ} (h : t.insert r = some t') (k : κ) :
    t'.get k = if key r = k then some r else t.get k := by
  rw [insert] at h
  split at h
  · cases h
  rename_i hr
  cases h
  rw [get, List.find?_append]
  by_cases hk : key r = k
  · subst hk
    have hn : t.get (key r) = none := get_eq_none_iff.2 hr
    rw [if_pos rfl, ← get, hn, Option.none_or]
    exact List.find?_cons_of_pos (decide_eq_true rfl)
  · rw [if_neg hk, List.find?_cons_of_neg (by simpa using hk), List.find?_nil, Option.or_none]
    rfl

theorem get_of_insert {t t' : Table key} {r : ρ} (h : t.insert r = some t') :
    t.get (key r) = none := by
  rw [insert] at h
  split at h
  · cases h
  · rename_i hr
    exact get_eq_none_iff.2 hr

theorem get_update (t : Table key) (p : ρ → Bool) (f : ρ → ρ) (hf : ∀ r, key (f r) = key r)
    (k : κ) : (t.update p f hf).get k = (t.get k).map fun r => if p r then f r else r := by
  rw [get, update, List.find?_map, get]
  congr 2
  funext r
  rw [Function.comp_apply]
  split
  · rw [hf]
  · rfl

/-- `UPDATE … WHERE key = k` reaches the row of that key only. -/
theorem get_update_key (t : Table key) (k : κ) (f : ρ → ρ) (hf : ∀ r, key (f r) = key r)
    (k' : κ) : (t.update (fun r => key r = k) f hf).get k' =
      if k' = k then (t.get k').map f else t.get k' := by
  rw [get_update]
  cases hr : t.get k' with
  | none => rw [Option.map_none, Option.map_none, ite_self]
  | some r =>
    have hk : key r = k' := key_of_get hr
    by_cases h : k' = k
    · rw [if_pos h, Option.map_some, Option.map_some, if_pos (decide_eq_true (hk.trans h))]
    · rw [if_neg h, Option.map_some, if_neg (by rw [hk]; simpa using h)]

theorem get_select (t : Table key) (p : ρ → Bool) (k : κ) :
    (t.select p).get k = (t.get k).filter p := by
  ext r
  rw [Option.filter_eq_some_iff, get_eq_some_iff, get_eq_some_iff, select, List.mem_filter]
  exact and_right_comm

theorem rowcount_eq_zero_iff {t : Table key} {p : ρ → Bool} :
    t.rowcount p = 0 ↔ ∀ k r, t.get k = some r → p r = false := by
  rw [rowcount, List.countP_eq_zero]
  constructor
  · intro h k r hr
    exact Bool.eq_false_iff.2 (h r (mem_of_get hr))
  · intro h r hr hp
    rw [h (key r) r (get_of_mem hr)] at hp
    cases hp

end

/-- An update that matches no row leaves the table as it is. -/
theorem update_eq_self {t : Table key} {p : ρ → Bool} {f : ρ → ρ}
    {hf : ∀ r, key (f r) = key r} (h : t.rowcount p = 0) : t.update p f hf = t := by
  refine Table.ext ?_
  rw [rowcount, List.countP_eq_zero] at h
  rw [update]
  refine (List.map_congr_left fun r hr => if_neg (h r hr)).trans (List.map_id' _)

end Table
end Obase
