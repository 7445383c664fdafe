import Mathlib.Data.List.Induction
import Mathlib.Data.List.Nodup

namespace Obase
set_option autoImplicit true

/-- A Python `dict`: its items in insertion order. -/
abbrev Dict (κ α : Type) := List (κ × α)

namespace Dict

/-- `d[k] = v`: an existing key keeps its place, a new one goes to the end. -/
def set [DecidableEq κ] (k : κ) (v : α) : Dict κ α → Dict κ α
  | [] => [(k, v)]
  | (k', v') :: ms => if k' = k then (k', v) :: ms else (k', v') :: set k v ms

/-- `dict(pairs)`: a later pair overwrites an earlier one of the same key. -/
def ofPairs [DecidableEq κ] (ps : List (κ × α)) : Dict κ α :=
  ps.foldl (fun d p => set p.1 p.2 d) []

def keys (d : Dict κ α) : List κ := d.map Prod.fst

/-- The dictionary with each of its values replaced. -/
def mapVals (f : α → β) (d : Dict κ α) : Dict κ β := d.map fun p => (p.1, f p.2)

/-- No key occurs twice, as in every dictionary that Python can build. -/
def Distinct (d : Dict κ α) : Prop := (keys d).Nodup

@[simp] theorem keys_nil : keys ([] : Dict κ α) = [] := rfl

@[simp] theorem keys_cons (p : κ × α) (d : Dict κ α) : keys (p :: d) = p.1 :: keys d := rfl

@[simp] theorem keys_mapVals (f : α → β) (d : Dict κ α) : keys (mapVals f d) = keys d := by
  rw [keys, mapVals, List.map_map]
  rfl

@[simp] theorem keys_append (d e : Dict κ α) : keys (d ++ e) = keys d ++ keys e :=
  List.map_append

section
variable [DecidableEq κ]

theorem set_nil (k : κ) (v : α) : set k v [] = [(k, v)] := rfl

theorem set_cons (k : κ) (v : α) (p : κ × α) (d : Dict κ α) :
    set k v (p :: d) = if p.1 = k then (p.1, v) :: d else p :: set k v d := rfl

@[simp] theorem lookup_set_self (k : κ) (v : α) (d : Dict κ α) :
    (set k v d).lookup k = some v := by
  induction d with
  | nil => simp [set_nil]
  | cons p d ih =>
    obtain ⟨a, b⟩ := p
    by_cases hk : a = k
    · subst hk
      simp [set_cons]
    · have hk' : (k == a) = false := by simpa using Ne.symm hk
      simp only [set_cons, if_neg hk, List.lookup_cons, hk', ih]

theorem lookup_set_ne {k k' : κ} (h : k' ≠ k) (v : α) (d : Dict κ α) :
    (set k v d).lookup k' = d.lookup k' := by
  induction d with
  | nil => simp [set_nil, h]
  | cons p d ih =>
    obtain ⟨a, b⟩ := p
    by_cases hk : a = k
    · subst hk
      have hk' : (k' == a) = false := by simpa using h
      simp only [set_cons, ↓reduceIte, List.lookup_cons, hk']
    · simp only [set_cons, if_neg hk, List.lookup_cons, ih]

theorem lookup_set (k k' : κ) (v : α) (d : Dict κ α) :
    (set k v d).lookup k' = if k' = k then some v else d.lookup k' := by
  by_cases hk : k' = k
  · rw [if_pos hk, hk, lookup_set_self]
  · rw [if_neg hk, lookup_set_ne hk]

theorem mem_keys_set {k k' : κ} {v : α} {d : Dict κ α} :
    k' ∈ keys (set k v d) ↔ k' = k ∨ k' ∈ keys d := by
  induction d with
  | nil => simp [set_nil]
  | cons p d ih =>
    by_cases hk : p.1 = k
    · subst hk
      simp [set_cons]
    · simp only [set_cons, if_neg hk, keys_cons, List.mem_cons, ih]
      tauto

theorem Distinct.set {d : Dict κ α} (h : Distinct d) (k : κ) (v : α) :
    Distinct (Dict.set k v d) := by
  induction d with
  | nil => simp [set_nil, Distinct]
  | cons p d ih =>
    obtain ⟨hp, hd⟩ := List.nodup_cons.1 h
    by_cases hk : p.1 = k
    · subst hk
      rw [set_cons, if_pos rfl]
      exact List.nodup_cons.2 ⟨hp, hd⟩
    · rw [set_cons, if_neg hk]
      refine List.nodup_cons.2 ⟨?_, ih hd⟩
      rintro hm
      rcases mem_keys_set.1 hm with he | hm
      · exact hk he
      · exact hp hm

theorem set_of_not_mem {k : κ} {d : Dict κ α} (h : k ∉ keys d) (v : α) :
    set k v d = d ++ [(k, v)] := by
  induction d with
  | nil => rfl
  | cons p d ih =>
    simp only [keys_cons, List.mem_cons, not_or] at h
    rw [set_cons, if_neg (Ne.symm h.1), ih h.2, List.cons_append]

theorem foldl_set_distinct {d : Dict κ α} (hd : Distinct d) (ps : List (κ × α)) :
    Distinct (ps.foldl (fun d p => set p.1 p.2 d) d) := by
  induction ps generalizing d with
  | nil => exact hd
  | cons p ps ih => exact ih (hd.set _ _)

theorem ofPairs_distinct (ps : List (κ × α)) : Distinct (ofPairs ps) :=
  foldl_set_distinct (d := []) List.nodup_nil ps

/-- Pairs without a repeated key are a dictionary already. -/
theorem ofPairs_of_distinct {ps : Dict κ α} (h : Distinct ps) : ofPairs ps = ps := by
  have hgo : ∀ (qs acc : Dict κ α), Distinct (acc ++ qs) →
      qs.foldl (fun d p => set p.1 p.2 d) acc = acc ++ qs := by
    intro qs
    induction qs with
    | nil => intro acc _; simp
    | cons p qs ih =>
      intro acc hd
      have hp : p.1 ∉ keys acc := by
        intro hm
        rw [Distinct, keys_append, List.nodup_append] at hd
        exact hd.2.2 _ hm _ (by simp) rfl
      rw [List.foldl_cons, set_of_not_mem hp]
      have hq := ih (acc ++ [p]) (by simpa using hd)
      simpa using hq
  simpa [ofPairs] using hgo ps [] h

theorem mem_set {k : κ} {v : α} {d : Dict κ α} {p : κ × α} (h : p ∈ set k v d) :
    p.2 = v ∨ p ∈ d := by
  induction d with
  | nil => simp only [set_nil, List.mem_singleton] at h; exact .inl (by rw [h])
  | cons q d ih =>
    by_cases hk : q.1 = k
    · simp only [set_cons, if_pos hk, List.mem_cons] at h
      rcases h with rfl | h
      · exact .inl rfl
      · exact .inr (.tail _ h)
    · simp only [set_cons, if_neg hk, List.mem_cons] at h
      rcases h with rfl | h
      · exact .inr (.head _)
      · rcases ih h with he | hm
        · exact .inl he
        · exact .inr (.tail _ hm)

theorem mem_ofPairs {ps : List (κ × α)} {p : κ × α} (h : p ∈ ofPairs ps) :
    ∃ q ∈ ps, p.2 = q.2 := by
  have hgo : ∀ (qs acc : List (κ × α)),
      p ∈ qs.foldl (fun d p => set p.1 p.2 d) acc → p ∈ acc ∨ ∃ q ∈ qs, p.2 = q.2 := by
    intro qs
    induction qs with
    | nil => intro acc h; exact .inl h
    | cons q qs ih =>
      intro acc h
      rcases ih _ h with hm | ⟨r, hr, he⟩
      · rcases mem_set hm with he | hm
        · exact .inr ⟨q, .head _, he⟩
        · exact .inl hm
      · exact .inr ⟨r, .tail _ hr, he⟩
  rcases hgo ps [] h with hm | hq
  · cases hm
  · exact hq

theorem lookup_mem {d : Dict κ α} {k : κ} {v : α} (h : d.lookup k = some v) : (k, v) ∈ d := by
  obtain ⟨l₁, l₂, rfl, -⟩ := List.lookup_eq_some_iff.1 h
  simp

theorem lookup_mapVals (f : α → β) (d : Dict κ α) (k : κ) :
    (mapVals f d).lookup k = (d.lookup k).map f := by
  induction d with
  | nil => rfl
  | cons p d ih =>
    obtain ⟨a, b⟩ := p
    rw [mapVals, List.map_cons, List.lookup_cons, List.lookup_cons, ← mapVals, ih]
    cases k == a with
    | true => rfl
    | false => rfl

theorem mapVals_set (f : α → β) (k : κ) (v : α) (d : Dict κ α) :
    mapVals f (set k v d) = set k (f v) (mapVals f d) := by
  induction d with
  | nil => rfl
  | cons p d ih =>
    obtain ⟨a, b⟩ := p
    by_cases hk : a = k
    · subst hk
      simp [set_cons, mapVals]
    · simp only [set_cons, if_neg hk, mapVals, List.map_cons]
      exact congrArg _ ih

theorem set_map_keyed (f : κ → α → β) (k : κ) (v : α) (d : Dict κ α) :
    set k (f k v) (d.map fun p => (p.1, f p.1 p.2)) =
      (set k v d).map fun p => (p.1, f p.1 p.2) := by
  induction d with
  | nil => rfl
  | cons p d ih =>
    obtain ⟨a, b⟩ := p
    by_cases hk : a = k
    · subst hk
      simp [set_cons]
    · simp only [set_cons, if_neg hk, List.map_cons]
      exact congrArg _ ih

/-- The values of the pairs of a dictionary may be replaced before or after it is built. -/
theorem ofPairs_map (f : κ → α → β) (ps : List (κ × α)) :
    ofPairs (ps.map fun p => (p.1, f p.1 p.2)) = (ofPairs ps).map fun p => (p.1, f p.1 p.2) := by
  have hgo : ∀ (qs acc : List (κ × α)),
      (qs.map fun p => (p.1, f p.1 p.2)).foldl (fun d p => set p.1 p.2 d)
          (acc.map fun p => (p.1, f p.1 p.2)) =
        (qs.foldl (fun d p => set p.1 p.2 d) acc).map fun p => (p.1, f p.1 p.2) := by
    intro qs
    induction qs with
    | nil => intro acc; rfl
    | cons q qs ih =>
      intro acc
      rw [List.map_cons, List.foldl_cons, List.foldl_cons, set_map_keyed, ih]
  exact hgo ps []

theorem lookup_map_keyed (f : κ → α → β) (d : Dict κ α) (k : κ) :
    (d.map fun p => (p.1, f p.1 p.2)).lookup k = (d.lookup k).map (f k) := by
  induction d with
  | nil => rfl
  | cons p d ih =>
    obtain ⟨a, b⟩ := p
    rw [List.map_cons, List.lookup_cons, List.lookup_cons, ih]
    by_cases hk : k = a
    · subst hk
      rw [beq_self_eq_true]
      rfl
    · rw [beq_false_of_ne hk]

theorem length_set_of_not_mem {k : κ} {d : Dict κ α} (h : k ∉ keys d) (v : α) :
    (set k v d).length = d.length + 1 := by
  rw [set_of_not_mem h, List.length_append, List.length_singleton]

theorem length_set_of_mem {k : κ} {d : Dict κ α} (h : k ∈ keys d) (v : α) :
    (set k v d).length = d.length := by
  induction d with
  | nil => cases h
  | cons p d ih =>
    by_cases hk : p.1 = k
    · rw [set_cons, if_pos hk, List.length_cons, List.length_cons]
    · obtain he | hm := List.mem_cons.1 h
      · exact (hk he.symm).elim
      · rw [set_cons, if_neg hk, List.length_cons, List.length_cons, ih hm]

/-- Storing what is there already changes nothing. -/
theorem set_of_lookup {k : κ} {v : α} {d : Dict κ α} (h : d.lookup k = some v) :
    set k v d = d := by
  induction d with
  | nil => cases h
  | cons p d ih =>
    obtain ⟨a, b⟩ := p
    by_cases hk : a = k
    · subst hk
      rw [List.lookup_cons_self] at h
      cases h
      exact if_pos rfl
    · have hk' : (k == a) = false := by simpa using Ne.symm hk
      rw [List.lookup_cons, hk'] at h
      rw [set_cons, if_neg hk, ih h]

theorem lookup_eq_none_of_not_mem {k : κ} {d : Dict κ α} (h : k ∉ keys d) :
    d.lookup k = none := by
  cases hv : d.lookup k with
  | none => rfl
  | some v => exact (h (List.mem_map_of_mem (lookup_mem hv))).elim

/-- `{**d, **e}`. -/
def update (d e : Dict κ α) : Dict κ α := e.foldl (fun d p => set p.1 p.2 d) d

theorem Distinct.update {d : Dict κ α} (h : Distinct d) (e : Dict κ α) :
    Distinct (Dict.update d e) :=
  foldl_set_distinct h e

theorem lookup_update {d e : Dict κ α} (h : Distinct e) (k : κ) :
    (update d e).lookup k = (e.lookup k).or (d.lookup k) := by
  induction e generalizing d with
  | nil => rfl
  | cons p e ih =>
    obtain ⟨a, v⟩ := p
    obtain ⟨ha, he⟩ := List.nodup_cons.1 h
    rw [update, List.foldl_cons, ← update, ih he, List.lookup_cons]
    by_cases hk : k = a
    · subst hk
      rw [lookup_eq_none_of_not_mem ha, lookup_set_self, beq_self_eq_true]
      rfl
    · rw [lookup_set_ne hk, beq_false_of_ne hk]

theorem mem_update {d e : Dict κ α} {p : κ × α} (h : p ∈ update d e) :
    (∃ q ∈ d, p.2 = q.2) ∨ ∃ q ∈ e, p.2 = q.2 := by
  induction e generalizing d with
  | nil => exact .inl ⟨p, h, rfl⟩
  | cons q e ih =>
    rcases ih h with ⟨r, hr, he⟩ | ⟨r, hr, he⟩
    · rcases mem_set hr with hv | hr
      · exact .inr ⟨q, .head _, he.trans hv⟩
      · exact .inl ⟨r, hr, he⟩
    · exact .inr ⟨r, .tail _ hr, he⟩

/-- What a dictionary of pairs gives for a key is in the last of its pairs. -/
theorem lookup_ofPairs (ps : List (κ × α)) (k : κ) :
    (ofPairs ps).lookup k = ps.reverse.lookup k := by
  induction ps using List.reverseRecOn with
  | nil => rfl
  | append_singleton ps p ih =>
    rw [List.reverse_concat, ofPairs, List.foldl_concat, ← ofPairs, List.lookup_cons]
    by_cases hk : k = p.1
    · rw [hk, lookup_set_self, beq_self_eq_true]
    · rw [lookup_set_ne hk, ih, beq_false_of_ne hk]

theorem filter_set_of_not {P : κ → Bool} {k : κ} (hk : P k = false) (v : α) (d : Dict κ α) :
    (set k v d).filter (fun p => P p.1) = d.filter fun p => P p.1 := by
  induction d with
  | nil => rw [set_nil, List.filter_cons, hk]; rfl
  | cons p d ih =>
    obtain ⟨a, w⟩ := p
    by_cases ha : a = k
    · subst ha
      rw [set_cons, if_pos rfl, List.filter_cons, List.filter_cons, hk]
      rfl
    · rw [set_cons, if_neg ha, List.filter_cons, List.filter_cons, ih]

/-- An update adds the items under keys of a kind to those of other keys of the kind. -/
theorem filter_update {P : κ → Bool} {d e : Dict κ α} (h : Distinct e)
    (hd : ∀ k ∈ keys d, P k = true → k ∉ keys e) :
    (update d e).filter (fun p => P p.1) =
      d.filter (fun p => P p.1) ++ e.filter fun p => P p.1 := by
  induction e generalizing d with
  | nil => exact (List.append_nil _).symm
  | cons p e ih =>
    obtain ⟨a, v⟩ := p
    obtain ⟨ha, he⟩ := List.nodup_cons.1 h
    rw [update, List.foldl_cons, ← update]
    by_cases hP : P a = true
    · have hm : a ∉ keys d := fun hm => hd a hm hP (.head _)
      have hcons (l : Dict κ α) : ((a, v) :: l).filter (fun p => P p.1) =
          (a, v) :: l.filter fun p => P p.1 := List.filter_cons_of_pos hP
      rw [set_of_not_mem hm, ih he, List.filter_append, List.append_assoc, hcons, hcons]
      · rfl
      · intro k hk hPk hmem
        rw [keys_append] at hk
        rcases List.mem_append.1 hk with hk | hk
        · exact hd k hk hPk (.tail _ hmem)
        · rw [List.mem_singleton.1 hk] at hmem
          exact ha hmem
    · have hcons : ((a, v) :: e).filter (fun p => P p.1) = e.filter fun p => P p.1 :=
        List.filter_cons_of_neg hP
      rw [ih he, filter_set_of_not (Bool.eq_false_iff.2 hP), hcons]
      intro k hk hPk hmem
      rcases mem_keys_set.1 hk with rfl | hk
      · exact hP hPk
      · exact hd k hk hPk (.tail _ hmem)

/-- `del d[k]`, of a key that is there. -/
def erase (k : κ) (d : Dict κ α) : Dict κ α := d.filter fun p => p.1 ≠ k

theorem mem_erase {k : κ} {d : Dict κ α} {p : κ × α} : p ∈ erase k d ↔ p ∈ d ∧ p.1 ≠ k := by
  rw [erase, List.mem_filter, decide_eq_true_eq]

theorem mem_keys_erase {k k' : κ} {d : Dict κ α} :
    k' ∈ keys (erase k d) ↔ k' ∈ keys d ∧ k' ≠ k := by
  constructor
  · intro h
    obtain ⟨p, hp, rfl⟩ := List.mem_map.1 h
    obtain ⟨hm, hk⟩ := mem_erase.1 hp
    exact ⟨List.mem_map_of_mem hm, hk⟩
  · rintro ⟨h, hk⟩
    obtain ⟨p, hp, rfl⟩ := List.mem_map.1 h
    exact List.mem_map_of_mem (mem_erase.2 ⟨hp, hk⟩)

theorem erase_of_not_mem {k : κ} {d : Dict κ α} (h : k ∉ keys d) : erase k d = d := by
  rw [erase, List.filter_eq_self]
  intro p hp
  rw [decide_eq_true_eq]
  rintro rfl
  exact h (List.mem_map_of_mem hp)

theorem erase_mapVals (f : α → β) (k : κ) (d : Dict κ α) :
    erase k (mapVals f d) = mapVals f (erase k d) :=
  List.filter_map

theorem erase_set_of_not_mem {k : κ} {d : Dict κ α} (h : k ∉ keys d) (v : α) :
    erase k (set k v d) = d := by
  rw [set_of_not_mem h, erase, List.filter_append, ← erase, erase_of_not_mem h]
  simp

theorem Distinct.erase {d : Dict κ α} (h : Distinct d) (k : κ) : Distinct (Dict.erase k d) :=
  List.Nodup.sublist (List.filter_sublist.map Prod.fst) h

theorem set_of_mem {k : κ} {d : Dict κ α} (h : Distinct d) (hk : k ∈ keys d) (v : α) :
    set k v d = d.map fun p => if p.1 = k then (k, v) else p := by
  induction d with
  | nil => cases hk
  | cons p d ih =>
    obtain ⟨k', v'⟩ := p
    obtain ⟨hp, hd⟩ := List.nodup_cons.1 h
    rw [set_cons, List.map_cons]
    by_cases he : k' = k
    · have hrest : (d.map fun p => if p.1 = k then (k, v) else p) = d.map id :=
        List.map_congr_left fun p hm =>
          if_neg fun hpk : p.1 = k => hp (List.mem_map.2 ⟨p, hm, hpk.trans he.symm⟩)
      rw [if_pos he, if_pos he, hrest, List.map_id, he]
    · rw [if_neg he, if_neg he, ih hd ((List.mem_cons.1 hk).resolve_left fun hk => he hk.symm)]

theorem length_erase {k : κ} {d : Dict κ α} (h : Distinct d) (hk : k ∈ keys d) :
    (erase k d).length + 1 = d.length := by
  induction d with
  | nil => cases hk
  | cons p d ih =>
    obtain ⟨hp, hd⟩ := List.nodup_cons.1 h
    by_cases he : p.1 = k
    · subst he
      rw [erase, List.filter_cons_of_neg (by simp), ← erase, erase_of_not_mem hp,
        List.length_cons]
    · rw [erase, List.filter_cons_of_pos (by simpa using he), List.length_cons, List.length_cons,
        ← erase, ih hd ((List.mem_cons.1 hk).resolve_left fun hk => he hk.symm)]

theorem lookup_eq_some_iff {d : Dict κ α} (h : Distinct d) {k : κ} {v : α} :
    d.lookup k = some v ↔ (k, v) ∈ d := by
  constructor
  · exact lookup_mem
  · intro hm
    obtain ⟨l₁, l₂, rfl⟩ := List.append_of_mem hm
    rw [List.lookup_eq_some_iff]
    refine ⟨l₁, l₂, rfl, ?_⟩
    rintro ⟨a, w⟩ hp
    rw [Distinct, keys_append, List.nodup_append] at h
    simpa using (h.2.2 a (List.mem_map_of_mem hp) k (List.mem_cons_self ..)).symm

/-- The order of the items does not matter to a lookup. -/
theorem lookup_perm {d e : Dict κ α} (hd : Distinct d) (h : d.Perm e) (k : κ) :
    e.lookup k = d.lookup k := by
  have he : Distinct e := (h.map Prod.fst).nodup_iff.1 hd
  apply Option.ext
  intro v
  rw [lookup_eq_some_iff he, lookup_eq_some_iff hd, h.mem_iff]

/-- Dictionaries with the same value at each key have the same items. -/
theorem perm_of_lookup {d e : Dict κ α} (hd : Distinct d) (he : Distinct e)
    (h : ∀ k, d.lookup k = e.lookup k) : d.Perm e := by
  rw [List.perm_ext_iff_of_nodup hd.of_map he.of_map]
  rintro ⟨k, v⟩
  rw [← lookup_eq_some_iff hd, ← lookup_eq_some_iff he, h]

theorem lookup_erase_self (k : κ) (d : Dict κ α) : (erase k d).lookup k = none :=
  lookup_eq_none_of_not_mem fun h => (mem_keys_erase.1 h).2 rfl

theorem lookup_erase_ne {k k' : κ} (h : k' ≠ k) (d : Dict κ α) :
    (erase k d).lookup k' = d.lookup k' := by
  induction d with
  | nil => rfl
  | cons p d ih =>
    obtain ⟨a, v⟩ := p
    rw [List.lookup_cons, erase, List.filter_cons]
    by_cases ha : a = k
    · subst ha
      rw [if_neg (by simp), ← erase, ih, beq_false_of_ne h]
    · rw [if_pos (by simpa using ha), List.lookup_cons, ← erase, ih]

theorem mem_keys_iff {d : Dict κ α} {k : κ} : k ∈ keys d ↔ ∃ v, d.lookup k = some v := by
  constructor
  · intro h
    cases hv : d.lookup k with
    | some v => exact ⟨v, rfl⟩
    | none =>
      rw [List.lookup_eq_none_iff] at hv
      obtain ⟨p, hp, rfl⟩ := List.mem_map.1 h
      exact absurd (hv p hp) (by simp)
  · rintro ⟨v, hv⟩
    exact List.mem_map_of_mem (lookup_mem hv)

theorem lookup_filterMap {f : κ × α → Option (κ × β)} (hf : ∀ p q, f p = some q → q.1 = p.1)
    {d : Dict κ α} (hd : Distinct d) (k : κ) :
    (d.filterMap f).lookup k = (d.lookup k).bind fun v => (f (k, v)).map Prod.snd := by
  induction d with
  | nil => rfl
  | cons p d ih =>
    obtain ⟨k', v⟩ := p
    rw [Distinct, keys, List.map_cons, List.nodup_cons] at hd
    by_cases hk : k = k'
    · subst hk
      rw [List.lookup_cons_self, Option.bind_some]
      cases hp : f (k, v) with
      | none =>
        have hn : k ∉ keys d := hd.1
        rw [List.filterMap_cons_none hp, ih hd.2, lookup_eq_none_of_not_mem hn]
        rfl
      | some q =>
        obtain ⟨k', w⟩ := q
        obtain rfl : k' = k := hf _ _ hp
        rw [List.filterMap_cons_some hp, List.lookup_cons_self]
        rfl
    · have hne : (k == k') = false := beq_false_of_ne hk
      rw [List.lookup_cons, hne]
      cases hp : f (k', v) with
      | none =>
        rw [List.filterMap_cons_none hp]
        exact ih hd.2
      | some q =>
        obtain ⟨k'', w⟩ := q
        obtain rfl : k'' = k' := hf _ _ hp
        rw [List.filterMap_cons_some hp, List.lookup_cons, hne]
        exact ih hd.2

end

end Dict
end Obase
