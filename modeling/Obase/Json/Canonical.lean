import Mathlib.Algebra.Ring.Nat
import Mathlib.Data.String.Basic
import Obase.Json.RoundTrip
import Obase.Builtins

namespace Obase
set_option autoImplicit true

namespace Value

mutual
theorem induct_value {P : Value κ F → Prop} (hnull : P .null) (hbool : ∀ b, P (.bool b))
    (hint : ∀ n, P (.int n)) (hfloat : ∀ x, P (.float x)) (hstr : ∀ s, P (.str s))
    (hlist : ∀ xs, (∀ v ∈ xs, P v) → P (.list xs))
    (hdict : ∀ ms, (∀ p ∈ ms, P p.2) → P (.dict ms)) : ∀ v, P v
  | .null => hnull
  | .bool b => hbool b
  | .int n => hint n
  | .float x => hfloat x
  | .str s => hstr s
  | .list xs => hlist xs (induct_list hnull hbool hint hfloat hstr hlist hdict xs)
  | .dict ms => hdict ms (induct_members hnull hbool hint hfloat hstr hlist hdict ms)
theorem induct_list {P : Value κ F → Prop} (hnull : P .null) (hbool : ∀ b, P (.bool b))
    (hint : ∀ n, P (.int n)) (hfloat : ∀ x, P (.float x)) (hstr : ∀ s, P (.str s))
    (hlist : ∀ xs, (∀ v ∈ xs, P v) → P (.list xs))
    (hdict : ∀ ms, (∀ p ∈ ms, P p.2) → P (.dict ms)) : ∀ xs : List (Value κ F), ∀ v ∈ xs, P v
  | [], _, h => nomatch h
  | w :: ws, v, h =>
    (List.mem_cons.1 h).elim
      (fun he => he ▸ induct_value hnull hbool hint hfloat hstr hlist hdict w)
      (induct_list hnull hbool hint hfloat hstr hlist hdict ws v)
theorem induct_members {P : Value κ F → Prop} (hnull : P .null) (hbool : ∀ b, P (.bool b))
    (hint : ∀ n, P (.int n)) (hfloat : ∀ x, P (.float x)) (hstr : ∀ s, P (.str s))
    (hlist : ∀ xs, (∀ v ∈ xs, P v) → P (.list xs))
    (hdict : ∀ ms, (∀ p ∈ ms, P p.2) → P (.dict ms)) :
    ∀ ms : List (κ × Value κ F), ∀ p ∈ ms, P p.2
  | [], _, h => nomatch h
  | (_, w) :: ms, p, h =>
    (List.mem_cons.1 h).elim
      (fun he => he ▸ induct_value hnull hbool hint hfloat hstr hlist hdict w)
      (induct_members hnull hbool hint hfloat hstr hlist hdict ms p)
end

theorem mapKeysList_eq (f : κ → κ') (xs : List (Value κ F)) :
    mapKeysList f xs = xs.map (mapKeys f) := by
  induction xs with
  | nil => rfl
  | cons v xs ih => rw [mapKeysList, ih, List.map_cons]

theorem mapKeysMembers_eq (f : κ → κ') (ms : List (κ × Value κ F)) :
    mapKeysMembers f ms = ms.map fun p => (f p.1, mapKeys f p.2) := by
  induction ms with
  | nil => rfl
  | cons p ms ih =>
    obtain ⟨k, v⟩ := p
    rw [mapKeysMembers, ih, List.map_cons]

theorem buildList_eq (xs : List (Json F)) : buildList xs = xs.map build := by
  induction xs with
  | nil => rfl
  | cons v xs ih => rw [buildList, ih, List.map_cons]

theorem buildMembers_eq (ms : List (String × Json F)) :
    buildMembers ms = ms.map fun p => (p.1, build p.2) := by
  induction ms with
  | nil => rfl
  | cons p ms ih =>
    obtain ⟨k, v⟩ := p
    rw [buildMembers, ih, List.map_cons]

theorem mapKeys_mapKeys (f : κ → κ') (g : κ' → κ'') (v : Value κ F) :
    (v.mapKeys f).mapKeys g = v.mapKeys (g ∘ f) := by
  induction v using induct_value with
  | hnull | hbool | hint | hfloat | hstr => rfl
  | hlist xs ih =>
    simp only [mapKeys, mapKeysList_eq, List.map_map, list.injEq]
    exact List.map_congr_left ih
  | hdict ms ih =>
    simp only [mapKeys, mapKeysMembers_eq, List.map_map, dict.injEq]
    exact List.map_congr_left fun p hp => Prod.ext rfl (ih p hp)

theorem mapKeys_id (v : Value κ F) : v.mapKeys id = v := by
  induction v using induct_value with
  | hnull | hbool | hint | hfloat | hstr => rfl
  | hlist xs ih =>
    rw [mapKeys, mapKeysList_eq, List.map_congr_left ih, List.map_id']
  | hdict ms ih =>
    have hc : ms.map (fun p => (id p.1, mapKeys id p.2)) = ms.map id :=
      List.map_congr_left fun p hp => Prod.ext rfl (ih p hp)
    rw [mapKeys, mapKeysMembers_eq, hc, List.map_id]

end Value

namespace Json

/-- Two members in the order of their keys. -/
def keyLe (p q : String × α) : Prop := ¬ q.1 < p.1

instance : DecidableRel (keyLe (α := α)) := fun p q => inferInstanceAs (Decidable (¬ q.1 < p.1))

theorem keyLe_iff {p q : String × α} : keyLe p q ↔ p.1 ≤ q.1 := not_lt

instance : Std.Total (keyLe (α := α)) := ⟨fun p q => by
  rw [keyLe_iff, keyLe_iff]
  exact le_total p.1 q.1⟩

instance : IsTrans (String × α) keyLe := ⟨fun p q r hp hq => by
  rw [keyLe_iff] at hp hq ⊢
  exact le_trans hp hq⟩

mutual
/-- A decoded value with the members of every dictionary in the order of their keys. -/
def arrange : Json F → Json F
  | .list xs => .list (arrangeList xs)
  | .dict ms => .dict ((arrangeMembers ms).insertionSort keyLe)
  | v => v
def arrangeList : List (Json F) → List (Json F)
  | [] => []
  | v :: vs => arrange v :: arrangeList vs
def arrangeMembers : List (String × Json F) → List (String × Json F)
  | [] => []
  | (k, v) :: ms => (k, arrange v) :: arrangeMembers ms
end

mutual
/-- The keys of every dictionary inside the value increase. -/
def Ordered : Json F → Prop
  | .list xs => OrderedList xs
  | .dict ms => (Dict.keys ms).Pairwise (· < ·) ∧ OrderedMembers ms
  | _ => True
def OrderedList : List (Json F) → Prop
  | [] => True
  | v :: vs => Ordered v ∧ OrderedList vs
def OrderedMembers : List (String × Json F) → Prop
  | [] => True
  | (_, v) :: ms => Ordered v ∧ OrderedMembers ms
end

theorem arrangeList_eq (xs : List (Json F)) : arrangeList xs = xs.map arrange := by
  induction xs with
  | nil => rfl
  | cons v xs ih => rw [arrangeList, ih, List.map_cons]

theorem arrangeMembers_eq (ms : List (String × Json F)) :
    arrangeMembers ms = ms.map fun p => (p.1, arrange p.2) := by
  induction ms with
  | nil => rfl
  | cons p ms ih =>
    obtain ⟨k, v⟩ := p
    rw [arrangeMembers, ih, List.map_cons]

theorem orderedList_iff {xs : List (Json F)} : OrderedList xs ↔ ∀ v ∈ xs, Ordered v := by
  induction xs with
  | nil => simp [OrderedList]
  | cons v xs ih => rw [OrderedList, ih, List.forall_mem_cons]

theorem orderedMembers_iff {ms : List (String × Json F)} :
    OrderedMembers ms ↔ ∀ p ∈ ms, Ordered p.2 := by
  induction ms with
  | nil => simp [OrderedMembers]
  | cons p ms ih =>
    obtain ⟨k, v⟩ := p
    rw [OrderedMembers, ih, List.forall_mem_cons]

theorem distinctList_iff {xs : List (Value κ F)} :
    Value.DistinctList xs ↔ ∀ v ∈ xs, v.Distinct := by
  induction xs with
  | nil => simp [Value.DistinctList]
  | cons v xs ih => rw [Value.DistinctList, ih, List.forall_mem_cons]

theorem Ordered.distinct {v : Json F} (h : Ordered v) : v.Distinct := by
  induction v using Value.induct_value with
  | hnull | hbool | hint | hfloat | hstr => trivial
  | hlist xs ih =>
    exact distinctList_iff.2 fun v hv => ih v hv (orderedList_iff.1 h v hv)
  | hdict ms ih =>
    exact ⟨h.1.imp fun hlt => ne_of_lt hlt, Value.distinctMembers_iff.2 fun p hp =>
      ih p hp (orderedMembers_iff.1 h.2 p hp)⟩

/-- Nothing is left to arrange where the keys increase. -/
theorem arrange_of_ordered {v : Json F} (h : Ordered v) : arrange v = v := by
  induction v using Value.induct_value with
  | hnull | hbool | hint | hfloat | hstr => rfl
  | hlist xs ih =>
    have hc : xs.map arrange = xs.map id :=
      List.map_congr_left fun v hv => ih v hv (orderedList_iff.1 h v hv)
    rw [arrange, arrangeList_eq, hc, List.map_id]
  | hdict ms ih =>
    have hc : ms.map (fun p => (p.1, arrange p.2)) = ms.map id :=
      List.map_congr_left fun p hp => Prod.ext rfl (ih p hp (orderedMembers_iff.1 h.2 p hp))
    rw [arrange, arrangeMembers_eq, hc, List.map_id]
    congr 1
    apply List.Pairwise.insertionSort_eq
    rw [Ordered, Dict.keys, List.pairwise_map] at h
    exact h.1.imp fun hlt => keyLe_iff.2 hlt.le

theorem keys_arrangeMembers (ms : List (String × Json F)) :
    Dict.keys (arrangeMembers ms) = Dict.keys ms := by
  rw [arrangeMembers_eq, Dict.keys, List.map_map]
  rfl

theorem arrange_ordered {v : Json F} (h : v.Distinct) : Ordered (arrange v) := by
  induction v using Value.induct_value with
  | hnull | hbool | hint | hfloat | hstr => trivial
  | hlist xs ih =>
    rw [arrange, arrangeList_eq]
    apply orderedList_iff.2
    intro w hw
    obtain ⟨v, hv, rfl⟩ := List.mem_map.1 hw
    exact ih v hv (distinctList_iff.1 h v hv)
  | hdict ms ih =>
    rw [arrange]
    have hperm := List.perm_insertionSort keyLe (arrangeMembers ms)
    constructor
    · have hle : (((arrangeMembers ms).insertionSort keyLe).map Prod.fst).Pairwise (· ≤ ·) := by
        rw [List.pairwise_map]
        exact (List.pairwise_insertionSort keyLe _).imp fun hle => keyLe_iff.1 hle
      have hn : (((arrangeMembers ms).insertionSort keyLe).map Prod.fst).Nodup := by
        rw [(hperm.map Prod.fst).nodup_iff]
        have hk := h.1
        rw [Dict.Distinct, ← keys_arrangeMembers] at hk
        exact hk
      exact (hle.and hn).imp fun hlt => lt_of_le_of_ne hlt.1 hlt.2
    · apply orderedMembers_iff.2
      intro p hp
      rw [hperm.mem_iff, arrangeMembers_eq] at hp
      obtain ⟨q, hq, rfl⟩ := List.mem_map.1 hp
      exact ih q hq (Value.distinctMembers_iff.1 h.2 q hq)

/-- The arranged items of a dictionary, under its keys. -/
theorem lookup_arrange {ms : List (String × Json F)} (h : Dict.Distinct ms) (k : String) :
    ((arrangeMembers ms).insertionSort keyLe).lookup k = (ms.lookup k).map arrange := by
  have hd : Dict.Distinct (arrangeMembers ms) := by
    rw [Dict.Distinct, keys_arrangeMembers]
    exact h
  rw [Dict.lookup_perm hd (List.perm_insertionSort keyLe _).symm, arrangeMembers_eq]
  exact Dict.lookup_mapVals arrange ms k

theorem mem_keys_arrange {ms : List (String × Json F)} {k : String} :
    k ∈ Dict.keys ((arrangeMembers ms).insertionSort keyLe) ↔ k ∈ Dict.keys ms := by
  have hp := (List.perm_insertionSort keyLe (arrangeMembers ms)).map Prod.fst
  rw [← keys_arrangeMembers ms]
  exact hp.mem_iff

/-- What is decoded from a text is in order when it is arranged, and is the text's tree exactly
when that was in order. -/
theorem arrange_build_eq_iff {v : Json F} : arrange v.build = v ↔ Ordered v := by
  constructor
  · intro h
    rw [← h]
    exact arrange_ordered (Value.build_distinct v)
  · intro h
    rw [Value.build_of_distinct v h.distinct, arrange_of_ordered h]

/-- A Python value that `json.dumps` accepts. -/
abbrev Obj (F : Type) := Value (Key F) F

/-- A decoded value as a Python value. -/
def ofJson (v : Json F) : Obj F := v.mapKeys .str

def floatIsFinite : PyFloat F → Bool
  | .finite _ => true
  | _ => false

def keyIsFinite : Key F → Bool
  | .float x => floatIsFinite x
  | _ => true

mutual
/-- `allow_nan=False` has nothing to refuse. -/
def strict : Obj F → Bool
  | .float x => floatIsFinite x
  | .list xs => strictList xs
  | .dict ms => strictMembers ms
  | _ => true
def strictList : List (Obj F) → Bool
  | [] => true
  | v :: vs => strict v && strictList vs
def strictMembers : List (Key F × Obj F) → Bool
  | [] => true
  | (k, v) :: ms => keyIsFinite k && strict v && strictMembers ms
end

theorem strictList_iff {xs : List (Obj F)} : strictList xs = true ↔ ∀ v ∈ xs, strict v = true := by
  induction xs with
  | nil => simp [strictList]
  | cons v xs ih => rw [strictList, Bool.and_eq_true, ih, List.forall_mem_cons]

theorem strictMembers_iff {ms : List (Key F × Obj F)} :
    strictMembers ms = true ↔ ∀ p ∈ ms, keyIsFinite p.1 = true ∧ strict p.2 = true := by
  induction ms with
  | nil => simp [strictMembers]
  | cons p ms ih =>
    obtain ⟨k, v⟩ := p
    rw [strictMembers, Bool.and_eq_true, Bool.and_eq_true, ih, List.forall_mem_cons]

theorem strict_list_ofJson {xs : List (Json F)} :
    strict (ofJson (.list xs)) = true ↔ ∀ v ∈ xs, strict (ofJson v) = true := by
  rw [ofJson, Value.mapKeys, Value.mapKeysList_eq, strict, strictList_iff, List.forall_mem_map]
  rfl

theorem strict_dict_ofJson {ms : List (String × Json F)} :
    strict (ofJson (.dict ms)) = true ↔ ∀ p ∈ ms, strict (ofJson p.2) = true := by
  rw [ofJson, Value.mapKeys, Value.mapKeysMembers_eq, strict, strictMembers_iff,
    List.forall_mem_map]
  exact forall₂_congr fun p _ => and_iff_right rfl

theorem strict_build {v : Json F} (h : strict (ofJson v) = true) :
    strict (ofJson v.build) = true := by
  induction v using Value.induct_value with
  | hnull | hbool | hint | hfloat | hstr => exact h
  | hlist xs ih =>
    rw [strict_list_ofJson] at h
    rw [Value.build, Value.buildList_eq, strict_list_ofJson, List.forall_mem_map]
    exact fun v hv => ih v hv (h v hv)
  | hdict ms ih =>
    rw [strict_dict_ofJson] at h
    rw [Value.build, strict_dict_ofJson, Value.buildMembers_eq]
    intro p hp
    obtain ⟨r, hr, he⟩ := Dict.mem_ofPairs hp
    obtain ⟨q, hq, rfl⟩ := List.mem_map.1 hr
    rw [he]
    exact ih q hq (h q hq)

section
variable [FloatText F]

/-- The tree that `json.dumps(v, sort_keys=True)` writes. -/
def tree (v : Obj F) : Option (Json F) := (sortKeys v).map keyTexts

/-- `json.dumps` with sorted keys, compact separators and `allow_nan=False`. -/
def dumpsStrict (v : Obj F) : Option (List Char) := if strict v then dumpsSorted v else none

theorem sortKeysList_forall₂ {xs ys : List (Obj F)} (h : sortKeysList xs = some ys) :
    List.Forall₂ (fun v w => sortKeys v = some w) xs ys := by
  induction xs generalizing ys with
  | nil =>
    cases h
    exact .nil
  | cons v xs ih =>
    rw [sortKeysList] at h
    obtain ⟨w, hw, h⟩ := Option.bind_eq_some_iff.1 h
    obtain ⟨ws, hws, h⟩ := Option.bind_eq_some_iff.1 h
    cases h
    exact .cons hw (ih hws)

theorem sortKeysMembers_forall₂ {ms ns : List (Key F × Obj F)}
    (h : sortKeysMembers ms = some ns) :
    List.Forall₂ (fun p q => q.1 = p.1 ∧ sortKeys p.2 = some q.2) ms ns := by
  induction ms generalizing ns with
  | nil =>
    cases h
    exact .nil
  | cons p ms ih =>
    obtain ⟨k, v⟩ := p
    rw [sortKeysMembers] at h
    obtain ⟨w, hw, h⟩ := Option.bind_eq_some_iff.1 h
    obtain ⟨ws, hws, h⟩ := Option.bind_eq_some_iff.1 h
    cases h
    exact .cons ⟨rfl, hw⟩ (ih hws)

theorem sortMembers_perm {ms ns : List (Key F × α)} (h : sortMembers ms = some ns) :
    ns.Perm ms := by
  rw [sortMembers] at h
  split at h
  · cases h
    exact List.perm_insertionSort _ ms
  · cases h

theorem sortKeys_list {xs : List (Obj F)} {w : Obj F} (h : sortKeys (.list xs) = some w) :
    ∃ ys, w = .list ys ∧ List.Forall₂ (fun v w => sortKeys v = some w) xs ys := by
  rw [sortKeys] at h
  obtain ⟨ys, hys, rfl⟩ := Option.map_eq_some_iff.1 h
  exact ⟨ys, rfl, sortKeysList_forall₂ hys⟩

theorem sortKeys_dict {ms : List (Key F × Obj F)} {w : Obj F} (h : sortKeys (.dict ms) = some w) :
    ∃ ns os, w = .dict os ∧ os.Perm ns ∧
      List.Forall₂ (fun p q => q.1 = p.1 ∧ sortKeys p.2 = some q.2) ms ns := by
  rw [sortKeys] at h
  obtain ⟨ns, hns, h⟩ := Option.bind_eq_some_iff.1 h
  obtain ⟨os, hos, rfl⟩ := Option.map_eq_some_iff.1 h
  exact ⟨ns, os, rfl, sortMembers_perm hos, sortKeysMembers_forall₂ hns⟩

theorem forall₂_right {R : α → β → Prop} {as : List α} {bs : List β} (h : List.Forall₂ R as bs)
    {b : β} (hb : b ∈ bs) : ∃ a ∈ as, R a b := by
  induction h with
  | nil => cases hb
  | cons hr _ ih =>
    rcases List.mem_cons.1 hb with rfl | hb
    · exact ⟨_, .head _, hr⟩
    · obtain ⟨a, ha, hr⟩ := ih hb
      exact ⟨a, .tail _ ha, hr⟩

theorem strict_sortKeys {v w : Obj F} (hs : strict v = true) (h : sortKeys v = some w) :
    strict (ofJson (keyTexts w)) = true := by
  induction v using Value.induct_value generalizing w with
  | hnull | hbool | hint | hfloat | hstr =>
    cases h
    exact hs
  | hlist xs ih =>
    obtain ⟨ys, rfl, hys⟩ := sortKeys_list h
    rw [keyTexts, Value.mapKeys, Value.mapKeysList_eq, strict_list_ofJson, List.forall_mem_map]
    intro w hw
    obtain ⟨v, hv, he⟩ := forall₂_right hys hw
    exact ih v hv (strictList_iff.1 hs v hv) he
  | hdict ms ih =>
    obtain ⟨ns, os, rfl, hp, hns⟩ := sortKeys_dict h
    rw [keyTexts, Value.mapKeys, Value.mapKeysMembers_eq, strict_dict_ofJson, List.forall_mem_map]
    intro q hq
    obtain ⟨p, hpm, -, he⟩ := forall₂_right hns (hp.mem_iff.1 hq)
    exact ih p hpm (strictMembers_iff.1 hs p hpm).2 he

theorem keyTexts_ofJson (v : Json F) : keyTexts (ofJson v) = v := by
  rw [keyTexts, ofJson, Value.mapKeys_mapKeys]
  exact Value.mapKeys_id v

theorem sortKeysList_map {xs : List (Json F)}
    (h : ∀ v ∈ xs, sortKeys (ofJson v) = some (ofJson (arrange v))) :
    sortKeysList (xs.map ofJson) = some ((xs.map arrange).map ofJson) := by
  induction xs with
  | nil => rfl
  | cons v xs ih =>
    rw [List.forall_mem_cons] at h
    rw [List.map_cons, sortKeysList, h.1, ih h.2]
    rfl

theorem sortKeysMembers_map {ms : List (String × Json F)}
    (h : ∀ p ∈ ms, sortKeys (ofJson p.2) = some (ofJson (arrange p.2))) :
    sortKeysMembers (ms.map fun p => ((.str p.1 : Key F), ofJson p.2)) =
      some ((ms.map fun p => (p.1, arrange p.2)).map fun p => (.str p.1, ofJson p.2)) := by
  induction ms with
  | nil => rfl
  | cons p ms ih =>
    rw [List.forall_mem_cons] at h
    rw [List.map_cons, sortKeysMembers, h.1, ih h.2]
    rfl

theorem sortMembers_str (ms : List (String × α)) (f : α → β) :
    sortMembers (ms.map fun p => ((.str p.1 : Key F), f p.2)) =
      some ((ms.insertionSort keyLe).map fun p => (.str p.1, f p.2)) := by
  rw [sortMembers, if_pos]
  · rw [List.map_insertionSort _ (fun p q : Key F × β => DictKey.lt q.1 p.1 ≠ some true)]
    intro p _ q _
    change ¬ q.1 < p.1 ↔ some (decide (q.1 < p.1)) ≠ some true
    simp
  · rw [List.pairwise_map]
    exact List.pairwise_of_forall fun p q => ⟨rfl, rfl⟩

theorem sortKeys_ofJson (v : Json F) : sortKeys (ofJson v) = some (ofJson (arrange v)) := by
  induction v using Value.induct_value with
  | hnull | hbool | hint | hfloat | hstr => rfl
  | hlist xs ih =>
    rw [arrange, arrangeList_eq, ofJson, ofJson, Value.mapKeys, Value.mapKeys,
      Value.mapKeysList_eq, Value.mapKeysList_eq, sortKeys]
    have hm := sortKeysList_map ih
    exact congrArg (Option.map Value.list) hm
  | hdict ms ih =>
    rw [arrange, arrangeMembers_eq, ofJson, ofJson, Value.mapKeys, Value.mapKeys,
      Value.mapKeysMembers_eq, Value.mapKeysMembers_eq, sortKeys]
    have hm := sortKeysMembers_map ih
    have hs := sortMembers_str (F := F) (ms.map fun p => (p.1, arrange p.2)) (ofJson (F := F))
    change (sortKeysMembers (ms.map fun p => ((.str p.1 : Key F), ofJson p.2))).bind _ = _
    rw [hm, Option.bind_some, hs]
    rfl

theorem tree_ofJson (v : Json F) : tree (ofJson v) = some (arrange v) := by
  rw [tree, sortKeys_ofJson, Option.map_some, keyTexts_ofJson]

theorem dumpsStrict_iff {v : Obj F} {t : List Char} :
    dumpsStrict v = some t ↔
      strict v = true ∧ ∃ u, tree v = some u ∧ t = dumps .compact u := by
  have hd : dumpsSorted v = (tree v).map (dumps .compact) := by
    rw [tree, Option.map_map]
    rfl
  rw [dumpsStrict]
  by_cases hs : strict v = true
  · rw [if_pos hs, hd, Option.map_eq_some_iff, and_iff_right hs]
    exact exists_congr fun u => and_congr_right fun _ => eq_comm
  · rw [if_neg hs]
    exact iff_of_false (fun h => nomatch h) fun h => hs h.1

/-- The text of a value is its own text after decoding exactly when its tree is in order. -/
theorem dumps_arrange_build_iff {u : Json F} :
    dumps .compact (arrange u.build) = dumps .compact u ↔ Ordered u := by
  constructor
  · intro h
    exact arrange_build_eq_iff.1 (dumps_injective .compact h)
  · intro h
    rw [arrange_build_eq_iff.2 h]

/-- `len(text.encode())`. -/
def byteLen (cs : List Char) : Nat := (utf8 cs).length

theorem byteLen_append (cs ds : List Char) : byteLen (cs ++ ds) = byteLen cs + byteLen ds := by
  rw [byteLen, utf8_append, List.length_append]
  rfl

theorem byteLen_cons (c : Char) (cs : List Char) : byteLen (c :: cs) = byteLen [c] + byteLen cs :=
  byteLen_append [c] cs

/-- What a member adds to the text of its dictionary, with the comma before it. -/
def memberLen (p : String × Json F) : Nat :=
  1 + byteLen (stringText p.1) + 1 + byteLen (dumps .compact p.2)

theorem byteLen_itemsTail (vs : List (Json F)) : byteLen (dumpsItemsTail .compact vs) =
    1 + (vs.map fun v => 1 + byteLen (dumps .compact v)).sum := by
  induction vs with
  | nil => rfl
  | cons v vs ih =>
    have hc : byteLen [','] = 1 := by decide
    rw [dumpsItemsTail, Spacing.gap, List.nil_append, byteLen_cons, byteLen_append, ih, hc,
      List.map_cons, List.sum_cons]
    omega

theorem byteLen_membersTail (ms : List (String × Json F)) :
    byteLen (dumpsMembersTail .compact ms) = 1 + (ms.map memberLen).sum := by
  induction ms with
  | nil => rfl
  | cons p ms ih =>
    obtain ⟨k, v⟩ := p
    have hc : byteLen [','] = 1 ∧ byteLen [':'] = 1 := by decide
    rw [dumpsMembersTail, Spacing.gap, List.nil_append, List.nil_append, byteLen_cons ',',
      byteLen_append, byteLen_cons ':', byteLen_append, ih, hc.1, hc.2, List.map_cons,
      List.sum_cons, memberLen]
    dsimp only
    omega

theorem byteLen_list (vs : List (Json F)) : byteLen (dumps .compact (.list vs)) =
    1 + max 1 (vs.map fun v => 1 + byteLen (dumps .compact v)).sum := by
  have hb : byteLen ['['] = 1 := by decide
  rw [dumps, byteLen_cons, hb]
  cases vs with
  | nil => rfl
  | cons v vs =>
    rw [dumpsItems, byteLen_append, byteLen_itemsTail, List.map_cons, List.sum_cons]
    omega

theorem byteLen_dict (ms : List (String × Json F)) :
    byteLen (dumps .compact (.dict ms)) = 1 + max 1 (ms.map memberLen).sum := by
  have hb : byteLen ['{'] = 1 ∧ byteLen [':'] = 1 := by decide
  rw [dumps, byteLen_cons, hb.1]
  cases ms with
  | nil => rfl
  | cons p ms =>
    obtain ⟨k, v⟩ := p
    rw [dumpsMembers, Spacing.gap, List.nil_append, byteLen_append, byteLen_cons ':',
      byteLen_append, byteLen_membersTail, hb.2, List.map_cons, List.sum_cons, memberLen]
    dsimp only
    omega

theorem sum_map_le {f g : α → Nat} {xs : List α} (h : ∀ x ∈ xs, f x ≤ g x) :
    (xs.map f).sum ≤ (xs.map g).sum := by
  induction xs with
  | nil => exact le_refl 0
  | cons x xs ih =>
    rw [List.forall_mem_cons] at h
    rw [List.map_cons, List.map_cons, List.sum_cons, List.sum_cons]
    exact Nat.add_le_add h.1 (ih h.2)

theorem byteLen_arrange (v : Json F) :
    byteLen (dumps .compact (arrange v)) ≤ byteLen (dumps .compact v) := by
  induction v using Value.induct_value with
  | hnull | hbool | hint | hfloat | hstr => exact le_refl _
  | hlist xs ih =>
    rw [arrange, arrangeList_eq, byteLen_list, byteLen_list, List.map_map]
    have hs := sum_map_le fun v hv => Nat.add_le_add_left (ih v hv) 1
    exact Nat.add_le_add_left (max_le_max (le_refl 1) hs) 1
  | hdict ms ih =>
    rw [arrange, byteLen_dict, byteLen_dict,
      ((List.perm_insertionSort keyLe (arrangeMembers ms)).map memberLen).sum_nat,
      arrangeMembers_eq, List.map_map]
    have hs := sum_map_le (f := memberLen ∘ fun p => (p.1, arrange p.2)) (g := memberLen)
      fun p hp => Nat.add_le_add_left (ih p hp) (1 + byteLen (stringText p.1) + 1)
    exact Nat.add_le_add_left (max_le_max (le_refl 1) hs) 1

theorem sum_set_le (f : String × α → Nat) (k : String) (v : α) (d : Dict String α) :
    ((Dict.set k v d).map f).sum ≤ (d.map f).sum + f (k, v) := by
  induction d with
  | nil => simp [Dict.set]
  | cons p d ih =>
    obtain ⟨a, b⟩ := p
    rw [Dict.set]
    split
    · rename_i hk
      rw [hk, List.map_cons, List.map_cons, List.sum_cons, List.sum_cons]
      omega
    · rw [List.map_cons, List.map_cons, List.sum_cons, List.sum_cons]
      omega

theorem sum_ofPairs_le (f : String × α → Nat) (ps : List (String × α)) :
    ((Dict.ofPairs ps).map f).sum ≤ (ps.map f).sum := by
  have hgo : ∀ (qs acc : List (String × α)),
      ((qs.foldl (fun d p => Dict.set p.1 p.2 d) acc).map f).sum ≤
        (acc.map f).sum + (qs.map f).sum := by
    intro qs
    induction qs with
    | nil => simp
    | cons q qs ih =>
      intro acc
      obtain ⟨k, v⟩ := q
      rw [List.foldl_cons, List.map_cons, List.sum_cons]
      dsimp only
      have hs := sum_set_le f k v acc
      have hi := ih (Dict.set k v acc)
      omega
  simpa [Dict.ofPairs] using hgo ps []

theorem byteLen_build (v : Json F) :
    byteLen (dumps .compact v.build) ≤ byteLen (dumps .compact v) := by
  induction v using Value.induct_value with
  | hnull | hbool | hint | hfloat | hstr => exact le_refl _
  | hlist xs ih =>
    rw [Value.build, Value.buildList_eq, byteLen_list, byteLen_list, List.map_map]
    have hs := sum_map_le fun v hv => Nat.add_le_add_left (ih v hv) 1
    exact Nat.add_le_add_left (max_le_max (le_refl 1) hs) 1
  | hdict ms ih =>
    rw [Value.build, byteLen_dict, byteLen_dict, Value.buildMembers_eq]
    have hp := sum_ofPairs_le memberLen (ms.map fun p => (p.1, p.2.build))
    have hs := sum_map_le (f := memberLen ∘ fun p => (p.1, p.2.build)) (g := memberLen)
      fun p hp => Nat.add_le_add_left (ih p hp) (1 + byteLen (stringText p.1) + 1)
    rw [List.map_map] at hp
    exact Nat.add_le_add_left (max_le_max (le_refl 1) (le_trans hp hs)) 1

/-- A text is no longer when it is decoded and written again. -/
theorem byteLen_rewritten (u : Json F) :
    byteLen (dumps .compact (arrange u.build)) ≤ byteLen (dumps .compact u) :=
  le_trans (byteLen_arrange u.build) (byteLen_build u)

/-- A dictionary with string keys as a Python value. -/
def dictObj (d : Dict String (Obj F)) : Obj F := .dict (d.map fun p => (.str p.1, p.2))

theorem lookup_of_mem {d : Dict String α} (h : Dict.Distinct d) {k : String} {v : α}
    (hm : (k, v) ∈ d) : d.lookup k = some v := by
  induction d with
  | nil => cases hm
  | cons p d ih =>
    obtain ⟨k', v'⟩ := p
    obtain ⟨hk, hd⟩ := List.nodup_cons.1 h
    rcases List.mem_cons.1 hm with he | hm'
    · cases he
      exact List.lookup_cons_self
    · have hne : (k == k') = false := by
        rw [beq_eq_false_iff_ne]
        rintro rfl
        have hin : k ∈ Dict.keys d := List.mem_map_of_mem (f := Prod.fst) hm'
        exact hk hin
      rw [List.lookup_cons, hne]
      exact ih hd hm'

theorem forall₂_left {R : α → β → Prop} {as : List α} {bs : List β} (h : List.Forall₂ R as bs)
    {a : α} (ha : a ∈ as) : ∃ b ∈ bs, R a b := by
  induction h with
  | nil => cases ha
  | cons hr _ ih =>
    rcases List.mem_cons.1 ha with rfl | ha
    · exact ⟨_, .head _, hr⟩
    · obtain ⟨b, hb, hr⟩ := ih ha
      exact ⟨b, .tail _ hb, hr⟩

theorem keys_sorted {d : Dict String (Obj F)} {ns : List (Key F × Obj F)}
    (h : List.Forall₂ (fun p q => q.1 = p.1 ∧ sortKeys p.2 = some q.2)
      (d.map fun p => ((.str p.1 : Key F), p.2)) ns) :
    ns.map (fun q => DictKey.text q.1) = Dict.keys d := by
  induction d generalizing ns with
  | nil =>
    cases h
    rfl
  | cons p d ih =>
    cases h with
    | cons hr h =>
      rw [List.map_cons, ih h, hr.1]
      rfl

/-- A dictionary that is written and decoded has what each of its values is written and decoded
to. -/
theorem tree_dict {d : Dict String (Obj F)} (hd : Dict.Distinct d) {u : Json F}
    (h : tree (dictObj d) = some u) :
    ∃ ms, u.build = .dict ms ∧ Dict.Distinct ms ∧
      ∀ k, ms.lookup k = ((d.lookup k).bind tree).map Value.build := by
  obtain ⟨w, hw, rfl⟩ := Option.map_eq_some_iff.1 h
  obtain ⟨ns, os, rfl, hp, hns⟩ := sortKeys_dict hw
  have hkeys : (os.map fun q => DictKey.text q.1).Perm (Dict.keys d) := by
    rw [← keys_sorted hns]
    exact hp.map _
  have hb : Value.buildMembers (os.map fun q => (DictKey.text q.1, keyTexts q.2)) =
      os.map fun q => (DictKey.text q.1, (keyTexts q.2).build) := by
    rw [Value.buildMembers_eq, List.map_map]
    rfl
  have hdist : Dict.Distinct (os.map fun q => (DictKey.text q.1, (keyTexts q.2).build)) := by
    rw [Dict.Distinct, Dict.keys, List.map_map]
    exact (hkeys.nodup_iff).2 hd
  refine ⟨os.map fun q => (DictKey.text q.1, (keyTexts q.2).build), ?_, hdist, fun k => ?_⟩
  · rw [keyTexts, Value.mapKeys, Value.mapKeysMembers_eq, Value.build]
    change Value.dict (Dict.ofPairs (Value.buildMembers
      (os.map fun q => (DictKey.text q.1, keyTexts q.2)))) = _
    rw [hb, Dict.ofPairs_of_distinct hdist]
  · cases hk : d.lookup k with
    | none =>
      apply Dict.lookup_eq_none_of_not_mem
      rw [Dict.keys, List.map_map]
      intro hm
      have hin := hkeys.mem_iff.1 hm
      obtain ⟨p, hpm, rfl⟩ := List.mem_map.1 hin
      have hl := lookup_of_mem hd (k := p.1) (v := p.2) hpm
      rw [hk] at hl
      cases hl
    | some v =>
      obtain ⟨q, hq, hqk, hs⟩ := forall₂_left hns
        (List.mem_map_of_mem (f := fun p => ((.str p.1 : Key F), p.2)) (Dict.lookup_mem hk))
      rw [Option.bind_some, tree, hs, Option.map_some, Option.map_some]
      apply lookup_of_mem hdist
      apply List.mem_map.2
      refine ⟨q, hp.mem_iff.2 hq, ?_⟩
      rw [hqk]
      rfl

end
end Json
end Obase
