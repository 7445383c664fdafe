import Obase.Json.Canonical

namespace Obase.Json
set_option autoImplicit true

/-- A dictionary key as a value. -/
def keyJson : Key F → Json F
  | .str s => .str s
  | .int n => .int n
  | .float x => .float x
  | .bool b => .bool b
  | .none => .null

theorem insertionSort_perm {xs ys : List (String × α)} (hp : xs.Perm ys) (hd : Dict.Distinct xs) :
    xs.insertionSort keyLe = ys.insertionSort keyLe := by
  have hperm := (List.perm_insertionSort keyLe xs).trans
    (hp.trans (List.perm_insertionSort keyLe ys).symm)
  refine hperm.eq_of_pairwise (fun p q hpm hqm hpq hqp => ?_)
    (List.pairwise_insertionSort keyLe xs) (List.pairwise_insertionSort keyLe ys)
  have hk := le_antisymm (keyLe_iff.1 hpq) (keyLe_iff.1 hqp)
  have hpx := (List.perm_insertionSort keyLe xs).mem_iff.1 hpm
  have hqx := hp.mem_iff.2 ((List.perm_insertionSort keyLe ys).mem_iff.1 hqm)
  have hlp := lookup_of_mem hd (k := p.1) (v := p.2) hpx
  have hlq := lookup_of_mem hd (k := q.1) (v := q.2) hqx
  rw [hk, hlq] at hlp
  exact Prod.ext hk (Option.some.inj hlp).symm

theorem map_eq_of_forall₂ {R : α → β → Prop} {f : α → γ} {g : β → γ} {as : List α} {bs : List β}
    (h : List.Forall₂ R as bs) (hfg : ∀ a ∈ as, ∀ b, R a b → g b = f a) : bs.map g = as.map f := by
  induction h with
  | nil => rfl
  | cons hr _ ih =>
    rw [List.forall_mem_cons] at hfg
    rw [List.map_cons, List.map_cons, hfg.1 _ hr, ih hfg.2]

theorem arrange_build_list (xs : List (Json F)) :
    arrange (Value.list xs).build = .list (xs.map fun v => arrange v.build) := by
  rw [Value.build, Value.buildList_eq, arrange, arrangeList_eq, List.map_map]
  rfl

theorem arrange_build_dict {ms : List (String × Json F)} (h : Dict.Distinct ms) :
    arrange (Value.dict ms).build =
      .dict ((ms.map fun p => (p.1, arrange p.2.build)).insertionSort keyLe) := by
  have hd : Dict.Distinct (Value.buildMembers ms) := by
    rw [Dict.Distinct, Value.keys_buildMembers]
    exact h
  rw [Value.build, Dict.ofPairs_of_distinct hd, arrange, arrangeMembers_eq, Value.buildMembers_eq,
    List.map_map]
  rfl

section
variable [FloatText F]

theorem keyText_toList {k : Key F} (h : ∀ s, k ≠ .str s) :
    (keyText k).toList = dumps .default (keyJson k) := by
  cases k with
  | str s => exact (h s rfl).elim
  | int n => rfl
  | float x => exact String.toList_ofList
  | bool b =>
    cases b with
    | false => rfl
    | true => rfl
  | none => rfl

/-- Keys that compare have different texts. -/
theorem keyText_inj {a b : Key F} (h : (keyLt a b).isSome = true) (ht : keyText a = keyText b) :
    a = b := by
  by_cases ha : ∃ s, a = .str s
  · obtain ⟨s, rfl⟩ := ha
    cases b with
    | str s' => exact congrArg Key.str ht
    | int n => cases h
    | float x => cases h
    | bool b => cases h
    | none => cases h
  · by_cases hb : ∃ s, b = .str s
    · obtain ⟨s, rfl⟩ := hb
      cases a with
      | str s' => exact (ha ⟨s', rfl⟩).elim
      | int n => cases h
      | float x => cases h
      | bool b => cases h
      | none => cases h
    · have ht := congrArg String.toList ht
      rw [keyText_toList fun s he => ha ⟨s, he⟩, keyText_toList fun s he => hb ⟨s, he⟩] at ht
      have hj := dumps_injective .default ht
      cases a with
      | str s => exact (ha ⟨s, rfl⟩).elim
      | int n =>
        cases b with
        | int m =>
          cases hj
          rfl
        | _ => cases hj
      | float x =>
        cases b with
        | float y =>
          cases hj
          rfl
        | _ => cases hj
      | bool c =>
        cases b with
        | bool d =>
          cases hj
          rfl
        | _ => cases hj
      | none =>
        cases b with
        | none => rfl
        | _ => cases hj

/-- The texts of the keys of a dictionary that can be sorted are as distinct as the keys. -/
theorem sortKeys_texts {ms : List (Key F × Obj F)} {w : Obj F} (h : sortKeys (.dict ms) = some w)
    (hd : Dict.Distinct ms) : (ms.map fun p => keyText p.1).Nodup := by
  rw [sortKeys] at h
  obtain ⟨ns, hns, h⟩ := Option.bind_eq_some_iff.1 h
  obtain ⟨os, hos, -⟩ := Option.map_eq_some_iff.1 h
  have hkeys : ns.map Prod.fst = ms.map Prod.fst :=
    map_eq_of_forall₂ (sortKeysMembers_forall₂ hns) fun p _ q hq => hq.1
  rw [sortMembers] at hos
  split at hos
  · rename_i hc
    have hc : (ns.map Prod.fst).Pairwise fun a b =>
        (DictKey.lt a b).isSome ∧ (DictKey.lt b a).isSome := List.pairwise_map.2 hc
    rw [hkeys] at hc
    have hne := hc.and (List.nodup_iff_pairwise_ne.1 hd)
    have ht : ((ms.map Prod.fst).map keyText).Nodup := by
      rw [List.nodup_iff_pairwise_ne, List.pairwise_map]
      exact hne.imp fun hab ht => hab.2 (keyText_inj hab.1.1 ht)
    rw [List.map_map] at ht
    exact ht
  · cases hos

/-- What is read of the sorted text of a value is what is read of its text, but for the order of
the keys. -/
theorem arrange_tree_build {v : Obj F} {u : Json F} (h : tree v = some u) (hd : v.Distinct) :
    arrange u.build = arrange (roundTrip v) := by
  induction v using Value.induct_value generalizing u with
  | hnull | hbool | hint | hfloat | hstr =>
    cases h
    rfl
  | hlist xs ih =>
    obtain ⟨w, hw, rfl⟩ := Option.map_eq_some_iff.1 h
    obtain ⟨ys, rfl, hys⟩ := sortKeys_list hw
    rw [roundTrip, keyTexts, keyTexts, Value.mapKeys, Value.mapKeys, Value.mapKeysList_eq,
      Value.mapKeysList_eq, arrange_build_list, arrange_build_list, List.map_map, List.map_map]
    refine congrArg Value.list (map_eq_of_forall₂ hys fun x hx y hy => ?_)
    exact ih x hx (by rw [tree, hy, Option.map_some]; rfl) (distinctList_iff.1 hd x hx)
  | hdict ms ih =>
    obtain ⟨w, hw, rfl⟩ := Option.map_eq_some_iff.1 h
    have htexts := sortKeys_texts hw hd.1
    obtain ⟨ns, os, rfl, hp, hns⟩ := sortKeys_dict hw
    have hmap : (ns.map fun q => (keyText q.1, arrange (keyTexts q.2).build)) =
        ms.map fun p => (keyText p.1, arrange (roundTrip p.2)) := by
      refine map_eq_of_forall₂ hns fun p hpm q hq => ?_
      rw [hq.1, ih p hpm (by rw [tree, hq.2, Option.map_some])
        (Value.distinctMembers_iff.1 hd.2 p hpm)]
    have hperm : (os.map fun q => (keyText q.1, arrange (keyTexts q.2).build)).Perm
        (ms.map fun p => (keyText p.1, arrange (roundTrip p.2))) := hmap ▸ hp.map _
    have hmd : Dict.Distinct (ms.map fun p => (keyText p.1, arrange (roundTrip p.2))) := by
      rw [Dict.Distinct, Dict.keys, List.map_map]
      exact htexts
    have hod : Dict.Distinct (os.map fun q => (keyText q.1, arrange (keyTexts q.2).build)) :=
      (hperm.map Prod.fst).nodup_iff.2 hmd
    have hos : Dict.Distinct (os.map fun q => (keyText q.1, keyTexts q.2)) := by
      rw [Dict.Distinct, Dict.keys, List.map_map] at hod ⊢
      exact hod
    have hms : Dict.Distinct (ms.map fun p => (keyText p.1, keyTexts p.2)) := by
      rw [Dict.Distinct, Dict.keys, List.map_map]
      exact htexts
    rw [roundTrip, keyTexts, keyTexts, Value.mapKeys, Value.mapKeys, Value.mapKeysMembers_eq,
      Value.mapKeysMembers_eq]
    change arrange (Value.dict (os.map fun q => (keyText q.1, keyTexts q.2))).build =
      arrange (Value.dict (ms.map fun p => (keyText p.1, keyTexts p.2))).build
    rw [arrange_build_dict hos, arrange_build_dict hms, List.map_map, List.map_map]
    exact congrArg Value.dict (insertionSort_perm hperm hod)

end
end Obase.Json
