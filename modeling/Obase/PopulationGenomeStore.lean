import Obase.Least
import Obase.Run
import Obase.Runtime

namespace Obase.PopulationGenomeStore
set_option autoImplicit true
open Run

structure GenomeRecord (F : Type) where
  genomeId : String
  dagJson : String
  parentIds : List String
  birthGeneration : Int
  totalExecutions : Int
  rewardHistory : List (PyFloat F × PyFloat F)
  lastScore : PyFloat F
  isActive : Bool
  metadata : Dict String (Json F)

def GenomeRecord.recordReward (g : GenomeRecord F) (now score : PyFloat F) : GenomeRecord F :=
  { g with
    rewardHistory := g.rewardHistory ++ [(now, score)]
    totalExecutions := g.totalExecutions + 1
    lastScore := score }

/-- A genome has a lower score than another. -/
def GenomeRecord.lower [Json.FloatText F] (g h : GenomeRecord F) : Bool :=
  g.lastScore.lt h.lastScore

/-- The genomes of a store, each under its id. -/
abbrev Genomes (F : Type) := Dict String (GenomeRecord F)

def Genomes.values (d : Genomes F) : List (GenomeRecord F) := d.map Prod.snd

def Genomes.active (d : Genomes F) : List (GenomeRecord F) := d.values.filter (·.isActive)

def Genomes.inactive (d : Genomes F) : List (GenomeRecord F) := d.values.filter (!·.isActive)

/-- The second loop of `_enforce_population_limit`, for as many rounds as there are genomes. -/
def evictActive [Json.FloatText F] (maxPopulation : Nat) : Nat → Genomes F → Genomes F
  | 0, d => d
  | n + 1, d =>
    if d.length ≤ maxPopulation then d
    else
      match d.active with
      | [] => d
      | g :: gs => evictActive maxPopulation n (Dict.erase (least GenomeRecord.lower g gs).genomeId d)

def enforcePopulationLimit [Json.FloatText F] (maxPopulation : Nat) (d : Genomes F) : Genomes F :=
  if d.length ≤ maxPopulation then d
  else
    let d := (d.inactive.take (d.length - maxPopulation)).foldl
      (fun d g => Dict.erase g.genomeId d) d
    evictActive maxPopulation d.length d

structure Store (F : Type) where
  maxPopulation : Nat
  genomes : Genomes F
  generation : Int

def Store.new (maxPopulation : Nat) : Store F := ⟨maxPopulation, [], 0⟩

structure PopulationSnapshot (F : Type) where
  generation : Int
  timestamp : PyFloat F
  activeCount : Nat
  totalCount : Nat
  genomes : List (GenomeRecord F)
  topPerformer : Option (GenomeRecord F)

namespace Store

section
variable [Runtime F]

/-- The record of a genome that is added. -/
def born (s : Store F) (genomeId dagJson : String) (parentIds : List String)
    (metadata : Dict String (Json F)) : GenomeRecord F :=
  ⟨genomeId, dagJson, parentIds, s.generation, 0, [], .finite Runtime.zero, true, metadata⟩

/-- `add_genome`, with the id that it generates and the text of the graph. -/
def addGenome (s : Store F) (genomeId dagJson : String) (parentIds : List String)
    (metadata : Dict String (Json F)) : GenomeRecord F × Store F :=
  let record := s.born genomeId dagJson parentIds metadata
  (record, { s with
    genomes := enforcePopulationLimit s.maxPopulation (Dict.set genomeId record s.genomes) })

end

def recordReward (s : Store F) (genomeId : String) (now score : PyFloat F) : Bool × Store F :=
  match s.genomes.lookup genomeId with
  | none => (false, s)
  | some g => (true, { s with genomes := Dict.set genomeId (g.recordReward now score) s.genomes })

def deactivate (s : Store F) (genomeId : String) : Bool × Store F :=
  match s.genomes.lookup genomeId with
  | none => (false, s)
  | some g => (true, { s with genomes := Dict.set genomeId { g with isActive := false } s.genomes })

def remove (s : Store F) (genomeId : String) : Bool × Store F :=
  if genomeId ∈ Dict.keys s.genomes then
    (true, { s with genomes := Dict.erase genomeId s.genomes })
  else (false, s)

def listActive (s : Store F) : List (GenomeRecord F) := s.genomes.active

def listAll (s : Store F) : List (GenomeRecord F) := s.genomes.values

def advanceGeneration (s : Store F) : Int × Store F :=
  (s.generation + 1, { s with generation := s.generation + 1 })

def snapshot (s : Store F) (now : PyFloat F) : PopulationSnapshot F :=
  ⟨s.generation, now, s.listActive.length, s.listAll.length, s.listAll, s.listActive.head?⟩

end Store

inductive Call (F : Type) where
  | addGenome (genomeId dagJson : String) (parentIds : List String)
      (metadata : Dict String (Json F))
  | recordReward (genomeId : String) (now score : PyFloat F)
  | deactivate (genomeId : String)
  | remove (genomeId : String)
  | advanceGeneration
  | snapshot (now : PyFloat F)

/-- The store after a call. -/
def Call.run [Runtime F] (s : Store F) : Call F → Store F
  | .addGenome genomeId dagJson parentIds metadata =>
    (s.addGenome genomeId dagJson parentIds metadata).2
  | .recordReward genomeId now score => (s.recordReward genomeId now score).2
  | .deactivate genomeId => (s.deactivate genomeId).2
  | .remove genomeId => (s.remove genomeId).2
  | .advanceGeneration => s.advanceGeneration.2
  | .snapshot _ => s

section
variable [Runtime F]

/-- What is left of the genomes when a store evicts some: no inactive one where an active one went,
and in the same group none with a lower score. -/
def InOrder (offered left : Genomes F) : Prop :=
  ∀ g ∈ offered.values, g.genomeId ∉ Dict.keys left → ∀ h ∈ left.values,
    (g.isActive = true → h.isActive = true) ∧ (g.isActive = h.isActive → h.lower g = false)

/-- The limit is kept, a genome that is added stays, genomes are evicted in order and by additions
only, and the top performer is an active genome that none surpasses. -/
structure Lawful (s : Store F) (call : Call F) (t : Store F) : Prop where
  bounded : t.genomes.length ≤ t.maxPopulation
  evicts : ∀ genomeId ∈ Dict.keys s.genomes, genomeId ∉ Dict.keys t.genomes →
    call = .remove genomeId ∨
      ∃ newId dagJson parentIds metadata, call = .addGenome newId dagJson parentIds metadata
  kept : ∀ genomeId dagJson parentIds metadata,
    call = .addGenome genomeId dagJson parentIds metadata →
      t.genomes.lookup genomeId = some (s.addGenome genomeId dagJson parentIds metadata).1
  inOrder : ∀ genomeId dagJson parentIds metadata,
    call = .addGenome genomeId dagJson parentIds metadata →
      InOrder (Dict.set genomeId (s.born genomeId dagJson parentIds metadata) s.genomes) t.genomes
  top : ∀ now, call = .snapshot now → s.listActive ≠ [] →
    ∃ g, (s.snapshot now).topPerformer = some g ∧ g ∈ s.listActive ∧
      ∀ h ∈ s.listActive, g.lower h = false

/-- None of the later genomes has a lower score than the first. -/
def FirstIsLowest : List (GenomeRecord F) → Prop
  | [] => True
  | g :: gs => ∀ h ∈ gs, h.lower g = false

/-- None of the later genomes has a higher score than the first. -/
def FirstIsHighest : List (GenomeRecord F) → Prop
  | [] => True
  | g :: gs => ∀ h ∈ gs, g.lower h = false

/-- The lowest score, as `min` finds it, is not above that of a new genome. -/
def LowestNotPositive : List (GenomeRecord F) → Prop
  | [] => True
  | g :: gs => PyFloat.lt (.finite Runtime.zero) (least GenomeRecord.lower g gs).lastScore = false

/-- An addition finds room or an eviction that the oldest deserves, and a snapshot finds the oldest
active genome in the lead. -/
def Fair (s : Store F) : Call F → Prop
  | .addGenome genomeId _ _ _ =>
    genomeId ∈ Dict.keys s.genomes ∨ s.genomes.length < s.maxPopulation ∨
      (s.genomes.inactive ≠ [] ∧ FirstIsLowest s.genomes.inactive) ∨
      (s.genomes.inactive = [] ∧ LowestNotPositive s.genomes.active)
  | .snapshot _ => FirstIsHighest s.listActive
  | _ => True

/-- A call leads from one store to the next. -/
def Step (s : Store F) (call : Call F) (t : Store F) : Prop := t = call.run s

/-- The calls, each with the store that it leads to. -/
def states (s : Store F) : List (Call F) → List (Call F × Store F)
  | [] => []
  | call :: calls => (call, call.run s) :: states (call.run s) calls

end

/-- Every genome is there once, under its id. -/
structure Genomes.Keyed (d : Genomes F) : Prop where
  distinct : Dict.Distinct d
  ids : ∀ p ∈ d, p.2.genomeId = p.1

/-- A store of a limit that admits a genome, within it. -/
structure Store.Sound (s : Store F) : Prop where
  keyed : s.genomes.Keyed
  bounded : s.genomes.length ≤ s.maxPopulation
  limit : 1 ≤ s.maxPopulation

namespace Genomes
variable {d : Genomes F} {g h : GenomeRecord F}

theorem mem_values : g ∈ d.values ↔ ∃ k, (k, g) ∈ d := by
  rw [values, List.mem_map]
  constructor
  · rintro ⟨⟨k, g⟩, hg, rfl⟩
    exact ⟨k, hg⟩
  · rintro ⟨k, hg⟩
    exact ⟨(k, g), hg, rfl⟩

theorem mem_active : g ∈ d.active ↔ g ∈ d.values ∧ g.isActive = true := List.mem_filter

theorem mem_inactive : g ∈ d.inactive ↔ g ∈ d.values ∧ g.isActive = false := by
  rw [inactive, List.mem_filter, Bool.not_eq_true']

theorem Keyed.mem (hd : d.Keyed) : g ∈ d.values ↔ (g.genomeId, g) ∈ d := by
  rw [mem_values]
  constructor
  · rintro ⟨k, hg⟩
    have hk := hd.ids _ hg
    change g.genomeId = k at hk
    rw [hk]
    exact hg
  · exact fun hg => ⟨_, hg⟩

theorem Keyed.mem_keys (hd : d.Keyed) (hg : g ∈ d.values) : g.genomeId ∈ Dict.keys d :=
  List.mem_map_of_mem (f := Prod.fst) (hd.mem.1 hg)

theorem Keyed.eq_of_id (hd : d.Keyed) (hg : g ∈ d.values) (hh : h ∈ d.values)
    (he : g.genomeId = h.genomeId) : g = h := by
  have hlg := (Dict.lookup_eq_some_iff hd.distinct).2 (hd.mem.1 hg)
  have hlh := (Dict.lookup_eq_some_iff hd.distinct).2 (hd.mem.1 hh)
  rw [he, hlh] at hlg
  exact (Option.some.inj hlg).symm

theorem Keyed.values_nodup (hd : d.Keyed) : (d.values.map (·.genomeId)).Nodup := by
  have hk : d.values.map (·.genomeId) = Dict.keys d := by
    rw [values, List.map_map, Dict.keys]
    exact List.map_congr_left hd.ids
  rw [hk]
  exact hd.distinct

theorem Keyed.erase (hd : d.Keyed) (k : String) : Keyed (Dict.erase k d) :=
  ⟨hd.distinct.erase k, fun p hp => hd.ids p (Dict.mem_erase.1 hp).1⟩

theorem Keyed.set (hd : d.Keyed) (g : GenomeRecord F) : Keyed (Dict.set g.genomeId g d) := by
  refine ⟨hd.distinct.set _ _, fun p hp => ?_⟩
  have hl := (Dict.lookup_eq_some_iff (hd.distinct.set _ _)).2 hp
  by_cases he : p.1 = g.genomeId
  · rw [he, Dict.lookup_set_self] at hl
    rw [he, ← Option.some.inj hl]
  · rw [Dict.lookup_set_ne he] at hl
    exact hd.ids p (Dict.lookup_mem hl)

theorem mem_values_erase (hd : d.Keyed) {k : String} :
    g ∈ Genomes.values (Dict.erase k d) ↔ g ∈ d.values ∧ g.genomeId ≠ k := by
  rw [(hd.erase k).mem, hd.mem, Dict.mem_erase]

theorem active_ne_nil (hd : d ≠ []) (hi : d.inactive = []) : d.active ≠ [] := by
  obtain ⟨p, hp⟩ := List.exists_mem_of_ne_nil d hd
  have hp : p.2 ∈ d.values := mem_values.2 ⟨p.1, hp⟩
  have hactive : p.2.isActive = true := by
    by_contra hn
    have hm := mem_inactive.2 ⟨hp, Bool.eq_false_iff.2 hn⟩
    rw [hi] at hm
    cases hm
  exact List.ne_nil_of_mem (mem_active.2 ⟨hp, hactive⟩)

end Genomes

namespace Store
variable {s : Store F}

theorem new_sound {n : Nat} (h : 1 ≤ n) : (Store.new n : Store F).Sound :=
  ⟨⟨List.nodup_nil, fun _ hp => (nomatch hp)⟩, Nat.zero_le _, h⟩

/-- A change of one record leaves a sound store of the same ids. -/
theorem Sound.replace (hs : s.Sound) {g : GenomeRecord F}
    (hg : g.genomeId ∈ Dict.keys s.genomes) :
    Sound { s with genomes := Dict.set g.genomeId g s.genomes } := by
  refine ⟨hs.keyed.set g, ?_, hs.limit⟩
  change (Dict.set g.genomeId g s.genomes).length ≤ _
  rw [Dict.length_set_of_mem hg]
  exact hs.bounded

theorem Sound.genomeId_of_lookup (hs : s.Sound) {genomeId : String} {g : GenomeRecord F}
    (h : s.genomes.lookup genomeId = some g) :
    g.genomeId = genomeId ∧ genomeId ∈ Dict.keys s.genomes :=
  ⟨hs.keyed.ids _ (Dict.lookup_mem h), Dict.mem_keys_iff.2 ⟨g, h⟩⟩

end Store

section
variable [Runtime F] {d : Genomes F} {g : GenomeRecord F} {gs : List (GenomeRecord F)}

theorem lower_irrefl (g : GenomeRecord F) : g.lower g = false := PyFloat.lt_irrefl _

/-- The genome with the lowest score is not above any other. -/
theorem not_lower_least (g : GenomeRecord F) (gs : List (GenomeRecord F)) :
    ∀ h ∈ g :: gs, h.lower (least GenomeRecord.lower g gs) = false :=
  not_lt_least lower_irrefl (fun _ _ _ => PyFloat.lt_trans) g gs

theorem evictActive_of_le {n : Nat} (h : d.length ≤ n) (k : Nat) : evictActive n k d = d := by
  cases k with
  | zero => rfl
  | succ k => rw [evictActive, if_pos h]

theorem enforcePopulationLimit_of_le {n : Nat} (h : d.length ≤ n) :
    enforcePopulationLimit n d = d := if_pos h

/-- One genome too many: the first inactive one goes. -/
theorem enforcePopulationLimit_inactive {n : Nat} (hd : d.Keyed) (hl : d.length = n + 1)
    (hi : d.inactive = g :: gs) : enforcePopulationLimit n d = Dict.erase g.genomeId d := by
  have hg : g ∈ d.inactive := hi ▸ .head gs
  have he := Dict.length_erase hd.distinct (hd.mem_keys (Genomes.mem_inactive.1 hg).1)
  rw [enforcePopulationLimit, if_neg (by omega), hi, hl, Nat.add_sub_cancel_left]
  change evictActive n _ (Dict.erase g.genomeId d) = _
  exact evictActive_of_le (by omega) _

/-- One genome too many and none inactive: the one with the lowest score goes. -/
theorem enforcePopulationLimit_active {n : Nat} (hd : d.Keyed) (hl : d.length = n + 1)
    (hi : d.inactive = []) (ha : d.active = g :: gs) :
    enforcePopulationLimit n d = Dict.erase (least GenomeRecord.lower g gs).genomeId d := by
  have hg : least GenomeRecord.lower g gs ∈ d.active := ha ▸ least_mem g gs
  have he := Dict.length_erase hd.distinct (hd.mem_keys (Genomes.mem_active.1 hg).1)
  rw [enforcePopulationLimit, if_neg (by omega), hi, List.take_nil]
  change evictActive n d.length d = _
  rw [hl, evictActive, if_neg (by omega), ha]
  exact evictActive_of_le (by omega) _

/-- One genome too many: one of them goes. -/
theorem enforcePopulationLimit_full {n : Nat} (hd : d.Keyed) (hl : d.length = n + 1) :
    ∃ g ∈ d.values, enforcePopulationLimit n d = Dict.erase g.genomeId d := by
  have hne : d ≠ [] := List.ne_nil_of_length_eq_add_one hl
  cases hi : d.inactive with
  | cons g gs =>
    have hg : g ∈ d.inactive := hi ▸ .head gs
    exact ⟨g, (Genomes.mem_inactive.1 hg).1, enforcePopulationLimit_inactive hd hl hi⟩
  | nil =>
    cases ha : d.active with
    | nil => exact (Genomes.active_ne_nil hne hi ha).elim
    | cons g gs =>
      have hg : least GenomeRecord.lower g gs ∈ d.active := ha ▸ least_mem g gs
      exact ⟨_, (Genomes.mem_active.1 hg).1, enforcePopulationLimit_active hd hl hi ha⟩

/-- When one genome goes, the order is kept as far as the others are concerned. -/
theorem inOrder_erase (hd : d.Keyed) (hg : g ∈ d.values) :
    InOrder d (Dict.erase g.genomeId d) ↔ ∀ h ∈ d.values, h.genomeId ≠ g.genomeId →
      (g.isActive = true → h.isActive = true) ∧ (g.isActive = h.isActive → h.lower g = false) := by
  constructor
  · intro ho h hh hne
    refine ho g hg (fun hk => (Dict.mem_keys_erase.1 hk).2 rfl) h ?_
    exact (Genomes.mem_values_erase hd).2 ⟨hh, hne⟩
  · intro ho e he hk h hh
    obtain ⟨hh, hne⟩ := (Genomes.mem_values_erase hd).1 hh
    have hid : e.genomeId = g.genomeId := by
      by_contra hn
      exact hk (Dict.mem_keys_erase.2 ⟨hd.mem_keys he, hn⟩)
    rw [hd.eq_of_id he hg hid]
    exact ho h hh hne

theorem inOrder_of_subset {left : Genomes F} (hd : d.Keyed)
    (h : Dict.keys d ⊆ Dict.keys left) : InOrder d left :=
  fun _ hg hn => (hn (h (hd.mem_keys hg))).elim

/-- What an addition to a full store evicts when some genomes are inactive. -/
theorem inOrder_inactive {n : Nat} (hd : d.Keyed) (hl : d.length = n + 1)
    (hi : d.inactive = g :: gs) :
    InOrder d (enforcePopulationLimit n d) ↔ FirstIsLowest (g :: gs) := by
  have hg := Genomes.mem_inactive.1 (hi ▸ .head gs : g ∈ d.inactive)
  have hnodup : ((g :: gs).map (·.genomeId)).Nodup := by
    rw [← hi]
    exact hd.values_nodup.sublist (List.filter_sublist.map _)
  rw [enforcePopulationLimit_inactive hd hl hi, inOrder_erase hd hg.1]
  constructor
  · intro ho h hh
    have hm := Genomes.mem_inactive.1 (hi ▸ .tail g hh : h ∈ d.inactive)
    have hne : h.genomeId ≠ g.genomeId := fun he =>
      (List.nodup_cons.1 hnodup).1 (List.mem_map.2 ⟨h, hh, he⟩)
    exact (ho h hm.1 hne).2 (hg.2.trans hm.2.symm)
  · intro ho h hh hne
    refine ⟨fun ha => absurd (ha.symm.trans hg.2) (by decide), fun he => ?_⟩
    have hm : h ∈ g :: gs := hi ▸ Genomes.mem_inactive.2 ⟨hh, he.symm.trans hg.2⟩
    obtain rfl | hm := List.mem_cons.1 hm
    · exact (hne rfl).elim
    · exact ho h hm

/-- What an addition to a full store evicts when all genomes are active is in order. -/
theorem inOrder_active {n : Nat} (hd : d.Keyed) (hl : d.length = n + 1) (hi : d.inactive = [])
    (ha : d.active = g :: gs) : InOrder d (enforcePopulationLimit n d) := by
  have hg : least GenomeRecord.lower g gs ∈ d.active := ha ▸ least_mem g gs
  rw [enforcePopulationLimit_active hd hl hi ha, inOrder_erase hd (Genomes.mem_active.1 hg).1]
  intro h hh _
  have hactive : h.isActive = true := by
    by_contra hn
    have hm := Genomes.mem_inactive.2 ⟨hh, Bool.eq_false_iff.2 hn⟩
    rw [hi] at hm
    cases hm
  refine ⟨fun _ => hactive, fun _ => not_lower_least g gs h ?_⟩
  rw [← ha]
  exact Genomes.mem_active.2 ⟨hh, hactive⟩

namespace Store
variable {s : Store F}

theorem addGenome_present (hs : s.Sound) {genomeId : String} (dagJson : String)
    (parentIds : List String) (metadata : Dict String (Json F))
    (h : genomeId ∈ Dict.keys s.genomes ∨ s.genomes.length < s.maxPopulation) :
    (s.addGenome genomeId dagJson parentIds metadata).2.genomes =
      Dict.set genomeId (s.born genomeId dagJson parentIds metadata) s.genomes := by
  apply enforcePopulationLimit_of_le
  have hb := hs.bounded
  by_cases hm : genomeId ∈ Dict.keys s.genomes
  · rw [Dict.length_set_of_mem hm]
    exact hb
  · rw [Dict.length_set_of_not_mem hm]
    exact h.resolve_left hm

/-- An addition keeps the new genome and the order exactly where it is fair. -/
theorem addGenome_iff (hs : s.Sound) (genomeId dagJson : String) (parentIds : List String)
    (metadata : Dict String (Json F)) :
    ((s.addGenome genomeId dagJson parentIds metadata).2.genomes.lookup genomeId =
        some (s.addGenome genomeId dagJson parentIds metadata).1 ∧
      InOrder (Dict.set genomeId (s.born genomeId dagJson parentIds metadata) s.genomes)
        (s.addGenome genomeId dagJson parentIds metadata).2.genomes) ↔
      Fair s (.addGenome genomeId dagJson parentIds metadata) := by
  set record := s.born genomeId dagJson parentIds metadata with hrecord
  have hset : Genomes.Keyed (Dict.set genomeId record s.genomes) := hs.keyed.set record
  by_cases hroom : genomeId ∈ Dict.keys s.genomes ∨ s.genomes.length < s.maxPopulation
  · rw [addGenome_present hs dagJson parentIds metadata hroom]
    constructor
    · exact fun _ => hroom.imp_right .inl
    · exact fun _ => ⟨Dict.lookup_set_self _ _ _, inOrder_of_subset hset (List.Subset.refl _)⟩
  · obtain ⟨hnew, hfull⟩ := not_or.1 hroom
    have hmax := Nat.le_antisymm hs.bounded (Nat.not_lt.1 hfull)
    have happ : Dict.set genomeId record s.genomes = s.genomes ++ [(genomeId, record)] :=
      Dict.set_of_not_mem hnew record
    have hlen : (Dict.set genomeId record s.genomes).length = s.maxPopulation + 1 := by
      rw [Dict.length_set_of_not_mem hnew, hmax]
    have hinactive : Genomes.inactive (Dict.set genomeId record s.genomes) = s.genomes.inactive := by
      rw [happ, Genomes.inactive, Genomes.values, List.map_append, List.filter_append]
      exact List.append_nil _
    have hactive : Genomes.active (Dict.set genomeId record s.genomes) =
        s.genomes.active ++ [record] := by
      rw [happ, Genomes.active, Genomes.values, List.map_append, List.filter_append]
      rfl
    have hleft : (s.addGenome genomeId dagJson parentIds metadata).2.genomes =
      enforcePopulationLimit s.maxPopulation (Dict.set genomeId record s.genomes) := rfl
    have hstays {k : String} (hk : k ≠ genomeId) :
        (Dict.erase k (Dict.set genomeId record s.genomes)).lookup genomeId = some record := by
      rw [Dict.lookup_erase_ne hk.symm, Dict.lookup_set_self]
    rw [hleft]
    cases hi : s.genomes.inactive with
    | cons g gs =>
      rw [hi] at hinactive
      rw [inOrder_inactive hset hlen hinactive, enforcePopulationLimit_inactive hset hlen hinactive]
      have hg := Genomes.mem_inactive.1 (hi ▸ .head gs : g ∈ s.genomes.inactive)
      have hne : g.genomeId ≠ genomeId := fun he => hnew (he ▸ hs.keyed.mem_keys hg.1)
      constructor
      · rintro ⟨-, ho⟩
        refine .inr (.inr (.inl ?_))
        rw [hi]
        exact ⟨List.cons_ne_nil _ _, ho⟩
      · rintro (h | h | ⟨-, h⟩ | ⟨h, -⟩)
        · exact (hnew h).elim
        · exact (hfull h).elim
        · rw [hi] at h
          exact ⟨hstays hne, h⟩
        · rw [hi] at h
          cases h
    | nil =>
      rw [hi] at hinactive
      have hne : s.genomes ≠ [] := List.ne_nil_of_length_pos (hmax ▸ hs.limit)
      cases ha : s.genomes.active with
      | nil => exact (Genomes.active_ne_nil hne hi ha).elim
      | cons g gs =>
        rw [ha, List.cons_append] at hactive
        have ho := inOrder_active hset hlen hinactive hactive
        rw [iff_true_intro ho, and_true, enforcePopulationLimit_active hset hlen hinactive hactive,
          least_concat]
        have hlower : record.lower (least GenomeRecord.lower g gs) =
          PyFloat.lt (.finite Runtime.zero) (least GenomeRecord.lower g gs).lastScore := rfl
        have hw := Genomes.mem_active.1 (ha ▸ least_mem g gs :
          least GenomeRecord.lower g gs ∈ s.genomes.active)
        have hwid : (least GenomeRecord.lower g gs).genomeId ≠ genomeId := fun he =>
          hnew (he ▸ hs.keyed.mem_keys hw.1)
        have hfair : Fair s (.addGenome genomeId dagJson parentIds metadata) ↔
            record.lower (least GenomeRecord.lower g gs) = false := by
          rw [hlower, Fair, hi, ha]
          constructor
          · rintro (h | h | ⟨h, -⟩ | ⟨-, h⟩)
            · exact (hnew h).elim
            · exact (hfull h).elim
            · exact (h rfl).elim
            · exact h
          · exact fun h => .inr (.inr (.inr ⟨rfl, h⟩))
        rw [hfair]
        cases record.lower (least GenomeRecord.lower g gs) with
        | true =>
          refine ⟨fun h => ?_, fun h => (nomatch h)⟩
          rw [if_pos rfl] at h
          change (Dict.erase genomeId _).lookup genomeId = _ at h
          rw [Dict.lookup_erase_self] at h
          cases h
        | false =>
          refine ⟨fun _ => rfl, fun _ => ?_⟩
          exact hstays hwid

theorem addGenome_sound (hs : s.Sound) (genomeId dagJson : String) (parentIds : List String)
    (metadata : Dict String (Json F)) :
    (s.addGenome genomeId dagJson parentIds metadata).2.Sound := by
  have hset : Genomes.Keyed (Dict.set genomeId (s.born genomeId dagJson parentIds metadata)
    s.genomes) := hs.keyed.set (s.born genomeId dagJson parentIds metadata)
  by_cases hroom : genomeId ∈ Dict.keys s.genomes ∨ s.genomes.length < s.maxPopulation
  · have he := addGenome_present hs dagJson parentIds metadata hroom
    refine ⟨he ▸ hset, ?_, hs.limit⟩
    have hb := hs.bounded
    rw [he]
    by_cases hm : genomeId ∈ Dict.keys s.genomes
    · rw [Dict.length_set_of_mem hm]
      exact hb
    · rw [Dict.length_set_of_not_mem hm]
      exact hroom.resolve_left hm
  · obtain ⟨hnew, hfull⟩ := not_or.1 hroom
    have hmax := Nat.le_antisymm hs.bounded (Nat.not_lt.1 hfull)
    have hlen : (Dict.set genomeId (s.born genomeId dagJson parentIds metadata) s.genomes).length =
        s.maxPopulation + 1 := by
      rw [Dict.length_set_of_not_mem hnew, hmax]
    obtain ⟨g, hg, he⟩ := enforcePopulationLimit_full hset hlen
    have hl := Dict.length_erase hset.distinct (hset.mem_keys hg)
    refine ⟨?_, ?_, hs.limit⟩
    · change (enforcePopulationLimit _ _).Keyed
      rw [he]
      exact hset.erase _
    · change (enforcePopulationLimit _ _).length ≤ s.maxPopulation
      rw [he]
      omega

/-- A call leaves a sound store. -/
theorem run_sound (hs : s.Sound) (call : Call F) : (call.run s).Sound := by
  cases call with
  | addGenome genomeId dagJson parentIds metadata =>
    exact addGenome_sound hs genomeId dagJson parentIds metadata
  | recordReward genomeId now score =>
    rw [Call.run, recordReward]
    split
    · exact hs
    · rename_i g hl
      obtain ⟨rfl, hm⟩ := hs.genomeId_of_lookup hl
      exact hs.replace (g := g.recordReward now score) hm
  | deactivate genomeId =>
    rw [Call.run, deactivate]
    split
    · exact hs
    · rename_i g hl
      obtain ⟨rfl, hm⟩ := hs.genomeId_of_lookup hl
      exact hs.replace (g := { g with isActive := false }) hm
  | remove genomeId =>
    rw [Call.run, remove]
    split
    · exact ⟨hs.keyed.erase _, (List.length_filter_le ..).trans hs.bounded, hs.limit⟩
    · exact hs
  | advanceGeneration => exact ⟨hs.keyed, hs.bounded, hs.limit⟩
  | snapshot now => exact hs

/-- Only additions and removals take ids away. -/
theorem run_evicts (call : Call F) {genomeId : String} (h : genomeId ∈ Dict.keys s.genomes)
    (hn : genomeId ∉ Dict.keys (call.run s).genomes) : call = .remove genomeId ∨
      ∃ newId dagJson parentIds metadata, call = .addGenome newId dagJson parentIds metadata := by
  cases call with
  | addGenome newId dagJson parentIds metadata => exact .inr ⟨_, _, _, _, rfl⟩
  | recordReward id now score =>
    rw [Call.run, recordReward] at hn
    split at hn
    · exact (hn h).elim
    · exact (hn (Dict.mem_keys_set.2 (.inr h))).elim
  | deactivate id =>
    rw [Call.run, deactivate] at hn
    split at hn
    · exact (hn h).elim
    · exact (hn (Dict.mem_keys_set.2 (.inr h))).elim
  | remove id =>
    rw [Call.run, remove] at hn
    split at hn
    · have he : genomeId = id := by
        by_contra hne
        exact hn (Dict.mem_keys_erase.2 ⟨h, hne⟩)
      exact .inl (he ▸ rfl)
    · exact (hn h).elim
  | advanceGeneration => exact (hn h).elim
  | snapshot now => exact (hn h).elim

/-- The top performer leads exactly when the oldest active genome does. -/
theorem snapshot_iff (s : Store F) (now : PyFloat F) :
    (s.listActive ≠ [] → ∃ g, (s.snapshot now).topPerformer = some g ∧ g ∈ s.listActive ∧
      ∀ h ∈ s.listActive, g.lower h = false) ↔ FirstIsHighest s.listActive := by
  change (_ → ∃ g, s.listActive.head? = some g ∧ _) ↔ _
  cases s.listActive with
  | nil => exact ⟨fun _ => trivial, fun _ h => (h rfl).elim⟩
  | cons g gs =>
    constructor
    · intro h h' hh
      obtain ⟨_, he, -, htop⟩ := h (List.cons_ne_nil _ _)
      cases he
      exact htop h' (.tail _ hh)
    · exact fun h _ => ⟨g, rfl, .head _, List.forall_mem_cons.2 ⟨lower_irrefl g, h⟩⟩

/-- A call of a sound store is lawful exactly where it is fair. -/
theorem lawful_step (hs : s.Sound) (call : Call F) : Lawful s call (call.run s) ↔ Fair s call := by
  constructor
  · intro h
    cases call with
    | addGenome genomeId dagJson parentIds metadata =>
      exact (addGenome_iff hs ..).1 ⟨h.kept _ _ _ _ rfl, h.inOrder _ _ _ _ rfl⟩
    | snapshot now => exact (snapshot_iff s now).1 (h.top now rfl)
    | _ => trivial
  · intro h
    refine ⟨(run_sound hs call).bounded, fun id hid hn => run_evicts call hid hn, ?_, ?_, ?_⟩
    · rintro genomeId dagJson parentIds metadata rfl
      exact ((addGenome_iff hs ..).2 h).1
    · rintro genomeId dagJson parentIds metadata rfl
      exact ((addGenome_iff hs ..).2 h).2
    · rintro now rfl
      exact (snapshot_iff s now).2 h

end Store

theorem states_trace (s : Store F) (calls : List (Call F)) : Trace Step s (states s calls) := by
  induction calls generalizing s with
  | nil => trivial
  | cons call calls ih => exact ⟨rfl, ih _⟩

/-- In every run of a new store, all calls are lawful exactly when all are fair. -/
theorem lawful_iff_fair {maxPopulation : Nat} (h : 1 ≤ maxPopulation) (calls : List (Call F)) :
    Along Lawful (.new maxPopulation) (states (.new maxPopulation) calls) ↔
      Always Fair (.new maxPopulation) (states (.new maxPopulation) calls) := by
  refine (states_trace _ calls).along_iff (I := Store.Sound) (Store.new_sound h) ?_
  rintro s call t hs rfl
  exact ⟨Store.run_sound hs call, Store.lawful_step hs call⟩

end

/-- An addition of a genome without parents or metadata. -/
def added (genomeId : String) : Call WholeFloat := .addGenome genomeId "{}" [] []

/-- Below the limit nothing is evicted, and a single genome leads. -/
theorem lawful_below_limit : Along Lawful (.new 2) (states (.new 2)
    [added "a", .recordReward "a" (.finite ⟨5⟩) (.finite ⟨1⟩), .snapshot (.finite ⟨6⟩)]) :=
  (lawful_iff_fair (by decide) _).2
    ⟨.inr (.inl (by decide)), trivial, fun _ h => (nomatch h), trivial⟩

/-- A genome that is added to a full store of good ones is gone when it is returned. -/
theorem newcomer_evicted : ¬ Along Lawful (.new 1) (states (.new 1)
    [added "a", .recordReward "a" (.finite ⟨5⟩) (.finite ⟨1⟩), added "b"]) := by
  rintro ⟨-, -, h, -⟩
  have hk := h.kept "b" "{}" [] [] rfl
  cases hk

end Obase.PopulationGenomeStore
