import Obase.Json.RoundTrip
import Obase.KeyedStore
import Obase.Path

namespace Obase
set_option autoImplicit true
open Json

/-- `gzip`. -/
structure Gzip (β : Type) where
  compress : List Char → β
  decompress : β → Option (List Char)
  lossless : ∀ cs, decompress (compress cs) = some cs

/-- A row of `checkpoints`. -/
structure Checkpoint (β : Type) where
  key : String
  payload : β

/-- `CheckpointStore`, with the table that its database holds. -/
structure CheckpointStore (β : Type) where
  rows : Table (Checkpoint.key (β := β))

namespace CheckpointStore

def new : CheckpointStore β := ⟨Table.empty _⟩

def safe (key : String) : String := safeName ['/', ':'] key

/-- `reset`, of one or all checkpoints. -/
def reset (s : CheckpointStore β) : Option String → CheckpointStore β
  | none => new
  | some key => ⟨s.rows.select fun r => r.key ≠ safe key⟩

section
variable [FloatText F] (gzip : Gzip β)

/-- The insertion of a key that was not selected succeeds. -/
def save (s : CheckpointStore β) (key : String) (state : Json F) : CheckpointStore β :=
  let compressed := gzip.compress (dumps .default state)
  match s.rows.get (safe key) with
  | some _ => ⟨s.rows.update (fun r => r.key = safe key)
      (fun r => { r with payload := compressed }) fun _ => rfl⟩
  | none => ⟨(s.rows.insert ⟨safe key, compressed⟩).getD s.rows⟩

def load (s : CheckpointStore β) (key : String) : Option (Json F) :=
  match s.rows.get (safe key) with
  | none => none
  | some row => (gzip.decompress row.payload).bind loads

inductive Op (F : Type) where
  | save (key : String) (state : Json F)
  | load (key : String)
  | reset (key : Option String)

/-- The store of the checkpoints by their keys. -/
def keyed : KeyedStore (CheckpointStore β) (Op F) String (Option (Json F)) where
  start := new
  step s
    | .save key state => s.save gzip key state
    | .load _ => s
    | .reset key => s.reset key
  load := load gzip
  empty := none
  key
    | .save key _ => some key
    | .load key => some key
    | .reset key => key
  saved a before
    | .save key _ => before || key == a
    | .load _ => before
    | .reset none => false
    | .reset (some key) => before && key != a

variable {gzip}

theorem get_save (s : CheckpointStore β) (key : String) (state : Json F) (k : String) :
    (s.save gzip key state).rows.get k =
      if k = safe key then some ⟨safe key, gzip.compress (dumps .default state)⟩
      else s.rows.get k := by
  rw [save]
  cases hr : s.rows.get (safe key) with
  | some row =>
    have hk : row.key = safe key := Table.key_of_get hr
    have hu := Table.get_update_key s.rows (safe key)
      (fun r => { r with payload := gzip.compress (dumps .default state) }) (fun _ => rfl) k
    refine hu.trans ?_
    by_cases h : k = safe key
    · rw [if_pos h, if_pos h, h, hr, ← hk]
      rfl
    · rw [if_neg h, if_neg h]
  | none =>
    cases hi : s.rows.insert ⟨safe key, gzip.compress (dumps .default state)⟩ with
    | none =>
      rw [Table.insert] at hi
      split at hi
      · rename_i hm
        exact (Table.get_eq_none_iff.1 hr hm).elim
      · cases hi
    | some t =>
      refine (Table.get_insert hi k).trans ?_
      by_cases h : k = safe key
      · rw [if_pos h, if_pos h.symm]
      · rw [if_neg h, if_neg fun he : safe key = k => h he.symm]

theorem get_reset (s : CheckpointStore β) (key k : String) :
    (s.reset (some key)).rows.get k = if k = safe key then none else s.rows.get k := by
  refine (Table.get_select ..).trans ?_
  cases hr : s.rows.get k with
  | none => rw [Option.filter_none, ite_self]
  | some row =>
    have hk : row.key = k := Table.key_of_get hr
    by_cases h : k = safe key
    · rw [if_pos h]
      simp [hk, h]
    · rw [if_neg h]
      simp [hk, h]

/-- Keys with different safe names do not affect each other. -/
theorem unaffected {a b : String} (h : safe a ≠ safe b) :
    (keyed (F := F) gzip).Unaffected a b := by
  refine ⟨fun ops hon => ?_, fun ops hon hs => ?_⟩
  · refine KeyedStore.load_without (R := fun s t => s.rows.get (safe a) = t.rows.get (safe a)) rfl
      (fun s t hst => ?_) (fun s t op hk hst => ?_) (fun s t op hk hst => ?_) hon
    · change load gzip s a = load gzip t a
      rw [load, load, hst]
    · cases op with
      | save key state =>
        obtain rfl := Option.some.inj hk
        exact ((get_save ..).trans (if_neg h)).trans hst
      | load key => exact hst
      | reset key =>
        obtain rfl : key = some b := hk
        exact ((get_reset ..).trans (if_neg h)).trans hst
    · cases op with
      | save key state =>
        refine (get_save ..).trans (.trans ?_ (get_save ..).symm)
        rw [hst]
      | load key => exact hst
      | reset key =>
        cases key with
        | none => rfl
        | some key =>
          refine (get_reset ..).trans (.trans ?_ (get_reset ..).symm)
          rw [hst]
  · have hinv : (keyed (F := F) gzip).isSaved a ops = false →
        ((keyed (F := F) gzip).run ops).rows.get (safe a) = none := by
      refine KeyedStore.invariant (S := keyed gzip)
        (P := fun s saved => saved = false → s.rows.get (safe a) = none) (fun _ => rfl) ?_ hon
      intro s saved op hk hs hsaved
      cases op with
      | save key state =>
        obtain ⟨hb, hne⟩ := Bool.or_eq_false_iff.1 hsaved
        have hkey : key = b := by
          obtain hk | hk | hk := hk
          · obtain rfl := Option.some.inj hk
            exact absurd (beq_self_eq_true key) (Bool.eq_false_iff.1 hne)
          · exact Option.some.inj hk
          · cases hk
        subst hkey
        exact ((get_save ..).trans (if_neg h)).trans (hs hb)
      | load key => exact hs hsaved
      | reset key =>
        cases key with
        | none => rfl
        | some key =>
          refine (get_reset ..).trans ?_
          split
          · rfl
          · rename_i hne
            apply hs
            have hka : key ≠ a := fun he => hne (congrArg safe he.symm)
            change (saved && key != a) = false at hsaved
            rw [bne_iff_ne.2 hka, Bool.and_true] at hsaved
            exact hsaved
    change load gzip _ a = none
    rw [load, hinv hs]

/-- Two keys do not affect each other exactly when their safe names differ. -/
theorem keyed_apart_iff {a b : String} (hab : a ≠ b) :
    (keyed (F := F) gzip).Apart a b ↔ safe a ≠ safe b := by
  constructor
  · rintro ⟨h, -⟩ hs
    refine KeyedStore.not_unaffected [.save b .null] (fun op hm => ?_) ?_ ?_ h
    · obtain rfl := List.mem_singleton.1 hm
      exact .inr (.inl rfl)
    · exact beq_false_of_ne hab.symm
    · change load gzip (save gzip new b .null) a ≠ none
      rw [load, get_save, if_pos hs]
      change (gzip.decompress (gzip.compress _)).bind loads ≠ none
      rw [gzip.lossless]
      change loads (dumps .default (.null : Json F)) ≠ none
      rw [loads_dumps]
      exact Option.some_ne_none _
  · exact fun h => ⟨unaffected h, unaffected h.symm⟩

end
end CheckpointStore
end Obase
