import Obase.Builtins
import Obase.Concrete
import Obase.Dict
import Obase.Fallible
import Obase.Json.Loads
import Obase.Json.RoundTrip

namespace Obase.MemoryBank
set_option autoImplicit true
open Json

/-- A value in a column of a SQLite table; a real has the text that it is converted to. -/
inductive Cell where
  | null
  | integer (n : Int)
  | real (text : String)
  | text (s : String)
  | blob (bytes : List UInt8)
deriving DecidableEq

/-- The value that a `TEXT` column stores. -/
def Cell.textAffinity : Cell → Cell
  | .integer n => .text (String.ofList (intText n))
  | .real s => .text s
  | c => c

/-- The order in which SQLite sorts the values of a `TEXT` column. -/
def Cell.le : Cell → Cell → Bool
  | .null, _ => true
  | _, .null => false
  | .text s, .text t => s ≤ t
  | .text _, _ => true
  | _, .text _ => false
  | .blob b, .blob c => b ≤ c
  | _, _ => true

/-- The columns of a memory. -/
structure Stored where
  memoryId : Cell
  contextDescription : Cell
  failedAttempt : Cell
  successfulStrategy : Cell
  contextVector : Cell
deriving DecidableEq

/-- A row of `experience_memories`. -/
structure BankRow extends Stored where
  createdAt : String
  updatedAt : String
deriving DecidableEq

/-- The old `memory_items`, its rows by the names of the columns. -/
structure LegacyTable where
  columns : List String
  rows : List (String → Cell)

/-- What the migration selects of the old table, as the new one stores it. -/
def LegacyTable.select (legacy : LegacyTable) : List Stored :=
  if "memory_id" ∈ legacy.columns ∧ "context_description" ∈ legacy.columns ∧
      "failed_attempt" ∈ legacy.columns ∧ "successful_strategy" ∈ legacy.columns then
    legacy.rows.map fun r =>
      ⟨(r "memory_id").textAffinity, (r "context_description").textAffinity,
        (r "failed_attempt").textAffinity, (r "successful_strategy").textAffinity,
        if "context_vector" ∈ legacy.columns then (r "context_vector").textAffinity
        else .text "[]"⟩
  else []

/-- The rows to migrate in a database file, which may have no old table. -/
def migrating (legacy : Option LegacyTable) : List Stored :=
  match legacy with
  | some legacy => legacy.select
  | none => []

/-- No column that is declared `NOT NULL` is null; a `TEXT PRIMARY KEY` may be. -/
def Stored.Complete (s : Stored) : Prop :=
  s.contextDescription ≠ .null ∧ s.failedAttempt ≠ .null ∧ s.successfulStrategy ≠ .null ∧
    s.contextVector ≠ .null

instance (s : Stored) : Decidable s.Complete := inferInstanceAs (Decidable (_ ∧ _))

/-- `INSERT OR IGNORE`; two null keys are no conflict. -/
def insertOrIgnore (row : BankRow) (table : List BankRow) : List BankRow :=
  if row.Complete then
    if row.memoryId ≠ .null ∧ row.memoryId ∈ table.map fun r => r.memoryId then table
    else table ++ [row]
  else table

/-- The loop of the migration from a row of some number on; each insertion reads the clock. -/
def insertAll (clock : Nat → String) (n : Nat) : List Stored → List BankRow → List BankRow
  | [], table => table
  | s :: rest, table =>
    insertAll clock (n + 1) rest (insertOrIgnore ⟨s, clock n, clock n⟩ table)

def migrate (legacy : Option LegacyTable) (clock : Nat → String) (table : List BankRow) :
    List BankRow :=
  insertAll clock 0 (migrating legacy) table

structure MemoryItem (F : Type) where
  memoryId : String
  contextDescription : String
  failedAttempt : Dict String String
  successfulStrategy : Dict String String
  contextVector : List F
  memoryId_text : Text.notBlank memoryId.toList = true
  description_text : Text.notBlank contextDescription.toList = true

section
variable {F : Type} [Builtins F]

def stringMapping : Json F → Except PyError (Dict String String)
  | .dict ms => ms.mapM fun p =>
    match p.2 with
    | .str s => .ok (p.1, s)
    | _ => .error .valueError
  | _ => .error .valueError

/-- The objects that a `for` loop over the value gives. -/
def iterate : Json F → Except PyError (List (Json F))
  | .list xs => .ok xs
  | .str s => .ok (s.toList.map fun c => .str (String.singleton c))
  | .dict ms => .ok (ms.map fun p => .str p.1)
  | _ => .error .valueError

/-- `float(value)` of a number that `math.isfinite` accepts. -/
def finiteFloat (v : Json F) : Except PyError F := do
  match ← toFloat v with
  | .finite x => pure x
  | _ => .error .valueError

/-- `MemoryItem(...)` of what a row decodes to. -/
def makeItem (memoryId contextDescription : Cell) (failedAttempt successfulStrategy : Json F)
    (contextVector : Json F) : Except PyError (MemoryItem F) :=
  match memoryId, contextDescription with
  | .text id, .text description =>
    if hid : Text.notBlank id.toList = true then
      if hdescription : Text.notBlank description.toList = true then do
        let failedAttempt ← stringMapping failedAttempt
        let successfulStrategy ← stringMapping successfulStrategy
        let values ← iterate contextVector
        let contextVector ← values.mapM finiteFloat
        pure ⟨id, description, failedAttempt, successfulStrategy, contextVector, hid, hdescription⟩
      else .error .valueError
    else .error .valueError
  | _, _ => .error .valueError

/-- `json.loads` of a column; `decodeBytes` is how it makes a text of bytes. -/
def jsonLoads (decodeBytes : List UInt8 → Option (List Char)) : Cell → Except PyError (Json F)
  | .text s =>
    match loads s.toList with
    | some v => .ok v
    | none => .error .valueError
  | .blob b =>
    match (decodeBytes b).bind loads with
    | some v => .ok v
    | none => .error .valueError
  | _ => .error .typeError

/-- `_from_row`. -/
def fromRow (decodeBytes : List UInt8 → Option (List Char)) (s : Stored) :
    Except PyError (MemoryItem F) := do
  let failedAttempt ← jsonLoads decodeBytes s.failedAttempt
  let successfulStrategy ← jsonLoads decodeBytes s.successfulStrategy
  let contextVector ← jsonLoads decodeBytes s.contextVector
  makeItem s.memoryId s.contextDescription failedAttempt successfulStrategy contextVector

/-- `_json` of a mapping of strings. -/
def jsonMapping (F : Type) [Builtins F] (m : Dict String String) : Cell :=
  let items := m.mergeSort fun p q => decide (p.1 ≤ q.1)
  .text (String.ofList
    (dumps .default (.dict (items.map fun p => (p.1, .str p.2)) : Json F)))

def jsonVector (v : List F) : Cell :=
  .text (String.ofList (dumps .default (.list (v.map fun x => .float (.finite x)))))

def MemoryItem.stored (item : MemoryItem F) : Stored :=
  ⟨.text item.memoryId, .text item.contextDescription, jsonMapping F item.failedAttempt,
    jsonMapping F item.successfulStrategy, jsonVector item.contextVector⟩

/-- `add`: the row of the item is replaced, but for the time at which it was created. -/
def add (item : MemoryItem F) (now : String) (table : List BankRow) : List BankRow :=
  if Cell.text item.memoryId ∈ table.map fun r => r.memoryId then
    table.map fun r =>
      if r.memoryId = .text item.memoryId then ⟨item.stored, r.createdAt, now⟩ else r
  else table ++ [⟨item.stored, now, now⟩]

/-- `ORDER BY created_at, memory_id`. -/
def ordered (table : List BankRow) : List BankRow :=
  table.mergeSort fun a b =>
    a.createdAt < b.createdAt || (a.createdAt = b.createdAt && a.memoryId.le b.memoryId)

def listAll (decodeBytes : List UInt8 → Option (List Char)) (table : List BankRow) :
    Except PyError (List (MemoryItem F)) :=
  (ordered table).mapM fun r => fromRow decodeBytes r.toStored

/-- `search_experience`, with the score that a query gives to an item. -/
def searchExperience {S : Type} [LinearOrder S] [Zero S]
    (decodeBytes : List UInt8 → Option (List Char))
    (score : String → Option (List F) → MemoryItem F → S) (errorSignature : String) (topK : Int)
    (queryVector : Option (List F)) (table : List BankRow) :
    Except PyError (List (MemoryItem F)) :=
  if topK ≤ 0 then .ok []
  else do
    let scored ← (ordered table).mapM fun r => do
      let item ← fromRow decodeBytes r.toStored
      pure (score errorSignature queryVector item, r.createdAt, item)
    let hits := (scored.filter fun e => decide (0 < e.1)).mergeSort fun e f =>
      f.1 < e.1 || (e.1 = f.1 && (e.2.1 < f.2.1 ||
        (e.2.1 = f.2.1 && e.2.2.memoryId ≤ f.2.2.memoryId)))
    pure ((hits.take topK.toNat).map fun e => e.2.2)

end

/-- `delete` of an id that is not blank, and whether it returns `True`. -/
def delete (id : String) (table : List BankRow) : List BankRow × Bool :=
  (table.filter fun r => r.memoryId ≠ .text id,
    decide (Cell.text id ∈ table.map fun r => r.memoryId))

def count (table : List BankRow) : Nat := table.length

/-- A database file with its old table, and what has been seen of the calls on it: whether a bank
has been opened on it, and the ids that were deleted and have not been added since. -/
structure BankState where
  table : List BankRow
  connected : Bool
  opened : Bool
  deleted : List String

inductive BankCall (F : Type) where
  | open (clock : Nat → String)
  | add (item : MemoryItem F) (now : String)
  | delete (id : String)
  | close

def BankState.start : BankState := ⟨[], false, false, []⟩

/-- The keys of the rows. -/
def ids (table : List BankRow) : List Cell := table.map fun r => r.memoryId

/-- The row is kept out by its key. -/
def Present (row : Stored) (table : List BankRow) : Prop :=
  row.memoryId ≠ .null ∧ row.memoryId ∈ ids table

section
variable {F : Type} [Builtins F]

/-- The state after a call; on a closed bank and with a blank id a call raises and changes
nothing. -/
def BankCall.after (legacy : Option LegacyTable) (s : BankState) : BankCall F → BankState
  | .open clock => ⟨migrate legacy clock s.table, true, true, s.deleted⟩
  | .add item now =>
    if s.connected then
      { s with
        table := MemoryBank.add item now s.table
        deleted := s.deleted.filter fun id => id ≠ item.memoryId }
    else s
  | .delete id =>
    if s.connected ∧ Text.notBlank id.toList = true ∧ (MemoryBank.delete id s.table).2 = true then
      { s with table := (MemoryBank.delete id s.table).1, deleted := id :: s.deleted }
    else s
  | .close => { s with connected := false }

variable (decodeBytes : List UInt8 → Option (List Char))

/-- The id is one of those that `list_all` returns. -/
def Listed (F : Type) [Builtins F] (table : List BankRow) (id : String) : Prop :=
  ∃ items : List (MemoryItem F), listAll decodeBytes table = .ok items ∧
    ∃ item ∈ items, item.memoryId = id

/-- No deleted id is listed, `list_all` returns, and every id that has been migrated and was not
deleted is listed. -/
structure BankState.Lawful (F : Type) [Builtins F] (legacy : Option LegacyTable)
    (s : BankState) : Prop where
  gone : ∀ id ∈ s.deleted, ¬ Listed decodeBytes F s.table id
  readable : ∃ items : List (MemoryItem F), listAll decodeBytes s.table = .ok items
  migrated : s.opened = true → ∀ row ∈ migrating legacy, row.Complete → ∀ id,
    row.memoryId = .text id → id ∉ s.deleted → Listed decodeBytes F s.table id

/-- All that is asked of the two tables is answered alike. -/
structure SameAnswers {S : Type} [LinearOrder S] [Zero S]
    (score : String → Option (List F) → MemoryItem F → S) (table table' : List BankRow) :
    Prop where
  list : listAll (F := F) decodeBytes table' = listAll decodeBytes table
  count : MemoryBank.count table' = MemoryBank.count table
  search : ∀ errorSignature topK queryVector,
    searchExperience decodeBytes score errorSignature topK queryVector table' =
      searchExperience decodeBytes score errorSignature topK queryVector table

/-- A run keeps to the law: its states do, and no answer changes when a bank is opened again. -/
def Keeps {S : Type} [LinearOrder S] [Zero S] (legacy : Option LegacyTable)
    (score : String → Option (List F) → MemoryItem F → S) : BankState → List (BankCall F) → Prop
  | s, [] => s.Lawful decodeBytes F legacy
  | s, c :: cs => s.Lawful decodeBytes F legacy ∧
    (∀ clock, c = .open clock → s.opened = true →
      SameAnswers decodeBytes score s.table (c.after legacy s).table) ∧
    Keeps legacy score (c.after legacy s) cs

/-- Every row to migrate has an id that the table has. -/
def Settled (legacy : Option LegacyTable) (table : List BankRow) : Prop :=
  ∀ row ∈ migrating legacy, row.Complete → Present row table

/-- Every row to migrate, but those with the id of an earlier one, decodes. -/
def Readable (F : Type) [Builtins F] (legacy : Option LegacyTable) : Prop :=
  ∀ pre row post, migrating legacy = pre ++ row :: post → row.Complete →
    (row.memoryId = .null ∨ ∀ r ∈ pre, r.Complete → r.memoryId ≠ row.memoryId) →
      ∃ item : MemoryItem F, fromRow decodeBytes row = .ok item

/-- A bank is first opened on a file whose rows decode, and opened again when the table has all the
ids of the old one. -/
def Calm (legacy : Option LegacyTable) : BankState → List (BankCall F) → Prop
  | _, [] => True
  | s, c :: cs =>
    (∀ clock, c = .open clock →
      if s.opened = true then Settled legacy s.table else Readable decodeBytes F legacy) ∧
    Calm legacy (c.after legacy s) cs

end

section
variable {F : Type} [Builtins F]

theorem insertOrIgnore_cases (s : Stored) (created updated : String) (table : List BankRow) :
    (insertOrIgnore ⟨s, created, updated⟩ table = table ∧ (s.Complete → Present s table)) ∨
    (insertOrIgnore ⟨s, created, updated⟩ table = table ++ [⟨s, created, updated⟩] ∧ s.Complete ∧
      ¬ Present s table) := by
  rw [insertOrIgnore]
  by_cases hc : s.Complete
  · rw [if_pos hc]
    by_cases hm : Present s table
    · exact .inl ⟨if_pos hm, fun _ => hm⟩
    · exact .inr ⟨if_neg hm, hc, hm⟩
  · rw [if_neg hc]
    exact .inl ⟨rfl, fun h => (hc h).elim⟩

/-- The insertions only add rows. -/
theorem insertAll_extends (clock : Nat → String) (rows : List Stored) (n : Nat)
    (table : List BankRow) : table <+: insertAll clock n rows table := by
  induction rows generalizing n table with
  | nil => exact List.prefix_rfl
  | cons s rows ih =>
    rw [insertAll]
    obtain ⟨he, -⟩ | ⟨he, -⟩ := insertOrIgnore_cases s (clock n) (clock n) table
    · rw [he]
      exact ih _ _
    · rw [he]
      exact (List.prefix_append _ _).trans (ih _ _)

theorem insertAll_eq_iff (clock : Nat → String) (rows : List Stored) (n : Nat)
    (table : List BankRow) :
    (insertAll clock n rows table).length = table.length ↔
      ∀ row ∈ rows, row.Complete → Present row table := by
  induction rows generalizing n with
  | nil => exact iff_of_true rfl (List.forall_mem_nil _)
  | cons s rows ih =>
    rw [insertAll, List.forall_mem_cons]
    obtain ⟨he, hs⟩ | ⟨he, hc, hs⟩ := insertOrIgnore_cases s (clock n) (clock n) table
    · rw [he, ih]
      exact ⟨fun h => ⟨hs, h⟩, fun h => h.2⟩
    · rw [he]
      refine iff_of_false (fun h => ?_) fun h => hs (h.1 hc)
      have hle := (insertAll_extends clock rows (n + 1)
        (table ++ [(⟨s, clock n, clock n⟩ : BankRow)])).length_le
      rw [h, List.length_append, List.length_singleton] at hle
      omega

theorem migrate_settled {legacy : Option LegacyTable} {table : List BankRow}
    (h : Settled legacy table) (clock : Nat → String) : migrate legacy clock table = table :=
  ((insertAll_extends clock _ 0 table).eq_of_length
    ((insertAll_eq_iff clock _ 0 table).2 h).symm).symm

/-- Opening a bank changes no answer exactly when there is nothing to migrate. -/
theorem sameAnswers_iff (decodeBytes : List UInt8 → Option (List Char)) {S : Type} [LinearOrder S]
    [Zero S] (score : String → Option (List F) → MemoryItem F → S) (legacy : Option LegacyTable)
    (clock : Nat → String) (table : List BankRow) :
    SameAnswers decodeBytes score table (migrate legacy clock table) ↔ Settled legacy table := by
  constructor
  · intro h
    exact (insertAll_eq_iff clock _ 0 table).1 h.count
  · intro h
    rw [migrate_settled h]
    exact ⟨rfl, rfl, fun _ _ _ => rfl⟩

theorem ids_concat (table : List BankRow) (row : BankRow) :
    ids (table ++ [row]) = ids table ++ [row.memoryId] :=
  List.map_append

/-- The row is the first one with its key that is to be inserted. -/
def First (table : List BankRow) (pre : List Stored) (row : Stored) : Prop :=
  row.memoryId = .null ∨
    (row.memoryId ∉ ids table ∧ ∀ r ∈ pre, r.Complete → r.memoryId ≠ row.memoryId)

theorem first_cons_of_present {s row : Stored} {table : List BankRow} {pre : List Stored}
    (hs : s.Complete → Present s table) : First table (s :: pre) row ↔ First table pre row := by
  rw [First, First, List.forall_mem_cons]
  constructor
  · rintro (h | ⟨h, -, hp⟩)
    · exact .inl h
    · exact .inr ⟨h, hp⟩
  · rintro (h | ⟨h, hp⟩)
    · exact .inl h
    · refine .inr ⟨h, fun hc he => h ?_, hp⟩
      rw [← he]
      exact (hs hc).2

theorem first_cons_of_inserted {s row : Stored} {table : List BankRow} {pre : List Stored}
    (hc : s.Complete) (created updated : String) :
    First table (s :: pre) row ↔ First (table ++ [⟨s, created, updated⟩]) pre row := by
  rw [First, First, List.forall_mem_cons, ids_concat, List.mem_append, List.mem_singleton, not_or]
  constructor
  · rintro (h | ⟨h, hs, hp⟩)
    · exact .inl h
    · exact .inr ⟨⟨h, fun he => hs hc he.symm⟩, hp⟩
  · rintro (h | ⟨⟨h, hs⟩, hp⟩)
    · exact .inl h
    · exact .inr ⟨h, fun _ he => hs he.symm, hp⟩

/-- What holds of the rows after the insertions. -/
theorem forall_insertAll {P : Stored → Prop} (clock : Nat → String) (rows : List Stored) (n : Nat)
    (table : List BankRow) :
    (∀ r ∈ insertAll clock n rows table, P r.toStored) ↔ (∀ r ∈ table, P r.toStored) ∧
      ∀ pre row post, rows = pre ++ row :: post → row.Complete → First table pre row → P row := by
  induction rows generalizing n table with
  | nil =>
    rw [insertAll]
    exact ⟨fun h => ⟨h, fun pre row post he => absurd he (by simp)⟩, fun h => h.1⟩
  | cons s rows ih =>
    rw [insertAll, ih]
    obtain ⟨he, hs⟩ | ⟨he, hc, hs⟩ := insertOrIgnore_cases s (clock n) (clock n) table
    · rw [he]
      refine and_congr_right fun _ => ⟨?_, ?_⟩
      · intro h pre row post hrows hcomplete hfirst
        cases pre with
        | nil =>
          cases hrows
          obtain hnull | ⟨hids, -⟩ := hfirst
          · exact ((hs hcomplete).1 hnull).elim
          · exact (hids (hs hcomplete).2).elim
        | cons t pre =>
          cases hrows
          exact h pre row post rfl hcomplete ((first_cons_of_present hs).1 hfirst)
      · intro h pre row post hrows hcomplete hfirst
        exact h (s :: pre) row post (congrArg _ hrows) hcomplete
          ((first_cons_of_present hs).2 hfirst)
    · rw [he, List.forall_mem_append, List.forall_mem_singleton, and_assoc]
      refine and_congr_right fun _ => ⟨?_, ?_⟩
      · rintro ⟨hP, h⟩ pre row post hrows hcomplete hfirst
        cases pre with
        | nil =>
          cases hrows
          exact hP
        | cons t pre =>
          cases hrows
          exact h pre row post rfl hcomplete ((first_cons_of_inserted hc _ _).1 hfirst)
      · intro h
        refine ⟨h [] s rows rfl hc ?_, ?_⟩
        · by_cases hn : s.memoryId = .null
          · exact .inl hn
          · exact .inr ⟨fun hm => hs ⟨hn, hm⟩, List.forall_mem_nil _⟩
        · intro pre row post hrows hcomplete hfirst
          exact h (s :: pre) row post (congrArg _ hrows) hcomplete
            ((first_cons_of_inserted hc _ _).2 hfirst)

/-- Every row that can be inserted has its id in the table after the insertions. -/
theorem mem_insertAll (clock : Nat → String) {rows : List Stored} {row : Stored}
    (hm : row ∈ rows) (hc : row.Complete) (n : Nat) (table : List BankRow) :
    row.memoryId ∈ ids (insertAll clock n rows table) := by
  induction rows generalizing n table with
  | nil => cases hm
  | cons s rows ih =>
    rw [insertAll]
    obtain rfl | hm := List.mem_cons.1 hm
    · have hsub := (insertAll_extends clock rows (n + 1)
        (insertOrIgnore ⟨row, clock n, clock n⟩ table)).subset
      refine List.map_subset _ hsub ?_
      obtain ⟨he, hs⟩ | ⟨he, -, -⟩ := insertOrIgnore_cases row (clock n) (clock n) table
      · rw [he]
        exact (hs hc).2
      · rw [he]
        exact List.mem_map.2 ⟨_, List.mem_append_right _ (List.mem_singleton_self _), rfl⟩
    · exact ih hm _ _

omit [Builtins F] in
theorem stringMapping_ok {ms : List (String × Json F)} (h : ∀ p ∈ ms, ∃ s, p.2 = .str s) :
    ∃ m, stringMapping (.dict ms) = .ok m := by
  refine exists_mapM_iff.2 fun p hp => ?_
  obtain ⟨s, hs⟩ := h p hp
  rw [hs]
  exact ⟨_, rfl⟩

/-- A mapping of strings that has been written decodes to one. -/
theorem jsonLoads_mapping (decodeBytes : List UInt8 → Option (List Char)) (m : Dict String String) :
    ∃ v m', jsonLoads (F := F) decodeBytes (jsonMapping F m) = .ok v ∧
      stringMapping v = .ok m' := by
  generalize hitems : (m.mergeSort fun p q => decide (p.1 ≤ q.1)) = items
  have hbuild : ∀ p ∈ Value.buildMembers (items.map fun p => (p.1, (.str p.2 : Json F))),
      ∃ s, p.2 = .str s := by
    clear hitems
    induction items with
    | nil => exact List.forall_mem_nil _
    | cons p items ih =>
      rw [List.map_cons, Value.buildMembers, List.forall_mem_cons]
      exact ⟨⟨p.2, rfl⟩, ih⟩
  have hdict : ∀ p ∈ Dict.ofPairs
      (Value.buildMembers (items.map fun p => (p.1, (.str p.2 : Json F)))), ∃ s, p.2 = .str s := by
    intro p hp
    obtain ⟨q, hq, he⟩ := Dict.mem_ofPairs hp
    rw [he]
    exact hbuild q hq
  obtain ⟨m', hm'⟩ := stringMapping_ok hdict
  refine ⟨_, m', ?_, hm'⟩
  rw [jsonMapping, hitems, jsonLoads, String.toList_ofList, loads_dumps]
  rfl

theorem jsonLoads_vector (decodeBytes : List UInt8 → Option (List Char)) (v : List F) :
    ∃ xs, jsonLoads (F := F) decodeBytes (jsonVector v) = .ok (.list xs) ∧
      ∀ x ∈ xs, ∃ y, finiteFloat x = .ok y := by
  refine ⟨Value.buildList (v.map fun x => .float (.finite x)), ?_, ?_⟩
  · rw [jsonVector, jsonLoads, String.toList_ofList, loads_dumps]
    rfl
  · induction v with
    | nil => exact List.forall_mem_nil _
    | cons x v ih =>
      rw [List.map_cons, Value.buildList, List.forall_mem_cons]
      exact ⟨⟨x, rfl⟩, ih⟩

/-- What has been added decodes to an item with its id. -/
theorem fromRow_stored (decodeBytes : List UInt8 → Option (List Char)) (item : MemoryItem F) :
    ∃ item' : MemoryItem F, fromRow decodeBytes item.stored = .ok item' := by
  obtain ⟨v, m, hv, hm⟩ := jsonLoads_mapping (F := F) decodeBytes item.failedAttempt
  obtain ⟨v', m', hv', hm'⟩ := jsonLoads_mapping (F := F) decodeBytes item.successfulStrategy
  obtain ⟨xs, hx, hxs⟩ := jsonLoads_vector decodeBytes item.contextVector
  obtain ⟨ys, hys⟩ := exists_mapM_iff.2 hxs
  refine ⟨⟨item.memoryId, item.contextDescription, m, m', ys, item.memoryId_text,
    item.description_text⟩, ?_⟩
  rw [fromRow, MemoryItem.stored, hv, hv', hx]
  change makeItem (.text item.memoryId) (.text item.contextDescription) v v' (.list xs) = _
  rw [makeItem, dif_pos item.memoryId_text, dif_pos item.description_text, hm, hm', iterate]
  change (xs.mapM finiteFloat >>= fun contextVector => pure _) = _
  rw [hys]
  rfl

theorem fromRow_id {decodeBytes : List UInt8 → Option (List Char)} {s : Stored}
    {item : MemoryItem F} (h : fromRow decodeBytes s = .ok item) :
    s.memoryId = .text item.memoryId := by
  rw [fromRow] at h
  obtain ⟨a, -, h⟩ := bind_ok h
  obtain ⟨b, -, h⟩ := bind_ok h
  obtain ⟨c, -, h⟩ := bind_ok h
  unfold makeItem at h
  split at h
  · rename_i id description hid hdescription
    split at h
    · split at h
      · obtain ⟨x, -, h⟩ := bind_ok h
        obtain ⟨y, -, h⟩ := bind_ok h
        obtain ⟨z, -, h⟩ := bind_ok h
        obtain ⟨w, -, h⟩ := bind_ok h
        cases h
        exact hid
      · cases h
    · cases h
  · cases h

theorem mem_ordered {table : List BankRow} {row : BankRow} : row ∈ ordered table ↔ row ∈ table :=
  List.mem_mergeSort

theorem listAll_ok_iff {decodeBytes : List UInt8 → Option (List Char)} {table : List BankRow} :
    (∃ items : List (MemoryItem F), listAll decodeBytes table = .ok items) ↔
      ∀ row ∈ table, ∃ item : MemoryItem F, fromRow decodeBytes row.toStored = .ok item := by
  rw [listAll]
  refine exists_mapM_iff.trans ⟨fun h row hr => h row (mem_ordered.2 hr), ?_⟩
  exact fun h row hr => h row (mem_ordered.1 hr)

/-- In a table whose rows decode the ids are those that are listed. -/
theorem listed_iff {decodeBytes : List UInt8 → Option (List Char)} {table : List BankRow}
    (h : ∀ row ∈ table, ∃ item : MemoryItem F, fromRow decodeBytes row.toStored = .ok item)
    {id : String} : Listed decodeBytes F table id ↔ Cell.text id ∈ ids table := by
  constructor
  · rintro ⟨items, hitems, item, hm, rfl⟩
    obtain ⟨row, hrow, he⟩ := mem_of_mem_mapM hitems hm
    exact List.mem_map.2 ⟨row, mem_ordered.1 hrow, fromRow_id he⟩
  · intro hm
    obtain ⟨row, hrow, hid⟩ := List.mem_map.1 hm
    obtain ⟨items, hitems⟩ := listAll_ok_iff.2 h
    obtain ⟨item, hitem, he⟩ := mem_of_mapM hitems (mem_ordered.2 hrow)
    refine ⟨items, hitems, item, hitem, ?_⟩
    have hi := fromRow_id he
    rw [hid] at hi
    exact (Cell.text.inj hi).symm

theorem mem_ids_add {item : MemoryItem F} {now : String} {table : List BankRow} {c : Cell} :
    c ∈ ids (add item now table) ↔ c ∈ ids table ∨ c = .text item.memoryId := by
  rw [add]
  split
  · rename_i hm
    have hids : ids (table.map fun r =>
        if r.memoryId = .text item.memoryId then ⟨item.stored, r.createdAt, now⟩ else r) =
          ids table := by
      rw [ids, List.map_map]
      refine List.map_congr_left fun r _ => ?_
      rw [Function.comp_apply]
      split
      · rename_i hr
        exact hr.symm
      · rfl
    rw [hids]
    constructor
    · exact .inl
    · rintro (h | rfl)
      · exact h
      · exact hm
  · rw [ids_concat, List.mem_append, List.mem_singleton]
    rfl

theorem mem_add {item : MemoryItem F} {now : String} {table : List BankRow} {row : BankRow}
    (h : row ∈ add item now table) : row ∈ table ∨ row.toStored = item.stored := by
  rw [add] at h
  split at h
  · obtain ⟨r, hr, rfl⟩ := List.mem_map.1 h
    split
    · exact .inr rfl
    · exact .inl hr
  · obtain h | h := List.mem_append.1 h
    · exact .inl h
    · rw [List.mem_singleton.1 h]
      exact .inr rfl

omit [Builtins F] in
theorem mem_ids_delete {id : String} {table : List BankRow} {c : Cell} :
    c ∈ ids (delete id table).1 ↔ c ∈ ids table ∧ c ≠ .text id := by
  constructor
  · intro h
    obtain ⟨r, hr, rfl⟩ := List.mem_map.1 h
    obtain ⟨hm, hne⟩ := List.mem_filter.1 hr
    exact ⟨List.mem_map.2 ⟨r, hm, rfl⟩, of_decide_eq_true hne⟩
  · rintro ⟨h, hne⟩
    obtain ⟨r, hm, rfl⟩ := List.mem_map.1 h
    exact List.mem_map.2 ⟨r, List.mem_filter.2 ⟨hm, decide_eq_true hne⟩, rfl⟩

/-- What calls keep of a file whose bank is opened as it should be. -/
structure BankState.Sound (decodeBytes : List UInt8 → Option (List Char)) (F : Type) [Builtins F]
    (legacy : Option LegacyTable) (s : BankState) : Prop where
  decodes : ∀ row ∈ s.table, ∃ item : MemoryItem F, fromRow decodeBytes row.toStored = .ok item
  gone : ∀ id ∈ s.deleted, Cell.text id ∉ ids s.table
  kept : s.opened = true → ∀ row ∈ migrating legacy, row.Complete → ∀ id,
    row.memoryId = .text id → id ∉ s.deleted → Cell.text id ∈ ids s.table
  fresh : s.opened = false → s.table = [] ∧ s.deleted = []
  connected : s.connected = true → s.opened = true

variable {decodeBytes : List UInt8 → Option (List Char)} {legacy : Option LegacyTable}

theorem BankState.Sound.lawful {s : BankState} (h : s.Sound decodeBytes F legacy) :
    s.Lawful decodeBytes F legacy := by
  refine ⟨?_, listAll_ok_iff.2 h.decodes, ?_⟩
  · intro id hid hl
    exact h.gone id hid ((listed_iff h.decodes).1 hl)
  · intro ho row hm hc id hid hd
    exact (listed_iff h.decodes).2 (h.kept ho row hm hc id hid hd)

/-- The rows of a file that is opened for the first time. -/
theorem decodes_migrate_iff (clock : Nat → String) :
    (∀ row ∈ migrate legacy clock [],
      ∃ item : MemoryItem F, fromRow decodeBytes row.toStored = .ok item) ↔
        Readable decodeBytes F legacy := by
  have h := forall_insertAll
    (P := fun s => ∃ item : MemoryItem F, fromRow decodeBytes s = .ok item) clock
    (migrating legacy) 0 []
  have hfirst (pre : List Stored) (row : Stored) : First [] pre row ↔
      row.memoryId = .null ∨ ∀ r ∈ pre, r.Complete → r.memoryId ≠ row.memoryId := by
    rw [First, ids, List.map_nil]
    simp
  rw [migrate, h, Readable]
  simp only [hfirst]
  exact ⟨fun h => h.2, fun h => ⟨List.forall_mem_nil _, h⟩⟩

theorem BankState.Sound.open {s : BankState} (h : s.Sound decodeBytes F legacy)
    (clock : Nat → String)
    (hc : if s.opened = true then Settled legacy s.table else Readable decodeBytes F legacy) :
    ((BankCall.open clock : BankCall F).after legacy s).Sound decodeBytes F legacy := by
  have hkept : ∀ row ∈ migrating legacy, row.Complete → ∀ id, row.memoryId = .text id →
      Cell.text id ∈ ids (migrate legacy clock s.table) := by
    intro row hm hcomplete id hid
    rw [← hid]
    exact mem_insertAll clock hm hcomplete 0 s.table
  refine ⟨?_, ?_, fun _ row hm hcomplete id hid _ => hkept row hm hcomplete id hid, nofun,
    fun _ => rfl⟩
  · by_cases ho : s.opened = true
    · rw [if_pos ho] at hc
      rw [BankCall.after, migrate_settled hc]
      exact h.decodes
    · rw [if_neg ho] at hc
      rw [BankCall.after, (h.fresh (Bool.eq_false_iff.2 ho)).1]
      exact (decodes_migrate_iff clock).2 hc
  · by_cases ho : s.opened = true
    · rw [if_pos ho] at hc
      rw [BankCall.after, migrate_settled hc]
      exact h.gone
    · rw [BankCall.after, (h.fresh (Bool.eq_false_iff.2 ho)).2]
      exact List.forall_mem_nil _

theorem BankState.Sound.add {s : BankState} (h : s.Sound decodeBytes F legacy)
    (item : MemoryItem F) (now : String) :
    ((BankCall.add item now).after legacy s).Sound decodeBytes F legacy := by
  rw [BankCall.after]
  split
  · rename_i hcon
    have ho := h.connected hcon
    refine ⟨?_, ?_, ?_, fun hf => ?_, h.connected⟩
    · intro row hrow
      obtain hrow | hrow := mem_add hrow
      · exact h.decodes row hrow
      · rw [hrow]
        exact fromRow_stored decodeBytes item
    · intro id hid hm
      obtain ⟨hid, hne⟩ := List.mem_filter.1 hid
      obtain hm | hm := mem_ids_add.1 hm
      · exact h.gone id hid hm
      · exact of_decide_eq_true hne (Cell.text.inj hm)
    · intro _ row hm hc id hid hd
      refine mem_ids_add.2 ?_
      by_cases he : id = item.memoryId
      · exact .inr (congrArg _ he)
      · refine .inl (h.kept ho row hm hc id hid fun hid' => hd ?_)
        exact List.mem_filter.2 ⟨hid', decide_eq_true he⟩
    · rw [ho] at hf
      cases hf
  · exact h

theorem BankState.Sound.delete {s : BankState} (h : s.Sound decodeBytes F legacy) (id : String) :
    ((BankCall.delete id : BankCall F).after legacy s).Sound decodeBytes F legacy := by
  rw [BankCall.after]
  split
  · rename_i hcon
    have ho := h.connected hcon.1
    refine ⟨?_, ?_, ?_, fun hf => ?_, h.connected⟩
    · intro row hrow
      exact h.decodes row (List.mem_of_mem_filter hrow)
    · intro id' hid' hm
      obtain ⟨hm, hne⟩ := mem_ids_delete.1 hm
      obtain rfl | hid' := List.mem_cons.1 hid'
      · exact hne rfl
      · exact h.gone id' hid' hm
    · intro _ row hm hc id' hid' hd
      rw [List.mem_cons, not_or] at hd
      refine mem_ids_delete.2 ⟨h.kept ho row hm hc id' hid' hd.2, fun he => hd.1 ?_⟩
      exact Cell.text.inj he
    · rw [ho] at hf
      cases hf
  · exact h

theorem BankState.Sound.after {s : BankState} (h : s.Sound decodeBytes F legacy) (c : BankCall F)
    (hc : ∀ clock, c = .open clock →
      if s.opened = true then Settled legacy s.table else Readable decodeBytes F legacy) :
    (c.after legacy s).Sound decodeBytes F legacy := by
  cases c with
  | «open» clock => exact BankState.Sound.open h clock (hc clock rfl)
  | add item now => exact BankState.Sound.add h item now
  | delete id => exact BankState.Sound.delete h id
  | close => exact ⟨h.decodes, h.gone, h.kept, h.fresh, nofun⟩

theorem Keeps.lawful {S : Type} [LinearOrder S] [Zero S]
    {score : String → Option (List F) → MemoryItem F → S} {s : BankState}
    {calls : List (BankCall F)} (h : Keeps decodeBytes legacy score s calls) :
    s.Lawful decodeBytes F legacy := by
  cases calls with
  | nil => exact h
  | cons c cs => exact h.1

theorem BankState.Sound.keeps_iff {S : Type} [LinearOrder S] [Zero S]
    {score : String → Option (List F) → MemoryItem F → S} {s : BankState}
    (h : s.Sound decodeBytes F legacy) (calls : List (BankCall F)) :
    Keeps decodeBytes legacy score s calls ↔ Calm decodeBytes legacy s calls := by
  induction calls generalizing s with
  | nil => exact iff_of_true h.lawful trivial
  | cons c cs ih =>
    rw [Keeps, Calm]
    constructor
    · rintro ⟨-, hsame, hkeeps⟩
      have hc : ∀ clock, c = .open clock →
          if s.opened = true then Settled legacy s.table
          else Readable decodeBytes F legacy := by
        rintro clock rfl
        split
        · rename_i ho
          exact (sameAnswers_iff decodeBytes score legacy clock s.table).1 (hsame clock rfl ho)
        · rename_i ho
          have hread := listAll_ok_iff.1 hkeeps.lawful.readable
          rw [BankCall.after, (h.fresh (Bool.eq_false_iff.2 ho)).1] at hread
          exact (decodes_migrate_iff clock).1 hread
      exact ⟨hc, (ih (h.after c hc)).1 hkeeps⟩
    · rintro ⟨hc, hcalm⟩
      refine ⟨h.lawful, ?_, (ih (h.after c hc)).2 hcalm⟩
      rintro clock rfl ho
      have hset := hc clock rfl
      rw [if_pos ho] at hset
      exact (sameAnswers_iff decodeBytes score legacy clock s.table).2 hset

theorem BankState.start_sound : BankState.start.Sound decodeBytes F legacy :=
  ⟨List.forall_mem_nil _, List.forall_mem_nil _, nofun, fun _ => ⟨rfl, rfl⟩, nofun⟩

/-- A run of calls keeps to the law exactly when the first bank is opened on rows that decode, and
every other one when all ids to migrate are in the table. -/
theorem keeps_iff_calm {S : Type} [LinearOrder S] [Zero S]
    (score : String → Option (List F) → MemoryItem F → S) (calls : List (BankCall F)) :
    Keeps decodeBytes legacy score .start calls ↔ Calm decodeBytes legacy .start calls :=
  BankState.start_sound.keeps_iff calls

end

/-- An old table with one memory. -/
def oldTable : LegacyTable :=
  ⟨["memory_id", "context_description", "failed_attempt", "successful_strategy"],
    [fun column =>
      .text (if column = "memory_id" then "m" else if column = "context_description" then "d"
        else "\x7b\x7d")]⟩

/-- A memory of the old table is deleted, and the bank is opened again. -/
def openDeleteOpen : List (BankCall WholeFloat) :=
  [.open fun _ => "t", .delete "m", .open fun _ => "u"]

theorem deleted_memory_returns : ¬ ∀ (legacy : Option LegacyTable)
    (score : String → Option (List WholeFloat) → MemoryItem WholeFloat → Int)
    (calls : List (BankCall WholeFloat)),
      Keeps (fun _ => none) legacy score .start calls := by
  intro h
  have hcalm := (BankState.start_sound.keeps_iff openDeleteOpen).1
    (h (some oldTable) (fun _ _ _ => 0) openDeleteOpen)
  obtain ⟨-, -, hopen, -⟩ := hcalm
  have hset : Settled (some oldTable) [] := hopen (fun _ => "u") rfl
  have hmem : (⟨.text "m", .text "d", .text "\x7b\x7d", .text "\x7b\x7d", .text "[]"⟩ : Stored) ∈
      migrating (some oldTable) := .head _
  exact nomatch (hset _ hmem (by decide)).2

end Obase.MemoryBank
