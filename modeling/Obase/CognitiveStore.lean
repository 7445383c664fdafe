import Obase.Builtins
import Obase.Concrete
import Obase.Dict
import Obase.Fallible
import Obase.Json.Loads
import Obase.Json.RoundTrip

namespace Obase.CognitiveStore
set_option autoImplicit true
open Json

inductive Coordinate (F : Type) where
  | int (n : Int)
  | float (x : PyFloat F)

def Coordinate.toJson : Coordinate F → Json F
  | .int n => .int n
  | .float x => .float x

/-- A chunk that is stored; its metadata are a JSON object. -/
structure MemoryChunk (F T : Type) where
  chunkId : String
  content : String
  embedding : Option (List (Coordinate F))
  metadata : Dict String (Json F)
  metadata_distinct : (Value.dict metadata : Json F).Distinct
  path : Option String
  createdAt : T

/-- A chunk as a store returns it. -/
structure FoundChunk (F T : Type) where
  chunkId : String
  content : String
  embedding : Option (Json F)
  metadata : Json F
  path : Option String
  createdAt : T

inductive StoreError where
  | valueError (length dim : Nat)
  | jsonDecodeError
  | database (text : String)
deriving DecidableEq

section
variable {F T V : Type} [FloatText F]

def embeddingJson (chunk : MemoryChunk F T) : Option (List Char) :=
  chunk.embedding.map fun v => dumpsAscii .default (.list (v.map Coordinate.toJson))

def metadataJson (chunk : MemoryChunk F T) : List Char := dumps .default (.dict chunk.metadata)

/-- The dimension check of `upsert`. -/
def checkDim (dim : Nat) (chunk : MemoryChunk F T) : Except StoreError Unit :=
  match chunk.embedding with
  | some v => if v.length ≠ dim then .error (.valueError v.length dim) else .ok ()
  | none => .ok ()

/-- What the database makes of the expression that is written for the vector column. -/
structure Postgres (V : Type) where
  vector : List Char → Except StoreError (Option V)
  null : vector "NULL".toList = .ok none

structure PgRow (F V T : Type) where
  content : String
  embedding : Option V
  metadata : Json F
  path : Option String
  createdAt : T

namespace PgVectorMemoryStore

def coordinateStr : Coordinate F → List Char
  | .int n => intText n
  | .float x => floatStr x

def fmtVec (v : List (Coordinate F)) : List Char :=
  '[' :: (List.intercalate [','] (v.map coordinateStr) ++ "]::vector".toList)

/-- `_fmt_vec(vec) if vec else "NULL"`. -/
def vecSql (chunk : MemoryChunk F T) : List Char :=
  match chunk.embedding with
  | some (x :: xs) => fmtVec (x :: xs)
  | _ => "NULL".toList

/-- The value of `$3::jsonb`. -/
def jsonb (text : List Char) : Except StoreError (Json F) :=
  match loads text with
  | some v => .ok v
  | none => .error (.database "invalid input syntax for type json")

/-- `upsert`, at a time by the clock of the database. -/
def upsert (db : Postgres V) (dim : Nat) (now : T) (chunk : MemoryChunk F T)
    (table : Dict String (PgRow F V T)) : Except StoreError (Dict String (PgRow F V T)) := do
  checkDim dim chunk
  let embedding ← db.vector (vecSql chunk)
  let metadata ← jsonb (metadataJson chunk)
  let createdAt := ((table.lookup chunk.chunkId).map PgRow.createdAt).getD now
  pure (table.set chunk.chunkId ⟨chunk.content, embedding, metadata, chunk.path, createdAt⟩)

/-- The command tag that `execute` returns for a deletion. -/
def deleteTag (n : Nat) : List Char := "DELETE ".toList ++ intText n

/-- `delete`; what it returns is whether the command tag is not empty. -/
def delete (id : String) (table : Dict String (PgRow F V T)) :
    Dict String (PgRow F V T) × Bool :=
  let rest := table.erase id
  let res := deleteTag (table.length - rest.length)
  (rest, !res.isEmpty)

def get (now : T) (id : String) (table : Dict String (PgRow F V T)) :
    Option (FoundChunk F T) :=
  match table.lookup id with
  | none => none
  | some row =>
    some ⟨id, row.content, none, if truthy row.metadata then row.metadata else .dict [],
      row.path, now⟩

def count (table : Dict String (PgRow F V T)) : Nat := table.length

end PgVectorMemoryStore

structure SqliteRow (T : Type) where
  content : String
  embedding : Option (List Char)
  metadata : List Char
  path : Option String
  createdAt : T

namespace SqliteMemoryStore

def upsert (dim : Nat) (chunk : MemoryChunk F T) (table : Dict String (SqliteRow T)) :
    Except StoreError (Dict String (SqliteRow T)) := do
  checkDim dim chunk
  let createdAt := ((table.lookup chunk.chunkId).map SqliteRow.createdAt).getD chunk.createdAt
  pure (table.set chunk.chunkId
    ⟨chunk.content, embeddingJson chunk, metadataJson chunk, chunk.path, createdAt⟩)

def delete (id : String) (table : Dict String (SqliteRow T)) : Dict String (SqliteRow T) × Bool :=
  let rest := table.erase id
  (rest, decide (0 < table.length - rest.length))

/-- `json.loads`. -/
def parse (text : List Char) : Except StoreError (Json F) :=
  match loads text with
  | some v => .ok v
  | none => .error .jsonDecodeError

def get (id : String) (table : Dict String (SqliteRow T)) :
    Except StoreError (Option (FoundChunk F T)) :=
  match table.lookup id with
  | none => .ok none
  | some row => do
    let embedding ← match row.embedding with
      | some (c :: cs) => (parse (c :: cs)).map some
      | _ => pure none
    let metadata ← parse row.metadata
    pure (some ⟨id, row.content, embedding, metadata, row.path, row.createdAt⟩)

def count (table : Dict String (SqliteRow T)) : Nat := table.length

end SqliteMemoryStore

/-- A call on a store, with the time at which it is made. -/
inductive StoreCall (F T : Type) where
  | upsert (chunk : MemoryChunk F T) (now : T)
  | delete (id : String)
  | get (id : String) (now : T)
  | count

/-- What a call returns. -/
inductive Answer (F T : Type) where
  | done
  | deleted (hit : Bool)
  | found (chunk : Option (FoundChunk F T))
  | counted (n : Nat)

def FoundChunk.timeless (c : FoundChunk F T) : FoundChunk F Unit := { c with createdAt := () }

def Answer.timeless : Answer F T → Answer F Unit
  | .done => .done
  | .deleted hit => .deleted hit
  | .found chunk => .found (chunk.map FoundChunk.timeless)
  | .counted n => .counted n

/-- A call on the database of a `PgVectorMemoryStore`; one that raises changes nothing. -/
def StoreCall.onPgVector (db : Postgres V) (dim : Nat) (table : Dict String (PgRow F V T)) :
    StoreCall F T → Dict String (PgRow F V T) × Except StoreError (Answer F T)
  | .upsert chunk now =>
    match PgVectorMemoryStore.upsert db dim now chunk table with
    | .ok table' => (table', .ok .done)
    | .error e => (table, .error e)
  | .delete id =>
    ((PgVectorMemoryStore.delete id table).1,
      .ok (.deleted (PgVectorMemoryStore.delete id table).2))
  | .get id now => (table, .ok (.found (PgVectorMemoryStore.get now id table)))
  | .count => (table, .ok (.counted (PgVectorMemoryStore.count table)))

def StoreCall.onSqlite (dim : Nat) (table : Dict String (SqliteRow T)) :
    StoreCall F T → Dict String (SqliteRow T) × Except StoreError (Answer F T)
  | .upsert chunk _ =>
    match SqliteMemoryStore.upsert dim chunk table with
    | .ok table' => (table', .ok .done)
    | .error e => (table, .error e)
  | .delete id =>
    ((SqliteMemoryStore.delete id table).1, .ok (.deleted (SqliteMemoryStore.delete id table).2))
  | .get id _ => (table, (SqliteMemoryStore.get id table).map .found)
  | .count => (table, .ok (.counted (SqliteMemoryStore.count table)))

/-- The result of a call without times; an exception is only told from a return. -/
def outcome (r : Except StoreError (Answer F T)) : Option (Answer F Unit) :=
  r.toOption.map Answer.timeless

def pgOutcomes (db : Postgres V) (dim : Nat) (table : Dict String (PgRow F V T)) :
    List (StoreCall F T) → List (Option (Answer F Unit))
  | [] => []
  | c :: cs =>
    outcome (c.onPgVector db dim table).2 :: pgOutcomes db dim (c.onPgVector db dim table).1 cs

def sqliteOutcomes (dim : Nat) (table : Dict String (SqliteRow T)) :
    List (StoreCall F T) → List (Option (Answer F Unit))
  | [] => []
  | c :: cs => outcome (c.onSqlite dim table).2 :: sqliteOutcomes dim (c.onSqlite dim table).1 cs

end

end Obase.CognitiveStore

namespace Obase
set_option autoImplicit true

/-- Two dictionaries with the same keys in the same order, and related values. -/
def Dict.Related (R : α → β → Prop) (d : Dict κ α) (e : Dict κ β) : Prop :=
  List.Forall₂ (fun p q => p.1 = q.1 ∧ R p.2 q.2) d e

namespace Dict.Related
variable {R : α → β → Prop}

theorem lookup [DecidableEq κ] {d : Dict κ α} {e : Dict κ β} (h : Related R d e) (k : κ) :
    (d.lookup k = none ∧ e.lookup k = none) ∨
      ∃ a b, d.lookup k = some a ∧ e.lookup k = some b ∧ R a b := by
  induction h with
  | nil => exact .inl ⟨rfl, rfl⟩
  | @cons p q d e hpq _ ih =>
    obtain ⟨hk, hr⟩ := hpq
    rw [List.lookup_cons, List.lookup_cons, ← hk]
    cases k == p.1 with
    | true => exact .inr ⟨_, _, rfl, rfl, hr⟩
    | false => exact ih

theorem set [DecidableEq κ] {d : Dict κ α} {e : Dict κ β} (h : Related R d e) (k : κ) {a : α}
    {b : β} (hab : R a b) : Related R (d.set k a) (e.set k b) := by
  induction h with
  | nil => exact .cons ⟨rfl, hab⟩ .nil
  | @cons p q d e hpq h ih =>
    obtain ⟨i, x⟩ := p
    obtain ⟨j, y⟩ := q
    obtain ⟨hk, hr⟩ := hpq
    cases hk
    rw [Dict.set, Dict.set]
    split
    · exact .cons ⟨rfl, hab⟩ h
    · exact .cons ⟨rfl, hr⟩ ih

theorem erase [DecidableEq κ] {d : Dict κ α} {e : Dict κ β} (h : Related R d e) (k : κ) :
    Related R (d.erase k) (e.erase k) := by
  induction h with
  | nil => exact .nil
  | @cons p q d e hpq _ ih =>
    rw [Dict.erase, Dict.erase] at ih ⊢
    rw [List.filter_cons, List.filter_cons, ← hpq.1]
    split
    · exact .cons hpq ih
    · exact ih

end Dict.Related

namespace CognitiveStore
open Json

section
variable {F T V : Type} [FloatText F]

/-- The rows in which the two stores keep one chunk. -/
structure RowSim (p : PgRow F V T) (q : SqliteRow T) : Prop where
  content : p.content = q.content
  path : p.path = q.path
  metadata : ∃ ms, (Value.dict ms : Json F).Distinct ∧ p.metadata = .dict ms ∧
    q.metadata = dumps .default (.dict ms : Json F)
  embedding : q.embedding = none ∨
    ∃ xs : List (Json F), q.embedding = some (dumpsAscii .default (.list xs))

/-- The two stores give a call the same answer: the vector of an upsert is accepted by the database,
a deleted chunk is there, and a chunk that is got has no embedding. -/
def StoreCall.Alike (db : Postgres V) (dim : Nat) (table : Dict String (SqliteRow T)) :
    StoreCall F T → Prop
  | .upsert chunk _ => ∀ v, chunk.embedding = some v → v.length = dim → v ≠ [] →
      ∃ x, db.vector (PgVectorMemoryStore.fmtVec v) = .ok x
  | .delete id => id ∈ table.keys
  | .get id _ => ∀ row, table.lookup id = some row → row.embedding = none
  | .count => True

/-- Every call meets a table in which the stores answer it alike. -/
def AllAlike (db : Postgres V) (dim : Nat) :
    Dict String (SqliteRow T) → List (StoreCall F T) → Prop
  | _, [] => True
  | table, c :: cs => c.Alike db dim table ∧ AllAlike db dim (c.onSqlite dim table).1 cs

omit [FloatText F] in
theorem PgVectorMemoryStore.delete_true (id : String) (table : Dict String (PgRow F V T)) :
    (PgVectorMemoryStore.delete id table).2 = true := rfl

theorem SqliteMemoryStore.delete_iff (id : String) (table : Dict String (SqliteRow T)) :
    (SqliteMemoryStore.delete id table).2 = true ↔ id ∈ table.keys := by
  rw [SqliteMemoryStore.delete, decide_eq_true_eq]
  constructor
  · intro h
    by_contra hm
    rw [Dict.erase_of_not_mem hm, Nat.sub_self] at h
    cases h
  · intro h
    obtain ⟨p, hp, rfl⟩ := List.mem_map.1 h
    have hlt : (table.erase p.1).length < table.length :=
      List.length_filter_lt_length_iff_exists.2 ⟨p, hp, by simp⟩
    omega

omit [FloatText F] in
theorem delete_alike {tp : Dict String (PgRow F V T)} {ts : Dict String (SqliteRow T)}
    (id : String) :
    outcome (F := F) (T := T) (.ok (.deleted (PgVectorMemoryStore.delete id tp).2)) =
      outcome (T := T) (.ok (.deleted (SqliteMemoryStore.delete id ts).2)) ↔ id ∈ ts.keys := by
  rw [PgVectorMemoryStore.delete_true, ← SqliteMemoryStore.delete_iff]
  constructor
  · intro h
    injection h with h
    injection h with h
    exact h.symm
  · intro h
    rw [h]

/-- What the SQLite store returns of a row that keeps a chunk. -/
theorem SqliteMemoryStore.get_row {p : PgRow F V T} {q : SqliteRow T} (h : RowSim p q)
    {id : String} {table : Dict String (SqliteRow T)} (hl : table.lookup id = some q) :
    ∃ embedding, (embedding = none ↔ q.embedding = none) ∧
      SqliteMemoryStore.get (F := F) id table =
        .ok (some ⟨id, q.content, embedding, p.metadata, q.path, q.createdAt⟩) := by
  obtain ⟨ms, hd, hp, hq⟩ := h.metadata
  have hmeta : parse (F := F) q.metadata = .ok p.metadata := by
    rw [parse, hq, loads_dumps, Value.build_of_distinct _ hd, hp]
  rw [SqliteMemoryStore.get, hl]
  dsimp only
  rw [hmeta]
  obtain he | ⟨xs, he⟩ := h.embedding
  · rw [he]
    exact ⟨none, iff_of_true rfl rfl, rfl⟩
  · obtain ⟨cs, hcs⟩ := dumpsWith_list_ends stringAscii .default xs
    have hparse : parse (F := F) (dumpsAscii .default (.list xs : Json F)) =
        .ok (.list xs : Json F).build := by
      rw [parse, loads_dumpsAscii]
    rw [he]
    refine ⟨some (.list xs : Json F).build, iff_of_false (by simp) (by simp), ?_⟩
    rw [dumpsAscii, hcs] at hparse ⊢
    dsimp only
    rw [hparse]
    rfl

theorem get_alike {tp : Dict String (PgRow F V T)} {ts : Dict String (SqliteRow T)}
    (h : Dict.Related RowSim tp ts) (id : String) (now : T) :
    outcome (.ok (.found (PgVectorMemoryStore.get now id tp))) =
      outcome ((SqliteMemoryStore.get (F := F) id ts).map .found) ↔
      ∀ row, ts.lookup id = some row → row.embedding = none := by
  obtain ⟨hp, hs⟩ | ⟨p, q, hp, hs, hpq⟩ := h.lookup id
  · rw [PgVectorMemoryStore.get, SqliteMemoryStore.get, hp, hs]
    exact iff_of_true rfl nofun
  · obtain ⟨embedding, he, hget⟩ := SqliteMemoryStore.get_row hpq hs
    obtain ⟨ms, -, hm, -⟩ := hpq.metadata
    have htruthy : (if truthy p.metadata then p.metadata else .dict []) = p.metadata := by
      rw [hm]
      cases ms with
      | nil => rfl
      | cons m ms => rfl
    have hrow : (∀ row, ts.lookup id = some row → row.embedding = none) ↔ embedding = none := by
      rw [he, hs]
      exact ⟨fun h => h q rfl, fun h row hr => Option.some.inj hr ▸ h⟩
    rw [hget, PgVectorMemoryStore.get, hp, hrow]
    dsimp only
    rw [htruthy, hpq.content, hpq.path]
    constructor
    · intro h
      injection h with h
      injection h with h
      injection h with h
      injection h with _ _ h
      exact h.symm
    · intro h
      rw [h]
      rfl

theorem PgVectorMemoryStore.jsonb_metadata (chunk : MemoryChunk F T) :
    jsonb (metadataJson chunk) = .ok (.dict chunk.metadata) := by
  rw [jsonb, metadataJson, loads_dumps, Value.build_of_distinct _ chunk.metadata_distinct]

/-- The vector of a chunk is accepted. -/
theorem vector_alike (db : Postgres V) {dim : Nat} {chunk : MemoryChunk F T}
    (hd : checkDim dim chunk = .ok ()) :
    (∃ x, db.vector (PgVectorMemoryStore.vecSql chunk) = .ok x) ↔
      ∀ v, chunk.embedding = some v → v.length = dim → v ≠ [] →
        ∃ x, db.vector (PgVectorMemoryStore.fmtVec v) = .ok x := by
  rw [checkDim] at hd
  rw [PgVectorMemoryStore.vecSql]
  cases he : chunk.embedding with
  | none => exact iff_of_true ⟨none, db.null⟩ nofun
  | some v =>
    rw [he] at hd
    dsimp only at hd
    cases v with
    | nil =>
      refine iff_of_true ⟨none, db.null⟩ ?_
      intro v hv _ hne
      cases hv
      exact (hne rfl).elim
    | cons x xs =>
      have hlen : (x :: xs).length = dim := by
        by_contra hne
        rw [if_pos hne] at hd
        cases hd
      constructor
      · rintro h v hv _ _
        cases hv
        exact h
      · intro h
        exact h _ rfl hlen (List.cons_ne_nil _ _)

omit [FloatText F] in
theorem checkDim_error {dim : Nat} {chunk : MemoryChunk F T} {e : StoreError}
    (h : checkDim dim chunk = .error e) : ∀ v, chunk.embedding = some v → v.length ≠ dim := by
  intro v hv hlen
  rw [checkDim, hv] at h
  dsimp only at h
  rw [if_neg (not_not.2 hlen)] at h
  cases h

theorem RowSim.of_chunk {chunk : MemoryChunk F T} (embedding : Option V) (created created' : T) :
    RowSim (F := F) (⟨chunk.content, embedding, .dict chunk.metadata, chunk.path, created⟩)
      ⟨chunk.content, embeddingJson chunk, metadataJson chunk, chunk.path, created'⟩ := by
  refine ⟨rfl, rfl, ⟨chunk.metadata, chunk.metadata_distinct, rfl, rfl⟩, ?_⟩
  rw [embeddingJson]
  cases chunk.embedding with
  | none => exact .inl rfl
  | some v => exact .inr ⟨_, rfl⟩

theorem PgVectorMemoryStore.upsert_ok {db : Postgres V} {dim : Nat} {chunk : MemoryChunk F T}
    {x : Option V} (hd : checkDim dim chunk = .ok ()) (hv : db.vector (vecSql chunk) = .ok x)
    (now : T) (table : Dict String (PgRow F V T)) :
    upsert db dim now chunk table = .ok (table.set chunk.chunkId
      ⟨chunk.content, x, .dict chunk.metadata, chunk.path,
        ((table.lookup chunk.chunkId).map PgRow.createdAt).getD now⟩) := by
  rw [upsert, hd, hv, jsonb_metadata]
  rfl

theorem PgVectorMemoryStore.upsert_error {db : Postgres V} {dim : Nat} {chunk : MemoryChunk F T}
    {e : StoreError} (hd : checkDim dim chunk = .ok ()) (hv : db.vector (vecSql chunk) = .error e)
    (now : T) (table : Dict String (PgRow F V T)) :
    upsert db dim now chunk table = .error e := by
  rw [upsert, hd, hv]
  rfl

theorem SqliteMemoryStore.upsert_ok {dim : Nat} {chunk : MemoryChunk F T}
    (hd : checkDim dim chunk = .ok ()) (table : Dict String (SqliteRow T)) :
    upsert dim chunk table = .ok (table.set chunk.chunkId
      ⟨chunk.content, embeddingJson chunk, metadataJson chunk, chunk.path,
        ((table.lookup chunk.chunkId).map SqliteRow.createdAt).getD chunk.createdAt⟩) := by
  rw [upsert, hd]
  rfl

theorem upsert_alike {db : Postgres V} {dim : Nat} {tp : Dict String (PgRow F V T)}
    {ts : Dict String (SqliteRow T)} (h : Dict.Related RowSim tp ts) (chunk : MemoryChunk F T)
    (now : T) :
    (outcome ((StoreCall.upsert chunk now).onPgVector db dim tp).2 =
      outcome ((StoreCall.upsert chunk now).onSqlite dim ts).2 ↔
        (StoreCall.upsert chunk now).Alike db dim ts) ∧
      ((StoreCall.upsert chunk now).Alike db dim ts →
        Dict.Related RowSim ((StoreCall.upsert chunk now).onPgVector db dim tp).1
          ((StoreCall.upsert chunk now).onSqlite dim ts).1) := by
  rw [StoreCall.onPgVector, StoreCall.onSqlite, StoreCall.Alike]
  cases hd : checkDim dim chunk with
  | error e =>
    rw [PgVectorMemoryStore.upsert, SqliteMemoryStore.upsert, hd]
    exact ⟨iff_of_true rfl fun v hv hl => (checkDim_error hd v hv hl).elim, fun _ => h⟩
  | ok u =>
    rw [← vector_alike db hd, SqliteMemoryStore.upsert_ok hd]
    cases hv : db.vector (PgVectorMemoryStore.vecSql chunk) with
    | error e =>
      rw [PgVectorMemoryStore.upsert_error hd hv]
      exact ⟨iff_of_false (by rintro ⟨⟩) (by rintro ⟨_, ⟨⟩⟩), by rintro ⟨_, ⟨⟩⟩⟩
    | ok x =>
      rw [PgVectorMemoryStore.upsert_ok hd hv]
      exact ⟨iff_of_true rfl ⟨x, rfl⟩, fun _ => h.set _ (.of_chunk x _ _)⟩

/-- A call on related tables: the answers are the same exactly when the stores answer it alike, and
the tables are related after it. -/
theorem StoreCall.step_alike {db : Postgres V} {dim : Nat} {tp : Dict String (PgRow F V T)}
    {ts : Dict String (SqliteRow T)} (h : Dict.Related RowSim tp ts) (c : StoreCall F T) :
    (outcome (c.onPgVector db dim tp).2 = outcome (c.onSqlite dim ts).2 ↔ c.Alike db dim ts) ∧
      (c.Alike db dim ts →
        Dict.Related RowSim (c.onPgVector db dim tp).1 (c.onSqlite dim ts).1) := by
  cases c with
  | upsert chunk now => exact upsert_alike h chunk now
  | delete id => exact ⟨delete_alike id, fun _ => h.erase id⟩
  | get id now => exact ⟨get_alike h id now, fun _ => h⟩
  | count =>
    refine ⟨iff_of_true ?_ trivial, fun _ => h⟩
    rw [onPgVector, onSqlite, PgVectorMemoryStore.count, SqliteMemoryStore.count, h.length_eq]

/-- The two stores answer a sequence of calls alike exactly when every call of it meets a table in
which they do. -/
theorem outcomes_eq_iff (db : Postgres V) (dim : Nat) (calls : List (StoreCall F T)) :
    pgOutcomes db dim [] calls = sqliteOutcomes dim [] calls ↔ AllAlike db dim [] calls := by
  have hrun : ∀ (calls : List (StoreCall F T)) (tp : Dict String (PgRow F V T))
      (ts : Dict String (SqliteRow T)), Dict.Related RowSim tp ts →
        (pgOutcomes db dim tp calls = sqliteOutcomes dim ts calls ↔ AllAlike db dim ts calls) := by
    intro calls
    induction calls with
    | nil => exact fun tp ts _ => iff_of_true rfl trivial
    | cons c cs ih =>
      intro tp ts h
      have halike : _ ∧ (c.Alike db dim ts → _) := c.step_alike h
      obtain ⟨hiff, hnext⟩ := halike
      rw [pgOutcomes, sqliteOutcomes, AllAlike, List.cons.injEq, hiff]
      constructor
      · rintro ⟨hc, hcs⟩
        exact ⟨hc, (ih _ _ (hnext hc)).1 hcs⟩
      · rintro ⟨hc, hcs⟩
        exact ⟨hc, (ih _ _ (hnext hc)).2 hcs⟩
  exact hrun calls [] [] .nil

end

/-- A database that takes a text for a vector. -/
def acceptingPostgres : Postgres Unit := ⟨fun _ => .ok none, rfl⟩

/-- A chunk that was never stored is deleted. -/
theorem delete_absent_differs : ¬ ∀ (dim : Nat) (calls : List (StoreCall WholeFloat Nat)),
    pgOutcomes acceptingPostgres dim [] calls = sqliteOutcomes dim [] calls := by
  intro h
  have hd := h 4 [.delete "c1"]
  rw [pgOutcomes, sqliteOutcomes] at hd
  injection hd with hd
  injection hd with hd
  injection hd with hd
  cases hd

end CognitiveStore
end Obase
