import Mathlib.Data.List.Sort
import Mathlib.Tactic.Ring
import Obase.Dict
import Obase.Fallible
import Obase.Text

namespace Obase.Persistence
set_option autoImplicit true

inductive Raised where
  | valueError (message : String)
  | keyError (key : String)
  | indexError
  | database

/-- What a call returns or raises, with the statements it has executed and their arguments. -/
structure Outcome (V ρ : Type) where
  result : Except Raised ρ
  executed : List (List Char × List V)

/-- A connection of the pool, and `int` of a text. -/
structure Connection (V : Type) where
  execute : List Char → List V → Except Raised (List Char)
  fetchrow : List Char → List V → Except Raised (Option (Dict String V))
  intOf : List Char → Option Int

/-- `", ".join(parts)`. -/
def joined (parts : List (List Char)) : List Char := [',', ' '].intercalate parts

/-- A name between the quotes that the statements put around it. -/
def quoted (name : String) : List Char := '"' :: (name.toList ++ ['"'])

def placeholder (k : Nat) : List Char := '$' :: Nat.toDigits 10 k

def tupleText (t : List Nat) : List Char := '(' :: (joined (t.map placeholder) ++ [')'])

def doNothing : List Char := ['D', 'O', ' ', 'N', 'O', 'T', 'H', 'I', 'N', 'G']

def onConflict : List Char := [' ', 'O', 'N', ' ', 'C', 'O', 'N', 'F', 'L', 'I', 'C', 'T', ' ']

/-- `conflict_action`, of names in their quotes. -/
def conflictAction : List (List Char) → List Char
  | [] => doNothing
  | update => "DO UPDATE SET ".toList ++
      joined (update.map fun c => c ++ " = EXCLUDED.".toList ++ c)

/-- The text of an INSERT up to its ON CONFLICT, of names in their quotes. -/
def valuesText (table : List Char) (columns : List (List Char)) (tuples : List (List Char)) :
    List Char :=
  ['I', 'N', 'S', 'E', 'R', 'T', ' ', 'I', 'N', 'T', 'O', ' '] ++ table ++ [' ', '('] ++
    joined columns ++ [')', ' ', 'V', 'A', 'L', 'U', 'E', 'S', ' '] ++ joined tuples

/-- The statement of `upsert_batch`. -/
def upsertText (table : List Char) (columns : List String) (tuples : List (List Char))
    (conflictColumns updateColumns : List String) : List Char :=
  valuesText table (columns.map quoted) tuples ++ onConflict ++ ['('] ++
    joined (conflictColumns.map quoted) ++ [')', ' '] ++ conflictAction (updateColumns.map quoted)

/-- The statement of `insert_one`. -/
def insertText (table : String) (columns : List String) (numbers : List Nat) (returning : String) :
    List Char :=
  valuesText (quoted table) (columns.map quoted) [tupleText numbers] ++ " RETURNING ".toList ++
    quoted returning

/-- The statement of `update_one`. -/
def updateText (table : String) (columns : List String) (numbers : List Nat) (idColumn : String)
    (idNumber : Nat) : List Char :=
  "UPDATE ".toList ++ quoted table ++ " SET ".toList ++
    joined (List.zipWith (fun c k => quoted c ++ " = ".toList ++ placeholder k) columns numbers) ++
    " WHERE ".toList ++ quoted idColumn ++ " = ".toList ++ placeholder idNumber

section
variable {V : Type}

/-- `row[column]`. -/
def getItem (row : Dict String V) (column : String) : Except Raised V :=
  match row.lookup column with
  | some v => .ok v
  | none => .error (.keyError column)

/-- The number of the first row whose keys are not the columns. -/
def firstDiffering (columns : List String) : Nat → List (Dict String V) → Option Nat
  | _, [] => none
  | i, row :: rows =>
    if (∀ k ∈ Dict.keys row, k ∈ columns) ∧ ∀ c ∈ columns, c ∈ Dict.keys row then
      firstDiffering columns (i + 1) rows
    else some i

/-- The tuples of placeholders of the rows from a row on. -/
def placeholdersFrom (numCols : Nat) : Nat → List (Dict String V) → List (List Char)
  | _, [] => []
  | i, _ :: rows =>
    tupleText ((List.range numCols).map fun j => i * numCols + j + 1) ::
      placeholdersFrom numCols (i + 1) rows

/-- `tag.split()`. -/
def tagParts (tag : List Char) : List (List Char) :=
  (Text.lines Text.isSpace tag).filter fun part => !part.isEmpty

def upsertBatch (conn : Connection V) (table : List Char) (rows : List (Dict String V))
    (conflictColumns : List String) (updateColumns : Option (List String)) : Outcome V Int :=
  match rows with
  | [] => ⟨.error (.valueError "rows must be non-empty"), []⟩
  | row :: rest =>
    let columns := Dict.keys row
    match firstDiffering columns 1 rest with
    | some i =>
      ⟨.error (.valueError ("Row " ++ toString i ++ " columns differ from row 0")), []⟩
    | none =>
      match (row :: rest).mapM fun r => columns.mapM (getItem r) with
      | .error e => ⟨.error e, []⟩
      | .ok values =>
        let sql := upsertText table columns (placeholdersFrom columns.length 0 (row :: rest))
          conflictColumns (updateColumns.getD [])
        let result := do
          let tag ← conn.execute sql values.flatten
          match (tagParts tag).getLast? with
          | none => pure 0
          | some part =>
            match conn.intOf part with
            | some n => pure n
            | none => throw (.valueError "invalid literal for int() with base 10")
        ⟨result, [(sql, values.flatten)]⟩

def insertOne (conn : Connection V) (table : String) (data : Dict String V) (returning : String) :
    Outcome V (Option V) :=
  if data = [] then ⟨.error (.valueError "insert_one: data must not be empty"), []⟩
  else
    let keys := (Dict.keys data).insertionSort (· ≤ ·)
    match keys.mapM (getItem data) with
    | .error e => ⟨.error e, []⟩
    | .ok values =>
      let sql := insertText table keys ((List.range keys.length).map (· + 1)) returning
      let result := do
        match ← conn.fetchrow sql values with
        | none | some [] => pure none
        | some row => some <$> getItem row returning
      ⟨result, [(sql, values)]⟩

def updateOne (conn : Connection V) (table : String) (id : V) (data : Dict String V)
    (idColumn : String) : Outcome V Bool :=
  if data = [] then ⟨.error (.valueError "update_one: data must not be empty"), []⟩
  else
    let keys := (Dict.keys data).insertionSort (· ≤ ·)
    match keys.mapM (getItem data) with
    | .error e => ⟨.error e, []⟩
    | .ok values =>
      let sql := updateText table keys ((List.range keys.length).map (· + 2)) idColumn 1
      let result := do
        let tag ← conn.execute sql (id :: values)
        match (tagParts tag).getLast? with
        | none => throw .indexError
        | some part => pure (part != ['0'])
      ⟨result, [(sql, id :: values)]⟩

def writeOne (conn : Connection V) (table : List Char) (data : Dict String V)
    (conflictOn : Option (List String)) : Outcome V Int :=
  upsertBatch conn table [data] (conflictOn.getD []) none

/-- The numbers of a tuple lead from each column to the value of the row in it. -/
def Bound (columns : List String) (row : Dict String V) (args : List V) (t : List Nat) : Prop :=
  t.length = columns.length ∧ ∀ (j : Nat) (c : String), columns[j]? = some c →
    ∃ k v, t[j]? = some k ∧ 1 ≤ k ∧ args[k - 1]? = some v ∧ row.lookup c = some v

/-- The tuples of a statement belong to the rows, and use each number once. -/
structure Binds (columns : List String) (rows : List (Dict String V)) (tuples : List (List Nat))
    (args : List V) : Prop where
  length : tuples.length = rows.length
  bound : ∀ (i : Nat) (row : Dict String V), rows[i]? = some row →
    ∃ t, tuples[i]? = some t ∧ Bound columns row args t
  numbers : tuples.flatten = (List.range (rows.length * columns.length)).map (· + 1)
  args : args.length = rows.length * columns.length

/-- The rows have the same keys. -/
def Consistent (rows : List (Dict String V)) : Prop :=
  ∀ row ∈ rows, ∀ other ∈ rows, ∀ k, k ∈ Dict.keys row ↔ k ∈ Dict.keys other

end

/-- An identifier as the grammar writes it: a quote inside it stands twice. -/
def identifier (name : String) : List Char :=
  '"' :: (name.toList.flatMap (fun c => if c = '"' then ['"', '"'] else [c]) ++ ['"'])

/-- An INSERT with an ON CONFLICT clause, the target of which may be left out. -/
structure Insert where
  table : List Char
  columns : List String
  tuples : List (List Nat)
  target : List String
  update : List String

/-- The text that the grammar has for an INSERT. -/
def Insert.text (ins : Insert) : List Char :=
  valuesText ins.table (ins.columns.map identifier) (ins.tuples.map tupleText) ++ onConflict ++
    (match ins.target with
      | [] => []
      | target => ['('] ++ joined (target.map identifier) ++ [')', ' ']) ++
    conflictAction (ins.update.map identifier)

/-- The names and lists that the grammar asks for; an update needs a target. -/
structure Insert.Valid (isTable : List Char → Prop) (ins : Insert) : Prop where
  table : isTable ins.table
  columns : ins.columns ≠ []
  names : ∀ c ∈ ins.columns ++ ins.target ++ ins.update, c ≠ "" ∧ '\x00' ∉ c.toList
  tuples : ins.tuples ≠ [] ∧ ∀ t ∈ ins.tuples, t.length = ins.columns.length
  updated : ins.update ≠ [] → ins.target ≠ []

/-- The INSERT that `write_one` is for. -/
def meant (table : List Char) (data : Dict String V) (conflictOn : Option (List String)) : Insert :=
  ⟨table, Dict.keys data, [(List.range data.length).map (· + 1)], conflictOn.getD [], []⟩

/-- What the statements of the module are to be, for a table, a row and a conflict target of
`write_one`. -/
structure Generates (V : Type) (isTable : List Char → Prop) (table : List Char)
    (data : Dict String V) (conflictOn : Option (List String)) : Prop where
  upsert : ∀ (conn : Connection V) (table : List Char) (rows : List (Dict String V))
    (conflictColumns : List String) (updateColumns : Option (List String)),
    rows ≠ [] → Consistent rows → ∃ columns tuples args,
      (upsertBatch conn table rows conflictColumns updateColumns).executed =
        [(upsertText table columns (tuples.map tupleText) conflictColumns (updateColumns.getD []),
          args)] ∧
      (∀ row ∈ rows, ∀ c, c ∈ columns ↔ c ∈ Dict.keys row) ∧ Binds columns rows tuples args
  insert : ∀ (conn : Connection V) (table : String) (data : Dict String V) (returning : String),
    data ≠ [] → ∃ columns numbers args,
      (insertOne conn table data returning).executed =
        [(insertText table columns numbers returning, args)] ∧
      columns.Perm (Dict.keys data) ∧ Binds columns [data] [numbers] args
  update : ∀ (conn : Connection V) (table : String) (id : V) (data : Dict String V)
    (idColumn : String), data ≠ [] → ∃ columns numbers args,
      (updateOne conn table id data idColumn).executed =
        [(updateText table columns numbers idColumn 1, args)] ∧
      columns.Perm (Dict.keys data) ∧ args[0]? = some id ∧ Bound columns data args numbers ∧
      (1 :: numbers) = (List.range args.length).map (· + 1)
  rejected : ∀ (conn : Connection V) (table : List Char) (rows : List (Dict String V))
    (conflictColumns : List String) (updateColumns : Option (List String)),
    rows = [] ∨ ¬ Consistent rows → ∃ message,
      upsertBatch conn table rows conflictColumns updateColumns =
        ⟨.error (.valueError message), []⟩
  wellFormed : ∀ conn : Connection V, ∃ args, (meant table data conflictOn).Valid isTable ∧
    (writeOne conn table data conflictOn).executed = [((meant table data conflictOn).text, args)]

theorem getElem?_flatten {m : Nat} {ls : List (List α)} (h : ∀ l ∈ ls, l.length = m) {i j : Nat}
    (hj : j < m) : ls.flatten[i * m + j]? = ls[i]?.bind fun l => l[j]? := by
  induction ls generalizing i with
  | nil => simp
  | cons l ls ih =>
    rw [List.forall_mem_cons] at h
    rw [List.flatten_cons]
    cases i with
    | zero =>
      rw [Nat.zero_mul, Nat.zero_add, List.getElem?_append_left (by omega)]
      rfl
    | succ i =>
      have hi : (i + 1) * m + j = m + (i * m + j) := by ring
      rw [hi, List.getElem?_append_right (by omega), h.1, Nat.add_sub_cancel_left, ih h.2]
      rfl

theorem length_flatten {m : Nat} {ls : List (List α)} (h : ∀ l ∈ ls, l.length = m) :
    ls.flatten.length = ls.length * m := by
  induction ls with
  | nil => simp
  | cons l ls ih =>
    rw [List.forall_mem_cons] at h
    rw [List.flatten_cons, List.length_append, h.1, ih h.2, List.length_cons]
    ring

/-- The numbers of the tuples from a row on. -/
def tuplesFrom (m : Nat) : Nat → Nat → List (List Nat)
  | _, 0 => []
  | i, n + 1 => ((List.range m).map fun j => i * m + j + 1) :: tuplesFrom m (i + 1) n

theorem placeholdersFrom_eq (m i : Nat) (rows : List (Dict String V)) :
    placeholdersFrom m i rows = (tuplesFrom m i rows.length).map tupleText := by
  induction rows generalizing i with
  | nil => rfl
  | cons row rows ih => rw [placeholdersFrom, ih, List.length_cons, tuplesFrom, List.map_cons]

theorem length_tuplesFrom (m i n : Nat) : (tuplesFrom m i n).length = n := by
  induction n generalizing i with
  | zero => rfl
  | succ n ih => rw [tuplesFrom, List.length_cons, ih]

theorem getElem?_tuplesFrom {m n k : Nat} (hk : k < n) (i : Nat) :
    (tuplesFrom m i n)[k]? = some ((List.range m).map fun j => (i + k) * m + j + 1) := by
  induction n generalizing i k with
  | zero => exact (Nat.not_lt_zero _ hk).elim
  | succ n ih =>
    cases k with
    | zero => rfl
    | succ k =>
      rw [tuplesFrom, List.getElem?_cons_succ, ih (Nat.lt_of_succ_lt_succ hk),
        show i + 1 + k = i + (k + 1) by omega]

theorem flatten_tuplesFrom (m i n : Nat) :
    (tuplesFrom m i n).flatten = (List.range (n * m)).map fun k => i * m + k + 1 := by
  induction n generalizing i with
  | zero => simp [tuplesFrom]
  | succ n ih =>
    have hn : (n + 1) * m = m + n * m := by ring
    rw [tuplesFrom, List.flatten_cons, ih, hn, List.range_add, List.map_append, List.map_map]
    congr 1
    apply List.map_congr_left
    intro k _
    rw [Function.comp]
    ring

theorem mapM_getItem {row : Dict String V} {columns : List String}
    (h : ∀ c ∈ columns, c ∈ Dict.keys row) :
    ∃ vs, columns.mapM (getItem row) = .ok vs ∧ vs.length = columns.length ∧
      ∀ (j : Nat) (c : String), columns[j]? = some c →
        ∃ v, vs[j]? = some v ∧ row.lookup c = some v := by
  induction columns with
  | nil => exact ⟨[], rfl, rfl, fun j c hj => (nomatch hj)⟩
  | cons c columns ih =>
    rw [List.forall_mem_cons] at h
    obtain ⟨v, hv⟩ := Dict.mem_keys_iff.1 h.1
    obtain ⟨vs, hvs, hlen, hget⟩ := ih h.2
    refine ⟨v :: vs, ?_, congrArg (· + 1) hlen, fun j d hj => ?_⟩
    · rw [List.mapM_cons, getItem, hv, hvs]
      rfl
    · cases j with
      | zero =>
        cases hj
        exact ⟨v, rfl, hv⟩
      | succ j => exact hget j d hj

theorem mapM_rows {rows : List (Dict String V)} {columns : List String}
    (h : ∀ row ∈ rows, ∀ c ∈ columns, c ∈ Dict.keys row) :
    ∃ vss, rows.mapM (fun r => columns.mapM (getItem r)) = .ok vss ∧ vss.length = rows.length ∧
      (∀ vs ∈ vss, vs.length = columns.length) ∧
      ∀ (i : Nat) (row : Dict String V), rows[i]? = some row → ∃ vs, vss[i]? = some vs ∧
        ∀ (j : Nat) (c : String), columns[j]? = some c →
          ∃ v, vs[j]? = some v ∧ row.lookup c = some v := by
  induction rows with
  | nil => exact ⟨[], rfl, rfl, fun vs hvs => (nomatch hvs), fun i row hi => (nomatch hi)⟩
  | cons row rows ih =>
    rw [List.forall_mem_cons] at h
    obtain ⟨vs, hvs, hlen, hget⟩ := mapM_getItem h.1
    obtain ⟨vss, hvss, hlens, hall, hrows⟩ := ih h.2
    refine ⟨vs :: vss, ?_, congrArg (· + 1) hlens, List.forall_mem_cons.2 ⟨hlen, hall⟩, ?_⟩
    · rw [List.mapM_cons, hvs, hvss]
      rfl
    · intro i r hi
      cases i with
      | zero =>
        cases hi
        exact ⟨vs, rfl, hget⟩
      | succ i => exact hrows i r hi

/-- Numbering the placeholders row by row binds the values row by row. -/
theorem binds_tuplesFrom {rows : List (Dict String V)} {columns : List String}
    {vss : List (List V)} (hlen : vss.length = rows.length)
    (hall : ∀ vs ∈ vss, vs.length = columns.length)
    (hrows : ∀ (i : Nat) (row : Dict String V), rows[i]? = some row → ∃ vs, vss[i]? = some vs ∧
      ∀ (j : Nat) (c : String), columns[j]? = some c →
        ∃ v, vs[j]? = some v ∧ row.lookup c = some v) :
    Binds columns rows (tuplesFrom columns.length 0 rows.length) vss.flatten := by
  refine ⟨length_tuplesFrom .., fun i row hi => ?_, ?_, ?_⟩
  · obtain ⟨vs, hvs, hget⟩ := hrows i row hi
    have hlt := (List.getElem?_eq_some_iff.1 hi).1
    refine ⟨_, getElem?_tuplesFrom hlt 0, ?_, fun j c hj => ?_⟩
    · rw [List.length_map, List.length_range]
    · obtain ⟨v, hv, hl⟩ := hget j c hj
      have hjlt := (List.getElem?_eq_some_iff.1 hj).1
      refine ⟨(0 + i) * columns.length + j + 1, v, ?_, Nat.le_add_left .., ?_, hl⟩
      · rw [List.getElem?_map, List.getElem?_range hjlt]
        rfl
      · rw [Nat.add_sub_cancel, Nat.zero_add, getElem?_flatten hall hjlt, hvs]
        exact hv
  · rw [flatten_tuplesFrom]
    simp
  · rw [length_flatten hall, hlen]

theorem firstDiffering_eq_none_iff {columns : List String} {rows : List (Dict String V)} {i : Nat} :
    firstDiffering columns i rows = none ↔
      ∀ row ∈ rows, ∀ k, k ∈ Dict.keys row ↔ k ∈ columns := by
  induction rows generalizing i with
  | nil => simp [firstDiffering]
  | cons row rows ih =>
    rw [firstDiffering, List.forall_mem_cons]
    by_cases h : (∀ k ∈ Dict.keys row, k ∈ columns) ∧ ∀ c ∈ columns, c ∈ Dict.keys row
    · rw [if_pos h, ih]
      exact (and_iff_right fun k => ⟨h.1 k, h.2 k⟩).symm
    · rw [if_neg h]
      refine ⟨fun h => (nomatch h), fun ⟨hk, _⟩ => (h ⟨?_, ?_⟩).elim⟩
      · exact fun k => (hk k).1
      · exact fun k => (hk k).2

theorem consistent_cons_iff {row : Dict String V} {rows : List (Dict String V)} :
    Consistent (row :: rows) ↔ ∀ r ∈ rows, ∀ k, k ∈ Dict.keys r ↔ k ∈ Dict.keys row := by
  constructor
  · exact fun h r hr => h r (.tail _ hr) row (.head _)
  · intro h
    have hrow (r : Dict String V) (hr : r ∈ row :: rows) (k : String) :
        k ∈ Dict.keys r ↔ k ∈ Dict.keys row := by
      rcases List.mem_cons.1 hr with rfl | hr
      · rfl
      · exact h r hr k
    exact fun r hr s hs k => (hrow r hr k).trans (hrow s hs k).symm

theorem upsertBatch_executed (conn : Connection V) (table : List Char) {row : Dict String V}
    {rest : List (Dict String V)} (hc : Consistent (row :: rest)) (conflictColumns : List String)
    (updateColumns : Option (List String)) : ∃ args,
      (upsertBatch conn table (row :: rest) conflictColumns updateColumns).executed =
        [(upsertText table (Dict.keys row)
          ((tuplesFrom (Dict.keys row).length 0 (row :: rest).length).map tupleText)
          conflictColumns (updateColumns.getD []), args)] ∧
      Binds (Dict.keys row) (row :: rest)
        (tuplesFrom (Dict.keys row).length 0 (row :: rest).length) args := by
  have hkeys := consistent_cons_iff.1 hc
  obtain ⟨vss, hvss, hlen, hall, hrows⟩ := @mapM_rows _ (row :: rest) (Dict.keys row) <| by
    intro r hr c hm
    exact (hc r hr row (.head _) c).2 hm
  refine ⟨vss.flatten, ?_, binds_tuplesFrom hlen hall hrows⟩
  rw [upsertBatch, firstDiffering_eq_none_iff.2 hkeys]
  dsimp only
  rw [hvss, placeholdersFrom_eq]

theorem upsertBatch_rejected (conn : Connection V) (table : List Char)
    {rows : List (Dict String V)} (h : rows = [] ∨ ¬ Consistent rows)
    (conflictColumns : List String) (updateColumns : Option (List String)) : ∃ message,
      upsertBatch conn table rows conflictColumns updateColumns =
        ⟨.error (.valueError message), []⟩ := by
  cases rows with
  | nil => exact ⟨_, rfl⟩
  | cons row rest =>
    have hc := h.resolve_left (List.cons_ne_nil row rest)
    cases hd : firstDiffering (Dict.keys row) 1 rest with
    | none => exact (hc (consistent_cons_iff.2 (firstDiffering_eq_none_iff.1 hd))).elim
    | some i =>
      rw [upsertBatch, hd]
      exact ⟨_, rfl⟩

theorem mem_sortedKeys {data : Dict String V} (c : String)
    (h : c ∈ (Dict.keys data).insertionSort (· ≤ ·)) : c ∈ Dict.keys data :=
  (List.perm_insertionSort ..).mem_iff.1 h

theorem insertOne_executed (conn : Connection V) (table : String) {data : Dict String V}
    (h : data ≠ []) (returning : String) : ∃ columns numbers args,
      (insertOne conn table data returning).executed =
        [(insertText table columns numbers returning, args)] ∧
      columns.Perm (Dict.keys data) ∧ Binds columns [data] [numbers] args := by
  obtain ⟨vs, hvs, hlen, hget⟩ := mapM_getItem (@mem_sortedKeys V data)
  have hb := @binds_tuplesFrom V [data] _ [vs] rfl (List.forall_mem_singleton.2 hlen) <| by
    intro i row hi
    cases i with
    | zero =>
      cases hi
      exact ⟨vs, rfl, hget⟩
    | succ i => cases hi
  have ht (m : Nat) : tuplesFrom m 0 [data].length = [(List.range m).map (· + 1)] := by
    simp [tuplesFrom]
  rw [ht, List.flatten_singleton] at hb
  refine ⟨_, _, vs, ?_, List.perm_insertionSort .., hb⟩
  rw [insertOne, if_neg h]
  dsimp only
  rw [hvs]

theorem updateOne_executed (conn : Connection V) (table : String) (id : V) {data : Dict String V}
    (h : data ≠ []) (idColumn : String) : ∃ columns numbers args,
      (updateOne conn table id data idColumn).executed =
        [(updateText table columns numbers idColumn 1, args)] ∧
      columns.Perm (Dict.keys data) ∧ args[0]? = some id ∧ Bound columns data args numbers ∧
      (1 :: numbers) = (List.range args.length).map (· + 1) := by
  obtain ⟨vs, hvs, hlen, hget⟩ := mapM_getItem (@mem_sortedKeys V data)
  refine ⟨(Dict.keys data).insertionSort (· ≤ ·),
    (List.range ((Dict.keys data).insertionSort (· ≤ ·)).length).map (· + 2), id :: vs, ?_,
    List.perm_insertionSort .., rfl, ⟨?_, fun j c hj => ?_⟩, ?_⟩
  · rw [updateOne, if_neg h]
    dsimp only
    rw [hvs]
  · rw [List.length_map, List.length_range]
  · obtain ⟨v, hv, hl⟩ := hget j c hj
    refine ⟨j + 2, v, ?_, by omega, hv, hl⟩
    rw [List.getElem?_map, List.getElem?_range (List.getElem?_eq_some_iff.1 hj).1]
    rfl
  · rw [List.length_cons, List.range_succ_eq_map, List.map_cons, List.map_map, hlen]
    rfl

/-- Doubling the quotes of a name makes it longer, unless there are none. -/
theorem length_identifier (name : String) : (quoted name).length ≤ (identifier name).length ∧
    ((identifier name).length = (quoted name).length → '"' ∉ name.toList) := by
  have hgo (cs : List Char) :
      cs.length ≤ (cs.flatMap fun c => if c = '"' then ['"', '"'] else [c]).length ∧
        ((cs.flatMap fun c => if c = '"' then ['"', '"'] else [c]).length = cs.length →
          '"' ∉ cs) := by
    induction cs with
    | nil => exact ⟨Nat.le_refl 0, fun _ h => (nomatch h)⟩
    | cons c cs ih =>
      rw [List.flatMap_cons, List.length_append, List.length_cons]
      by_cases hc : c = '"'
      · rw [if_pos hc, List.length_cons, List.length_singleton]
        exact ⟨by omega, fun h => by omega⟩
      · rw [if_neg hc, List.length_singleton]
        refine ⟨by omega, fun h => ?_⟩
        rw [List.mem_cons, not_or]
        exact ⟨fun he => hc he.symm, ih.2 (by omega)⟩
  obtain ⟨hle, heq⟩ := hgo name.toList
  rw [quoted, identifier, List.length_cons, List.length_cons, List.length_append,
    List.length_append]
  exact ⟨by omega, fun h => heq (by omega)⟩

theorem identifier_of_not_mem {name : String} (h : '"' ∉ name.toList) :
    identifier name = quoted name := by
  have hgo (cs : List Char) (hcs : '"' ∉ cs) :
      (cs.flatMap fun c => if c = '"' then ['"', '"'] else [c]) = cs := by
    induction cs with
    | nil => rfl
    | cons c cs ih =>
      rw [List.mem_cons, not_or] at hcs
      rw [List.flatMap_cons, if_neg (Ne.symm hcs.1), ih hcs.2]
      rfl
  rw [identifier, hgo _ h]
  rfl

theorem length_joined (names : List String) :
    (joined (names.map quoted)).length ≤ (joined (names.map identifier)).length ∧
      ((joined (names.map identifier)).length = (joined (names.map quoted)).length →
        ∀ c ∈ names, '"' ∉ c.toList) := by
  induction names with
  | nil => exact ⟨Nat.le_refl 0, fun _ c hc => (nomatch hc)⟩
  | cons name names ih =>
    obtain ⟨hle, heq⟩ := length_identifier name
    cases names with
    | nil =>
      rw [List.forall_mem_singleton]
      simpa [joined] using ⟨hle, heq⟩
    | cons next names =>
      have hcons (f : String → List Char) : (joined ((name :: next :: names).map f)).length =
          (f name).length + 2 + (joined ((next :: names).map f)).length := by
        rw [List.map_cons, List.map_cons, joined, List.intercalate_cons_cons, ← joined,
          List.length_append, List.length_append]
        rfl
      rw [hcons, hcons, List.forall_mem_cons]
      exact ⟨by omega, fun h => ⟨heq (by omega), ih.2 (by omega)⟩⟩

theorem onConflict_ne (as bs : List Char) : as ++ [')', ' '] ≠ bs ++ onConflict := by
  intro h
  have hlast := congrArg (fun l => l.reverse[1]?) h
  simp [onConflict] at hlast

/-- Names in plain quotes stand for identifiers when there are no quotes in them. -/
theorem append_quoted_iff (opening values action : List Char) (columns target : List String) :
    opening ++ joined (columns.map quoted) ++ values ++ onConflict ++ ['('] ++
          joined (target.map quoted) ++ [')', ' '] ++ action =
        opening ++ joined (columns.map identifier) ++ values ++ onConflict ++
          (match target with
            | [] => []
            | target => ['('] ++ joined (target.map identifier) ++ [')', ' ']) ++ action ↔
      target ≠ [] ∧ ∀ c ∈ columns ++ target, '"' ∉ c.toList := by
  rw [List.forall_mem_append]
  cases target with
  | nil =>
    refine ⟨fun h => ?_, fun h => (h.1 rfl).elim⟩
    have hc := List.append_cancel_right h
    rw [List.append_nil] at hc
    exact (onConflict_ne _ _ hc).elim
  | cons c target =>
    obtain ⟨hcl, hce⟩ := length_joined columns
    obtain ⟨htl, hte⟩ := length_joined (c :: target)
    constructor
    · intro h
      have hl := congrArg List.length h
      simp only [List.length_append] at hl
      exact ⟨List.cons_ne_nil c target, hce (by omega), hte (by omega)⟩
    · rintro ⟨-, hc, ht⟩
      have hmap {names : List String} (h : ∀ d ∈ names, '"' ∉ d.toList) :
          names.map identifier = names.map quoted :=
        List.map_congr_left fun d hd => identifier_of_not_mem (h d hd)
      dsimp only
      rw [hmap hc, hmap ht]
      simp only [List.append_assoc]

/-- The statement of `write_one` is what the grammar has for the INSERT that it is for. -/
theorem upsertText_eq_iff (table : List Char) (columns target : List String)
    (tuples : List (List Nat)) :
    upsertText table columns (tuples.map tupleText) target [] =
        (Insert.mk table columns tuples target []).text ↔
      target ≠ [] ∧ ∀ c ∈ columns ++ target, '"' ∉ c.toList := by
  have h := append_quoted_iff
    (['I', 'N', 'S', 'E', 'R', 'T', ' ', 'I', 'N', 'T', 'O', ' '] ++ table ++ [' ', '('])
    ([')', ' ', 'V', 'A', 'L', 'U', 'E', 'S', ' '] ++ joined (tuples.map tupleText)) doNothing
    columns target
  rw [← h, upsertText, Insert.text, valuesText, valuesText, List.map_nil, List.map_nil,
    conflictAction]
  simp only [List.append_assoc]

/-- The names that can be put between quotes as they are. -/
def Quotable (name : String) : Prop := name ≠ "" ∧ '"' ∉ name.toList ∧ '\x00' ∉ name.toList

theorem writeOne_executed (conn : Connection V) (table : List Char) (data : Dict String V)
    (conflictOn : Option (List String)) : ∃ args,
      (writeOne conn table data conflictOn).executed =
        [(upsertText table (Dict.keys data) ([(List.range data.length).map (· + 1)].map tupleText)
          (conflictOn.getD []) [], args)] := by
  have hc : Consistent [data] := by
    intro row hr other ho k
    rw [List.mem_singleton.1 hr, List.mem_singleton.1 ho]
  obtain ⟨args, he, -⟩ := upsertBatch_executed conn table hc (conflictOn.getD []) none
  have ht : tuplesFrom (Dict.keys data).length 0 [data].length =
      [(List.range data.length).map (· + 1)] := by
    simp [tuplesFrom, Dict.keys]
  rw [ht] at he
  exact ⟨args, he⟩

theorem meant_valid_iff (isTable : List Char → Prop) (table : List Char) (data : Dict String V)
    (conflictOn : Option (List String)) : (meant table data conflictOn).Valid isTable ↔
      isTable table ∧ data ≠ [] ∧
        ∀ c ∈ Dict.keys data ++ conflictOn.getD [], c ≠ "" ∧ '\x00' ∉ c.toList := by
  constructor
  · intro h
    refine ⟨h.table, ?_, fun c hc => h.names c (List.mem_append_left _ hc)⟩
    rintro rfl
    exact h.columns rfl
  · rintro ⟨ht, hd, hn⟩
    refine ⟨ht, ?_, ?_, ⟨List.cons_ne_nil _ _, ?_⟩, fun h => (h rfl).elim⟩
    · rw [meant, Ne, Dict.keys, List.map_eq_nil_iff]
      exact hd
    · intro c hc
      rcases List.mem_append.1 hc with hc | hc
      · exact hn c hc
      · cases hc
    · rw [meant, List.forall_mem_singleton, List.length_map, List.length_range, Dict.keys,
        List.length_map]

/-- The statements come out right, but those of `write_one` only with a conflict target. -/
theorem generates_iff (V : Type) (isTable : List Char → Prop) (table : List Char)
    (data : Dict String V) (conflictOn : Option (List String)) :
    Generates V isTable table data conflictOn ↔
      isTable table ∧ data ≠ [] ∧ conflictOn.getD [] ≠ [] ∧
        ∀ c ∈ Dict.keys data ++ conflictOn.getD [], Quotable c := by
  have htext := upsertText_eq_iff table (Dict.keys data) (conflictOn.getD [])
    [(List.range data.length).map (· + 1)]
  have hvalid := meant_valid_iff isTable table data conflictOn
  constructor
  · intro h
    obtain ⟨args, hv, he⟩ := h.wellFormed ⟨fun _ _ => .error .database,
      fun _ _ => .error .database, fun _ => none⟩
    obtain ⟨args', hw⟩ := writeOne_executed ⟨fun _ _ => .error .database,
      fun _ _ => .error .database, fun _ => none⟩ table data conflictOn
    rw [hw, List.cons.injEq, Prod.mk.injEq] at he
    obtain ⟨htarget, hquotes⟩ := htext.1 he.1.1
    obtain ⟨ht, hd, hn⟩ := hvalid.1 hv
    exact ⟨ht, hd, htarget, fun c hc => ⟨(hn c hc).1, hquotes c hc, (hn c hc).2⟩⟩
  · rintro ⟨ht, hd, htarget, hnames⟩
    refine ⟨?_, fun conn table data returning h => insertOne_executed conn table h returning,
      fun conn table id data idColumn h => updateOne_executed conn table id h idColumn, ?_,
      fun conn => ?_⟩
    · intro conn table rows conflictColumns updateColumns hne hc
      obtain ⟨row, rest, rfl⟩ := List.exists_cons_of_ne_nil hne
      obtain ⟨args, he, hb⟩ := upsertBatch_executed conn table hc conflictColumns updateColumns
      exact ⟨_, _, args, he, fun r hr c => hc row (.head _) r hr c, hb⟩
    · exact fun conn table rows conflictColumns updateColumns h =>
        upsertBatch_rejected conn table h conflictColumns updateColumns
    · obtain ⟨args, hw⟩ := writeOne_executed conn table data conflictOn
      refine ⟨args, hvalid.2 ⟨ht, hd, fun c hc => ⟨(hnames c hc).1, (hnames c hc).2.2⟩⟩, ?_⟩
      rw [hw, htext.2 ⟨htarget, fun c hc => (hnames c hc).2.1⟩]
      rfl

/-- Without a conflict target `write_one` makes no statement. -/
theorem no_target_malformed :
    ¬ Generates Nat (fun table => table ≠ []) ['t'] [("name", 1)] none := by
  intro h
  obtain ⟨args, -, he⟩ := h.wellFormed ⟨fun _ _ => .error .database,
    fun _ _ => .error .database, fun _ => none⟩
  have htexts : (writeOne (V := Nat) ⟨fun _ _ => .error .database, fun _ _ => .error .database,
      fun _ => none⟩ ['t'] [("name", 1)] none).executed.map Prod.fst =
      [(meant ['t'] [("name", 1)] none).text] := by
    rw [he]
    rfl
  revert htexts
  decide +kernel

end Obase.Persistence
