import Mathlib.Logic.Function.Basic
import Obase.Builtins
import Obase.HashChain
import Obase.Json.Loads

namespace Obase.LoopEventStore
set_option autoImplicit true
open Json Text

def eventSchemaVersion : Int := 1

def genesis : String := "genesis"

/-- An event row in memory, before it is written. -/
abbrev Row (F : Type) := Dict (Key F) (Value (Key F) F)

/-- A decoded value as a value in memory. -/
def ofJson (v : Json F) : Value (Key F) F := v.mapKeys .str

/-- The text of `str(uuid.uuid4())`. -/
structure EventId where
  text : String
  hexDigits : ∀ c ∈ text.toList, c.isDigit = true ∨ ('a' ≤ c ∧ c ≤ 'f') ∨ c = '-'

/-- The arguments of one `append` call, with the uuid and the clock reading it draws. -/
structure Call (F : Type) where
  eventType : String
  payload : Option (Dict (Key F) (Value (Key F) F))
  dedupeId : Option String
  eventId : EventId
  ts : F

/-- `payload or {}`. -/
def Call.body (c : Call F) : Value (Key F) F := .dict (c.payload.getD [])

section
variable [Builtins F] (sha256Hash : List UInt8 → List UInt8)

/-- What `_line_hash` digests, `none` where two keys of the payload do not compare. -/
def hashText [DictKey κ] (prevHash seq eventId : Json F) (ts : PyFloat F) (eventType : Json F)
    (payload : Value κ F) : Option (List Char) :=
  (dumpsSorted payload).map fun body =>
    format prevHash ++ '|' :: (format seq ++ '|' :: (format eventId ++ '|' ::
      (floatStr ts ++ '|' :: (format eventType ++ '|' :: body))))

def lineHash [DictKey κ] (prevHash seq eventId : Json F) (ts : PyFloat F) (eventType : Json F)
    (payload : Value κ F) : Option String :=
  (hashText prevHash seq eventId ts eventType payload).map fun raw => hex (sha256Hash (utf8 raw))

def makeRow (schemaVersion : Int) (c : Call F) (seq prevHash : Json F) :
    Except PyError (Row F) :=
  match lineHash sha256Hash prevHash seq (.str c.eventId.text) (.finite c.ts) (.str c.eventType)
    c.body with
  | none => .error .typeError
  | some h =>
    .ok ([(.str "v", .int schemaVersion),
      (.str "seq", ofJson seq),
      (.str "id", .str c.eventId.text),
      (.str "ts", .float (.finite c.ts)),
      (.str "type", .str c.eventType),
      (.str "payload", c.body),
      (.str "prev_hash", ofJson prevHash)] ++
      (match c.dedupeId with
        | some d => [(.str "dedupe_id", .str d)]
        | none => []) ++
      [(.str "hash", .str h)])

/-- Why `_verify_rows` rejects a row. -/
inductive RowError where
  | fields (e : PyError)
  | schema (ver store : Int)
  | prevHash (seq : Int)
  | seq (expected got : Int)
  | hash (seq : Int)
deriving DecidableEq

inductive LoopStoreError where
  | malformedLine (lineNo : Nat) (line : List Char)
  | row (lineNo : Nat) (e : RowError)
  | malformed (path : String) (line : List Char)
  | migrateDown (target : Int)
  | noMigration (ver : Int)
deriving DecidableEq

def RowError.text (F : Type) [Builtins F] : RowError → String
  | .fields e => "missing/invalid fields (" ++ Builtins.excText F e ++ ")"
  | .schema ver store => "schema v" ++ ver.repr ++ " != store v" ++ store.repr
  | .prevHash n => "prev_hash mismatch (chain broken at seq " ++ n.repr ++ ")"
  | .seq expected got =>
    "seq discontinuity (expected " ++ expected.repr ++ ", got " ++ got.repr ++ ")"
  | .hash n => "hash mismatch (payload tampered at seq " ++ n.repr ++ ")"

def LoopStoreError.text (F : Type) [Builtins F] : LoopStoreError → String
  | .malformedLine n l => "malformed line " ++ n.repr ++ ": " ++ Builtins.decodeErrorText F l
  | .row n e => "line " ++ n.repr ++ ": " ++ e.text F
  | .malformed path l => "malformed line in " ++ path ++ ": " ++ Builtins.decodeErrorText F l
  | .migrateDown target => "cannot migrate down to v" ++ target.repr
  | .noMigration ver =>
    "no migration registered from v" ++ ver.repr ++ " to v" ++ (ver + 1).repr

/-- What a store operation raises. -/
inductive Raised where
  | py (e : PyError)
  | store (e : LoopStoreError)

/-- The fields that `_verify_rows` takes from a row. -/
structure Fields (F : Type) where
  ver : Int
  seq : Int
  eventId : Json F
  ts : PyFloat F
  eventType : Json F
  payload : Json F
  storedHash : Json F
  storedPrev : Json F

def fields (row : Json F) : Except PyError (Fields F) := do
  let ver ← (← row.getItem "v").toInt
  let seq ← (← row.getItem "seq").toInt
  let eventId ← row.getItem "id"
  let ts ← (← row.getItem "ts").toFloat
  let eventType ← row.getItem "type"
  let payload ← row.getD "payload" (.dict [])
  let storedHash ← row.getItem "hash"
  let storedPrev ← row.getD "prev_hash" (.str "")
  return { ver, seq, eventId, ts, eventType, payload, storedHash, storedPrev }

/-- The value is this string. -/
def isStr (v : Json F) (s : String) : Bool :=
  match v with
  | .str t => t == s
  | _ => false

/-- The exceptions that `_verify_rows` turns into a failed result. -/
def PyError.caught : PyError → Bool
  | .keyError _ | .typeError | .valueError => true
  | .attributeError | .overflowError => false

/-- One turn of the loop of `_verify_rows`: the hash and the seq the next row is held against. -/
def verifyRow (schemaVersion : Int) (prevHash : String) (prevSeq : Int) (row : Json F) :
    Except PyError (Except RowError (String × Int)) :=
  match fields row with
  | .error e => if PyError.caught e then .ok (.error (.fields e)) else .error e
  | .ok f =>
    if f.ver ≠ schemaVersion then .ok (.error (.schema f.ver schemaVersion))
    else if !isStr f.storedPrev prevHash then .ok (.error (.prevHash f.seq))
    else if f.seq ≠ prevSeq + 1 then .ok (.error (.seq (prevSeq + 1) f.seq))
    else
      match lineHash sha256Hash (.str prevHash) (.int f.seq) f.eventId f.ts f.eventType
        f.payload with
      | none => .error .typeError
      | some h => if isStr f.storedHash h then .ok (.ok (h, f.seq)) else .ok (.error (.hash f.seq))

def verifyLoop (schemaVersion : Int) :
    Nat → String → Int → List (Json F) → Except PyError (Option (Nat × RowError))
  | _, _, _, [] => .ok none
  | i, prevHash, prevSeq, row :: rows =>
    match verifyRow sha256Hash schemaVersion prevHash prevSeq row with
    | .error e => .error e
    | .ok (.error e) => .ok (some (i, e))
    | .ok (.ok (h, seq)) => verifyLoop schemaVersion (i + 1) h seq rows

structure VerifyResult (F : Type) where
  ok : Bool
  count : Nat
  error : Option LoopStoreError
  lineNo : Option Nat
  firstSeq : Option (Json F)
  lastSeq : Option (Json F)

def seqOf (row : Json F) : Option (Json F) := (row.getItem "seq").toOption

def verifyRows (schemaVersion : Int) (rows : List (Json F)) :
    Except PyError (VerifyResult F) :=
  match verifyLoop sha256Hash schemaVersion 1 genesis 0 rows with
  | .error e => .error e
  | .ok (some (i, e)) => .ok ⟨false, 0, some (.row i e), some i, none, none⟩
  | .ok none =>
    .ok ⟨true, rows.length, none, none, rows.head?.bind seqOf, rows.getLast?.bind seqOf⟩

end

/-- One instance of the store: what it was constructed with and its dedupe cache. -/
structure Store (F : Type) where
  schemaVersion : Int
  dedupeMap : Option (Dict String (Row F))

/-- One event file and the store instances that work on it. -/
structure World (F : Type) where
  file : Option (List Char)
  stores : Nat → Store F

def World.text (w : World F) : List Char := w.file.getD []

section
variable [Builtins F]

def readLines : Nat → List (List Char) → Except LoopStoreError (List (Json F))
  | _, [] => .ok []
  | n, l :: ls =>
    if (strip l).isEmpty then readLines (n + 1) ls
    else
      match loads (strip l) with
      | none => .error (.malformedLine n (strip l))
      | some row => (readLines (n + 1) ls).map fun rows => row :: rows

/-- `_read_all`: the lines of the file as a text file yields them. -/
def readAll (text : List Char) : Except LoopStoreError (List (Json F)) :=
  readLines 1 (lines isNewline (universalNewlines text))

/-- `_read_head`: the last of the lines as `str.splitlines` yields them. -/
def readHead (text : List Char) : Option (Json F) :=
  (splitlines (strip (universalNewlines text))).getLast?.bind loads

def count (text : List Char) : Nat := (splitlines text).countP notBlank

def verify (sha256Hash : List UInt8 → List UInt8) (schemaVersion : Int)
    (text : List Char) : Except PyError (VerifyResult F) :=
  match readAll text with
  | .error e => .ok ⟨false, 0, some e, none, none, none⟩
  | .ok rows => verifyRows sha256Hash schemaVersion rows

def replay (sha256Hash : List UInt8 → List UInt8) (schemaVersion : Int) (text : List Char) :
    Except Raised (List (Json F)) :=
  match readAll text with
  | .error e => .error (.store e)
  | .ok rows =>
    match verifyRows sha256Hash schemaVersion rows with
    | .error e => .error (.py e)
    | .ok r =>
      match r.error with
      | some e => .error (.store e)
      | none => .ok rows

/-- The scan of `_find_dedupe` over the lines of the file. What it has put into the map when a
line stops it stays there. A key that is no string is never looked up and is left out. -/
def loadDedupe (m : Dict String (Row F)) : List (List Char) → Dict String (Row F) × Option PyError
  | [] => (m, none)
  | l :: ls =>
    if (strip l).isEmpty then loadDedupe m ls
    else
      match loads (strip l) with
      | none => loadDedupe m ls
      | some (.dict row) =>
        match row.lookup "dedupe_id" with
        | some (.str did) => loadDedupe (m.set did (Value.mapKeysMembers .str row)) ls
        | some (.list _) | some (.dict _) => (m, some .typeError)
        | _ => loadDedupe m ls
      | some _ => (m, some .attributeError)

/-- `_find_dedupe`: the cache it leaves, and the row it returns. -/
def findDedupe (cache : Option (Dict String (Row F))) (text : List Char) (dedupeId : String) :
    Dict String (Row F) × Except PyError (Option (Row F)) :=
  match cache with
  | some m => (m, .ok (m.lookup dedupeId))
  | none =>
    match loadDedupe [] (splitlines text) with
    | (m, some e) => (m, .error e)
    | (m, none) => (m, .ok (m.lookup dedupeId))

/-- `prev_seq` and `prev_hash` of the next row. -/
def headLink (head : Option (Json F)) : Except PyError (Json F × Json F) :=
  match head with
  | none => .ok (.int 0, .str genesis)
  | some row =>
    if row.truthy then do
      let seq ← row.getItem "seq"
      let hash ← row.getItem "hash"
      return (seq, hash)
    else .ok (.int 0, .str genesis)

/-- The line that `append` writes. -/
def rowText (row : Row F) : List Char := dumps .default (keyTexts (.dict row))

/-- The row that `append` makes of a call once it is not a duplicate. -/
def nextRow (sha256Hash : List UInt8 → List UInt8) (schemaVersion : Int) (text : List Char)
    (c : Call F) : Except PyError (Row F) := do
  let (prevSeq, prevHash) ← headLink (readHead text)
  let seq ← prevSeq.addOne
  makeRow sha256Hash schemaVersion c seq prevHash

/-- `append` under the exclusive lock, whose opening has created the file. -/
def World.append (sha256Hash : List UInt8 → List UInt8) (w : World F) (i : Nat) (c : Call F) :
    World F × Except PyError (Row F) :=
  let s := w.stores i
  let found : Option (Dict String (Row F)) × Except PyError (Option (Row F)) :=
    match c.dedupeId with
    | none => (s.dedupeMap, .ok none)
    | some d => ((some (findDedupe s.dedupeMap w.text d).1), (findDedupe s.dedupeMap w.text d).2)
  let w' : World F := ⟨some w.text, Function.update w.stores i ⟨s.schemaVersion, found.1⟩⟩
  match found.2 with
  | .error e => (w', .error e)
  | .ok (some row) => (w', .ok row)
  | .ok none =>
    match nextRow sha256Hash s.schemaVersion w.text c with
    | .error e => (w', .error e)
    | .ok row =>
      let cache :=
        match c.dedupeId with
        | none => found.1
        | some d => found.1.map fun m => m.set d row
      (⟨some (w.text ++ (rowText row ++ ['\n'])),
        Function.update w.stores i ⟨s.schemaVersion, cache⟩⟩, .ok row)

/-- A sequence of appends by instances, in the order in which they hold the lock; `none` when one
of them raises. -/
def World.appendAll (sha256Hash : List UInt8 → List UInt8) (w : World F) :
    List (Nat × Call F) → Option (World F × List (Row F))
  | [] => some (w, [])
  | (i, c) :: cs =>
    match w.append sha256Hash i c with
    | (_, .error _) => none
    | (w', .ok row) => (w'.appendAll sha256Hash cs).map fun p => (p.1, row :: p.2)

/-- An append without a dedupe id leaves every cache alone. -/
theorem World.append_of_none {sha256Hash : List UInt8 → List UInt8} (w : World F) (i : Nat)
    {c : Call F} (hd : c.dedupeId = none) :
    w.append sha256Hash i c =
      match nextRow sha256Hash (w.stores i).schemaVersion w.text c with
      | .error e => (⟨some w.text, w.stores⟩, .error e)
      | .ok row => (⟨some (w.text ++ (rowText row ++ ['\n'])), w.stores⟩, .ok row) := by
  simp only [World.append, hd, Function.update_eq_self]

theorem World.append_of_some {sha256Hash : List UInt8 → List UInt8} (w : World F) (i : Nat)
    {c : Call F} {d : String} (hd : c.dedupeId = some d) :
    w.append sha256Hash i c =
      let found := findDedupe (w.stores i).dedupeMap w.text d
      let loaded := Function.update w.stores i ⟨(w.stores i).schemaVersion, some found.1⟩
      match found.2 with
      | .error e => (⟨some w.text, loaded⟩, .error e)
      | .ok (some row) => (⟨some w.text, loaded⟩, .ok row)
      | .ok none =>
        match nextRow sha256Hash (w.stores i).schemaVersion w.text c with
        | .error e => (⟨some w.text, loaded⟩, .error e)
        | .ok row =>
          (⟨some (w.text ++ (rowText row ++ ['\n'])),
            Function.update w.stores i ⟨(w.stores i).schemaVersion, some (found.1.set d row)⟩⟩,
            .ok row) := by
  simp only [World.append, hd, Option.map_some]

end

open Json

theorem isStr_iff {v : Json F} {s : String} : isStr v s = true ↔ v = .str s := by
  cases v with
  | str t => simp [isStr]
  | null | bool | int | float | list | dict => simp [isStr]

section
variable [Builtins F] (sha256Hash : List UInt8 → List UInt8)

/-- The stored hash of a row. -/
def rowHash (row : Json F) : String :=
  match row.getItem "hash" with
  | .ok (.str h) => h
  | _ => ""

/-- The row is accepted behind a row of hash `p`, as the one with `i` rows before it. -/
def Link (schemaVersion : Int) (p : String) (i : Nat) (row : Json F) : Prop :=
  ∃ f h, fields row = .ok f ∧ f.ver = schemaVersion ∧ f.storedPrev = .str p ∧
    f.seq = i + 1 ∧ f.storedHash = .str h ∧
    lineHash sha256Hash (.str p) (.int f.seq) f.eventId f.ts f.eventType f.payload = some h

/-- The rows are a whole stream that `_verify_rows` accepts. -/
abbrev Verified (schemaVersion : Int) (rows : List (Json F)) : Prop :=
  HashChain.Chained (Link sha256Hash schemaVersion) rowHash genesis 0 rows

/-- Where each of the fields of a row comes from. -/
theorem fields_cases {row : Json F} {f : Fields F} (h : fields row = .ok f) :
    (∃ v, row.getItem "v" = .ok v ∧ v.toInt = .ok f.ver) ∧
      (∃ v, row.getItem "seq" = .ok v ∧ v.toInt = .ok f.seq) ∧
      row.getItem "id" = .ok f.eventId ∧
      (∃ v, row.getItem "ts" = .ok v ∧ v.toFloat = .ok f.ts) ∧
      row.getItem "type" = .ok f.eventType ∧
      row.getD "payload" (.dict []) = .ok f.payload ∧
      row.getItem "hash" = .ok f.storedHash ∧
      row.getD "prev_hash" (.str "") = .ok f.storedPrev := by
  obtain ⟨v, hv, h⟩ := bind_ok h
  obtain ⟨ver, hver, h⟩ := bind_ok h
  obtain ⟨s, hs, h⟩ := bind_ok h
  obtain ⟨seq, hseq, h⟩ := bind_ok h
  obtain ⟨eventId, hid, h⟩ := bind_ok h
  obtain ⟨t, ht, h⟩ := bind_ok h
  obtain ⟨ts, hts, h⟩ := bind_ok h
  obtain ⟨eventType, htype, h⟩ := bind_ok h
  obtain ⟨payload, hpay, h⟩ := bind_ok h
  obtain ⟨storedHash, hhash, h⟩ := bind_ok h
  obtain ⟨storedPrev, hprev, h⟩ := bind_ok h
  cases h
  exact ⟨⟨v, hv, hver⟩, ⟨s, hs, hseq⟩, hid, ⟨t, ht, hts⟩, htype, hpay, hhash, hprev⟩

theorem rowHash_of_fields {row : Json F} {f : Fields F} {h : String} (hf : fields row = .ok f)
    (hh : f.storedHash = .str h) : rowHash row = h := by
  obtain ⟨-, -, -, -, -, -, hhash, -⟩ := fields_cases hf
  rw [rowHash, hhash, hh]

variable {sha256Hash}

theorem verifyRow_ok_iff {schemaVersion : Int} {p : String} {i : Nat} {row : Json F}
    {out : String × Int} :
    verifyRow sha256Hash schemaVersion p i row = .ok (.ok out) ↔
      Link sha256Hash schemaVersion p i row ∧ out = (rowHash row, ((i + 1 : Nat) : Int)) := by
  constructor
  · intro h
    rw [verifyRow] at h
    cases hf : fields row with
    | error e =>
      rw [hf] at h
      dsimp only at h
      split at h <;> cases h
    | ok f =>
      rw [hf] at h
      dsimp only at h
      by_cases hv : f.ver = schemaVersion
      swap
      · rw [if_pos hv] at h
        cases h
      by_cases hp : isStr f.storedPrev p = true
      swap
      · simp [hv, hp] at h
      by_cases hs : f.seq = i + 1
      swap
      · simp [hv, hp, hs] at h
      rw [if_neg (not_not.2 hv), if_neg (by simp [hp]), if_neg (not_not.2 hs)] at h
      cases hh : lineHash sha256Hash (.str p) (.int f.seq) f.eventId f.ts f.eventType
          f.payload with
      | none =>
        rw [hh] at h
        cases h
      | some g =>
        rw [hh] at h
        dsimp only at h
        split at h
        · rename_i hg
          cases h
          refine ⟨⟨f, g, hf, hv, isStr_iff.1 hp, hs, isStr_iff.1 hg, hh⟩, ?_⟩
          rw [rowHash_of_fields hf (isStr_iff.1 hg), hs]
          rfl
        · cases h
  · rintro ⟨⟨f, g, hf, hv, hp, hs, hg, hh⟩, rfl⟩
    rw [verifyRow, hf]
    dsimp only
    rw [if_neg (not_not.2 hv), if_neg (by simp [isStr_iff.2 hp]), if_neg (not_not.2 hs), hh]
    dsimp only
    rw [if_pos (isStr_iff.2 hg), rowHash_of_fields hf hg, hs]
    rfl

theorem verifyLoop_none_iff {schemaVersion : Int} {n : Nat} {p : String} {i : Nat}
    {rows : List (Json F)} :
    verifyLoop sha256Hash schemaVersion n p i rows = .ok none ↔
      HashChain.Chained (Link sha256Hash schemaVersion) rowHash p i rows := by
  induction rows generalizing n p i with
  | nil => simp [verifyLoop, HashChain.Chained]
  | cons row rows ih =>
    rw [verifyLoop, HashChain.Chained]
    cases hr : verifyRow sha256Hash schemaVersion p i row with
    | error e =>
      have hl : ¬ Link sha256Hash schemaVersion p i row := by
        intro hl
        rw [verifyRow_ok_iff.2 ⟨hl, rfl⟩] at hr
        cases hr
      simp [hl]
    | ok out =>
      cases out with
      | error e =>
        have hl : ¬ Link sha256Hash schemaVersion p i row := by
          intro hl
          rw [verifyRow_ok_iff.2 ⟨hl, rfl⟩] at hr
          cases hr
        simp [hl]
      | ok out =>
        obtain ⟨hl, rfl⟩ := verifyRow_ok_iff.1 hr
        dsimp only
        rw [ih]
        exact (and_iff_right hl).symm

/-- `_verify_rows` reports ok of the verified streams only. -/
theorem verifyRows_ok_iff {schemaVersion : Int} {rows : List (Json F)} :
    (∃ r, verifyRows sha256Hash schemaVersion rows = .ok r ∧ r.ok = true) ↔
      Verified sha256Hash schemaVersion rows := by
  rw [Verified, ← verifyLoop_none_iff (n := 1), verifyRows]
  have h0 : ((0 : Nat) : Int) = 0 := rfl
  rw [h0]
  cases verifyLoop sha256Hash schemaVersion 1 genesis 0 rows with
  | error e => simp
  | ok o =>
    cases o with
    | none => simp
    | some e => simp

end
end Obase.LoopEventStore
