import Obase.EvidenceLedger.Identity
import Obase.FirstKept

namespace Obase.EvidenceLedger
set_option autoImplicit true
open Json Text

/-- `record["evidence_id"]` of a record that was validated. -/
def evidenceIdOf (record : Obj F) : String :=
  match record with
  | .dict ms =>
    match field? ms "evidence_id" with
    | some (.str s) => s
    | _ => ""
  | _ => ""

/-- What `append_evidence_record` returns. -/
structure Appended where
  appended : Bool
  evidenceId : String
deriving DecidableEq

/-- An error inside a loop over the lines: those of JSON and of the records are caught there. -/
def atLine (lineNo : Nat) : EvidenceError → EvidenceError
  | .valueError => .valueError
  | .overflowError => .overflowError
  | e => .invalidRecord lineNo e

def fileLines (text : List Char) : List (List Char) := lines isNewline (universalNewlines text)

section
variable [FloatText F]

/-- The record of a line that is not blank, as both loops read it. -/
def readLine (L : Library T) (lineNo : Nat) (raw : List Char) : Except EvidenceError (Obj F) :=
  match loads raw with
  | none => .error (.invalidJson lineNo)
  | some v => (validateEvidenceRecord L (ofJson v)).mapError (atLine lineNo)

/-- The loop of `read_evidence_records`. -/
def readLines (L : Library T) : Nat → List String → List (List Char) →
    Except EvidenceError (List (Obj F))
  | _, _, [] => .ok []
  | lineNo, seen, raw :: rest =>
    if notBlank raw then do
      let record ← readLine L lineNo raw
      if evidenceIdOf record ∈ seen then readLines L (lineNo + 1) seen rest
      else do
        let records ← readLines L (lineNo + 1) (evidenceIdOf record :: seen) rest
        .ok (record :: records)
    else readLines L (lineNo + 1) seen rest

/-- The file is a text, or `none` if it does not exist. -/
def readEvidenceRecords (L : Library T) (file : Option (List Char)) :
    Except EvidenceError (List (Obj F)) :=
  match file with
  | none => .ok []
  | some text => readLines L 1 [] (fileLines text)

/-- The loop of `append_evidence_record`: the identities of the file. -/
def existingIds (F : Type) [FloatText F] (L : Library T) : Nat → List (List Char) →
    Except EvidenceError (List String)
  | _, [] => .ok []
  | lineNo, raw :: rest =>
    if notBlank raw then do
      let parsed ← readLine (F := F) L lineNo raw
      let ids ← existingIds F L (lineNo + 1) rest
      .ok (evidenceIdOf parsed :: ids)
    else existingIds F L (lineNo + 1) rest

/-- What one call returns or raises, and the file after it. -/
def appendEvidenceRecord (L : Library T) (record : Obj F) (file : Option (List Char)) :
    Except EvidenceError Appended × Option (List Char) :=
  match validateEvidenceRecord L record with
  | .error e => (.error e, file)
  | .ok verified =>
    match canonicalJson verified with
    | .error e => (.error e, file)
    | .ok serialized =>
      let text := file.getD []
      match existingIds F L 1 (fileLines text) with
      | .error e => (.error e, some text)
      | .ok existing =>
        if evidenceIdOf verified ∈ existing then (.ok ⟨false, evidenceIdOf verified⟩, some text)
        else (.ok ⟨true, evidenceIdOf verified⟩, some (text ++ serialized ++ ['\n']))

/-- The records of a line, if it has one that is accepted. -/
def LineHolds (L : Library T) (raw : List Char) (record : Obj F) : Prop :=
  ∃ v, loads raw = some v ∧ record = ofJson v ∧ validateEvidenceRecord L record = .ok record

/-- The records of all lines that are not blank, in their order. -/
def Holds (L : Library T) (ls : List (List Char)) (records : List (Obj F)) : Prop :=
  List.Forall₂ (LineHolds L) (ls.filter notBlank) records

end
end Obase.EvidenceLedger
