import Obase.EvidenceLedger.Ledger

namespace Obase.EvidenceLedger
set_option autoImplicit true
open Json Text

/-- What stands after the last line break of a file. -/
def lastLine (text : List Char) : List Char :=
  (universalNewlines text).rtakeWhile fun c => !isNewline c

theorem rdropWhile_terminated (cs : List Char) :
    (cs.rdropWhile fun c => !isNewline c) = [] ∨
      ∃ init, (cs.rdropWhile fun c => !isNewline c) = init ++ ['\n'] := by
  by_cases hne : (cs.rdropWhile fun c => !isNewline c) = []
  · exact .inl hne
  · have hl := List.rdropWhile_last_not (fun c => !isNewline c) cs hne
    have hn : isNewline ((cs.rdropWhile fun c => !isNewline c).getLast hne) = true := by
      simpa using hl
    refine .inr ⟨(cs.rdropWhile fun c => !isNewline c).dropLast, ?_⟩
    rw [← eq_of_beq hn, List.dropLast_append_getLast hne]

/-- A file is whole lines and the last one, which may be empty. -/
theorem lines_split (text : List Char) : ∃ body, universalNewlines text = body ++ lastLine text ∧
    ∀ cs, lines isNewline (body ++ cs) = lines isNewline body ++ lines isNewline cs := by
  refine ⟨(universalNewlines text).rdropWhile fun c => !isNewline c, ?_, ?_⟩
  · rw [lastLine, List.rdropWhile_append_rtakeWhile]
  · intro cs
    rcases rdropWhile_terminated (universalNewlines text) with he | ⟨init, he⟩
    · rw [he]
      rfl
    · rw [he, List.append_assoc, List.singleton_append, lines_append rfl]

theorem lastLine_no_newline (text : List Char) : ∀ c ∈ lastLine text, isNewline c = false := by
  intro c hc
  have hm := List.mem_rtakeWhile_imp hc
  simpa using hm

/-- A line that is written at the end of a file joins what the last line has already. -/
theorem fileLines_append (text : List Char) {line : List Char} (hne : line ≠ [])
    (hline : ∀ c ∈ line, 0x20 ≤ c.toNat) :
    ∃ before, fileLines text = before ++ lines isNewline (lastLine text) ∧
      fileLines (text ++ line ++ ['\n']) = before ++ [lastLine text ++ line] := by
  obtain ⟨body, hbody, hsplit⟩ := lines_split text
  have hcr : '\r' ∉ line ++ ['\n'] := by
    intro hm
    rcases List.mem_append.1 hm with hm | hm
    · exact absurd (hline _ hm) (by decide)
    · exact absurd hm (by decide)
  have hall : ∀ c ∈ lastLine text ++ line, isNewline c = false := by
    intro c hc
    rcases List.mem_append.1 hc with hc | hc
    · exact lastLine_no_newline text c hc
    · rw [Bool.eq_false_iff]
      intro he
      rw [eq_of_beq he] at hc
      exact absurd (hline _ hc) (by decide)
  have hh : (line ++ ['\n']).head? ≠ some '\n' := by
    obtain ⟨c, cs, rfl⟩ := List.exists_cons_of_ne_nil hne
    intro he
    cases he
    exact absurd (hline '\n' (.head _)) (by decide)
  refine ⟨lines isNewline body, ?_, ?_⟩
  · rw [fileLines, hbody, hsplit]
  · rw [fileLines, List.append_assoc, universalNewlines_append hh, universalNewlines_of_no_cr hcr,
      hbody, List.append_assoc, hsplit, ← List.append_assoc,
      lines_terminated (p := isNewline) hall rfl]
    rfl

/-- The last line of a file has nothing but blanks that JSON skips. -/
def EndsBlank (text : List Char) : Prop := ∀ c ∈ lastLine text, isWs c = true

section
variable [FloatText F] {L : Library T}

/-- `record["payload"]`. -/
def payloadOf (record : Obj F) : Obj F :=
  match record with
  | .dict ms => (field? ms "payload").getD .null
  | _ => .null

/-- The call writes nothing, or it writes a record that keeps its text on a blank last line. -/
def SafeCall (L : Library T) (file : Option (List Char)) (record : Obj F) : Prop :=
  ∀ existing, validateEvidenceRecord L record = .ok record →
    existingIds F L 1 (fileLines (file.getD [])) = .ok existing →
      evidenceIdOf record ∉ existing →
        EndsBlank (file.getD []) ∧ KeepsText L (payloadOf record)

/-- What `json.loads` makes of the text of a record. -/
def decodedRecord (record : Obj F) : Option (Obj F) :=
  (tree record).map fun u => ofJson u.build

/-- A call that raises leaves the file as it is. -/
theorem append_raised (record : Obj F) (file : Option (List Char)) {e : EvidenceError}
    (h : (appendEvidenceRecord L record file).1 = .error e) :
    (appendEvidenceRecord L record file).2 = file := by
  rw [appendEvidenceRecord] at h ⊢
  cases hv : validateEvidenceRecord L record with
  | error e' => rfl
  | ok verified =>
    rw [hv] at h
    dsimp only at h ⊢
    cases hc : canonicalJson verified with
    | error e' => rfl
    | ok serialized =>
      rw [hc] at h
      dsimp only at h ⊢
      cases hi : existingIds F L 1 (fileLines (file.getD [])) with
      | error e' =>
        cases file with
        | none => cases hi
        | some text => rfl
      | ok existing =>
        rw [hi] at h
        dsimp only at h
        split at h
        · cases h
        · cases h

/-- A Python object that `append_evidence_record` is called with: its dictionaries have each key
once. -/
structure Call (F : Type) where
  record : Obj F
  distinct : record.Distinct

/-- The file after the calls, in the order in which they take the lock. -/
def after (L : Library T) : Option (List Char) → List (Call F) → Option (List Char)
  | file, [] => file
  | file, call :: calls => after L (appendEvidenceRecord L call.record file).2 calls

def outcomes (L : Library T) :
    Option (List Char) → List (Call F) → List (Except EvidenceError Appended)
  | _, [] => []
  | file, call :: calls =>
    (appendEvidenceRecord L call.record file).1 ::
      outcomes L (appendEvidenceRecord L call.record file).2 calls

/-- The records that the calls add to the file, as they are read from it. -/
def appendedRecords (L : Library T) : Option (List Char) → List (Call F) → List (Obj F)
  | _, [] => []
  | file, call :: calls =>
    (match (appendEvidenceRecord L call.record file).1 with
      | .ok ⟨true, _⟩ => (decodedRecord call.record).toList
      | _ => []) ++ appendedRecords L (appendEvidenceRecord L call.record file).2 calls

def SafeRun (L : Library T) : Option (List Char) → List (Call F) → Prop
  | _, [] => True
  | file, call :: calls =>
    SafeCall L file call.record ∧ SafeRun L (appendEvidenceRecord L call.record file).2 calls

/-- What a run of calls promises to a reader of a ledger whose records are `old`. -/
structure LedgerContract (L : Library T) (file : Option (List Char)) (old : List (Obj F))
    (calls : List (Call F)) : Prop where
  read : readEvidenceRecords L (after L file calls) = .ok (old ++ appendedRecords L file calls)
  once : ((old ++ appendedRecords L file calls).map evidenceIdOf).Nodup
  first : ∃ all, Holds L (fileLines ((after L file calls).getD [])) all ∧
    ∀ i, (old ++ appendedRecords L file calls).find? (fun r => decide (evidenceIdOf r = i)) =
      all.find? fun r => decide (evidenceIdOf r = i)
  appended : ∀ (n : Nat) (a : Appended), (outcomes L file calls)[n]? = some (.ok a) →
    (a.appended = true ↔ a.evidenceId ∉ old.map evidenceIdOf ∧
      ∀ m < n, ∀ b : Appended, (outcomes L file calls)[m]? = some (.ok b) → b.evidenceId ≠ a.evidenceId)
  raised : ∀ (n : Nat) (e : EvidenceError), (outcomes L file calls)[n]? = some (.error e) →
    after L file (calls.take (n + 1)) = after L file (calls.take n)

theorem forall_outcome_succ {o : Except EvidenceError Appended}
    {outs : List (Except EvidenceError Appended)} {P : Appended → Prop} {n : Nat} :
    (∀ m < n + 1, ∀ b : Appended, (o :: outs)[m]? = some (.ok b) → P b) ↔
      (∀ b, o = .ok b → P b) ∧ ∀ m < n, ∀ b : Appended, outs[m]? = some (.ok b) → P b := by
  constructor
  · intro h
    exact ⟨fun b hb => h 0 (Nat.succ_pos n) b (congrArg some hb), fun m hm b hb =>
      h (m + 1) (Nat.succ_lt_succ hm) b hb⟩
  · rintro ⟨h₀, h⟩ m hm b hb
    cases m with
    | zero => exact h₀ b (Option.some.inj hb)
    | succ m => exact h m (Nat.lt_of_succ_lt_succ hm) b hb

/-- A call before a run that keeps the contract, by what it returns and adds. -/
theorem LedgerContract.cons {file file' : Option (List Char)} {old : List (Obj F)}
    (new : List (Obj F)) {call : Call F} {calls : List (Call F)} {o : Except EvidenceError Appended}
    (he : appendEvidenceRecord L call.record file = (o, file'))
    (hnew : appendedRecords L file (call :: calls) = new ++ appendedRecords L file' calls)
    (hc : LedgerContract L file' (old ++ new) calls)
    (ho : ∀ a, o = .ok a → (a.appended = true ↔ a.evidenceId ∉ old.map evidenceIdOf))
    (hids : ∀ i, i ∉ (old ++ new).map evidenceIdOf ↔
      i ∉ old.map evidenceIdOf ∧ ∀ a, o = .ok a → a.evidenceId ≠ i) :
    LedgerContract L file old (call :: calls) := by
  have hafter (cs : List (Call F)) : after L file (call :: cs) = after L file' cs := by
    rw [after, he]
  have hout : outcomes L file (call :: calls) = o :: outcomes L file' calls := by
    rw [outcomes, he]
  constructor
  · rw [hafter, hnew, ← List.append_assoc]
    exact hc.read
  · rw [hnew, ← List.append_assoc]
    exact hc.once
  · rw [hafter, hnew, ← List.append_assoc]
    exact hc.first
  · intro n a ha
    rw [hout] at ha ⊢
    cases n with
    | zero =>
      have hoa : o = .ok a := Option.some.inj ha
      rw [ho a hoa]
      exact (and_iff_left fun m hm => (Nat.not_lt_zero m hm).elim).symm
    | succ n =>
      rw [hc.appended n a ha, hids, forall_outcome_succ, and_assoc]
  · intro n e hn
    rw [hout] at hn
    cases n with
    | zero =>
      have hoe : o = .error e := Option.some.inj hn
      have hr := append_raised (L := L) call.record file (e := e)
        (by rw [he, hoe])
      rw [he] at hr
      rw [List.take_succ_cons, hafter, List.take_zero, List.take_zero, after, after]
      exact hr
    | succ n =>
      rw [List.take_succ_cons, List.take_succ_cons, hafter, hafter]
      exact hc.raised n e hn

theorem SafeRun.take {file : Option (List Char)} {calls : List (Call F)}
    (h : SafeRun L file calls) (n : Nat) : SafeRun L file (calls.take n) := by
  induction n generalizing file calls with
  | zero => exact trivial
  | succ n ih =>
    cases calls with
    | nil => exact trivial
    | cons call calls => exact ⟨h.1, ih h.2⟩

end

end Obase.EvidenceLedger
