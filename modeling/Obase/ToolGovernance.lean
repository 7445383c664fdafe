import Obase.Redaction
import Obase.Replacement

namespace Obase.Redaction
set_option autoImplicit true
open Text (Clear)

/-- A stable reference to a credential. -/
structure CredentialRef where
  id : {s : String // Text.notBlank s.toList = true}
  provider : Option String
  version : Option Int
  scope : Option String

/-- A stable reference to a secret in a vault. -/
structure SecretRef where
  id : {s : String // Text.notBlank s.toList = true}
  version : Option Int
  scope : Option String

inductive Status where
  | completed
  | failed
  | denied

def Status.text : Status → String
  | .completed => "completed"
  | .failed => "failed"
  | .denied => "denied"

/-- A string or `None`. -/
def optional (s : Option String) : Json F := s.elim .null .str

def CredentialRef.toDict (r : CredentialRef) : Json F :=
  .dict [("type", .str "credential_ref"), ("id", .str r.id), ("provider", optional r.provider),
    ("version", r.version.elim .null .int), ("scope", optional r.scope)]

def SecretRef.toDict (r : SecretRef) : Json F :=
  .dict [("type", .str "secret_ref"), ("id", .str r.id), ("version", r.version.elim .null .int),
    ("scope", optional r.scope)]

/-- What crosses back from a tool; `error` is a mapping, if there is one. -/
structure ToolCallResult (κ F : Type) where
  status : Status
  requestId : String
  tool : String
  result : Payload κ F
  error : Option (List (κ × Payload κ F))
  executed : Bool
  ledgerRecorded : Bool
  credentialRef : Option (CredentialRef ⊕ SecretRef)

def ToolCallResult.errorPayload (r : ToolCallResult κ F) : Payload κ F :=
  r.error.elim .null .mapping

def ToolCallResult.toDict (U : Casing) (str : κ → String) (secrets : List String)
    (r : ToolCallResult κ F) : Json F :=
  .dict [("status", .str r.status.text), ("request_id", .str r.requestId), ("tool", .str r.tool),
    ("result", redactPayload U str secrets r.result),
    ("error", redactPayload U str secrets r.errorPayload), ("executed", .bool r.executed),
    ("ledger_recorded", .bool r.ledgerRecorded),
    ("credential_ref", r.credentialRef.elim .null (·.elim CredentialRef.toDict SecretRef.toDict))]

/-- A string is a value of a JSON value, at any depth. -/
inductive Shows : Json F → String → Prop where
  | here : Shows (.str s) s
  | item : v ∈ xs → Shows v s → Shows (.list xs) s
  | entry : (k, v) ∈ ms → Shows v s → Shows (.dict ms) s

/-- A string is a key of a JSON value, at any depth. -/
inductive Keys : Json F → String → Prop where
  | here : (k, v) ∈ ms → Keys (.dict ms) k
  | item : v ∈ xs → Keys v s → Keys (.list xs) s
  | entry : (k, v) ∈ ms → Keys v s → Keys (.dict ms) s

/-- An object of the type is in the payload, at any depth. -/
inductive Holds : Payload κ F → String → Prop where
  | here : Holds (.object typeName text) typeName
  | item : v ∈ xs → Holds v typeName → Holds (.sequence kind xs) typeName
  | entry : (k, v) ∈ items → Holds v typeName → Holds (.mapping items) typeName

/-- The text that stands for an object of a type. -/
def typeMarker (typeName : String) : String := "<" ++ typeName ++ ">"

section
variable {κ F : Type} {U : Casing} {str : κ → String} {secrets : List String} {s : String}

theorem mem_entries {items : List (κ × Payload κ F)} {k : String} {v : Payload κ F}
    (h : (k, v) ∈ entries str items) : ∃ k', (k', v) ∈ items := by
  obtain ⟨q, hq, he⟩ := Dict.mem_ofPairs h
  obtain ⟨⟨k', v'⟩, hp, rfl⟩ := List.mem_map.1 hq
  cases he
  exact ⟨k', hp⟩

theorem withoutSecrets_clear (hs : s ∈ secrets) (hc : Clear s.toList marker.toList)
    (value : String) : ¬ s.toList <:+: (withoutSecrets secrets value).toList := by
  have hne : s ≠ "" := fun he => hc.not_empty (String.toList_eq_nil_iff.2 he)
  have hm : s.toList ∈ (secrets.filter (· ≠ "")).map String.toList :=
    List.mem_map_of_mem (List.mem_filter.2 ⟨hs, decide_eq_true hne⟩)
  have hn := hc.not_infix_replaceAll hm value.toList
  rw [List.foldl_map] at hn
  rwa [withoutSecrets, String.toList_ofList]

/-- A secret that is clear of the markers is in no value of a payload that was redacted. -/
theorem redactPayload_clear (hs : s ∈ secrets) (hc : Clear s.toList marker.toList)
    {v : Payload κ F} (hv : ∀ n, Holds v n → ¬ s.toList <:+: (typeMarker n).toList) {t : String}
    (h : Shows (redactPayload U str secrets v) t) : ¬ s.toList <:+: t.toList := by
  generalize hj : redactPayload U str secrets v = j at h
  induction h generalizing v with
  | @here t =>
    cases v with
    | str value =>
      injection hj with hj
      rw [← hj]
      exact withoutSecrets_clear hs hc value
    | object n text =>
      injection hj with hj
      rw [← hj]
      exact hv n .here
    | mapping items =>
      rw [redactPayload, redact_mapping] at hj
      cases hj
    | null | bool | int | float | sequence => cases hj
  | @item w xs t hw hst ih =>
    cases v with
    | sequence kind ys =>
      rw [redactPayload, redact, redactList_eq] at hj
      injection hj with hj
      rw [← hj] at hw
      obtain ⟨y, hy, rfl⟩ := List.mem_map.1 hw
      exact ih (fun n hn => hv n (.item hy hn)) rfl
    | mapping items =>
      rw [redactPayload, redact_mapping] at hj
      cases hj
    | null | bool | int | float | str | object => cases hj
  | @entry k w ms t hw hst ih =>
    cases v with
    | mapping items =>
      rw [redactPayload, redact_mapping] at hj
      injection hj with hj
      rw [← hj] at hw
      obtain ⟨⟨k', u⟩, hu, he⟩ := List.mem_map.1 hw
      injection he with hk he
      dsimp only at he
      obtain ⟨k'', hu⟩ := mem_entries hu
      rw [redactEntry] at he
      split at he
      · subst he
        cases hst
        exact hc.outside
      · exact ih (fun n hn => hv n (.entry hu hn)) he
    | null | bool | int | float | str | object | sequence => cases hj

/-- Of the secrets that are given, each that is clear of the markers is in no value of a redacted
payload, and in no value of the result and the error that a call hands back. -/
theorem secrets_removed (hs : s ∈ secrets) (hc : Clear s.toList marker.toList) :
    (∀ v : Payload κ F, (∀ n, Holds v n → ¬ s.toList <:+: (typeMarker n).toList) →
      ∀ t, Shows (redactPayload U str secrets v) t → ¬ s.toList <:+: t.toList) ∧
    ∀ r : ToolCallResult κ F,
      (∀ n, Holds r.result n ∨ Holds r.errorPayload n → ¬ s.toList <:+: (typeMarker n).toList) →
      ∀ field ∈ ["result", "error"], ∀ j, child (r.toDict U str secrets) (.key field) = some j →
        ∀ t, Shows j t → ¬ s.toList <:+: t.toList := by
  refine ⟨fun v hv t => redactPayload_clear hs hc hv, fun r hr field hf j hj t ht => ?_⟩
  rw [List.mem_cons, List.mem_singleton] at hf
  obtain rfl | rfl := hf
  · cases hj
    exact redactPayload_clear hs hc (fun n hn => hr n (.inl hn)) ht
  · cases hj
    exact redactPayload_clear hs hc (fun n hn => hr n (.inr hn)) ht

end

/-- A secret is removed from a text in a list. -/
theorem secret_removed_text :
    Shows (redactPayload Casing.ascii id ["sk-1"]
      (.sequence .list [.str "key sk-1."] : Payload String WholeFloat)) "key [REDACTED]." ∧
    ∀ t, Shows (redactPayload Casing.ascii id ["sk-1"]
      (.sequence .list [.str "key sk-1."] : Payload String WholeFloat)) t →
        ¬ "sk-1".toList <:+: t.toList := by
  have ht : withoutSecrets ["sk-1"] "key sk-1." = "key [REDACTED]." := by decide +kernel
  have hc : Clear "sk-1".toList marker.toList :=
    Clear.of_disjoint (by decide) (by decide) (Text.forall_mem_of_all (by decide))
  refine ⟨.item (.head _) (ht ▸ .here), (secrets_removed (.head _) hc).1 _ fun n hn => ?_⟩
  cases hn with
  | item hm hn =>
    rw [List.mem_singleton.1 hm] at hn
    cases hn

/-- A secret that a mapping has for a key stays. -/
theorem secret_key_stays :
    Text.notBlank "sk-1".toList = true ∧ ¬ "sk-1".toList <:+: marker.toList ∧
      ¬ ∀ v : Payload String WholeFloat, ∀ t, Shows (redactPayload Casing.ascii id ["sk-1"] v) t ∨
        Keys (redactPayload Casing.ascii id ["sk-1"] v) t → ¬ "sk-1".toList <:+: t.toList := by
  refine ⟨by decide, by decide, fun h => ?_⟩
  have hk : Keys (redactPayload Casing.ascii id ["sk-1"]
      (.mapping [("sk-1", .int 1)] : Payload String WholeFloat)) "sk-1" :=
    .here (List.mem_singleton.2 rfl)
  exact h _ _ (.inr hk) List.infix_rfl

end Obase.Redaction
