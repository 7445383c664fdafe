import Obase.Concrete
import Obase.Json.Documents
import Obase.LoopEventStore.Log
import Obase.LoopEventStore.Store

namespace Obase.LoopEventStore
set_option autoImplicit true
open Json Text

/-- A registered upgrade of one row, which may raise. A row that has no key twice is upgraded to
one that has none. -/
structure Migration (F : Type) where
  upgrade : Dict String (Json F) → Except PyError (Dict String (Json F))
  distinct : ∀ row row', (Value.dict row).Distinct → upgrade row = .ok row' →
    (Value.dict row').Distinct

/-- `_MIGRATIONS`: the upgrade from each version. -/
abbrev Migrations (F : Type) := Int → Option (Migration F)

section
variable [Builtins F] (sha256Hash : List UInt8 → List UInt8) (path : String)
  (migrations : Migrations F)

/-- The loop `while ver < target`, which goes round `n` times, and how often it has upgraded. -/
def upgradeRow : Nat → Int → Dict String (Json F) → Except Raised (Dict String (Json F) × Nat)
  | 0, _, row => .ok (row, 0)
  | n + 1, ver, row =>
    match migrations ver with
    | none => .error (.store (.noMigration ver))
    | some m =>
      match m.upgrade row with
      | .error e => .error (.py e)
      | .ok row =>
        (upgradeRow n (ver + 1) (row.set "v" (.int (ver + 1)))).map fun p => (p.1, p.2 + 1)

/-- Set the `prev_hash` and the recomputed `hash` of a row. -/
def relink (prevHash : String) (row : Dict String (Json F)) :
    Except PyError (Dict String (Json F) × String) := do
  let row := row.set "prev_hash" (.str prevHash)
  let seq ← (← getItem (.dict row) "seq").toInt
  let eventId ← getItem (.dict row) "id"
  let ts ← (← getItem (.dict row) "ts").toFloat
  let eventType ← getItem (.dict row) "type"
  let payload ← getD (.dict row) "payload" (.dict [])
  match lineHash sha256Hash (.str prevHash) (.int seq) eventId ts eventType payload with
  | none => throw .typeError
  | some h => return (row.set "hash" (.str h), h)

/-- The part of the loop of `migrate` after a line has been decoded. -/
def migrateRow (target : Int) (prevHash : String) (row : Json F) :
    Except Raised (Dict String (Json F) × String × Nat) :=
  match row with
  | .dict ms =>
    match getD row "v" (.int 1) >>= toInt with
    | .error e => .error (.py e)
    | .ok ver =>
      match upgradeRow migrations (target - ver).toNat ver ms with
      | .error e => .error e
      | .ok (ms, n) =>
        match relink sha256Hash prevHash ms with
        | .error e => .error (.py e)
        | .ok (ms, h) => .ok (ms, h, n)
  | _ => .error (.py .attributeError)

def migrateLines (target : Int) :
    String → List (List Char) → Except Raised (List (Dict String (Json F)) × Nat)
  | _, [] => .ok ([], 0)
  | prevHash, l :: ls =>
    if !notBlank l then migrateLines target prevHash ls
    else
      match loads l with
      | none => .error (.store (.malformed path l))
      | some row =>
        match migrateRow sha256Hash migrations target prevHash row with
        | .error e => .error e
        | .ok (ms, h, n) =>
          (migrateLines target h ls).map fun p => (ms :: p.1, n + p.2)

/-- `target_version or self._schema_version`. -/
def migrateTarget (s : Store F) (targetVersion : Option Int) : Int :=
  match targetVersion with
  | none => s.schemaVersion
  | some t => if t = 0 then s.schemaVersion else t

def World.migrate (w : World F) (i : Nat) (targetVersion : Option Int) :
    World F × Except Raised Nat :=
  let s := w.stores i
  let target := migrateTarget s targetVersion
  if target < eventSchemaVersion then (w, .error (.store (.migrateDown target)))
  else
    match migrateLines sha256Hash path migrations target genesis (splitlines w.text) with
    | .error e => (⟨some w.text, w.stores⟩, .error e)
    | .ok (rows, n) =>
      (⟨some (fileText (rows.map Value.dict)),
        Function.update w.stores i ⟨s.schemaVersion, none⟩⟩, .ok n)

end

/-- The items of a row that are neither payload nor version. -/
def frame (row : Dict String (Json F)) (k : String) : Option (Json F) :=
  if k = "payload" ∨ k = "v" then none else row.lookup k

/-- `row.get("payload", {})`. -/
def payloadOf (row : Dict String (Json F)) : Json F := (row.lookup "payload").getD (.dict [])

/-- The registered migrations change nothing but payloads: the one from `ver` makes the new payload
`change ver` of the other items and of the old one. -/
structure PayloadOnly (migrations : Migrations F)
    (change : Int → (String → Option (Json F)) → Json F → Json F) : Prop where
  keeps : ∀ ver m row row', migrations ver = some m → m.upgrade row = .ok row' →
    ∀ k, k ≠ "payload" → row'.lookup k = row.lookup k
  payload : ∀ ver m row row', migrations ver = some m → m.upgrade row = .ok row' →
    payloadOf row' = change ver (frame row) (payloadOf row)

/-- The payload changes from `ver` on, `n` of them, one after another. -/
def composed (change : Int → (String → Option (Json F)) → Json F → Json F)
    (others : String → Option (Json F)) : Nat → Int → Json F → Json F
  | 0, _, v => v
  | n + 1, ver, v => composed change others n (ver + 1) (change ver others v)

/-- What `n` upgrades from `ver` make of a row. -/
structure Upgraded (change : Int → (String → Option (Json F)) → Json F → Json F) (n : Nat)
    (ver : Int) (row row' : Dict String (Json F)) : Prop where
  keeps : ∀ k, k ≠ "payload" → k ≠ "v" → row'.lookup k = row.lookup k
  version : row'.lookup "v" = if n = 0 then row.lookup "v" else some (.int (ver + n))
  payload : payloadOf row' = composed change (frame row) n ver (payloadOf row)
  distinct : (Value.dict row).Distinct → (Value.dict row').Distinct

theorem distinct_set {row : Dict String (Json F)} {k : String} {v : Json F}
    (h : (Value.dict row).Distinct) (hv : v.Distinct) : (Value.dict (row.set k v)).Distinct := by
  refine ⟨Dict.Distinct.set h.1 k v, Value.distinctMembers_iff.2 ?_⟩
  intro p hp
  rcases Dict.mem_set hp with he | hm
  · rw [he]
    exact hv
  · exact Value.distinctMembers_iff.1 h.2 p hm

theorem frame_set_v (row : Dict String (Json F)) (v : Json F) : frame (row.set "v" v) = frame row := by
  funext k
  rw [frame, frame]
  split
  · rfl
  · rename_i h
    rw [Dict.lookup_set_ne fun he => h (.inr he)]

theorem getItem_dict {row : Dict String (Json F)} {k : String} {v : Json F} :
    getItem (.dict row) k = .ok v ↔ row.lookup k = some v := by
  rw [getItem]
  cases row.lookup k with
  | none => simp
  | some w => simp

section
variable [Builtins F] {sha256Hash : List UInt8 → List UInt8} {path : String}
  {migrations : Migrations F}

omit [Builtins F] in
theorem upgradeRow_spec
    {change : Int → (String → Option (Json F)) → Json F → Json F}
    (hp : PayloadOnly migrations change) {n k : Nat} {ver : Int} {row row' : Dict String (Json F)}
    (h : upgradeRow migrations n ver row = .ok (row', k)) : Upgraded change n ver row row' := by
  induction n generalizing ver row k with
  | zero =>
    cases h
    exact ⟨fun _ _ _ => rfl, rfl, rfl, id⟩
  | succ n ih =>
    rw [upgradeRow] at h
    split at h
    · cases h
    rename_i m hm
    split at h
    · cases h
    rename_i row₁ hr
    cases hu : upgradeRow migrations n (ver + 1) (row₁.set "v" (.int (ver + 1))) with
    | error e =>
      rw [hu] at h
      cases h
    | ok p =>
      rw [hu] at h
      cases h
      have hi := ih hu
      have hk := hp.keeps ver m row row₁ hm hr
      have hframe : frame row₁ = frame row := by
        funext j
        rw [frame, frame]
        split
        · rfl
        · rename_i hj
          exact hk j fun he => hj (.inl he)
      refine ⟨fun j hj hv => ?_, ?_, ?_, fun hd => ?_⟩
      · rw [hi.keeps j hj hv, Dict.lookup_set_ne hv, hk j hj]
      · rw [hi.version, Dict.lookup_set_self, if_neg (Nat.succ_ne_zero n)]
        split
        · rename_i hn
          rw [hn]
          rfl
        · rw [Nat.cast_succ, Int.add_assoc, Int.add_comm 1]
      · have hset : payloadOf (row₁.set "v" (.int (ver + 1))) = payloadOf row₁ := by
          rw [payloadOf, Dict.lookup_set_ne (by decide), payloadOf]
        rw [hi.payload, frame_set_v, hset, hframe, hp.payload ver m row row₁ hm hr, composed]
      · exact hi.distinct (distinct_set (m.distinct row row₁ hd hr) trivial)

/-- The fields of a relinked row are the ones its hash was taken of. -/
theorem relink_spec {p : String} {row row' : Dict String (Json F)} {h : String}
    (hr : relink sha256Hash p row = .ok (row', h)) :
    row' = (row.set "prev_hash" (.str p)).set "hash" (.str h) ∧
      ∀ v ver, row.lookup "v" = some v → v.toInt = .ok ver → ∃ f, fields (.dict row') = .ok f ∧
        f.ver = ver ∧ f.storedPrev = .str p ∧ f.storedHash = .str h ∧
        lineHash sha256Hash (.str p) (.int f.seq) f.eventId f.ts f.eventType f.payload = some h := by
  obtain ⟨sv, hs, hr⟩ := bind_ok hr
  obtain ⟨seq, hseq, hr⟩ := bind_ok hr
  obtain ⟨eventId, hid, hr⟩ := bind_ok hr
  obtain ⟨tv, ht, hr⟩ := bind_ok hr
  obtain ⟨ts, hts, hr⟩ := bind_ok hr
  obtain ⟨eventType, htype, hr⟩ := bind_ok hr
  obtain ⟨payload, hpay, hr⟩ := bind_ok hr
  split at hr
  · cases hr
  rename_i g hg
  cases hr
  refine ⟨rfl, fun v ver hv hver => ⟨⟨ver, seq, eventId, ts, eventType, payload, .str h, .str p⟩,
    ?_, rfl, rfl, rfl, hg⟩⟩
  have hget {k : String} {u : Json F} (hk : k ≠ "hash")
      (hu : getItem (.dict (row.set "prev_hash" (.str p))) k = .ok u) :
      getItem (.dict ((row.set "prev_hash" (.str p)).set "hash" (.str h))) k = .ok u := by
    rw [getItem_dict] at hu ⊢
    rw [Dict.lookup_set_ne hk, hu]
  have hv' : getItem (.dict ((row.set "prev_hash" (.str p)).set "hash" (.str h))) "v" = .ok v := by
    rw [getItem_dict, Dict.lookup_set_ne (by decide), Dict.lookup_set_ne (by decide), hv]
  have hpay' : getD (.dict ((row.set "prev_hash" (.str p)).set "hash" (.str h))) "payload"
      (.dict []) = .ok payload := by
    rw [getD, Dict.lookup_set_ne (by decide)]
    exact hpay
  have hhash : getItem (.dict ((row.set "prev_hash" (.str p)).set "hash" (.str h))) "hash" =
      .ok (.str h) := by
    rw [getItem_dict, Dict.lookup_set_self]
  have hprev : getD (.dict ((row.set "prev_hash" (.str p)).set "hash" (.str h))) "prev_hash"
      (.str "") = .ok (.str p) := by
    rw [getD, Dict.lookup_set_ne (by decide), Dict.lookup_set_self]
    rfl
  rw [fields, hv', hget (by decide) hs, hget (by decide) hid, hget (by decide) ht,
    hget (by decide) htype, hpay', hhash, hprev]
  simp only [bind, Except.bind, pure, Except.pure, hver, hseq, hts]

/-- The rows that `migrate` reads and the rows that it writes for them, behind a row of hash `p`. -/
inductive Rewritten (sha256Hash : List UInt8 → List UInt8) (migrations : Migrations F)
    (target : Int) : String → List (Json F) → List (Dict String (Json F)) → Prop
  | nil : Rewritten sha256Hash migrations target p [] []
  | cons : migrateRow sha256Hash migrations target p row = .ok (ms, h, n) →
      Rewritten sha256Hash migrations target h rows out →
      Rewritten sha256Hash migrations target p (row :: rows) (ms :: out)

theorem migrateLines_spec {target : Int} {p : String} {ls : List (List Char)}
    {out : List (Dict String (Json F))} {n : Nat}
    (h : migrateLines sha256Hash path migrations target p ls = .ok (out, n)) :
    ∃ rows, documents ls = some rows ∧ Rewritten sha256Hash migrations target p rows out := by
  induction ls generalizing p out n with
  | nil =>
    cases h
    exact ⟨[], rfl, .nil⟩
  | cons l ls ih =>
    rw [migrateLines] at h
    cases hl : notBlank l with
    | false =>
      rw [hl] at h
      obtain ⟨rows, hd, hr⟩ := ih h
      refine ⟨rows, ?_, hr⟩
      rw [documents, List.filter_cons_of_neg (by simp [hl])]
      exact hd
    | true =>
      rw [hl] at h
      simp only [Bool.not_true, Bool.false_eq_true, ↓reduceIte] at h
      split at h
      · cases h
      rename_i row hrow
      split at h
      · cases h
      rename_i ms g k hm
      cases hrest : migrateLines sha256Hash path migrations target g ls with
      | error e =>
        rw [hrest] at h
        cases h
      | ok q =>
        rw [hrest] at h
        cases h
        obtain ⟨rows, hd, hr⟩ := ih hrest
        refine ⟨row :: rows, ?_, .cons hm hr⟩
        rw [documents, List.filter_cons_of_pos hl, List.mapM_cons, hrow]
        rw [documents] at hd
        simp only [Option.bind_eq_bind, Option.bind_some, hd, Option.pure_def]

theorem migrateRow_spec {target : Int} {p : String} {row : Json F} {ms : Dict String (Json F)}
    {h : String} {n : Nat} (hm : migrateRow sha256Hash migrations target p row = .ok (ms, h, n)) :
    ∃ d ver d', row = .dict d ∧ getD row "v" (.int 1) >>= toInt = .ok ver ∧
      upgradeRow migrations (target - ver).toNat ver d = .ok (d', n) ∧
      relink sha256Hash p d' = .ok (ms, h) := by
  unfold migrateRow at hm
  split at hm
  · rename_i d
    split at hm
    · cases hm
    rename_i ver hver
    split at hm
    · cases hm
    rename_i d' k hu
    split at hm
    · cases hm
    rename_i ms' g hr
    cases hm
    exact ⟨d, ver, d', rfl, hver, hu, hr⟩
  · cases hm

/-- The seqs of the rows go up by one from `i`. -/
def Numbered : Nat → List (Json F) → Prop
  | _, [] => True
  | i, row :: rows =>
    (∃ v, row.getItem "seq" = .ok v ∧ v.toInt = .ok (i + 1)) ∧ Numbered (i + 1) rows

theorem numbered_of_chained {schemaVersion : Int} {p : String} {i : Nat} {rows : List (Json F)}
    (h : HashChain.Chained (Link sha256Hash schemaVersion) rowHash p i rows) :
    Numbered i rows := by
  induction rows generalizing p i with
  | nil => trivial
  | cons row rows ih =>
    obtain ⟨⟨f, g, hf, -, -, hs, -⟩, h⟩ := h
    obtain ⟨-, ⟨v, hv, hn⟩, -⟩ := fields_cases hf
    exact ⟨⟨v, hv, by rw [hn, hs]⟩, ih h⟩

theorem verifyRow_seq {schemaVersion : Int} {p : String} {s : Int} {row : Json F} {e g : Int}
    (h : verifyRow sha256Hash schemaVersion p s row = .ok (.error (.seq e g))) :
    ∃ f, fields row = .ok f ∧ f.seq ≠ s + 1 := by
  rw [verifyRow] at h
  cases hf : fields row with
  | error err =>
    rw [hf] at h
    dsimp only at h
    split at h <;> cases h
  | ok f =>
    refine ⟨f, rfl, fun hs => ?_⟩
    rw [hf] at h
    dsimp only at h
    split at h
    · cases h
    split at h
    · cases h
    rw [if_neg (not_not.2 hs)] at h
    split at h
    · cases h
    split at h <;> cases h

/-- A seq discontinuity that `_verify_rows` reports is one. -/
theorem not_numbered_of_seq {schemaVersion : Int} {k m : Nat} {p : String} {i : Nat} {e g : Int}
    {rows : List (Json F)}
    (h : verifyLoop sha256Hash schemaVersion k p i rows = .ok (some (m, .seq e g))) :
    ¬ Numbered i rows := by
  induction rows generalizing k p i with
  | nil => cases h
  | cons row rows ih =>
    rintro ⟨⟨v, hv, hn⟩, hrest⟩
    rw [verifyLoop] at h
    cases hr : verifyRow sha256Hash schemaVersion p i row with
    | error err =>
      rw [hr] at h
      cases h
    | ok o =>
      rw [hr] at h
      cases o with
      | error err =>
        cases h
        obtain ⟨f, hf, hs⟩ := verifyRow_seq hr
        obtain ⟨-, ⟨v', hv', hn'⟩, -⟩ := fields_cases hf
        rw [hv] at hv'
        cases hv'
        rw [hn] at hn'
        injection hn' with hn'
        exact hs hn'.symm
      | ok o =>
        obtain ⟨-, rfl⟩ := verifyRow_ok_iff.1 hr
        exact ih h hrest

/-- The new row has the seq, id, time, type and dedupe id of the old one, and its payload with the
registered changes up to the target version made to it. -/
structure Preserved (change : Int → (String → Option (Json F)) → Json F → Json F) (target : Int)
    (row row' : Json F) : Prop where
  same : ∀ k ∈ ["seq", "id", "ts", "type", "dedupe_id"], row'.getItem k = row.getItem k
  payload : ∃ d d' ver, row = .dict d ∧ row' = .dict d' ∧
    getD row "v" (.int 1) >>= toInt = .ok ver ∧
    payloadOf d' = composed change (frame d) (target - ver).toNat ver (payloadOf d)

omit [Builtins F] in
theorem getItem_congr {d d' : Dict String (Json F)} {k : String} (h : d'.lookup k = d.lookup k) :
    getItem (.dict d') k = getItem (.dict d) k := by
  rw [getItem, getItem, h]

theorem migrateRow_preserves
    {change : Int → (String → Option (Json F)) → Json F → Json F}
    (hp : PayloadOnly migrations change) {target : Int} {p : String} {row : Json F}
    {ms : Dict String (Json F)} {h : String} {n : Nat}
    (hm : migrateRow sha256Hash migrations target p row = .ok (ms, h, n)) :
    Preserved change target row (.dict ms) ∧ (row.Distinct → (Value.dict ms).Distinct) ∧
      rowHash (.dict ms) = h := by
  obtain ⟨d, ver, d', rfl, hver, hu, hr⟩ := migrateRow_spec hm
  have hup := upgradeRow_spec hp hu
  obtain ⟨rfl, -⟩ := relink_spec hr
  have hlook {k : String} (h₁ : k ≠ "hash") (h₂ : k ≠ "prev_hash") :
      ((d'.set "prev_hash" (.str p)).set "hash" (.str h)).lookup k = d'.lookup k := by
    rw [Dict.lookup_set_ne h₁, Dict.lookup_set_ne h₂]
  refine ⟨⟨?_, d, _, ver, rfl, rfl, hver, ?_⟩, fun hd => ?_, ?_⟩
  · intro k hk
    apply getItem_congr
    have hne : k ≠ "hash" ∧ k ≠ "prev_hash" ∧ k ≠ "payload" ∧ k ≠ "v" := by
      revert k
      decide
    rw [hlook hne.1 hne.2.1, hup.keeps k hne.2.2.1 hne.2.2.2]
  · rw [payloadOf, hlook (by decide) (by decide)]
    exact hup.payload
  · exact distinct_set (distinct_set (hup.distinct hd) trivial) trivial
  · rw [rowHash, getItem, Dict.lookup_set_self]

/-- A row of the right seq whose version the target does not lie below is accepted behind the row
that it has been linked to. -/
theorem migrateRow_link
    {change : Int → (String → Option (Json F)) → Json F → Json F}
    (hp : PayloadOnly migrations change) {target s : Int} {p : String} {i : Nat} {row v : Json F}
    {ms : Dict String (Json F)} {h : String} {n : Nat}
    (hm : migrateRow sha256Hash migrations target p row = .ok (ms, h, n))
    (hv : row.getItem "v" >>= toInt = .ok s) (hs : s ≤ target)
    (hseq : row.getItem "seq" = .ok v) (hn : v.toInt = .ok (i + 1)) :
    Link sha256Hash target p i (.dict ms) := by
  have hpre := (migrateRow_preserves hp hm).1
  obtain ⟨d, ver, d', rfl, hver, hu, hr⟩ := migrateRow_spec hm
  have hup := upgradeRow_spec hp hu
  obtain ⟨w, hw, hws⟩ := bind_ok hv
  have hver' : ver = s := by
    rw [getD, getItem_dict.1 hw] at hver
    have he : toInt w = .ok ver := hver
    rw [hws] at he
    injection he with he
    exact he.symm
  subst hver'
  obtain ⟨u, hu', hut⟩ : ∃ u, d'.lookup "v" = some u ∧ u.toInt = .ok target := by
    rw [hup.version]
    by_cases hz : (target - ver).toNat = 0
    · rw [if_pos hz]
      have he : ver = target := by omega
      exact ⟨w, getItem_dict.1 hw, by rw [hws, he]⟩
    · rw [if_neg hz]
      refine ⟨_, rfl, ?_⟩
      rw [toInt]
      congr 1
      omega
  obtain ⟨-, hf⟩ := relink_spec hr
  obtain ⟨f, hf, hfv, hfp, hfh, hline⟩ := hf u target hu' hut
  obtain ⟨-, ⟨v', hv', hn'⟩, -⟩ := fields_cases hf
  rw [hpre.same "seq" (by simp), hseq] at hv'
  cases hv'
  rw [hn] at hn'
  injection hn' with hn'
  exact ⟨f, h, hf, hfv, hfp, hn'.symm, hfh, hline⟩

theorem Rewritten.preserves {change : Int → (String → Option (Json F)) → Json F → Json F}
    (hp : PayloadOnly migrations change) {target : Int} {p : String} {rows : List (Json F)}
    {out : List (Dict String (Json F))}
    (h : Rewritten sha256Hash migrations target p rows out) :
    List.Forall₂ (Preserved change target) rows (out.map Value.dict) := by
  induction h with
  | nil => exact .nil
  | cons hm _ ih => exact .cons (migrateRow_preserves hp hm).1 ih

theorem Rewritten.distinct {change : Int → (String → Option (Json F)) → Json F → Json F}
    (hp : PayloadOnly migrations change) {target : Int} {p : String} {rows : List (Json F)}
    {out : List (Dict String (Json F))} (h : Rewritten sha256Hash migrations target p rows out)
    (hd : ∀ row ∈ rows, row.Distinct) : ∀ ms ∈ out, (Value.dict ms).Distinct := by
  induction h with
  | nil => simp
  | cons hm _ ih =>
    obtain ⟨h₁, h₂⟩ := List.forall_mem_cons.1 hd
    exact List.forall_mem_cons.2 ⟨(migrateRow_preserves hp hm).2.1 h₁, ih h₂⟩

theorem numbered_of_preserved {change : Int → (String → Option (Json F)) → Json F → Json F}
    {target : Int} {i : Nat} {rows rows' : List (Json F)}
    (h : List.Forall₂ (Preserved change target) rows rows') (hn : Numbered i rows') :
    Numbered i rows := by
  induction h generalizing i with
  | nil => trivial
  | cons hp _ ih =>
    obtain ⟨⟨v, hv, hs⟩, hn⟩ := hn
    exact ⟨⟨v, by rw [← hp.same "seq" (by simp), hv], hs⟩, ih hn⟩

/-- Numbered rows of one version that the target does not lie below are linked to a stream that
the target version accepts, whatever their hashes were. -/
theorem Rewritten.chained {change : Int → (String → Option (Json F)) → Json F → Json F}
    (hp : PayloadOnly migrations change) {target s : Int} {p : String} {i : Nat}
    {rows : List (Json F)} {out : List (Dict String (Json F))}
    (h : Rewritten sha256Hash migrations target p rows out)
    (hv : ∀ row ∈ rows, row.getItem "v" >>= toInt = .ok s) (hs : s ≤ target)
    (hn : Numbered i rows) :
    HashChain.Chained (Link sha256Hash target) rowHash p i (out.map Value.dict) := by
  induction h generalizing i with
  | nil => trivial
  | cons hm _ ih =>
    obtain ⟨⟨v, hv', hs'⟩, hn⟩ := hn
    obtain ⟨h₁, h₂⟩ := List.forall_mem_cons.1 hv
    refine ⟨migrateRow_link hp hm h₁ hs hv' hs', ?_⟩
    rw [(migrateRow_preserves hp hm).2.2]
    exact ih h₂ hn

theorem strippedDocuments_of_readLines {k : Nat} {ls : List (List Char)} {rows : List (Json F)}
    (h : readLines k ls = .ok rows) : strippedDocuments ls = some rows := by
  induction ls generalizing k rows with
  | nil =>
    cases h
    rfl
  | cons l ls ih =>
    rw [readLines] at h
    rw [strippedDocuments]
    cases hl : notBlank l with
    | false =>
      have he : (strip l).isEmpty = true := by
        rwa [notBlank, Bool.not_eq_false'] at hl
      rw [if_pos he] at h
      rw [List.filter_cons_of_neg (by simp [hl])]
      exact ih h
    | true =>
      have he : (strip l).isEmpty = false := by
        rwa [notBlank, Bool.not_eq_true'] at hl
      rw [he, if_neg Bool.false_ne_true] at h
      rw [List.filter_cons_of_pos hl, List.mapM_cons]
      cases hd : loads (F := F) (strip l) with
      | none =>
        rw [hd] at h
        cases h
      | some row =>
        rw [hd] at h
        cases hr : readLines (F := F) (k + 1) ls with
        | error e =>
          rw [hr] at h
          cases h
        | ok rs =>
          rw [hr] at h
          cases h
          have hi := ih hr
          rw [strippedDocuments] at hi
          simp only [Option.bind_eq_bind, Option.bind_some, hi, Option.pure_def]

theorem readLines_error {k : Nat} {ls : List (List Char)} {e : LoopStoreError}
    (h : readLines (F := F) k ls = .error e) : ∃ n l, e = .malformedLine n l := by
  induction ls generalizing k with
  | nil => cases h
  | cons l ls ih =>
    rw [readLines] at h
    split at h
    · exact ih h
    split at h
    · cases h
      exact ⟨_, _, rfl⟩
    · cases hr : readLines (F := F) (k + 1) ls with
      | error e' =>
        rw [hr] at h
        cases h
        exact ih hr
      | ok rows =>
        rw [hr] at h
        cases h

theorem strippedDocuments_distinct {ls : List (List Char)} {rows : List (Json F)}
    (h : strippedDocuments ls = some rows) : ∀ row ∈ rows, row.Distinct := by
  induction ls generalizing rows with
  | nil =>
    cases h
    simp
  | cons l ls ih =>
    rcases strippedDocuments_cons h with ⟨-, hs⟩ | ⟨v, rs, -, hv, hs, rfl⟩
    · exact ih hs
    · refine List.forall_mem_cons.2 ⟨?_, ih hs⟩
      rw [loads] at hv
      split at hv
      · cases hv
        exact Value.build_distinct _
      · cases hv

omit [Builtins F] in
theorem map_build_of_distinct {rows : List (Json F)} (h : ∀ row ∈ rows, row.Distinct) :
    rows.map Value.build = rows := by
  rw [List.map_congr_left (g := id) fun row hr => Value.build_of_distinct row (h row hr),
    List.map_id]

variable (sha256Hash) in
/-- `verify` by a store of this schema version reports ok. -/
def VerifyOk (schemaVersion : Int) (text : List Char) : Prop :=
  ∃ r : VerifyResult F, verify sha256Hash schemaVersion text = .ok r ∧ r.ok = true

instance (schemaVersion : Int) (text : List Char) :
    Decidable (VerifyOk (F := F) sha256Hash schemaVersion text) :=
  decidable_of_iff
    ((verify (F := F) sha256Hash schemaVersion text).toOption.map VerifyResult.ok = some true) (by
      rw [VerifyOk]
      cases verify (F := F) sha256Hash schemaVersion text with
      | error e => simp [Except.toOption]
      | ok r => simp [Except.toOption])

theorem verifyOk_iff {schemaVersion : Int} {text : List Char} :
    VerifyOk (F := F) sha256Hash schemaVersion text ↔
      ∃ rows : List (Json F), readAll text = .ok rows ∧ Verified sha256Hash schemaVersion rows := by
  rw [VerifyOk, verify]
  cases h : readAll (F := F) text with
  | error e => simp
  | ok rows =>
    dsimp only
    rw [verifyRows_ok_iff]
    simp

/-- A migration that returns has rewritten the rows that `verify` reads. -/
theorem World.migrate_cases {w w' : World F} {i : Nat} {targetVersion : Option Int} {n : Nat}
    {rows : List (Json F)}
    (h : w.migrate sha256Hash path migrations i targetVersion = (w', .ok n))
    (hr : readAll w.text = .ok rows) :
    ∃ out, Rewritten sha256Hash migrations (migrateTarget (w.stores i) targetVersion) genesis rows
        out ∧ w'.text = fileText (out.map Value.dict) ∧ ∀ row ∈ rows, row.Distinct := by
  simp only [World.migrate] at h
  split at h
  · cases h
  split at h
  · cases h
  rename_i out k hm
  cases h
  obtain ⟨rows', hd, hrw⟩ := migrateLines_spec hm
  have hs := strippedDocuments_of_readLines hr
  have he := documents_agree (cr_not_mem_universalNewlines w.text) hs hd
  subst he
  exact ⟨out, hrw, rfl, strippedDocuments_distinct hs⟩

/-- The stream after a migration that changes payloads only and returns. One with a seq
discontinuity still does not verify; the chain of hashes is rebuilt, so that rows of one version up
to the target verify exactly when their seqs are `1..n`, whatever their hashes were; and a stream
that verified for such a version verifies for the target with the same events and the changed
payloads. -/
theorem World.migrate_verify {change : Int → (String → Option (Json F)) → Json F → Json F}
    (hp : PayloadOnly migrations change) {w w' : World F} {i : Nat} {targetVersion : Option Int}
    {n : Nat} (h : w.migrate sha256Hash path migrations i targetVersion = (w', .ok n)) :
    (∀ s (r : VerifyResult F) k e g, verify sha256Hash s w.text = .ok r →
      r.error = some (.row k (.seq e g)) →
      ¬ VerifyOk (F := F) sha256Hash (migrateTarget (w.stores i) targetVersion) w'.text) ∧
    (∀ s (rows : List (Json F)), readAll w.text = .ok rows →
      (∀ row ∈ rows, row.getItem "v" >>= toInt = .ok s) →
      s ≤ migrateTarget (w.stores i) targetVersion →
      (VerifyOk (F := F) sha256Hash (migrateTarget (w.stores i) targetVersion) w'.text ↔
        Numbered 0 rows)) ∧
    ∀ s, VerifyOk (F := F) sha256Hash s w.text →
      s ≤ migrateTarget (w.stores i) targetVersion →
      VerifyOk (F := F) sha256Hash (migrateTarget (w.stores i) targetVersion) w'.text ∧
      ∃ rows rows' : List (Json F), readAll w.text = .ok rows ∧ readAll w'.text = .ok rows' ∧
        List.Forall₂ (Preserved change (migrateTarget (w.stores i) targetVersion)) rows rows' := by
  have hread {rows : List (Json F)} {out : List (Dict String (Json F))}
      (hrw : Rewritten sha256Hash migrations (migrateTarget (w.stores i) targetVersion) genesis
        rows out) (ht : w'.text = fileText (out.map Value.dict)) (hd : ∀ row ∈ rows, row.Distinct) :
      readAll w'.text = .ok (out.map Value.dict) := by
    rw [ht, readAll_fileText, map_build_of_distinct]
    intro row hm
    obtain ⟨ms, hms, rfl⟩ := List.mem_map.1 hm
    exact hrw.distinct hp hd ms hms
  have hchain : ∀ s (rows : List (Json F)), readAll w.text = .ok rows →
      (∀ row ∈ rows, row.getItem "v" >>= toInt = .ok s) →
      s ≤ migrateTarget (w.stores i) targetVersion → Numbered 0 rows →
      VerifyOk (F := F) sha256Hash (migrateTarget (w.stores i) targetVersion) w'.text := by
    intro s rows hr hv hs hn
    obtain ⟨out, hrw, ht, hd⟩ := World.migrate_cases h hr
    exact verifyOk_iff.2 ⟨_, hread hrw ht hd, hrw.chained hp hv hs hn⟩
  have hnum {rows : List (Json F)} (hr : readAll w.text = .ok rows)
      (hok : VerifyOk (F := F) sha256Hash (migrateTarget (w.stores i) targetVersion) w'.text) :
      Numbered 0 rows := by
    obtain ⟨out, hrw, ht, hd⟩ := World.migrate_cases h hr
    obtain ⟨rows', hr', hv'⟩ := verifyOk_iff.1 hok
    rw [hread hrw ht hd] at hr'
    cases hr'
    exact numbered_of_preserved (hrw.preserves hp) (numbered_of_chained hv')
  refine ⟨?_, fun s rows hr hv hs => ⟨hnum hr, hchain s rows hr hv hs⟩, ?_⟩
  · intro s r k e g hver herr hok
    obtain ⟨rows, hr, hl⟩ : ∃ rows : List (Json F), readAll w.text = .ok rows ∧
        ∃ m, verifyLoop sha256Hash s 1 genesis 0 rows = .ok (some (m, .seq e g)) := by
      rw [verify] at hver
      cases hr : readAll (F := F) w.text with
      | error err =>
        rw [hr] at hver
        cases hver
        obtain ⟨_, _, rfl⟩ := readLines_error hr
        cases herr
      | ok rows =>
        rw [hr] at hver
        refine ⟨rows, rfl, ?_⟩
        simp only [verifyRows] at hver
        split at hver
        · cases hver
        · rename_i m err hl
          cases hver
          cases herr
          exact ⟨k, hl⟩
        · cases hver
          cases herr
    obtain ⟨m, hl⟩ := hl
    rw [← Nat.cast_zero] at hl
    exact not_numbered_of_seq hl (hnum hr hok)
  · intro s hok hs
    obtain ⟨rows, hr, hver⟩ := verifyOk_iff.1 hok
    obtain ⟨out, hrw, ht, hd⟩ := World.migrate_cases h hr
    refine ⟨hchain s rows hr ?_ hs (numbered_of_chained hver), rows, _, hr, hread hrw ht hd,
      hrw.preserves hp⟩
    refine HashChain.Chained.forall hver ?_
    rintro p j row ⟨f, g, hf, hfv, -⟩
    obtain ⟨⟨v, hv, hvv⟩, -⟩ := fields_cases hf
    rw [hv, ← hfv]
    exact hvv

end
section

/-- SHA-256 on the texts of the rows below. -/
def migrateDigest : List UInt8 → List UInt8 := knownDigest [
  ("genesis|1|6ba7b814-9dad-41d1-80b4-00c04fd430c8|1690000000.0|goal_added|\x7b\"goal_id" ++
      "\":\"g1\"\x7d",
      "03066704238f26a623f9dc32c51fe6e9c53e5907a05a44c8f7bc7046640f3be5"),
  ("genesis|1|6ba7b814-9dad-41d1-80b4-00c04fd430c8|1690000000.0|goal_added|\x7b\"goal\":" ++
      "\x7b\"goal_id\":\"g1\"\x7d\x7d",
      "49971d4f289bb455ffedaf367112d329852d801095d607f834cf9a21de305dba")]

/-- The row of one event, with a given version and hash. -/
def storedRow (v : Int) (hash : String) : Json WholeFloat :=
  .dict [("v", .int v), ("seq", .int 1), ("id", .str "6ba7b814-9dad-41d1-80b4-00c04fd430c8"),
    ("ts", .float (.finite ⟨1690000000⟩)), ("type", .str "goal_added"),
    ("payload", .dict [("goal_id", .str "g1")]), ("prev_hash", .str genesis), ("hash", .str hash)]

def storedHash : String := "03066704238f26a623f9dc32c51fe6e9c53e5907a05a44c8f7bc7046640f3be5"

def storedWorld (schemaVersion : Int) (row : Json WholeFloat) : World WholeFloat :=
  ⟨some (fileText [row]), fun _ => ⟨schemaVersion, none⟩⟩

/-- Version 2 puts the payload of version 1 under the key `goal`. -/
def wrapPayload : Migration WholeFloat where
  upgrade row := .ok (row.set "payload" (.dict [("goal", payloadOf row)]))
  distinct row row' hd h := by
    cases h
    refine distinct_set hd ⟨List.nodup_singleton _, ?_, trivial⟩
    rw [payloadOf]
    cases hl : row.lookup "payload" with
    | none => exact ⟨List.nodup_nil, trivial⟩
    | some v => exact Value.distinctMembers_iff.1 hd.2 _ (Dict.lookup_mem hl)

theorem returns_of_toOption {p : α × Except ε β} {b : β} (h : p.2.toOption = some b) :
    p = (p.1, .ok b) := by
  rw [← ok_of_toOption h]

def wrapMigrations : Migrations WholeFloat := fun ver => if ver = 1 then some wrapPayload else none

theorem wrapMigrations_payloadOnly :
    PayloadOnly wrapMigrations fun _ _ v => .dict [("goal", v)] := by
  have hw {ver : Int} {m : Migration WholeFloat} (hm : wrapMigrations ver = some m) :
      m = wrapPayload := by
    rw [wrapMigrations] at hm
    split at hm
    · cases hm
      rfl
    · cases hm
  constructor
  · intro ver m row row' hm hr k hk
    rw [hw hm] at hr
    cases hr
    exact Dict.lookup_set_ne hk _ _
  · intro ver m row row' hm hr
    rw [hw hm] at hr
    cases hr
    rw [payloadOf, Dict.lookup_set_self]
    rfl

theorem World.migrate_verify_wrapped : ∃ w' n,
    (storedWorld 1 (storedRow 1 storedHash)).migrate migrateDigest "events.jsonl" wrapMigrations 0
      (some 2) = (w', .ok n) ∧
    VerifyOk (F := WholeFloat) migrateDigest 2 w'.text ∧
    ∃ rows rows' : List (Json WholeFloat),
      readAll (storedWorld 1 (storedRow 1 storedHash)).text = .ok rows ∧
      readAll w'.text = .ok rows' ∧
      List.Forall₂ (Preserved (fun _ _ v => .dict [("goal", v)]) 2) rows rows' := by
  have hn : ((storedWorld 1 (storedRow 1 storedHash)).migrate migrateDigest "events.jsonl"
      wrapMigrations 0 (some 2)).2.toOption = some 1 := by decide +kernel
  have h := returns_of_toOption hn
  exact ⟨_, 1, h, (World.migrate_verify wrapMigrations_payloadOnly h).2.2 1 (by decide +kernel)
    (by decide)⟩

/-- The file of a store of version 1 whose only row has a wrong hash verifies once it has been
migrated, and one that verifies for version 2 does not verify for version 1 once it has been
migrated to that. -/
theorem World.migrate_not_preserving :
    (∃ w' n, (storedWorld 1 (storedRow 1 "0")).migrate migrateDigest "events.jsonl"
        (fun _ => none) 0 (some 1) = (w', .ok n) ∧
      (∃ r : VerifyResult WholeFloat,
        verify migrateDigest 1 (storedWorld 1 (storedRow 1 "0")).text = .ok r ∧
          r.error = some (.row 1 (.hash 1))) ∧
      VerifyOk (F := WholeFloat) migrateDigest 1 w'.text) ∧
    ∃ w' n, (storedWorld 2 (storedRow 2 storedHash)).migrate migrateDigest "events.jsonl"
        (fun _ => none) 0 (some 1) = (w', .ok n) ∧
      VerifyOk (F := WholeFloat) migrateDigest 2 (storedWorld 2 (storedRow 2 storedHash)).text ∧
      ¬ VerifyOk (F := WholeFloat) migrateDigest 1 w'.text := by
  have h₁ : ((storedWorld 1 (storedRow 1 "0")).migrate migrateDigest "events.jsonl"
      (fun _ => none) 0 (some 1)).2.toOption = some 0 := by decide +kernel
  have h₂ : ((storedWorld 2 (storedRow 2 storedHash)).migrate migrateDigest "events.jsonl"
      (fun _ => none) 0 (some 1)).2.toOption = some 0 := by decide +kernel
  have hv : (verify (F := WholeFloat) migrateDigest 1
      (storedWorld 1 (storedRow 1 "0")).text).toOption.bind VerifyResult.error =
        some (.row 1 (.hash 1)) := by decide +kernel
  refine ⟨⟨_, 0, returns_of_toOption h₁, ?_, by decide +kernel⟩,
    _, 0, returns_of_toOption h₂, by decide +kernel, by decide +kernel⟩
  obtain ⟨r, hr, he⟩ := Option.bind_eq_some_iff.1 hv
  exact ⟨r, ok_of_toOption hr, he⟩

end
end Obase.LoopEventStore
