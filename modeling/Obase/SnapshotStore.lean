import Obase.Builtins
import Obase.Concrete
import Obase.DictDiff
import Obase.Json.Equal
import Obase.Json.Indent

namespace Obase.SnapshotStore
set_option autoImplicit true
open Json (FloatText Number)

/-- `uuid.uuid4().hex[:12]`. -/
abbrev SnapId := {id : String // id.length = 12}

/-- A JSON object: no object in it has a key twice. -/
abbrev JsonObject (F : Type) := {ms : Dict String (Json F) // Value.Distinct (.dict ms)}

structure SnapshotMeta (F : Type) where
  snapshotId : SnapId
  version : Int
  timestamp : PyFloat F
  labels : Dict String String

/-- The index, and the files of the directory. -/
structure Store (F : Type) where
  index : Dict String (List (SnapshotMeta F))
  files : String → Option (List Char)

/-- What happens to the directory: a snapshot is saved, or a save fails while it writes its file
and leaves something of it. -/
inductive Event (F : Type) where
  | save (entityId : String) (state : JsonObject F) (labels : Option (Dict String String))
    (snapId : SnapId) (timestamp : PyFloat F)
  | failed (entityId : String) (snapId : SnapId) (left : Option (List Char))

def Event.snapId : Event F → SnapId
  | .save _ _ _ snapId _ => snapId
  | .failed _ snapId _ => snapId

def Store.empty : Store F := ⟨[], fun _ => none⟩

def filename (entityId : String) (snapId : SnapId) : String :=
  entityId ++ "_" ++ snapId.1 ++ ".json"

def SnapshotMeta.payload (m : SnapshotMeta F) (entityId : String) (state : Dict String (Json F)) :
    Json F :=
  .dict [("meta", .dict [("snapshot_id", .str m.snapshotId.1), ("version", .int m.version),
    ("timestamp", .float m.timestamp), ("entity_id", .str entityId),
    ("labels", .dict (Dict.mapVals .str m.labels))]), ("state", .dict state)]

namespace Store
variable {F : Type}

def history (s : Store F) (entityId : String) : List (SnapshotMeta F) :=
  (s.index.lookup entityId).getD []

def write (s : Store F) (name : String) (text : Option (List Char)) :
    String → Option (List Char) :=
  fun name' => if name' = name then text else s.files name'

def listVersions (s : Store F) (entityId : String) : List Int :=
  (s.history entityId).map SnapshotMeta.version

variable [FloatText F]

def save (s : Store F) (entityId : String) (state : JsonObject F)
    (labels : Option (Dict String String)) (snapId : SnapId) (timestamp : PyFloat F) :
    Store F :=
  let history := s.history entityId
  let m : SnapshotMeta F := ⟨snapId, history.length + 1, timestamp, labels.getD []⟩
  let text := Json.dumpsIndent 2 0 (m.payload entityId state.1)
  ⟨s.index.set entityId (history ++ [m]), s.write (filename entityId snapId) (some text)⟩

def step (s : Store F) : Event F → Store F
  | .save entityId state labels snapId timestamp => s.save entityId state labels snapId timestamp
  | .failed entityId snapId left => ⟨s.index, s.write (filename entityId snapId) left⟩

def run (es : List (Event F)) : Store F := es.foldl step empty

/-- The reading of a snapshot's file. -/
def read (s : Store F) (entityId : String) (m : SnapshotMeta F) :
    Except PyError (Option (Json F)) :=
  match s.files (filename entityId m.snapshotId) with
  | none => .ok none
  | some text =>
    match Json.loads (Text.universalNewlines text) with
    | none => .error .valueError
    | some payload => (Json.getD payload "state" (.dict [])).map some

def load (s : Store F) (entityId : String) (version : Option Int) :
    Except PyError (Option (Json F)) :=
  let history := s.history entityId
  let target :=
    match version with
    | none => history.getLast?
    | some v => history.find? fun m => m.version == v
  match target with
  | none => .ok none
  | some m => s.read entityId m

/-- `self.load(...) or {}`; a value other than a dictionary has no items. -/
def stateOf : Option (Json F) → Except PyError (Dict String (Json F))
  | none => .ok []
  | some (.dict ms) => .ok ms
  | some v => if Json.truthy v then .error .attributeError else .ok []

def diff (s : Store F) (entityId : String) (versionA versionB : Int) :
    Except PyError (Dict.Diff String (Json F)) := do
  let stateA ← stateOf (← s.load entityId (some versionA))
  let stateB ← stateOf (← s.load entityId (some versionB))
  .ok (Dict.diff Json.equal stateA stateB)

end Store

/-- The states of an entity that were saved. -/
def states (entityId : String) (es : List (Event F)) : List (JsonObject F) :=
  es.filterMap fun
    | .save entityId' state _ _ _ => if entityId' = entityId then some state else none
    | .failed .. => none

section
variable {F : Type} [FloatText F]

/-- The snapshots of an entity are those of its saved states, with the versions from 1 on. -/
structure Recorded (s : Store F) (es : List (Event F)) : Prop where
  length : ∀ entityId, (s.history entityId).length = (states entityId es).length
  version : ∀ entityId (i : Nat) m, (s.history entityId)[i]? = some m → m.version = i + 1
  file : ∀ entityId (i : Nat) m state, (s.history entityId)[i]? = some m →
    (states entityId es)[i]? = some state → s.files (filename entityId m.snapshotId) =
      some (Json.dumpsIndent 2 0 (m.payload entityId state.1))
  ids : ∀ entityId, ∀ m ∈ s.history entityId, m.snapshotId ∈ es.map Event.snapId

theorem getElem?_concat_some {l : List α} {a b : α} {i : Nat} :
    (l ++ [a])[i]? = some b ↔ l[i]? = some b ∨ (i = l.length ∧ a = b) := by
  obtain hi | rfl | hi := Nat.lt_trichotomy i l.length
  · rw [List.getElem?_append_left hi]
    exact ⟨.inl, fun h => h.resolve_right fun he => by omega⟩
  · simp
  · rw [List.getElem?_eq_none (by rw [List.length_append, List.length_singleton]; omega)]
    refine iff_of_false (fun h => nomatch h) ?_
    rintro (h | ⟨h, -⟩)
    · rw [List.getElem?_eq_none (by omega)] at h
      cases h
    · omega

theorem snapId_of_filename {e e' : String} {i i' : SnapId} (h : filename e i = filename e' i') :
    i = i' := by
  have hl := congrArg String.toList h
  simp only [filename, String.toList_append, List.append_assoc] at hl
  have hlen : (i.1.toList ++ ".json".toList).length = (i'.1.toList ++ ".json".toList).length := by
    simp only [List.length_append, String.length_toList, i.2, i'.2]
  rw [← List.append_assoc, ← List.append_assoc e'.toList] at hl
  have hi := List.append_inj_right' hl hlen
  exact Subtype.ext (String.toList_inj.1 (List.append_cancel_right hi))

omit [FloatText F] in
theorem states_concat_save (entityId entityId' : String) (es : List (Event F))
    (state : JsonObject F) (labels : Option (Dict String String)) (snapId : SnapId)
    (timestamp : PyFloat F) :
    states entityId (es ++ [.save entityId' state labels snapId timestamp]) =
      states entityId es ++ if entityId' = entityId then [state] else [] := by
  rw [states, List.filterMap_append, ← states]
  by_cases h : entityId' = entityId
  · simp [h]
  · simp [h]

omit [FloatText F] in
theorem states_concat_failed (entityId entityId' : String) (es : List (Event F)) (snapId : SnapId)
    (left : Option (List Char)) :
    states entityId (es ++ [.failed entityId' snapId left]) = states entityId es := by
  rw [states, List.filterMap_append, ← states]
  exact List.append_nil _

theorem history_save (s : Store F) (entityId entityId' : String) (state : JsonObject F)
    (labels : Option (Dict String String)) (snapId : SnapId) (timestamp : PyFloat F) :
    (s.save entityId state labels snapId timestamp).history entityId' =
      if entityId' = entityId then s.history entityId ++
        [⟨snapId, (s.history entityId).length + 1, timestamp, labels.getD []⟩]
      else s.history entityId' := by
  rw [Store.history, Store.save]
  dsimp only
  rw [Dict.lookup_set]
  split
  · rfl
  · rfl

omit [FloatText F] in
/-- A write under an id that is new leaves the files of the other snapshots alone. -/
theorem write_of_ne {s : Store F} {entityId entityId' : String} {snapId : SnapId}
    {m : SnapshotMeta F} (h : m.snapshotId ≠ snapId) (text : Option (List Char)) :
    s.write (filename entityId snapId) text (filename entityId' m.snapshotId) =
      s.files (filename entityId' m.snapshotId) :=
  if_neg fun he => h (snapId_of_filename he)

theorem recorded_empty : Recorded (Store.empty : Store F) [] where
  length _ := rfl
  version _ i _ h := by cases i <;> cases h
  file _ i _ _ h _ := by cases i <;> cases h
  ids _ _ h := by cases h

theorem recorded_save {s : Store F} {es : List (Event F)} (h : Recorded s es)
    (entityId : String) (state : JsonObject F) (labels : Option (Dict String String))
    {snapId : SnapId} (hnew : snapId ∉ es.map Event.snapId) (timestamp : PyFloat F) :
    Recorded (s.save entityId state labels snapId timestamp)
      (es ++ [.save entityId state labels snapId timestamp]) where
  length entityId' := by
    rw [history_save, states_concat_save]
    by_cases he : entityId' = entityId
    · rw [if_pos he, if_pos he.symm, List.length_append, List.length_append, he, h.length]
      rfl
    · rw [if_neg he, if_neg (Ne.symm he), List.append_nil, h.length]
  version entityId' i m hm := by
    rw [history_save] at hm
    split at hm
    · obtain hm | ⟨rfl, rfl⟩ := getElem?_concat_some.1 hm
      · exact h.version _ i m hm
      · rfl
    · exact h.version _ i m hm
  file entityId' i m state' hm hst := by
    have hold {m : SnapshotMeta F} (hm : m ∈ s.history entityId') : m.snapshotId ≠ snapId :=
      fun he => hnew (he ▸ h.ids _ m hm)
    rw [history_save] at hm
    rw [states_concat_save] at hst
    by_cases he : entityId' = entityId
    · subst he
      rw [if_pos rfl] at hm hst
      obtain hm | ⟨rfl, rfl⟩ := getElem?_concat_some.1 hm
      · obtain hst | ⟨hi, -⟩ := getElem?_concat_some.1 hst
        · exact (write_of_ne (hold (List.mem_of_getElem? hm)) _).trans (h.file _ i m _ hm hst)
        · obtain ⟨hlt, -⟩ := List.getElem?_eq_some_iff.1 hm
          rw [h.length, hi] at hlt
          exact absurd hlt (Nat.lt_irrefl _)
      · rw [h.length] at hst
        rw [List.getElem?_concat_length, Option.some.injEq] at hst
        rw [← hst]
        exact if_pos rfl
    · rw [if_neg he] at hm
      rw [if_neg (Ne.symm he), List.append_nil] at hst
      exact (write_of_ne (hold (List.mem_of_getElem? hm)) _).trans (h.file _ i m _ hm hst)
  ids entityId' m hm := by
    rw [List.map_append, List.mem_append]
    rw [history_save] at hm
    split at hm
    · obtain hm | hm := List.mem_append.1 hm
      · exact .inl (h.ids _ m hm)
      · rw [List.mem_singleton.1 hm]
        exact .inr (.head _)
    · exact .inl (h.ids _ m hm)

theorem recorded_failed {s : Store F} {es : List (Event F)} (h : Recorded s es)
    (entityId : String) {snapId : SnapId} (hnew : snapId ∉ es.map Event.snapId)
    (left : Option (List Char)) :
    Recorded (s.step (.failed entityId snapId left)) (es ++ [.failed entityId snapId left]) where
  length entityId' := by
    rw [states_concat_failed]
    exact h.length entityId'
  version := h.version
  file entityId' i m state hm hst := by
    rw [states_concat_failed] at hst
    have hne : m.snapshotId ≠ snapId := by
      rintro rfl
      exact hnew (h.ids _ m (List.mem_of_getElem? hm))
    exact (write_of_ne hne left).trans (h.file _ i m state hm hst)
  ids entityId' m hm := by
    rw [List.map_append, List.mem_append]
    exact .inl (h.ids _ m hm)

/-- With ids that are drawn once, every run records its history. -/
theorem recorded_run {es : List (Event F)} (h : (es.map Event.snapId).Nodup) :
    Recorded (Store.run es) es := by
  induction es using List.reverseRecOn with
  | nil => exact recorded_empty
  | append_singleton es e ih =>
    rw [List.map_append, List.nodup_append] at h
    obtain ⟨hnodup, -, hne⟩ := h
    have hnew : e.snapId ∉ es.map Event.snapId := fun hm => hne _ hm _ (.head _) rfl
    rw [Store.run, List.foldl_concat, ← Store.run]
    cases e with
    | save entityId state labels snapId timestamp =>
      exact recorded_save (ih hnodup) entityId state labels hnew timestamp
    | failed entityId snapId left => exact recorded_failed (ih hnodup) entityId hnew left

omit [FloatText F] in
theorem find_version {l : List (SnapshotMeta F)}
    (h : ∀ (i : Nat) m, l[i]? = some m → m.version = i + 1) {i : Nat} {m : SnapshotMeta F}
    (hm : l[i]? = some m) : (l.find? fun m => m.version == (i : Int) + 1) = some m := by
  obtain ⟨hi, he⟩ := List.getElem?_eq_some_iff.1 hm
  rw [List.find?_eq_some_iff_getElem]
  refine ⟨beq_iff_eq.2 (h i m hm), i, hi, he, fun j hj => ?_⟩
  have hv := h j _ (List.getElem?_eq_getElem (Nat.lt_trans hj hi))
  rw [hv, Bool.not_eq_true', beq_eq_false_iff_ne]
  omega

/-- Every version is loaded as the state that was saved. -/
theorem load_version {s : Store F} {es : List (Event F)} (h : Recorded s es)
    {entityId : String} {i : Nat} {state : JsonObject F}
    (hst : (states entityId es)[i]? = some state) :
    s.load entityId (some (i + 1)) = .ok (some (.dict state.1)) := by
  obtain ⟨hi, -⟩ := List.getElem?_eq_some_iff.1 hst
  rw [← h.length] at hi
  have hm := List.getElem?_eq_getElem hi
  have hb : Value.build (.dict state.1) = .dict state.1 := Value.build_of_distinct _ state.2
  have hread (m : SnapshotMeta F) (hf : s.files (filename entityId m.snapshotId) =
      some (Json.dumpsIndent 2 0 (m.payload entityId state.1))) :
      s.read entityId m = .ok (some (.dict state.1)) := by
    rw [Store.read, hf]
    dsimp only
    rw [Json.universalNewlines_dumpsIndent, Json.loads_dumpsIndent, SnapshotMeta.payload]
    dsimp only
    rw [Value.build, Value.buildMembers, Value.buildMembers, Value.buildMembers, hb]
    rfl
  rw [Store.load, find_version (h.version entityId) hm]
  exact hread _ (h.file entityId i _ state hm hst)

/-- The versions of an entity are counted from 1. -/
theorem listVersions_run {es : List (Event F)} (h : (es.map Event.snapId).Nodup)
    (entityId : String) :
    (Store.run es).listVersions entityId =
      (List.range (states entityId es).length).map fun i : Nat => (i : Int) + 1 := by
  have hr := recorded_run h
  apply List.ext_getElem?
  intro i
  rw [Store.listVersions, List.getElem?_map, List.getElem?_map, ← hr.length]
  cases hm : ((Store.run es).history entityId)[i]? with
  | none =>
    rw [List.getElem?_eq_none (by rw [List.length_range]; exact List.getElem?_eq_none_iff.1 hm)]
    rfl
  | some m =>
    obtain ⟨hi, -⟩ := List.getElem?_eq_some_iff.1 hm
    rw [List.getElem?_range hi, Option.map_some, Option.map_some, hr.version _ i m hm]

theorem diff_versions {s : Store F} {es : List (Event F)} (h : Recorded s es) {entityId : String}
    {i j : Nat} {A B : JsonObject F} (ha : (states entityId es)[i]? = some A)
    (hb : (states entityId es)[j]? = some B) :
    s.diff entityId (i + 1) (j + 1) = .ok (Dict.diff Json.equal A.1 B.1) := by
  rw [Store.diff, load_version h ha, load_version h hb]
  rfl

/-- The difference is a patch. -/
def DiffPatches (number : Number F → Number F → Prop) (s : Store F) (entityId : String)
    (versionA versionB : Int) (stateA stateB : JsonObject F) : Prop :=
  ∃ d d', s.diff entityId versionA versionB = .ok d ∧ s.diff entityId versionB versionA = .ok d' ∧
    Dict.Patches (Json.Same number) stateA.1 stateB.1 d d'

theorem diffPatches_iff {number : Number F → Number F → Prop} {s : Store F} {es : List (Event F)}
    (h : Recorded s es) {entityId : String} {i j : Nat} {A B : JsonObject F}
    (ha : (states entityId es)[i]? = some A) (hb : (states entityId es)[j]? = some B) :
    DiffPatches number s entityId (i + 1) (j + 1) A B ↔
      Dict.Patches (Json.Same number) A.1 B.1 (Dict.diff Json.equal A.1 B.1)
        (Dict.diff Json.equal B.1 A.1) := by
  rw [DiffPatches, diff_versions h ha hb, diff_versions h hb ha]
  constructor
  · rintro ⟨d, d', ⟨⟩, ⟨⟩, hp⟩
    exact hp
  · exact fun hp => ⟨_, _, rfl, rfl, hp⟩

theorem patches_objects_iff {number : Number F → Number F → Prop} (hr : ∀ n, number n n)
    (A B : JsonObject F) :
    Dict.Patches (Json.Same number) A.1 B.1 (Dict.diff Json.equal A.1 B.1)
        (Dict.diff Json.equal B.1 A.1) ↔
      ∀ k v w, A.1.lookup k = some v → B.1.lookup k = some w → Json.equal v w = true →
        Json.Same number v w := by
  have hvalue (s : JsonObject F) (p : String × Json F) (hp : p ∈ s.1) : Value.Distinct p.2 :=
    Value.distinctMembers_iff.1 s.2.2 p hp
  apply Dict.patches_iff A.2.1 B.2.1
  · exact fun p hp => Json.same_refl hr p.2 (hvalue B p hp)
  · intro k v w hv hw
    exact Json.equal_comm (hvalue A _ (Dict.lookup_mem hv)) (hvalue B _ (Dict.lookup_mem hw))

/-- Between any two versions of any history the difference is a patch exactly where no key of both
states has two values that Python calls equal but that are not one JSON value. -/
theorem diff_patches_iff {number : Number F → Number F → Prop} (hr : ∀ n, number n n)
    {es : List (Event F)} (hids : (es.map Event.snapId).Nodup) {entityId : String} {i j : Nat}
    {A B : JsonObject F} (ha : (states entityId es)[i]? = some A)
    (hb : (states entityId es)[j]? = some B) :
    DiffPatches number (Store.run es) entityId (i + 1) (j + 1) A B ↔
      ∀ k v w, A.1.lookup k = some v → B.1.lookup k = some w → Json.equal v w = true →
        Json.Same number v w := by
  rw [diffPatches_iff (recorded_run hids) ha hb]
  exact patches_objects_iff hr A B

end

/-- An entity of which two states are saved, one after the other. -/
def twoSaves (stateA stateB : JsonObject WholeFloat) : List (Event WholeFloat) :=
  [.save "e" stateA none ⟨"0123456789ab", rfl⟩ (.finite ⟨0⟩),
    .save "e" stateB none ⟨"0123456789cd", rfl⟩ (.finite ⟨1⟩)]

theorem twoSaves_nodup (stateA stateB : JsonObject WholeFloat) :
    ((twoSaves stateA stateB).map Event.snapId).Nodup := by
  refine List.nodup_cons.2 ⟨fun hm => ?_, List.nodup_singleton _⟩
  have he : "0123456789ab" = "0123456789cd" := congrArg Subtype.val (List.mem_singleton.1 hm)
  exact absurd he (by decide)

/-- The object with one member. -/
def single (k : String) (v : Json WholeFloat) (hv : Value.Distinct v) : JsonObject WholeFloat :=
  ⟨[(k, v)], List.nodup_singleton k, hv, trivial⟩

theorem patches_one_two : DiffPatches Eq
    (Store.run (twoSaves (single "n" (.int 1) trivial) (single "n" (.int 2) trivial)))
    "e" (0 + 1) (1 + 1) (single "n" (.int 1) trivial) (single "n" (.int 2) trivial) := by
  refine (diff_patches_iff (i := 0) (j := 1) (fun _ => rfl) (twoSaves_nodup _ _) rfl rfl).2 ?_
  intro k v w hv hw he
  cases (List.mem_singleton.1 (Dict.lookup_mem hv))
  cases (List.mem_singleton.1 (Dict.lookup_mem hw))
  exact absurd he (by decide)

/-- A truth value that becomes a number is no change, whatever numbers are the same. -/
theorem true_to_one_lost :
    ¬ DiffPatches (fun _ _ => True)
      (Store.run (twoSaves (single "ok" (.bool true) trivial) (single "ok" (.int 1) trivial)))
      "e" (0 + 1) (1 + 1) (single "ok" (.bool true) trivial) (single "ok" (.int 1) trivial) := by
  intro h
  have hp := (diffPatches_iff (i := 0) (j := 1) (recorded_run (twoSaves_nodup _ _)) rfl rfl).1 h
  have hs := (patches_objects_iff (fun _ => trivial) _ _).1 hp "ok" (.bool true) (.int 1) rfl rfl
    (by decide +kernel)
  exact hs

end Obase.SnapshotStore
