import Obase.Concrete
import Obase.Json.Sorted
import Obase.KeyedStore
import Obase.Like
import Obase.Run

namespace Obase.KvStore
set_option autoImplicit true
open Json Run

/-- A row of `kv_store`. -/
structure Row where
  key : String
  value : Option (List Char)
  valueJson : Option (List Char)

/-- `COALESCE(value_json, value)`. -/
def Row.storedValue (r : Row) : Option (List Char) := r.valueJson.or r.value

/-- A dictionary that is put, with any keys that `json.dumps` accepts. -/
structure Document (F : Type) where
  members : List (Key F × Obj F)
  distinct : (Value.dict members : Obj F).Distinct

def Document.value (d : Document F) : Obj F := .dict d.members

/-- `SQLiteKVStore`, with the table that its database holds. -/
structure SQLiteKVStore where
  rows : Table Row.key

namespace SQLiteKVStore

def new : SQLiteKVStore := ⟨Table.empty Row.key⟩

def validateKey (key : String) : Except PyError Unit :=
  if Text.notBlank key.toList then .ok () else .error .valueError

/-- The row of a key in place of what is there. -/
def upsert (t : Table Row.key) (key : String) (encoded : List Char) : Table Row.key :=
  match t.insert ⟨key, some encoded, some encoded⟩ with
  | some t => t
  | none => t.update (fun r => r.key = key)
      (fun r => { r with value := some encoded, valueJson := some encoded }) fun _ => rfl

section
variable [FloatText F]

/-- `_serialize`, of which the sorting and the refusal of `allow_nan=False` raise. -/
def serialize (d : Document F) : Except PyError (List Char) :=
  if strict d.value then
    match tree d.value with
    | some u => .ok (dumps .default u)
    | none => .error .typeError
  else .error .valueError

def put (s : SQLiteKVStore) (key : String) (value : Document F) : Except PyError SQLiteKVStore := do
  validateKey key
  let encoded ← serialize value
  .ok ⟨upsert s.rows key encoded⟩

/-- `json.loads`, of which only the failure is told. -/
def decode (cs : List Char) : Except PyError (Json F) :=
  match loads cs with
  | some v => .ok v
  | none => .error .valueError

def get (s : SQLiteKVStore) (key : String) : Except PyError (Option (Json F)) := do
  validateKey key
  match (s.rows.get key).bind Row.storedValue with
  | none => .ok none
  | some stored =>
    match ← decode stored with
    | .dict ms => .ok (some (.dict ms))
    | _ => .error .valueError

/-- The rows that `WHERE key LIKE ? ORDER BY key` selects. -/
def selectLike (s : SQLiteKVStore) (pre : List Char) : List Row :=
  (s.rows.rows.filter fun r => like pre r.key.toList).insertionSort fun r q => r.key ≤ q.key

def listPrefix (s : SQLiteKVStore) (pre : String) : Except PyError (List (Json F)) :=
  ((s.selectLike (pre.toList ++ ['%'])).filterMap Row.storedValue).mapM decode

end

def delete (s : SQLiteKVStore) (key : String) : Except PyError (Bool × SQLiteKVStore) := do
  validateKey key
  .ok (decide (0 < s.rows.rowcount fun r => r.key = key), ⟨s.rows.select fun r => r.key ≠ key⟩)

def count (s : SQLiteKVStore) : Nat := s.rows.rows.length

end SQLiteKVStore

inductive Call (F : Type) where
  | put (key : String) (value : Document F)
  | get (key : String)
  | listPrefix (pre : String)
  | delete (key : String)
  | count

/-- The store, and the dictionaries that were put and not deleted. -/
structure State (F : Type) where
  store : SQLiteKVStore
  contents : Dict String (Document F)

def State.new : State F := ⟨.new, []⟩

def Call.step [FloatText F] (s : State F) : Call F → State F
  | .put key value =>
    match s.store.put key value with
    | .ok store => ⟨store, Dict.set key value s.contents⟩
    | .error _ => s
  | .delete key =>
    match s.store.delete key with
    | .ok (_, store) => ⟨store, Dict.erase key s.contents⟩
    | .error _ => s
  | _ => s

open SQLiteKVStore

/-- No key is like the pattern of a prefix that does not start with it. -/
def Exact (s : State F) : Call F → Prop
  | .listPrefix pre => ∀ key ∈ Dict.keys s.contents,
      like (pre.toList ++ ['%']) key.toList = true → pre.toList <+: key.toList
  | _ => True

/-- A prefix of characters that stand for themselves is exact for all keys. -/
theorem exact_of_literal (s : State F) {pre : String} (h : ∀ p ∈ pre.toList, Literal p) :
    Exact s (.listPrefix pre) :=
  fun _ _ hl => (like_literal_iff h).1 hl

section
variable [FloatText F]

/-- A value is the same JSON object as a dictionary that was put. -/
def SameJson (w : Json F) (d : Document F) : Prop := arrange w = arrange (roundTrip d.value)

/-- The dictionaries of the keys that start with a text, in the order of the keys. -/
def withPrefix (pre : String) (m : Dict String (Document F)) : List (Document F) :=
  ((m.filter fun p => pre.toList <+: p.1.toList).insertionSort fun p q => p.1 ≤ q.1).map Prod.snd

/-- What a call returns is what the dictionaries that were put and not deleted say. -/
def Answers (s : State F) (call : Call F) (_ : State F) : Prop :=
  match call with
  | .put _ _ => True
  | .get key => Text.notBlank key.toList = true → ∃ r, s.store.get key = .ok r ∧
      match s.contents.lookup key with
      | none => r = none
      | some d => ∃ w, r = some w ∧ SameJson w d
  | .listPrefix pre => ∃ ws, s.store.listPrefix pre = .ok ws ∧
      List.Forall₂ SameJson ws (withPrefix pre s.contents)
  | .delete key => Text.notBlank key.toList = true →
      ∃ store, s.store.delete key = .ok (decide (key ∈ Dict.keys s.contents), store)
  | .count => s.store.count = s.contents.length

/-- A call leads from one state to the next. -/
def Step (s : State F) (call : Call F) (t : State F) : Prop := t = call.step s

/-- The calls, each with the state that it leads to. -/
def states (s : State F) : List (Call F) → List (Call F × State F)
  | [] => []
  | call :: calls => (call, call.step s) :: states (call.step s) calls

/-- The text that a dictionary is stored as. -/
def textOf (d : Document F) : List Char := dumps .default ((tree d.value).getD .null)

def rowOf (key : String) (d : Document F) : Row := ⟨key, some (textOf d), some (textOf d)⟩

/-- The rows are those of the dictionaries that were put and not deleted. -/
structure Kept (s : State F) : Prop where
  rows : s.store.rows.rows = s.contents.map fun p => rowOf p.1 p.2
  accepted : ∀ p ∈ s.contents, serialize p.2 = .ok (textOf p.2)
  distinct : Dict.Distinct s.contents

variable {s : State F} {d : Document F}

theorem serialize_ok {text : List Char} (h : serialize d = .ok text) :
    text = textOf d ∧ ∃ u, tree d.value = some u := by
  rw [serialize] at h
  split at h
  · rw [textOf]
    split at h
    · rename_i u hu
      cases h
      exact ⟨by rw [hu]; rfl, u, hu⟩
    · cases h
  · cases h

/-- What is stored of a dictionary is read back as the same object. -/
theorem decode_textOf (h : serialize d = .ok (textOf d)) :
    ∃ ms, decode (textOf d) = .ok (.dict ms) ∧ SameJson (.dict ms) d := by
  obtain ⟨-, u, hu⟩ := serialize_ok h
  have hsame := arrange_tree_build hu d.distinct
  obtain ⟨ms, hms⟩ : ∃ ms, u.build = .dict ms := by
    obtain ⟨w, hw, rfl⟩ := Option.map_eq_some_iff.1 hu
    obtain ⟨ns, os, rfl, -, -⟩ := sortKeys_dict hw
    exact ⟨_, rfl⟩
  refine ⟨ms, ?_, ?_⟩
  · rw [decode, textOf, hu, Option.getD_some, loads_dumps, hms]
  · rw [SameJson, ← hms]
    exact hsame

theorem mapM_decode {m : Dict String (Document F)}
    (h : ∀ p ∈ m, serialize p.2 = .ok (textOf p.2)) :
    ∃ ws, (m.map fun p => textOf p.2).mapM decode = .ok ws ∧
      List.Forall₂ SameJson ws (m.map Prod.snd) := by
  induction m with
  | nil => exact ⟨[], rfl, .nil⟩
  | cons p m ih =>
    rw [List.forall_mem_cons] at h
    obtain ⟨ms, hd, hs⟩ := decode_textOf h.1
    obtain ⟨ws, hws, hf⟩ := ih h.2
    refine ⟨.dict ms :: ws, ?_, .cons hs hf⟩
    rw [List.map_cons, List.mapM_cons, hd, hws]
    rfl

namespace Kept

theorem keys (h : Kept s) : s.store.rows.rows.map Row.key = Dict.keys s.contents := by
  rw [h.rows, List.map_map]
  rfl

theorem get (h : Kept s) (key : String) :
    s.store.rows.get key = (s.contents.lookup key).map (rowOf key) := by
  cases hl : s.contents.lookup key with
  | none =>
    rw [Option.map_none, Table.get_eq_none_iff, h.keys]
    intro hm
    obtain ⟨d, hd⟩ := Dict.mem_keys_iff.1 hm
    rw [hl] at hd
    cases hd
  | some d =>
    rw [Option.map_some, Table.get_eq_some_iff, h.rows]
    exact ⟨List.mem_map.2 ⟨(key, d), Dict.lookup_mem hl, rfl⟩, rfl⟩

theorem upsert (h : Kept s) {key : String} (hd : serialize d = .ok (textOf d)) :
    Kept ⟨⟨SQLiteKVStore.upsert s.store.rows key (textOf d)⟩, Dict.set key d s.contents⟩ := by
  refine ⟨?_, fun p hp => ?_, h.distinct.set key d⟩
  · dsimp only
    rw [SQLiteKVStore.upsert, Table.insert]
    by_cases hm : key ∈ Dict.keys s.contents
    · rw [dif_pos (h.keys ▸ hm)]
      change s.store.rows.rows.map _ = _
      rw [h.rows, List.map_map, Dict.set_of_mem h.distinct hm, List.map_map]
      refine List.map_congr_left fun p _ => ?_
      by_cases hp : p.1 = key
      · simp [rowOf, hp]
      · simp [rowOf, hp]
    · rw [dif_neg (h.keys ▸ hm), Dict.set_of_not_mem hm, List.map_append]
      change s.store.rows.rows ++ _ = _
      rw [h.rows]
      rfl
  · obtain rfl | hp := Dict.mem_set hp
    · exact hd
    · exact h.accepted p hp

theorem delete (h : Kept s) (key : String) :
    Kept ⟨⟨s.store.rows.select fun r => r.key ≠ key⟩, Dict.erase key s.contents⟩ := by
  refine ⟨?_, fun p hp => h.accepted p (Dict.mem_erase.1 hp).1, h.distinct.erase key⟩
  change s.store.rows.rows.filter _ = _
  rw [h.rows, List.filter_map]
  rfl

theorem step (h : Kept s) (call : Call F) : Kept (call.step s) := by
  cases call with
  | put key value =>
    rw [Call.step]
    split
    · rename_i store hput
      obtain ⟨-, -, hput⟩ := bind_ok hput
      obtain ⟨text, htext, hput⟩ := bind_ok hput
      cases hput
      obtain ⟨rfl, -⟩ := serialize_ok htext
      exact h.upsert htext
    · exact h
  | delete key =>
    rw [Call.step]
    split
    · rename_i b store hdel
      obtain ⟨-, -, hdel⟩ := bind_ok hdel
      cases hdel
      exact h.delete key
    · exact h
  | _ => exact h

/-- The rows like a pattern are those of the keys like it. -/
theorem selectLike (h : Kept s) (ps : List Char) : s.store.selectLike ps =
    ((s.contents.filter fun p => like ps p.1.toList).insertionSort fun p q => p.1 ≤ q.1).map
      fun p => rowOf p.1 p.2 := by
  have hfilter : (s.contents.map fun p => rowOf p.1 p.2).filter (fun r => like ps r.key.toList) =
      (s.contents.filter fun p => like ps p.1.toList).map fun p => rowOf p.1 p.2 :=
    List.filter_map
  rw [SQLiteKVStore.selectLike, h.rows, hfilter,
    List.map_insertionSort (fun p q : String × Document F => p.1 ≤ q.1)
      (fun r q : Row => r.key ≤ q.key)]
  exact fun p _ q _ => Iff.rfl

/-- What a prefix lists are the dictionaries of the keys like its pattern. -/
theorem listPrefix (h : Kept s) (pre : String) : ∃ ws, s.store.listPrefix pre = .ok ws ∧
    List.Forall₂ SameJson ws (((s.contents.filter fun p =>
      like (pre.toList ++ ['%']) p.1.toList).insertionSort fun p q => p.1 ≤ q.1).map Prod.snd) := by
  obtain ⟨ws, hws, hf⟩ := mapM_decode (m := (s.contents.filter fun p =>
      like (pre.toList ++ ['%']) p.1.toList).insertionSort fun p q => p.1 ≤ q.1) fun p hp =>
    h.accepted p (List.mem_of_mem_filter ((List.perm_insertionSort _ _).mem_iff.1 hp))
  refine ⟨ws, ?_, hf⟩
  have hstored {m : Dict String (Document F)} :
      (m.map fun p => rowOf p.1 p.2).filterMap Row.storedValue = m.map fun p => textOf p.2 := by
    rw [List.filterMap_map, ← List.filterMap_eq_map]
    rfl
  rw [SQLiteKVStore.listPrefix, h.selectLike, hstored]
  exact hws

/-- A prefix lists what it should exactly where its pattern is exact. -/
theorem listPrefix_iff (h : Kept s) (pre : String) :
    Answers s (.listPrefix pre) s ↔ Exact s (.listPrefix pre) := by
  obtain ⟨ws, hws, hf⟩ := h.listPrefix pre
  have hsub : (s.contents.filter fun p => pre.toList <+: p.1.toList).Sublist
      (s.contents.filter fun p => like (pre.toList ++ ['%']) p.1.toList) :=
    List.monotone_filter_right _ fun p hp => like_of_startsWith (of_decide_eq_true hp)
  constructor
  · rintro ⟨ws', hws', hf'⟩ key hkey hlike
    cases hws.symm.trans hws'
    have hlen := hf'.length_eq.symm.trans hf.length_eq
    rw [withPrefix, List.length_map, List.length_map, List.length_insertionSort,
      List.length_insertionSort] at hlen
    have he := hsub.eq_of_length hlen
    obtain ⟨p, hp, rfl⟩ := List.mem_map.1 hkey
    have hm : p ∈ s.contents.filter fun p => like (pre.toList ++ ['%']) p.1.toList :=
      List.mem_filter.2 ⟨hp, hlike⟩
    rw [← he] at hm
    exact of_decide_eq_true (List.mem_filter.1 hm).2
  · intro hx
    refine ⟨ws, hws, ?_⟩
    have he : (s.contents.filter fun p => pre.toList <+: p.1.toList) =
        s.contents.filter fun p => like (pre.toList ++ ['%']) p.1.toList := by
      refine List.filter_congr fun p hp => ?_
      rw [Bool.eq_iff_iff, decide_eq_true_eq]
      exact ⟨like_of_startsWith, hx p.1 (List.mem_map_of_mem hp)⟩
    rw [withPrefix, he]
    exact hf

theorem answers_iff (h : Kept s) (call : Call F) :
    Answers s call (call.step s) ↔ Exact s call := by
  cases call with
  | put key value => exact Iff.rfl
  | get key =>
    refine iff_of_true (fun hb => ?_) trivial
    have hv : validateKey key = .ok () := if_pos hb
    rw [SQLiteKVStore.get, hv, h.get]
    cases hl : s.contents.lookup key with
    | none => exact ⟨none, rfl, rfl⟩
    | some d =>
      obtain ⟨ms, hms, hsame⟩ := decode_textOf (h.accepted _ (Dict.lookup_mem hl))
      refine ⟨some (.dict ms), ?_, _, rfl, hsame⟩
      change (decode (textOf d)).bind _ = _
      rw [hms]
      rfl
  | listPrefix pre => exact h.listPrefix_iff pre
  | delete key =>
    refine iff_of_true (fun hb => ?_) trivial
    have hv : validateKey key = .ok () := if_pos hb
    refine ⟨⟨s.store.rows.select fun r => r.key ≠ key⟩, ?_⟩
    rw [SQLiteKVStore.delete, hv]
    have hcount : 0 < s.store.rows.rowcount (fun r => r.key = key) ↔
        key ∈ Dict.keys s.contents := by
      rw [Table.rowcount, List.countP_pos_iff, ← h.keys, List.mem_map]
      simp only [decide_eq_true_eq]
    change Except.ok _ = Except.ok _
    rw [decide_eq_decide.2 hcount]
  | count =>
    refine iff_of_true ?_ trivial
    change s.store.rows.rows.length = _
    rw [h.rows, List.length_map]

theorem new : Kept (State.new : State F) := ⟨rfl, fun _ hp => (nomatch hp), List.nodup_nil⟩

end Kept

theorem states_trace (s : State F) (calls : List (Call F)) : Trace Step s (states s calls) := by
  induction calls generalizing s with
  | nil => trivial
  | cons call calls ih => exact ⟨rfl, ih _⟩

/-- In every run of a new store, all calls are answered as the dictionaries that were put and not
deleted say, exactly when every prefix that is listed is exact for the keys that are there. -/
theorem answers_iff_exact (calls : List (Call F)) :
    Along Answers .new (states .new calls) ↔ Always Exact .new (states .new calls) := by
  refine (states_trace _ calls).along_iff (I := Kept) Kept.new ?_
  rintro s call t hs rfl
  exact ⟨hs.step call, hs.answers_iff call⟩

end

/-- An object with one member. -/
def one : Document WholeFloat := ⟨[(.str "n", .int 1)], by
  refine ⟨?_, trivial, trivial⟩
  exact List.nodup_singleton _⟩

/-- A prefix in capitals lists a key in small letters. -/
theorem prefix_folds_case :
    ¬ Along Answers .new (states .new [.put "user:1" one, .listPrefix "USER:"]) := by
  rintro ⟨-, h, -⟩
  have hx := ((Kept.new.step (.put "user:1" one)).listPrefix_iff "USER:").1 h
  exact absurd (hx "user:1" (.head _) rfl) (by decide)

end Obase.KvStore
