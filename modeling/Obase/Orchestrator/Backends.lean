import Obase.Concrete
import Obase.Json.RoundTrip
import Obase.Orchestrator.Records

namespace Obase.Orchestrator
set_option autoImplicit true

variable {F T : Type}

section
variable [Json.FloatText F] {I : IsoTimes T} {s : Record F T}

/-- What either backend writes of a state is parsed as the state. -/
theorem parseRun_of_loads {text : List Char} (h : s.Good I)
    (ht : Json.loads text = some (s.toDict I).build) (now : T) (newId : String) :
    parseRun I now newId text = .loaded (some s) := by
  rw [Value.build_of_distinct _ h.toDict] at ht
  rw [parseRun, ht]
  dsimp only
  rw [Record.fromDict_toDict h.aware]

end

/-- What a backend keeps: the last state that was saved for each run. -/
def idealCall (kept : String → Option (Record F T)) :
    BackendCall F T → (String → Option (Record F T)) × BackendAnswer F T
  | .isSaved runId => (kept, .found (kept runId).isSome)
  | .save s => (Function.update kept s.runId (some s), .saved)
  | .load runId _ _ => (kept, .loaded (kept runId))

/-- The run id is a single component of a path, and a state that is saved is one that JSON and the
class can hold. -/
def BackendCall.Valid (I : IsoTimes T) : BackendCall F T → Prop
  | .isSaved runId | .load runId _ _ => Path.IsName runId
  | .save s => Path.IsName s.runId ∧ s.Good I

section
variable {I : IsoTimes T} {base : Path} {t : FileTree} {kept : String → Option (Record F T)}

/-- `idealCall` keeps states that JSON and the class can hold. -/
theorem idealCall_good {c : BackendCall F T} (hc : c.Valid I)
    (h : ∀ runId s, kept runId = some s → s.Good I) :
    ∀ runId s, (idealCall kept c).1 runId = some s → s.Good I := by
  cases c with
  | isSaved runId => exact h
  | load runId now newId => exact h
  | save s' =>
    intro runId s hs
    dsimp only [idealCall] at hs
    by_cases he : runId = s'.runId
    · rw [he, Function.update_self, Option.some.injEq] at hs
      exact hs ▸ hc.2
    · rw [Function.update_of_ne he] at hs
      exact h runId s hs

variable [Json.FloatText F]

/-- The files below the working directory are those of the kept states, and none is in the way of
another. -/
structure FilesKept (I : IsoTimes T) (base : Path) (t : FileTree)
    (kept : String → Option (Record F T)) : Prop where
  free : ∀ runId, Path.IsName runId → ∀ q, q <+: base ++ [runId] → t.content q = none
  notDir : ∀ runId, Path.IsName runId → t.isDir (base ++ [runId, "run_state.json"]) = false
  stored : ∀ runId, Path.IsName runId → t.content (base ++ [runId, "run_state.json"]) =
    (kept runId).map fun s => Json.dumpsAscii .default (s.toDict I)
  good : ∀ runId s, kept runId = some s → s.Good I

theorem not_prefix_run (base : Path) (runId runId' : String) :
    ¬ base ++ [runId', "run_state.json"] <+: base ++ [runId] := by
  intro h
  have hle := h.length_le
  simp at hle

theorem FilesKept.mkdirs {t' : FileTree} {p : Path} {runId : String} (h : FilesKept I base t kept)
    (hp : p <+: base ++ [runId]) (ht : t.mkdirs p = .ok t') : FilesKept I base t' kept := by
  obtain ⟨-, -, he⟩ := FileTree.mkdirs_ok ht
  refine ⟨fun r hr q hq => ?_, fun r hr => ?_, fun r hr => ?_, h.good⟩
  · rw [FileTree.content_mkdirs ht]
    exact h.free r hr q hq
  · have hd := h.notDir r hr
    rw [Bool.eq_false_iff, Ne, FileTree.isDir_iff] at hd ⊢
    rw [he, if_neg fun hq => not_prefix_run base runId r (hq.trans hp)]
    exact hd
  · rw [FileTree.content_mkdirs ht]
    exact h.stored r hr

theorem FilesKept.runDir {runId : String} (h : FilesKept I base t kept)
    (hr : Path.IsName runId) :
    ∃ t', fsRunDir base t runId = .ok (t', base ++ [runId]) ∧ FilesKept I base t' kept := by
  have hbase : base <+: base ++ [runId] := List.prefix_append ..
  obtain ⟨t₁, h₁⟩ := FileTree.mkdirs_of_free fun q hq => h.free runId hr q (hq.trans hbase)
  have hk₁ := h.mkdirs hbase h₁
  obtain ⟨t₂, h₂⟩ := FileTree.mkdirs_of_free (hk₁.free runId hr)
  refine ⟨t₂, ?_, hk₁.mkdirs (List.prefix_refl _) h₂⟩
  rw [fsRunDir, Path.resolve_name base hr, h₁]
  simp only [bind, Except.bind, h₂, pure, Except.pure]

theorem FilesKept.entry {runId : String} (h : FilesKept I base t kept) (hr : Path.IsName runId) :
    (t.entry (base ++ [runId, "run_state.json"])).isSome = (kept runId).isSome := by
  have hd := h.notDir runId hr
  have hs := h.stored runId hr
  rw [FileTree.isDir] at hd
  rw [FileTree.content] at hs
  cases he : t.entry (base ++ [runId, "run_state.json"]) with
  | none =>
    rw [he] at hs
    rw [Option.map_eq_none_iff.1 hs.symm]
    rfl
  | some e =>
    rw [he] at hd hs
    cases e with
    | directory => cases hd
    | file cs =>
      obtain ⟨s, hs, -⟩ := Option.map_eq_some_iff.1 hs.symm
      rw [hs]
      rfl

theorem FilesKept.write {runId : String} {s : Record F T} (h : FilesKept I base t kept)
    (hr : Path.IsName runId) (hs : s.Good I) :
    ∃ t', t.writeText (base ++ [runId, "run_state.json"])
        (Json.dumpsAscii .default (s.toDict I)) = .ok t' ∧
      FilesKept I base t' (Function.update kept runId (some s)) := by
  refine ⟨_, by rw [FileTree.writeText, if_neg (by simp [h.notDir runId hr])], ?_⟩
  have hw : t.writeText (base ++ [runId, "run_state.json"])
      (Json.dumpsAscii .default (s.toDict I)) =
      .ok (Dict.set (base ++ [runId, "run_state.json"])
        (.file (Json.dumpsAscii .default (s.toDict I))) t) := by
    rw [FileTree.writeText, if_neg (by simp [h.notDir runId hr])]
  obtain ⟨-, -, he⟩ := FileTree.writeText_ok hw
  have hne (r : String) (hne : r ≠ runId) :
      base ++ [r, "run_state.json"] ≠ base ++ [runId, "run_state.json"] := by
    intro hc
    simp only [List.append_cancel_left_eq, List.cons.injEq, and_true] at hc
    exact hne hc
  refine ⟨fun r hr' q hq => ?_, fun r hr' => ?_, fun r hr' => ?_, fun r s' hs' => ?_⟩
  · have hq' : q ≠ base ++ [runId, "run_state.json"] := by
      rintro rfl
      exact not_prefix_run base r runId hq
    rw [FileTree.content, he, if_neg hq']
    exact h.free r hr' q hq
  · have hd := h.notDir r hr'
    rw [Bool.eq_false_iff, Ne, FileTree.isDir_iff] at hd ⊢
    rw [he]
    by_cases hrr : base ++ [r, "run_state.json"] = base ++ [runId, "run_state.json"]
    · rw [if_pos hrr]
      exact fun hc => by cases hc
    · rwa [if_neg hrr]
  · rw [FileTree.content, he]
    by_cases hrr : r = runId
    · rw [hrr, if_pos rfl, Function.update_self]
      rfl
    · rw [if_neg (hne r hrr), Function.update_of_ne hrr]
      exact h.stored r hr'
  · by_cases hrr : r = runId
    · rw [hrr, Function.update_self, Option.some.injEq] at hs'
      exact hs' ▸ hs
    · rw [Function.update_of_ne hrr] at hs'
      exact h.good r s' hs'

/-- A call on the files answers what is kept. -/
theorem FilesKept.call (h : FilesKept I base t kept) {c : BackendCall F T} (hc : c.Valid I) :
    (fileCall I base t c).2 = (idealCall kept c).2 ∧
      FilesKept I base (fileCall I base t c).1 (idealCall kept c).1 := by
  have hpath (r : String) : base ++ [r] ++ ["run_state.json"] = base ++ [r, "run_state.json"] := by
    rw [List.append_assoc]
    rfl
  cases c with
  | isSaved runId =>
    obtain ⟨t', hd, hk⟩ := h.runDir hc
    rw [fileCall, withRunDir, hd]
    dsimp only
    rw [hpath, hk.entry hc]
    exact ⟨rfl, hk⟩
  | save s =>
    obtain ⟨t₁, hd, hk₁⟩ := h.runDir hc.1
    obtain ⟨t₂, h₂⟩ := FileTree.mkdirs_of_free (hk₁.free s.runId hc.1)
    obtain ⟨t₃, h₃, hk₃⟩ := (hk₁.mkdirs (List.prefix_refl _) h₂).write hc.1 hc.2
    rw [fileCall, withRunDir, hd]
    dsimp only
    rw [hpath, h₂, Except.bind, h₃]
    dsimp only
    exact ⟨rfl, hk₃⟩
  | load runId now newId =>
    have hr : Path.IsName runId := hc
    obtain ⟨t', hd, hk⟩ := h.runDir hr
    rw [fileCall, withRunDir, hd]
    dsimp only
    rw [hpath, hk.entry hr]
    have hs := hk.stored runId hr
    cases hkept : kept runId with
    | none =>
      rw [idealCall, hkept]
      exact ⟨rfl, hk⟩
    | some s =>
      rw [hkept, Option.map_some, ← FileTree.readText_ok] at hs
      rw [Option.isSome_some, if_pos rfl, hs, idealCall, hkept]
      exact ⟨parseRun_of_loads (h.good runId s hkept) (Json.loads_dumpsAscii ..) now newId, hk⟩

theorem FilesKept.start (I : IsoTimes T) (base : Path) :
    FilesKept (F := F) I base (FileTree.root base) fun _ => none := by
  refine ⟨fun r hr q hq => FileTree.root_content base q, fun r hr => ?_,
    fun r hr => FileTree.root_content base _, fun r s hs => by cases hs⟩
  rw [Bool.eq_false_iff, Ne, FileTree.isDir_iff, FileTree.root_entry, if_neg]
  · exact fun hc => by cases hc
  · intro hp
    have hle := hp.length_le
    simp at hle

/-- The rows of the table are those of the kept states. -/
structure RowsKept (I : IsoTimes T) (runs : Dict String (List Char))
    (kept : String → Option (Record F T)) : Prop where
  stored : ∀ runId, runs.lookup runId =
    (kept runId).map fun s => Json.dumps .default (s.toDict I)
  good : ∀ runId s, kept runId = some s → s.Good I

theorem RowsKept.start (I : IsoTimes T) : RowsKept (F := F) I [] fun _ => none :=
  ⟨fun _ => rfl, fun _ _ hs => by cases hs⟩

/-- A call on the table answers what is kept. -/
theorem RowsKept.call {runs : Dict String (List Char)} (h : RowsKept I runs kept)
    {c : BackendCall F T} (hc : c.Valid I) :
    (sqliteCall I runs c).2 = (idealCall kept c).2 ∧
      RowsKept I (sqliteCall I runs c).1 (idealCall kept c).1 := by
  cases c with
  | isSaved runId =>
    refine ⟨?_, h⟩
    rw [sqliteCall, h.stored, Option.isSome_map]
    rfl
  | save s =>
    refine ⟨rfl, fun runId => ?_, idealCall_good hc h.good⟩
    rw [sqliteCall, Dict.lookup_set]
    dsimp only [idealCall]
    by_cases hr : runId = s.runId
    · rw [if_pos hr, hr, Function.update_self]
      rfl
    · rw [if_neg hr, Function.update_of_ne hr]
      exact h.stored runId
  | load runId now newId =>
    have hs := h.stored runId
    cases hr : kept runId with
    | none =>
      rw [hr] at hs
      rw [sqliteCall, hs, idealCall, hr]
      exact ⟨rfl, h⟩
    | some s =>
      rw [hr, Option.map_some] at hs
      rw [sqliteCall, hs, idealCall, hr]
      exact ⟨parseRun_of_loads (h.good runId s hr) (Json.loads_dumps ..) now newId, h⟩

end

end Obase.Orchestrator
