import Obase.Casing
import Obase.Dict
import Obase.Run

namespace Obase.Config
set_option autoImplicit true

/-- A value of a configuration: a mapping, or an object that is not looked into. -/
inductive Data (κ D : Type) where
  | dict (items : List (κ × Data κ D))
  | atom (x : D)

abbrev Mapping (κ D : Type) := Dict κ (Data κ D)

inductive ConfigError where
  | os (path : String)
  | yaml (text : String)
  | notMapping (path : String)
  | validationFailed (text : String)
deriving DecidableEq

/-- What the interpreter, the YAML library and the environment give to `load_config`, with its
arguments but for the paths. -/
structure Loader (κ D B : Type) where
  casing : Casing
  safeLoad : B → Except ConfigError (Data κ D)
  truthy : D → Bool
  keyOfStr : String → κ
  atomOfStr : String → D
  environ : List (String × String)
  envPrefix : String
  schema : Option (Mapping κ D → Except String (Mapping κ D))

section
variable {κ D B : Type} [DecidableEq κ]

mutual
/-- The value that a key has after the merge. -/
def mergeValue : Option (Data κ D) → Data κ D → Data κ D
  | some (.dict existing), .dict value => .dict (deepMerge existing value)
  | _, value => value
/-- `_deep_merge`, over the items of `override`. -/
def deepMerge (result : Mapping κ D) : List (κ × Data κ D) → Mapping κ D
  | [] => result
  | (key, value) :: items =>
    deepMerge (result.set key (mergeValue (result.lookup key) value)) items
end

/-- A path: no file is there, or one that cannot be read, or one with a content. -/
inductive FileState (B : Type) where
  | absent
  | unreadable
  | content (b : B)
deriving DecidableEq

namespace Loader

/-- One turn of the loop over the paths. -/
def loadFile (ld : Loader κ D B) (path : String) (merged : Mapping κ D) :
    FileState B → Except ConfigError (Mapping κ D)
  | .absent => .ok merged
  | .unreadable => .error (.os path)
  | .content b =>
    match ld.safeLoad b with
    | .error e => .error e
    | .ok (.dict items) => .ok (deepMerge merged items)
    | .ok (.atom x) => if ld.truthy x then .error (.notMapping path) else .ok (deepMerge merged [])

/-- The overrides from the environment. -/
def override (ld : Loader κ D B) (merged : Mapping κ D) : Mapping κ D :=
  if ld.envPrefix = "" then merged
  else ld.environ.foldl (fun merged e =>
    if ld.envPrefix.toList.isPrefixOf e.1.toList then
      match ld.casing.lower (e.1.toList.drop ld.envPrefix.length) with
      | [] => merged
      | key => merged.set (ld.keyOfStr (String.ofList key)) (.atom (ld.atomOfStr e.2))
    else merged) merged

/-- What `load_config` does with the merged files. -/
def finish (ld : Loader κ D B) (merged : Mapping κ D) : Except ConfigError (Mapping κ D) :=
  let merged := ld.override merged
  match ld.schema with
  | none => .ok merged
  | some validate =>
    match validate merged with
    | .ok dump => .ok dump
    | .error e => .error (.validationFailed ("Config validation failed: " ++ e))

def loadFiles (ld : Loader κ D B) (files : String → FileState B) (merged : Mapping κ D) :
    List String → Except ConfigError (Mapping κ D)
  | [] => ld.finish merged
  | p :: paths =>
    match ld.loadFile p merged (files p) with
    | .ok merged => ld.loadFiles files merged paths
    | .error e => .error e

/-- `load_config` of files that do not change meanwhile. -/
def loadConfig (ld : Loader κ D B) (paths : List String) (files : String → FileState B) :
    Except ConfigError (Mapping κ D) :=
  ld.loadFiles files [] paths

end Loader

/-- The digest of a file, or `None` where it cannot be read. -/
def FileState.digest (sha256 : B → H) : FileState B → Option H
  | .content b => some (sha256 b)
  | _ => none

/-- What the watcher is about to do. -/
inductive Phase (κ D H : Type) where
  | sleeping
  | signing (todo : List String) (current : Dict String (Option H))
  | loading (todo : List String) (merged : Mapping κ D)
  | calling (cfg : Mapping κ D)
  | dead

/-- The files, the watcher, and what has been observed: the configuration that was last passed to
the callback, the files as the latest signature and the first one saw them, the states in which the
files were last loaded, or at first seen, and whether a watched file has changed since before the
latest signature. -/
structure State (κ D B H : Type) where
  files : String → FileState B
  phase : Phase κ D H
  last : Option (Dict String (Option H))
  called : Option (Mapping κ D)
  seen : String → FileState B
  first : String → FileState B
  known : List (String × FileState B)
  changed : Bool

/-- `watch_config` before it has read a file. -/
def State.start (paths : List String) (files : String → FileState B) : State κ D B H :=
  ⟨files, .signing paths [], none, none, files, files, [], false⟩

inductive Event (B : Type) where
  | change (path : String) (file : FileState B)
  | wake
  | sign
  | compare
  | load
  | finish
  | callback (returns : Bool)

variable {H : Type} [DecidableEq H]

/-- The steps of the watcher on its paths and those of other processes; the first signature is only
remembered. -/
inductive Step (ld : Loader κ D B) (sha256 : B → H) (paths : List String) :
    State κ D B H → Event B → State κ D B H → Prop
  | change (path : String) (file : FileState B) (h : file ≠ s.files path) :
      Step ld sha256 paths s (.change path file)
        { s with
          files := fun p => if p = path then file else s.files p
          changed := s.changed || decide (path ∈ paths) }
  | wake (h : s.phase = .sleeping) :
      Step ld sha256 paths s .wake { s with phase := .signing paths [], changed := false }
  | sign (h : s.phase = .signing (p :: todo) current) :
      Step ld sha256 paths s .sign
        { s with
          phase := .signing todo (current.set p ((s.files p).digest sha256))
          seen := fun q => if q = p then s.files p else s.seen q }
  | started (h : s.phase = .signing [] current) (hl : s.last = none) :
      Step ld sha256 paths s .compare
        { s with
          phase := .sleeping
          last := some current
          first := s.seen
          known := paths.map fun p => (p, s.seen p) }
  | same (h : s.phase = .signing [] current) (hl : s.last = some current) :
      Step ld sha256 paths s .compare { s with phase := .sleeping }
  | differs (h : s.phase = .signing [] current) (hl : s.last = some last)
      (hne : current ≠ last) :
      Step ld sha256 paths s .compare
        { s with phase := .loading paths [], last := some current, known := [] }
  | loaded (h : s.phase = .loading (p :: todo) merged)
      (ho : ld.loadFile p merged (s.files p) = .ok merged') :
      Step ld sha256 paths s .load
        { s with phase := .loading todo merged', known := s.known ++ [(p, s.files p)] }
  | loadFails (h : s.phase = .loading (p :: todo) merged)
      (ho : ld.loadFile p merged (s.files p) = .error e) :
      Step ld sha256 paths s .load
        { s with phase := .sleeping, known := s.known ++ [(p, s.files p)] }
  | finished (h : s.phase = .loading [] merged) (ho : ld.finish merged = .ok cfg) :
      Step ld sha256 paths s .finish { s with phase := .calling cfg }
  | finishFails (h : s.phase = .loading [] merged) (ho : ld.finish merged = .error e) :
      Step ld sha256 paths s .finish { s with phase := .sleeping }
  | returns (h : s.phase = .calling cfg) :
      Step ld sha256 paths s (.callback true) { s with phase := .sleeping, called := some cfg }
  | raises (h : s.phase = .calling cfg) :
      Step ld sha256 paths s (.callback false) { s with phase := .dead, called := some cfg }

end

section
variable {κ D B H : Type} [DecidableEq κ]

/-- The watcher sleeps, and no watched file has changed since before its latest signature. -/
def State.Quiet (s : State κ D B H) : Prop := s.phase = .sleeping ∧ s.changed = false

/-- The last configuration that was passed on is that of the files; or none was passed on, and the
files are those of the start; or the files do not load. -/
def Converged (ld : Loader κ D B) (paths : List String) (s : State κ D B H)
    (files : String → FileState B) : Prop :=
  (∃ cfg, s.called = some cfg ∧ ld.loadConfig paths files = .ok cfg) ∨
    (s.called = none ∧ ∀ p ∈ paths, files p = s.first p) ∨
    ∃ e, ld.loadConfig paths files = .error e

/-- The files are as the watcher last knew them. -/
def State.Knows (s : State κ D B H) (files : String → FileState B) : Prop :=
  ∀ e ∈ s.known, files e.1 = e.2

/-- A signature that is equal to the remembered one has seen the files as they were last loaded. -/
def Steady (s : State κ D B H) : Event B → Prop
  | .compare => ∀ current, s.phase = .signing [] current → s.last = some current → s.Knows s.seen
  | _ => True

omit [DecidableEq κ] in
theorem Steady.compare {s : State κ D B H}
    (h : ∀ current, s.phase = .signing [] current → s.last ≠ some current) :
    Steady s (.compare : Event B) :=
  fun current hp hl => (h current hp hl).elim

/-- The paths whose files the signature has still to read. -/
def Phase.unread : Phase κ D H → List String
  | .signing todo _ => todo
  | _ => []

/-- What holds of files that are as the watcher last knew them. -/
def PhaseInv (ld : Loader κ D B) (paths : List String) (s : State κ D B H)
    (files : String → FileState B) : Prop :=
  match s.phase with
  | .sleeping => Converged ld paths s files
  | .signing _ _ => s.last = none ∨ Converged ld paths s files
  | .loading todo merged => ld.loadFiles files merged todo = ld.loadConfig paths files
  | .calling cfg => ld.loadConfig paths files = .ok cfg
  | .dead => True

/-- The paths that the watcher still looks at in this phase are among the watched ones. -/
def Phase.Within (paths : List String) : Phase κ D H → Prop
  | .loading todo _ => todo ⊆ paths
  | _ => True

def Phase.IsSigning : Phase κ D H → Prop
  | .signing _ _ => True
  | _ => False

structure Inv (ld : Loader κ D B) (paths : List String) (s : State κ D B H) : Prop where
  phase : ∀ files, s.Knows files → PhaseInv ld paths s files
  within : s.phase.Within paths
  watched : ∀ e ∈ s.known, e.1 ∈ paths
  fresh : s.changed = false → ∀ p ∈ paths, p ∉ s.phase.unread → s.files p = s.seen p
  current : s.changed = false → ¬s.phase.IsSigning → s.Knows s.files
  silent : s.last = none → s.called = none ∧ s.phase.IsSigning

theorem Inv.start (ld : Loader κ D B) (paths : List String) (files : String → FileState B) :
    Inv (H := H) ld paths (.start paths files) :=
  ⟨fun _ _ => .inl rfl, trivial, List.forall_mem_nil _, fun _ _ hp hn => (hn hp).elim,
    fun _ hn => (hn trivial).elim, fun _ => ⟨rfl, trivial⟩⟩

omit [DecidableEq κ] in
/-- What is known of the files still holds once one more is. -/
theorem State.Knows.init {s s' : State κ D B H} {e : String × FileState B}
    {files : String → FileState B} (h : s'.Knows files) (hk : s'.known = s.known ++ [e]) :
    s.Knows files ∧ files e.1 = e.2 := by
  rw [Knows, hk, List.forall_mem_append] at h
  exact ⟨h.1, h.2 e (List.mem_singleton_self e)⟩

theorem Inv.step {ld : Loader κ D B} {sha256 : B → H} {paths : List String}
    {s s' : State κ D B H} {a : Event B} (h : Inv ld paths s) (ha : Steady s a)
    (hs : Step ld sha256 paths s a s') : Inv ld paths s' := by
  obtain ⟨hphase, hwithin, hwatched, hfresh, hcurrent, hsilent⟩ := h
  simp only [PhaseInv] at hphase
  cases hs with
  | change path file hne =>
    have hpath (hc : (s.changed || decide (path ∈ paths)) = false) (p : String) (hp : p ∈ paths) :
        s.changed = false ∧ p ≠ path := by
      rw [Bool.or_eq_false_iff] at hc
      refine ⟨hc.1, ?_⟩
      rintro rfl
      exact of_decide_eq_false hc.2 hp
    refine ⟨hphase, hwithin, hwatched, fun hc p hp hn => ?_, fun hc hn e he => ?_, hsilent⟩
    · obtain ⟨hc, hne⟩ := hpath hc p hp
      exact (if_neg hne).trans (hfresh hc p hp hn)
    · obtain ⟨hc, hne⟩ := hpath hc e.1 (hwatched e he)
      exact (if_neg hne).trans (hcurrent hc hn e he)
  | wake hp =>
    rw [hp] at hphase hsilent
    exact ⟨fun files hk => .inr (hphase files hk), trivial, hwatched,
      fun _ p hp hn => (hn hp).elim, fun _ hn => (hn trivial).elim,
      fun hl => (hsilent hl).2.elim⟩
  | @sign _ p todo current hp =>
    rw [hp] at hphase hfresh hsilent
    refine ⟨hphase, trivial, hwatched, fun hc q hq hn => ?_, fun _ hn => (hn trivial).elim,
      hsilent⟩
    dsimp only
    split
    · rename_i he
      rw [he]
    · rename_i he
      refine hfresh hc q hq fun hm => ?_
      obtain rfl | hm := List.mem_cons.1 hm
      · exact he rfl
      · exact hn hm
  | started hp hl =>
    rw [hp] at hfresh
    refine ⟨fun files hk => .inr (.inl ⟨(hsilent hl).1, fun p hp => ?_⟩), trivial, fun e he => ?_,
      hfresh, fun hc _ e he => ?_, nofun⟩
    · exact hk (p, s.seen p) (List.mem_map_of_mem hp)
    · obtain ⟨p, hp, rfl⟩ := List.mem_map.1 he
      exact hp
    · obtain ⟨p, hp, rfl⟩ := List.mem_map.1 he
      exact hfresh hc p hp (List.not_mem_nil)
  | same hp hl =>
    rw [hp] at hphase hfresh
    refine ⟨fun files hk => ?_, trivial, hwatched, hfresh, fun hc _ e he => ?_, fun hn => ?_⟩
    · obtain hn | hconv := hphase files hk
      · rw [hl] at hn
        cases hn
      · exact hconv
    · exact (hfresh hc e.1 (hwatched e he) List.not_mem_nil).trans (ha _ hp hl e he)
    · rw [hl] at hn
      cases hn
  | differs hp hl hne =>
    rw [hp] at hfresh
    exact ⟨fun _ _ => rfl, fun _ hm => hm, List.forall_mem_nil _, hfresh,
      fun _ _ => List.forall_mem_nil _, nofun⟩
  | @loaded p merged merged' _ todo hp ho =>
    rw [hp] at hphase hwithin hfresh hcurrent hsilent
    have hw : p ∈ paths := hwithin (List.mem_cons_self ..)
    refine ⟨fun files hk => ?_, fun _ hq => hwithin (List.mem_cons_of_mem _ hq), ?_, hfresh,
      fun hc hn => ?_, hsilent⟩
    · obtain ⟨hk, hf⟩ := hk.init rfl
      have hload : ld.loadFiles files merged (p :: todo) = _ := hphase files hk
      rw [Loader.loadFiles, hf, ho] at hload
      exact hload
    · exact List.forall_mem_append.2 ⟨hwatched, List.forall_mem_singleton.2 hw⟩
    · exact List.forall_mem_append.2 ⟨hcurrent hc hn, List.forall_mem_singleton.2 rfl⟩
  | @loadFails p merged e _ todo hp ho =>
    rw [hp] at hphase hwithin hfresh hcurrent hsilent
    have hw : p ∈ paths := hwithin (List.mem_cons_self ..)
    refine ⟨fun files hk => ?_, trivial, ?_, hfresh, fun hc hn => ?_,
      fun hl => (hsilent hl).2.elim⟩
    · obtain ⟨hk, hf⟩ := hk.init rfl
      have hload : ld.loadFiles files merged (p :: todo) = _ := hphase files hk
      rw [Loader.loadFiles, hf, ho] at hload
      exact .inr (.inr ⟨_, hload.symm⟩)
    · exact List.forall_mem_append.2 ⟨hwatched, List.forall_mem_singleton.2 hw⟩
    · exact List.forall_mem_append.2 ⟨hcurrent hc hn, List.forall_mem_singleton.2 rfl⟩
  | @finished merged cfg _ hp ho =>
    rw [hp] at hphase hfresh hcurrent hsilent
    refine ⟨fun files hk => ?_, trivial, hwatched, hfresh, hcurrent, hsilent⟩
    have hload : ld.loadFiles files merged [] = _ := hphase files hk
    rw [Loader.loadFiles, ho] at hload
    exact hload.symm
  | @finishFails merged e _ hp ho =>
    rw [hp] at hphase hfresh hcurrent hsilent
    refine ⟨fun files hk => ?_, trivial, hwatched, hfresh, hcurrent, hsilent⟩
    have hload : ld.loadFiles files merged [] = _ := hphase files hk
    rw [Loader.loadFiles, ho] at hload
    exact .inr (.inr ⟨_, hload.symm⟩)
  | returns hp =>
    rw [hp] at hphase hfresh hcurrent hsilent
    exact ⟨fun files hk => .inl ⟨_, rfl, hphase files hk⟩, trivial, hwatched, hfresh, hcurrent,
      fun hl => (hsilent hl).2.elim⟩
  | raises hp =>
    rw [hp] at hfresh hcurrent hsilent
    exact ⟨fun _ _ => trivial, trivial, hwatched, hfresh, hcurrent,
      fun hl => (hsilent hl).2.elim⟩

/-- In a run whose signatures are never equal to one after which the files were loaded in another
state, the watcher converges to the files. -/
theorem watch_converges {ld : Loader κ D B} {sha256 : B → H} {paths : List String}
    {files : String → FileState B} {s : State κ D B H}
    (h : Run.Reaches (Step ld sha256 paths) Steady (.start paths files) s) (hq : s.Quiet) :
    Converged ld paths s s.files := by
  have hi : Inv ld paths s :=
    h.invariant (.start ld paths files) fun _ _ _ hi ha hs => hi.step ha hs
  obtain ⟨hp, hc⟩ := hq
  have hcurrent := hi.current hc
  have hphase := hi.phase s.files
  rw [PhaseInv, hp] at hphase
  rw [hp] at hcurrent
  exact hphase (hcurrent id)

end

/-- Documents of one number, without a prefix or a schema. -/
def levels : Loader String Nat String where
  casing := Casing.ascii
  safeLoad b :=
    if b = "level: 1" then .ok (.dict [("level", .atom 1)])
    else if b = "level: 2" then .ok (.dict [("level", .atom 2)])
    else .error (.yaml b)
  truthy n := n != 0
  keyOfStr := id
  atomOfStr _ := 0
  environ := []
  envPrefix := ""
  schema := none

/-- The file is changed once and loaded as it is then. -/
theorem watch_converges_level : ∃ s : State String Nat String String,
    Run.Reaches (Step levels id ["a.yaml"]) Steady
      (.start ["a.yaml"] fun _ => .content "level: 2") s ∧
    s.Quiet ∧ Converged levels ["a.yaml"] s s.files := by
  have hstart : Run.Reaches (Step levels id ["a.yaml"]) Steady _ _ :=
    .refl (.start ["a.yaml"] fun _ => .content "level: 2")
  have hrun := hstart
    |>.tail (a := Event.sign) trivial (.sign rfl)
    |>.tail (a := Event.compare) (.compare nofun) (.started rfl rfl)
    |>.tail (a := Event.change "a.yaml" (.content "level: 1")) trivial (.change _ _ (by decide))
    |>.tail (a := Event.wake) trivial (.wake rfl)
    |>.tail (a := Event.sign) trivial (.sign rfl)
    |>.tail (a := Event.compare) (.compare (by rintro _ ⟨⟩; decide)) (.differs rfl rfl (by decide))
    |>.tail (a := Event.load) trivial (.loaded rfl rfl)
    |>.tail (a := Event.finish) trivial (.finished rfl rfl)
    |>.tail (a := Event.callback true) trivial (.returns rfl)
  exact ⟨_, hrun, ⟨rfl, rfl⟩, watch_converges hrun ⟨rfl, rfl⟩⟩

/-- The file that is loaded is no longer the one that was seen, and is the one that was seen again
once it has been loaded. -/
theorem loaded_between : ¬ ∀ s : State String Nat String String,
    Run.Reaches (Step levels id ["a.yaml"]) (fun _ _ => True)
      (.start ["a.yaml"] fun _ => .absent) s → s.Quiet →
    Converged levels ["a.yaml"] s s.files := by
  intro h
  have hstart : Run.Reaches (Step levels id ["a.yaml"]) (fun _ _ => True) _ _ :=
    .refl (.start ["a.yaml"] fun _ => .absent)
  have hrun := hstart
    |>.tail trivial (.sign rfl)
    |>.tail trivial (.started rfl rfl)
    |>.tail trivial (.change "a.yaml" (.content "level: 1") nofun)
    |>.tail trivial (.wake rfl)
    |>.tail trivial (.sign rfl)
    |>.tail trivial (.differs rfl rfl (by decide))
    |>.tail trivial (.change "a.yaml" (.content "level: 2") (by decide))
    |>.tail trivial (.loaded rfl rfl)
    |>.tail trivial (.finished rfl rfl)
    |>.tail trivial (.returns rfl)
    |>.tail trivial (.change "a.yaml" (.content "level: 1") (by decide))
    |>.tail trivial (.wake rfl)
    |>.tail trivial (.sign rfl)
    |>.tail trivial (.same rfl rfl)
  obtain ⟨cfg, hcfg, hload⟩ | ⟨hn, -⟩ | ⟨e, he⟩ := h _ hrun ⟨rfl, rfl⟩
  · cases hcfg
    cases hload
  · cases hn
  · cases he

end Obase.Config
