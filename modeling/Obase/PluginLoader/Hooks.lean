import Obase.PluginLoader.Sandbox

namespace Obase.PluginLoader
set_option autoImplicit true

/-- What a thread does: a load, from the insertion of the finder to its removal, or a call of an
entry point. -/
inductive Phase where
  | idle
  | entering (p : Plugin)
  | inserted (p : Plugin)
  | saved (p : Plugin) (real : List Guard)
  | running (p : Plugin) (real : List Guard) (globals : Globals) (k : List Cont)
  | leaving (p : Plugin) (real : List Guard) (r : Except Exn Globals)
  | restored (p : Plugin) (r : Except Exn Globals)
  | loaded (spec : PluginSpec)
  | failed (e : PluginError)
  | calling (spec : PluginSpec) (k : List Cont)
  | returned (r : Except Exn Unit)

/-- A load is in progress. -/
def Phase.Loading : Phase → Prop
  | .entering _ | .inserted _ | .saved _ _ | .running _ _ _ _ | .leaving _ _ _
  | .restored _ _ => True
  | _ => False

/-- The plugin whose guard is installed, with the guards that its load has found. -/
def Phase.installed : Phase → Option (Plugin × List Guard)
  | .running p real _ _ | .leaving p real _ => some (p, real)
  | _ => none

/-- The names that the finder of a load denies, while it is in `sys.meta_path`. -/
def Phase.finder : Phase → Option (List String)
  | .inserted p | .saved p _ | .running p _ _ _ | .leaving p _ _ | .restored p _ => some p.denied
  | _ => none

/-- The import hooks, the threads, and for each import statement of a plugin that has succeeded the
modules that are denied to the plugin and the module that was imported. -/
structure State where
  env : Imports
  phase : Nat → Phase
  imported : List (List String × String)

def State.start (finders : List Nat) (modules : List String) : State :=
  ⟨⟨[], finders.map .other, modules⟩, fun _ => .idle, []⟩

def State.enter (s : State) (i : Nat) (ph : Phase) : State :=
  { s with phase := Function.update s.phase i ph }

/-- What a thread is left with once a step of the body of its module is done. -/
def bodyPhase (p : Plugin) (real : List Guard) : Outcome → Phase
  | .goes globals k => .running p real globals k
  | .returns globals => .leaving p real (.ok globals)
  | .raises e => .leaving p real (.error e)

def callPhase (spec : PluginSpec) : Outcome → Phase
  | .goes _ k => .calling spec k
  | .returns _ => .returned (.ok ())
  | .raises e => .returned (.error e)

/-- What `load_python_plugin` ends with. -/
def endPhase (p : Plugin) : Except Exn Globals → Phase
  | .ok globals => .loaded (p.spec globals)
  | .error (.sandbox fullname) => .failed (.denied fullname)
  | .error e => .failed (.failedToLoad p.name e)

/-- The first phase of the body of a module. -/
def compiledPhase (p : Plugin) (real : List Guard) : Option (List Item) → Phase
  | some items => .running p real [] [.items items]
  | none => .leaving p real (.error .syntaxError)

/-- `PluginSpec.call`. -/
def PluginSpec.call (spec : PluginSpec) (entry : String) : Phase :=
  match spec.entryPoints.lookup entry with
  | some body => .calling spec [.seq body]
  | none => .failed (.noEntryPoint spec.name entry (spec.entryPoints.keys.mergeSort (· ≤ ·)))

/-- The state after a step of code of a plugin. -/
def State.turned (s : State) (denied : List String) (t : Turn) : State :=
  { s with
    env := { s.env with modules := t.modules }
    imported := s.imported ++ (t.imported.map fun name => (denied, name)).toList }

inductive Event where
  | load (i : Nat) (r : Request)
  | call (i j : Nat) (entry : String)
  | step (i : Nat)

/-- The steps of the threads. -/
inductive Step (I : Interpreter) (compile : List Char → Option (List Item)) :
    State → Event → State → Prop
  | load (h : s.phase i = .idle) (hp : prepare r = .ok p) :
      Step I compile s (.load i r) (s.enter i (.entering p))
  | refuse (h : s.phase i = .idle) (hp : prepare r = .error e) :
      Step I compile s (.load i r) (s.enter i (.failed e))
  | insert (h : s.phase i = .entering p) :
      Step I compile s (.step i)
        { s.enter i (.inserted p) with
          env := { s.env with metaPath := .deny ⟨i, p.denied⟩ :: s.env.metaPath } }
  | save (h : s.phase i = .inserted p) :
      Step I compile s (.step i) (s.enter i (.saved p s.env.hook))
  | guard (h : s.phase i = .saved p real) :
      Step I compile s (.step i)
        { s.enter i (compiledPhase p real (compile p.source)) with
          env :=
            { s.env with
              hook := ⟨i, p.denied⟩ :: real
              modules := s.env.modules ++ [p.moduleName] } }
  | run (h : s.phase i = .running p real globals k) :
      Step I compile s (.step i)
        ((s.turned p.denied (turn I s.env globals k)).enter i
          (bodyPhase p real (turn I s.env globals k).outcome))
  | restore (h : s.phase i = .leaving p real r) :
      Step I compile s (.step i)
        { s.enter i (.restored p r) with env := { s.env with hook := real } }
  | remove (h : s.phase i = .restored p r) :
      Step I compile s (.step i)
        { s.enter i (endPhase p r) with
          env := { s.env with metaPath := s.env.metaPath.erase (.deny ⟨i, p.denied⟩) } }
  | call (h : s.phase j = .idle) (hs : s.phase i = .loaded spec) :
      Step I compile s (.call i j entry) (s.enter j (spec.call entry))
  | runCall (h : s.phase i = .calling spec k) :
      Step I compile s (.step i)
        ((s.turned spec.denied (turn I s.env spec.globals k)).enter i
          (callPhase spec (turn I s.env spec.globals k).outcome))

/-- The step finds the hook that the load has left: the one that it has read when it installs its
guard, its own guard when it removes it. An entry point imports no denied module, or one that the
interpreter does not import. -/
def Orderly (I : Interpreter) (s : State) : Event → Prop
  | .step i =>
    match s.phase i with
    | .saved _ real => s.env.hook = real
    | .leaving p real _ => s.env.hook = ⟨i, p.denied⟩ :: real
    | .calling spec k => ∀ name, target k = some name → topLevel name ∈ spec.denied →
        (I.realImport s.env name).2 ≠ .ok ()
    | _ => True
  | _ => True

/-- What holds of the hooks while loads are in progress. -/
structure Inv (finders : List Nat) (s : State) : Prop where
  installed : ∀ i p real, (s.phase i).installed = some (p, real) →
    ⟨i, p.denied⟩ :: real <:+ s.env.hook
  owned : ∀ g ∈ s.env.hook, (s.phase g.id).installed ≠ none
  distinct : (s.env.hook.map Guard.id).Nodup
  found : ∃ gs : List Guard, s.env.metaPath = gs.map .deny ++ finders.map .other ∧ gs.Nodup ∧
    ∀ g, g ∈ gs ↔ (s.phase g.id).finder = some g.denied
  sealed : ∀ e ∈ s.imported, topLevel e.2 ∉ e.1

theorem Inv.start (finders : List Nat) (modules : List String) :
    Inv finders (.start finders modules) :=
  ⟨nofun, List.forall_mem_nil _, List.nodup_nil, ⟨[], rfl, List.nodup_nil, by
    intro g
    exact iff_of_false List.not_mem_nil nofun⟩, List.forall_mem_nil _⟩

@[simp] theorem State.enter_phase_self (s : State) (i : Nat) (ph : Phase) :
    (s.enter i ph).phase i = ph :=
  Function.update_self ..

theorem State.enter_phase_ne {i j : Nat} (h : j ≠ i) (s : State) (ph : Phase) :
    (s.enter i ph).phase j = s.phase j :=
  Function.update_of_ne h ..

/-- What of a phase does not change for one thread does not change for any. -/
theorem State.enter_same {f : Phase → α} {s : State} {i : Nat} {ph : Phase}
    (h : f ph = f (s.phase i)) (j : Nat) : f ((s.enter i ph).phase j) = f (s.phase j) := by
  by_cases hj : j = i
  · rw [hj, enter_phase_self, h]
  · rw [enter_phase_ne hj]

/-- A thread may go on as long as its guard and its finder stay where they are. -/
theorem Inv.enter {finders : List Nat} {s : State} (h : Inv finders s) {i : Nat} {ph : Phase}
    (hi : ph.installed = (s.phase i).installed) (hf : ph.finder = (s.phase i).finder) :
    Inv finders (s.enter i ph) := by
  have hinst := State.enter_same (f := Phase.installed) hi
  have hfind := State.enter_same (f := Phase.finder) hf
  obtain ⟨gs, hgs, hd, hm⟩ := h.found
  refine ⟨fun j p real hj => ?_, fun g hg => ?_, h.distinct, ⟨gs, hgs, hd, fun g => ?_⟩, h.sealed⟩
  · rw [hinst] at hj
    exact h.installed j p real hj
  · rw [hinst]
    exact h.owned g hg
  · rw [hfind]
    exact hm g

theorem Inv.turned {finders : List Nat} {s : State} (h : Inv finders s) {denied : List String}
    {t : Turn} (ht : ∀ name, t.imported = some name → topLevel name ∉ denied) :
    Inv finders (s.turned denied t) := by
  refine ⟨h.installed, h.owned, h.distinct, h.found, List.forall_mem_append.2 ⟨h.sealed, ?_⟩⟩
  intro e he
  rw [Option.mem_toList, Option.map_eq_some_iff] at he
  obtain ⟨name, hn, rfl⟩ := he
  exact ht name hn

theorem bodyPhase_installed (p : Plugin) (real : List Guard) (o : Outcome) :
    (bodyPhase p real o).installed = some (p, real) := by
  cases o with
  | goes globals k => rfl
  | returns globals => rfl
  | raises e => rfl

theorem bodyPhase_finder (p : Plugin) (real : List Guard) (o : Outcome) :
    (bodyPhase p real o).finder = some p.denied := by
  cases o with
  | goes globals k => rfl
  | returns globals => rfl
  | raises e => rfl

theorem compiledPhase_installed (p : Plugin) (real : List Guard) (c : Option (List Item)) :
    (compiledPhase p real c).installed = some (p, real) := by
  cases c with
  | none => rfl
  | some items => rfl

theorem compiledPhase_finder (p : Plugin) (real : List Guard) (c : Option (List Item)) :
    (compiledPhase p real c).finder = some p.denied := by
  cases c with
  | none => rfl
  | some items => rfl

/-- Neither a load that has ended nor a call has a guard. -/
def Phase.Outside (ph : Phase) : Prop := ph.installed = none ∧ ph.finder = none

theorem endPhase_outside (p : Plugin) (r : Except Exn Globals) : (endPhase p r).Outside := by
  cases r with
  | ok globals => exact ⟨rfl, rfl⟩
  | error e => cases e <;> exact ⟨rfl, rfl⟩

theorem callPhase_outside (spec : PluginSpec) (o : Outcome) : (callPhase spec o).Outside := by
  cases o with
  | goes globals k => exact ⟨rfl, rfl⟩
  | returns globals => exact ⟨rfl, rfl⟩
  | raises e => exact ⟨rfl, rfl⟩

theorem PluginSpec.call_outside (spec : PluginSpec) (entry : String) :
    (spec.call entry).Outside := by
  rw [call]
  split
  · exact ⟨rfl, rfl⟩
  · exact ⟨rfl, rfl⟩

theorem Inv.enter_outside {finders : List Nat} {s : State} (h : Inv finders s) {i : Nat}
    {ph : Phase} (hi : (s.phase i).Outside) (hp : ph.Outside) : Inv finders (s.enter i ph) :=
  h.enter (hp.1.trans hi.1.symm) (hp.2.trans hi.2.symm)

/-- A guard that is installed denies what its plugin imports. -/
theorem Inv.denied {finders : List Nat} {s : State} (h : Inv finders s) {i : Nat} {p : Plugin}
    {real : List Guard} (hi : (s.phase i).installed = some (p, real)) {I : Interpreter}
    {name : String} (hn : (I.importModule s.env name).2 = .ok ()) : topLevel name ∉ p.denied := by
  intro hd
  have hg : ⟨i, p.denied⟩ ∈ s.env.hook := (h.installed i p real hi).subset (List.mem_cons_self ..)
  have he := I.guardedImport_denied s.env hg (decide_eq_true hd : Guard.denies _ name = true)
  rw [Interpreter.importModule, he] at hn
  cases hn

theorem Inv.insert {finders : List Nat} {s : State} (h : Inv finders s) {i : Nat} {p : Plugin}
    (hp : s.phase i = .entering p) :
    Inv finders
      { s.enter i (.inserted p) with
        env := { s.env with metaPath := .deny ⟨i, p.denied⟩ :: s.env.metaPath } } := by
  obtain ⟨gs, hgs, hd, hm⟩ := h.found
  have hinst (j : Nat) :
      ((s.enter i (.inserted p)).phase j).installed = (s.phase j).installed :=
    State.enter_same (f := Phase.installed) (by rw [hp]; rfl) j
  have hnot (d : List String) : ⟨i, d⟩ ∉ gs := by
    rw [hm, hp]
    exact nofun
  refine ⟨fun j q real hj => ?_, fun g hg => ?_, h.distinct,
    ⟨⟨i, p.denied⟩ :: gs, congrArg (Finder.deny _ :: ·) hgs, List.nodup_cons.2 ⟨hnot _, hd⟩,
      fun g => ?_⟩, h.sealed⟩
  · dsimp only at hj
    rw [hinst] at hj
    exact h.installed j q real hj
  · dsimp only
    rw [hinst]
    exact h.owned g hg
  · obtain ⟨j, d⟩ := g
    by_cases hj : j = i
    · subst hj
      rw [List.mem_cons, or_iff_left (hnot d)]
      simp [State.enter, Phase.finder, eq_comm]
    · simp only [List.mem_cons, Guard.mk.injEq, hj, false_and, false_or,
        State.enter_phase_ne hj]
      exact hm ⟨j, d⟩

theorem Inv.remove {finders : List Nat} {s : State} (h : Inv finders s) {i : Nat} {p : Plugin}
    {r : Except Exn Globals} (hp : s.phase i = .restored p r) :
    Inv finders
      { s.enter i (endPhase p r) with
        env := { s.env with metaPath := s.env.metaPath.erase (.deny ⟨i, p.denied⟩) } } := by
  obtain ⟨gs, hgs, hd, hm⟩ := h.found
  have hend := endPhase_outside p r
  have hinst (j : Nat) :
      ((s.enter i (endPhase p r)).phase j).installed = (s.phase j).installed :=
    State.enter_same (f := Phase.installed) (by rw [hp, hend.1]; rfl) j
  have hmem : ⟨i, p.denied⟩ ∈ gs := by
    rw [hm, hp]
    rfl
  have hinj : Function.Injective Finder.deny := fun g g' hg => Finder.deny.inj hg
  refine ⟨fun j q real hj => ?_, fun g hg => ?_, h.distinct,
    ⟨gs.erase ⟨i, p.denied⟩, ?_, hd.erase _, fun g => ?_⟩, h.sealed⟩
  · dsimp only at hj
    rw [hinst] at hj
    exact h.installed j q real hj
  · dsimp only
    rw [hinst]
    exact h.owned g hg
  · dsimp only
    rw [hgs, List.erase_append_left _ (List.mem_map_of_mem hmem), List.map_erase hinj]
  · obtain ⟨j, d⟩ := g
    rw [hd.mem_erase_iff, hm]
    by_cases hj : j = i
    · subst hj
      rw [State.enter_phase_self, hend.2, hp]
      simp [Phase.finder, eq_comm]
    · simp only [State.enter_phase_ne hj, ne_eq, Guard.mk.injEq, hj, false_and, not_false_eq_true,
        true_and]

theorem Inv.guard {finders : List Nat} {s : State} (h : Inv finders s) {i : Nat} {p : Plugin}
    {ph : Phase} {ms : List String} (hp : s.phase i = .saved p s.env.hook)
    (hi : ph.installed = some (p, s.env.hook)) (hf : ph.finder = some p.denied) :
    Inv finders
      { s.enter i ph with
        env :=
          { s.env with
            hook := ⟨i, p.denied⟩ :: s.env.hook
            modules := ms } } := by
  have hfind (j : Nat) :
      ((s.enter i ph).phase j).finder = (s.phase j).finder :=
    State.enter_same (f := Phase.finder) (by rw [hp, hf]; rfl) j
  have hnot : ∀ g ∈ s.env.hook, g.id ≠ i := by
    rintro g hg rfl
    apply h.owned g hg
    rw [hp]
    rfl
  obtain ⟨gs, hgs, hd, hm⟩ := h.found
  refine ⟨fun j q real hj => ?_, List.forall_mem_cons.2 ⟨?_, fun g hg => ?_⟩,
    List.nodup_cons.2 ⟨fun hm => ?_, h.distinct⟩, ⟨gs, hgs, hd, fun g => ?_⟩, h.sealed⟩
  · by_cases hji : j = i
    · subst hji
      rw [State.enter_phase_self, hi] at hj
      cases hj
      exact List.suffix_rfl
    · rw [State.enter_phase_ne hji] at hj
      exact (h.installed j q real hj).trans (List.suffix_cons _ _)
  · rw [State.enter_phase_self, hi]
    exact nofun
  · rw [State.enter_phase_ne (hnot g hg)]
    exact h.owned g hg
  · obtain ⟨g, hg, he⟩ := List.mem_map.1 hm
    exact hnot g hg he
  · dsimp only
    rw [hfind]
    exact hm g

theorem Inv.restore {finders : List Nat} {s : State} (h : Inv finders s) {i : Nat} {p : Plugin}
    {real : List Guard} {r : Except Exn Globals} (hp : s.phase i = .leaving p real r)
    (hh : s.env.hook = ⟨i, p.denied⟩ :: real) :
    Inv finders
      { s.enter i (.restored p r) with env := { s.env with hook := real } } := by
  have hfind (j : Nat) :
      ((s.enter i (.restored p r)).phase j).finder = (s.phase j).finder :=
    State.enter_same (f := Phase.finder) (by rw [hp]; rfl) j
  have hdist := h.distinct
  rw [hh, List.map_cons, List.nodup_cons] at hdist
  obtain ⟨gs, hgs, hd, hm⟩ := h.found
  refine ⟨fun j q real' hj => ?_, fun g hg => ?_, hdist.2, ⟨gs, hgs, hd, fun g => ?_⟩, h.sealed⟩
  · by_cases hji : j = i
    · subst hji
      rw [State.enter_phase_self] at hj
      cases hj
    · rw [State.enter_phase_ne hji] at hj
      have hs := h.installed j q real' hj
      rw [hh, List.suffix_cons_iff] at hs
      obtain he | hs := hs
      · injection he with he
        exact (hji (congrArg Guard.id he)).elim
      · exact hs
  · have hne : g.id ≠ i := by
      rintro rfl
      exact hdist.1 (List.mem_map.2 ⟨g, hg, rfl⟩)
    rw [State.enter_phase_ne hne]
    apply h.owned
    rw [hh]
    exact List.mem_cons_of_mem _ hg
  · dsimp only
    rw [hfind]
    exact hm g

theorem Inv.step {I : Interpreter} {compile : List Char → Option (List Item)}
    {finders : List Nat} {s s' : State} {a : Event} (h : Inv finders s) (ha : Orderly I s a)
    (hs : Step I compile s a s') : Inv finders s' := by
  cases hs with
  | load hp _ => exact h.enter (by rw [hp]; rfl) (by rw [hp]; rfl)
  | refuse hp _ => exact h.enter (by rw [hp]; rfl) (by rw [hp]; rfl)
  | insert hp => exact h.insert hp
  | save hp => exact h.enter (by rw [hp]; rfl) (by rw [hp]; rfl)
  | guard hp =>
    rw [Orderly, hp] at ha
    subst ha
    exact h.guard hp (compiledPhase_installed ..) (compiledPhase_finder ..)
  | @run _ i globals k p real hp =>
    have hi : (s.phase i).installed = some (p, real) := by
      rw [hp]
      rfl
    have hturned : Inv finders (s.turned p.denied (turn I s.env globals k)) :=
      h.turned fun name hn => h.denied hi (turn_imported hn).2
    refine hturned.enter ?_ ?_
    · rw [bodyPhase_installed]
      exact hi.symm
    · rw [bodyPhase_finder]
      exact (congrArg Phase.finder hp).symm
  | restore hp =>
    rw [Orderly, hp] at ha
    exact h.restore hp ha
  | remove hp => exact h.remove hp
  | call hj hs =>
    exact h.enter_outside (by rw [hj]; exact ⟨rfl, rfl⟩) (PluginSpec.call_outside ..)
  | @runCall _ i k spec hp =>
    rw [Orderly, hp] at ha
    have hturned : Inv finders (s.turned spec.denied (turn I s.env spec.globals k)) := by
      refine h.turned fun name hn hd => ?_
      obtain ⟨ht, hok⟩ := turn_imported hn
      exact ha name ht hd (Interpreter.guardedImport_ok hok)
    refine hturned.enter_outside ?_ (callPhase_outside ..)
    change (s.phase i).Outside
    rw [hp]
    exact ⟨rfl, rfl⟩

theorem Phase.loading_of_installed {ph : Phase} (h : ph.installed ≠ none) : ph.Loading := by
  cases ph with
  | running p real globals k => trivial
  | leaving p real r => trivial
  | _ => exact (h rfl).elim

theorem Phase.loading_of_finder {ph : Phase} {denied : List String}
    (h : ph.finder = some denied) : ph.Loading := by
  cases ph with
  | inserted p => trivial
  | saved p real => trivial
  | running p real globals k => trivial
  | leaving p real r => trivial
  | restored p r => trivial
  | _ => cases h

/-- Where each load finds the hooks that it has left, and no entry point imports what is denied,
no plugin imports what is denied to it, and the loads leave the hooks as they were. -/
theorem sandbox_holds {I : Interpreter} {compile : List Char → Option (List Item)}
    {finders : List Nat} {modules : List String} {s : State}
    (h : Run.Reaches (Step I compile) (Orderly I) (.start finders modules) s) :
    (∀ e ∈ s.imported, topLevel e.2 ∉ e.1) ∧
      ((∀ i, ¬ (s.phase i).Loading) →
        s.env.hook = [] ∧ s.env.metaPath = finders.map .other) := by
  have hi : Inv finders s :=
    h.invariant (.start finders modules) fun _ _ _ hi ha hs => hi.step ha hs
  refine ⟨hi.sealed, fun hn => ⟨List.eq_nil_iff_forall_not_mem.2 fun g hg => ?_, ?_⟩⟩
  · exact hn g.id (Phase.loading_of_installed (hi.owned g hg))
  · obtain ⟨gs, hgs, -, hm⟩ := hi.found
    have hnil : gs = [] := List.eq_nil_iff_forall_not_mem.2 fun g hg =>
      hn g.id (Phase.loading_of_finder ((hm g).1 hg))
    rw [hgs, hnil]
    rfl

/-- An interpreter that finds no module but those that have been imported. -/
def bareInterpreter : Interpreter where
  finds _ _ := false
  execs env name := (env.modules ++ [name], .ok ())
  isPackage _ _ := false
  hasAttr _ _ _ := false
  recursionLimit := 1000

/-- A plugin whose function imports a module. -/
def lateImport (name : String) (_ : List Char) : Option (List Item) :=
  some [.define "main" [.importModule name]]

def lateRequest (name : String) : Request where
  path := ["late.py"]
  source := .text ("def main():\n    import ".toList ++ name.toList ++ ['\n'])
  name := none
  allowedModules := []
  entryPoints := ["main"]

/-- The plugin is loaded and its function called. -/
theorem sandbox_holds_json : ∃ s : State,
    (s.phase 1 = .returned (.ok ()) ∧ s.imported.map Prod.snd = ["json"]) ∧
    (∀ e ∈ s.imported, topLevel e.2 ∉ e.1) ∧
      ((∀ i, ¬ (s.phase i).Loading) → s.env.hook = [] ∧ s.env.metaPath = [.other 0]) := by
  have hstart : Run.Reaches (Step bareInterpreter (lateImport "json"))
      (Orderly bareInterpreter) _ _ :=
    .refl (.start [0] ["os", "json"])
  have hrun := hstart
    |>.tail (a := Event.load 0 (lateRequest "json")) trivial (.load rfl rfl)
    |>.tail (a := Event.step 0) trivial (.insert rfl)
    |>.tail (a := Event.step 0) trivial (.save rfl)
    |>.tail (a := Event.step 0) rfl (.guard rfl)
    |>.tail (a := Event.step 0) trivial (.run rfl)
    |>.tail (a := Event.step 0) trivial (.run rfl)
    |>.tail (a := Event.step 0) trivial (.run rfl)
    |>.tail (a := Event.step 0) rfl (.restore rfl)
    |>.tail (a := Event.step 0) trivial (.remove rfl)
    |>.tail (a := Event.call 0 1 "main") trivial (.call rfl rfl)
    |>.tail (a := Event.step 1) (by rintro _ ⟨⟩; decide) (.runCall rfl)
    |>.tail (a := Event.step 1) (by rintro _ ⟨⟩) (.runCall rfl)
    |>.tail (a := Event.step 1) (by rintro _ ⟨⟩) (.runCall rfl)
  exact ⟨_, ⟨rfl, rfl⟩, sandbox_holds hrun⟩

/-- The function is called once the guard is gone; and of two loads that overlap, the one that
ends last puts back the guard of the other. -/
theorem sandbox_broken :
    (¬ ∀ s, Run.Reaches (Step bareInterpreter (lateImport "os")) (fun _ _ => True)
        (.start [0] ["os", "json"]) s → ∀ e ∈ s.imported, topLevel e.2 ∉ e.1) ∧
      ¬ ∀ s, Run.Reaches (Step bareInterpreter (lateImport "os")) (fun _ _ => True)
        (.start [0] ["os", "json"]) s → (∀ i, ¬ (s.phase i).Loading) →
          s.env.hook = [] ∧ s.env.metaPath = [.other 0] := by
  have hstart : Run.Reaches (Step bareInterpreter (lateImport "os")) (fun _ _ => True) _ _ :=
    .refl (.start [0] ["os", "json"])
  constructor
  · intro h
    have hrun := hstart
      |>.tail trivial (.load (i := 0) (r := lateRequest "os") rfl rfl)
      |>.tail trivial (.insert (i := 0) rfl)
      |>.tail trivial (.save (i := 0) rfl)
      |>.tail trivial (.guard (i := 0) rfl)
      |>.tail trivial (.run (i := 0) rfl)
      |>.tail trivial (.run (i := 0) rfl)
      |>.tail trivial (.run (i := 0) rfl)
      |>.tail trivial (.restore (i := 0) rfl)
      |>.tail trivial (.remove (i := 0) rfl)
      |>.tail (a := Event.call 0 1 "main") trivial (.call rfl rfl)
      |>.tail trivial (.runCall (i := 1) rfl)
    exact h _ hrun _ (List.mem_singleton_self _) (by decide)
  · intro h
    have hrun := hstart
      |>.tail trivial (.load (i := 0) (r := lateRequest "os") rfl rfl)
      |>.tail trivial (.insert (i := 0) rfl)
      |>.tail trivial (.save (i := 0) rfl)
      |>.tail trivial (.guard (i := 0) rfl)
      |>.tail trivial (.load (i := 1) (r := lateRequest "os") rfl rfl)
      |>.tail trivial (.insert (i := 1) rfl)
      |>.tail trivial (.save (i := 1) rfl)
      |>.tail trivial (.guard (i := 1) rfl)
      |>.tail trivial (.run (i := 0) rfl)
      |>.tail trivial (.run (i := 0) rfl)
      |>.tail trivial (.run (i := 0) rfl)
      |>.tail trivial (.restore (i := 0) rfl)
      |>.tail trivial (.remove (i := 0) rfl)
      |>.tail trivial (.run (i := 1) rfl)
      |>.tail trivial (.run (i := 1) rfl)
      |>.tail trivial (.run (i := 1) rfl)
      |>.tail trivial (.restore (i := 1) rfl)
      |>.tail trivial (.remove (i := 1) rfl)
    have hended := h _ hrun fun
      | 0 => id
      | 1 => id
      | _ + 2 => id
    cases hended.1

end Obase.PluginLoader
