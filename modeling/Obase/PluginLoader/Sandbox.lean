import Mathlib.Logic.Function.Basic
import Obase.Dict
import Obase.Partition
import Obase.Path
import Obase.Run
import Obase.Text

namespace Obase.PluginLoader
set_option autoImplicit true

/-- What an import, a plugin or the guard raises. -/
inductive Exn where
  | sandbox (fullname : String)
  | moduleNotFound (fullname : String)
  | importError (module name : String)
  | nameError (fn : String)
  | recursion
  | syntaxError
  | other (text : String)
deriving DecidableEq

/-- The `_DenyFinder` and the `_guarded_import` of one load. -/
structure Guard where
  id : Nat
  denied : List String
deriving DecidableEq

/-- `fullname.split(".")[0]`. -/
def topLevel (fullname : String) : String :=
  String.ofList (fullname.toList.takeWhile (· ≠ '.'))

def Guard.denies (g : Guard) (fullname : String) : Bool := topLevel fullname ∈ g.denied

/-- An entry of `sys.meta_path`. -/
inductive Finder where
  | other (n : Nat)
  | deny (g : Guard)
deriving DecidableEq

/-- What imports read and change: `builtins.__import__`, as the guards that wrap the interpreter's
own, `sys.meta_path` and the names in `sys.modules`. -/
structure Imports where
  hook : List Guard
  metaPath : List Finder
  modules : List String

/-- What the interpreter gives: which modules the other finders find, what the body of a module
does once it is found, which attributes a module has, and how deep calls may be nested. -/
structure Interpreter where
  finds : Nat → String → Bool
  execs : Imports → String → List String × Except Exn Unit
  isPackage : List String → String → Bool
  hasAttr : List String → String → String → Bool
  recursionLimit : Nat

namespace Interpreter

/-- `_find_spec`: the finders one after the other, with `_DenyFinder.find_spec` for the guards. -/
def findSpec (I : Interpreter) (fullname : String) : List Finder → Except Exn Bool
  | [] => .ok false
  | .deny g :: fs =>
    if g.denies fullname then .error (.sandbox fullname) else findSpec I fullname fs
  | .other n :: fs => if I.finds n fullname then .ok true else findSpec I fullname fs

/-- A module, after those that it is in, the innermost first; with the names that `sys.modules`
has then. -/
def findAndLoad (I : Interpreter) (env : Imports) : List String → List String × Except Exn Unit
  | [] => (env.modules, .ok ())
  | name :: parents =>
    if name ∈ env.modules then (env.modules, .ok ())
    else
      match findAndLoad I env parents with
      | (ms, .error e) => (ms, .error e)
      | (ms, .ok ()) =>
        if name ∈ ms then (ms, .ok ())
        else
          match I.findSpec name env.metaPath with
          | .error e => (ms, .error e)
          | .ok false => (ms, .error (.moduleNotFound name))
          | .ok true => I.execs { env with modules := ms } name

/-- A dotted name and the names of the packages that it is in, the longest first. -/
def dottedFrom (before : List Char) : List Char → List String
  | [] => [String.ofList before]
  | c :: cs =>
    if c = '.' then dottedFrom (before ++ [c]) cs ++ [String.ofList before]
    else dottedFrom (before ++ [c]) cs

/-- The interpreter's own `__import__`. -/
def realImport (I : Interpreter) (env : Imports) (name : String) : List String × Except Exn Unit :=
  I.findAndLoad env (dottedFrom [] name.toList)

/-- `__import__` as it is wrapped by guards, the latest first. -/
def guardedImport (I : Interpreter) (env : Imports) (name : String) :
    List Guard → List String × Except Exn Unit
  | [] => I.realImport env name
  | g :: real =>
    if g.denies name then (env.modules, .error (.sandbox name)) else guardedImport I env name real

/-- `import name`. -/
def importModule (I : Interpreter) (env : Imports) (name : String) :
    List String × Except Exn Unit :=
  I.guardedImport env name env.hook

/-- `_handle_fromlist`: what a package lacks may be one of its modules. -/
def handleFromlist (I : Interpreter) (env : Imports) (module : String) :
    List String → List String × Except Exn Unit
  | [] => (env.modules, .ok ())
  | name :: names =>
    if I.hasAttr env.modules module name then handleFromlist I env module names
    else
      match I.realImport env (module ++ "." ++ name) with
      | (ms, .ok ()) => handleFromlist I { env with modules := ms } module names
      | (ms, .error e) =>
        if e = .moduleNotFound (module ++ "." ++ name) then
          handleFromlist I { env with modules := ms } module names
        else (ms, .error e)

/-- `from module import names`. -/
def importFrom (I : Interpreter) (env : Imports) (module : String) (names : List String) :
    List String × Except Exn Unit :=
  match I.importModule env module with
  | (ms, .error e) => (ms, .error e)
  | (ms, .ok ()) =>
    let handled :=
      if I.isPackage ms module then I.handleFromlist { env with modules := ms } module names
      else (ms, .ok ())
    match handled with
    | (ms, .error e) => (ms, .error e)
    | (ms, .ok ()) =>
      match names.find? fun name => !I.hasAttr ms module name with
      | some name => (ms, .error (.importError module name))
      | none => (ms, .ok ())

/-- A guard denies what it denies, wherever it is among those that wrap the import. -/
theorem guardedImport_denied (I : Interpreter) (env : Imports) {name : String} {g : Guard}
    {gs : List Guard} (hg : g ∈ gs) (hd : g.denies name = true) :
    (I.guardedImport env name gs).2 = .error (.sandbox name) := by
  induction gs with
  | nil => cases hg
  | cons g' gs ih =>
    rw [guardedImport]
    split
    · rfl
    · rename_i hn
      obtain rfl | hg := List.mem_cons.1 hg
      · exact (hn hd).elim
      · exact ih hg

/-- What the guards let through is imported by the interpreter. -/
theorem guardedImport_ok {I : Interpreter} {env : Imports} {name : String} {gs : List Guard}
    (h : (I.guardedImport env name gs).2 = .ok ()) : (I.realImport env name).2 = .ok () := by
  induction gs with
  | nil => exact h
  | cons g gs ih =>
    rw [guardedImport] at h
    split at h
    · cases h
    · exact ih h

theorem importFrom_ok {I : Interpreter} {env : Imports} {module : String} {names : List String}
    (h : (I.importFrom env module names).2 = .ok ()) : (I.importModule env module).2 = .ok () := by
  rw [importFrom] at h
  split at h
  · cases h
  · rename_i hm
    rw [hm]

end Interpreter

/-- The class that an `except` clause names. -/
inductive Clause where
  | exception
  | importError
  | moduleNotFoundError
  | nameError
  | runtimeError

def Clause.catches : Clause → Exn → Bool
  | .exception, _ => true
  | .importError, .moduleNotFound _ => true
  | .importError, .importError _ _ => true
  | .moduleNotFoundError, .moduleNotFound _ => true
  | .nameError, .nameError _ => true
  | .runtimeError, .sandbox _ => true
  | .runtimeError, .recursion => true
  | _, _ => false

/-- A statement of a plugin. -/
inductive Stmt where
  | importModule (name : String)
  | importFrom (module : String) (names : List String)
  | call (fn : String)
  | tryExcept (body : List Stmt) (clauses : List (Clause × List Stmt))

/-- A line of the module body: a top-level function, or a statement that is run. -/
inductive Item where
  | define (fn : String) (body : List Stmt)
  | run (s : Stmt)

abbrev Globals := Dict String (List Stmt)

/-- What is still to be done, the innermost first. -/
inductive Cont where
  | items (items : List Item)
  | seq (stmts : List Stmt)
  | handler (clauses : List (Clause × List Stmt))
  | frame

/-- An exception leaves all that is up to the first handler that catches it. -/
def unwind (e : Exn) : List Cont → Option (List Cont)
  | [] => none
  | .handler clauses :: k =>
    match clauses.find? fun c => c.1.catches e with
    | some c => some (.seq c.2 :: k)
    | none => unwind e k
  | _ :: k => unwind e k

inductive Outcome where
  | goes (globals : Globals) (k : List Cont)
  | returns (globals : Globals)
  | raises (e : Exn)

def raise (e : Exn) (globals : Globals) (k : List Cont) : Outcome :=
  match unwind e k with
  | some k => .goes globals k
  | none => .raises e

def isFrame : Cont → Bool
  | .frame => true
  | _ => false

/-- What a step of code leaves: the names in `sys.modules`, the module that an import statement
has succeeded on, and how the code goes on. -/
structure Turn where
  modules : List String
  imported : Option String
  outcome : Outcome

/-- What follows an import statement on a module. -/
def afterImport (module : String) (globals : Globals) (k : List Cont) :
    List String × Except Exn Unit → Turn
  | (ms, .ok ()) => ⟨ms, some module, .goes globals k⟩
  | (ms, .error e) => ⟨ms, none, raise e globals k⟩

def stmtTurn (I : Interpreter) (env : Imports) (globals : Globals) (k : List Cont) : Stmt → Turn
  | .importModule name => afterImport name globals k (I.importModule env name)
  | .importFrom module names => afterImport module globals k (I.importFrom env module names)
  | .call fn =>
    match globals.lookup fn with
    | none => ⟨env.modules, none, raise (.nameError fn) globals k⟩
    | some body =>
      if I.recursionLimit ≤ k.countP isFrame then ⟨env.modules, none, raise .recursion globals k⟩
      else ⟨env.modules, none, .goes globals (.seq body :: .frame :: k)⟩
  | .tryExcept body clauses =>
    ⟨env.modules, none, .goes globals (.seq body :: .handler clauses :: k)⟩

/-- One step of the code of a plugin. -/
def turn (I : Interpreter) (env : Imports) (globals : Globals) : List Cont → Turn
  | [] => ⟨env.modules, none, .returns globals⟩
  | .items [] :: k => ⟨env.modules, none, .goes globals k⟩
  | .items (.define fn body :: items) :: k =>
    ⟨env.modules, none, .goes (globals.set fn body) (.items items :: k)⟩
  | .items (.run s :: items) :: k => stmtTurn I env globals (.items items :: k) s
  | .seq [] :: k => ⟨env.modules, none, .goes globals k⟩
  | .seq (s :: stmts) :: k => stmtTurn I env globals (.seq stmts :: k) s
  | .handler _ :: k => ⟨env.modules, none, .goes globals k⟩
  | .frame :: k => ⟨env.modules, none, .goes globals k⟩

/-- The module that the next step imports. -/
def Stmt.target : Stmt → Option String
  | .importModule name => some name
  | .importFrom module _ => some module
  | _ => none

def target : List Cont → Option String
  | .items (.run s :: _) :: _ => s.target
  | .seq (s :: _) :: _ => s.target
  | _ => none

theorem afterImport_imported {module : String} {globals : Globals} {k : List Cont}
    {r : List String × Except Exn Unit} {name : String}
    (h : (afterImport module globals k r).imported = some name) :
    name = module ∧ r.2 = .ok () := by
  obtain ⟨ms, r⟩ := r
  cases r with
  | ok u => exact ⟨(Option.some.inj h).symm, rfl⟩
  | error e => cases h

theorem stmtTurn_imported {I : Interpreter} {env : Imports} {globals : Globals} {k : List Cont}
    {s : Stmt} {name : String} (h : (stmtTurn I env globals k s).imported = some name) :
    s.target = some name ∧ (I.importModule env name).2 = .ok () := by
  cases s with
  | importModule m =>
    obtain ⟨rfl, hr⟩ := afterImport_imported h
    exact ⟨rfl, hr⟩
  | importFrom m names =>
    obtain ⟨rfl, hr⟩ := afterImport_imported h
    exact ⟨rfl, Interpreter.importFrom_ok hr⟩
  | call fn =>
    rw [stmtTurn] at h
    split at h
    · cases h
    · split at h
      · cases h
      · cases h
  | tryExcept body clauses => cases h

/-- An import statement that succeeds is one that `__import__` has let through. -/
theorem turn_imported {I : Interpreter} {env : Imports} {globals : Globals} {k : List Cont}
    {name : String} (h : (turn I env globals k).imported = some name) :
    target k = some name ∧ (I.importModule env name).2 = .ok () := by
  cases k with
  | nil => cases h
  | cons c k =>
    cases c with
    | items is =>
      cases is with
      | nil => cases h
      | cons i is =>
        cases i with
        | define fn body => cases h
        | run s => exact stmtTurn_imported h
    | seq ss =>
      cases ss with
      | nil => cases h
      | cons s ss => exact stmtTurn_imported h
    | handler clauses => cases h
    | frame => cases h

/-- `DEFAULT_DENIED_MODULES`. -/
def defaultDeniedModules : List String :=
  ["os", "subprocess", "socket", "shutil", "sys", "importlib", "ctypes", "pickle",
    "multiprocessing"]

/-- What is at the path of a plugin. -/
inductive Source where
  | missing
  | unreadable (text : String)
  | notUtf8
  | text (cs : List Char)
deriving DecidableEq

/-- The arguments of `load_python_plugin`, with the path resolved and what is there. -/
structure Request where
  path : Path
  source : Source
  name : Option String
  allowedModules : List String
  entryPoints : List String

inductive PluginError where
  | notFound (path : Path)
  | notPython (path : Path)
  | cannotRead (text : String)
  | notUtf8
  | denied (fullname : String)
  | failedToLoad (plugin : String) (e : Exn)
  | noEntryPoint (plugin entry : String) (available : List String)

/-- `read_text`; a text that is not UTF-8 is not an `OSError`. -/
def Source.readText : Source → Except PluginError (List Char)
  | .missing => .error (.cannotRead "")
  | .unreadable e => .error (.cannotRead e)
  | .notUtf8 => .error .notUtf8
  | .text cs => .ok cs

abbrev Meta := Dict (List Char) (List Char)

/-- `_parse_meta`. -/
def parseMeta (source : List Char) : Meta :=
  ((Text.splitlines source).take 20).foldl (fun m line =>
    let line := Text.strip line
    if "# @".toList.isPrefixOf line then
      let (key, value) := (Text.partition [':'] (line.drop 3)).getD (line.drop 3, [])
      m.set (Text.strip key)
        (Text.trim (· == '\'') (Text.trim (· == '"') (Text.strip value)))
    else m) []

/-- What is left to be loaded once the file is read. -/
structure Plugin where
  name : String
  metadata : Meta
  path : Path
  source : List Char
  denied : List String
  entryPoints : List String

/-- `name or meta.get("name") or src.stem`. -/
def pluginName (name : Option String) (m : Meta) (path : Path) : String :=
  match name with
  | some given => if given ≠ "" then given else fromMeta
  | none => fromMeta
where
  fromMeta : String :=
    match m.lookup "name".toList with
    | some (c :: cs) => String.ofList (c :: cs)
    | _ => String.ofList (path.name.toList.take (path.name.length - path.suffix.length))

/-- `load_python_plugin` before it installs the guard. -/
def prepare (r : Request) : Except PluginError Plugin :=
  if r.source = .missing then .error (.notFound r.path)
  else if r.path.suffix ≠ ".py".toList then .error (.notPython r.path)
  else
    match r.source.readText with
    | .error e => .error e
    | .ok cs =>
      .ok
        { name := pluginName r.name (parseMeta cs) r.path
          metadata := parseMeta cs
          path := r.path
          source := cs
          denied := defaultDeniedModules.filter (· ∉ r.allowedModules)
          entryPoints := r.entryPoints }

/-- The name of the module that a plugin is executed as. -/
def Plugin.moduleName (p : Plugin) : String :=
  "_obase_plugin_" ++ String.ofList (Text.replace ['-'] ['_'] p.name.toList)

structure PluginSpec where
  name : String
  version : List Char
  runtime : String
  source : Path
  entryPoints : Dict String (List Stmt)
  metadata : Meta
  globals : Globals
  denied : List String

/-- What is returned once the guard is removed; the functions see the globals of their module. -/
def Plugin.spec (p : Plugin) (globals : Globals) : PluginSpec where
  name := p.name
  version := (p.metadata.lookup "version".toList).getD "0.0.0".toList
  runtime := "python"
  source := p.path
  entryPoints := Dict.ofPairs (p.entryPoints.filterMap fun ep =>
    (globals.lookup ep).map fun body => (ep, body))
  metadata := p.metadata
  globals := globals
  denied := p.denied

end Obase.PluginLoader
