import Mathlib.Data.List.Sort
import Mathlib.Data.String.Basic
import Obase.Fallible
import Obase.FileTree
import Obase.Run
import Obase.Text

namespace Obase.HierarchicalContext
set_option autoImplicit true

inductive Layer where
  | L0
  | L1
  | L2
deriving DecidableEq

/-- What a call raises. -/
inductive Failure where
  | notAUri (uri : String)
  | tokenBudgetExceeded (layer : Layer) (limit actual : Nat)
  | permissionError (target : List Char)
  | fileNotFound (layer : Layer) (uri : String)
  | valueError
  | os (e : OsError)

/-- A directory whose path is resolved. -/
structure PathJail where
  root : Path
  names : ∀ n ∈ root, Path.IsName n

def PathJail.resolveAndVerify (jail : PathJail) (target : List Char) : Except Failure Path :=
  if '\x00' ∈ target then .error .valueError
  else if jail.root <+: Path.resolve jail.root target then .ok (Path.resolve jail.root target)
  else .error (.permissionError target)

def uriScheme : List Char := "3o://".toList

def stripScheme (uri : String) : Except Failure (List Char) :=
  if uriScheme <+: uri.toList then .ok (uri.toList.drop uriScheme.length)
  else .error (.notAUri uri)

def l0MaxTokens : Nat := 120

def l1MaxTokens : Nat := 2048

def tokenCounter (text : List Char) : Nat := if text = [] then 0 else max 1 (text.length / 4)

/-- `_LAYER_SUFFIX`, which `L2` is not in. -/
def layerSuffix : Layer → String
  | .L0 => ".abstract"
  | .L1 => ".overview"
  | .L2 => ""

def sidecar (p : Path) (layer : Layer) : Path := p.dropLast ++ [p.name ++ layerSuffix layer]

/-- Where a layer of a path lies. -/
def target (p : Path) (layer : Layer) : Path := if layer = .L2 then p else sidecar p layer

/-- The sidecar names that `list_uris` passes over. -/
def isSidecar (p : Path) : Bool :=
  p.suffix = (layerSuffix .L0).toList || p.suffix = (layerSuffix .L1).toList

section
variable (jail : PathJail) (t : FileTree)

def PathJail.path (uri : String) : Except Failure Path :=
  (stripScheme uri).bind jail.resolveAndVerify

/-- The URI of a path below the root. -/
def PathJail.uri (p : Path) : String :=
  String.ofList (uriScheme ++ Path.text (p.drop jail.root.length))

/-- The body of `write`. -/
def writeBody (uri : String) (content : List Char) : Except Failure FileTree :=
  (jail.path uri).bind fun p => (t.put p content).mapError .os

def writeLayer (uri : String) (layer : Layer) (text : List Char) (limit : Nat) :
    Except Failure FileTree :=
  if limit < tokenCounter text then
    .error (.tokenBudgetExceeded layer limit (tokenCounter text))
  else (jail.path uri).bind fun p => (t.put (target p layer) text).mapError .os

def setAbstract (uri : String) (text : List Char) : Except Failure FileTree :=
  writeLayer jail t uri .L0 text l0MaxTokens

def setOverview (uri : String) (text : List Char) : Except Failure FileTree :=
  writeLayer jail t uri .L1 text l1MaxTokens

/-- The next write, unless one before it raised. -/
def andThen (r : Except Failure Unit × FileTree) (next : FileTree → Except Failure FileTree) :
    Except Failure Unit × FileTree :=
  match r with
  | (.error e, t) => (.error e, t)
  | (.ok (), t) =>
    match next t with
    | .ok t' => (.ok (), t')
    | .error e => (.error e, t)

def write (uri : String) (content : List Char) (abstract overview : Option (List Char)) :
    Except Failure Unit × FileTree :=
  let r := andThen (.ok (), t) fun t => writeBody jail t uri content
  let r := match abstract with
    | some text => andThen r fun t => setAbstract jail t uri text
    | none => r
  match overview with
  | some text => andThen r fun t => setOverview jail t uri text
  | none => r

def read (uri : String) (layer : Layer) : Except Failure (List Char) :=
  (jail.path uri).bind fun p =>
    if (t.entry (target p layer)).isNone then .error (.fileNotFound layer uri)
    else ((t.readText (target p layer)).map Text.universalNewlines).mapError .os

def listUris (pre : String) : Except Failure (List String) :=
  (jail.path pre).map fun base =>
    if t.isFile base then [pre]
    else if t.isDir base then
      (((t.below base).insertionSort (· ≤ ·)).filter fun p =>
        !(t.isDir p || isSidecar p)).map jail.uri
    else []

end

inductive Call where
  | write (uri : String) (content : List Char) (abstract overview : Option (List Char))
  | setAbstract (uri : String) (text : List Char)
  | setOverview (uri : String) (text : List Char)

/-- What the call leaves of the files. -/
def Call.run (jail : PathJail) (t : FileTree) : Call → FileTree
  | .write uri content abstract overview => (HierarchicalContext.write jail t uri content abstract overview).2
  | .setAbstract uri text => (andThen (.ok (), t) fun t => HierarchicalContext.setAbstract jail t uri text).2
  | .setOverview uri text => (andThen (.ok (), t) fun t => HierarchicalContext.setOverview jail t uri text).2

/-- A layer that was written. -/
structure Put where
  path : Path
  layer : Layer
  text : List Char

/-- The files, and what was written, in order. -/
structure State where
  tree : FileTree
  puts : List Put

def State.new (jail : PathJail) : State := ⟨FileTree.root jail.root, []⟩

/-- The text that was last written to a layer of a path. -/
def lastWritten (puts : List Put) (p : Path) (layer : Layer) : Option (List Char) :=
  puts.foldl (fun m w => if w.path = p ∧ w.layer = layer then some w.text else m) none

/-- A layer that a call is to write. -/
structure Request where
  uri : String
  layer : Layer
  text : List Char

/-- The layers of a call, in the order in which they are written. -/
def Call.requests : Call → List Request
  | .write uri content abstract overview =>
    ⟨uri, .L2, content⟩ :: ((abstract.map fun text => ⟨uri, .L0, text⟩).toList ++
      (overview.map fun text => ⟨uri, .L1, text⟩).toList)
  | .setAbstract uri text => [⟨uri, .L0, text⟩]
  | .setOverview uri text => [⟨uri, .L1, text⟩]

/-- A text is within the budget of a layer. -/
def Fits : Layer → List Char → Prop
  | .L0, text => tokenCounter text ≤ l0MaxTokens
  | .L1, text => tokenCounter text ≤ l1MaxTokens
  | .L2, _ => True

instance (layer : Layer) (text : List Char) : Decidable (Fits layer text) :=
  match layer with
  | .L0 | .L1 => inferInstanceAs (Decidable (_ ≤ _))
  | .L2 => .isTrue trivial

section
variable (jail : PathJail)

/-- What a request writes, where the URI is accepted and the text is within its budget. -/
def Request.put (r : Request) : Option Put :=
  match jail.path r.uri with
  | .ok p => if Fits r.layer r.text then some ⟨p, r.layer, r.text⟩ else none
  | .error _ => none

/-- The layers that are written one after another, until one is refused or another file or directory
is in its way. -/
def taken (t : FileTree) : List Request → List Put
  | [] => []
  | r :: rs =>
    match r.put jail with
    | none => []
    | some w =>
      match t.put (target w.path w.layer) w.text with
      | .ok t' => w :: taken t' rs
      | .error _ => []

def Call.step (s : State) (call : Call) : State :=
  ⟨call.run jail s.tree, s.puts ++ taken jail s.tree call.requests⟩

/-- A call leads from one state to the next. -/
def Step (s : State) (call : Call) (t : State) : Prop := t = call.step jail s

/-- The calls, each with the state that it leads to. -/
def states (s : State) : List Call → List (Call × State)
  | [] => []
  | call :: calls => (call, call.step jail s) :: states (call.step jail s) calls

/-- The path lies where a sidecar may lie. -/
def Clashes (p : Path) : Prop := isSidecar p = true ∨ p = sidecar [] .L0 ∨ p = sidecar [] .L1

/-- The text has no carriage return, a body does not lie where a sidecar may lie, and a sidecar is
not that of the root of the file system. -/
structure Put.Plain (w : Put) : Prop where
  noReturn : '\r' ∉ w.text
  body : w.layer = .L2 → ¬ Clashes w.path
  sidecar : w.layer ≠ .L2 → w.path ≠ []

/-- All layers that the call writes are plain. -/
def Clean (s : State) (call : Call) : Prop :=
  ∀ w ∈ taken jail s.tree call.requests, w.Plain

/-- A layer is read as it was last written, and is not there if it was not. -/
def ReadsLast (s : State) (uri : String) (p : Path) (layer : Layer) : Prop :=
  ∀ text, read jail s.tree uri layer = .ok text ↔ lastWritten s.puts p layer = some text

/-- The URIs that are listed are those below the path whose body was written. -/
def ListsBodies (s : State) (pre : String) (p : Path) : Prop :=
  ∃ us, listUris jail s.tree pre = .ok us ∧ ∀ q,
    (∃ u ∈ us, jail.path u = .ok q) ↔ p <+: q ∧ ∃ text, lastWritten s.puts q .L2 = some text

/-- Reads and lists are right but for those of a sidecar that is taken for a body, and every sidecar
is within its budget. -/
structure Layered (s : State) : Prop where
  reads : ∀ uri p layer, jail.path uri = .ok p → (ReadsLast jail s uri p layer ↔
    ¬ (layer = .L2 ∧ Clashes p ∧ s.tree.isFile p = true))
  lists : ∀ pre p, jail.path pre = .ok p → (ListsBodies jail s pre p ↔
    ¬ (Clashes p ∧ s.tree.isFile p = true))
  budgets : ∀ uri layer text, layer ≠ .L2 → read jail s.tree uri layer = .ok text → Fits layer text

/-- A path below the root that consists of names. -/
structure PathJail.Accepts (p : Path) : Prop where
  below : jail.root <+: p
  names : ∀ n ∈ p, Path.IsName n

/-- The files lie in directories with names, and the root is one of them. -/
structure Grown (t : FileTree) : Prop where
  sound : t.Sound
  root : t.isDir jail.root = true
  names : ∀ p ∈ Dict.keys t, ∀ n ∈ p, Path.IsName n

/-- What was last written is there and plain, and there are no other files. -/
structure Kept (s : State) : Prop where
  grown : Grown jail s.tree
  stored : ∀ p layer text, lastWritten s.puts p layer = some text → jail.Accepts p ∧
    Put.Plain ⟨p, layer, text⟩ ∧ Fits layer text ∧ s.tree.content (target p layer) = some text
  files : ∀ q text, s.tree.content q = some text →
    ∃ p layer, q = target p layer ∧ lastWritten s.puts p layer = some text

end

section
variable {jail : PathJail} {t t' : FileTree}

theorem PathJail.path_ok {uri : String} {p : Path} (h : jail.path uri = .ok p) :
    jail.Accepts p := by
  obtain ⟨target, -, h⟩ := bind_ok h
  rw [resolveAndVerify] at h
  split at h
  · cases h
  · rename_i hn
    split at h
    · rename_i hp
      cases h
      refine ⟨hp, ?_⟩
      have hnames := Path.resolve_drop (p := jail.root) hn
      obtain ⟨rest, hrest⟩ := hp
      rw [← hrest] at hnames ⊢
      rw [List.drop_left] at hnames
      exact List.forall_mem_append.2 ⟨jail.names, hnames⟩
    · cases h

/-- The URI of an accepted path leads to it. -/
theorem PathJail.Accepts.path_uri {p : Path} (h : jail.Accepts p) :
    jail.path (jail.uri p) = .ok p := by
  obtain ⟨rest, rfl⟩ := h.below
  have hr : ∀ n ∈ rest, Path.IsName n := fun n hn => h.names n (List.mem_append_right _ hn)
  have hs : stripScheme (jail.uri (jail.root ++ rest)) = .ok (Path.text rest) := by
    rw [stripScheme, uri, String.toList_ofList, if_pos (List.prefix_append ..), List.drop_left,
      List.drop_left]
  rw [path, hs]
  change jail.resolveAndVerify (Path.text rest) = _
  rw [resolveAndVerify, if_neg (Path.nul_not_mem_text hr), Path.resolve_text _ hr,
    if_pos (List.prefix_append ..)]

theorem name_ne_empty {p : Path} (h : ∀ n ∈ p, Path.IsName n) (hp : p ≠ []) : p.name ≠ "" := by
  have hm : p.name ∈ p.dropLast ++ [p.name] := List.mem_append_right _ (.head _)
  rw [Path.dropLast_append_name hp] at hm
  exact (h _ hm).not_empty

theorem layerSuffix_dot {layer : Layer} (h : layer ≠ .L2) :
    ∃ ext, (layerSuffix layer).toList = '.' :: ext ∧ '.' ∉ ext ∧ ext ≠ [] := by
  cases layer with
  | L0 => exact ⟨"abstract".toList, rfl, by decide, by decide⟩
  | L1 => exact ⟨"overview".toList, rfl, by decide, by decide⟩
  | L2 => exact (h rfl).elim

theorem isSidecar_iff {p : Path} :
    isSidecar p = true ↔ ∃ layer, layer ≠ .L2 ∧ p.suffix = (layerSuffix layer).toList := by
  rw [isSidecar, Bool.or_eq_true, decide_eq_true_eq, decide_eq_true_eq]
  constructor
  · rintro (h | h)
    · exact ⟨.L0, by decide, h⟩
    · exact ⟨.L1, by decide, h⟩
  · rintro ⟨layer, hl, h⟩
    cases layer with
    | L0 => exact .inl h
    | L1 => exact .inr h
    | L2 => exact (hl rfl).elim

theorem isSidecar_sidecar {p : Path} (h : ∀ n ∈ p, Path.IsName n) (hp : p ≠ []) {layer : Layer}
    (hl : layer ≠ .L2) : isSidecar (sidecar p layer) = true := by
  obtain ⟨ext, he, hd, hne⟩ := layerSuffix_dot hl
  refine isSidecar_iff.2 ⟨layer, hl, ?_⟩
  rw [he]
  refine (Path.suffix_eq_iff hd hne).2 ⟨p.name.toList, ?_, ?_⟩
  · exact fun hn => name_ne_empty h hp (String.toList_eq_nil_iff.1 hn)
  · rw [sidecar, Path.name_append, String.toList_append, he]

/-- A sidecar lies where a sidecar may lie. -/
theorem sidecar_clashes {p : Path} (h : ∀ n ∈ p, Path.IsName n) {layer : Layer}
    (hl : layer ≠ .L2) : Clashes (sidecar p layer) := by
  by_cases hp : p = []
  · subst hp
    cases layer with
    | L0 => exact .inr (.inl rfl)
    | L1 => exact .inr (.inr rfl)
    | L2 => exact (hl rfl).elim
  · exact .inl (isSidecar_sidecar h hp hl)

theorem layerSuffix_length {layer : Layer} (h : layer ≠ .L2) :
    (layerSuffix layer).toList.length = 9 := by
  cases layer with
  | L0 => rfl
  | L1 => rfl
  | L2 => exact (h rfl).elim

theorem layerSuffix_inj {layer layer' : Layer} (hl : layer ≠ .L2) (hl' : layer' ≠ .L2)
    (h : layerSuffix layer = layerSuffix layer') : layer = layer' := by
  cases layer with
  | L2 => exact (hl rfl).elim
  | L0 =>
    cases layer' with
    | L2 => exact (hl' rfl).elim
    | L0 => rfl
    | L1 => exact absurd h (by decide)
  | L1 =>
    cases layer' with
    | L2 => exact (hl' rfl).elim
    | L0 => exact absurd h (by decide)
    | L1 => rfl

theorem sidecar_inj {p q : Path} (hp : ∀ n ∈ p, Path.IsName n) (hq : ∀ n ∈ q, Path.IsName n)
    {layer layer' : Layer} (hl : layer ≠ .L2) (hl' : layer' ≠ .L2)
    (h : sidecar p layer = sidecar q layer') : p = q ∧ layer = layer' := by
  obtain ⟨hd, hn⟩ := List.append_inj' h rfl
  have hn := congrArg String.toList (List.singleton_injective hn)
  rw [String.toList_append, String.toList_append] at hn
  obtain ⟨hname, hs⟩ := List.append_inj' hn
    ((layerSuffix_length hl).trans (layerSuffix_length hl').symm)
  have hname : p.name = q.name := String.toList_injective hname
  refine ⟨?_, layerSuffix_inj hl hl' (String.toList_injective hs)⟩
  by_cases hp₀ : p = []
  · by_cases hq₀ : q = []
    · rw [hp₀, hq₀]
    · rw [hp₀] at hname
      exact (name_ne_empty hq hq₀ hname.symm).elim
  · by_cases hq₀ : q = []
    · rw [hq₀] at hname
      exact (name_ne_empty hp hp₀ hname).elim
    · rw [← Path.dropLast_append_name hp₀, ← Path.dropLast_append_name hq₀, hd, hname]

/-- Two layers lie apart, unless a body lies where a sidecar may lie. -/
theorem target_inj {p q : Path} (hp : ∀ n ∈ p, Path.IsName n) (hq : ∀ n ∈ q, Path.IsName n)
    {layer layer' : Layer} (hl : layer = .L2 → ¬ Clashes p) (hl' : layer' = .L2 → ¬ Clashes q)
    (h : target p layer = target q layer') : p = q ∧ layer = layer' := by
  rw [target, target] at h
  split at h
  · rename_i h₂
    split at h
    · rename_i h₂'
      exact ⟨h, h₂.trans h₂'.symm⟩
    · rename_i h₂'
      exact (hl h₂ (h ▸ sidecar_clashes hq h₂')).elim
  · rename_i h₂
    split at h
    · rename_i h₂'
      exact (hl' h₂' (h ▸ sidecar_clashes hp h₂)).elim
    · rename_i h₂'
      exact sidecar_inj hp hq h₂ h₂' h

end

end Obase.HierarchicalContext
