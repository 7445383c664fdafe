import Obase.AliceWorkspace.Files

namespace Obase.LocalVfs
set_option autoImplicit true
open AliceWorkspace Effect

/-- A machine without symbolic links: which paths `resolve` takes (it raises a `ValueError` where
the system has no name for one), which can be made, and the names of temporary files. -/
structure Disk where
  resolves : FsPath → Bool
  creates : FsPath → Bool
  temporary : Files → FsPath → Option FsPath
  temporary_free : ∀ files p t, temporary files p = some t → files t = none

/-- The machine as one on which every path leads to itself. -/
def Disk.system (D : Disk) : System where
  real p := if D.resolves p then some p else none
  isLink _ := false
  creates := D.creates
  temporary := D.temporary
  sha256 bytes := bytes
  isoformat _ := ""
  now := 0
  git := .unavailable
  real_real p q h := by
    split at h
    · rename_i hp
      cases h
      exact if_pos hp
    · cases h
  temporary_free := D.temporary_free

inductive Raised where
  | valueError (message : String)
  | typeError (message : String)
  | traversal (path : PyStr)
  | osError
  | nameError (name : String)
deriving DecidableEq

abbrev Call := EStateM Raised Files

/-- A call of the system: it raises an `OSError` or nothing. -/
def os (x : AliceWorkspace.Call α) : Call α := fun files =>
  match x files with
  | .ok a files => .ok a files
  | .error _ files => .error .osError files

/-- The argument `content`. -/
inductive Content where
  | bytes (bs : List UInt8)
  | other

/-- The parts of a relative path. -/
def names (path : PyStr) : List PyStr :=
  (path.splitOn (.char '/')).filter fun n => n ≠ [] ∧ n ≠ [.char '.']

def isAbsolute (path : PyStr) : Bool := path.head? = some (.char '/')

section
variable (D : Disk) (root : FsPath)

/-- `resolve()`. -/
def resolve (p : FsPath) : Call FsPath :=
  match D.system.real p with
  | some q => pure q
  | none => throw (.valueError "embedded null byte")

instance instLawfulBEqPyStr : LawfulBEq PyStr := inferInstance

/-- `_resolve`. -/
def resolvePath (path : PyStr) : Call FsPath :=
  if path.strip = [] then throw (.valueError "path must be a non-empty relative path")
  else if isAbsolute path ∨ [.char '.', .char '.'] ∈ names path then throw (.traversal path)
  else do
    let candidate ← resolve D (root ++ names path)
    if root <+: candidate then pure candidate else throw (.traversal path)

/-- What `_write_sync` does once the parent is there. -/
def writeTemporary (target : FsPath) (content : List UInt8) : AliceWorkspace.Call Unit := do
  let temporary ← mkstemp D.system target
  try
    writeFile temporary content
    replace temporary target
  catch e =>
    unlink temporary
    throw e

/-- `_write_sync`; the message of its check names a `path` that it does not have. -/
def writeSync (target : FsPath) (content : List UInt8) : Call Unit := do
  os (mkdirs D.system target.dropLast)
  let resolvedParent ← resolve D target.dropLast
  if root <+: resolvedParent then os (writeTemporary D target content)
  else throw (.nameError "path")

def writeFile (path : PyStr) (content : Content) : Call Unit :=
  match content with
  | .other => throw (.typeError "content must be bytes")
  | .bytes bs => do
    let resolved ← resolvePath D root path
    writeSync D root resolved bs

def readFile (path : PyStr) : Call (List UInt8) := do
  let resolved ← resolvePath D root path
  os (readBytes D.system resolved)

end

/-- A call on the file system. -/
inductive Request where
  | write (path : PyStr) (content : Content)
  | read (path : PyStr)

/-- What a request returns or raises, with the files after it. -/
def step (D : Disk) (root : FsPath) (files : Files) : Request →
    EStateM.Result Raised Files (Option (List UInt8))
  | .write path content => (writeFile D root path content >>= fun _ => pure none) files
  | .read path => (readFile D root path >>= fun bytes => pure (some bytes)) files

/-- The abstract map: the bytes of the last write to the parts of a path that succeeded. -/
abbrev Written := List PyStr → Option (List UInt8)

/-- The abstract map after a request with this result. -/
def Written.record (m : Written) : Request → EStateM.Result Raised Files (Option (List UInt8)) →
    Written
  | .write path (.bytes bs), .ok _ _ => fun ns => if ns = names path then some bs else m ns
  | .write _ .other, .ok _ _ => m
  | .read _, .ok _ _ => m
  | _, .error _ _ => m

/-- The files and the abstract map after a request. -/
def observe (D : Disk) (root : FsPath) (s : Files × Written) (r : Request) : Files × Written :=
  (after (step D root s.1 r), s.2.record r (step D root s.1 r))

def run (D : Disk) (root : FsPath) (files : Files) (requests : List Request) : Files × Written :=
  requests.foldl (observe D root) (files, fun _ => none)

/-- The outcomes that the contract allows. -/
def Raised.Allowed : Raised → Prop
  | .nameError _ => False
  | _ => True

/-- What a request may do to the files: a write puts its bytes in one file below the root. -/
structure Lawful (D : Disk) (root : FsPath) (s : Files × Written) (r : Request) : Prop where
  raised : ∀ e t, step D root s.1 r = .error e t → e.Allowed ∧ t.text = s.1.text
  wrote : ∀ path content o t, r = .write path content → step D root s.1 r = .ok o t →
    ∃ bs ns, content = .bytes bs ∧ ns ≠ [] ∧
      ∀ q, t.text q = if q = root ++ ns then some bs else s.1.text q
  kept : ∀ path o t, r = .read path → step D root s.1 r = .ok o t → t.text = s.1.text
  read : ∀ path bs, r = .read path → isAbsolute path = false → s.2 (names path) = some bs →
    step D root s.1 r = .ok (some bs) s.1 ∨
      path.strip = [] ∧ ∃ message, step D root s.1 r = .error (.valueError message) s.1

/-- Every request of a run does what the contract says. -/
def Refines (D : Disk) (root : FsPath) (files : Files) (requests : List Request) : Prop :=
  ∀ before r later, requests = before ++ r :: later → Lawful D root (run D root files before) r

/-- The write is not to the root itself, which has no parent inside it. -/
def Harmless (root : FsPath) : Request → Prop
  | .write path (.bytes _) =>
    root = [] ∨ names path ≠ [] ∨ path.strip = [] ∨ isAbsolute path = true
  | _ => True

variable {D : Disk} {root p : FsPath} {files t : Files} {path : PyStr} {bs : List UInt8}

theorem os_ok {x : AliceWorkspace.Call α} {a : α} : os x files = .ok a t ↔ x files = .ok a t := by
  rw [os]
  cases x files with
  | ok b u =>
    constructor
    · intro h
      cases h
      rfl
    · intro h
      cases h
      rfl
  | error e u => exact ⟨fun h => (nomatch h), fun h => (nomatch h)⟩

theorem os_error {x : AliceWorkspace.Call α} {e : Raised} :
    os x files = .error e t ↔ e = .osError ∧ ∃ e', x files = .error e' t := by
  rw [os]
  cases x files with
  | ok b u => exact ⟨fun h => (nomatch h), fun ⟨_, _, h⟩ => (nomatch h)⟩
  | error e' u =>
    constructor
    · intro h
      cases h
      exact ⟨rfl, e', rfl⟩
    · rintro ⟨rfl, _, h⟩
      cases h
      rfl

theorem real_eq_some {q : FsPath} : D.system.real p = some q ↔ D.resolves p = true ∧ q = p := by
  have hr : D.system.real p = if D.resolves p then some p else none := rfl
  rw [hr]
  by_cases h : D.resolves p = true
  · rw [if_pos h, Option.some_inj]
    exact ⟨fun he => ⟨h, he.symm⟩, fun he => he.2.symm⟩
  · rw [if_neg h]
    exact ⟨fun he => (nomatch he), fun he => (h he.1).elim⟩

theorem resolve_ok {q : FsPath} :
    resolve D p files = .ok q t ↔ D.resolves p = true ∧ q = p ∧ t = files := by
  rw [resolve]
  cases hr : D.system.real p with
  | none =>
    refine ⟨fun h => (nomatch h), fun h => ?_⟩
    have hs := (@real_eq_some D p p).2 ⟨h.1, rfl⟩
    rw [hr] at hs
    cases hs
  | some r =>
    obtain ⟨hp, rfl⟩ := real_eq_some.1 hr
    constructor
    · intro h
      cases h
      exact ⟨hp, rfl, rfl⟩
    · rintro ⟨-, rfl, rfl⟩
      rfl

theorem resolve_error {e : Raised} (h : resolve D p files = .error e t) :
    (∃ message, e = .valueError message) ∧ t = files := by
  rw [resolve] at h
  cases hr : D.system.real p with
  | none =>
    rw [hr] at h
    cases h
    exact ⟨⟨_, rfl⟩, rfl⟩
  | some q =>
    rw [hr] at h
    cases h

/-- What resolving a path gives: the path below the root with the parts of it. -/
theorem resolvePath_ok {q : FsPath} : resolvePath D root path files = .ok q t ↔
    (path.strip ≠ [] ∧ isAbsolute path = false ∧ [.char '.', .char '.'] ∉ names path ∧
      D.resolves (root ++ names path) = true) ∧ q = root ++ names path ∧ t = files := by
  rw [resolvePath]
  by_cases hs : path.strip = []
  · rw [if_pos hs]
    exact ⟨fun h => (nomatch h), fun h => (h.1.1 hs).elim⟩
  · rw [if_neg hs]
    by_cases ha : isAbsolute path ∨ [.char '.', .char '.'] ∈ names path
    · rw [if_pos ha]
      refine ⟨fun h => (nomatch h), fun ⟨⟨_, hr, hd, _⟩, _⟩ => ?_⟩
      rcases ha with ha | ha
      · rw [hr] at ha
        cases ha
      · exact (hd ha).elim
    · rw [if_neg ha, bind_eq_ok]
      rw [not_or, Bool.not_eq_true] at ha
      constructor
      · rintro ⟨c, s, hr, hc⟩
        obtain ⟨hres, rfl, rfl⟩ := resolve_ok.1 hr
        rw [if_pos (List.prefix_append ..)] at hc
        cases hc
        exact ⟨⟨hs, ha.1, ha.2, hres⟩, rfl, rfl⟩
      · rintro ⟨⟨_, _, _, hres⟩, rfl, rfl⟩
        refine ⟨_, _, resolve_ok.2 ⟨hres, rfl, rfl⟩, ?_⟩
        rw [if_pos (List.prefix_append ..)]
        rfl

theorem resolvePath_error {e : Raised} (h : resolvePath D root path files = .error e t) :
    e.Allowed ∧ t = files := by
  rw [resolvePath] at h
  split at h
  · cases h
    exact ⟨trivial, rfl⟩
  · split at h
    · cases h
      exact ⟨trivial, rfl⟩
    · cases hr : resolve D (root ++ names path) files with
      | ok c s =>
        rw [bind_of_ok hr] at h
        obtain ⟨-, rfl, rfl⟩ := resolve_ok.1 hr
        rw [if_pos (List.prefix_append ..)] at h
        cases h
      | error e' s =>
        rw [bind_of_error hr] at h
        cases h
        obtain ⟨⟨message, rfl⟩, rfl⟩ := resolve_error hr
        exact ⟨trivial, rfl⟩

theorem writeTemporary_eq {target : FsPath} (hc : Clear D.system files target.dropLast) :
    writeTemporary D target bs (files.withDirectories target.dropLast) =
      atomicWrite D.system target bs files := by
  rw [atomicWrite, bind_of_ok ((mkdirs_ok (u := ⟨⟩)).2 ⟨hc, rfl⟩)]
  rfl

/-- What a write to a target does that returns. -/
theorem writeSync_ok {target : FsPath} {u : Unit}
    (h : writeSync D root target bs files = .ok u t) :
    root <+: target.dropLast ∧ Writable D.system files target ∧ t = files.written target bs := by
  rw [writeSync, bind_eq_ok] at h
  obtain ⟨_, s, hm, h⟩ := h
  obtain ⟨hc, rfl⟩ := mkdirs_ok.1 (os_ok.1 hm)
  rw [bind_eq_ok] at h
  obtain ⟨q, s, hr, h⟩ := h
  obtain ⟨-, rfl, rfl⟩ := resolve_ok.1 hr
  by_cases hp : root <+: target.dropLast
  · rw [if_pos hp, os_ok, writeTemporary_eq hc, atomicWrite_ok] at h
    exact ⟨hp, h⟩
  · rw [if_neg hp] at h
    cases h

/-- A write to a target that raises changes no file. -/
theorem writeSync_error {target : FsPath} {e : Raised}
    (h : writeSync D root target bs files = .error e t) :
    (root <+: target.dropLast → e.Allowed) ∧ t.text = files.text := by
  cases hm : os (mkdirs D.system target.dropLast) files with
  | error e' s =>
    rw [writeSync, bind_of_error hm] at h
    cases h
    obtain ⟨rfl, e', hm⟩ := os_error.1 hm
    exact ⟨fun _ => trivial, (keeps_mkdirs _ _).eq_of_error hm⟩
  | ok _ s =>
    rw [writeSync, bind_of_ok hm] at h
    obtain ⟨hc, rfl⟩ := mkdirs_ok.1 (os_ok.1 hm)
    cases hr : resolve D target.dropLast (files.withDirectories target.dropLast) with
    | error e' s =>
      rw [bind_of_error hr] at h
      cases h
      obtain ⟨⟨message, rfl⟩, rfl⟩ := resolve_error hr
      exact ⟨fun _ => trivial, text_withDirectories hc⟩
    | ok q s =>
      rw [bind_of_ok hr] at h
      obtain ⟨-, rfl, rfl⟩ := resolve_ok.1 hr
      by_cases hp : root <+: target.dropLast
      · rw [if_pos hp, os_error, writeTemporary_eq hc] at h
        obtain ⟨rfl, e', h⟩ := h
        exact ⟨fun _ => trivial, atomicWrite_error h⟩
      · rw [if_neg hp] at h
        cases h
        exact ⟨fun hr => (hp hr).elim, text_withDirectories hc⟩

theorem readFile_ok {content : List UInt8} : readFile D root path files = .ok content t ↔
    (path.strip ≠ [] ∧ isAbsolute path = false ∧ [.char '.', .char '.'] ∉ names path ∧
      D.resolves (root ++ names path) = true) ∧
      files.text (root ++ names path) = some content ∧ t = files := by
  rw [readFile, bind_eq_ok]
  constructor
  · rintro ⟨q, s, hr, h⟩
    obtain ⟨hp, rfl, rfl⟩ := resolvePath_ok.1 hr
    obtain ⟨⟨r, hres, htext⟩, rfl⟩ := readBytes_ok.1 (os_ok.1 h)
    obtain ⟨-, rfl⟩ := real_eq_some.1 hres
    exact ⟨hp, htext, rfl⟩
  · rintro ⟨hp, htext, rfl⟩
    refine ⟨_, _, resolvePath_ok.2 ⟨hp, rfl, rfl⟩, os_ok.2 (readBytes_ok.2 ⟨⟨_, ?_, htext⟩, rfl⟩)⟩
    exact real_eq_some.2 ⟨hp.2.2.2, rfl⟩

theorem readFile_error {e : Raised} (h : readFile D root path files = .error e t) :
    e.Allowed ∧ t = files := by
  cases hr : resolvePath D root path files with
  | error e' s =>
    rw [readFile, bind_of_error hr] at h
    cases h
    exact resolvePath_error hr
  | ok q s =>
    rw [readFile, bind_of_ok hr] at h
    obtain ⟨-, -, rfl⟩ := resolvePath_ok.1 hr
    obtain ⟨rfl, e', h⟩ := os_error.1 h
    refine ⟨trivial, ?_⟩
    exact (keeps_readBytes id D.system q).eq_of_error h

/-- What a write does that returns. -/
theorem writeFile_ok {content : Content} {u : Unit}
    (h : writeFile D root path content files = .ok u t) : ∃ bs, content = .bytes bs ∧
      (D.resolves (root ++ names path) = true ∧ [.char '.', .char '.'] ∉ names path) ∧
      names path ≠ [] ∧
      ∀ q, t.text q = if q = root ++ names path then some bs else files.text q := by
  cases content with
  | other => cases h
  | bytes bs =>
    rw [writeFile, bind_eq_ok] at h
    obtain ⟨q, s, hr, h⟩ := h
    obtain ⟨⟨-, -, hd, hres⟩, rfl, rfl⟩ := resolvePath_ok.1 hr
    obtain ⟨hp, hw, rfl⟩ := writeSync_ok h
    refine ⟨bs, rfl, ⟨hres, hd⟩, fun hn => ?_, fun q => text_written hw.clear q⟩
    rw [hn, List.append_nil] at hp hw
    have hl := hp.length_le
    rw [List.length_dropLast] at hl
    obtain rfl : root = [] := List.length_eq_zero_iff.1 (by omega)
    exact hw.not_directory (if_pos List.nil_prefix)

theorem writeFile_error {content : Content} {e : Raised}
    (hh : Harmless root (.write path content))
    (h : writeFile D root path content files = .error e t) :
    e.Allowed ∧ t.text = files.text := by
  cases content with
  | other =>
    cases h
    exact ⟨trivial, rfl⟩
  | bytes bs =>
    cases hr : resolvePath D root path files with
    | error e' s =>
      rw [writeFile, bind_of_error hr] at h
      cases h
      obtain ⟨ha, rfl⟩ := resolvePath_error hr
      exact ⟨ha, rfl⟩
    | ok q s =>
      rw [writeFile, bind_of_ok hr] at h
      obtain ⟨⟨hs, ha, -, -⟩, rfl, rfl⟩ := resolvePath_ok.1 hr
      obtain ⟨hallowed, htext⟩ := writeSync_error h
      refine ⟨hallowed ?_, htext⟩
      rcases hh with rfl | hn | hs' | ha'
      · exact List.nil_prefix
      · rw [List.dropLast_append_of_ne_nil hn]
        exact List.prefix_append ..
      · exact (hs hs').elim
      · rw [ha] at ha'
        cases ha'

theorem Written.record_error {m : Written} {r : Request} {e : Raised} :
    m.record r (.error e t) = m := by
  cases r with
  | write path content => cases content <;> rfl
  | read path => rfl

/-- What has been written is in the files, at a path that can be resolved. -/
def Kept (D : Disk) (root : FsPath) (s : Files × Written) : Prop :=
  ∀ ns bs, s.2 ns = some bs → s.1.text (root ++ ns) = some bs ∧
    D.resolves (root ++ ns) = true ∧ [.char '.', .char '.'] ∉ ns

theorem step_write_ok {content : Content} {o : Option (List UInt8)} :
    step D root files (.write path content) = .ok o t ↔
      writeFile D root path content files = .ok () t ∧ o = none := by
  rw [step, bind_eq_ok]
  constructor
  · rintro ⟨_, _, h, he⟩
    cases he
    exact ⟨h, rfl⟩
  · rintro ⟨h, rfl⟩
    exact ⟨_, _, h, rfl⟩

theorem step_write_error {content : Content} {e : Raised} :
    step D root files (.write path content) = .error e t ↔
      writeFile D root path content files = .error e t := by
  cases h : writeFile D root path content files with
  | ok u s =>
    rw [step, bind_of_ok h]
    exact ⟨fun h => (nomatch h), fun h => (nomatch h)⟩
  | error e' s => rw [step, bind_of_error h, EStateM.Result.error.injEq, EStateM.Result.error.injEq]

theorem step_read_ok {o : Option (List UInt8)} : step D root files (.read path) = .ok o t ↔
    ∃ content, readFile D root path files = .ok content t ∧ o = some content := by
  rw [step, bind_eq_ok]
  constructor
  · rintro ⟨content, _, h, he⟩
    cases he
    exact ⟨content, h, rfl⟩
  · rintro ⟨content, h, rfl⟩
    exact ⟨_, _, h, rfl⟩

theorem step_read_error {e : Raised} : step D root files (.read path) = .error e t ↔
    readFile D root path files = .error e t := by
  cases h : readFile D root path files with
  | ok content s =>
    rw [step, bind_of_ok h]
    exact ⟨fun h => (nomatch h), fun h => (nomatch h)⟩
  | error e' s => rw [step, bind_of_error h, EStateM.Result.error.injEq, EStateM.Result.error.injEq]

/-- A request keeps to the contract where what has been written is in the files. -/
theorem lawful_of_kept {s : Files × Written} {r : Request} (hk : Kept D root s)
    (hh : Harmless root r) : Lawful D root s r := by
  refine ⟨fun e t h => ?_, fun path content o t he h => ?_, fun path o t he h => ?_,
    fun path bs he ha hb => ?_⟩
  · cases r with
    | write path content => exact writeFile_error hh (step_write_error.1 h)
    | read path =>
      obtain ⟨ha, rfl⟩ := readFile_error (step_read_error.1 h)
      exact ⟨ha, rfl⟩
  · subst he
    obtain ⟨bs, rfl, -, hn, htext⟩ := writeFile_ok (step_write_ok.1 h).1
    exact ⟨bs, names path, rfl, hn, htext⟩
  · subst he
    obtain ⟨content, hr, -⟩ := step_read_ok.1 h
    rw [(readFile_ok.1 hr).2.2]
  · subst he
    obtain ⟨htext, hres, hd⟩ := hk _ _ hb
    by_cases hs : path.strip = []
    · refine .inr ⟨hs, "path must be a non-empty relative path", step_read_error.2 ?_⟩
      have hr : resolvePath D root path s.1 =
          .error (.valueError "path must be a non-empty relative path") s.1 := by
        rw [resolvePath, if_pos hs]
        rfl
      rw [readFile, bind_of_error hr]
    · exact .inl (step_read_ok.2 ⟨bs, readFile_ok.2 ⟨⟨hs, ha, hd, hres⟩, htext, rfl⟩, rfl⟩)

theorem kept_observe {s : Files × Written} {r : Request} (hk : Kept D root s)
    (hl : Lawful D root s r) : Kept D root (observe D root s r) := by
  cases hstep : step D root s.1 r with
  | error e t =>
    have ht := (hl.raised e t hstep).2
    have ho : observe D root s r = (t, s.2) := by
      rw [observe, hstep, Written.record_error]
      rfl
    rw [ho]
    intro ns bs hb
    rw [ht]
    exact hk ns bs hb
  | ok o t =>
    cases r with
    | read path =>
      have ho : observe D root s (.read path) = (t, s.2) := by
        rw [observe, hstep]
        rfl
      rw [ho]
      intro ns bs hb
      rw [hl.kept path o t rfl hstep]
      exact hk ns bs hb
    | write path content =>
      obtain ⟨bs, rfl, hres, -, htext⟩ := writeFile_ok (step_write_ok.1 hstep).1
      have ho : observe D root s (.write path (.bytes bs)) =
          (t, fun ns => if ns = names path then some bs else s.2 ns) := by
        rw [observe, hstep]
        rfl
      rw [ho]
      intro ns cs hb
      dsimp only at hb ⊢
      rw [htext]
      by_cases hn : ns = names path
      · rw [if_pos hn] at hb
        rw [hn, if_pos rfl]
        exact ⟨hb, hres⟩
      · rw [if_neg hn] at hb
        rw [if_neg fun he => hn (List.append_cancel_left he)]
        exact hk ns cs hb

theorem kept_run {requests : List Request} (h : ∀ r ∈ requests, Harmless root r) :
    Kept D root (run D root files requests) := by
  induction requests using List.reverseRecOn with
  | nil =>
    intro ns bs hb
    cases hb
  | append_singleton requests r ih =>
    have hk := ih fun r hr => h r (List.mem_append_left _ hr)
    have hr := h r (List.mem_append_right _ (List.mem_singleton_self r))
    rw [run, List.foldl_concat, ← run]
    exact kept_observe hk (lawful_of_kept hk hr)

/-- The requests of a run keep to the contract where none of them writes to the root. -/
theorem run_refines (D : Disk) (root : FsPath) (files : Files) (requests : List Request)
    (h : ∀ r ∈ requests, Harmless root r) : Refines D root files requests := by
  rintro before r later rfl
  refine lawful_of_kept (kept_run fun r hr => ?_) ?_
  · exact h r (List.mem_append_left _ hr)
  · exact h r (List.mem_append_right _ (List.mem_cons_self ..))

/-- A machine that makes every path, with one name for temporary files. -/
def freeDisk : Disk where
  resolves _ := true
  creates _ := true
  temporary files p :=
    let t := p.dropLast ++ [PyStr.ofChars ['.', 'v', 'f', 's', '-', 'w', 'r', 'i', 't', 'e', '-']]
    if files t = none then some t else none
  temporary_free files p t h := by
    by_cases hn : files (p.dropLast ++
        [PyStr.ofChars ['.', 'v', 'f', 's', '-', 'w', 'r', 'i', 't', 'e', '-']]) = none
    · rw [if_pos hn] at h
      cases h
      exact hn
    · rw [if_neg hn] at h
      cases h

/-- A root, and the files where nothing is below it. -/
def srv : FsPath := [PyStr.ofChars ['s', 'r', 'v']]

def emptyTree : Files := fun p => if p <+: srv then some .directory else none

theorem write_read_refines : Refines freeDisk srv emptyTree
    [.write (PyStr.ofChars ['a', '/', '.', '/', 'b']) (.bytes [1, 2]),
      .read (PyStr.ofChars ['a', '/', '/', 'b'])] :=
  run_refines freeDisk srv emptyTree _ (List.forall_mem_cons.2
    ⟨.inr (.inl (by decide)), List.forall_mem_singleton.2 trivial⟩)

/-- A write to `.` raises a `NameError`. -/
theorem dot_nameError :
    ¬ Refines freeDisk srv emptyTree [.write (PyStr.ofChars ['.']) (.bytes [120])] := by
  intro h
  have hl := h [] (.write (PyStr.ofChars ['.']) (.bytes [120])) [] rfl
  exact (hl.raised (.nameError "path") emptyTree rfl).1

end Obase.LocalVfs
