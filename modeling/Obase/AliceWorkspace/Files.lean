import Mathlib.Data.List.Infix
import Obase.Fallible
import Obase.PyStr

namespace Obase.AliceWorkspace
set_option autoImplicit true
open Effect

/-- The names that lead from the root of the file system to a file or a directory. -/
abbrev FsPath := List PyStr

inductive Node where
  | directory
  | file (bytes : List UInt8)
deriving DecidableEq

/-- The files and directories, each at the path that has no link on it. -/
abbrev Files := FsPath → Option Node

def Files.set (files : Files) (p : FsPath) (n : Node) : Files :=
  fun q => if q = p then some n else files q

def Files.remove (files : Files) (p : FsPath) : Files := fun q => if q = p then none else files q

/-- What the calls raise: a `pathError` is that of a path that cannot be resolved. -/
inductive Failure where
  | workspaceError (message : String)
  | pathError
  | osError
  | unicodeError
  | jsonDecodeError
  | python (e : PyError)
deriving DecidableEq

/-- What came of `git rev-parse --verify HEAD`. -/
inductive GitRun where
  | unavailable
  | undecodable
  | done (returncode : Int) (stdout : List Char)

/-- The machine the calls run on: where links lead (`none` where `resolve` raises), which paths can
be made, the name of a temporary file beside a file (`none` where `mkstemp` raises), the digest,
the clock in seconds since the year 1, and Git. -/
structure System where
  real : FsPath → Option FsPath
  isLink : FsPath → Bool
  creates : FsPath → Bool
  temporary : Files → FsPath → Option FsPath
  sha256 : List UInt8 → List UInt8
  isoformat : Int → String
  now : Int
  git : GitRun
  real_real : ∀ p q, real p = some q → real q = some q
  temporary_free : ∀ files p t, temporary files p = some t → files t = none

abbrev Call := EStateM Failure Files

def require (c : Prop) [Decidable c] (e : Failure) : Call Unit := if c then pure () else throw e

/-- `resolve()`. -/
def resolve (S : System) (p : FsPath) : Call FsPath :=
  match S.real p with
  | some q => pure q
  | none => throw .pathError

def isFile (S : System) (files : Files) (p : FsPath) : Bool :=
  match (S.real p).bind files with
  | some (.file _) => true
  | _ => false

/-- `mkdir(exist_ok=True)`. -/
def makeDirectory (S : System) (p : FsPath) : Call PUnit := fun files =>
  match files p with
  | some .directory => .ok () files
  | some (.file _) => .error .osError files
  | none => if S.creates p then .ok () (files.set p .directory) else .error .osError files

/-- `mkdir(parents=True, exist_ok=True)`. -/
def mkdirs (S : System) (p : FsPath) : Call PUnit := p.inits.forM (makeDirectory S)

def mkstemp (S : System) (path : FsPath) : Call FsPath := fun files =>
  match S.temporary files path with
  | some t => .ok t (files.set t (.file []))
  | none => .error .osError files

def writeFile (p : FsPath) (content : List UInt8) : Call Unit := fun files =>
  .ok () (files.set p (.file content))

/-- `os.replace`. -/
def replace (p q : FsPath) : Call Unit := fun files =>
  match files p, files q with
  | some (.file _), some .directory => .error .osError files
  | some (.file content), _ => .ok () ((files.remove p).set q (.file content))
  | _, _ => .error .osError files

def unlink (p : FsPath) : Call Unit := fun files => .ok () (files.remove p)

def atomicWrite (S : System) (path : FsPath) (content : List UInt8) : Call Unit := do
  mkdirs S path.dropLast
  let temporary ← mkstemp S path
  try
    writeFile temporary content
    replace temporary path
  catch e =>
    unlink temporary
    throw e

/-- `read_bytes()`, through links. -/
def readBytes (S : System) (p : FsPath) : Call (List UInt8) := fun files =>
  match (S.real p).bind files with
  | some (.file bytes) => .ok bytes files
  | _ => .error .osError files

/-- `open("ab")`, of a path without links. -/
def openAppend (S : System) (p : FsPath) : Call Unit := fun files =>
  match files p with
  | some .directory => .error .osError files
  | some (.file _) => .ok () files
  | none => if S.creates p then .ok () (files.set p (.file [])) else .error .osError files

/-- `stream.write` at the end of a file that is open. -/
def append (p : FsPath) (content : List UInt8) : Call Unit := fun files =>
  match files p with
  | some (.file bytes) => .ok () (files.set p (.file (bytes ++ content)))
  | _ => .error .osError files

/-- What is in a file. -/
def Files.text (files : Files) (p : FsPath) : Option (List UInt8) :=
  match files p with
  | some (.file bytes) => some bytes
  | _ => none

/-- The files with the directories made that lead to one. -/
def Files.withDirectories (files : Files) (p : FsPath) : Files :=
  fun q => if q <+: p then some .directory else files q

/-- Directories are there, or can be made, on the way to a path. -/
def Clear (S : System) (files : Files) (p : FsPath) : Prop :=
  ∀ q, q <+: p → files q = some .directory ∨ files q = none ∧ S.creates q = true

variable {S : System} {files t : Files} {p : FsPath} {content : List UInt8}

theorem text_eq_some : files.text p = some content ↔ files p = some (.file content) := by
  rw [Files.text]
  cases files p with
  | none => exact ⟨fun h => (nomatch h), fun h => (nomatch h)⟩
  | some n =>
    cases n with
    | directory => exact ⟨fun h => (nomatch h), fun h => (nomatch h)⟩
    | file bytes => simp

theorem text_set_file (files : Files) (p : FsPath) (content : List UInt8) (q : FsPath) :
    (files.set p (.file content)).text q = if q = p then some content else files.text q := by
  rw [Files.text, Files.set]
  by_cases h : q = p
  · rw [if_pos h, if_pos h]
  · rw [if_neg h, if_neg h]
    rfl

theorem text_withDirectories (h : Clear S files p) :
    (files.withDirectories p).text = files.text := by
  funext q
  rw [Files.text, Files.withDirectories]
  by_cases hq : q <+: p
  · rw [if_pos hq, Files.text]
    obtain hd | ⟨hn, -⟩ := h q hq
    · rw [hd]
    · rw [hn]
  · rw [if_neg hq]
    rfl

theorem require_ok {c : Prop} [Decidable c] {e : Failure} {u : Unit} :
    require c e files = .ok u t ↔ c ∧ t = files := by
  rw [require]
  by_cases hc : c
  · rw [if_pos hc]
    constructor
    · intro h
      cases h
      exact ⟨hc, rfl⟩
    · rintro ⟨-, rfl⟩
      rfl
  · rw [if_neg hc]
    exact ⟨fun h => (nomatch h), fun h => (hc h.1).elim⟩

theorem resolve_ok {q : FsPath} : resolve S p files = .ok q t ↔ S.real p = some q ∧ t = files := by
  rw [resolve]
  cases S.real p with
  | none => exact ⟨fun h => (nomatch h), fun h => (nomatch h.1)⟩
  | some r =>
    constructor
    · intro h
      cases h
      exact ⟨rfl, rfl⟩
    · rintro ⟨h, rfl⟩
      cases h
      rfl

theorem keeps_require {c : Prop} [Decidable c] (v : Files → γ) (e : Failure) :
    Keeps v (require c e) := (keeps_pure _).ite (keeps_throw e)

theorem keeps_resolve (v : Files → γ) (S : System) (p : FsPath) : Keeps v (resolve S p) := by
  rw [resolve]
  split
  · exact keeps_pure _
  · exact keeps_throw _

theorem makeDirectory_ok {u : PUnit} : makeDirectory S p files = .ok u t ↔
    (files p = some .directory ∨ files p = none ∧ S.creates p = true) ∧
      t = files.set p .directory := by
  rw [makeDirectory]
  cases hp : files p with
  | none =>
    by_cases hc : S.creates p = true
    · rw [if_pos hc]
      constructor
      · intro h
        cases h
        exact ⟨.inr ⟨rfl, hc⟩, rfl⟩
      · rintro ⟨-, rfl⟩
        rfl
    · rw [if_neg hc]
      exact ⟨fun h => (nomatch h),
        fun ⟨h, _⟩ => h.elim (fun h => (nomatch h)) fun h => (hc h.2).elim⟩
  | some n =>
    cases n with
    | file bytes =>
      exact ⟨fun h => (nomatch h),
        fun ⟨h, _⟩ => h.elim (fun h => (nomatch h)) fun h => (nomatch h.1)⟩
    | directory =>
      have hs : files.set p .directory = files := by
        funext q
        rw [Files.set]
        split
        · rename_i hq
          rw [hq, hp]
        · rfl
      rw [hs]
      constructor
      · intro h
        cases h
        exact ⟨.inl rfl, rfl⟩
      · rintro ⟨-, rfl⟩
        rfl

theorem keeps_makeDirectory (S : System) (p : FsPath) : Keeps Files.text (makeDirectory S p) := by
  intro files
  cases h : makeDirectory S p files with
  | ok u t =>
    obtain ⟨hp, rfl⟩ := makeDirectory_ok.1 h
    funext q
    rw [after, Files.text, Files.set]
    by_cases hq : q = p
    · rw [if_pos hq, hq, Files.text]
      obtain hp | ⟨hp, -⟩ := hp
      · rw [hp]
      · rw [hp]
    · rw [if_neg hq]
      rfl
  | error e t =>
    rw [makeDirectory] at h
    split at h
    · cases h
    · cases h
      rfl
    · split at h
      · cases h
      · cases h
        rfl

theorem keeps_mkdirs (S : System) (p : FsPath) : Keeps Files.text (mkdirs S p) :=
  keeps_forM (keeps_makeDirectory S) _

theorem forM_makeDirectory_ok {ds : List FsPath} {u : PUnit} :
    ds.forM (makeDirectory S) files = .ok u t ↔
      (∀ d ∈ ds, files d = some .directory ∨ files d = none ∧ S.creates d = true) ∧
        t = fun q => if q ∈ ds then some .directory else files q := by
  induction ds generalizing files with
  | nil =>
    constructor
    · intro h
      cases h
      exact ⟨List.forall_mem_nil _, rfl⟩
    · rintro ⟨-, rfl⟩
      rfl
  | cons d ds ih =>
    change (makeDirectory S d >>= fun _ => ds.forM (makeDirectory S)) files = _ ↔ _
    rw [bind_eq_ok, List.forall_mem_cons]
    simp only [makeDirectory_ok, ih]
    have hset (q : FsPath) : files.set d .directory q = some .directory ∨
        files.set d .directory q = none ∧ S.creates q = true ↔
        q = d ∨ files q = some .directory ∨ files q = none ∧ S.creates q = true := by
      rw [Files.set]
      by_cases hq : q = d
      · rw [if_pos hq]
        exact ⟨fun _ => .inl hq, fun _ => .inl rfl⟩
      · rw [if_neg hq]
        exact (or_iff_right hq).symm
    have ht : (fun q => if q ∈ ds then some Node.directory else files.set d .directory q) =
        fun q => if q ∈ d :: ds then some .directory else files q := by
      funext q
      rw [Files.set]
      by_cases hm : q ∈ ds
      · rw [if_pos hm, if_pos (.tail _ hm)]
      · rw [if_neg hm]
        by_cases hq : q = d
        · rw [if_pos hq, if_pos (hq ▸ .head _)]
        · rw [if_neg hq, if_neg (by rw [List.mem_cons, not_or]; exact ⟨hq, hm⟩)]
    constructor
    · rintro ⟨-, -, ⟨hd, rfl⟩, hds, rfl⟩
      refine ⟨⟨hd, fun q hq => ?_⟩, ht⟩
      obtain rfl | h := (hset q).1 (hds q hq)
      · exact hd
      · exact h
    · rintro ⟨⟨hd, hds⟩, rfl⟩
      exact ⟨⟨⟩, _, ⟨hd, rfl⟩, fun q hq => (hset q).2 (.inr (hds q hq)), ht.symm⟩

/-- What making directories does. -/
theorem mkdirs_ok {u : PUnit} :
    mkdirs S p files = .ok u t ↔ Clear S files p ∧ t = files.withDirectories p := by
  rw [mkdirs, forM_makeDirectory_ok]
  have hw : (fun q => if q ∈ p.inits then some Node.directory else files q) =
      files.withDirectories p := by
    funext q
    rw [Files.withDirectories]
    exact ite_cond_congr (propext (List.mem_inits q p))
  simp only [List.mem_inits] at hw ⊢
  rw [hw, Clear]

/-- Nothing is left to make where the directories are there. -/
theorem mkdirs_made (h : ∀ q, q <+: p → files q = some .directory) :
    mkdirs S p files = .ok ⟨⟩ files := by
  refine mkdirs_ok.2 ⟨fun q hq => .inl (h q hq), ?_⟩
  funext q
  rw [Files.withDirectories]
  split
  · rename_i hq
    exact h q hq
  · rfl

/-- A file once it is written, with the directories that lead to it. -/
def Files.written (files : Files) (p : FsPath) (content : List UInt8) : Files :=
  (files.withDirectories p.dropLast).set p (.file content)

/-- Nothing stands in the way of writing a file. -/
structure Writable (S : System) (files : Files) (p : FsPath) : Prop where
  clear : Clear S files p.dropLast
  temporary : (S.temporary (files.withDirectories p.dropLast) p).isSome = true
  not_directory : files.withDirectories p.dropLast p ≠ some .directory

theorem text_written (h : Clear S files p.dropLast) (q : FsPath) :
    (files.written p content).text q = if q = p then some content else files.text q := by
  rw [Files.written, text_set_file, text_withDirectories h]

theorem remove_set {q : FsPath} (n : Node) (h : files q = none) :
    (files.set q n).remove q = files := by
  funext r
  rw [Files.remove, Files.set]
  by_cases hr : r = q
  · rw [if_pos hr, hr, h]
  · rw [if_neg hr, if_neg hr]

theorem set_set (files : Files) (p : FsPath) (m n : Node) :
    (files.set p m).set p n = files.set p n := by
  funext q
  rw [Files.set, Files.set, Files.set]
  by_cases hq : q = p
  · rw [if_pos hq, if_pos hq]
  · rw [if_neg hq, if_neg hq, if_neg hq]

/-- A temporary file takes the place of another, unless that is a directory. -/
theorem replace_temporary {q : FsPath} (h : files q = none) (content : List UInt8) :
    replace q p (files.set q (.file content)) =
      if files p = some .directory then .error .osError (files.set q (.file content))
      else .ok () (files.set p (.file content)) := by
  have hq : files.set q (.file content) q = some (.file content) := if_pos rfl
  rw [replace, hq, remove_set _ h]
  by_cases hd : files p = some .directory
  · have hp : files.set q (.file content) p = some .directory := by
      rw [Files.set, if_neg]
      · exact hd
      · rintro rfl
        rw [h] at hd
        cases hd
    rw [if_pos hd, hp]
  · have hp : files.set q (.file content) p ≠ some .directory := by
      rw [Files.set]
      split
      · exact fun he => (nomatch he)
      · exact hd
    rw [if_neg hd]
    split
    · rename_i he
      exact (hp he).elim
    · rename_i he _
      cases he
      rfl
    · rename_i hn _
      exact (hn _ rfl).elim

theorem atomicWrite_eq (h : Clear S files p.dropLast) : atomicWrite S p content files =
    match S.temporary (files.withDirectories p.dropLast) p with
    | some _ =>
      if files.withDirectories p.dropLast p = some .directory then
        .error .osError (files.withDirectories p.dropLast)
      else .ok () (files.written p content)
    | none => .error .osError (files.withDirectories p.dropLast) := by
  rw [atomicWrite, bind_of_ok ((mkdirs_ok (u := ⟨⟩)).2 ⟨h, rfl⟩)]
  cases ht : S.temporary (files.withDirectories p.dropLast) p with
  | none =>
    refine bind_of_error ?_
    rw [mkstemp, ht]
  | some q =>
    have hfree := S.temporary_free _ _ _ ht
    have hm : mkstemp S p (files.withDirectories p.dropLast) =
        .ok q ((files.withDirectories p.dropLast).set q (.file [])) := by
      rw [mkstemp, ht]
    rw [bind_of_ok hm]
    change EStateM.tryCatch (EStateM.bind (writeFile q content) fun _ => replace q p) _ _ = _
    rw [EStateM.tryCatch, EStateM.bind, writeFile, set_set]
    dsimp only
    rw [replace_temporary hfree]
    by_cases hd : files.withDirectories p.dropLast p = some .directory
    · rw [if_pos hd, if_pos hd]
      change EStateM.Result.error Failure.osError
        (((files.withDirectories p.dropLast).set q (.file content)).remove q) = _
      rw [remove_set _ hfree]
    · rw [if_neg hd, if_neg hd]
      rfl

/-- What writing a file does. -/
theorem atomicWrite_ok {u : Unit} : atomicWrite S p content files = .ok u t ↔
    Writable S files p ∧ t = files.written p content := by
  by_cases hc : Clear S files p.dropLast
  · rw [atomicWrite_eq hc]
    cases ht : S.temporary (files.withDirectories p.dropLast) p with
    | none =>
      refine ⟨fun h => (nomatch h), fun ⟨h, _⟩ => ?_⟩
      have hs := h.temporary
      rw [ht] at hs
      cases hs
    | some q =>
      dsimp only
      by_cases hd : files.withDirectories p.dropLast p = some .directory
      · rw [if_pos hd]
        exact ⟨fun h => (nomatch h), fun ⟨h, _⟩ => (h.not_directory hd).elim⟩
      · rw [if_neg hd]
        constructor
        · intro h
          cases h
          exact ⟨⟨hc, by rw [ht]; rfl, hd⟩, rfl⟩
        · rintro ⟨-, rfl⟩
          rfl
  · refine ⟨fun h => ?_, fun ⟨h, _⟩ => (hc h.clear).elim⟩
    obtain ⟨_, _, hm, -⟩ := bind_eq_ok.1 h
    exact (hc (mkdirs_ok.1 hm).1).elim

/-- A file that is not written leaves the files as they were. -/
theorem atomicWrite_error {e : Failure} (h : atomicWrite S p content files = .error e t) :
    t.text = files.text := by
  by_cases hc : Clear S files p.dropLast
  · rw [atomicWrite_eq hc] at h
    have ht : t = files.withDirectories p.dropLast := by
      split at h
      · split at h
        · cases h
          rfl
        · cases h
      · cases h
        rfl
    rw [ht]
    exact text_withDirectories hc
  · cases hm : mkdirs S p.dropLast files with
    | ok u t' => exact (hc (mkdirs_ok.1 hm).1).elim
    | error e' t' =>
      rw [atomicWrite, bind_of_error hm] at h
      cases h
      exact (keeps_mkdirs S p.dropLast).eq_of_error hm

/-- Directories that are made need not be made again. -/
theorem withDirectories_again (files : Files) (p : FsPath) :
    (files.withDirectories p).withDirectories p = files.withDirectories p := by
  funext q
  rw [Files.withDirectories]
  split
  · rename_i hq
    exact (if_pos hq).symm
  · rfl

theorem writable_withDirectories (h : Clear S files p.dropLast) :
    Writable S (files.withDirectories p.dropLast) p ↔ Writable S files p := by
  have hw := withDirectories_again files p.dropLast
  constructor
  · intro hd
    have ht := hd.temporary
    have hn := hd.not_directory
    rw [hw] at ht hn
    exact ⟨h, ht, hn⟩
  · intro hf
    refine ⟨fun q hq => .inl (if_pos hq), ?_, ?_⟩
    · rw [hw]
      exact hf.temporary
    · rw [hw]
      exact hf.not_directory

theorem written_withDirectories (files : Files) (p : FsPath) (content : List UInt8) :
    (files.withDirectories p.dropLast).written p content = files.written p content := by
  rw [Files.written, withDirectories_again, ← Files.written]

theorem readBytes_ok : readBytes S p files = .ok content t ↔
    (∃ q, S.real p = some q ∧ files.text q = some content) ∧ t = files := by
  have hb : (S.real p).bind files = some (.file content) ↔
      ∃ q, S.real p = some q ∧ files.text q = some content := by
    simp only [Option.bind_eq_some_iff, text_eq_some]
  rw [← hb, readBytes]
  split
  · rename_i bytes he
    rw [he]
    constructor
    · intro h
      cases h
      exact ⟨rfl, rfl⟩
    · rintro ⟨h, rfl⟩
      cases h
      rfl
  · rename_i hn
    exact ⟨fun h => (nomatch h), fun h => (hn _ h.1).elim⟩

/-- What opening a file to append to it does. -/
theorem openAppend_ok {u : Unit} : openAppend S p files = .ok u t ↔
    files p ≠ some .directory ∧ (files p = none → S.creates p = true) ∧
      t = files.set p (.file ((files.text p).getD [])) := by
  rw [openAppend, Files.text]
  cases hp : files p with
  | none =>
    by_cases hc : S.creates p = true
    · rw [if_pos hc]
      constructor
      · intro h
        cases h
        exact ⟨fun h => (nomatch h), fun _ => hc, rfl⟩
      · rintro ⟨-, -, rfl⟩
        rfl
    · rw [if_neg hc]
      exact ⟨fun h => (nomatch h), fun h => (hc (h.2.1 rfl)).elim⟩
  | some n =>
    cases n with
    | directory => exact ⟨fun h => (nomatch h), fun h => (h.1 rfl).elim⟩
    | file bytes =>
      have hs : files.set p (.file bytes) = files := by
        funext q
        rw [Files.set]
        split
        · rename_i hq
          rw [hq, hp]
        · rfl
      constructor
      · intro h
        cases h
        exact ⟨fun h => (nomatch h), fun h => (nomatch h), hs.symm⟩
      · rintro ⟨-, -, ht⟩
        rw [ht]
        exact congrArg (EStateM.Result.ok ()) hs.symm

theorem openAppend_error {e : Failure} (h : openAppend S p files = .error e t) : t = files := by
  rw [openAppend] at h
  split at h
  · cases h
    rfl
  · cases h
  · split at h
    · cases h
    · cases h
      rfl

theorem keeps_readBytes (v : Files → γ) (S : System) (p : FsPath) : Keeps v (readBytes S p) := by
  intro files
  rw [readBytes]
  split
  · rfl
  · rfl

theorem append_file (files : Files) (p : FsPath) (bytes content : List UInt8) :
    append p content (files.set p (.file bytes)) =
      .ok () (files.set p (.file (bytes ++ content))) := by
  have hp : files.set p (.file bytes) p = some (.file bytes) := if_pos rfl
  rw [append, hp]
  exact congrArg (EStateM.Result.ok ()) (set_set ..)

end Obase.AliceWorkspace
