import Mathlib.Algebra.Order.Ring.Rat
import Obase.Builtins
import Obase.Concrete
import Obase.KnowledgeStore.Store

namespace Obase.Cache
set_option autoImplicit true
open KnowledgeStore (joinComma reprStr)

/-- What is pickled, which gives back what it was given. -/
structure Payload (V : Type) where
  value : V
  storedAt : ℚ

/-- The files of the directory of a namespace. -/
abbrev Dir (V : Type) := String → Option (Payload V)

/-- The positional arguments and the keyword arguments of a call. -/
structure Args (V : Type) where
  args : List V
  kwargs : Dict String V

/-- A function that `cached` wraps, with the time to live of the cache that it is wrapped over. -/
structure Wrapped (V ε : Type) where
  module : List Char
  qualname : List Char
  fn : Args V → Except ε V
  ttlSeconds : Option ℚ

/-- `repr` of a tuple, of the texts of its items. -/
def tupleRepr : List (List Char) → List Char
  | [x] => '(' :: x ++ [',', ')']
  | xs => '(' :: joinComma xs ++ [')']

/-- `repr` of a dictionary, of the texts of its items. -/
def dictRepr (xs : List (List Char × List Char)) : List Char :=
  '{' :: joinComma (xs.map fun p => p.1 ++ [':', ' '] ++ p.2) ++ ['}']

section
variable {V ε : Type} (sha256 : List UInt8 → List UInt8) (printable : Char → Bool)
  (repr : V → List Char) (isNone : V → Bool)

/-- The key of a call of the function. -/
def Wrapped.cacheKey (w : Wrapped V ε) (a : Args V) : List Char :=
  w.module ++ '.' :: w.qualname ++ ':' :: tupleRepr (a.args.map repr) ++ ':' ::
    dictRepr (a.kwargs.map fun p => (reprStr printable p.1, repr p.2))

def keyPath (key : List Char) : String :=
  String.ofList ((hex (sha256 (utf8 key))).toList ++ ".pkl".toList)

/-- A payload is older than the cache keeps it. -/
def expired (ttlSeconds : Option ℚ) (now : ℚ) (p : Payload V) : Bool :=
  match ttlSeconds with
  | some ttl => ttl < now - p.storedAt
  | none => false

/-- `get`: the value that is found, if one is, and the files. -/
def get (dir : Dir V) (ttlSeconds : Option ℚ) (now : ℚ) (key : List Char) : Option V × Dir V :=
  match dir (keyPath sha256 key) with
  | none => (none, dir)
  | some data =>
    if expired ttlSeconds now data then (none, Function.update dir (keyPath sha256 key) none)
    else (some data.value, dir)

def put (dir : Dir V) (now : ℚ) (key : List Char) (value : V) : Dir V :=
  Function.update dir (keyPath sha256 key) (some ⟨value, now⟩)

def invalidate (dir : Dir V) (key : List Char) : Dir V :=
  Function.update dir (keyPath sha256 key) none

def clearExpired (dir : Dir V) (ttlSeconds : Option ℚ) (now : ℚ) : Dir V :=
  fun name => (dir name).filter fun data => !expired ttlSeconds now data

/-- What a call of a function returned or raised, and the function whose value that was, where it
was found in the cache. -/
structure Answer (ι V ε : Type) where
  function : ι
  args : Args V
  result : Except ε V
  storedBy : Option ι

/-- The files, who stored each, the calls whose function has returned and that have not stored its
value yet, and the answers. -/
structure State (ι V ε : Type) where
  dir : Dir V
  storedBy : String → Option ι
  pending : List (ι × Args V × V)
  answers : List (Answer ι V ε)

def State.start : State ι V ε := ⟨fun _ => none, fun _ => none, [], []⟩

/-- What happens to a cache, with the time at which it does: a call looks up its key, a call that is
under way stores its value, or entries are removed. -/
inductive Event (ι V : Type) where
  | call (i : ι) (a : Args V) (now : ℚ)
  | store (k : Nat) (now : ℚ)
  | invalidate (key : List Char)
  | clearExpired (ttlSeconds : Option ℚ) (now : ℚ)

variable (ws : ι → Wrapped V ε)

def State.answer (s : State ι V ε) (x : Answer ι V ε) : State ι V ε :=
  { s with answers := s.answers ++ [x] }

/-- The wrapper up to its await: a value that is found is returned, else the function is called. -/
def State.call (s : State ι V ε) (i : ι) (a : Args V) (now : ℚ) : State ι V ε :=
  let key := (ws i).cacheKey printable repr a
  let found := get sha256 s.dir (ws i).ttlSeconds now key
  match found.1.filter fun hit => !isNone hit with
  | some hit => s.answer ⟨i, a, .ok hit, s.storedBy (keyPath sha256 key)⟩
  | none =>
    match (ws i).fn a with
    | .ok result => { s with dir := found.2, pending := s.pending ++ [(i, a, result)] }
    | .error e => { s with dir := found.2 }.answer ⟨i, a, .error e, none⟩

/-- The second part of the wrapper: the value is put into the cache and returned. -/
def State.store (s : State ι V ε) (k : Nat) (now : ℚ) : State ι V ε :=
  match s.pending[k]? with
  | some (i, a, result) =>
    let key := (ws i).cacheKey printable repr a
    { dir := put sha256 s.dir now key result
      storedBy := Function.update s.storedBy (keyPath sha256 key) (some i)
      pending := s.pending.eraseIdx k
      answers := s.answers ++ [⟨i, a, .ok result, none⟩] }
  | none => s

def State.step (s : State ι V ε) : Event ι V → State ι V ε
  | .call i a now => s.call sha256 printable repr isNone ws i a now
  | .store k now => s.store sha256 printable repr ws k now
  | .invalidate key => { s with dir := Cache.invalidate sha256 s.dir key }
  | .clearExpired ttlSeconds now => { s with dir := Cache.clearExpired s.dir ttlSeconds now }

def State.run (events : List (Event ι V)) : State ι V ε :=
  events.foldl (State.step sha256 printable repr isNone ws) .start

variable [Setoid V]

/-- The answer is the value of the function for the arguments, and no other function's. -/
structure Answer.Right (x : Answer ι V ε) : Prop where
  value : match (ws x.function).fn x.args, x.result with
    | .ok v, .ok v' => v ≈ v'
    | .error e, .error e' => e = e'
    | _, _ => False
  own : ∀ j, x.storedBy = some j → j = x.function

/-- Whatever is called, stored and removed in whatever order and at whatever times, every answer is
right. -/
def Transparent : Prop :=
  ∀ events : List (Event ι V), ∀ x ∈ (State.run sha256 printable repr isNone ws events).answers,
    x.Right ws

/-- Calls with one key return equal values of one function, or `None`. -/
def Separated : Prop :=
  ∀ i j a b, (ws i).cacheKey printable repr a = (ws j).cacheKey printable repr b →
    ∀ v, (ws i).fn a = .ok v → isNone v = false → i = j ∧ ∃ v', (ws j).fn b = .ok v' ∧ v' ≈ v

/-- What is stored, computed or answered is what some call gives. -/
structure Valid (s : State ι V ε) : Prop where
  files : ∀ name data, s.dir name = some data → ∃ i a,
    name = keyPath sha256 ((ws i).cacheKey printable repr a) ∧ (ws i).fn a = .ok data.value ∧
      s.storedBy name = some i
  pending : ∀ x ∈ s.pending, (ws x.1).fn x.2.1 = .ok x.2.2
  answers : ∀ x ∈ s.answers, x.Right ws

end

section
variable {V ε ι : Type} {sha256 : List UInt8 → List UInt8} {printable : Char → Bool}
  {repr : V → List Char} {isNone : V → Bool} {ws : ι → Wrapped V ε}

theorem keyPath_injective (h : Function.Injective sha256) :
    Function.Injective (keyPath sha256) := by
  intro key key' he
  have ht := List.append_cancel_right (String.ofList_injective he)
  exact utf8_injective (h (hex_injective (String.toList_injective ht)))

theorem of_update_none {dir : Dir V} {path name : String} {data : Payload V}
    (h : Function.update dir path none name = some data) : dir name = some data := by
  by_cases hn : name = path
  · rw [hn, Function.update_self] at h
    cases h
  · rwa [Function.update_of_ne hn] at h

/-- What is found is a file that is there, and the files are left or lose that one. -/
theorem get_cases (sha256 : List UInt8 → List UInt8) (dir : Dir V) (ttlSeconds : Option ℚ)
    (now : ℚ) (key : List Char) :
    (∀ v, (get sha256 dir ttlSeconds now key).1 = some v → ∃ data,
      dir (keyPath sha256 key) = some data ∧ data.value = v) ∧
    ∀ name data, (get sha256 dir ttlSeconds now key).2 name = some data →
      dir name = some data := by
  rw [get]
  cases hd : dir (keyPath sha256 key) with
  | none => exact ⟨fun v h => (nomatch h), fun _ _ h => h⟩
  | some data =>
    dsimp only
    split
    · exact ⟨fun v h => (nomatch h), fun _ _ => of_update_none⟩
    · exact ⟨fun v h => ⟨data, rfl, Option.some.inj h⟩, fun _ _ h => h⟩

theorem expired_getD (ttlSeconds : Option ℚ) (v : V) :
    expired ttlSeconds (ttlSeconds.getD 0) ⟨v, 0⟩ = false := by
  cases ttlSeconds with
  | none => rfl
  | some ttl => simp [expired]

/-- A value other than `None` that was just stored is found by every call with its key. -/
theorem run_found (sha256 : List UInt8 → List UInt8) {i j : ι} {a b : Args V}
    (hkey : (ws i).cacheKey printable repr a = (ws j).cacheKey printable repr b) {v : V}
    (hv : (ws i).fn a = .ok v) (hn : isNone v = false) :
    ⟨j, b, .ok v, some i⟩ ∈ (State.run sha256 printable repr isNone ws
      [.call i a 0, .store 0 0, .call j b ((ws j).ttlSeconds.getD 0)]).answers := by
  have hcall : (State.start : State ι V ε).call sha256 printable repr isNone ws i a 0 =
      { State.start with pending := [(i, a, v)] } := by
    rw [State.call]
    dsimp only [State.start, get, Option.filter_none]
    rw [hv]
    rfl
  have hget : get sha256 (put sha256 (fun _ => none) 0 ((ws i).cacheKey printable repr a) v)
      (ws j).ttlSeconds ((ws j).ttlSeconds.getD 0) ((ws j).cacheKey printable repr b) =
        (some v, put sha256 (fun _ => none) 0 ((ws i).cacheKey printable repr a) v) := by
    rw [get, ← hkey, put, Function.update_self]
    dsimp only
    rw [expired_getD]
    rfl
  have hhit : (some v).filter (fun hit => !isNone hit) = some v := by
    rw [Option.filter_some, hn]
    rfl
  rw [State.run, List.foldl_cons, State.step, hcall, List.foldl_cons, State.step, List.foldl_cons,
    State.step, List.foldl_nil, State.call]
  dsimp only [State.store, State.start, List.nil_append, List.getElem?_cons_zero]
  rw [hget, hhit]
  dsimp only
  refine List.mem_append_right _ (List.mem_singleton.2 ?_)
  rw [← hkey, Function.update_self]

variable [Setoid V]

theorem Right.computed {i : ι} {a : Args V} {result : Except ε V} (h : (ws i).fn a = result) :
    Answer.Right ws ⟨i, a, result, none⟩ := by
  refine ⟨?_, fun j hj => (nomatch hj)⟩
  dsimp only
  rw [h]
  cases result with
  | error e => rfl
  | ok v => exact Setoid.refl v

theorem Valid.start : Valid sha256 printable repr ws (.start : State ι V ε) :=
  ⟨fun _ _ h => (nomatch h), fun _ h => (nomatch h), fun _ h => (nomatch h)⟩

theorem Valid.shrink {s : State ι V ε} (h : Valid sha256 printable repr ws s) {dir : Dir V}
    (hd : ∀ name data, dir name = some data → s.dir name = some data) :
    Valid sha256 printable repr ws { s with dir } :=
  ⟨fun name data hn => h.files name data (hd name data hn), h.pending, h.answers⟩

theorem Valid.answer {s : State ι V ε} (h : Valid sha256 printable repr ws s)
    {x : Answer ι V ε} (hx : x.Right ws) : Valid sha256 printable repr ws (s.answer x) := by
  refine ⟨h.files, h.pending, fun y hy => ?_⟩
  obtain hy | hy := List.mem_append.1 hy
  · exact h.answers y hy
  · rw [List.mem_singleton.1 hy]
    exact hx

theorem Valid.call {s : State ι V ε} (h : Valid sha256 printable repr ws s)
    (hsha : Function.Injective sha256) (hs : Separated printable repr isNone ws) (i : ι)
    (a : Args V) (now : ℚ) :
    Valid sha256 printable repr ws (s.call sha256 printable repr isNone ws i a now) := by
  obtain ⟨hfound, hdir⟩ := get_cases sha256 s.dir (ws i).ttlSeconds now
    ((ws i).cacheKey printable repr a)
  rw [State.call]
  split
  · rename_i hit hf
    obtain ⟨hg, hnone⟩ := Option.filter_eq_some_iff.1 hf
    obtain ⟨data, hd, rfl⟩ := hfound hit hg
    obtain ⟨j, b, hkey, hfn, hby⟩ := h.files _ _ hd
    have hkey := keyPath_injective hsha hkey
    rw [Bool.not_eq_true'] at hnone
    obtain ⟨rfl, v', hv', he⟩ := hs j i b a hkey.symm _ hfn hnone
    refine h.answer ⟨?_, fun k hk => ?_⟩
    · dsimp only
      rw [hv']
      exact he
    · change s.storedBy _ = some k at hk
      rw [hby] at hk
      exact (Option.some.inj hk).symm
  · have hshrunk := h.shrink hdir
    split
    · rename_i result hfn
      refine ⟨hshrunk.files, fun x hx => ?_, hshrunk.answers⟩
      obtain hx | hx := List.mem_append.1 hx
      · exact h.pending x hx
      · rw [List.mem_singleton.1 hx]
        exact hfn
    · rename_i e hfn
      exact hshrunk.answer (Right.computed hfn)

theorem Valid.store {s : State ι V ε} (h : Valid sha256 printable repr ws s) (k : Nat) (now : ℚ) :
    Valid sha256 printable repr ws (s.store sha256 printable repr ws k now) := by
  rw [State.store]
  split
  · rename_i i a result hk
    have hfn : (ws i).fn a = .ok result := h.pending _ (List.mem_of_getElem? hk)
    dsimp only
    generalize hkey : (ws i).cacheKey printable repr a = key
    refine ⟨fun name data hd => ?_, fun x hx => ?_, fun x hx => ?_⟩
    · dsimp only [put] at hd
      by_cases hn : name = keyPath sha256 key
      · rw [hn, Function.update_self] at hd
        cases hd
        refine ⟨i, a, hn.trans (congrArg _ hkey.symm), hfn, ?_⟩
        dsimp only
        rw [hn, Function.update_self]
      · rw [Function.update_of_ne hn] at hd
        obtain ⟨j, b, hname, hfn', hby⟩ := h.files name data hd
        refine ⟨j, b, hname, hfn', ?_⟩
        dsimp only
        rw [Function.update_of_ne hn, hby]
    · exact h.pending x (List.mem_of_mem_eraseIdx hx)
    · obtain hx | hx := List.mem_append.1 hx
      · exact h.answers x hx
      · rw [List.mem_singleton.1 hx]
        exact Right.computed hfn
  · exact h

theorem Valid.step {s : State ι V ε} (h : Valid sha256 printable repr ws s)
    (hsha : Function.Injective sha256) (hs : Separated printable repr isNone ws)
    (event : Event ι V) :
    Valid sha256 printable repr ws (s.step sha256 printable repr isNone ws event) := by
  cases event with
  | call i a now => exact h.call hsha hs i a now
  | store k now => exact h.store k now
  | invalidate key => exact h.shrink fun _ _ => of_update_none
  | clearExpired ttlSeconds now =>
    exact h.shrink fun name data hd => (Option.filter_eq_some_iff.1 hd).1

theorem Valid.run (hsha : Function.Injective sha256) (hs : Separated printable repr isNone ws)
    (events : List (Event ι V)) :
    Valid sha256 printable repr ws (State.run sha256 printable repr isNone ws events) := by
  induction events using List.reverseRecOn with
  | nil => exact Valid.start
  | append_singleton events event ih =>
    rw [State.run, List.foldl_concat]
    exact ih.step hsha hs event

/-- A cache never changes an answer and never answers with another function's value, exactly if
calls with one key return equal values of one function, or `None`. -/
theorem transparent_iff (hsha : Function.Injective sha256) (printable : Char → Bool)
    (repr : V → List Char) (isNone : V → Bool) (ws : ι → Wrapped V ε) :
    Transparent sha256 printable repr isNone ws ↔ Separated printable repr isNone ws := by
  constructor
  · intro h i j a b hkey v hv hn
    have hr := h _ _ (run_found sha256 hkey hv hn)
    refine ⟨hr.own i rfl, ?_⟩
    have hval := hr.value
    dsimp only at hval
    split at hval
    · rename_i v' w hv' he
      cases he
      exact ⟨v', hv', hval⟩
    · rename_i he
      cases he
    · exact hval.elim
  · exact fun hs events => (Valid.run hsha hs events).answers

end

/-- `None`, or a number. -/
inductive Sample where
  | none
  | num (n : Int)

instance : Setoid Sample := ⟨Eq, eq_equivalence⟩

def Sample.repr : Sample → List Char
  | .none => "None".toList
  | .num n => n.repr.toList

def Sample.isNone : Sample → Bool
  | .none => true
  | .num _ => false

/-- Two functions of a module that return one number each. -/
def oneAndTwo (qualname : Bool → List Char) (i : Bool) : Wrapped Sample Unit :=
  ⟨"app".toList, qualname i, fun _ => .ok (.num (if i then 2 else 1)), some 60⟩

def keyDigest : List UInt8 → List UInt8 := knownDigest [
  ("app.f:():{}", "d339a5741e6a5fcd5d460bbc0c1fd0f7469e37b3cbc64d21f3fa3bbd0d8bd4cd"),
  ("app.g:():{}", "5ea483cc1a3bf146e3d4070a96782921ffbbb61af1c96645d192f463994e7b99")]

theorem keyDigest_injective : Function.Injective keyDigest :=
  knownDigest_injective (by decide) (by decide)

/-- Two functions with different names do not get each other's values. -/
theorem transparent_f_g :
    Transparent keyDigest (fun _ => true) Sample.repr Sample.isNone
      (oneAndTwo fun i => if i then ['g'] else ['f']) := by
  refine (transparent_iff keyDigest_injective _ _ _ _).2 fun i j a b hkey v hv hn => ?_
  rw [Wrapped.cacheKey, Wrapped.cacheKey, List.append_assoc, List.append_assoc] at hkey
  cases i with
  | false =>
    cases j with
    | false => exact ⟨rfl, v, hv, rfl⟩
    | true => simp [oneAndTwo] at hkey
  | true =>
    cases j with
    | false => simp [oneAndTwo] at hkey
    | true => exact ⟨rfl, v, hv, rfl⟩

/-- A function that returns its first argument. -/
def firstArgument : Wrapped Sample Unit :=
  ⟨"app".toList, "f".toList, fun a => a.args.head?.elim (.error ()) .ok, none⟩

/-- Two lambdas of one module get each other's values, and so do two arguments of one function that
have one text. -/
theorem lambdas_share :
    ¬ Transparent keyDigest (fun _ => true) Sample.repr Sample.isNone
        (oneAndTwo fun _ => "<lambda>".toList) ∧
      ¬ Transparent (ι := Unit) keyDigest (fun _ => true) (fun _ => "<obj>".toList) Sample.isNone
        (fun _ => firstArgument) := by
  constructor
  · intro h
    have hr := h _ _ (run_found keyDigest (i := false) (j := true) (a := ⟨[], []⟩) (b := ⟨[], []⟩)
      rfl rfl rfl)
    cases hr.own false rfl
  · intro h
    have hr := h _ _ (run_found keyDigest (i := ()) (j := ()) (a := ⟨[.num 1], []⟩)
      (b := ⟨[.num 2], []⟩) rfl rfl rfl)
    have hval : Sample.num 2 = .num 1 := hr.value
    injection hval with hval
    cases hval

end Obase.Cache
