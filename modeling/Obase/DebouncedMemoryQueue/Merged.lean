import Obase.Concrete
import Obase.FileTree
import Obase.Json.Indent
import Obase.Path
import Obase.Run

namespace Obase.DebouncedMemoryQueue
set_option autoImplicit true
open Json

/-- What a call raises. -/
inductive Failure where
  | os (e : OsError)
  | valueError

/-- The files of the queue, its pending updates and the keys whose timers run. -/
structure Queue (F : Type) where
  tree : FileTree
  pending : Dict String (Dict String (Json F))
  timers : List String

def safe (key : String) : String := safeName ['/', ':', '\\'] key

/-- `_merge`. -/
def merge (base updates : Dict String (Json F)) : Dict String (Json F) := Dict.update base updates

/-- The file of a key. -/
def file (base : Path) (key : String) : Path := Path.resolve base (safe key ++ ".json").toList

/-- `enqueue`. With `immediate` it makes the coroutine `_flush_one(key)`, which nothing awaits. -/
def Queue.enqueue (q : Queue F) (key : String) (updates : Dict String (Json F))
    (immediate : Bool) : Queue F :=
  let q := { q with
    pending := Dict.set key (merge ((q.pending.lookup key).getD []) updates) q.pending }
  if immediate then q else { q with timers := key :: q.timers.erase key }

def Queue.cancel (q : Queue F) (key : String) : Queue F := { q with timers := q.timers.erase key }

section
variable [FloatText F] (base : Path)

def Queue.flushOne (q : Queue F) (key : String) : Except Failure Unit × Queue F :=
  match q.pending.lookup key with
  | none => (.ok (), q)
  | some data =>
    let q := { q with pending := Dict.erase key q.pending }
    if '\x00' ∈ (safe key).toList then (.error .valueError, q)
    else
      match q.tree.writeText (file base key) (dumpsIndent 2 0 (.dict data)) with
      | .ok t => (.ok (), { q with tree := t })
      | .error e => (.error (.os e), q)

/-- The end of `_debounced_flush`, when the timer of a key runs out. -/
def Queue.debouncedFlush (q : Queue F) (key : String) : Except Failure Unit × Queue F :=
  if key ∈ q.timers then (q.cancel key).flushOne base key else (.ok (), q)

def load (t : FileTree) (key : String) : Json F :=
  if '\x00' ∈ (safe key).toList then .dict []
  else
    match t.readText (file base key) with
    | .ok cs => (loads (Text.universalNewlines cs)).getD (.dict [])
    | .error _ => .dict []

/-- The loop of `flush_all`. -/
def flushKeys (q : Queue F) : List String → Except Failure Unit × Queue F
  | [] => (.ok (), q)
  | k :: ks =>
    match (q.cancel k).flushOne base k with
    | (.ok (), q) => flushKeys q ks
    | (.error e, q) => (.error e, q)

def Queue.flushAll (q : Queue F) : Except Failure Nat × Queue F :=
  match flushKeys base q (Dict.keys q.pending) with
  | (.ok (), q') => (.ok q.pending.length, q')
  | (.error e, q') => (.error e, q')

def Queue.pop (q : Queue F) (key : String) : Except Failure (Option (Json F)) × Queue F :=
  if key ∈ Dict.keys q.pending then
    match (q.cancel key).flushOne base key with
    | (.ok (), q) => (.ok (some (load base q.tree key)), q)
    | (.error e, q) => (.error e, q)
  else (.ok none, q)

end

/-- A dictionary of updates. -/
structure Updates (F : Type) where
  members : Dict String (Json F)
  distinct : (Value.dict members : Json F).Distinct

inductive Call (F : Type) where
  | enqueue (key : String) (updates : Updates F) (immediate : Bool)
  | fire (key : String)
  | pop (key : String)
  | flushAll

/-- The queue, the left-to-right merge of all updates that were enqueued for each key, and whether
`flush_all` has returned since. -/
structure State (F : Type) where
  queue : Queue F
  merged : Dict String (Dict String (Json F))
  flushed : Bool

/-- A new queue in an empty directory. -/
def State.new (base : Path) : State F := ⟨⟨FileTree.root base, [], []⟩, [], false⟩

def Call.step [FloatText F] (base : Path) (s : State F) : Call F → State F
  | .enqueue key updates immediate =>
    ⟨s.queue.enqueue key updates.members immediate,
      Dict.set key (merge ((s.merged.lookup key).getD []) updates.members) s.merged, false⟩
  | .fire key => { s with queue := (s.queue.debouncedFlush base key).2 }
  | .pop key => { s with queue := (s.queue.pop base key).2 }
  | .flushAll =>
    match s.queue.flushAll base with
    | (.ok _, q) => { s with queue := q, flushed := true }
    | (.error _, q) => { s with queue := q }

open Run

section
variable [FloatText F] (base : Path)

/-- Of the given keys, what was enqueued is what is loaded once all is flushed. -/
def Persisted (keys : Set String) (s : State F) : Prop :=
  s.flushed = true → ∀ key ∈ keys, ∃ ms, load base s.queue.tree key = .dict ms ∧
    ∀ field, ms.lookup field = ((s.merged.lookup key).getD []).lookup field

/-- The pending update of a key has all fields that its file has. -/
def Queue.Covers (q : Queue F) (key : String) : Prop :=
  ∀ data, q.pending.lookup key = some data → ∀ ms : Dict String (Json F),
    load base q.tree key = .dict ms → ∀ field ∈ Dict.keys ms, field ∈ Dict.keys data

/-- What a call writes to a file leaves out none of the fields of the file. -/
def Call.Covers (s : State F) : Call F → Prop
  | .enqueue key _ _ => '\x00' ∉ key.toList
  | .fire key => key ∈ s.queue.timers → s.queue.Covers base key
  | .pop key => s.queue.Covers base key
  | .flushAll => ∀ key ∈ Dict.keys s.queue.pending, s.queue.Covers base key

def Call.On (keys : Set String) : Call F → Prop
  | .enqueue key _ _ => key ∈ keys
  | _ => True

/-- The file of a key is not there, or holds an object. -/
def Saved (t : FileTree) (key : String) (f : Dict String (Json F)) : Prop :=
  t.content (file base key) = none ∧ f = [] ∨
    t.content (file base key) = some (dumpsIndent 2 0 (.dict f)) ∧ (Value.dict f : Json F).Distinct

/-- What is pending of each key and what its file holds make up its merged updates. -/
structure Kept (keys : Set String) (m : Dict String (Dict String (Json F))) (q : Queue F) :
    Prop where
  plain : ∀ key, m.lookup key ≠ none → '\x00' ∉ key.toList
  pending : ∀ key data, q.pending.lookup key = some data →
    key ∈ keys ∧ '\x00' ∉ key.toList ∧ (Value.dict data : Json F).Distinct
  free : ∀ key ∈ keys, '\x00' ∉ key.toList → q.tree.isDir (file base key) = false
  saved : ∀ key ∈ keys, '\x00' ∉ key.toList → ∃ f, Saved base q.tree key f ∧
    ∀ field, ((m.lookup key).getD []).lookup field =
      (((q.pending.lookup key).getD []).lookup field).or (f.lookup field)

variable {base : Path}

theorem nul_not_mem_safe {key : String} (h : '\x00' ∉ key.toList) :
    '\x00' ∉ (safe key).toList := by
  intro hm
  obtain hc | ⟨hm, -⟩ := mem_safeName hm
  · exact absurd hc (by decide)
  · exact h hm

theorem file_eq {key : String} (h : '\x00' ∉ key.toList) :
    file base key = base ++ [safe key ++ ".json"] :=
  Path.resolve_name base (isName_safeName (by decide) h (by decide) (by decide) (by decide))

theorem file_inj {key key' : String} (h : '\x00' ∉ key.toList) (h' : '\x00' ∉ key'.toList)
    (he : file base key = file base key') : safe key = safe key' := by
  rw [file_eq h, file_eq h'] at he
  injection List.append_cancel_left he with he
  have hl := congrArg String.toList he
  rw [String.toList_append, String.toList_append] at hl
  exact String.toList_inj.1 (List.append_cancel_right hl)

theorem load_saved {t : FileTree} {key : String} {f : Dict String (Json F)}
    (h : Saved base t key f) (hk : '\x00' ∉ key.toList) : load base t key = .dict f := by
  rw [load, if_neg (nul_not_mem_safe hk)]
  obtain ⟨hn, rfl⟩ | ⟨hc, hd⟩ := h
  · cases hr : t.readText (file base key) with
    | error e => rfl
    | ok cs =>
      rw [FileTree.readText_ok.1 hr] at hn
      cases hn
  · rw [FileTree.readText_ok.2 hc]
    dsimp only
    rw [universalNewlines_dumpsIndent, loads_dumpsIndent, Value.build_of_distinct _ hd]
    rfl

theorem load_nul {t : FileTree} {key : String} (h : '\x00' ∈ key.toList) :
    load base t key = (.dict [] : Json F) := by
  apply if_pos
  rw [safe, safeName, String.toList_ofList]
  exact List.mem_map.2 ⟨'\x00', h, if_neg (by decide)⟩

omit [FloatText F] in
theorem distinct_merge {d e : Dict String (Json F)} (hd : (Value.dict d : Json F).Distinct)
    (he : (Value.dict e : Json F).Distinct) : (Value.dict (merge d e) : Json F).Distinct := by
  refine ⟨hd.1.update e, Value.distinctMembers_iff.2 fun p hp => ?_⟩
  obtain ⟨r, hr, hv⟩ | ⟨r, hr, hv⟩ := Dict.mem_update hp
  · exact hv ▸ Value.distinctMembers_iff.1 hd.2 r hr
  · exact hv ▸ Value.distinctMembers_iff.1 he.2 r hr

theorem Saved.of_content {t t' : FileTree} {key : String} {f : Dict String (Json F)}
    (h : Saved base t key f) (hc : t'.content (file base key) = t.content (file base key)) :
    Saved base t' key f := by
  rw [Saved, hc]
  exact h

variable {keys : Set String} {m : Dict String (Dict String (Json F))} {q : Queue F}

namespace Kept

theorem cancel (h : Kept base keys m q) (key : String) : Kept base keys m (q.cancel key) :=
  ⟨h.plain, h.pending, h.free, h.saved⟩

/-- Nothing pending, what is loaded is what was enqueued. -/
theorem persisted (h : Kept base keys m q) (hp : q.pending = []) {key : String} (hk : key ∈ keys) :
    ∃ ms, load base q.tree key = .dict ms ∧
      ∀ field, ms.lookup field = ((m.lookup key).getD []).lookup field := by
  by_cases hn : '\x00' ∈ key.toList
  · have hm : m.lookup key = none := by
      by_contra hne
      exact h.plain key hne hn
    rw [hm]
    exact ⟨[], load_nul hn, fun _ => rfl⟩
  · obtain ⟨f, hf, he⟩ := h.saved key hk hn
    rw [hp] at he
    exact ⟨f, load_saved hf hn, fun field => (he field).symm⟩

theorem enqueue (h : Kept base keys m q) {key : String} (hk : key ∈ keys)
    (hn : '\x00' ∉ key.toList) (updates : Updates F) (immediate : Bool) :
    Kept base keys (Dict.set key (merge ((m.lookup key).getD []) updates.members) m)
      (q.enqueue key updates.members immediate) := by
  have hq : (q.enqueue key updates.members immediate).pending =
      Dict.set key (merge ((q.pending.lookup key).getD []) updates.members) q.pending ∧
      (q.enqueue key updates.members immediate).tree = q.tree := by
    rw [Queue.enqueue]
    cases immediate with
    | true => exact ⟨rfl, rfl⟩
    | false => exact ⟨rfl, rfl⟩
  obtain ⟨hp, ht⟩ := hq
  refine ⟨fun k hne => ?_, fun k data hl => ?_, ?_, fun k hkey hnul => ?_⟩
  · by_cases hkk : k = key
    · exact hkk ▸ hn
    · rw [Dict.lookup_set_ne hkk] at hne
      exact h.plain k hne
  · rw [hp] at hl
    by_cases hkk : k = key
    · subst hkk
      rw [Dict.lookup_set_self] at hl
      injection hl with hl
      subst hl
      refine ⟨hk, hn, ?_⟩
      have hold : (Value.dict ((q.pending.lookup k).getD []) : Json F).Distinct := by
        cases hl : q.pending.lookup k with
        | none => exact ⟨List.nodup_nil, trivial⟩
        | some data => exact (h.pending k data hl).2.2
      exact distinct_merge hold updates.distinct
    · rw [Dict.lookup_set_ne hkk] at hl
      exact h.pending k data hl
  · rw [ht]
    exact h.free
  · obtain ⟨f, hf, he⟩ := h.saved k hkey hnul
    rw [ht, hp]
    refine ⟨f, hf, fun field => ?_⟩
    by_cases hkk : k = key
    · subst hkk
      rw [Dict.lookup_set_self, Dict.lookup_set_self, Option.getD_some, Option.getD_some, merge,
        merge, Dict.lookup_update updates.distinct.1, Dict.lookup_update updates.distinct.1,
        Option.or_assoc, he]
    · rw [Dict.lookup_set_ne hkk, Dict.lookup_set_ne hkk]
      exact he field

/-- A key is flushed, and what is pending of the others and their files stay. -/
theorem flushOne (h : Kept base keys m q) (hinj : Set.InjOn safe keys) {key : String}
    (hc : q.Covers base key) : ∃ q', q.flushOne base key = (.ok (), q') ∧ Kept base keys m q' ∧
      q'.pending = Dict.erase key q.pending ∧
      ∀ key', q.Covers base key' → q'.Covers base key' := by
  rw [Queue.flushOne]
  cases hl : q.pending.lookup key with
  | none =>
    have hm : key ∉ Dict.keys q.pending := by
      intro hm
      obtain ⟨data, hd⟩ := Dict.mem_keys_iff.1 hm
      rw [hl] at hd
      cases hd
    exact ⟨q, rfl, h, (Dict.erase_of_not_mem hm).symm, fun _ hc => hc⟩
  | some data =>
    obtain ⟨hkey, hn, hd⟩ := h.pending key data hl
    obtain ⟨f, hf, he⟩ := h.saved key hkey hn
    have hload := load_saved hf hn
    have hw : q.tree.writeText (file base key) (dumpsIndent 2 0 (.dict data)) =
        .ok (Dict.set (file base key) (.file (dumpsIndent 2 0 (.dict data))) q.tree) := by
      rw [FileTree.writeText, h.free key hkey hn]
      rfl
    obtain ⟨-, -, hentry⟩ := FileTree.writeText_ok hw
    dsimp only
    rw [if_neg (nul_not_mem_safe hn), hw]
    have hother {k : String} (hk : k ∈ keys) (hnk : '\x00' ∉ k.toList) (hne : k ≠ key) :
        FileTree.entry (Dict.set (file base key) (.file (dumpsIndent 2 0 (.dict data))) q.tree)
          (file base k) = q.tree.entry (file base k) := by
      rw [hentry, if_neg]
      exact fun hfile => hne (hinj hk hkey (file_inj hnk hn hfile))
    have hcontent {k : String} (hk : k ∈ keys) (hnk : '\x00' ∉ k.toList) (hne : k ≠ key) :
        FileTree.content (Dict.set (file base key) (.file (dumpsIndent 2 0 (.dict data))) q.tree)
          (file base k) = q.tree.content (file base k) := by
      rw [FileTree.content, hother hk hnk hne, FileTree.content]
    refine ⟨_, rfl, ⟨h.plain, fun k d hk => ?_, fun k hk hnk => ?_, fun k hk hnk => ?_⟩, rfl, ?_⟩
    · by_cases hkk : k = key
      · subst hkk
        rw [Dict.lookup_erase_self] at hk
        cases hk
      · rw [Dict.lookup_erase_ne hkk] at hk
        exact h.pending k d hk
    · rw [Bool.eq_false_iff, Ne, FileTree.isDir_iff, hentry]
      split
      · rintro ⟨⟩
      · have hfree := h.free k hk hnk
        rw [Bool.eq_false_iff, Ne, FileTree.isDir_iff] at hfree
        exact hfree
    · by_cases hkk : k = key
      · subst hkk
        refine ⟨data, .inr ⟨?_, hd⟩, fun field => ?_⟩
        · rw [FileTree.content_eq_some, hentry, if_pos rfl]
        · rw [Dict.lookup_erase_self, he, hl]
          change (data.lookup field).or (f.lookup field) = data.lookup field
          cases hfield : f.lookup field with
          | none => exact Option.or_none
          | some v =>
            obtain ⟨w, hw⟩ := Dict.mem_keys_iff.1
              (hc data hl f hload field (Dict.mem_keys_iff.2 ⟨v, hfield⟩))
            rw [hw]
            rfl
      · obtain ⟨f', hf', he'⟩ := h.saved k hk hnk
        refine ⟨f', hf'.of_content (hcontent hk hnk hkk), fun field => ?_⟩
        rw [Dict.lookup_erase_ne hkk]
        exact he' field
    · intro k hck d hk ms hms
      by_cases hkk : k = key
      · subst hkk
        rw [Dict.lookup_erase_self] at hk
        cases hk
      · rw [Dict.lookup_erase_ne hkk] at hk
        obtain ⟨hkeys, hnk, -⟩ := h.pending k d hk
        apply hck d hk ms
        rw [← hms, load, load, FileTree.readText, FileTree.readText, hother hkeys hnk hkk]

theorem flushKeys (h : Kept base keys m q) (hinj : Set.InjOn safe keys) {ks : List String}
    (hc : ∀ key ∈ ks, q.Covers base key) :
    ∃ q', DebouncedMemoryQueue.flushKeys base q ks = (.ok (), q') ∧ Kept base keys m q' ∧
      ∀ p ∈ q'.pending, p ∈ q.pending ∧ p.1 ∉ ks := by
  induction ks generalizing q with
  | nil => exact ⟨q, rfl, h, fun p hp => ⟨hp, List.not_mem_nil⟩⟩
  | cons key ks ih =>
    rw [List.forall_mem_cons] at hc
    obtain ⟨q₁, hq₁, h₁, hp₁, hc₁⟩ := (h.cancel key).flushOne hinj hc.1
    obtain ⟨q₂, hq₂, h₂, hp₂⟩ := ih h₁ fun k hk => hc₁ k (hc.2 k hk)
    refine ⟨q₂, ?_, h₂, fun p hp => ?_⟩
    · rw [DebouncedMemoryQueue.flushKeys, hq₁]
      exact hq₂
    · obtain ⟨hp, hks⟩ := hp₂ p hp
      rw [hp₁] at hp
      obtain ⟨hp, hne⟩ := Dict.mem_erase.1 hp
      refine ⟨hp, fun hm => ?_⟩
      obtain rfl | hm := List.mem_cons.1 hm
      · exact hne rfl
      · exact hks hm

theorem new (keys : Set String) : Kept base keys [] (State.new base : State F).queue := by
  have hentry {key : String} (hn : '\x00' ∉ key.toList) :
      (FileTree.root base).entry (file base key) = none := by
    rw [FileTree.root_entry, file_eq hn, if_neg]
    intro hp
    have hlen := hp.length_le
    rw [List.length_append, List.length_singleton] at hlen
    omega
  refine ⟨fun _ h => (h rfl).elim, fun _ _ h => (nomatch h), fun key _ hn => ?_, fun key _ hn => ?_⟩
  · rw [Bool.eq_false_iff, Ne, FileTree.isDir_iff]
    exact fun he => nomatch (hentry hn).symm.trans he
  · refine ⟨[], .inl ⟨?_, rfl⟩, fun field => rfl⟩
    rw [State.new, FileTree.content, hentry hn]

end Kept

/-- Before anything is enqueued after `flush_all`, nothing is pending. -/
structure Kept.InState (base : Path) (keys : Set String) (s : State F) : Prop where
  kept : Kept base keys s.merged s.queue
  flushed : s.flushed = true → s.queue.pending = []

namespace Kept.InState

variable {s : State F}

theorem persisted (h : InState base keys s) : Persisted base keys s :=
  fun hf _ hk => h.kept.persisted (h.flushed hf) hk

theorem flushOne (h : InState base keys s) (hinj : Set.InjOn safe keys) {key : String}
    (hc : s.queue.Covers base key) :
    ∃ q', (s.queue.cancel key).flushOne base key = (.ok (), q') ∧
      InState base keys { s with queue := q' } := by
  obtain ⟨q', hq, hk, hp, -⟩ := (h.kept.cancel key).flushOne hinj hc
  refine ⟨q', hq, hk, fun hf => ?_⟩
  rw [hp]
  change Dict.erase key s.queue.pending = []
  rw [h.flushed hf]
  rfl

theorem step (h : InState base keys s) (hinj : Set.InjOn safe keys) {call : Call F}
    (ho : call.On keys) (hc : call.Covers base s) : InState base keys (call.step base s) := by
  cases call with
  | enqueue key updates immediate =>
    exact ⟨h.kept.enqueue ho hc updates immediate, fun hf => nomatch hf⟩
  | fire key =>
    rw [Call.step, Queue.debouncedFlush]
    split
    · rename_i hm
      obtain ⟨q', hq, hk⟩ := h.flushOne hinj (hc hm)
      rw [hq]
      exact hk
    · exact h
  | pop key =>
    rw [Call.step, Queue.pop]
    split
    · obtain ⟨q', hq, hk⟩ := h.flushOne hinj hc
      rw [hq]
      exact hk
    · exact h
  | flushAll =>
    obtain ⟨q', hq, hk, hp⟩ := h.kept.flushKeys hinj hc
    rw [Call.step, Queue.flushAll, hq]
    refine ⟨hk, fun _ => List.eq_nil_iff_forall_not_mem.2 fun p hm => ?_⟩
    obtain ⟨hm, hn⟩ := hp p hm
    exact hn (List.mem_map_of_mem hm)

end Kept.InState

/-- In every run on keys of different safe names whose flushes leave out no field of a file, what is
loaded once all is flushed is what was enqueued. -/
theorem persisted_of_covers {keys : Set String} (hinj : Set.InjOn safe keys)
    {calls : List (Call F)} (h : Always (fun s call => call.On keys ∧ call.Covers base s)
      (State.new base) (steps (Call.step base) (State.new base) calls)) :
    Along (fun _ _ s => Persisted base keys s) (State.new base)
      (steps (Call.step base) (State.new base) calls) := by
  refine (steps_trace _ _ _).along_of_always (I := Kept.InState base keys) ?_ h ?_
  · exact ⟨Kept.new keys, fun _ => rfl⟩
  · rintro s call s' hs ⟨ho, hc⟩ rfl
    exact ⟨hs.step hinj ho hc, (hs.step hinj ho hc).persisted⟩

end

/-- An update of one field. -/
def field (name : String) (n : Int) : Updates WholeFloat :=
  ⟨[(name, .int n)], List.nodup_singleton _, trivial, trivial⟩

def home : Path := ["home"]

/-- Updates that a flush writes together. -/
theorem persisted_together :
    Along (fun _ _ s => Persisted home {"k"} s) (State.new home)
      (steps (Call.step home) (State.new home)
        [.enqueue "k" (field "a" 1) false, .enqueue "k" (field "b" 2) true, .flushAll]) := by
  refine persisted_of_covers (Set.injOn_singleton ..) ⟨⟨rfl, ?_⟩, ⟨rfl, ?_⟩, ⟨trivial, ?_⟩, trivial⟩
  · change '\x00' ∉ "k".toList
    decide
  · change '\x00' ∉ "k".toList
    decide
  · intro key hk data _ ms hms name hm
    obtain rfl := List.mem_singleton.1 hk
    have hload : load home (FileTree.root home) "k" = (.dict [] : Json WholeFloat) :=
      load_saved (.inl ⟨rfl, rfl⟩) (by decide)
    cases hload.symm.trans hms
    cases hm

/-- Updates of one key in two flushes. -/
def apart : List (Call WholeFloat) :=
  [.enqueue "k" (field "a" 1) false, .flushAll, .enqueue "k" (field "b" 2) false, .flushAll]

/-- The second flush of a key writes only what was enqueued after the first. -/
theorem first_update_lost :
    ¬ Along (fun _ _ s => Persisted home {"k"} s) (State.new home)
      (steps (Call.step home) (State.new home) apart) := by
  rintro ⟨-, -, -, h, -⟩
  obtain ⟨ms, hms, he⟩ := h rfl "k" rfl
  have hsaved : Saved home (apart.foldl (Call.step home) (State.new home)).queue.tree "k"
      (field "b" 2).members := .inr ⟨rfl, (field "b" 2).distinct⟩
  cases (load_saved hsaved (by decide)).symm.trans hms
  exact nomatch he "a"

end Obase.DebouncedMemoryQueue
