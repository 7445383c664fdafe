import Obase.DebouncedMemoryQueue.Merged
import Obase.KeyedStore

namespace Obase.DebouncedMemoryQueue
set_option autoImplicit true
open Json

section
variable [FloatText F] (base : Path)

def Call.run (q : Queue F) : Call F → Queue F
  | .enqueue key updates immediate => q.enqueue key updates.members immediate
  | .fire key => (q.debouncedFlush base key).2
  | .pop key => (q.pop base key).2
  | .flushAll => (q.flushAll base).2

/-- A new queue in an empty directory. -/
def Queue.new : Queue F := ⟨FileTree.root base, [], []⟩

/-- The store of the memories by their keys. -/
def keyed : KeyedStore (Queue F) (Call F) String (Json F) where
  start := Queue.new base
  step q call := call.run base q
  load q key := load base q.tree key
  empty := .dict []
  key
    | .enqueue key _ _ => some key
    | .fire key => some key
    | .pop key => some key
    | .flushAll => none
  saved a before
    | .enqueue key _ _ => before || key == a
    | _ => before

/-- Only some keys are pending, all of which can be flushed. -/
structure Flushable (keys : Set String) (q : Queue F) : Prop where
  pending : ∀ key ∈ Dict.keys q.pending, key ∈ keys
  free : ∀ key ∈ keys, q.tree.isDir (file base key) = false
  timers : q.timers.Nodup

/-- What is pending of a key, whether its timer runs, and its file. -/
structure Alike (key : String) (q q' : Queue F) : Prop where
  pending : q.pending.lookup key = q'.pending.lookup key
  timers : key ∈ q.timers ↔ key ∈ q'.timers
  entry : q.tree.entry (file base key) = q'.tree.entry (file base key)

/-- The file of a key after it is flushed. -/
def flushed (q : Queue F) (key : String) : Option Entry :=
  match q.pending.lookup key with
  | none => q.tree.entry (file base key)
  | some data => some (.file (dumpsIndent 2 0 (.dict data)))

variable {base : Path} {keys : Set String} {q q' : Queue F} {key : String}

@[simp] theorem keyed_load (q : Queue F) (a : String) :
    (keyed base).load q a = load base q.tree a := rfl

@[simp] theorem keyed_run (calls : List (Call F)) :
    (keyed base).run calls = calls.foldl (Call.run base) (Queue.new base) := rfl

theorem Flushable.new (keys : Set String) (hn : ∀ key ∈ keys, '\x00' ∉ key.toList) :
    Flushable (F := F) base keys (Queue.new base) :=
  ⟨fun _ h => (nomatch h), fun key hk => (Kept.new keys).free key hk (hn key hk), List.nodup_nil⟩

omit [FloatText F] in
theorem Flushable.cancel (h : Flushable base keys q) (key : String) :
    Flushable base keys (q.cancel key) :=
  ⟨h.pending, h.free, h.timers.erase key⟩

omit [FloatText F] in
theorem Flushable.enqueue (h : Flushable base keys q) (hk : key ∈ keys) (updates : Updates F)
    (immediate : Bool) : Flushable base keys (q.enqueue key updates.members immediate) := by
  have hpending (m : Dict String (Json F)) :
      ∀ k ∈ Dict.keys (Dict.set key m q.pending), k ∈ keys := by
    intro k hm
    obtain rfl | hm := Dict.mem_keys_set.1 hm
    · exact hk
    · exact h.pending k hm
  cases immediate with
  | true => exact ⟨hpending _, h.free, h.timers⟩
  | false =>
    refine ⟨hpending _, h.free, List.nodup_cons.2 ⟨?_, h.timers.erase key⟩⟩
    exact h.timers.not_mem_erase

/-- What flushing a key does to the keys. -/
theorem Flushable.flushOne (h : Flushable base keys q) (hn : ∀ key ∈ keys, '\x00' ∉ key.toList)
    (hinj : Set.InjOn safe keys) (hk : key ∈ keys) :
    ∃ q', q.flushOne base key = (.ok (), q') ∧ Flushable base keys q' ∧ q'.timers = q.timers ∧
      q'.pending = Dict.erase key q.pending ∧ ∀ k ∈ keys, q'.tree.entry (file base k) =
        if k = key then flushed base q key else q.tree.entry (file base k) := by
  rw [Queue.flushOne]
  cases hl : q.pending.lookup key with
  | none =>
    have hm : key ∉ Dict.keys q.pending := by
      intro hm
      obtain ⟨data, hd⟩ := Dict.mem_keys_iff.1 hm
      rw [hl] at hd
      cases hd
    refine ⟨q, rfl, h, rfl, (Dict.erase_of_not_mem hm).symm, fun k _ => ?_⟩
    split
    · rename_i he
      rw [flushed, hl, he]
    · rfl
  | some data =>
    have hw : q.tree.writeText (file base key) (dumpsIndent 2 0 (.dict data)) =
        .ok (Dict.set (file base key) (.file (dumpsIndent 2 0 (.dict data))) q.tree) := by
      rw [FileTree.writeText, h.free key hk]
      rfl
    obtain ⟨-, -, hentry⟩ := FileTree.writeText_ok hw
    dsimp only
    rw [if_neg (nul_not_mem_safe (hn key hk)), hw]
    refine ⟨_, rfl, ⟨fun k hm => ?_, fun k hkeys => ?_, h.timers⟩, rfl, rfl, fun k hkeys => ?_⟩
    · exact h.pending k (Dict.mem_keys_erase.1 hm).1
    · rw [Bool.eq_false_iff, Ne, FileTree.isDir_iff, hentry]
      split
      · rintro ⟨⟩
      · have hfree := h.free k hkeys
        rw [Bool.eq_false_iff, Ne, FileTree.isDir_iff] at hfree
        exact hfree
    · rw [hentry]
      by_cases hkk : k = key
      · rw [if_pos hkk, if_pos (congrArg _ hkk), flushed, hl]
      · rw [if_neg hkk, if_neg fun hf =>
          hkk (hinj hkeys hk (file_inj (hn k hkeys) (hn key hk) hf))]

/-- What flushing some keys does to all of them. -/
theorem Flushable.flushKeys (h : Flushable base keys q) (hn : ∀ key ∈ keys, '\x00' ∉ key.toList)
    (hinj : Set.InjOn safe keys) {ks : List String} (hks : ∀ key ∈ ks, key ∈ keys) :
    ∃ q', DebouncedMemoryQueue.flushKeys base q ks = (.ok (), q') ∧ Flushable base keys q' ∧
      (∀ k, k ∈ q'.timers ↔ k ∈ q.timers ∧ k ∉ ks) ∧
      (∀ k, q'.pending.lookup k = if k ∈ ks then none else q.pending.lookup k) ∧
      ∀ k ∈ keys, q'.tree.entry (file base k) =
        if k ∈ ks then flushed base q k else q.tree.entry (file base k) := by
  induction ks generalizing q with
  | nil =>
    refine ⟨q, rfl, h, fun k => ?_, fun k => ?_, fun k _ => ?_⟩
    · exact ⟨fun hm => ⟨hm, List.not_mem_nil⟩, And.left⟩
    · exact (if_neg List.not_mem_nil).symm
    · exact (if_neg List.not_mem_nil).symm
  | cons key ks ih =>
    rw [List.forall_mem_cons] at hks
    obtain ⟨q₁, hq₁, h₁, ht₁, hp₁, he₁⟩ := (h.cancel key).flushOne hn hinj hks.1
    obtain ⟨q₂, hq₂, h₂, ht₂, hp₂, he₂⟩ := ih h₁ hks.2
    refine ⟨q₂, ?_, h₂, fun k => ?_, fun k => ?_, fun k hk => ?_⟩
    · rw [DebouncedMemoryQueue.flushKeys, hq₁]
      exact hq₂
    · rw [ht₂, ht₁]
      change k ∈ q.timers.erase key ∧ _ ↔ _
      rw [h.timers.mem_erase_iff, List.mem_cons, not_or]
      tauto
    · rw [hp₂, hp₁]
      change (if k ∈ ks then none else (Dict.erase key q.pending).lookup k) = _
      by_cases hkk : k = key
      · subst hkk
        rw [Dict.lookup_erase_self, ite_self, if_pos List.mem_cons_self]
      · rw [Dict.lookup_erase_ne hkk]
        by_cases hm : k ∈ ks
        · rw [if_pos hm, if_pos (List.mem_cons_of_mem _ hm)]
        · rw [if_neg hm, if_neg fun hc => (List.mem_cons.1 hc).elim hkk hm]
    · have hf : (q.cancel key).pending = q.pending ∧ (q.cancel key).tree = q.tree := ⟨rfl, rfl⟩
      have hflush : k ≠ key → flushed base q₁ k = flushed base q k := by
        intro hkk
        rw [flushed, flushed, hp₁, hf.1, Dict.lookup_erase_ne hkk, he₁ k hk, if_neg hkk, hf.2]
      rw [he₂ k hk, he₁ k hk]
      by_cases hkk : k = key
      · subst hkk
        have hself : flushed base q₁ k = flushed base q k := by
          rw [flushed, hp₁, Dict.lookup_erase_self]
          dsimp only
          rw [he₁ k hk, if_pos rfl, flushed, flushed, hf.1, hf.2]
        rw [if_pos rfl, hself, if_pos List.mem_cons_self, flushed, flushed, hf.1, hf.2, ite_self]
      · rw [if_neg hkk, hf.2]
        by_cases hm : k ∈ ks
        · rw [if_pos hm, if_pos (List.mem_cons_of_mem _ hm), hflush hkk]
        · rw [if_neg hm, if_neg fun hc => (List.mem_cons.1 hc).elim hkk hm]

omit [FloatText F] in
theorem not_mem_pending {k : String} (h : k ∉ Dict.keys q.pending) :
    q.pending.lookup k = none := Dict.lookup_eq_none_of_not_mem h

theorem Flushable.flushAll (h : Flushable base keys q) (hn : ∀ key ∈ keys, '\x00' ∉ key.toList)
    (hinj : Set.InjOn safe keys) : ∃ n q', q.flushAll base = (.ok n, q') ∧
      Flushable base keys q' ∧ (∀ k, k ∈ q'.timers ↔ k ∈ q.timers ∧ q.pending.lookup k = none) ∧
      (∀ k, q'.pending.lookup k = none) ∧
      ∀ k ∈ keys, q'.tree.entry (file base k) = flushed base q k := by
  obtain ⟨q', hq, h', ht, hp, he⟩ := h.flushKeys hn hinj h.pending
  have hmem (k : String) : k ∉ Dict.keys q.pending ↔ q.pending.lookup k = none := by
    constructor
    · exact not_mem_pending
    · intro hl hm
      obtain ⟨v, hv⟩ := Dict.mem_keys_iff.1 hm
      rw [hl] at hv
      cases hv
  refine ⟨q.pending.length, q', ?_, h', fun k => ?_, fun k => ?_, fun k hk => ?_⟩
  · rw [Queue.flushAll, hq]
  · rw [ht, hmem]
  · rw [hp]
    split
    · rfl
    · rename_i hm
      exact not_mem_pending hm
  · rw [he k hk]
    split
    · rfl
    · rename_i hm
      rw [flushed, not_mem_pending hm]

/-- A key is flushed alone, after its timer is cancelled. -/
theorem Flushable.flushNow (h : Flushable base keys q) (hn : ∀ key ∈ keys, '\x00' ∉ key.toList)
    (hinj : Set.InjOn safe keys) (hk : key ∈ keys) :
    ∃ q', (q.cancel key).flushOne base key = (.ok (), q') ∧ Flushable base keys q' ∧
      (∀ k, k ∈ q'.timers ↔ k ∈ q.timers ∧ k ≠ key) ∧
      (∀ k, q'.pending.lookup k = if k = key then none else q.pending.lookup k) ∧
      ∀ k ∈ keys, q'.tree.entry (file base k) =
        if k = key then flushed base q k else q.tree.entry (file base k) := by
  obtain ⟨q', hq, h', ht, hp, he⟩ := h.flushKeys hn hinj (List.forall_mem_singleton.2 hk)
  simp only [List.mem_singleton] at ht hp he
  refine ⟨q', ?_, h', ht, hp, he⟩
  rw [DebouncedMemoryQueue.flushKeys] at hq
  split at hq
  · rename_i q₁ hq₁
    cases hq
    exact hq₁
  · cases hq

variable {a : String}

/-- Calls on other keys leave a key as it is. -/
theorem Flushable.run_other (h : Flushable base keys q) (hn : ∀ key ∈ keys, '\x00' ∉ key.toList)
    (hinj : Set.InjOn safe keys) (hk : key ∈ keys) (ha : a ∈ keys) (hne : a ≠ key)
    {call : Call F} (hc : (keyed base).key call = some key) :
    Flushable base keys (call.run base q) ∧ Alike base a (call.run base q) q := by
  have hflush : ∃ q', (q.cancel key).flushOne base key = (.ok (), q') ∧ Flushable base keys q' ∧
      Alike base a q' q := by
    obtain ⟨q', hq, h', ht, hp, he⟩ := h.flushNow hn hinj hk
    refine ⟨q', hq, h', ⟨(hp a).trans (if_neg hne), ?_, (he a ha).trans (if_neg hne)⟩⟩
    rw [ht]
    exact and_iff_left hne
  obtain ⟨q', hq, h', halike⟩ := hflush
  cases call with
  | enqueue k updates immediate =>
    obtain rfl := Option.some.inj hc
    refine ⟨h.enqueue hk updates immediate, ?_⟩
    rw [Call.run, Queue.enqueue]
    cases immediate with
    | true => exact ⟨Dict.lookup_set_ne hne .., Iff.rfl, rfl⟩
    | false =>
      refine ⟨Dict.lookup_set_ne hne .., ?_, rfl⟩
      change a ∈ k :: q.timers.erase k ↔ _
      rw [List.mem_cons, or_iff_right hne, List.mem_erase_of_ne hne]
  | fire k =>
    obtain rfl := Option.some.inj hc
    rw [Call.run, Queue.debouncedFlush]
    split
    · rw [hq]
      exact ⟨h', halike⟩
    · exact ⟨h, rfl, Iff.rfl, rfl⟩
  | pop k =>
    obtain rfl := Option.some.inj hc
    rw [Call.run, Queue.pop]
    split
    · rw [hq]
      exact ⟨h', halike⟩
    · exact ⟨h, rfl, Iff.rfl, rfl⟩
  | flushAll => cases hc

/-- Calls on a key, or on all of them, do the same to a key wherever it is alike. -/
theorem Flushable.run_same (h : Flushable base keys q) (h' : Flushable base keys q')
    (hn : ∀ key ∈ keys, '\x00' ∉ key.toList) (hinj : Set.InjOn safe keys) (ha : a ∈ keys)
    (hqq : Alike base a q q') {call : Call F}
    (hc : (keyed base).key call = some a ∨ (keyed base).key call = none) :
    Flushable base keys (call.run base q) ∧ Flushable base keys (call.run base q') ∧
      Alike base a (call.run base q) (call.run base q') := by
  have hfile : flushed base q a = flushed base q' a := by
    rw [flushed, flushed, hqq.pending, hqq.entry]
  have hmem : a ∈ Dict.keys q.pending ↔ a ∈ Dict.keys q'.pending := by
    rw [Dict.mem_keys_iff, Dict.mem_keys_iff, hqq.pending]
  obtain ⟨q₁, hq₁, h₁, ht₁, hp₁, he₁⟩ := h.flushNow hn hinj ha
  obtain ⟨q₂, hq₂, h₂, ht₂, hp₂, he₂⟩ := h'.flushNow hn hinj ha
  have halike : Alike base a q₁ q₂ := by
    refine ⟨?_, ?_, ?_⟩
    · rw [hp₁, hp₂, if_pos rfl, if_pos rfl]
    · rw [ht₁, ht₂, hqq.timers]
    · rw [he₁ a ha, he₂ a ha, if_pos rfl, if_pos rfl, hfile]
  cases call with
  | enqueue k updates immediate =>
    obtain rfl := Option.some.inj (hc.resolve_right (by rintro ⟨⟩))
    refine ⟨h.enqueue ha updates immediate, h'.enqueue ha updates immediate, ?_⟩
    rw [Call.run, Call.run, Queue.enqueue, Queue.enqueue, hqq.pending]
    cases immediate with
    | true =>
      refine ⟨?_, hqq.timers, hqq.entry⟩
      exact (Dict.lookup_set_self ..).trans (Dict.lookup_set_self ..).symm
    | false =>
      refine ⟨?_, ?_, hqq.entry⟩
      · exact (Dict.lookup_set_self ..).trans (Dict.lookup_set_self ..).symm
      · exact iff_of_true List.mem_cons_self List.mem_cons_self
  | fire k =>
    obtain rfl := Option.some.inj (hc.resolve_right (by rintro ⟨⟩))
    rw [Call.run, Call.run, Queue.debouncedFlush, Queue.debouncedFlush]
    by_cases hm : k ∈ q.timers
    · rw [if_pos hm, if_pos (hqq.timers.1 hm), hq₁, hq₂]
      exact ⟨h₁, h₂, halike⟩
    · rw [if_neg hm, if_neg fun hm' => hm (hqq.timers.2 hm')]
      exact ⟨h, h', hqq⟩
  | pop k =>
    obtain rfl := Option.some.inj (hc.resolve_right (by rintro ⟨⟩))
    rw [Call.run, Call.run, Queue.pop, Queue.pop]
    by_cases hm : k ∈ Dict.keys q.pending
    · rw [if_pos hm, if_pos (hmem.1 hm), hq₁, hq₂]
      exact ⟨h₁, h₂, halike⟩
    · rw [if_neg hm, if_neg fun hm' => hm (hmem.2 hm')]
      exact ⟨h, h', hqq⟩
  | flushAll =>
    obtain ⟨n, q₁, hq₁, h₁, ht₁, hp₁, he₁⟩ := h.flushAll hn hinj
    obtain ⟨n', q₂, hq₂, h₂, ht₂, hp₂, he₂⟩ := h'.flushAll hn hinj
    rw [Call.run, Call.run, hq₁, hq₂]
    refine ⟨h₁, h₂, ⟨?_, ?_, ?_⟩⟩
    · rw [hp₁, hp₂]
    · rw [ht₁, ht₂, hqq.timers, hqq.pending]
    · rw [he₁ a ha, he₂ a ha, hfile]

variable {b : String}

theorem load_congr {t t' : FileTree} (h : t.entry (file base a) = t'.entry (file base a)) :
    load base t a = (load base t' a : Json F) := by
  rw [load, load, FileTree.readText, FileTree.readText, h]

/-- Keys that are file names with different safe names do not affect each other. -/
theorem unaffected (hs : safe a ≠ safe b) (ha : '\x00' ∉ a.toList) (hb : '\x00' ∉ b.toList) :
    (keyed (F := F) base).Unaffected a b := by
  have hab : a ≠ b := fun he => hs (congrArg safe he)
  have hn : ∀ key ∈ ({a, b} : Set String), '\x00' ∉ key.toList := by
    rintro key (rfl | rfl)
    · exact ha
    · exact hb
  have hinj : Set.InjOn safe {a, b} := by
    rintro x (rfl | rfl) y (rfl | rfl) he
    · rfl
    · exact (hs he).elim
    · exact (hs he.symm).elim
    · rfl
  have hma : a ∈ ({a, b} : Set String) := .inl rfl
  have hmb : b ∈ ({a, b} : Set String) := .inr rfl
  refine ⟨fun ops hon => ?_, fun ops hon hsaved => ?_⟩
  · refine KeyedStore.load_without (R := fun q q' => Flushable base {a, b} q ∧
      Flushable base {a, b} q' ∧ Alike base a q q') ⟨.new _ hn, .new _ hn, rfl, Iff.rfl, rfl⟩
      (fun q q' hR => ?_) ?_ ?_ hon
    · rw [keyed_load, keyed_load, load_congr hR.2.2.entry]
    · rintro q q' call hk ⟨h, h', hqq⟩
      obtain ⟨h₁, halike⟩ := h.run_other hn hinj hmb hma hab hk
      exact ⟨h₁, h', halike.pending.trans hqq.pending, halike.timers.trans hqq.timers,
        halike.entry.trans hqq.entry⟩
    · rintro q q' call hk ⟨h, h', hqq⟩
      exact h.run_same h' hn hinj hma hqq hk
  · have hinv := KeyedStore.invariant (S := keyed (F := F) base) (a := a) (b := b)
      (P := fun q saved => Flushable base {a, b} q ∧ (saved = false →
        Alike base a q (Queue.new base))) ⟨.new _ hn, fun _ => ⟨rfl, Iff.rfl, rfl⟩⟩ ?_ hon
    · have halike := hinv.2 hsaved
      rw [keyed_load, load_congr halike.entry]
      exact load_saved (.inl ⟨FileTree.root_content .., rfl⟩) ha
    · rintro q saved call hk ⟨h, hsame⟩
      by_cases hkb : (keyed (F := F) base).key call = some b
      · obtain ⟨h₁, halike⟩ := h.run_other hn hinj hmb hma hab hkb
        refine ⟨h₁, fun hsaved => ?_⟩
        have hq := hsame (by
          cases call with
          | enqueue => exact (Bool.or_eq_false_iff.1 hsaved).1
          | fire => exact hsaved
          | pop => exact hsaved
          | flushAll => exact hsaved)
        exact ⟨halike.pending.trans hq.pending, halike.timers.trans hq.timers,
          halike.entry.trans hq.entry⟩
      · have hka : (keyed (F := F) base).key call = some a ∨
            (keyed (F := F) base).key call = none := by tauto
        have hnew : Flushable (F := F) base {a, b} (Queue.new base) := .new _ hn
        refine ⟨(h.run_same h hn hinj hma ⟨rfl, Iff.rfl, rfl⟩ hka).1, fun hsaved => ?_⟩
        cases call with
        | enqueue k updates immediate =>
          obtain rfl := Option.some.inj (hka.resolve_right fun he => nomatch he)
          exact absurd (beq_self_eq_true k)
            (Bool.eq_false_iff.1 (Bool.or_eq_false_iff.1 hsaved).2)
        | fire k => exact (h.run_same hnew hn hinj hma (hsame hsaved) hka).2.2
        | pop k => exact (h.run_same hnew hn hinj hma (hsame hsaved) hka).2.2
        | flushAll => exact (h.run_same hnew hn hinj hma (hsame hsaved) hka).2.2

/-- An update of one field. -/
def oneField : Updates F :=
  ⟨[("n", .null)], List.nodup_singleton _, trivial, trivial⟩

omit [FloatText F] in
theorem enqueue_new : (Queue.new base : Queue F).enqueue b oneField.members true =
    ⟨FileTree.root base, [(b, oneField.members)], []⟩ := rfl

omit [FloatText F] in
theorem enqueue_oneField (q : Queue F) (h : key ∉ Dict.keys q.pending) :
    q.enqueue key oneField.members true =
      { q with pending := q.pending ++ [(key, oneField.members)] } := by
  rw [Queue.enqueue, not_mem_pending h]
  change Queue.mk q.tree (Dict.set key _ q.pending) q.timers = _
  rw [Dict.set_of_not_mem h]
  rfl

/-- What is loaded where a key is flushed alone. -/
theorem load_flushed (hb : '\x00' ∉ b.toList) (ha : '\x00' ∉ a.toList) (hs : safe a = safe b) :
    (keyed (F := F) base).load ((keyed base).run [.enqueue b oneField true, .flushAll]) a =
      .dict oneField.members := by
  have hn : ∀ key ∈ ({b} : Set String), '\x00' ∉ key.toList := by
    rintro key rfl
    exact hb
  have hnew : Flushable (F := F) base {b} (Queue.new base) := .new _ hn
  have hmem : b ∈ ({b} : Set String) := rfl
  have hq := hnew.enqueue hmem oneField true
  obtain ⟨n, q', hq', -, -, -, he⟩ := hq.flushAll hn (Set.injOn_singleton ..)
  have hfile : file base a = file base b := by
    rw [file, file, hs]
  have hcontent : q'.tree.content (file base a) =
      some (dumpsIndent 2 0 (.dict (oneField (F := F)).members)) := by
    rw [FileTree.content_eq_some, hfile, he b rfl, flushed, enqueue_new, List.lookup_cons_self]
  rw [keyed_load, keyed_run, List.foldl_cons, List.foldl_cons, List.foldl_nil, Call.run, Call.run,
    hq']
  exact load_saved (.inr ⟨hcontent, oneField.distinct⟩) ha

/-- A key that is no file name stops the flushing of those after it. -/
theorem flushAll_nul (hb : '\x00' ∈ b.toList) {data : Dict String (Json F)}
    {rest : Dict String (Dict String (Json F))} (hp : q.pending = (b, data) :: rest) :
    (q.flushAll base).2.tree = q.tree := by
  have hsafe : '\x00' ∈ (safe b).toList := by
    rw [safe, safeName, String.toList_ofList]
    exact List.mem_map.2 ⟨'\x00', hb, if_neg (by decide)⟩
  have hflush : (q.cancel b).flushOne base b =
      (.error .valueError, { q.cancel b with pending := Dict.erase b q.pending }) := by
    have hl : (q.cancel b).pending.lookup b = some data := by
      change q.pending.lookup b = _
      rw [hp, List.lookup_cons_self]
    rw [Queue.flushOne, hl]
    exact if_pos hsafe
  rw [Queue.flushAll, hp, Dict.keys_cons, DebouncedMemoryQueue.flushKeys, hflush]
  rfl

theorem not_unaffected_of_nul (hab : a ≠ b) (ha : '\x00' ∉ a.toList) (hb : '\x00' ∈ b.toList) :
    ¬ (keyed (F := F) base).Unaffected a b := by
  intro h
  have hon : (keyed (F := F) base).On a b
      [.enqueue b oneField true, .enqueue a oneField true, .flushAll] := by
    intro call hm
    obtain rfl | hm := List.mem_cons.1 hm
    · exact .inr (.inl rfl)
    · obtain rfl | hm := List.mem_cons.1 hm
      · exact .inl rfl
      · obtain rfl := List.mem_singleton.1 hm
        exact .inr (.inr rfl)
  have hw := h.without _ hon
  have hwithout : (keyed (F := F) base).without b
      [.enqueue b oneField true, .enqueue a oneField true, .flushAll] =
        [.enqueue a oneField true, .flushAll] := by
    rw [KeyedStore.without, List.filter_cons_of_neg (by simp [keyed]),
      List.filter_cons_of_pos (by simpa [keyed] using hab),
      List.filter_cons_of_pos (by simp [keyed]), List.filter_nil]
  rw [hwithout, load_flushed ha ha rfl] at hw
  have hempty : (keyed (F := F) base).load ((keyed base).run
      [.enqueue b oneField true, .enqueue a oneField true, .flushAll]) a = .dict [] := by
    rw [keyed_load, keyed_run, List.foldl_cons, List.foldl_cons, List.foldl_cons, List.foldl_nil,
      Call.run, Call.run, Call.run, enqueue_new, enqueue_oneField, flushAll_nul hb]
    · exact load_saved (.inl ⟨FileTree.root_content .., rfl⟩) ha
    · rfl
    · exact fun hm => hab (List.mem_singleton.1 hm)
  rw [hempty] at hw
  cases hw

theorem unaffected_of_nul (ha : '\x00' ∈ a.toList) : (keyed (F := F) base).Unaffected a b := by
  have hload (q : Queue F) : (keyed base).load q a = .dict [] :=
    (keyed_load q a).trans (load_nul ha)
  exact ⟨fun ops _ => (hload _).trans (hload _).symm, fun ops _ _ => hload _⟩

/-- Two keys do not affect each other exactly when both are file names, with different safe names,
or neither is one. -/
theorem keyed_apart_iff (hab : a ≠ b) : (keyed (F := F) base).Apart a b ↔
    '\x00' ∉ a.toList ∧ '\x00' ∉ b.toList ∧ safe a ≠ safe b ∨
      '\x00' ∈ a.toList ∧ '\x00' ∈ b.toList := by
  by_cases ha : '\x00' ∈ a.toList
  · by_cases hb : '\x00' ∈ b.toList
    · exact iff_of_true ⟨unaffected_of_nul ha, unaffected_of_nul hb⟩ (.inr ⟨ha, hb⟩)
    · refine iff_of_false (fun h => not_unaffected_of_nul hab.symm hb ha h.2) ?_
      tauto
  · by_cases hb : '\x00' ∈ b.toList
    · refine iff_of_false (fun h => not_unaffected_of_nul hab ha hb h.1) ?_
      tauto
    · constructor
      · intro h
        refine .inl ⟨ha, hb, fun hs => ?_⟩
        refine KeyedStore.not_unaffected [.enqueue b oneField true, .flushAll] ?_ ?_ ?_ h.1
        · intro call hm
          obtain rfl | hm := List.mem_cons.1 hm
          · exact .inr (.inl rfl)
          · obtain rfl := List.mem_singleton.1 hm
            exact .inr (.inr rfl)
        · exact beq_false_of_ne hab.symm
        · rw [load_flushed hb ha hs]
          exact fun he => nomatch he
      · rintro (⟨-, -, hs⟩ | ⟨hm, -⟩)
        · exact ⟨unaffected hs ha hb, unaffected hs.symm hb ha⟩
        · exact (ha hm).elim

end
end Obase.DebouncedMemoryQueue
