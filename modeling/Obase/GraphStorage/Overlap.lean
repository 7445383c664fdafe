import Obase.GraphStorage.Refinement

namespace Obase.GraphStorage
set_option autoImplicit true
open Json

section
variable {F : Type} [FloatText F] (sha256 : List UInt8 → List UInt8)

/-- The node that a text is the page of, if it is the page of any. -/
def node (content : List Char) : Option (GraphNode F) :=
  match decode (firstLine content) with
  | .ok n => n
  | .error _ => none

def nodeAt (files : Files) (name : String) : Option (GraphNode F) := (files.lookup name).bind node

/-- No page is damaged, and every node's page has the name or the legacy name of its id. -/
structure Migrating (F : Type) [FloatText F] (files : Files) : Prop where
  distinct : Dict.Distinct files
  readable : ∀ p ∈ pages files, ∃ n : Option (GraphNode F), decode (firstLine p.2) = .ok n
  named : ∀ p ∈ pages files, ∀ n : GraphNode F, node p.2 = some n →
    p.1 = filename sha256 n.nodeId ∨ p.1 = legacy sha256 n.nodeId

/-- The loaded nodes and the lookup of an id agree on the node that it has, which is that of the
page with its name if there is one. -/
structure Agrees (F : Type) [FloatText F] (files : Files) (id : String) : Prop where
  loaded : ∃ ns : List (GraphNode F), loadAll files = .ok ns ∧
    ∀ n, (n ∈ ns ∧ n.nodeId.1 = id) ↔ getNode sha256 files id = .ok (some n)
  current : ∀ n : GraphNode F, nodeAt files (filename sha256 id) = some n → n.nodeId.1 = id →
    getNode sha256 files id = .ok (some n)

/-- What the readable part of a simple id leaves of it. -/
def tail (id : String) : List Char := id.toList.drop (readable id).length

/-- The legacy name of a simple id sorts before its name. -/
def LegacyFirst (id : String) : Prop :=
  tail id = [] ∨ (tail id).head? = some '_' ∨
    ∃ d ∈ (suffix sha256 id).head?, d.isDigit = true ∧ ['-', '_'] <+: tail id

/-- No page under the name of the id is in the way of a node on its legacy page, and one that has a
node of its own sorts last, or has the same node. -/
structure Resolved (F : Type) [FloatText F] (files : Files) (id : String) : Prop where
  newer : ∀ n m : GraphNode F, nodeAt files (filename sha256 id) = some n → n.nodeId.1 = id →
    nodeAt files (legacy sha256 id) = some m → m.nodeId.1 = id → n = m ∨ LegacyFirst sha256 id
  free : ∀ m : GraphNode F, nodeAt files (legacy sha256 id) = some m → m.nodeId.1 = id →
    (∀ n : GraphNode F, nodeAt files (filename sha256 id) = some n → n.nodeId.1 ≠ id) →
    files.lookup (filename sha256 id) = none

end

theorem append_lt_append_iff (xs : List Char) {ys zs : List Char} : xs ++ ys < xs ++ zs ↔ ys < zs := by
  induction xs with
  | nil => rfl
  | cons x xs ih =>
    rw [List.cons_append, List.cons_append, List.cons_lt_cons_iff, ih]
    exact ⟨fun h => (h.resolve_left (lt_irrefl x)).2, fun h => .inr ⟨rfl, h⟩⟩

theorem markdown_lt_iff {cs ds : List Char} :
    markdown cs < markdown ds ↔ cs ++ ".md".toList < ds ++ ".md".toList := by
  have ht (cs : List Char) : (markdown cs).toList = cs ++ ".md".toList := String.toList_ofList
  rw [String.lt_iff_toList_lt, ht, ht]

theorem squeeze_of_word {cs : List Char} (h : cs.all isWord = true) : squeeze false cs = cs := by
  induction cs with
  | nil => rfl
  | cons c cs ih =>
    rw [List.all_cons, Bool.and_eq_true] at h
    rw [squeeze, h.1, Bool.true_or, if_pos rfl, ih h.2]

/-- The characters that are stripped from a readable name. -/
def isStroke (c : Char) : Bool := c == '.' || c == '_' || c == '-'

theorem isStroke_of_alnum {c : Char} (h : isAlnum c = true) : isStroke c = false := by
  rw [Bool.eq_false_iff]
  intro hs
  simp only [isStroke, Bool.or_eq_true, beq_iff_eq] at hs
  obtain (rfl | rfl) | rfl := hs
  · exact absurd h (by decide)
  · exact absurd h (by decide)
  · exact absurd h (by decide)

theorem simple_iff {id : String} : isSimple id = true ↔
    ∃ c cs, id.toList = c :: cs ∧ isAlnum c = true ∧ cs.length ≤ 63 ∧ cs.all isWord = true := by
  rw [isSimple]
  cases id.toList with
  | nil => simp
  | cons c cs => simp [and_assoc]

theorem simple_words {id : String} (h : isSimple id = true) : id.toList.all isWord = true := by
  obtain ⟨c, cs, hid, hc, -, hcs⟩ := simple_iff.1 h
  rw [hid, List.all_cons, isWord, hc, hcs]
  rfl

/-- The readable part of a simple id is the id without its last strokes. -/
theorem readable_simple {id : String} (h : isSimple id = true) :
    readable id = id.toList.rdropWhile isStroke := by
  have hw := simple_words h
  obtain ⟨c, cs, hid, hc, hlen, -⟩ := simple_iff.1 h
  have hne : (c :: cs).rdropWhile isStroke ≠ [] := by
    intro hn
    have hm := List.rdropWhile_eq_nil_iff.1 hn c (.head _)
    rw [isStroke_of_alnum hc] at hm
    cases hm
  have hle : ((c :: cs).rdropWhile isStroke).length ≤ 64 := by
    have hl := (List.rdropWhile_prefix isStroke (l := c :: cs)).length_le
    rw [List.length_cons] at hl
    omega
  have htrim : Text.trim isStroke (squeeze false id.toList) = (c :: cs).rdropWhile isStroke := by
    rw [squeeze_of_word hw, hid, Text.trim, List.dropWhile_cons_of_neg]
    rw [isStroke_of_alnum hc]
    exact Bool.false_ne_true
  change (if ((Text.trim isStroke (squeeze false id.toList)).take 64).isEmpty then _ else
    (Text.trim isStroke (squeeze false id.toList)).take 64) = _
  rw [htrim, List.take_of_length_le hle, hid]
  exact if_neg fun he => hne (List.isEmpty_iff.1 he)

/-- The readable part of a simple id begins it, and leaves only strokes. -/
theorem simple_split {id : String} (h : isSimple id = true) :
    id.toList = readable id ++ tail id ∧ ∀ c ∈ tail id, c = '_' ∨ c = '-' := by
  have hr := readable_simple h
  have hs : id.toList.rdropWhile isStroke ++ id.toList.rtakeWhile isStroke = id.toList :=
    List.rdropWhile_append_rtakeWhile
  have ht : tail id = id.toList.rtakeWhile isStroke := by
    have hd : (id.toList.rdropWhile isStroke ++ id.toList.rtakeWhile isStroke).drop
        (id.toList.rdropWhile isStroke).length = id.toList.rtakeWhile isStroke := List.drop_left
    rwa [hs, ← hr] at hd
  refine ⟨?_, fun c hc => ?_⟩
  · rw [ht, hr, hs]
  · rw [ht] at hc
    have hm := List.mem_rtakeWhile_imp hc
    have hw := List.all_eq_true.1 (simple_words h) c
      ((List.rtakeWhile_suffix isStroke _).subset hc)
    simp only [isStroke, Bool.or_eq_true, beq_iff_eq] at hm
    obtain (rfl | rfl) | rfl := hm
    · exact absurd hw (by decide)
    · exact .inl rfl
    · exact .inr rfl

/-- How the digits that follow the hyphen of a legacy name compare with what may stand in their
place in a name. -/
theorem hex_bounds {c : Char} (h : c.isDigit = true ∨ ('a' ≤ c ∧ c ≤ 'f')) :
    '.' < c ∧ '-' < c ∧ c ≠ '_' ∧ (c < '_' ↔ c.isDigit = true) := by
  have ha : c.toNat < 128 := by
    rcases h with h | ⟨-, hf⟩
    · exact ascii_of_isDigit h
    · exact Nat.lt_of_le_of_lt (UInt32.le_iff_toNat_le.1 hf) (by decide)
  revert h
  exact Text.forall_ascii (P := fun c => c.isDigit = true ∨ ('a' ≤ c ∧ c ≤ 'f') →
    '.' < c ∧ '-' < c ∧ c ≠ '_' ∧ (c < '_' ↔ c.isDigit = true)) (by decide +kernel) ha

section
variable {F : Type} [FloatText F] {sha256 : List UInt8 → List UInt8} {files : Files} {id : String}

theorem legacy_suffix (id : String) :
    ".md".toList.isSuffixOf (legacy sha256 id).toList = true := markdown_suffix _

theorem simple_of_ne (h : filename sha256 id ≠ legacy sha256 id) : isSimple id = true := by
  by_contra hs
  exact h (if_neg hs)

theorem suffix_cons (hne : ∀ bs, sha256 bs ≠ []) (id : String) :
    ∃ d ds, suffix sha256 id = d :: ds ∧ (d.isDigit = true ∨ ('a' ≤ d ∧ d ≤ 'f')) := by
  cases hs : suffix sha256 id with
  | nil =>
    rw [suffix, List.take_eq_nil_iff, hex, String.toList_ofList] at hs
    cases hb : sha256 (utf8 id.toList) with
    | nil => exact (hne _ hb).elim
    | cons b bs =>
      rw [hb] at hs
      obtain hs | hs := hs
      · cases hs
      · cases hs
  | cons d ds =>
    have hd : d ∈ (hex (sha256 (utf8 id.toList))).toList.take 12 := by
      change d ∈ suffix sha256 id
      rw [hs]
      exact .head _
    exact ⟨d, ds, rfl, hex_digits _ d (List.mem_of_mem_take hd)⟩

/-- A legacy name sorts before the name of a simple id exactly if the id ends in no hyphen, or the
strokes that end it tell the names apart in time. -/
theorem legacy_lt_iff (hne : ∀ bs, sha256 bs ≠ []) (h : isSimple id = true) :
    legacy sha256 id < filename sha256 id ↔ LegacyFirst sha256 id := by
  obtain ⟨hid, hstrokes⟩ := simple_split h
  obtain ⟨d, ds, hs, hd⟩ := suffix_cons hne id
  obtain ⟨hdot, hhyphen, hstroke, hdigit⟩ := hex_bounds hd
  have hnames : legacy sha256 id < filename sha256 id ↔
      '-' :: d :: (ds ++ ".md".toList) < tail id ++ ".md".toList := by
    rw [filename, if_pos h, legacy, markdown_lt_iff, hashedName, hs, hid, List.append_assoc,
      List.append_assoc, append_lt_append_iff]
    rfl
  rw [hnames, LegacyFirst, hs]
  cases ht : tail id with
  | nil => exact ⟨fun _ => .inl rfl, fun _ => List.cons_lt_cons_iff.2 (.inl (by decide))⟩
  | cons c cs =>
    rw [ht] at hstrokes
    obtain rfl | rfl := hstrokes c (.head _)
    · exact ⟨fun _ => .inr (.inl rfl), fun _ => List.cons_lt_cons_iff.2 (.inl (by decide))⟩
    · have hcons : '-' :: d :: (ds ++ ".md".toList) < '-' :: cs ++ ".md".toList ↔
          d :: (ds ++ ".md".toList) < cs ++ ".md".toList := append_lt_append_iff ['-']
      rw [hcons, List.head?_cons, List.head?_cons]
      cases cs with
      | nil =>
        constructor
        · intro hlt
          obtain hlt | ⟨rfl, -⟩ := List.cons_lt_cons_iff.1 hlt
          · exact absurd hlt (lt_asymm hdot)
          · exact absurd hdot (lt_irrefl _)
        · rintro (he | he | ⟨-, -, -, hp⟩)
          · cases he
          · cases he
          · exact absurd hp.length_le (by decide)
      | cons e cs =>
        rw [List.cons_append, List.cons_lt_cons_iff]
        obtain rfl | rfl := hstrokes e (.tail _ (.head _))
        · constructor
          · rintro (hlt | ⟨he, -⟩)
            · exact .inr (.inr ⟨d, rfl, hdigit.1 hlt, List.prefix_append ['-', '_'] cs⟩)
            · exact absurd he hstroke
          · rintro (he | he | ⟨e, he, hdd, -⟩)
            · cases he
            · cases he
            · obtain rfl := Option.mem_some_iff.1 he
              exact .inl (hdigit.2 hdd)
        · constructor
          · rintro (hlt | ⟨rfl, -⟩)
            · exact absurd hlt (lt_asymm hhyphen)
            · exact absurd hhyphen (lt_irrefl _)
          · rintro (he | he | ⟨-, -, -, hp⟩)
            · cases he
            · cases he
            · obtain ⟨-, hp⟩ := List.cons_prefix_cons.1 hp
              obtain ⟨he, -⟩ := List.cons_prefix_cons.1 hp
              cases he

/-- The nodes that the pages hold, under their ids. -/
def found (ps : List (String × List Char)) : Dict String (GraphNode F) :=
  ps.filterMap fun p => (node p.2).map fun n => (n.nodeId.1, n)

theorem node_of_decode {content : List Char} {n : Option (GraphNode F)}
    (h : decode (firstLine content) = .ok n) : node content = n := by
  rw [node, h]

theorem collect_found {ps : List (String × List Char)}
    (h : ∀ p ∈ ps, ∃ n : Option (GraphNode F), decode (firstLine p.2) = .ok n)
    (d : Dict String (GraphNode F)) :
    collect d ps = .ok ((found ps).foldl (fun d p => Dict.set p.1 p.2 d) d) := by
  induction ps generalizing d with
  | nil => rfl
  | cons p ps ih =>
    obtain ⟨⟨n, hn⟩, hps⟩ := List.forall_mem_cons.1 h
    rw [collect, hn, found, List.filterMap_cons, node_of_decode hn]
    cases n with
    | none => exact ih hps d
    | some n => exact ih hps _

/-- A page that comes after all others holds the node of its id that is found. -/
theorem lookup_found_concat {ps : List (String × List Char)} {p : String × List Char}
    {n : GraphNode F} : (found (ps ++ [p])).reverse.lookup id = some n ↔
      (node p.2 = some n ∧ n.nodeId.1 = id) ∨
        (∀ m : GraphNode F, node p.2 = some m → m.nodeId.1 ≠ id) ∧
          (found ps).reverse.lookup id = some n := by
  rw [found, List.filterMap_append, ← found, List.reverse_append]
  cases hp : (node p.2 : Option (GraphNode F)) with
  | none =>
    rw [List.filterMap_cons_none (by rw [hp]; rfl)]
    exact ⟨fun h => .inr ⟨fun m hm => (nomatch hm), h⟩,
      fun h => h.elim (fun h => (nomatch h.1)) fun h => h.2⟩
  | some m =>
    rw [List.filterMap_cons_some (by rw [hp]; rfl), List.filterMap_nil, List.reverse_singleton,
      List.singleton_append, List.lookup_cons]
    by_cases hm : id = m.nodeId.1
    · rw [beq_iff_eq.2 hm]
      exact ⟨fun h => .inl ⟨h, by injection h with h; rw [← h, hm]⟩,
        fun h => h.elim (fun h => h.1) fun h => (h.1 m rfl hm.symm).elim⟩
    · rw [beq_false_of_ne hm]
      refine ⟨fun h => .inr ⟨fun m' hm' he => ?_, h⟩, fun h => ?_⟩
      · injection hm' with hm'
        exact hm (by rw [hm', he])
      · obtain ⟨he, hn⟩ | h := h
        · injection he with he
          exact (hm (by rw [he, hn])).elim
        · exact h.2

/-- The page that is taken for an id is the last of those that hold a node of it. -/
theorem lookup_found {ps : List (String × List Char)} (hs : ps.Pairwise fun p q => p.1 < q.1)
    (n : GraphNode F) : (found ps).reverse.lookup id = some n ↔
      ∃ p ∈ ps, (node p.2 = some n ∧ n.nodeId.1 = id) ∧
        ∀ q ∈ ps, ∀ m : GraphNode F, node q.2 = some m → m.nodeId.1 = id → q.1 ≤ p.1 := by
  induction ps using List.reverseRecOn with
  | nil => exact ⟨fun h => (nomatch h), fun ⟨p, hp, _⟩ => (nomatch hp)⟩
  | append_singleton ps p ih =>
    obtain ⟨hps, -, hlt⟩ := List.pairwise_append.1 hs
    have hlast : ∀ q ∈ ps ++ [p], q.1 ≤ p.1 := by
      intro q hq
      obtain hq | hq := List.mem_append.1 hq
      · exact (hlt q hq p (.head _)).le
      · rw [List.mem_singleton.1 hq]
    rw [lookup_found_concat, ih hps]
    constructor
    · rintro (hp | ⟨hp, q, hq, hn, hle⟩)
      · exact ⟨p, by simp, hp, fun q hq _ _ _ => hlast q hq⟩
      · refine ⟨q, List.mem_append_left _ hq, hn, fun r hr m hm hid => ?_⟩
        obtain hr | hr := List.mem_append.1 hr
        · exact hle r hr m hm hid
        · rw [List.mem_singleton.1 hr] at hm
          exact (hp m hm hid).elim
    · rintro ⟨q, hq, hn, hle⟩
      obtain hq | hq := List.mem_append.1 hq
      · refine .inr ⟨fun m hm hid => ?_, q, hq, hn, fun r hr => hle r (List.mem_append_left _ hr)⟩
        exact absurd (hle p (by simp) m hm hid) (not_le.2 (hlt q hq p (.head _)))
      · rw [List.mem_singleton.1 hq] at hn
        exact .inl hn

theorem pages_sorted (h : Dict.Distinct files) : (pages files).Pairwise fun p q => p.1 < q.1 := by
  have hle : (pages files).Pairwise keyLe := List.pairwise_insertionSort keyLe _
  exact (hle.and (List.pairwise_map.1 (pages_nodup h))).imp fun hlt =>
    lt_of_le_of_ne (keyLe_iff.1 hlt.1) hlt.2

/-- What is loaded of undamaged pages: the last node of every id. -/
theorem loadAll_found
    (hr : ∀ p ∈ pages files, ∃ n : Option (GraphNode F), decode (firstLine p.2) = .ok n) :
    ∃ ns : List (GraphNode F), loadAll files = .ok ns ∧
      ∀ n, n ∈ ns ↔ (found (pages files)).reverse.lookup n.nodeId.1 = some n := by
  have hcollect := collect_found hr []
  have hkeyed : ∀ p ∈ Dict.ofPairs (found (F := F) (pages files)), p.1 = p.2.nodeId.1 := by
    rintro ⟨k, n⟩ hp
    have hl := (Dict.lookup_eq_some_iff (Dict.ofPairs_distinct _)).2 hp
    rw [Dict.lookup_ofPairs] at hl
    obtain ⟨q, -, hq⟩ := List.mem_filterMap.1 (List.mem_reverse.1 (Dict.lookup_mem hl))
    obtain ⟨m, -, he⟩ := Option.map_eq_some_iff.1 hq
    cases he
    rfl
  refine ⟨((Dict.ofPairs (found (pages files))).map Prod.snd).mergeSort
    fun a b => decide (a.nodeId.1 ≤ b.nodeId.1), ?_, fun n => ?_⟩
  · rw [loadAll, hcollect]
    rfl
  · rw [List.mem_mergeSort, ← Dict.lookup_ofPairs,
      Dict.lookup_eq_some_iff (Dict.ofPairs_distinct _), List.mem_map]
    constructor
    · rintro ⟨p, hp, rfl⟩
      rw [← hkeyed p hp]
      exact hp
    · exact fun hm => ⟨_, hm, rfl⟩

/-- A page under a name holds a node of the id. -/
def Holds (files : Files) (id name : String) (n : GraphNode F) : Prop :=
  nodeAt files name = some n ∧ n.nodeId.1 = id

theorem Holds.unique {name : String} {n m : GraphNode F} (hn : Holds files id name n)
    (hm : Holds files id name m) : n = m := by
  have he := hn.1
  rw [hm.1] at he
  injection he with he
  exact he.symm

theorem nodeAt_eq_some {name : String} {n : GraphNode F} :
    nodeAt files name = some n ↔ ∃ content, files.lookup name = some content ∧
      node content = some n := by
  rw [nodeAt, Option.bind_eq_some_iff]

theorem Holds.page {name : String} {n : GraphNode F} (h : Holds files id name n)
    (hmd : ".md".toList.isSuffixOf name.toList = true) :
    ∃ p ∈ pages files, p.1 = name ∧ node p.2 = some n := by
  obtain ⟨content, hl, hn⟩ := nodeAt_eq_some.1 h.1
  exact ⟨(name, content), mem_pages.2 ⟨Dict.lookup_mem hl, hmd⟩, rfl, hn⟩

namespace Migrating

theorem holds (h : Migrating sha256 F files) {p : String × List Char} (hp : p ∈ pages files)
    {n : GraphNode F} (hn : node p.2 = some n) (hid : n.nodeId.1 = id) :
    Holds files id p.1 n ∧ (p.1 = filename sha256 id ∨ p.1 = legacy sha256 id) := by
  refine ⟨⟨nodeAt_eq_some.2 ⟨p.2, ?_, hn⟩, hid⟩, ?_⟩
  · exact (Dict.lookup_eq_some_iff h.distinct).2 (mem_pages.1 hp).1
  · rw [← hid]
    exact h.named p hp n hn

/-- A page sorts last among those of its id if it does so against the page of the other name. -/
theorem last_iff (h : Migrating sha256 F files) {name other : String} {n : GraphNode F}
    (hnames : ∀ s, s = filename sha256 id ∨ s = legacy sha256 id → s = name ∨ s = other)
    (hname : ".md".toList.isSuffixOf name.toList = true)
    (hother : ".md".toList.isSuffixOf other.toList = true) :
    (∃ p ∈ pages files, p.1 = name ∧ (node p.2 = some n ∧ n.nodeId.1 = id) ∧
        ∀ q ∈ pages files, ∀ m : GraphNode F, node q.2 = some m → m.nodeId.1 = id → q.1 ≤ p.1) ↔
      Holds files id name n ∧ ∀ m : GraphNode F, Holds files id other m → other ≤ name := by
  constructor
  · rintro ⟨p, hp, rfl, ⟨hn, hid⟩, hle⟩
    refine ⟨(h.holds hp hn hid).1, fun m hm => ?_⟩
    obtain ⟨q, hq, rfl, hqn⟩ := hm.page hother
    exact hle q hq m hqn hm.2
  · rintro ⟨hn, hle⟩
    obtain ⟨p, hp, rfl, hpn⟩ := hn.page hname
    refine ⟨p, hp, rfl, ⟨hpn, hn.2⟩, fun q hq m hm hid => ?_⟩
    obtain ⟨hhold, hq⟩ := h.holds hq hm hid
    obtain he | he := hnames _ hq
    · exact he.le
    · rw [he] at hhold ⊢
      exact hle m hhold

/-- The loaded node of an id is that of its page that sorts last. -/
theorem mem_load_iff (h : Migrating sha256 F files) (n : GraphNode F) :
    (found (pages files)).reverse.lookup id = some n ↔
      (Holds files id (filename sha256 id) n ∧ ∀ m : GraphNode F,
        Holds files id (legacy sha256 id) m → legacy sha256 id ≤ filename sha256 id) ∨
      (Holds files id (legacy sha256 id) n ∧ ∀ m : GraphNode F,
        Holds files id (filename sha256 id) m → filename sha256 id ≤ legacy sha256 id) := by
  have hf := filename_suffix sha256 id
  have hl : ".md".toList.isSuffixOf (legacy sha256 id).toList = true := legacy_suffix id
  rw [lookup_found (pages_sorted h.distinct), ← h.last_iff (fun _ hs => hs) hf hl,
    ← h.last_iff (fun _ hs => hs.symm) hl hf]
  constructor
  · rintro ⟨p, hp, hn, hle⟩
    obtain ⟨-, hname | hname⟩ := h.holds hp hn.1 hn.2
    · exact .inl ⟨p, hp, hname, hn, hle⟩
    · exact .inr ⟨p, hp, hname, hn, hle⟩
  · rintro (⟨p, hp, -, hn, hle⟩ | ⟨p, hp, -, hn, hle⟩)
    · exact ⟨p, hp, hn, hle⟩
    · exact ⟨p, hp, hn, hle⟩

theorem decoded (h : Migrating sha256 F files) {name : String} {content : List Char}
    (hmd : ".md".toList.isSuffixOf name.toList = true) (hl : files.lookup name = some content) :
    decode (firstLine content) = .ok (nodeAt (F := F) files name) := by
  obtain ⟨n, hn⟩ := h.readable _ (mem_pages.2 ⟨Dict.lookup_mem hl, hmd⟩)
  rw [hn, nodeAt, hl, Option.bind_some, node_of_decode hn]

/-- A path gives the node that it holds of the id, and is passed over if there is no page, or only a
wrong one that is not the page with the name of the id. -/
theorem getFrom_iff (h : Migrating sha256 F files) {path canonical : String} {paths : List String}
    {n : GraphNode F} (hmd : ".md".toList.isSuffixOf path.toList = true) :
    getFrom files id canonical (path :: paths) = .ok (some n) ↔ Holds files id path n ∨
      ((files.lookup path = none ∨ path ≠ canonical ∧ ∀ m : GraphNode F, ¬ Holds files id path m) ∧
        getFrom files id canonical paths = .ok (some n)) := by
  rw [getFrom]
  cases hl : files.lookup path with
  | none =>
    have hnot : ¬ Holds files id path n := fun hn => by
      rw [Holds, nodeAt, hl] at hn
      cases hn.1
    exact ⟨fun hg => .inr ⟨.inl rfl, hg⟩, fun hg => (hg.resolve_left hnot).2⟩
  | some content =>
    have hsome : ¬ some content = none := Option.some_ne_none content
    dsimp only
    rw [h.decoded hmd hl]
    simp only [hsome, false_or, Holds]
    cases (nodeAt files path : Option (GraphNode F)) with
    | none =>
      dsimp only
      split
      · rename_i he
        exact ⟨fun hg => (by cases hg), fun hg => (hg.elim (fun hg => (by cases hg.1))
          fun hg => hg.1.1 he).elim⟩
      · rename_i hne
        exact ⟨fun hg => .inr ⟨⟨hne, fun m hm => (by cases hm.1)⟩, hg⟩, fun hg =>
          hg.elim (fun hg => (by cases hg.1)) fun hg => hg.2⟩
    | some m =>
      dsimp only
      by_cases hid : m.nodeId.1 = id
      · rw [if_pos hid]
        constructor
        · intro he
          cases he
          exact .inl ⟨rfl, hid⟩
        · rintro (⟨he, -⟩ | ⟨⟨-, hm⟩, -⟩)
          · cases he
            rfl
          · exact (hm m ⟨rfl, hid⟩).elim
      · have hnot (k : GraphNode F) : ¬ (some m = some k ∧ k.nodeId.1 = id) := by
          rintro ⟨he, hk⟩
          cases he
          exact hid hk
        rw [if_neg hid]
        split
        · rename_i he
          exact ⟨fun hg => (by cases hg), fun hg => (hg.elim (hnot n) fun hg => hg.1.1 he).elim⟩
        · rename_i hne
          exact ⟨fun hg => .inr ⟨⟨hne, hnot⟩, hg⟩, fun hg => (hg.resolve_left (hnot n)).2⟩

/-- What is looked up is the node of the page with the name of the id, or that of the legacy page if
there is no such page. -/
theorem getNode_iff (h : Migrating sha256 F files) (n : GraphNode F) :
    getNode sha256 files id = .ok (some n) ↔ Holds files id (filename sha256 id) n ∨
      (files.lookup (filename sha256 id) = none ∧ Holds files id (legacy sha256 id) n) := by
  have hnil {canonical : String} : ¬ getFrom files id canonical [] = .ok (some n) := by
    intro hg
    cases hg
  by_cases hb : Text.notBlank id.toList = true
  · rw [getNode, if_pos hb]
    obtain hc | ⟨hne, hc⟩ := candidates_cases sha256 id
    · have he : filename sha256 id = legacy sha256 id := by
        rw [candidates] at hc
        split at hc
        · assumption
        · cases hc
      rw [hc, h.getFrom_iff (filename_suffix sha256 id), ← he]
      refine or_congr_right ⟨fun hg => (hnil hg.2).elim, ?_⟩
      rintro ⟨hl, hn⟩
      rw [Holds, nodeAt, hl] at hn
      cases hn.1
    · have hself (P : Prop) : ¬ (filename sha256 id ≠ filename sha256 id ∧ P) := fun hp => hp.1 rfl
      have hlegacy : getFrom files id (filename sha256 id) [legacy sha256 id] = .ok (some n) ↔
          Holds files id (legacy sha256 id) n :=
        (h.getFrom_iff (legacy_suffix id)).trans (or_iff_left fun hg => hnil hg.2)
      rw [hc, h.getFrom_iff (filename_suffix sha256 id), or_iff_left (hself _), hlegacy]
  · have hnot {name : String} : ¬ Holds files id name n := fun hn => hb (hn.2 ▸ n.nodeId.2)
    rw [getNode, if_neg hb]
    exact ⟨fun he => (by cases he), fun he => (he.elim hnot fun he => hnot he.2).elim⟩

/-- Where the loaded nodes and the lookup agree. -/
theorem agrees_iff_same (h : Migrating sha256 F files) : Agrees sha256 F files id ↔
    ∀ n : GraphNode F, (found (pages files)).reverse.lookup id = some n ↔
      getNode sha256 files id = .ok (some n) := by
  obtain ⟨ns, hload, hns⟩ := loadAll_found h.readable
  have hid (n : GraphNode F) : (n ∈ ns ∧ n.nodeId.1 = id) ↔
      (found (pages files)).reverse.lookup id = some n := by
    rw [hns n]
    constructor
    · rintro ⟨hl, rfl⟩
      exact hl
    · intro hl
      have hn : n.nodeId.1 = id := by
        obtain ⟨⟨-, hn⟩, -⟩ | ⟨⟨-, hn⟩, -⟩ := (h.mem_load_iff n).1 hl
        · exact hn
        · exact hn
      rw [hn]
      exact ⟨hl, rfl⟩
  constructor
  · intro ha n
    obtain ⟨ns', hload', hns'⟩ := ha.loaded
    rw [hload] at hload'
    cases hload'
    rw [← hid n, hns' n]
  · intro hs
    refine ⟨⟨ns, hload, fun n => (hid n).trans (hs n)⟩, fun n hn he => ?_⟩
    exact (h.getNode_iff n).2 (.inl ⟨hn, he⟩)

theorem agrees_of_resolved (h : Migrating sha256 F files) (hne : ∀ bs, sha256 bs ≠ [])
    (hr : Resolved sha256 F files id) : Agrees sha256 F files id := by
  have hboth {n m : GraphNode F} (hn : Holds files id (filename sha256 id) n)
      (hm : Holds files id (legacy sha256 id) m) :
      n = m ∨ legacy sha256 id < filename sha256 id := by
    by_cases he : filename sha256 id = legacy sha256 id
    · rw [← he] at hm
      exact .inl (hn.unique hm)
    · exact (hr.newer n m hn.1 hn.2 hm.1 hm.2).imp_right (legacy_lt_iff hne (simple_of_ne he)).2
  rw [h.agrees_iff_same]
  intro n
  rw [h.mem_load_iff, h.getNode_iff]
  constructor
  · rintro (⟨hn, -⟩ | ⟨hn, hle⟩)
    · exact .inl hn
    · by_cases hc : ∃ m : GraphNode F, Holds files id (filename sha256 id) m
      · obtain ⟨m, hm⟩ := hc
        obtain rfl | hlt := hboth hm hn
        · exact .inl hm
        · exact absurd (hle m hm) (not_le.2 hlt)
      · exact .inr ⟨hr.free n hn.1 hn.2 fun m hm hid => hc ⟨m, hm, hid⟩, hn⟩
  · rintro (hn | ⟨hl, hn⟩)
    · by_cases hc : ∃ m : GraphNode F, Holds files id (legacy sha256 id) m ∧
          filename sha256 id < legacy sha256 id
      · obtain ⟨m, hm, hlt⟩ := hc
        obtain rfl | hlt' := hboth hn hm
        · exact .inr ⟨hm, fun _ _ => hlt.le⟩
        · exact absurd hlt (lt_asymm hlt')
      · exact .inl ⟨hn, fun m hm => not_lt.1 fun hlt => hc ⟨m, hm, hlt⟩⟩
    · refine .inr ⟨hn, fun m hm => ?_⟩
      rw [Holds, nodeAt, hl] at hm
      cases hm.1

theorem resolved_of_agrees (h : Migrating sha256 F files) (hne : ∀ bs, sha256 bs ≠ [])
    (ha : Agrees sha256 F files id) : Resolved sha256 F files id := by
  rw [h.agrees_iff_same] at ha
  constructor
  · intro n m hn hid hm hid'
    have hload := (ha n).2 ((h.getNode_iff n).2 (.inl ⟨hn, hid⟩))
    obtain ⟨-, hle⟩ | ⟨hn', -⟩ := (h.mem_load_iff n).1 hload
    · by_cases he : filename sha256 id = legacy sha256 id
      · rw [← he] at hm
        exact .inl (Holds.unique ⟨hn, hid⟩ ⟨hm, hid'⟩)
      · have hlt := lt_of_le_of_ne (hle m ⟨hm, hid'⟩) (Ne.symm he)
        exact .inr ((legacy_lt_iff hne (simple_of_ne he)).1 hlt)
    · exact .inl (hn'.unique ⟨hm, hid'⟩)
  · intro m hm hid hnone
    have hload := (h.mem_load_iff m).2
      (.inr ⟨⟨hm, hid⟩, fun n hn => (hnone n hn.1 hn.2).elim⟩)
    obtain ⟨hn, -⟩ | ⟨hl, -⟩ := (h.getNode_iff m).1 ((ha m).1 hload)
    · exact (hnone m hn hid).elim
    · exact hl

end Migrating

/-- A node on the page of its name and a node of the same id on its legacy page. -/
def both (sha256 : List UInt8 → List UInt8) (n m : GraphNode F) : Files :=
  [(filename sha256 n.nodeId, page n), (legacy sha256 n.nodeId, page m)]

theorem node_page {n : GraphNode F} (h : n.Plain) : node (page n) = some n :=
  node_of_decode (decode_page h)

theorem both_migrating {n m : GraphNode F} (hid : m.nodeId = n.nodeId) (hn : n.Plain)
    (hm : m.Plain) (hne : filename sha256 n.nodeId.1 ≠ legacy sha256 n.nodeId.1) :
    Migrating sha256 F (both sha256 n m) := by
  have hpages : ∀ p ∈ pages (both sha256 n m), ∃ k : GraphNode F,
      decode (firstLine p.2) = .ok (some k) ∧
        (p.1 = filename sha256 k.nodeId ∨ p.1 = legacy sha256 k.nodeId) := by
    intro p hp
    obtain rfl | hp := List.mem_cons.1 (mem_pages.1 hp).1
    · exact ⟨n, decode_page hn, .inl rfl⟩
    · rw [List.mem_singleton.1 hp]
      exact ⟨m, decode_page hm, .inr (by rw [hid])⟩
  refine ⟨?_, fun p hp => ?_, fun p hp k hk => ?_⟩
  · rw [Dict.Distinct]
    exact List.nodup_cons.2 ⟨fun hm => hne (List.mem_singleton.1 hm), List.nodup_singleton _⟩
  · obtain ⟨k, hd, -⟩ := hpages p hp
    exact ⟨some k, hd⟩
  · obtain ⟨k', hd, hname⟩ := hpages p hp
    rw [node_of_decode hd] at hk
    cases hk
    exact hname

theorem both_nodes {n m : GraphNode F} (hn : n.Plain) (hm : m.Plain)
    (hne : filename sha256 n.nodeId.1 ≠ legacy sha256 n.nodeId.1) :
    nodeAt (both sha256 n m) (filename sha256 n.nodeId) = some n ∧
      nodeAt (both sha256 n m) (legacy sha256 n.nodeId) = some m := by
  refine ⟨nodeAt_eq_some.2 ⟨_, List.lookup_cons_self, node_page hn⟩,
    nodeAt_eq_some.2 ⟨page m, ?_, node_page hm⟩⟩
  rw [both, List.lookup_cons, beq_false_of_ne hne.symm]
  exact List.lookup_cons_self

theorem knownDigest_ne_nil {known : List (String × String)}
    (hk : ∀ k ∈ known, bytesOfHex k.2.toList ≠ []) (bs : List UInt8) :
    knownDigest known bs ≠ [] := by
  rw [knownDigest]
  split
  · rename_i k hf
    exact hk k (List.mem_of_find?_eq_some hf)
  · exact List.append_ne_nil_of_right_ne_nil _ (by decide)

/-- In a root whose pages have the names or the legacy names of their ids, the loaded nodes and the
lookup of an id agree exactly if no page under its name is in the way of its legacy page, and the
legacy name sorts first wherever the two hold different nodes. -/
theorem agrees_iff (hne : ∀ bs, sha256 bs ≠ []) (h : Migrating sha256 F files) (id : String) :
    Agrees sha256 F files id ↔ Resolved sha256 F files id :=
  ⟨h.resolved_of_agrees hne, h.agrees_of_resolved hne⟩

end

/-- SHA-256 of two ids. -/
def overlapDigest : List UInt8 → List UInt8 := knownDigest [
  ("alpha", "8ed3f6ad685b959ead7022518e1af76cd816f8e8ec7ccdda1ed4018e8f2223f8"),
  ("a-", "9baf4407202e5b0e02fc11cb6a392bc5c4397e0fe2e582c4eae5e4bcc7c6eb49")]

theorem overlapDigest_ne_nil (bs : List UInt8) : overlapDigest bs ≠ [] :=
  knownDigest_ne_nil (by decide) bs

/-- A node with a summary. -/
def summarized (id : NonBlank) (summary : String) : GraphNode WholeFloat :=
  { bare id with summary }

/-- A node that was saved again wins over its legacy page. -/
theorem agrees_alpha :
    Agrees overlapDigest WholeFloat
      (both overlapDigest (summarized ⟨"alpha", by decide⟩ "new")
        (summarized ⟨"alpha", by decide⟩ "old")) "alpha" := by
  have hne : filename overlapDigest "alpha" ≠ legacy overlapDigest "alpha" := by decide +kernel
  have hm := both_migrating (F := WholeFloat) (n := summarized ⟨"alpha", by decide⟩ "new")
    (m := summarized ⟨"alpha", by decide⟩ "old") rfl ⟨"", rfl⟩ ⟨"", rfl⟩ hne
  have hn := both_nodes (F := WholeFloat) (n := summarized ⟨"alpha", by decide⟩ "new")
    (m := summarized ⟨"alpha", by decide⟩ "old") ⟨"", rfl⟩ ⟨"", rfl⟩ hne
  refine (agrees_iff overlapDigest_ne_nil hm "alpha").2 ⟨?_, ?_⟩
  · exact fun _ _ _ _ _ _ => .inr (.inl (by decide))
  · exact fun k _ _ hk => (hk _ hn.1 rfl).elim

/-- The page of an id that ends in a hyphen sorts before its legacy page. -/
theorem hyphen_outdated :
    ∃ n m : GraphNode WholeFloat, n.nodeId.1 = "a-" ∧ m.nodeId.1 = "a-" ∧
      Migrating overlapDigest WholeFloat (both overlapDigest n m) ∧
      ¬ Agrees overlapDigest WholeFloat (both overlapDigest n m) "a-" := by
  have hne : filename overlapDigest "a-" ≠ legacy overlapDigest "a-" := by decide +kernel
  have hm := both_migrating (F := WholeFloat) (n := summarized ⟨"a-", by decide⟩ "new")
    (m := summarized ⟨"a-", by decide⟩ "old") rfl ⟨"", rfl⟩ ⟨"", rfl⟩ hne
  have hn := both_nodes (F := WholeFloat) (n := summarized ⟨"a-", by decide⟩ "new")
    (m := summarized ⟨"a-", by decide⟩ "old") ⟨"", rfl⟩ ⟨"", rfl⟩ hne
  refine ⟨summarized ⟨"a-", by decide⟩ "new", summarized ⟨"a-", by decide⟩ "old", rfl, rfl, hm,
    fun ha => ?_⟩
  have hr := (hm.resolved_of_agrees overlapDigest_ne_nil ha).newer _ _ hn.1 rfl hn.2 rfl
  obtain he | hfirst := hr
  · have hs := congrArg GraphNode.summary he
    exact absurd hs (by decide)
  · obtain ht | ht | ⟨-, -, -, hp⟩ := hfirst
    · exact absurd ht (by decide)
    · exact absurd ht (by decide)
    · exact absurd hp.length_le (by decide)

end Obase.GraphStorage
