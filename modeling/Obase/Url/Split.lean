import Obase.Casing
import Obase.Url.Quote

namespace Obase.Url
set_option autoImplicit true

/-- What `urllib.parse` takes from the Unicode database, the UTF-8 codec and `ipaddress`: `decode`
replaces what is not UTF-8, `isIpLiteral` is the check of a host in brackets, and
`hidesDelimiter` says of a character that its NFKC form has one of `/?#@:`. -/
structure UrlText extends Casing where
  decode : List UInt8 → List Char
  isIpLiteral : List Char → Bool
  hidesDelimiter : Char → Bool
  decode_utf8 : ∀ cs : List Char, decode (utf8 cs) = cs
  isIpLiteral_head : ∀ h : List Char, isIpLiteral h = true → h.head? ≠ some '['
  isIpLiteral_lower : ∀ h t : List Char, isIpLiteral (h ++ t) = true →
    isIpLiteral (toCasing.lower h ++ t) = true
  hidesDelimiter_ascii : ∀ c : Char, c.toNat < 128 →
    hidesDelimiter c = decide (c ∈ ['/', '?', '#', '@', ':'])
  hidesDelimiter_lowerAt : ∀ (before : List Char) (c : Char) (after : List Char),
    ∀ x ∈ lowerAt before c after, hidesDelimiter x = true → x = c

/-- The mappings of the ASCII characters alone, and no addresses. -/
def UrlText.ascii : UrlText where
  toCasing := Casing.ascii
  decode := decodeUtf8
  isIpLiteral _ := false
  hidesDelimiter c := decide (c ∈ ['/', '?', '#', '@', ':'])
  decode_utf8 := decodeUtf8_utf8
  isIpLiteral_head _ h := nomatch h
  isIpLiteral_lower _ _ h := nomatch h
  hidesDelimiter_ascii _ _ := rfl
  hidesDelimiter_lowerAt _ c _ x h hx := by
    rcases Casing.toLower_eq_or_isLower c with hc | hc
    · rw [List.mem_singleton.1 h, hc]
    · have hf : x.isLower = false :=
        Text.forall_mem_of_all (P := fun c => c.isLower = false) (by decide) x
          (of_decide_eq_true hx)
      rw [List.mem_singleton.1 h, hc] at hf
      cases hf

structure SplitResult where
  scheme : List Char
  netloc : List Char
  path : List Char
  query : List Char
  fragment : List Char
deriving DecidableEq

def isSchemeChar (c : Char) : Bool := c.isAlphanum || c ∈ ['+', '-', '.']

/-- What `urlsplit` makes of the text first: control characters and blanks are dropped at its
start, tabs and line ends everywhere. -/
def cleaned (url : List Char) : List Char :=
  (url.dropWhile fun c => decide (c.toNat ≤ 0x20)).filter fun c =>
    decide (c ∉ ['\t', '\r', '\n'])

def splitScheme (url : List Char) : List Char × List Char :=
  if ':' ∈ url ∧ (partition ':' url).1.head?.any Char.isAlpha ∧
      (partition ':' url).1.all isSchemeChar then
    ((partition ':' url).1.map Char.toLower, (partition ':' url).2)
  else ([], url)

def isNetlocChar (c : Char) : Bool := c ∉ ['/', '?', '#']

def splitNetloc : List Char → List Char × List Char
  | '/' :: '/' :: url => (url.takeWhile isNetlocChar, url.dropWhile isNetlocChar)
  | url => ([], url)

/-- The components of a cleaned text. -/
def components (url : List Char) : SplitResult :=
  let (scheme, url) := splitScheme url
  let (netloc, url) := splitNetloc url
  let (url, fragment) := partition '#' url
  let (path, query) := partition '?' url
  ⟨scheme, netloc, path, query, fragment⟩

/-- `netloc.rpartition('@')[2]`. -/
def hostPort (netloc : List Char) : List Char := netloc.rtakeWhile (· ≠ '@')

def checkBracketedNetloc (U : UrlText) (netloc : List Char) : Bool :=
  if '[' ∈ hostPort netloc then
    let (before, bracketed) := partition '[' (hostPort netloc)
    let (hostname, port) := partition ']' bracketed
    before.isEmpty && (port.isEmpty || port.head? == some ':') && U.isIpLiteral hostname
  else U.isIpLiteral (partition ':' (hostPort netloc)).1

/-- `_checknetloc`. -/
def checkNetloc (U : UrlText) (netloc : List Char) : Bool :=
  netloc.all isAscii ||
    (netloc.filter fun c => decide (c ∉ ['@', ':', '#', '?'])).all fun c => !U.hidesDelimiter c

/-- The checks of `urlsplit`. -/
def validNetloc (U : UrlText) (netloc : List Char) : Bool :=
  (decide ('[' ∈ netloc) == decide (']' ∈ netloc)) &&
    (decide ('[' ∉ netloc) || checkBracketedNetloc U netloc) && checkNetloc U netloc

/-- `urlsplit`, `none` for a `ValueError`. -/
def urlsplit (U : UrlText) (url : List Char) : Option SplitResult :=
  let parts := components (cleaned url)
  if validNetloc U parts.netloc then some parts else none

/-- The host and the port as they are written in the netloc. -/
def hostinfo (netloc : List Char) : List Char × List Char :=
  if '[' ∈ hostPort netloc then
    let (hostname, rest) := partition ']' (partition '[' (hostPort netloc)).2
    (hostname, (partition ':' rest).2)
  else partition ':' (hostPort netloc)

/-- The host of a netloc in lower case, but for the zone of an address. -/
def hostname (U : UrlText) (netloc : List Char) : Option (List Char) :=
  let host := (hostinfo netloc).1
  if host = [] then none
  else some (U.lower (host.takeWhile (· ≠ '%')) ++ host.dropWhile (· ≠ '%'))

/-- `int` of ASCII digits. -/
def portNumber (digits : List Char) : Nat := Nat.ofDigitChars 10 digits 0

/-- The port of a netloc, if any; the outer `none` is a `ValueError`. -/
def port (netloc : List Char) : Option (Option Nat) :=
  let text := (hostinfo netloc).2
  if text = [] then some none
  else if text.all Char.isDigit ∧ portNumber text ≤ 65535 then some (some (portNumber text))
  else none

/-- The schemes of `uses_netloc`. -/
def usesNetloc : List (List Char) :=
  ["ftp".toList, "http".toList, "gopher".toList, "nntp".toList, "telnet".toList,
    "imap".toList, "wais".toList, "file".toList, "mms".toList, "https".toList, "shttp".toList,
    "snews".toList, "prospero".toList, "rtsp".toList, "rtsps".toList, "rtspu".toList,
    "rsync".toList, "svn".toList, "svn+ssh".toList, "sftp".toList, "nfs".toList, "git".toList,
    "git+ssh".toList, "ws".toList, "wss".toList, "itms-services".toList]

/-- The netloc and the path of a URL, as Python 3.12.4 and later join them. -/
def hierarchical (scheme netloc path : List Char) : List Char :=
  if netloc ≠ [] then
    '/' :: '/' :: netloc ++ if path ≠ [] ∧ path.head? ≠ some '/' then '/' :: path else path
  else if ['/', '/'].isPrefixOf path then '/' :: '/' :: path
  else if scheme ∈ usesNetloc ∧ (path = [] ∨ path.head? = some '/') then '/' :: '/' :: path
  else path

/-- A text after its mark, if there is one. -/
def marked (mark : Char) (text : List Char) : List Char := if text = [] then [] else mark :: text

def urlunsplit (parts : SplitResult) : List Char :=
  let url := hierarchical parts.scheme parts.netloc parts.path
  (if parts.scheme ≠ [] then parts.scheme ++ ':' :: url else url) ++ marked '?' parts.query ++
    marked '#' parts.fragment

/-- Components that stand for themselves in the text that they are joined to. -/
structure Separate (p : SplitResult) : Prop where
  scheme_head : p.scheme.head?.any Char.isAlpha = true
  scheme_chars : p.scheme.all isSchemeChar = true
  scheme_lower : p.scheme.map Char.toLower = p.scheme
  netloc : ∀ c ∈ p.netloc, isNetlocChar c = true
  path : '?' ∉ p.path ∧ '#' ∉ p.path
  query : '#' ∉ p.query
  fragment : p.fragment = []
  rooted : p.netloc ≠ [] → p.path = [] ∨ p.path.head? = some '/'

theorem colon_not_schemeChar : isSchemeChar ':' = false := by decide

theorem splitScheme_append {scheme : List Char} (hh : scheme.head?.any Char.isAlpha = true)
    (hc : scheme.all isSchemeChar = true) (hl : scheme.map Char.toLower = scheme)
    (url : List Char) : splitScheme (scheme ++ ':' :: url) = (scheme, url) := by
  have hn : ':' ∉ scheme := by
    intro hm
    have hs := List.all_eq_true.1 hc ':' hm
    rw [colon_not_schemeChar] at hs
    cases hs
  rw [splitScheme, partition_append hn, if_pos ⟨by simp, hh, hc⟩, hl]

theorem marked_nil (mark : Char) : marked mark [] = [] := rfl

theorem marked_of_ne {text : List Char} (h : text ≠ []) (mark : Char) :
    marked mark text = mark :: text :=
  if_neg h

/-- What follows a netloc begins with a character that no netloc has. -/
theorem netloc_ends (netloc : List Char) {rest : List Char} (hn : ∀ c ∈ netloc, isNetlocChar c = true)
    (hr : ∀ c ∈ rest.head?, isNetlocChar c = false) :
    (netloc ++ rest).takeWhile isNetlocChar = netloc ∧
      (netloc ++ rest).dropWhile isNetlocChar = rest := by
  rw [List.takeWhile_append_of_pos hn, List.dropWhile_append_of_pos hn]
  cases rest with
  | nil => exact ⟨List.append_nil netloc, rfl⟩
  | cons c rest =>
    have hc : ¬ isNetlocChar c = true := by simp [hr c rfl]
    rw [List.takeWhile_cons_of_neg hc, List.dropWhile_cons_of_neg hc, List.append_nil]
    exact ⟨rfl, rfl⟩

theorem head_path_query {path : List Char} (query : List Char) (h : path = [] ∨ path.head? = some '/') :
    ∀ c ∈ (path ++ marked '?' query).head?, isNetlocChar c = false := by
  intro c hc
  rcases h with rfl | h
  · rw [marked] at hc
    split at hc
    · cases hc
    · cases hc
      rfl
  · cases path with
    | nil => cases h
    | cons d path =>
      cases h
      cases hc
      rfl

theorem splitNetloc_hierarchical {p : SplitResult} (h : Separate p) :
    splitNetloc (hierarchical p.scheme p.netloc p.path ++ marked '?' p.query) =
      (p.netloc, p.path ++ marked '?' p.query) := by
  rw [hierarchical]
  by_cases hn : p.netloc = []
  · rw [if_neg (not_not.2 hn), hn]
    by_cases hp : ['/', '/'].isPrefixOf p.path = true
    · rw [if_pos hp]
      obtain ⟨t, ht⟩ := List.isPrefixOf_iff_prefix.1 hp
      have hh : p.path.head? = some '/' := by
        rw [← ht]
        rfl
      have hr := head_path_query p.query (.inr hh)
      exact Prod.ext (netloc_ends [] (by simp) hr).1
        (netloc_ends [] (by simp) hr).2
    · rw [if_neg hp]
      split
      · rename_i hf
        have hd := netloc_ends [] (by simp) (head_path_query p.query hf.2)
        exact Prod.ext hd.1 hd.2
      · rw [splitNetloc]
        intro url he
        apply hp
        cases hpath : p.path with
        | nil =>
          rw [hpath, List.nil_append, marked] at he
          split at he
          · cases he
          · injection he with hc _
            exact absurd hc (by decide)
        | cons c path =>
          rw [hpath, List.cons_append] at he
          injection he with hc he
          cases path with
          | nil =>
            rw [List.nil_append, marked] at he
            split at he
            · cases he
            · injection he with hd _
              exact absurd hd (by decide)
          | cons d path =>
            injection he with hd _
            rw [hc, hd]
            rfl
  · have hr := h.rooted hn
    have hpath : ¬ (p.path ≠ [] ∧ p.path.head? ≠ some '/') := by tauto
    rw [if_pos hn, if_neg hpath]
    have hd := netloc_ends p.netloc h.netloc (head_path_query p.query hr)
    rw [← List.append_assoc] at hd
    exact Prod.ext hd.1 hd.2

/-- Components are found again in the text that they are joined to. -/
theorem components_urlunsplit {p : SplitResult} (h : Separate p) :
    components (urlunsplit p) = p := by
  have hs : p.scheme ≠ [] := by
    intro he
    have hh := h.scheme_head
    rw [he] at hh
    cases hh
  have hu : urlunsplit p = p.scheme ++ ':' ::
      (hierarchical p.scheme p.netloc p.path ++ marked '?' p.query) := by
    rw [urlunsplit, h.fragment, marked_nil, List.append_nil, if_pos hs]
    simp
  have hhash : '#' ∉ p.path ++ marked '?' p.query := by
    rw [List.mem_append, not_or]
    refine ⟨h.path.2, ?_⟩
    rw [marked]
    split
    · simp
    · simp [h.query]
  have hquery : partition '?' (p.path ++ marked '?' p.query) = (p.path, p.query) := by
    by_cases hq : p.query = []
    · rw [hq, marked_nil, List.append_nil, partition_of_not_mem h.path.1]
    · rw [marked_of_ne hq, partition_append h.path.1]
  rw [hu, components, splitScheme_append h.scheme_head h.scheme_chars h.scheme_lower]
  dsimp only
  rw [splitNetloc_hierarchical h]
  dsimp only
  rw [partition_of_not_mem hhash]
  dsimp only
  rw [hquery, ← h.fragment]

theorem splitScheme_suffix (url : List Char) : (splitScheme url).2 <:+ url := by
  rw [splitScheme]
  split
  · exact partition_snd_suffix ':' url
  · exact List.suffix_rfl

theorem splitNetloc_suffix (url : List Char) :
    (splitNetloc url).1 ++ (splitNetloc url).2 <:+ url := by
  unfold splitNetloc
  split
  · rename_i rest
    rw [List.takeWhile_append_dropWhile]
    exact ⟨['/', '/'], rfl⟩
  · exact List.suffix_rfl

theorem splitNetloc_chars (url : List Char) : ∀ c ∈ (splitNetloc url).1, isNetlocChar c = true := by
  unfold splitNetloc
  split
  · exact fun c hc => List.mem_takeWhile_imp hc
  · exact fun c hc => (nomatch hc)

theorem splitNetloc_ends (url : List Char) (h : (splitNetloc url).1 ≠ []) :
    ∀ c ∈ (splitNetloc url).2.head?, isNetlocChar c = false := by
  unfold splitNetloc at h ⊢
  split
  · rename_i rest
    intro c hc
    have hd := List.head?_dropWhile_not isNetlocChar rest
    rw [Option.mem_def.1 hc] at hd
    exact hd
  · rename_i hs
    split at h
    · exact (hs _ rfl).elim
    · exact (h rfl).elim

/-- What follows the netloc of a text, without the fragment. -/
def pathQuery (url : List Char) : List Char :=
  (partition '#' (splitNetloc (splitScheme url).2).2).1

theorem components_path_eq (url : List Char) :
    (components url).path = (partition '?' (pathQuery url)).1 := rfl

theorem components_query_eq (url : List Char) :
    (components url).query = (partition '?' (pathQuery url)).2 := rfl

theorem pathQuery_no_hash (url : List Char) : '#' ∉ pathQuery url :=
  not_mem_partition_fst '#' _

theorem components_path (url : List Char) :
    '?' ∉ (components url).path ∧ '#' ∉ (components url).path :=
  ⟨not_mem_partition_fst '?' _, fun hm =>
    pathQuery_no_hash url ((partition_fst_initial '?' _).subset hm)⟩

theorem components_query (url : List Char) : '#' ∉ (components url).query :=
  fun hm => pathQuery_no_hash url ((partition_snd_suffix '?' _).subset hm)

theorem components_netloc (url : List Char) :
    ∀ c ∈ (components url).netloc, isNetlocChar c = true :=
  splitNetloc_chars _

theorem components_rooted (url : List Char) (h : (components url).netloc ≠ []) :
    (components url).path = [] ∨ (components url).path.head? = some '/' := by
  have he : ∀ c ∈ (splitNetloc (splitScheme url).2).2.head?, isNetlocChar c = false :=
    splitNetloc_ends _ h
  rw [components_path_eq, pathQuery]
  cases hr : (splitNetloc (splitScheme url).2).2 with
  | nil => exact .inl rfl
  | cons c rest =>
    rw [hr] at he
    have hc := he c rfl
    simp only [isNetlocChar, List.mem_cons, List.not_mem_nil, or_false, decide_eq_false_iff_not,
      not_not] at hc
    rcases hc with rfl | rfl | rfl
    · exact .inr rfl
    · exact .inl rfl
    · exact .inl rfl

theorem netloc_pathQuery_mem {url : List Char} {c : Char}
    (h : c ∈ (components url).netloc ++ pathQuery url) : c ∈ url := by
  apply (splitScheme_suffix url).subset
  apply (splitNetloc_suffix _).subset
  rcases List.mem_append.1 h with h | h
  · exact List.mem_append_left _ h
  · exact List.mem_append_right _ ((partition_fst_initial '#' _).subset h)

theorem components_mem {url : List Char} {c : Char}
    (h : c ∈ (components url).netloc ++ (components url).path ++ (components url).query) :
    c ∈ url := by
  apply netloc_pathQuery_mem
  rcases List.mem_append.1 h with h | h
  · rcases List.mem_append.1 h with h | h
    · exact List.mem_append_left _ h
    · exact List.mem_append_right _ ((partition_fst_initial '?' _).subset h)
  · exact List.mem_append_right _ ((partition_snd_suffix '?' _).subset h)

theorem mark_of_components_query {url : List Char} (h : (components url).query ≠ []) :
    '?' ∈ url := by
  apply netloc_pathQuery_mem
  apply List.mem_append_right
  by_contra hn
  apply h
  rw [components_query_eq, partition_of_not_mem hn]

theorem getLast?_of_suffix {x y : List Char} (h : x <:+ y) (hx : x ≠ []) :
    x.getLast? = y.getLast? := by
  obtain ⟨t, rfl⟩ := h
  rw [List.getLast?_append_of_ne_nil _ hx]

/-- A text without a fragment ends with the last of its components. -/
theorem components_getLast {url : List Char} (hf : '#' ∉ url)
    (hq : (components url).query = [] → '?' ∉ url)
    (hne : (components url).netloc ++ (components url).path ++ (components url).query ≠ []) :
    ((components url).netloc ++ (components url).path ++ (components url).query).getLast? =
      url.getLast? := by
  have hsuf := (splitNetloc_suffix _).trans (splitScheme_suffix url)
  have hrest : pathQuery url = (splitNetloc (splitScheme url).2).2 := by
    rw [pathQuery, partition_of_not_mem]
    exact fun hm => hf (hsuf.subset (List.mem_append_right _ hm))
  rw [← hrest] at hsuf
  by_cases hquery : (components url).query = []
  · have hpath : (components url).path = pathQuery url := by
      rw [components_path_eq, partition_of_not_mem]
      exact fun hm => hq hquery (hsuf.subset (List.mem_append_right _ hm))
    rw [hquery, List.append_nil, hpath] at hne ⊢
    exact getLast?_of_suffix hsuf hne
  · have hs : (components url).query <:+ url := by
      have hp : (components url).query <:+ pathQuery url := partition_snd_suffix '?' _
      exact hp.trans ((List.suffix_append _ _).trans hsuf)
    rw [List.getLast?_append_of_ne_nil _ hquery]
    exact getLast?_of_suffix hs hquery

theorem mem_urlunsplit {p : SplitResult} (hf : p.fragment = []) {c : Char}
    (h : c ∈ urlunsplit p) :
    c ∈ p.scheme ∨ c ∈ p.netloc ++ p.path ++ p.query ∨ c = ':' ∨ c = '/' ∨
      (c = '?' ∧ p.query ≠ []) := by
  have hh : ∀ c ∈ hierarchical p.scheme p.netloc p.path, c ∈ p.netloc ++ p.path ∨ c = '/' := by
    intro c hc
    rw [hierarchical] at hc
    split_ifs at hc <;> simp only [List.cons_append, List.mem_cons, List.mem_append] at hc ⊢ <;>
      tauto
  have hq : ∀ c ∈ marked '?' p.query, c ∈ p.query ∨ (c = '?' ∧ p.query ≠ []) := by
    intro c hc
    by_cases hn : p.query = []
    · rw [hn] at hc
      cases hc
    · rw [marked_of_ne hn] at hc
      rcases List.mem_cons.1 hc with he | hc
      · exact .inr ⟨he, hn⟩
      · exact .inl hc
  have hs : c ∈ p.scheme ∨ c = ':' ∨ c ∈ hierarchical p.scheme p.netloc p.path ∨
      c ∈ marked '?' p.query := by
    rw [urlunsplit, hf, marked_nil, List.append_nil] at h
    split_ifs at h <;> simp only [List.mem_append, List.mem_cons] at h <;> tauto
  rcases hs with hs | hs | hs | hs
  · exact .inl hs
  · exact .inr (.inr (.inl hs))
  · rcases hh c hs with hs | hs
    · exact .inr (.inl (List.mem_append_left _ hs))
    · exact .inr (.inr (.inr (.inl hs)))
  · rcases hq c hs with hs | hs
    · exact .inr (.inl (List.mem_append_right _ hs))
    · exact .inr (.inr (.inr (.inr hs)))

theorem Separate.no_hash {p : SplitResult} (h : Separate p) : '#' ∉ urlunsplit p := by
  intro hm
  rcases mem_urlunsplit h.fragment hm with hm | hm | hm | hm | hm
  · exact absurd (List.all_eq_true.1 h.scheme_chars _ hm) (by decide)
  · rcases List.mem_append.1 hm with hm | hm
    · rcases List.mem_append.1 hm with hm | hm
      · exact absurd (h.netloc _ hm) (by decide)
      · exact h.path.2 hm
    · exact h.query hm
  · exact absurd hm (by decide)
  · exact absurd hm (by decide)
  · exact absurd hm.1 (by decide)

theorem Separate.no_mark {p : SplitResult} (h : Separate p) (hq : p.query = []) :
    '?' ∉ urlunsplit p := by
  intro hm
  rcases mem_urlunsplit h.fragment hm with hm | hm | hm | hm | hm
  · exact absurd (List.all_eq_true.1 h.scheme_chars _ hm) (by decide)
  · rw [hq, List.append_nil] at hm
    rcases List.mem_append.1 hm with hm | hm
    · exact absurd (h.netloc _ hm) (by decide)
    · exact h.path.1 hm
  · exact absurd hm (by decide)
  · exact absurd hm (by decide)
  · exact hm.2 hq

/-- The text ends in one of its components, or in `:` or `/` where they are all empty. -/
theorem Separate.getLast {p : SplitResult} (h : Separate p) :
    (urlunsplit p).getLast? = (p.netloc ++ p.path ++ p.query).getLast? ∨
      (p.netloc ++ p.path ++ p.query = [] ∧
        ((urlunsplit p).getLast? = some ':' ∨ (urlunsplit p).getLast? = some '/')) := by
  by_cases hne : p.netloc ++ p.path ++ p.query = []
  · refine .inr ⟨hne, ?_⟩
    rw [List.append_eq_nil_iff, List.append_eq_nil_iff] at hne
    obtain ⟨⟨hn, hp⟩, hq⟩ := hne
    have hs : p.scheme ≠ [] := by
      intro he
      have hh := h.scheme_head
      rw [he] at hh
      cases hh
    rw [urlunsplit, hierarchical, h.fragment, hn, hp, hq, marked_nil, marked_nil, if_pos hs,
      if_neg (by simp), if_neg (by simp)]
    split
    · exact .inr (by simp)
    · exact .inl (by simp)
  · apply Or.inl
    have hc := components_getLast h.no_hash
    rw [components_urlunsplit h] at hc
    exact (hc h.no_mark hne).symm

theorem Separate.head {p : SplitResult} (h : Separate p) :
    ∃ c, (urlunsplit p).head? = some c ∧ c.isAlpha = true := by
  have hh := h.scheme_head
  cases hs : p.scheme with
  | nil =>
    rw [hs] at hh
    cases hh
  | cons c scheme =>
    rw [hs] at hh
    refine ⟨c, ?_, hh⟩
    rw [urlunsplit, hs, if_pos (by simp)]
    rfl

theorem isAlpha_spec {c : Char} (h : c.isAlpha = true) :
    Text.isSpace c = false ∧ ¬ c.toNat ≤ 0x20 := by
  have hq : isQuoted c = true := by
    rw [isQuoted, Char.isAlphanum, h, Bool.true_or, Bool.true_or]
  have hs : c.isAlpha = true → Text.isSpace c = false ∧ ¬ c.toNat ≤ 0x20 :=
    Text.forall_ascii (P := fun c => c.isAlpha = true → Text.isSpace c = false ∧ ¬ c.toNat ≤ 0x20)
      (by decide +kernel) (ascii_of_quoted hq)
  exact hs h

theorem cleaned_clean (url : List Char) : ∀ c ∈ cleaned url, c ∉ ['\t', '\r', '\n'] :=
  fun _ hc => of_decide_eq_true (List.mem_filter.1 hc).2

theorem cleaned_of_clean {url : List Char} {c : Char} (hh : url.head? = some c)
    (hc : c.isAlpha = true) (hu : ∀ c ∈ url, c ∉ ['\t', '\r', '\n']) : cleaned url = url := by
  cases url with
  | nil => cases hh
  | cons d url =>
    cases hh
    rw [cleaned, List.dropWhile_cons_of_neg (by simpa using (isAlpha_spec hc).2),
      List.filter_eq_self]
    exact fun d hd => decide_eq_true (hu d hd)

variable {U : UrlText}

theorem hostPort_of_no_at {netloc : List Char} (h : '@' ∉ netloc) : hostPort netloc = netloc := by
  rw [hostPort, List.rtakeWhile_eq_self_iff]
  intro c hc
  simp only [ne_eq, decide_not, Bool.not_eq_true', decide_eq_false_iff_not]
  rintro rfl
  exact h hc

theorem hostinfo_plain {netloc : List Char} (ha : '@' ∉ netloc) (hb : '[' ∉ netloc) :
    hostinfo netloc = partition ':' netloc := by
  rw [hostinfo, hostPort_of_no_at ha, if_neg hb]

theorem hostinfo_bracketed {host rest : List Char} (ha : '@' ∉ '[' :: (host ++ ']' :: rest))
    (hr : ']' ∉ host) :
    hostinfo ('[' :: (host ++ ']' :: rest)) = (host, (partition ':' rest).2) := by
  have hp : partition '[' ('[' :: (host ++ ']' :: rest)) = ([], host ++ ']' :: rest) :=
    partition_append (x := []) (by simp) _
  rw [hostinfo, hostPort_of_no_at ha, if_pos (.head _), hp, partition_append hr]

theorem validNetloc_plain {netloc : List Char} (ho : '[' ∉ netloc) (hc : ']' ∉ netloc) :
    validNetloc U netloc = checkNetloc U netloc := by
  simp [validNetloc, ho, hc]

theorem validNetloc_bracketed {host rest : List Char} (ha : '@' ∉ '[' :: (host ++ ']' :: rest))
    (hr : ']' ∉ host) : validNetloc U ('[' :: (host ++ ']' :: rest)) = true ↔
      (rest = [] ∨ rest.head? = some ':') ∧ U.isIpLiteral host = true ∧
        checkNetloc U ('[' :: (host ++ ']' :: rest)) = true := by
  have hp : partition '[' ('[' :: (host ++ ']' :: rest)) = ([], host ++ ']' :: rest) :=
    partition_append (x := []) (by simp) _
  have hb : checkBracketedNetloc U ('[' :: (host ++ ']' :: rest)) =
      ((rest.isEmpty || rest.head? == some ':') && U.isIpLiteral host) := by
    rw [checkBracketedNetloc, hostPort_of_no_at ha, if_pos (.head _), hp]
    dsimp only
    rw [partition_append hr]
    rfl
  rw [validNetloc, hb]
  simp [and_assoc]

/-- A netloc with a bracket that `urlsplit` accepts is an address in brackets and what follows. -/
theorem bracketed_of_valid {netloc : List Char} (ha : '@' ∉ netloc) (hm : '[' ∈ netloc)
    (hv : validNetloc U netloc = true) :
    ∃ host rest, netloc = '[' :: (host ++ ']' :: rest) ∧ ']' ∉ host := by
  simp only [validNetloc, Bool.and_eq_true, Bool.or_eq_true, beq_iff_eq, decide_eq_decide,
    decide_eq_true_eq] at hv
  obtain ⟨⟨hboth, hb⟩, -⟩ := hv
  replace hb := hb.resolve_left (not_not.2 hm)
  rw [checkBracketedNetloc, hostPort_of_no_at ha, if_pos hm] at hb
  obtain ⟨hs, -⟩ := partition_of_mem hm
  have hbefore : (partition '[' netloc).1 = [] := by
    simp only [Bool.and_eq_true, List.isEmpty_iff] at hb
    exact hb.1.1
  rw [hbefore, List.nil_append] at hs
  have hclose : ']' ∈ (partition '[' netloc).2 := by
    have hc := hboth.1 hm
    rw [hs] at hc
    exact (List.mem_cons.1 hc).resolve_left (by decide)
  obtain ⟨hs', hn⟩ := partition_of_mem hclose
  rw [hs'] at hs
  exact ⟨_, _, hs, hn⟩

/-- The host of a netloc after `hostname.lower()`. -/
def lowerHost (U : UrlText) (host : List Char) : List Char :=
  U.lower (U.lower (host.takeWhile (· ≠ '%')) ++ host.dropWhile (· ≠ '%'))

theorem hostname_eq_some {netloc name : List Char} (h : hostname U netloc = some name) :
    (hostinfo netloc).1 ≠ [] ∧ U.lower name = lowerHost U (hostinfo netloc).1 := by
  rw [hostname] at h
  split at h
  · cases h
  · rename_i hne
    cases h
    exact ⟨hne, rfl⟩

theorem hostname_of_ne_nil {netloc : List Char} (h : (hostinfo netloc).1 ≠ []) :
    ∃ name, hostname U netloc = some name ∧ U.lower name = lowerHost U (hostinfo netloc).1 := by
  rw [hostname, if_neg h]
  exact ⟨_, rfl, rfl⟩

theorem lowerHost_lowered {host : List Char} : ∀ c ∈ lowerHost U host, U.Lowered c :=
  fun _ hc => U.lowered_of_mem hc

theorem lowerHost_lowerHost (host : List Char) :
    lowerHost U (lowerHost U host) = lowerHost U host := by
  have ht : ∀ c ∈ (lowerHost U host).takeWhile (· ≠ '%'), U.Lowered c := fun c hc =>
    lowerHost_lowered c ((List.takeWhile_prefix _).subset hc)
  rw [lowerHost, U.lower_of_lowered ht, List.takeWhile_append_dropWhile,
    U.lower_of_lowered lowerHost_lowered]

theorem lowerHost_ne_nil {host : List Char} (h : host ≠ []) : lowerHost U host ≠ [] := by
  apply U.lower_ne_nil
  intro hn
  rw [List.append_eq_nil_iff] at hn
  apply h
  rw [← List.takeWhile_append_dropWhile (p := (· ≠ '%')) (l := host), hn.2, List.append_nil]
  by_contra hne
  exact U.lower_ne_nil hne hn.1

theorem mem_of_mem_lowerHost {host : List Char} {c : Char} (h : c ∈ lowerHost U host)
    (hc : c.toNat < 128) (hl : c.isLower = false) : c ∈ host := by
  rw [← List.takeWhile_append_dropWhile (p := (· ≠ '%')) (l := host)]
  rcases List.mem_append.1 (U.mem_lower_ascii h hc hl) with h | h
  · exact List.mem_append_left _ (U.mem_lower_ascii h hc hl)
  · exact List.mem_append_right _ h

theorem mem_lowerHost_of_mem {host : List Char} {c : Char} (h : c ∈ host)
    (hc : c.toNat < 128) (hl : c.toLower = c) : c ∈ lowerHost U host := by
  rw [← List.takeWhile_append_dropWhile (p := (· ≠ '%')) (l := host)] at h
  rw [lowerHost, ← hl]
  apply U.mem_lower_of_ascii _ hc
  rcases List.mem_append.1 h with h | h
  · apply List.mem_append_left
    rw [← hl]
    exact U.mem_lower_of_ascii h hc
  · exact List.mem_append_right _ h

theorem isIpLiteral_lowerHost {host : List Char} (h : U.isIpLiteral host = true) :
    U.isIpLiteral (lowerHost U host) = true := by
  rw [← List.takeWhile_append_dropWhile (p := (· ≠ '%')) (l := host)] at h
  have hl := U.isIpLiteral_lower _ _ h
  rw [← List.append_nil (U.lower (host.takeWhile (· ≠ '%')) ++ _)] at hl
  rw [lowerHost, ← List.append_nil (U.lower _)]
  exact U.isIpLiteral_lower _ _ hl

theorem hides_of_mem_lower {c : Char} {cs : List Char} (h : c ∈ U.lower cs)
    (hc : U.hidesDelimiter c = true) : c ∈ cs := by
  obtain ⟨b, a, d, hd, hx⟩ := U.mem_lowerFrom h
  rw [U.hidesDelimiter_lowerAt b d a c hx hc]
  exact hd

theorem hides_of_mem_lowerHost {host : List Char} {c : Char} (h : c ∈ lowerHost U host)
    (hc : U.hidesDelimiter c = true) : c ∈ host := by
  rw [← List.takeWhile_append_dropWhile (p := (· ≠ '%')) (l := host)]
  rcases List.mem_append.1 (hides_of_mem_lower h hc) with h | h
  · exact List.mem_append_left _ (hides_of_mem_lower h hc)
  · exact List.mem_append_right _ h

/-- A netloc is accepted if it hides no delimiter that an accepted one does not have. -/
theorem checkNetloc_of_hides {netloc new : List Char} (h : checkNetloc U netloc = true)
    (hn : ∀ c ∈ new, isNetlocChar c = true)
    (hm : ∀ c ∈ new, U.hidesDelimiter c = true → ¬ c.toNat < 128 → c ∈ netloc) :
    checkNetloc U new = true := by
  rw [checkNetloc, Bool.or_eq_true] at h ⊢
  apply Or.inr
  rw [List.all_eq_true]
  intro c hc
  obtain ⟨hc, hd⟩ := List.mem_filter.1 hc
  rw [Bool.not_eq_true', Bool.eq_false_iff]
  intro hh
  by_cases ha : c.toNat < 128
  · have hs := hn c hc
    rw [U.hidesDelimiter_ascii c ha] at hh
    simp only [isNetlocChar, List.mem_cons, List.not_mem_nil, or_false, decide_eq_true_eq] at hh hs hd
    tauto
  · have hin := hm c hc hh ha
    rcases h with h | h
    · exact ha (of_decide_eq_true (List.all_eq_true.1 h c hin))
    · have hf := List.all_eq_true.1 h c (List.mem_filter.2 ⟨hin, hd⟩)
      rw [hh] at hf
      cases hf

end Obase.Url
