import Obase.Concrete
import Obase.EventStream
import Obase.Json.Glued
import Obase.LastLine

namespace Obase.McpHttp
set_option autoImplicit true
open Json (FloatText)
open Text
open EventStream (Event Line Content)

/-- What `_parse_sse_or_json` raises: an `HttpMcpError`, or what `json.loads` raises other than a
`JSONDecodeError`. -/
inductive Failure where
  | httpMcpError (text : String)
  | other
deriving DecidableEq

/-- The texts on which `json.loads` exceeds a limit of the interpreter. -/
abbrev Limits := List Char → Bool

section
variable {F : Type} [FloatText F]

def loads (raises : Limits) (error : String) (text : List Char) : Except Failure (Json F) :=
  if raises text then .error .other
  else
    match Json.loads text with
    | some v => .ok v
    | none => .error (.httpMcpError error)

/-- The loop of `_parse_sse_or_json`. -/
def lastPayload : Option (List Char) → List (List Char) → Option (List Char)
  | payload, [] => payload
  | payload, line :: lines =>
    let line := strip line
    if "data:".toList.isPrefixOf line then lastPayload (some (strip (line.drop 5))) lines
    else lastPayload payload lines

def parseSseOrJson (raises : Limits) (body : List Char) : Except Failure (Json F) :=
  let text := strip body
  if ['{'].isPrefixOf text then loads raises "MCP JSON 响应无效" text
  else
    match lastPayload none (splitlines text) with
    | none => .error (.httpMcpError "无法解析 MCP 响应")
    | some payload => loads raises "MCP SSE 响应无效" payload

/-- Blanks around a text. -/
def Blanks := {cs : List Char // ∀ c ∈ cs, isSpace c = true}

/-- A body: a text in blanks, or an event stream. -/
inductive Body where
  | plain (before : Blanks) (text : List Char) (after : Blanks)
  | stream (es : List Event)

def Body.text : Body → List Char
  | .plain before text after => before.1 ++ (text ++ after.1)
  | .stream es => EventStream.text es

/-- What a body carries. -/
def Body.message : Body → Option (List Char)
  | .plain _ text _ => some text
  | .stream es => EventStream.lastMessage es

def Carries (body : Body) (r : List (String × Json F)) : Prop :=
  ∃ text, body.message = some text ∧ Json.loads text = some (.dict r)

/-- The payload of a line. -/
def payload? (line : List Char) : Option (List Char) :=
  if "data:".toList.isPrefixOf (strip line) then some (strip ((strip line).drop 5)) else none

/-- The payloads that begin within a line of a stream, behind another character at which
`str.splitlines` ends a line. -/
def strays (l : Line) : List (List Char) := (lines isLineBoundary l.text).tail.filterMap payload?

/-- The bodies that are read right. Of a stream, no line from the last data line on has a stray
payload, all data of the message but the last are blank, and the last has no line boundary; or the
last stray payload happens to be a text of the message. -/
def Readable (raises : Limits) (r : List (String × Json F)) : Body → Prop
  | .plain _ text _ => raises (strip text) = false
  | .stream es =>
    match ((EventStream.sinceData (EventStream.lines es)).flatMap strays).getLast? with
    | some text => raises text = false ∧ Json.loads text = some (.dict r)
    | none => ∃ ds d, EventStream.lastData es = ds ++ [d] ∧ (∀ l ∈ ds, notBlank l = false) ∧
        (∀ c ∈ d, isLineBoundary c = false) ∧ raises (strip d) = false

theorem loads_eq_ok {raises : Limits} {error : String} {text : List Char} {v : Json F} :
    loads raises error text = .ok v ↔ raises text = false ∧ Json.loads text = some v := by
  rw [loads]
  cases raises text with
  | true => exact iff_of_false (fun h => nomatch h) (fun h => nomatch h.1)
  | false =>
    rw [if_neg Bool.false_ne_true]
    cases (Json.loads text : Option (Json F)) with
    | none => exact iff_of_false (fun h => nomatch h) (fun h => nomatch h.2)
    | some w =>
      constructor
      · rintro ⟨⟩
        exact ⟨rfl, rfl⟩
      · rintro ⟨-, ⟨⟩⟩
        rfl

theorem lastPayload_eq (payload : Option (List Char)) (ls : List (List Char)) :
    lastPayload payload ls = (ls.filterMap payload?).getLast?.or payload := by
  induction ls generalizing payload with
  | nil => rfl
  | cons l ls ih =>
    rw [lastPayload, List.filterMap_cons, payload?]
    split
    · rw [ih, List.getLast?_cons]
      cases (ls.filterMap payload?).getLast? <;> rfl
    · exact ih payload

theorem ignoresBlanks_payload : IgnoresBlanks payload? where
  strip l := by
    have hs : strip (strip l) = strip l := trim_trim isSpace l
    rw [payload?, payload?, hs]
  nil := rfl

theorem payload?_other {c : Char} (hc : isSpace c = false) (hd : c ≠ 'd') (l : List Char) :
    payload? (c :: l) = none := by
  have hh : (strip (c :: l)).head? = some c := by
    rw [head?_strip, List.find?_cons_of_pos (by rw [hc]; rfl)]
  obtain ⟨t, ht⟩ := List.head?_eq_some_iff.1 hh
  rw [payload?, ht, if_neg]
  intro hp
  obtain ⟨u, hu⟩ := List.isPrefixOf_iff_prefix.1 hp
  injection hu with hu _
  exact hd hu.symm

theorem payload?_data (h : List Char) : payload? ("data:".toList ++ h) = some (strip h) := by
  have hw : ∀ c ∈ h.rtakeWhile isSpace, isSpace c = true := fun _ => List.mem_rtakeWhile_imp
  have hsplit : h = h.rdropWhile isSpace ++ h.rtakeWhile isSpace :=
    List.rdropWhile_append_rtakeWhile.symm
  have hline : strip ("data:".toList ++ h) = "data:".toList ++ h.rdropWhile isSpace := by
    have ht := trim_append (w := []) (fun _ hm => nomatch hm) hw
      ("data:".toList ++ h.rdropWhile isSpace)
    rw [List.nil_append, List.append_assoc, ← hsplit] at ht
    rw [strip, ht, trim_eq_self_iff]
    refine ⟨fun c hc => ?_, fun c hc => ?_⟩
    · cases hc
      rfl
    · by_cases hn : h.rdropWhile isSpace = []
      · rw [hn] at hc
        cases hc
        rfl
      · have hl := List.rdropWhile_last_not isSpace h hn
        rw [List.getLast?_append_of_ne_nil _ hn, List.getLast?_eq_some_getLast hn] at hc
        cases hc
        exact Bool.eq_false_iff.2 hl
  have hstrip : strip (h.rdropWhile isSpace) = strip h := by
    have ht := trim_append (w := []) (fun _ hm => nomatch hm) hw (h.rdropWhile isSpace)
    rw [List.nil_append, ← hsplit] at ht
    exact ht.symm
  have hp : "data:".toList.isPrefixOf ("data:".toList ++ h.rdropWhile isSpace) = true :=
    List.isPrefixOf_iff_prefix.2 (List.prefix_append ..)
  rw [payload?, hline, if_pos hp, ← hstrip]
  rfl

/-- The first line of a text. -/
def firstLine (cs : List Char) : List Char := (lines isLineBoundary cs).headD []

theorem lines_name {name : List Char} (h₀ : name ≠ []) (cs : List Char)
    (hn : ∀ c ∈ name, isLineBoundary c = false) :
    lines isLineBoundary (name ++ cs) = (name ++ firstLine cs) :: (lines isLineBoundary cs).tail :=
  lines_append_left hn h₀ cs

theorem pieces_data (value : Content) :
    pieces payload? (Line.data value).text =
      strip (firstLine value.1) :: strays (.data value) := by
  have he : lines isLineBoundary (Line.data value).text = _ :=
    lines_name (show "data:".toList ≠ [] by decide) value.1 (forall_mem_of_all (by decide))
  rw [pieces, strays, he, List.filterMap_cons, payload?_data]
  rfl

theorem pieces_of_not_data {l : Line} (h : l.data? = none) :
    pieces payload? l.text = strays l := by
  have hname (c : Char) (name cs : List Char) (hc : isSpace c = false) (hd : c ≠ 'd')
      (hn : ∀ d ∈ c :: name, isLineBoundary d = false) :
      pieces payload? ((c :: name) ++ cs) =
        (lines isLineBoundary ((c :: name) ++ cs)).tail.filterMap payload? := by
    rw [pieces, lines_name (List.cons_ne_nil c name) cs hn, List.cons_append,
      List.filterMap_cons, payload?_other hc hd]
    rfl
  cases l with
  | data value => cases h
  | event value =>
    exact hname 'e' "vent:".toList value.1 rfl (by decide) (forall_mem_of_all (by decide))
  | id value => exact hname 'i' "d:".toList value.1 rfl (by decide) (forall_mem_of_all (by decide))
  | comment text => exact hname ':' [] text.1 rfl (by decide) (forall_mem_of_all (by decide))

/-- A stream is read from its last stray payload, or else from its last data line. -/
theorem parse_stream (raises : Limits) {es : List Event} {pre post : List Line} {value : Content}
    (hl : EventStream.lines es = pre ++ .data value :: post)
    (hpost : ∀ l ∈ post, l.data? = none) :
    parseSseOrJson (F := F) raises (EventStream.text es) =
      loads raises "MCP SSE 响应无效"
        ((((EventStream.sinceData (EventStream.lines es)).flatMap strays).getLast?).getD
          (strip (firstLine value.1))) := by
  have hbrace : ¬ ['{'].isPrefixOf (strip (EventStream.text es)) = true := by
    intro hp
    obtain ⟨t, ht⟩ := List.isPrefixOf_iff_prefix.1 hp
    have hh : (strip (EventStream.text es)).head? = some '{' := by
      rw [← ht]
      rfl
    exact absurd (EventStream.head_strip_text hh) (by decide)
  have hrest : (post.flatMap fun l => pieces payload? l.text) = post.flatMap strays :=
    List.flatMap_congr fun l hm => pieces_of_not_data (hpost l hm)
  rw [parseSseOrJson, if_neg hbrace, lastPayload_eq, Option.or_none,
    ignoresBlanks_payload.filterMap_splitlines, ignoresBlanks_payload.pieces_strip,
    EventStream.pieces_text ignoresBlanks_payload, hl, EventStream.sinceData_append pre value hpost,
    List.flatMap_append, List.flatMap_cons, hrest, pieces_data, List.cons_append,
    List.getLast?_append_cons, List.getLast?_cons, List.flatMap_cons]

/-- The data of a message that a stream carries, around the last line of them. -/
theorem join_data (ds : List (List Char)) (d : List Char) :
    ['\n'].intercalate (ds ++ [d]) = unlines ds ++ d := by
  induction ds with
  | nil => exact List.intercalate_singleton
  | cons e ds ih =>
    rw [List.cons_append, List.intercalate_cons_of_ne_nil (by simp), ih, unlines_cons,
      List.append_assoc, List.append_assoc]
    rfl

theorem firstLine_of_no_boundary {cs : List Char} (h : ∀ c ∈ cs, isLineBoundary c = false) :
    firstLine cs = cs := by
  by_cases hn : cs = []
  · rw [hn]
    rfl
  · rw [firstLine, lines_unterminated h hn]
    rfl

theorem firstLine_of_boundary {x y : List Char} {b : Char} (h : ∀ c ∈ x, isLineBoundary c = false)
    (hb : isLineBoundary b = true) : firstLine (x ++ b :: y) = x := by
  rw [firstLine, lines_terminated h hb]
  rfl

/-- The space that a field's value may begin with is one of the blanks around its payload. -/
theorem strip_firstLine (cs : List Char) :
    strip (firstLine (EventStream.fieldValue cs)) = strip (firstLine cs) := by
  rw [EventStream.fieldValue.eq_def]
  split
  · rename_i cs
    have he := lines_name (List.cons_ne_nil ' ' []) cs (forall_mem_of_all (by decide))
    rw [List.singleton_append] at he
    rw [firstLine, firstLine, he]
    exact (trim_cons (c := ' ') rfl _).symm
  · rfl

theorem notBlank_unlines {ds : List (List Char)} :
    notBlank (unlines ds) = false ↔ ∀ l ∈ ds, notBlank l = false := by
  simp only [Json.notBlank_eq_false_iff, unlines, List.mem_flatMap, List.mem_append,
    List.mem_singleton]
  constructor
  · intro h l hl c hc
    exact h c ⟨l, hl, .inl hc⟩
  · rintro h c ⟨l, hl, hc | rfl⟩
    · exact h l hl c hc
    · rfl

theorem exists_unlines {ds : List (List Char)} (h : ds ≠ []) : ∃ x, unlines ds = x ++ ['\n'] := by
  refine ⟨unlines ds.dropLast ++ ds.getLast h, ?_⟩
  conv_lhs => rw [← List.dropLast_append_getLast h]
  rw [unlines_append, unlines_cons, unlines_nil, List.append_assoc]

/-- The last of several data lines is a text of the message where the others are blank. -/
theorem loads_last_iff {ds : List (List Char)} {d : List Char} {r : List (String × Json F)}
    (h : Json.loads (unlines ds ++ d) = some (.dict r)) :
    Json.loads (strip d) = some (.dict r) ↔ ∀ l ∈ ds, notBlank l = false := by
  rw [← notBlank_unlines]
  constructor
  · intro hd
    by_cases hn : ds = []
    · rw [hn]
      rfl
    · obtain ⟨x, hx⟩ := exists_unlines hn
      rw [hx] at h ⊢
      rw [List.append_assoc, List.singleton_append] at h
      rw [notBlank_append_false]
      refine ⟨?_, rfl⟩
      rw [← Bool.not_eq_true]
      intro hb
      exact Json.not_loads_after hb h _ hd
  · intro hb
    have hw := (Json.scan_blank_append (Json.notBlank_eq_false_iff.1 hb) (Json.scan_of_loads h)).2
    rw [Json.loads_of_blank hw] at h
    exact Json.loads_strip (Json.notBlank_of_loads h) h

/-- A data line with another line boundary is cut within a string. -/
theorem not_loads_firstLine {ds : List (List Char)} {d : List Char} {v : Json F}
    (h : Json.loads (unlines ds ++ d) = some v) (hn : '\n' ∉ d) (hr : '\r' ∉ d)
    (hb : ¬ ∀ c ∈ d, isLineBoundary c = false) (w : Json F) :
    Json.loads (strip (firstLine d)) ≠ some w := by
  obtain ⟨x, b, y, rfl, hx, hb⟩ := exists_first_boundary hb
  have hso : Json.StringOnly b :=
    Json.boundary_stringOnly hb (fun he => hn (by simp [he])) fun he => hr (by simp [he])
  have hs := Json.nest_of_loads h 0
  rw [firstLine_of_boundary hx hb]
  by_cases hds : ds = []
  · rw [hds] at hs
    exact Json.not_loads_before hso (Json.scan_of_nest hs) w
  · obtain ⟨z, hz⟩ := exists_unlines hds
    rw [hz, List.append_assoc, List.singleton_append] at hs
    obtain ⟨k, -, hk⟩ := Json.nest_newline hs
    exact Json.not_loads_before hso (Json.scan_of_nest hk) w

theorem not_mem_fieldValue {c : Char} {cs : List Char} (h : c ∉ cs) :
    c ∉ EventStream.fieldValue cs := by
  rw [EventStream.fieldValue.eq_def]
  split
  · exact fun hm => h (.tail _ hm)
  · exact h

theorem parses_stream_iff (raises : Limits) {es : List Event} {r : List (String × Json F)}
    (h : Carries (.stream es) r) :
    parseSseOrJson raises (EventStream.text es) = .ok (.dict r) ↔
      Readable raises r (.stream es) := by
  obtain ⟨text, hm, ht⟩ := h
  rw [Body.message, EventStream.lastMessage] at hm
  split at hm
  · cases hm
  rename_i hne
  obtain ⟨pre, value, post, hl, hpost, ds, hdata⟩ :=
    EventStream.exists_lastData fun he => hne (List.isEmpty_iff.2 he)
  rw [hdata, Option.some.injEq, join_data] at hm
  subst hm
  rw [parse_stream raises hl hpost, loads_eq_ok, Readable]
  cases (((EventStream.sinceData (EventStream.lines es)).flatMap strays).getLast?) with
  | some t => exact Iff.rfl
  | none =>
    rw [Option.getD_none, ← strip_firstLine, hdata]
    have hn := not_mem_fieldValue value.2.1
    have hr := not_mem_fieldValue value.2.2
    constructor
    · rintro ⟨hraises, hloads⟩
      have hb : ∀ c ∈ EventStream.fieldValue value.1, isLineBoundary c = false := by
        by_contra hb
        exact not_loads_firstLine ht hn hr hb _ hloads
      rw [firstLine_of_no_boundary hb] at hraises hloads
      exact ⟨ds, _, rfl, (loads_last_iff ht).1 hloads, hb, hraises⟩
    · rintro ⟨ds', d', he, hblank, hb, hraises⟩
      obtain ⟨rfl, rfl⟩ := List.append_singleton_inj.1 he
      rw [firstLine_of_no_boundary hb]
      exact ⟨hraises, (loads_last_iff ht).2 hblank⟩

theorem parses_plain_iff (raises : Limits) {before after : Blanks} {text : List Char}
    {r : List (String × Json F)} (h : Json.loads text = some (.dict r)) :
    parseSseOrJson raises (before.1 ++ (text ++ after.1)) = .ok (.dict r) ↔
      raises (strip text) = false := by
  have hs := Json.loads_strip (Json.notBlank_of_loads h) h
  have htext : strip (before.1 ++ (text ++ after.1)) = strip text :=
    trim_append before.2 after.2 text
  have hbrace : ['{'].isPrefixOf (strip text) = true := by
    obtain ⟨w, tok, w', he, hw, -, -⟩ := Json.exists_dict_text hs
    cases w with
    | nil =>
      rw [he]
      exact List.isPrefixOf_iff_prefix.2 ⟨_, rfl⟩
    | cons c w =>
      obtain ⟨d, hd, hp, -⟩ := Json.strip_trimmed (Json.notBlank_of_loads h)
      rw [he] at hd
      cases hd
      rw [Json.isSpace_of_isWs (hw c (.head _))] at hp
      cases hp
  rw [parseSseOrJson, htext, if_pos hbrace, loads_eq_ok]
  exact and_iff_left hs

/-- A body is read as the object it carries exactly where it is one of the readable ones. -/
theorem parses_iff (raises : Limits) (body : Body) (r : List (String × Json F))
    (h : Carries body r) :
    parseSseOrJson raises body.text = .ok (.dict r) ↔ Readable raises r body := by
  cases body with
  | plain before text after =>
    obtain ⟨t, hm, ht⟩ := h
    cases hm
    exact parses_plain_iff raises ht
  | stream es => exact parses_stream_iff raises h

end

/-- A message whose text is split over two data lines. -/
def splitMessage : Body :=
  .stream [⟨[(.data ⟨['{', '"', 'a', '"', ':'], by decide⟩, .lf),
    (.data ⟨['1', '}'], by decide⟩, .lf)], .lf⟩]

/-- A message with a line separator in a string. -/
def separatorMessage : Body :=
  .stream [⟨[(.data ⟨['{', '"', 'a', '"', ':', '"', '\u2028', '"', '}'], by decide⟩, .lf)], .lf⟩]

/-- Two messages, with an event line, lines that end in CRLF and a space before the data. -/
def twoMessages : List Event :=
  [⟨[(.comment ⟨['p', 'i', 'n', 'g'], by decide⟩, .lf),
      (.data ⟨['1'], by decide⟩, .lf)], .lf⟩,
    ⟨[(.event ⟨[' ', 'm'], by decide⟩, .crlf),
      (.data ⟨[' ', '{', '"', 'a', '"', ':', '1', '}'], by decide⟩, .crlf)], .crlf⟩]

theorem two_messages_parsed :
    parseSseOrJson (fun _ => false) (Body.stream twoMessages).text =
      .ok (.dict [("a", (.int 1 : Json WholeFloat))]) := by
  have hm : (Body.stream twoMessages).message = some ['{', '"', 'a', '"', ':', '1', '}'] := by
    decide +kernel
  have hs : ((EventStream.sinceData (EventStream.lines twoMessages)).flatMap strays).getLast? =
      none := by
    decide +kernel
  have hd : EventStream.lastData twoMessages = [] ++ [['{', '"', 'a', '"', ':', '1', '}']] := by
    decide +kernel
  refine (parses_iff _ _ _ ⟨_, hm, rfl⟩).2 ?_
  rw [Readable, hs]
  exact ⟨_, _, hd, fun _ hl => (nomatch hl), forall_mem_of_all (by decide), rfl⟩

/-- Of a message in two lines only the second is read, and a line separator cuts a message. -/
theorem split_message_lost :
    (Carries splitMessage [("a", (.int 1 : Json WholeFloat))] ∧
      parseSseOrJson (fun _ => false) splitMessage.text ≠
        .ok (.dict [("a", (.int 1 : Json WholeFloat))])) ∧
      (Carries separatorMessage [("a", (.str "\u2028" : Json WholeFloat))] ∧
        parseSseOrJson (fun _ => false) separatorMessage.text ≠
          .ok (.dict [("a", (.str "\u2028" : Json WholeFloat))])) := by
  have hparse (payload : List Char) {body : Body} {v : Json WholeFloat}
      (hb : ['{'].isPrefixOf (strip body.text) = false)
      (hp : lastPayload none (splitlines (strip body.text)) = some payload)
      (hl : Json.loads payload = (none : Option (Json WholeFloat))) :
      parseSseOrJson (fun _ => false) body.text ≠ .ok v := by
    intro h
    rw [parseSseOrJson, hb, if_neg Bool.false_ne_true, hp] at h
    rw [(loads_eq_ok.1 h).2] at hl
    cases hl
  have hm : splitMessage.message = some ['{', '"', 'a', '"', ':', '\n', '1', '}'] := by
    decide +kernel
  have hm' : separatorMessage.message =
      some ['{', '"', 'a', '"', ':', '"', '\u2028', '"', '}'] := by
    decide +kernel
  refine ⟨⟨⟨_, hm, rfl⟩, hparse ['1', '}'] ?_ ?_ rfl⟩, ⟨⟨_, hm', ?_⟩,
    hparse ['{', '"', 'a', '"', ':', '"'] ?_ ?_ rfl⟩⟩
  · decide +kernel
  · decide +kernel
  · rfl
  · decide +kernel
  · decide +kernel

end Obase.McpHttp
