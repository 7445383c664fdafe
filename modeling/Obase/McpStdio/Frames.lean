import Obase.Casing
import Obase.Concrete
import Obase.Framing
import Obase.Http.Pinned
import Obase.Json.RoundTrip
import Obase.Partition
import Obase.Stripped

namespace Obase.McpStdio
set_option autoImplicit true
open Json (FloatText)
open Http (Decimals intOfText)

/-- What the frames are read with: `str.lower` and `int`, `decode` with `errors="replace"`, and how
`json.loads` decodes bytes (`none` for a `UnicodeDecodeError`). -/
structure Interpreter where
  casing : Casing
  decimals : Decimals
  replaced : List UInt8 → List Char
  replaced_utf8 : ∀ cs, replaced (utf8 cs) = cs
  decodeBytes : List UInt8 → Option (List Char)
  decodeBytes_utf8 : ∀ cs, (∀ c ∈ cs, 0x20 ≤ c.toNat) → cs.head? ≠ some '\uFEFF' →
    decodeBytes (utf8 cs) = some cs

/-- The objects that are sent: dictionaries of JSON values. -/
structure Payload (F : Type) where
  members : Dict String (Json F)
  distinct : (Value.dict members).Distinct

def Payload.toJson (p : Payload F) : Json F := .dict p.members

def encodeFrame [FloatText F] (payload : Payload F) : List UInt8 :=
  let body := utf8 (Json.dumps .compact payload.toJson)
  utf8 ("Content-Length: ".toList ++ Json.intText body.length ++ "\r\n\r\n".toList) ++ body

/-- `bytes.find`. -/
def find (sep : List UInt8) : List UInt8 → Option Nat
  | [] => none
  | b :: bs => if sep.isPrefixOf (b :: bs) then some 0 else (find sep bs).map (· + 1)

/-- Where an index of a slice stands in a sequence of some length. -/
def position (len : Nat) (k : Int) : Nat := if k < 0 then (len + k).toNat else min k.toNat len

def slice (bs : List UInt8) (start stop : Int) : List UInt8 :=
  (bs.take (position bs.length stop)).drop (position bs.length start)

def sliceFrom (bs : List UInt8) (start : Int) : List UInt8 := bs.drop (position bs.length start)

/-- `header.split("\r\n")`. -/
def headerLines : Nat → List Char → List (List Char)
  | 0, cs => [cs]
  | n + 1, cs =>
    match Text.partition "\r\n".toList cs with
    | none => [cs]
    | some (line, rest) => line :: headerLines n rest

/-- The length that a header gives, `none` for a `ValueError`. -/
def contentLength (I : Interpreter) : Int → List (List Char) → Option Int
  | length, [] => some length
  | length, line :: lines =>
    if "content-length:".toList.isPrefixOf (I.casing.lower line) then
      match Text.partition [':'] line with
      | none => none
      | some (_, value) =>
        match intOfText I.decimals (Text.strip value) with
        | none => none
        | some length => contentLength I length lines
    else contentLength I length lines

/-- The header of a frame, and what `_decode_frames` makes of what follows it. -/
def nextFrame [FloatText F] (I : Interpreter) (rest : List UInt8) : Framing.Next UInt8 (Json F) :=
  match find [13, 10, 13, 10] rest with
  | none => .wait
  | some headEnd =>
    let header := I.replaced (rest.take headEnd)
    match contentLength I 0 (headerLines header.length header) with
    | none => .fail
    | some length =>
      let bodyStart : Int := headEnd + 4
      if rest.length < bodyStart + length then .wait
      else
        match I.decodeBytes (slice rest bodyStart (bodyStart + length)) with
        | none => .fail
        | some body => .frame (Json.loads body) (sliceFrom rest (bodyStart + length))

/-- `_decode_frames`, `none` where it raises or takes an empty frame off for ever. -/
def decodeFrames [FloatText F] (I : Interpreter) (buf : List UInt8) :
    Option (List (Json F) × List UInt8) :=
  Framing.decode (nextFrame I) (buf.length + 1) buf

section
variable {I : Interpreter}

theorem find_append (sep : List UInt8) {l : List UInt8} {b : UInt8} (hb : b ∉ l)
    (r : List UInt8) :
    find (b :: sep) (l ++ r) = (find (b :: sep) r).map (· + l.length) := by
  induction l with
  | nil =>
    rw [List.nil_append]
    exact Option.map_id'.symm
  | cons c l ih =>
    rw [List.mem_cons, not_or] at hb
    have hp : ¬ (b :: sep).isPrefixOf (c :: (l ++ r)) = true := by
      rw [List.isPrefixOf_iff_prefix]
      intro hp
      exact hb.1 (List.cons_prefix_cons.1 hp).1
    rw [List.cons_append, find, if_neg hp, ih hb.2, Option.map_map]
    rfl

theorem find_self (sep r : List UInt8) (b : UInt8) : find (b :: sep) (b :: sep ++ r) = some 0 := by
  rw [List.cons_append, find, if_pos]
  rw [List.isPrefixOf_iff_prefix]
  exact List.prefix_append (b :: sep) r

theorem find_of_not_mem {sep bs : List UInt8} {b : UInt8} (hb : b ∉ bs) :
    find (b :: sep) bs = none := by
  have hf := find_append sep hb []
  rwa [List.append_nil] at hf

theorem utf8_not_mem {c : Char} (hc : c.toNat < 128) {cs : List Char}
    (h : ∀ d ∈ cs, d.toNat < 128) (hm : c ∉ cs) : UInt8.ofNat c.toNat ∉ utf8 cs := by
  rw [utf8_ascii h]
  intro hx
  obtain ⟨d, hd, he⟩ := List.mem_map.1 hx
  have hn := congrArg UInt8.toNat he
  have hsize : 128 ≤ UInt8.size := by decide
  rw [UInt8.toNat_ofNat_of_lt' ((h d hd).trans_le hsize),
    UInt8.toNat_ofNat_of_lt' (hc.trans_le hsize)] at hn
  rw [Char.toNat_inj.1 hn] at hd
  exact hm hd

/-- The header of a frame without its ending. -/
def headerText (n : Nat) : List Char := "Content-Length: ".toList ++ Json.intText n

theorem headerText_chars (n : Nat) : ∀ c ∈ headerText n, c.toNat < 128 ∧ c ≠ '\r' := by
  have hname : ∀ c ∈ "Content-Length: ".toList, c.toNat < 128 ∧ c ≠ '\r' :=
    Text.forall_mem_of_all (by decide)
  intro c hc
  obtain hc | hc := List.mem_append.1 hc
  · exact hname c hc
  · have hd := Http.digits_intText n c hc
    refine ⟨ascii_of_isDigit hd, ?_⟩
    rintro rfl
    cases hd

theorem headerLines_headerText (n k : Nat) : headerLines k (headerText n) = [headerText n] := by
  cases k with
  | zero => rfl
  | succ k =>
    have hn : Text.partition "\r\n".toList (headerText n) = none := by
      rw [Text.partition_eq_none (by decide)]
      intro hi
      exact (headerText_chars n '\r' (hi.subset (by decide))).2 rfl
    rw [headerLines, hn]

theorem contentLength_headerText (n : Nat) :
    contentLength I 0 [headerText n] = some (n : Int) := by
  have hlower : "content-length:".toList.isPrefixOf (I.casing.lower (headerText n)) = true := by
    have hname : "Content-Length: ".toList.map Char.toLower =
        "content-length:".toList ++ [' '] := by decide +kernel
    have hmap : (headerText n).map Char.toLower =
        "content-length:".toList ++ [' '] ++ (Json.intText n).map Char.toLower :=
      List.map_append.trans (congrArg (· ++ (Json.intText n).map Char.toLower) hname)
    rw [I.casing.lower_ascii fun c hc => (headerText_chars n c hc).1, hmap, List.append_assoc,
      List.isPrefixOf_iff_prefix]
    exact List.prefix_append ..
  have hpart : Text.partition [':'] (headerText n) =
      some ("Content-Length".toList, ' ' :: Json.intText n) := by
    have hname : "Content-Length: ".toList = "Content-Length".toList ++ [':', ' '] := by
      decide +kernel
    have htext : headerText n = "Content-Length".toList ++ ':' :: ' ' :: Json.intText n :=
      (congrArg (· ++ Json.intText n) hname).trans (List.append_assoc ..)
    rw [htext]
    exact Text.partition_char (by decide) _
  have hstrip : Text.strip (' ' :: Json.intText n) = Json.intText n := by
    rw [Text.strip, Text.trim_cons (by decide)]
    exact Http.strip_digits (Http.intText_ne_nil n) (Http.digits_intText n)
  rw [contentLength, if_pos hlower, hpart]
  dsimp only
  rw [hstrip, Http.intOfText_intText]
  rfl

variable [FloatText F]

def body (p : Payload F) : List UInt8 := utf8 (Json.dumps .compact p.toJson)

def head (p : Payload F) : List UInt8 := utf8 (headerText (body p).length)

theorem encodeFrame_eq (p : Payload F) :
    encodeFrame p = head p ++ ([13, 10, 13, 10] ++ body p) := by
  rw [encodeFrame, utf8_append, List.append_assoc]
  rfl

theorem head_not_mem (p : Payload F) : 13 ∉ head p :=
  utf8_not_mem (c := '\r') (by decide) (fun d hd => (headerText_chars _ d hd).1)
    fun hm => (headerText_chars _ _ hm).2 rfl

theorem head_find (p : Payload F) (r : List UInt8) :
    find [13, 10, 13, 10] (head p ++ r) = (find [13, 10, 13, 10] r).map (· + (head p).length) :=
  find_append _ (head_not_mem p) r

theorem loads_body (p : Payload F) :
    (I.decodeBytes (body p)).map Json.loads = some (some p.toJson) := by
  have hhead : (Json.dumps .compact p.toJson).head? ≠ some '\uFEFF' := by
    rw [Payload.toJson, Json.dumps, List.head?_cons, ne_eq, Option.some.injEq]
    decide
  rw [body, I.decodeBytes_utf8 _ (Json.dumps_ge .compact p.toJson) hhead, Option.map_some,
    Json.loads_dumps, Value.build_of_distinct p.toJson p.distinct]

theorem position_of_le {len k : Nat} (h : k ≤ len) : position len k = k := by
  rw [position, if_neg (by omega), Int.toNat_natCast]
  exact min_eq_left h

theorem slice_append (l m r : List UInt8) :
    slice (l ++ (m ++ r)) l.length (l.length + m.length) = m := by
  have hlen : (l ++ (m ++ r)).length = l.length + (m.length + r.length) := by
    rw [List.length_append, List.length_append]
  have hstop : ((l.length : Int) + m.length) = ((l.length + m.length : Nat) : Int) := by
    rw [Nat.cast_add]
  rw [slice, hstop, position_of_le (by omega), position_of_le (by omega), ← List.append_assoc,
    ← List.length_append, List.take_left, List.drop_left]

theorem sliceFrom_append (l m r : List UInt8) :
    sliceFrom (l ++ (m ++ r)) (l.length + m.length) = r := by
  have hlen : (l ++ (m ++ r)).length = l.length + (m.length + r.length) := by
    rw [List.length_append, List.length_append]
  have hstart : ((l.length : Int) + m.length) = ((l.length + m.length : Nat) : Int) := by
    rw [Nat.cast_add]
  rw [sliceFrom, hstart, position_of_le (by omega), ← List.append_assoc, ← List.length_append,
    List.drop_left]

/-- What a reader makes of a header and what follows it. -/
theorem nextFrame_head (p : Payload F) (r : List UInt8) :
    nextFrame (F := F) I (head p ++ ([13, 10, 13, 10] ++ r)) =
      if (head p ++ ([13, 10, 13, 10] ++ r)).length < (head p ++ [13, 10, 13, 10]).length +
          ((body p).length : Int) then .wait
      else
        match I.decodeBytes (slice (head p ++ ([13, 10, 13, 10] ++ r))
          (head p ++ [13, 10, 13, 10]).length
          ((head p ++ [13, 10, 13, 10]).length + (body p).length)) with
        | none => .fail
        | some text => .frame (Json.loads text) (sliceFrom (head p ++ ([13, 10, 13, 10] ++ r))
          ((head p ++ [13, 10, 13, 10]).length + (body p).length)) := by
  have hfind : find [13, 10, 13, 10] (head p ++ ([13, 10, 13, 10] ++ r)) =
      some (head p).length := by
    rw [head_find, find_self, Option.map_some, Nat.zero_add]
  have hheader : I.replaced ((head p ++ ([13, 10, 13, 10] ++ r)).take (head p).length) =
      headerText (body p).length := by
    rw [List.take_left, head, I.replaced_utf8]
  have hstart : (((head p ++ [13, 10, 13, 10]).length : Nat) : Int) = (head p).length + 4 := by
    rw [List.length_append, Nat.cast_add]
    rfl
  rw [nextFrame, hfind, hstart]
  dsimp only
  rw [hheader, headerLines_headerText, contentLength_headerText]

theorem nextFrame_encodeFrame (p : Payload F) (r : List UInt8) :
    nextFrame I (encodeFrame p ++ r) = .frame (some p.toJson) r := by
  have hb := loads_body (I := I) p
  have happend : encodeFrame p ++ r = head p ++ ([13, 10, 13, 10] ++ (body p ++ r)) := by
    rw [encodeFrame_eq, List.append_assoc, List.append_assoc]
  have happend' : head p ++ ([13, 10, 13, 10] ++ (body p ++ r)) =
      (head p ++ [13, 10, 13, 10]) ++ (body p ++ r) :=
    (List.append_assoc ..).symm
  have hlen : ¬ (((head p ++ ([13, 10, 13, 10] ++ (body p ++ r))).length : Nat) : Int) <
      (head p ++ [13, 10, 13, 10]).length + ((body p).length : Int) := by
    rw [happend', ← List.append_assoc, List.length_append, List.length_append]
    omega
  rw [happend, nextFrame_head, if_neg hlen, happend', slice_append, sliceFrom_append]
  cases hd : I.decodeBytes (body p) with
  | none =>
    rw [hd] at hb
    cases hb
  | some text =>
    rw [hd, Option.map_some, Option.some.injEq] at hb
    dsimp only
    rw [hb]

theorem prefix_or {l m r : List UInt8} (h : r <+: l ++ m) : r <+: l ∨ l <+: r :=
  List.prefix_or_prefix_of_prefix h (List.prefix_append l m)

/-- The frames that are sent are taken off one by one, and a part of one is waited for. -/
theorem delimited (I : Interpreter) :
    Framing.Delimited (nextFrame I) (fun p : Payload F => encodeFrame p) Payload.toJson where
  nil := rfl
  frame := nextFrame_encodeFrame
  wait := by
    intro p r hpre hne
    rw [encodeFrame_eq] at hpre hne
    obtain hr | ⟨s, rfl⟩ := prefix_or hpre
    · have hnot : 13 ∉ r := fun hm => head_not_mem p (hr.subset hm)
      rw [nextFrame, find_of_not_mem hnot]
    · rw [List.prefix_append_right_inj] at hpre
      rw [ne_eq, List.append_cancel_left_eq] at hne
      by_cases hsep : [13, 10, 13, 10] <+: s
      · obtain ⟨b, rfl⟩ := hsep
        rw [List.prefix_append_right_inj] at hpre
        rw [List.append_cancel_left_eq] at hne
        have hlt : b.length < (body p).length :=
          lt_of_le_of_ne hpre.length_le fun he => hne (hpre.eq_of_length he)
        rw [nextFrame_head, if_pos]
        rw [← List.append_assoc, List.length_append]
        omega
      · have he : s ≠ [13, 10, 13, 10] := by
          rintro rfl
          exact hsep (List.prefix_refl _)
        have hs : s ∈ [13, 10, 13, 10].inits :=
          (List.mem_inits ..).2 ((prefix_or hpre).resolve_right hsep)
        have hnone : ∀ s ∈ [13, 10, 13, 10].inits, s ≠ [13, 10, 13, 10] →
            find [13, 10, 13, 10] s = none := by decide
        rw [nextFrame, head_find, hnone s hs he]
        rfl

end

/-- Payloads that are sent are received in order, each once, however their bytes are cut. -/
theorem received_of_sent [FloatText F] (I : Interpreter) (payloads : List (Payload F))
    (chunks : List (List UInt8)) (h : chunks.flatten = (payloads.map encodeFrame).flatten) :
    Framing.feed (decodeFrames I) [] chunks = some (payloads.map Payload.toJson, []) := by
  have hs : [] ++ chunks.flatten = Framing.stream encodeFrame payloads := h
  exact (delimited I).feed_eq hs fun p _ => (delimited I).encode_ne_nil p

/-- An interpreter that knows the letters and digits of ASCII alone. -/
def Interpreter.ascii : Interpreter where
  casing := .ascii
  decimals := .ascii
  replaced bs := (utf8Decode bs).getD []
  replaced_utf8 cs := by rw [utf8Decode_utf8, Option.getD_some]
  decodeBytes := utf8Decode
  decodeBytes_utf8 cs _ _ := utf8Decode_utf8 cs

def accented : Payload WholeFloat where
  members := [("text", .str "é")]
  distinct := ⟨List.nodup_singleton _, trivial, trivial⟩

/-- A payload that is cut in its header and within a character. -/
theorem received_accented : Framing.feed (decodeFrames .ascii) []
    [(encodeFrame accented).take 5, ((encodeFrame accented).drop 5).take 27,
      ((encodeFrame accented).drop 5).drop 27] = some ([accented.toJson], []) := by
  refine received_of_sent .ascii [accented] _ ?_
  rw [List.flatten_cons, List.flatten_cons, List.flatten_cons, List.flatten_nil, List.append_nil,
    List.take_append_drop, List.take_append_drop]
  exact (List.append_nil _).symm

end Obase.McpStdio
