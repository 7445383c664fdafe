import Obase.McpStdio.Frames

namespace Obase.McpStdio
set_option autoImplicit true
open Json (FloatText)
open Http (Decimals intOfText)
open Framing (Returns Reaches)

/-- What the frames are read with, and its limits: the number of digits that `int` takes (0 for any
number), and the texts on which `json.loads` raises something other than a `JSONDecodeError`. -/
structure Host extends Interpreter where
  maxDigits : Nat
  raises : List Char → Bool

def digitCount (D : Decimals) (text : List Char) : Nat :=
  (text.filter fun c => (D.decimal c).isSome).length

/-- `int(text)`, `none` for a `ValueError`. -/
def Host.int (H : Host) (text : List Char) : Option Int :=
  if H.maxDigits ≠ 0 ∧ H.maxDigits < digitCount H.decimals text then none
  else intOfText H.decimals text

/-- The length that the lines of a header give, `none` for a `ValueError`. -/
def Host.contentLength (H : Host) : Int → List (List Char) → Option Int
  | length, [] => some length
  | length, line :: lines =>
    if "content-length:".toList.isPrefixOf (H.casing.lower line) then
      match Text.partition [':'] line with
      | none => none
      | some (_, value) =>
        match H.int (Text.strip value) with
        | none => none
        | some length => H.contentLength length lines
    else H.contentLength length lines

/-- The length that a header announces. -/
def Host.announced (H : Host) (header : List UInt8) : Option Int :=
  let header := H.replaced header
  H.contentLength 0 (headerLines header.length header)

/-- What `json.loads` makes of a body. -/
inductive Loaded (F : Type) where
  | value (v : Json F)
  | invalid
  | raised

section
variable {F : Type} [FloatText F]

def Host.loads (H : Host) (body : List UInt8) : Loaded F :=
  match H.decodeBytes body with
  | none => .raised
  | some text =>
    if H.raises text then .raised
    else
      match Json.loads text with
      | some v => .value v
      | none => .invalid

/-- A turn of the loop of `_decode_frames`. -/
def Host.nextFrame (H : Host) (rest : List UInt8) : Framing.Next UInt8 (Json F) :=
  match find [13, 10, 13, 10] rest with
  | none => .wait
  | some headEnd =>
    match H.announced (rest.take headEnd) with
    | none => .fail
    | some length =>
      let bodyStart : Int := headEnd + 4
      if rest.length < bodyStart + length then .wait
      else
        let after := sliceFrom rest (bodyStart + length)
        match H.loads (slice rest bodyStart (bodyStart + length)) with
        | .value v => .frame (some v) after
        | .invalid => .frame none after
        | .raised => .fail

variable (F) in
/-- The bytes are the text of a JSON value in UTF-8. -/
def IsJson (body : List UInt8) : Prop := ∃ cs, body = utf8 cs ∧ ∃ v : Json F, Json.loads cs = some v

variable (F) in
/-- The loop ends without raising, and a frame whose body is no JSON is dropped: what is returned is
what is returned of what follows it. -/
structure Robust (H : Host) (buf : List UInt8) : Prop where
  returns : ∃ out, Returns (H.nextFrame (F := F)) buf out
  drops : ∀ rest, Reaches (H.nextFrame (F := F)) buf rest → ∀ header body more,
    rest = header ++ ([13, 10, 13, 10] ++ (body ++ more)) →
    find [13, 10, 13, 10] rest = some header.length →
    H.announced header = some (body.length : Int) → ¬ IsJson F body →
    ∀ out, Returns (H.nextFrame (F := F)) rest out ↔ Returns (H.nextFrame (F := F)) more out

variable (F) in
/-- A turn that `_decode_frames` is right about: the header announces an integer and, if the body is
there, something is taken off and the body is one that `json.loads` can tell to be JSON or not. -/
def Turn (H : Host) (rest : List UInt8) : Prop :=
  ∀ headEnd, find [13, 10, 13, 10] rest = some headEnd →
    ∃ length, H.announced (rest.take headEnd) = some length ∧
      ((rest.length : Int) < headEnd + 4 + length ∨
        0 < position rest.length (headEnd + 4 + length) ∧
          let body := slice rest (headEnd + 4) (headEnd + 4 + length)
          (H.loads body : Loaded F) ≠ .raised ∧
            (0 ≤ length → ∀ v : Json F, H.loads body = .value v → IsJson F body))

theorem contentLength_unlimited {H : Host} (hd : H.maxDigits = 0) (length : Int)
    (lines : List (List Char)) :
    H.contentLength length lines = McpStdio.contentLength H.toInterpreter length lines := by
  have hint (text : List Char) : H.int text = intOfText H.decimals text :=
    if_neg fun h => h.1 hd
  induction lines generalizing length with
  | nil => rfl
  | cons line lines ih =>
    rw [Host.contentLength, McpStdio.contentLength]
    simp only [hint, ih] <;> rfl

/-- Without limits, the frames are read as they are by the interpreter. -/
theorem nextFrame_unlimited {H : Host} (hd : H.maxDigits = 0) (hr : ∀ text, H.raises text = false)
    (rest : List UInt8) :
    H.nextFrame (F := F) rest = McpStdio.nextFrame H.toInterpreter rest := by
  rw [Host.nextFrame, McpStdio.nextFrame]
  cases find [13, 10, 13, 10] rest with
  | none => rfl
  | some headEnd =>
    dsimp only
    rw [Host.announced, contentLength_unlimited hd]
    cases McpStdio.contentLength H.toInterpreter 0 _ with
    | none => rfl
    | some length =>
      dsimp only
      refine ite_congr rfl (fun _ => rfl) fun _ => ?_
      rw [Host.loads]
      cases H.decodeBytes _ with
      | none => rfl
      | some text =>
        dsimp only
        rw [hr, if_neg Bool.false_ne_true]
        cases Json.loads (F := F) text with
        | none => rfl
        | some v => rfl

variable {H : Host} {rest : List UInt8}

theorem find_split {sep bs : List UInt8} {k : Nat} (h : find sep bs = some k) :
    ∃ l r, bs = l ++ (sep ++ r) ∧ l.length = k := by
  induction bs generalizing k with
  | nil => cases h
  | cons b bs ih =>
    rw [find] at h
    split at h
    · rename_i hp
      cases h
      obtain ⟨r, hr⟩ := List.isPrefixOf_iff_prefix.1 hp
      exact ⟨[], r, hr.symm, rfl⟩
    · obtain ⟨j, hj, rfl⟩ := Option.map_eq_some_iff.1 h
      obtain ⟨l, r, rfl, rfl⟩ := ih hj
      exact ⟨b :: l, r, rfl, rfl⟩

/-- What a turn does. -/
theorem nextFrame_cases {headEnd : Nat} (hf : find [13, 10, 13, 10] rest = some headEnd)
    {length : Int} (ha : H.announced (rest.take headEnd) = some length) :
    H.nextFrame (F := F) rest =
      if (rest.length : Int) < headEnd + 4 + length then .wait
      else
        match H.loads (slice rest (headEnd + 4) (headEnd + 4 + length)) with
        | .value v => .frame (some v) (sliceFrom rest (headEnd + 4 + length))
        | .invalid => .frame none (sliceFrom rest (headEnd + 4 + length))
        | .raised => .fail := by
  rw [Host.nextFrame, hf]
  dsimp only
  rw [ha]

/-- A frame that is taken off is one whose header announces the length of what is taken off. -/
theorem nextFrame_frame {f : Option (Json F)} {r : List UInt8}
    (h : H.nextFrame rest = .frame f r) : ∃ headEnd length,
      find [13, 10, 13, 10] rest = some headEnd ∧
        H.announced (rest.take headEnd) = some length ∧
          ¬ (rest.length : Int) < headEnd + 4 + length ∧
            r = sliceFrom rest (headEnd + 4 + length) := by
  rw [Host.nextFrame] at h
  split at h
  · cases h
  · rename_i headEnd hf
    split at h
    · cases h
    · rename_i length ha
      dsimp only at h
      split at h
      · cases h
      · rename_i hlt
        refine ⟨headEnd, length, hf, ha, hlt, ?_⟩
        split at h
        · cases h
          rfl
        · cases h
          rfl
        · cases h

theorem nextFrame_suffix (H : Host) (rest : List UInt8) (f : Option (Json F)) (r : List UInt8)
    (h : H.nextFrame rest = .frame f r) : r <:+ rest := by
  obtain ⟨headEnd, length, -, -, -, rfl⟩ := nextFrame_frame h
  exact List.drop_suffix _ _

theorem sliceFrom_ne_iff {k : Int} (hne : rest ≠ []) :
    sliceFrom rest k ≠ rest ↔ 0 < position rest.length k := by
  rw [sliceFrom, Nat.pos_iff_ne_zero, not_iff_not]
  constructor
  · intro h
    have hl := congrArg List.length h
    have hpos := List.length_pos_iff.2 hne
    rw [List.length_drop] at hl
    omega
  · intro h
    rw [h, List.drop_zero]

theorem ne_nil_of_find {headEnd : Nat} (h : find [13, 10, 13, 10] rest = some headEnd) :
    rest ≠ [] := by
  rintro rfl
  cases h

/-- A turn that is right neither fails nor takes nothing off. -/
theorem Turn.goes (h : Turn F H rest) : H.nextFrame (F := F) rest ≠ .fail ∧
    ∀ f r, H.nextFrame (F := F) rest = .frame f r → r ≠ rest := by
  refine ⟨fun hfail => ?_, fun f r hframe => ?_⟩
  · cases hf : find [13, 10, 13, 10] rest with
    | none =>
      rw [Host.nextFrame, hf] at hfail
      cases hfail
    | some headEnd =>
      obtain ⟨length, ha, hl⟩ := h headEnd hf
      rw [nextFrame_cases hf ha] at hfail
      split at hfail
      · cases hfail
      · rename_i hlt
        obtain hl | ⟨-, hloads, -⟩ := hl
        · exact hlt hl
        · split at hfail
          · cases hfail
          · cases hfail
          · exact hloads ‹_›
  · obtain ⟨headEnd, length, hf, ha, hlt, rfl⟩ := nextFrame_frame hframe
    obtain ⟨length', ha', hl⟩ := h headEnd hf
    rw [ha] at ha'
    cases ha'
    obtain hl | ⟨hpos, -⟩ := hl
    · exact (hlt hl).elim
    · exact (sliceFrom_ne_iff (ne_nil_of_find hf)).2 hpos

/-- The body that a header announces, and what follows it. -/
theorem slices (header body more : List UInt8) :
    let rest := header ++ ([13, 10, 13, 10] ++ (body ++ more))
    slice rest (header.length + 4) (header.length + 4 + body.length) = body ∧
      sliceFrom rest (header.length + 4 + body.length) = more ∧
      ¬ (rest.length : Int) < header.length + 4 + body.length := by
  have hl : ((header ++ [13, 10, 13, 10]).length : Int) = header.length + 4 := by
    rw [List.length_append, Nat.cast_add]
    rfl
  intro rest
  have hrest : rest = (header ++ [13, 10, 13, 10]) ++ (body ++ more) :=
    (List.append_assoc ..).symm
  rw [← hl, hrest]
  refine ⟨slice_append _ _ _, sliceFrom_append _ _ _, ?_⟩
  rw [← List.append_assoc, List.length_append, List.length_append]
  omega

/-- Where a turn has found a body of the length that is announced. -/
theorem exists_body {headEnd : Nat} (hf : find [13, 10, 13, 10] rest = some headEnd) {length : Int}
    (hl : ¬ (rest.length : Int) < headEnd + 4 + length) (h₀ : 0 ≤ length) :
    ∃ header body more, rest = header ++ ([13, 10, 13, 10] ++ (body ++ more)) ∧
      header.length = headEnd ∧ (body.length : Int) = length := by
  obtain ⟨header, r, rfl, rfl⟩ := find_split hf
  refine ⟨header, r.take length.toNat, r.drop length.toNat, ?_, rfl, ?_⟩
  · rw [List.take_append_drop]
  · have hle : length.toNat ≤ r.length := by
      simp only [List.length_append, List.length_cons, List.length_nil] at hl
      omega
    rw [List.length_take, min_eq_left hle, Int.toNat_of_nonneg h₀]

/-- A header of ASCII characters is found, and read, up to its end. -/
theorem find_header {cs : List Char} (h : ∀ c ∈ cs, c.toNat < 128 ∧ c ≠ '\r') (r : List UInt8) :
    find [13, 10, 13, 10] (utf8 cs ++ ([13, 10, 13, 10] ++ r)) = some (utf8 cs).length := by
  have hcr : 13 ∉ utf8 cs := utf8_not_mem (c := '\r') (by decide) (fun d hd => (h d hd).1)
    fun hm => (h _ hm).2 rfl
  rw [find_append _ hcr, find_self, Option.map_some, Nat.zero_add]

theorem announced_utf8 (H : Host) (cs : List Char) :
    H.announced (utf8 cs) = H.contentLength 0 (headerLines cs.length cs) := by
  rw [Host.announced, H.replaced_utf8]

/-- `_decode_frames` returns and drops the frames that are no JSON, exactly if each turn of its loop
is one that it is right about. -/
theorem robust_iff (H : Host) (buf : List UInt8) : Robust F H buf ↔
    ∀ rest, Reaches (H.nextFrame (F := F)) buf rest → Turn F H rest := by
  constructor
  · intro h rest hr headEnd hf
    obtain ⟨hfail, hstall⟩ := (Framing.returns_iff (nextFrame_suffix H)).1 h.returns rest hr
    cases ha : H.announced (rest.take headEnd) with
    | none =>
      rw [Host.nextFrame, hf] at hfail
      dsimp only at hfail
      rw [ha] at hfail
      exact (hfail rfl).elim
    | some length =>
      refine ⟨length, rfl, ?_⟩
      by_cases hlt : (rest.length : Int) < headEnd + 4 + length
      · exact .inl hlt
      · refine .inr ?_
        have hnext := nextFrame_cases (F := F) hf ha
        rw [if_neg hlt] at hnext
        have hpos {f : Option (Json F)} (hframe : H.nextFrame rest =
            .frame f (sliceFrom rest (headEnd + 4 + length))) :=
          (sliceFrom_ne_iff (ne_nil_of_find hf)).1 (hstall f _ hframe)
        dsimp only
        cases hb : (H.loads (slice rest (headEnd + 4) (headEnd + 4 + length)) : Loaded F) with
        | raised =>
          rw [hb] at hnext
          exact (hfail hnext).elim
        | invalid =>
          rw [hb] at hnext
          exact ⟨hpos hnext, nofun, fun _ v hv => (nomatch hv)⟩
        | value v =>
          rw [hb] at hnext
          refine ⟨hpos hnext, nofun, fun h₀ _ _ => ?_⟩
          by_contra hn
          obtain ⟨header, body, more, rfl, rfl, rfl⟩ := exists_body hf hlt h₀
          obtain ⟨hslice, hafter, -⟩ := slices header body more
          rw [hslice] at hn
          rw [hafter] at hnext
          rw [List.take_left] at ha
          obtain ⟨out, hout⟩ := hr.returns h.returns
          have hmore := (h.drops _ hr header body more rfl hf ha hn out).1 hout
          obtain ⟨out', hout', he⟩ := (Framing.returns_frame hnext).1 hout
          have hlen := congrArg (fun o => o.1.length) he
          rw [hmore.unique hout'] at hlen
          exact absurd hlen (Nat.ne_of_lt (Nat.lt_succ_self _))
  · intro h
    refine ⟨?_, fun rest hr header body more he hf ha hn out => ?_⟩
    · rw [Framing.returns_iff (nextFrame_suffix H)]
      exact fun rest hr => (h rest hr).goes
    · obtain ⟨length, ha', hl⟩ := h rest hr _ hf
      subst he
      obtain ⟨hslice, hafter, hlt⟩ := slices header body more
      have ha₀ : H.announced ((header ++ ([13, 10, 13, 10] ++ (body ++ more))).take
          header.length) = some (body.length : Int) := by
        rw [List.take_left, ha]
      rw [ha₀] at ha'
      cases ha'
      obtain hl | ⟨-, hloads, hjson⟩ := hl
      · exact (hlt hl).elim
      · have hnext := nextFrame_cases (F := F) hf ha₀
        rw [if_neg hlt, hafter, hslice] at hnext
        rw [hslice] at hloads hjson
        cases hb : (H.loads body : Loaded F) with
        | value v => exact (hn (hjson (Int.natCast_nonneg _) v hb)).elim
        | raised => exact (hloads hb).elim
        | invalid =>
          rw [hb] at hnext
          rw [Framing.returns_frame hnext]
          constructor
          · rintro ⟨out', hout, rfl⟩
            exact hout
          · exact fun hout => ⟨out, hout, rfl⟩

end

/-- A host that knows the letters and digits of ASCII alone. -/
def Host.ascii : Host := { Interpreter.ascii with maxDigits := 4300, raises := fun _ => false }

/-- A header without more than a length. -/
def lengthHeader (length : String) : List Char := "Content-Length: ".toList ++ length.toList

theorem lengthHeader_chars {length : String}
    (h : length.toList.all (fun c => decide (c.toNat < 128) && c != '\r') = true) :
    ∀ c ∈ lengthHeader length, c.toNat < 128 ∧ c ≠ '\r' := by
  have hname : ∀ c ∈ "Content-Length: ".toList, c.toNat < 128 ∧ c ≠ '\r' :=
    Text.forall_mem_of_all (by decide)
  exact List.forall_mem_append.2 ⟨hname, fun c hc => by simpa using List.all_eq_true.1 h c hc⟩

theorem find_lengthHeader {length : String}
    (h : length.toList.all (fun c => decide (c.toNat < 128) && c != '\r') = true)
    (r : List UInt8) :
    find [13, 10, 13, 10] (utf8 (lengthHeader length) ++ ([13, 10, 13, 10] ++ r)) =
      some (utf8 (lengthHeader length)).length :=
  find_header (lengthHeader_chars h) r

theorem announced_lengthHeader (H : Host) (length : String) (r : List UInt8) :
    H.announced ((utf8 (lengthHeader length) ++ r).take (utf8 (lengthHeader length)).length) =
      H.contentLength 0 (headerLines (lengthHeader length).length (lengthHeader length)) := by
  rw [List.take_left, announced_utf8]

/-- A length that is no integer, one that leads back to the header, and a body that is no text. -/
theorem malformed_blocks :
    ¬ Robust WholeFloat .ascii (utf8 (lengthHeader "x") ++ ([13, 10, 13, 10] ++ [])) ∧
      ¬ Robust WholeFloat .ascii (utf8 (lengthHeader "-23") ++ ([13, 10, 13, 10] ++ [])) ∧
      ¬ Robust WholeFloat .ascii (utf8 (lengthHeader "1") ++ ([13, 10, 13, 10] ++ [255])) := by
  have hlengths :
      Host.ascii.contentLength 0 (headerLines (lengthHeader "x").length (lengthHeader "x")) =
          none ∧
        Host.ascii.contentLength 0 (headerLines (lengthHeader "-23").length (lengthHeader "-23")) =
          some (-23) ∧
        Host.ascii.contentLength 0 (headerLines (lengthHeader "1").length (lengthHeader "1")) =
          some 1 := by
    decide +kernel
  refine ⟨fun h => ?_, fun h => ?_, fun h => ?_⟩
  · obtain ⟨out, hout⟩ := h.returns
    refine Framing.not_returns_of_fail ?_ hout
    rw [Host.nextFrame, find_lengthHeader (by decide)]
    dsimp only
    rw [announced_lengthHeader, hlengths.1]
  · obtain ⟨out, hout⟩ := h.returns
    refine Framing.not_returns_of_stall (f := none) ?_ hout
    have hlen : (utf8 (lengthHeader "-23")).length = 19 := by decide +kernel
    have hloads : (Host.ascii.loads [] : Loaded WholeFloat) = .invalid := by
      have hd : Host.ascii.decodeBytes [] = some [] := utf8Decode_utf8 []
      rw [Host.loads, hd]
      rfl
    have hstart : ((19 : Nat) : Int) + 4 + -23 = 0 := by decide
    have hzero (len : Nat) : position len 0 = 0 := Nat.zero_min len
    rw [nextFrame_cases (find_lengthHeader (by decide) [])
      ((announced_lengthHeader ..).trans hlengths.2.1), hlen, hstart, if_neg (by omega), slice,
      sliceFrom, hzero, List.take_zero, List.drop_nil, hloads]
    rfl
  · obtain ⟨out, hout⟩ := h.returns
    refine Framing.not_returns_of_fail ?_ hout
    have hlen : (([255] : List UInt8).length : Int) = 1 := rfl
    have hloads : (Host.ascii.loads [255] : Loaded WholeFloat) = .raised := by
      have hd : Host.ascii.decodeBytes [255] = none := by decide +kernel
      rw [Host.loads, hd]
    obtain ⟨hslice, -, hlt⟩ := slices (utf8 (lengthHeader "1")) [255] []
    rw [hlen, List.append_nil] at hslice hlt
    rw [nextFrame_cases (find_lengthHeader (by decide) [255])
      ((announced_lengthHeader ..).trans hlengths.2.2)]
    rw [if_neg hlt, hslice, hloads]

end Obase.McpStdio
