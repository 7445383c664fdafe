import Obase.Builtins
import Obase.Concrete
import Obase.Json.Loads
import Obase.Json.RoundTrip
import Obase.Run

namespace Obase.KvCacheSharedMemory
set_option autoImplicit true
open Json

/-- A store, with the block that it is attached to or not. -/
structure Instance where
  size : Nat
  size_pos : 0 < size
  attached : Bool

/-- The shared block of a name, if it has been created, and the stores on it. -/
structure World where
  block : Option (List UInt8)
  stores : Nat → Instance

/-- The exceptions that the slice assignment and the assertion raise. -/
inductive ShmError where
  | valueError
  | assertionError
deriving DecidableEq

def World.attach (w : World) (i : Nat) : World :=
  { w with stores := fun j => if j = i then { w.stores i with attached := true } else w.stores j }

/-- A block is created with zeros, or the one that exists is attached to. -/
def World.allocateBuffer (w : World) (i : Nat) : World :=
  match w.block with
  | none => { w.attach i with block := some (List.replicate (w.stores i).size 0) }
  | some _ => w.attach i

def World.ready (w : World) (i : Nat) : World :=
  if (w.stores i).attached then w else w.allocateBuffer i

section
variable {F : Type} [FloatText F]

/-- A dictionary of JSON values, each of its dictionaries with distinct keys. -/
def JsonObject (F : Type) : Type :=
  { ms : Dict String (Json F) // (Value.dict ms : Json F).Distinct }

/-- `json.dumps(vector_data, ensure_ascii=False, default=str).encode("utf-8")`. -/
def encode (v : JsonObject F) : List UInt8 := utf8 (dumps .default (.dict v.1))

def World.writeLatentState (w : World) (i : Nat) (v : JsonObject F) :
    World × Except ShmError Bool :=
  let w := w.ready i
  let raw := encode v
  if (w.stores i).size < raw.length then (w, .ok false)
  else
    match w.block with
    | none => (w, .error .assertionError)
    | some buf =>
      if raw.length ≤ buf.length then
        ({ w with block := some (raw ++ buf.drop raw.length) }, .ok true)
      else (w, .error .valueError)

/-- What is made of the bytes of the block. -/
def decode (buf : List UInt8) : Dict String (Json F) :=
  match buf.rdropWhile (· == 0) with
  | [] => []
  | raw =>
    match (utf8Decode raw).bind loads with
    | some (.dict ms) => ms
    | _ => []

def World.readLatentState (w : World) (i : Nat) : World × Dict String (Json F) :=
  let w := w.ready i
  match w.block with
  | none => (w, [])
  | some buf => (w, decode buf)

inductive ShmCall (F : Type) [FloatText F] where
  | write (i : Nat) (v : JsonObject F)
  | read (i : Nat)

/-- A call, with the dictionaries of the writes that have returned `True`. -/
def ShmStep (p : World × List (JsonObject F)) : ShmCall F → World × List (JsonObject F) → Prop
  | .write i v, p' =>
    p' = ((p.1.writeLatentState i v).1,
      if (p.1.writeLatentState i v).2 = .ok true then p.2 ++ [v] else p.2)
  | .read i, p' => p' = ((p.1.readLatentState (F := F) i).1, p.2)

/-- Stores of any sizes before their first call. -/
def World.start (sizes : Nat → { n : Nat // 0 < n }) : World :=
  ⟨none, fun i => ⟨sizes i, (sizes i).2, false⟩⟩

/-- What calls on stores of some sizes lead to. -/
def Reached (sizes : Nat → { n : Nat // 0 < n }) (w : World) (written : List (JsonObject F)) :
    Prop :=
  Run.Reaches ShmStep (fun _ _ => True) (World.start sizes, []) (w, written)

/-- The dictionary of the last write that has returned `True`. -/
def lastWritten (written : List (JsonObject F)) : Dict String (Json F) :=
  match written.getLast? with
  | some v => v.1
  | none => []

/-- The size of the block that a call of a store meets. -/
def World.capacity (w : World) (i : Nat) : Nat :=
  match w.block with
  | some buf => buf.length
  | none => (w.stores i).size

end

section
variable {F : Type} [FloatText F]

theorem encode_getLast? (v : JsonObject F) : (encode v).getLast? = some 0x7d := by
  obtain ⟨cs, hd⟩ := dumpsWith_dict_ends stringText .default v.1
  have hb : utf8 ['}'] = [0x7d] := utf8_singleton (by decide)
  rw [encode, dumps_eq, hd, ← List.cons_append, utf8_append, hb, List.getLast?_concat]

theorem encode_ne_nil (v : JsonObject F) : encode v ≠ [] := by
  intro h
  have hl := encode_getLast? v
  rw [h] at hl
  cases hl

/-- The zeros behind the bytes that have been written are dropped. -/
theorem rdropWhile_zeros {bs : List UInt8} (h : bs.getLast? = some 0x7d) (k : Nat) :
    (bs ++ List.replicate k 0).rdropWhile (· == 0) = bs := by
  obtain ⟨ds, rfl⟩ := List.getLast?_eq_some_iff.1 h
  induction k with
  | zero =>
    rw [List.replicate_zero, List.append_nil]
    exact List.rdropWhile_concat_neg _ _ _ (by decide)
  | succ k ih =>
    rw [List.replicate_succ', ← List.append_assoc, List.rdropWhile_concat_pos _ _ _ (by decide)]
    exact ih

theorem decode_bytes {bs : List UInt8} (h : bs.getLast? = some 0x7d) (k : Nat) :
    decode (F := F) (bs ++ List.replicate k 0) =
      match (utf8Decode bs).bind loads with
      | some (.dict ms) => ms
      | _ => [] := by
  rw [decode, rdropWhile_zeros h]
  split
  · cases h
  · rfl

theorem decode_encode (v : JsonObject F) (k : Nat) :
    decode (encode v ++ List.replicate k 0) = v.1 := by
  have hl : loads (dumps .default (.dict v.1 : Json F)) = some (.dict v.1) := by
    rw [loads_dumps, Value.build_of_distinct _ v.2]
  rw [decode_bytes (encode_getLast? v), encode, utf8Decode_utf8, Option.bind_some, hl]

theorem not_blank_tail {w : List Char} {tail : List UInt8} (hw : utf8 w = tail)
    (h : tail.getLast? = some 0x7d) (hblank : ∀ c ∈ w, isWs c = true) : False := by
  have hascii : ∀ c, isWs c = true → c.toNat < 128 ∧ UInt8.ofNat c.toNat ≠ 0x7d := by
    intro c hc
    simp only [isWs, Bool.or_eq_true, beq_iff_eq] at hc
    obtain ((rfl | rfl) | rfl) | rfl := hc
    · decide
    · decide
    · decide
    · decide
  have hm := List.mem_of_getLast? h
  rw [← hw, utf8_ascii fun c hc => (hascii c (hblank c hc)).1] at hm
  obtain ⟨c, hc, he⟩ := List.mem_map.1 hm
  exact (hascii c (hblank c hc)).2 he

/-- A written object with other bytes behind it is no document. -/
theorem decode_trailing (v : JsonObject F) {tail : List UInt8} (h : tail.getLast? = some 0x7d)
    (k : Nat) : decode (F := F) (encode v ++ tail ++ List.replicate k 0) = [] := by
  have hlast : (encode v ++ tail).getLast? = some 0x7d := by
    rw [List.getLast?_append, h]
    rfl
  rw [decode_bytes hlast]
  cases hu : utf8Decode (encode v ++ tail) with
  | none => rfl
  | some t =>
    obtain ⟨w, rfl, hw⟩ := utf8_prefix (utf8_of_decode hu)
    rw [Option.bind_some]
    cases hl : loads (F := F) (dumps .default (.dict v.1 : Json F) ++ w) with
    | none => rfl
    | some u =>
      exact (not_blank_tail hw h (blank_of_loads_trailing hl)).elim

/-- The block holds the bytes of the last write over those of the longest one. -/
structure Overlaid (buf : List UInt8) (written : List (JsonObject F)) (v : JsonObject F) :
    Prop where
  last : written.getLast? = some v
  image : ∃ tail k, buf = encode v ++ tail ++ List.replicate k 0 ∧
    (tail = [] ∨ tail.getLast? = some 0x7d) ∧
    (∀ u ∈ written, (encode u).length ≤ (encode v).length + tail.length) ∧
    ∃ u ∈ written, (encode u).length = (encode v).length + tail.length

/-- What a block holds after the writes on it. -/
inductive Holds : Option (List UInt8) → List (JsonObject F) → Prop
  | missing : Holds none []
  | zeros (k : Nat) : Holds (some (List.replicate k 0)) []
  | overlaid (h : Overlaid buf written v) : Holds (some buf) written

/-- The state of the block and of the stores that calls keep. -/
structure Sound (w : World) (written : List (JsonObject F)) : Prop where
  attached : ∀ i, (w.stores i).attached = true → w.block ≠ none
  holds : Holds w.block written

/-- The block that a call of a store works on. -/
def World.buf (w : World) (i : Nat) : List UInt8 :=
  w.block.getD (List.replicate (w.stores i).size 0)

theorem World.length_buf (w : World) (i : Nat) : (w.buf i).length = w.capacity i := by
  rw [World.buf, World.capacity]
  cases w.block with
  | none => exact List.length_replicate
  | some buf => rfl

theorem World.attach_size (w : World) (i j : Nat) :
    ((w.attach i).stores j).size = (w.stores j).size := by
  rw [World.attach]
  dsimp only
  split
  · rename_i h
    rw [h]
  · rfl

theorem World.ready_size (w : World) (i j : Nat) :
    ((w.ready i).stores j).size = (w.stores j).size := by
  rw [World.ready]
  split
  · rfl
  · rw [World.allocateBuffer]
    split
    · exact w.attach_size i j
    · exact w.attach_size i j

theorem Sound.ready_block {w : World} {written : List (JsonObject F)} (h : Sound w written)
    (i : Nat) : (w.ready i).block = some (w.buf i) := by
  rw [World.ready, World.buf]
  cases hb : w.block with
  | none =>
    rw [if_neg fun ha => h.attached i ha hb, World.allocateBuffer, hb]
    rfl
  | some buf =>
    rw [World.allocateBuffer, hb]
    split
    · exact hb
    · exact hb

theorem Sound.ready {w : World} {written : List (JsonObject F)} (h : Sound w written) (i : Nat) :
    Sound (w.ready i) written := by
  have hb := h.ready_block i
  refine ⟨fun _ _ => ?_, ?_⟩
  · rw [hb]
    exact Option.some_ne_none _
  · rw [hb, World.buf]
    have hh := h.holds
    cases hw : w.block with
    | none =>
      rw [hw] at hh
      cases hh
      exact .zeros _
    | some buf =>
      rw [hw] at hh
      exact hh

theorem Sound.read_eq {w : World} {written : List (JsonObject F)} (h : Sound w written) (i : Nat) :
    w.readLatentState (F := F) i = (w.ready i, decode (w.buf i)) := by
  rw [World.readLatentState, h.ready_block i]

/-- The three ways in which a write ends. -/
theorem Sound.write_cases {w : World} {written : List (JsonObject F)} (h : Sound w written)
    (i : Nat) (v : JsonObject F) :
    ((w.stores i).size < (encode v).length ∧ w.writeLatentState i v = (w.ready i, .ok false)) ∨
      ((encode v).length ≤ (w.stores i).size ∧ (encode v).length ≤ w.capacity i ∧
        w.writeLatentState i v =
          ({ w.ready i with block := some (encode v ++ (w.buf i).drop (encode v).length) },
            .ok true)) ∨
      ((encode v).length ≤ (w.stores i).size ∧ w.capacity i < (encode v).length ∧
        w.writeLatentState i v = (w.ready i, .error .valueError)) := by
  rw [World.writeLatentState]
  dsimp only
  rw [w.ready_size i i, h.ready_block i, ← w.length_buf i]
  dsimp only
  by_cases hs : (w.stores i).size < (encode v).length
  · rw [if_pos hs]
    exact .inl ⟨hs, rfl⟩
  · rw [if_neg hs]
    by_cases hc : (encode v).length ≤ (w.buf i).length
    · rw [if_pos hc]
      exact .inr (.inl ⟨Nat.not_lt.1 hs, hc, rfl⟩)
    · rw [if_neg hc]
      exact .inr (.inr ⟨Nat.not_lt.1 hs, Nat.not_le.1 hc, rfl⟩)

theorem Holds.write {buf : List UInt8} {written : List (JsonObject F)}
    (h : Holds (some buf) written) (v : JsonObject F) :
    Holds (some (encode v ++ buf.drop (encode v).length)) (written ++ [v]) := by
  have hall {n : Nat} (hn : ∀ u ∈ written, (encode u).length ≤ n) (hv : (encode v).length ≤ n) :
      ∀ u ∈ written ++ [v], (encode u).length ≤ n := by
    intro u hu
    obtain hu | hu := List.mem_append.1 hu
    · exact hn u hu
    · rw [List.mem_singleton.1 hu]
      exact hv
  have hlast : (written ++ [v]).getLast? = some v := List.getLast?_concat
  cases h with
  | zeros k =>
    refine .overlaid ⟨hlast, [], k - (encode v).length, ?_, .inl rfl, hall nofun (Nat.le_refl _),
      v, List.mem_append_right _ (List.mem_singleton_self v), rfl⟩
    rw [List.append_nil, List.drop_replicate]
  | @overlaid _ _ v₀ h =>
    obtain ⟨tail, k, rfl, htail, hle, u, hu, he⟩ := h.image
    have himage : (encode v₀ ++ tail).getLast? = some 0x7d := by
      obtain rfl | htail := htail
      · rw [List.append_nil]
        exact encode_getLast? v₀
      · rw [List.getLast?_append, htail]
        rfl
    have hlen : (encode v₀ ++ tail).length = (encode v₀).length + tail.length :=
      List.length_append
    by_cases hn : (encode v).length < (encode v₀ ++ tail).length
    · refine .overlaid ⟨hlast, (encode v₀ ++ tail).drop (encode v).length, k, ?_, .inr ?_,
        hall ?_ ?_, u, List.mem_append_left _ hu, ?_⟩
      · rw [List.drop_append_of_le_length (Nat.le_of_lt hn), List.append_assoc]
      · rw [List.getLast?_drop, if_neg (Nat.not_le.2 hn)]
        exact himage
      · intro u hu
        rw [List.length_drop, hlen]
        have := hle u hu
        omega
      · rw [List.length_drop]
        omega
      · rw [List.length_drop, he]
        omega
    · have hn := Nat.not_lt.1 hn
      refine .overlaid ⟨hlast, [], k - ((encode v).length - (encode v₀ ++ tail).length), ?_,
        .inl rfl, hall ?_ (Nat.le_refl _), v, List.mem_append_right _ (List.mem_singleton_self v),
        rfl⟩
      · rw [List.append_nil, List.drop_append, List.drop_of_length_le hn, List.nil_append,
          List.drop_replicate]
      · intro u hu
        exact (hle u hu).trans (hlen ▸ hn)

theorem Sound.step {w w' : World} {written written' : List (JsonObject F)} {c : ShmCall F}
    (h : Sound w written) (hs : ShmStep (w, written) c (w', written')) : Sound w' written' := by
  cases c with
  | read i =>
    rw [ShmStep, h.read_eq i] at hs
    cases hs
    exact h.ready i
  | write i v =>
    rw [ShmStep] at hs
    obtain ⟨hsize, he⟩ | ⟨hsize, hcap, he⟩ | ⟨hsize, hcap, he⟩ := h.write_cases i v
    · rw [he, if_neg (by simp)] at hs
      cases hs
      exact h.ready i
    · rw [he, if_pos rfl] at hs
      cases hs
      have hh := (h.ready i).holds
      rw [h.ready_block i] at hh
      exact ⟨fun _ _ => Option.some_ne_none _, hh.write v⟩
    · rw [he, if_neg (by simp)] at hs
      cases hs
      exact h.ready i

theorem Reached.sound {sizes : Nat → { n : Nat // 0 < n }} {w : World}
    {written : List (JsonObject F)} (h : Reached sizes w written) : Sound w written := by
  refine Run.Reaches.invariant (I := fun p : World × List (JsonObject F) => Sound p.1 p.2) h
    ⟨fun _ h => (nomatch h), .missing⟩ ?_
  intro p c p' hp _ hs
  exact hp.step hs

theorem decode_zeros (k : Nat) : decode (F := F) (List.replicate k 0) = [] := by
  have hz : (List.replicate k (0 : UInt8)).rdropWhile (· == 0) = [] := by
    rw [List.rdropWhile_eq_nil_iff]
    intro b hb
    rw [List.eq_of_mem_replicate hb]
    rfl
  rw [decode, hz]

/-- What is read of a block that is created by the call is what is read of an empty one. -/
theorem Sound.decode_buf {w : World} {written : List (JsonObject F)} (h : Sound w written)
    (i j : Nat) : decode (F := F) ((w.ready i).buf j) = decode (w.buf j) := by
  rw [World.buf, h.ready_block i, Option.getD_some, World.buf, World.buf]
  cases w.block with
  | none => rw [Option.getD_none, Option.getD_none, decode_zeros, decode_zeros]
  | some buf => rfl

/-- The last dictionary is read exactly when it is empty or no earlier one was longer. -/
theorem Sound.read_iff {w : World} {written : List (JsonObject F)} (h : Sound w written) (i : Nat) :
    (w.readLatentState (F := F) i).2 = lastWritten written ↔
      lastWritten written = [] ∨
        ∃ v, written.getLast? = some v ∧ ∀ u ∈ written, (encode u).length ≤ (encode v).length := by
  rw [h.read_eq i, World.buf]
  have hh := h.holds
  generalize w.block = block at hh
  cases hh with
  | missing => exact iff_of_true (decode_zeros _) (.inl rfl)
  | zeros k => exact iff_of_true (decode_zeros k) (.inl rfl)
  | @overlaid buf _ v h =>
    obtain ⟨tail, k, rfl, htail, hle, u, hu, he⟩ := h.image
    have hw : lastWritten written = v.1 := by rw [lastWritten, h.last]
    rw [hw, Option.getD_some]
    obtain rfl | htail := htail
    · refine iff_of_true ?_ (.inr ⟨v, h.last, hle⟩)
      rw [List.append_nil]
      exact decode_encode v k
    · rw [decode_trailing v htail k]
      constructor
      · intro hv
        exact .inl hv.symm
      · rintro (hv | ⟨v', hv', hmax⟩)
        · exact hv.symm
        · rw [h.last] at hv'
          cases hv'
          have hpos : tail ≠ [] := by
            rintro rfl
            cases htail
          have hlen := List.length_pos_of_ne_nil hpos
          have := hmax u hu
          omega

/-- A write that does not fit the block is refused exactly when it exceeds the store's own size. -/
theorem Sound.refused_iff {w : World} {written : List (JsonObject F)} (h : Sound w written)
    {i : Nat} {v : JsonObject F} (hv : w.capacity i < (encode v).length) :
    ((w.writeLatentState i v).2 = .ok false ∧ ∀ j,
      ((w.writeLatentState i v).1.readLatentState (F := F) j).2 =
        (w.readLatentState (F := F) j).2) ↔ (w.stores i).size < (encode v).length := by
  obtain ⟨hsize, he⟩ | ⟨hsize, hcap, he⟩ | ⟨hsize, hcap, he⟩ := h.write_cases i v
  · refine iff_of_true ⟨by rw [he], fun j => ?_⟩ hsize
    rw [he, (h.ready i).read_eq j, h.read_eq j]
    exact h.decode_buf i j
  · exact (Nat.not_lt.2 hcap hv).elim
  · refine iff_of_false (fun hr => ?_) (Nat.not_lt.2 hsize)
    rw [he] at hr
    cases hr.1

/-- In every state that calls lead to: a read returns the last dictionary that was written exactly
when that is empty or no earlier one had a longer encoding, and a write that does not fit the block
is refused, without an effect, exactly when it exceeds the size argument of its own store. -/
theorem latent_state_iff {sizes : Nat → { n : Nat // 0 < n }} {w : World}
    {written : List (JsonObject F)} (h : Reached sizes w written) :
    (∀ i, (w.readLatentState (F := F) i).2 = lastWritten written ↔
      lastWritten written = [] ∨ ∃ v, written.getLast? = some v ∧
        ∀ u ∈ written, (encode u).length ≤ (encode v).length) ∧
    ∀ i (v : JsonObject F), w.capacity i < (encode v).length →
      (((w.writeLatentState i v).2 = .ok false ∧ ∀ j,
        ((w.writeLatentState i v).1.readLatentState (F := F) j).2 =
          (w.readLatentState (F := F) j).2) ↔ (w.stores i).size < (encode v).length) :=
  ⟨h.sound.read_iff, fun _ _ hv => h.sound.refused_iff hv⟩

/-- A write that fits leads to the next state of a run. -/
theorem Reached.write {sizes : Nat → { n : Nat // 0 < n }} {w : World}
    {written : List (JsonObject F)} (h : Reached sizes w written) {i : Nat} {v : JsonObject F}
    (hs : (encode v).length ≤ (w.stores i).size) (hc : (encode v).length ≤ w.capacity i) :
    ∃ w', Reached sizes w' (written ++ [v]) ∧ w'.capacity i = w.capacity i ∧
      ∀ j, (w'.stores j).size = (w.stores j).size := by
  obtain ⟨hsize, -⟩ | ⟨-, -, he⟩ | ⟨-, hcap, -⟩ := h.sound.write_cases i v
  · exact (Nat.not_lt.2 hs hsize).elim
  · refine ⟨{ w.ready i with block := some (encode v ++ (w.buf i).drop (encode v).length) },
      Run.Reaches.tail (a := .write i v) h trivial ?_, ?_, w.ready_size i⟩
    · rw [ShmStep, he, if_pos rfl]
    · change (encode v ++ (w.buf i).drop (encode v).length).length = _
      rw [List.length_append, List.length_drop, w.length_buf]
      omega
  · exact (Nat.not_lt.2 hc hcap).elim

end

def longState : JsonObject WholeFloat :=
  ⟨[("a", .int 10)], List.nodup_singleton _, trivial, trivial⟩

def shortState : JsonObject WholeFloat :=
  ⟨[("a", .int 1)], List.nodup_singleton _, trivial, trivial⟩

theorem length_states : (encode longState).length = 9 ∧ (encode shortState).length = 8 := by
  decide +kernel

/-- A longer dictionary is written before a shorter one. -/
theorem shorter_reached :
    ∃ w, Reached (fun _ => ⟨9, by decide⟩) w [longState, shortState] := by
  have h₀ : Reached (F := WholeFloat) (fun _ => ⟨9, by decide⟩)
      (World.start fun _ => ⟨9, by decide⟩) [] := Run.Reaches.refl _
  obtain ⟨hl, hs⟩ := length_states
  obtain ⟨w, h, hc, hw⟩ := h₀.write (i := 0) (v := longState) hl.le hl.le
  obtain ⟨w', h', -⟩ := h.write (i := 0) (v := shortState)
    (by rw [hs, hw]; decide) (by rw [hs, hc]; decide)
  exact ⟨w', h'⟩

theorem not_longest : ¬ ∃ v, [longState, shortState].getLast? = some v ∧
    ∀ u ∈ [longState, shortState], (encode u).length ≤ (encode v).length := by
  rintro ⟨v, hv, hle⟩
  cases hv
  obtain ⟨hl, hs⟩ := length_states
  have hmax : (encode longState).length ≤ (encode shortState).length :=
    hle longState (List.mem_cons_self ..)
  omega

theorem latent_state_iff_shorter :
    ∃ w : World, ∀ i, (w.readLatentState (F := WholeFloat) i).2 ≠ shortState.1 := by
  obtain ⟨w, h⟩ := shorter_reached
  refine ⟨w, fun i hr => ?_⟩
  obtain he | he := ((latent_state_iff h).1 i).1 hr
  · cases he
  · exact not_longest he

/-- Not every read returns what was written last. -/
theorem latent_state_lost : ¬ ∀ (sizes : Nat → { n : Nat // 0 < n }) (w : World)
    (written : List (JsonObject WholeFloat)), Reached sizes w written →
      (∀ i, (w.readLatentState (F := WholeFloat) i).2 = lastWritten written) ∧
      ∀ i (v : JsonObject WholeFloat), w.capacity i < (encode v).length →
        (w.writeLatentState i v).2 = .ok false ∧ ∀ j,
          ((w.writeLatentState i v).1.readLatentState (F := WholeFloat) j).2 =
            (w.readLatentState (F := WholeFloat) j).2 := by
  intro hall
  obtain ⟨w, h⟩ := shorter_reached
  obtain he | he := (h.sound.read_iff 0).1 ((hall _ w _ h).1 0)
  · cases he
  · exact not_longest he

end Obase.KvCacheSharedMemory
