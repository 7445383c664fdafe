import Mathlib.Data.List.Infix

namespace Obase.Framing
set_option autoImplicit true

/-- What a reader makes of what has come so far: it waits for more, it fails, or it takes a frame
off, which it may drop. -/
inductive Next (β φ : Type) where
  | wait
  | fail
  | frame (f : Option φ) (rest : List β)

/-- The frames that are complete, and what is left. -/
def decode (next : List β → Next β φ) : Nat → List β → Option (List φ × List β)
  | 0, _ => none
  | n + 1, buf =>
    match next buf with
    | .wait => some ([], buf)
    | .fail => none
    | .frame f rest => (decode next n rest).map fun r => (f.toList ++ r.1, r.2)

/-- The frames that a reader yields of chunks one after another, and what is left. -/
def feed (decode : List β → Option (List φ × List β)) :
    List β → List (List β) → Option (List φ × List β)
  | buf, [] => some ([], buf)
  | buf, chunk :: chunks =>
    match decode (buf ++ chunk) with
    | none => none
    | some (frames, buf) => (feed decode buf chunks).map fun r => (frames ++ r.1, r.2)

/-- Written frames are taken off one by one, and a part of one is waited for. -/
structure Delimited {α : Type} (next : List β → Next β φ) (encode : α → List β)
    (value : α → φ) : Prop where
  nil : next [] = .wait
  frame : ∀ p r, next (encode p ++ r) = .frame (some (value p)) r
  wait : ∀ p r, r <+: encode p → r ≠ encode p → next r = .wait

variable {α : Type} {next : List β → Next β φ} {encode : α → List β} {value : α → φ} {buf : List β}
  {ps : List α}

def stream (encode : α → List β) (ps : List α) : List β := (ps.map encode).flatten

/-- Less has come than the next frame. -/
def Partial (encode : α → List β) (ps : List α) (buf : List β) : Prop :=
  ∀ p ∈ ps.head?, buf.length < (encode p).length

theorem Delimited.encode_ne_nil (h : Delimited next encode value) (p : α) :
    0 < (encode p).length := by
  rw [List.length_pos_iff]
  intro he
  have hf := h.frame p []
  rw [he, List.append_nil, h.nil] at hf
  cases hf

/-- A part of a stream is read as its frames, with less than a frame left. -/
theorem Delimited.decode_prefix (h : Delimited next encode value) {more : List β} {n : Nat}
    (hb : buf ++ more = stream encode ps) (hn : buf.length < n) :
    ∃ qs rs rest, ps = qs ++ rs ∧ rest ++ more = stream encode rs ∧ Partial encode rs rest ∧
      decode next n buf = some (qs.map value, rest) := by
  induction n generalizing ps buf with
  | zero => exact absurd hn (Nat.not_lt_zero _)
  | succ n ih =>
    cases ps with
    | nil =>
      obtain ⟨rfl, rfl⟩ := List.append_eq_nil_iff.1 hb
      refine ⟨[], [], [], rfl, rfl, fun p hp => (nomatch hp), ?_⟩
      rw [decode, h.nil]
      rfl
    | cons p ps =>
      have hs : stream encode (p :: ps) = encode p ++ stream encode ps := rfl
      rw [hs] at hb
      by_cases hlt : buf.length < (encode p).length
      · have hpre : buf <+: encode p := List.prefix_of_prefix_length_le ⟨more, hb⟩
          (List.prefix_append ..) (Nat.le_of_lt hlt)
        have hne : buf ≠ encode p := by
          rintro rfl
          exact Nat.lt_irrefl _ hlt
        refine ⟨[], p :: ps, buf, rfl, hb, ?_, ?_⟩
        · intro q hq
          cases hq
          exact hlt
        · rw [decode, h.wait p buf hpre hne]
          rfl
      · obtain ⟨r, rfl⟩ := List.prefix_of_prefix_length_le (List.prefix_append ..) ⟨more, hb⟩
          (Nat.le_of_not_lt hlt)
        have hpos := h.encode_ne_nil p
        rw [List.length_append] at hn
        rw [List.append_assoc, List.append_cancel_left_eq] at hb
        obtain ⟨qs, rs, rest, rfl, hrest, hp, hd⟩ := ih hb (by omega)
        refine ⟨p :: qs, rs, rest, rfl, hrest, hp, ?_⟩
        rw [decode, h.frame]
        dsimp only
        rw [hd]
        rfl

/-- A stream is read as its frames, however it is cut. -/
theorem Delimited.feed_eq (h : Delimited next encode value) {chunks : List (List β)}
    (hb : buf ++ chunks.flatten = stream encode ps) (hp : Partial encode ps buf) :
    feed (fun buf => decode next (buf.length + 1) buf) buf chunks =
      some (ps.map value, []) := by
  induction chunks generalizing ps buf with
  | nil =>
    rw [List.flatten_nil, List.append_nil] at hb
    subst hb
    cases ps with
    | nil => rfl
    | cons p ps =>
      have hlt := hp p rfl
      have hs : stream encode (p :: ps) = encode p ++ stream encode ps := rfl
      rw [hs, List.length_append] at hlt
      omega
  | cons chunk chunks ih =>
    rw [List.flatten_cons, ← List.append_assoc] at hb
    obtain ⟨qs, rs, rest, rfl, hrest, hp, hd⟩ := h.decode_prefix hb (Nat.lt_succ_self _)
    rw [feed, hd]
    dsimp only
    rw [ih hrest hp, List.map_append]
    rfl

/-- The reader's loop ends on what has come, with some frames and with what is left. -/
def Returns (next : List β → Next β φ) (buf : List β) (out : List φ × List β) : Prop :=
  ∃ n, decode next n buf = some out

/-- What is left at some turn of the reader's loop. -/
inductive Reaches (next : List β → Next β φ) : List β → List β → Prop where
  | refl {l : List β} : Reaches next l l
  | step {l l' r : List β} {f : Option φ} : next l = .frame f l' → Reaches next l' r →
    Reaches next l r

variable {out : List φ × List β} {f : Option φ} {rest : List β}

theorem returns_wait (h : next buf = .wait) : Returns next buf ([], buf) := by
  refine ⟨1, ?_⟩
  rw [decode, h]

theorem not_returns_of_fail (h : next buf = .fail) : ¬ Returns next buf out := by
  rintro ⟨n, hn⟩
  cases n with
  | zero => cases hn
  | succ n =>
    rw [decode, h] at hn
    cases hn

theorem returns_frame (h : next buf = .frame f rest) : Returns next buf out ↔
    ∃ out', Returns next rest out' ∧ out = (f.toList ++ out'.1, out'.2) := by
  constructor
  · rintro ⟨n, hn⟩
    cases n with
    | zero => cases hn
    | succ n =>
      rw [decode, h] at hn
      obtain ⟨out', hout, rfl⟩ := Option.map_eq_some_iff.1 hn
      exact ⟨out', ⟨n, hout⟩, rfl⟩
  · rintro ⟨out', ⟨n, hn⟩, rfl⟩
    refine ⟨n + 1, ?_⟩
    rw [decode, h]
    dsimp only
    rw [hn]
    rfl

theorem not_returns_of_stall (h : next buf = .frame f buf) : ¬ Returns next buf out := by
  rintro ⟨n, hn⟩
  induction n generalizing out with
  | zero => cases hn
  | succ n ih =>
    rw [decode, h] at hn
    obtain ⟨out', hout, -⟩ := Option.map_eq_some_iff.1 hn
    exact ih hout

theorem Returns.unique {out' : List φ × List β} (h : Returns next buf out)
    (h' : Returns next buf out') : out = out' := by
  obtain ⟨n, hn⟩ := h
  induction n generalizing buf out out' with
  | zero => cases hn
  | succ n ih =>
    cases hb : next buf with
    | wait =>
      obtain ⟨m, hm⟩ := h'
      cases m with
      | zero => cases hm
      | succ m =>
        rw [decode, hb] at hn hm
        cases hn
        cases hm
        rfl
    | fail => exact (not_returns_of_fail hb h').elim
    | frame f rest =>
      rw [decode, hb] at hn
      obtain ⟨out₁, hout, rfl⟩ := Option.map_eq_some_iff.1 hn
      obtain ⟨out₂, h₂, rfl⟩ := (returns_frame hb).1 h'
      rw [ih h₂ hout]

theorem Reaches.returns (hr : Reaches next buf rest) (h : ∃ out, Returns next buf out) :
    ∃ out, Returns next rest out := by
  induction hr with
  | refl => exact h
  | step hf _ ih =>
    obtain ⟨out, hout⟩ := h
    obtain ⟨out', h', -⟩ := (returns_frame hf).1 hout
    exact ih ⟨out', h'⟩

/-- A reader that only takes something off returns exactly if at no turn it fails or takes nothing
off. -/
theorem returns_iff (hs : ∀ buf f rest, next buf = .frame f rest → rest <:+ buf) :
    (∃ out, Returns next buf out) ↔ ∀ rest, Reaches next buf rest →
      next rest ≠ .fail ∧ ∀ f r, next rest = .frame f r → r ≠ rest := by
  constructor
  · intro h rest hr
    obtain ⟨out, h⟩ := hr.returns h
    refine ⟨fun hf => not_returns_of_fail hf h, fun f r hf he => ?_⟩
    subst he
    exact not_returns_of_stall hf h
  · intro h
    induction hn : buf.length using Nat.strongRecOn generalizing buf with
    | ind n ih =>
      cases hb : next buf with
      | wait => exact ⟨_, returns_wait hb⟩
      | fail => exact ((h buf .refl).1 hb).elim
      | frame f rest =>
        have hne := (h buf .refl).2 f rest hb
        have hlt : rest.length < n := by
          rw [← hn]
          exact lt_of_le_of_ne (hs _ _ _ hb).length_le fun he => hne ((hs _ _ _ hb).eq_of_length he)
        obtain ⟨out, hout⟩ := ih _ hlt (fun r hr => h r (.step hb hr)) rfl
        exact ⟨_, (returns_frame hb).2 ⟨out, hout, rfl⟩⟩

end Obase.Framing
