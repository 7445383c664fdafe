import Mathlib.Data.List.Forall2
import Obase.MaximalRuns

namespace Obase.VadPipeline
set_option autoImplicit true
open MaximalRuns

/-- The floating-point steps: `math.sqrt(total / n) / 32768.0` and `>=`. -/
class Floats (F : Type) where
  zero : F
  level : (total : Int) → (n : Nat) → F
  ge : F → F → Bool

/-- The 16-bit little-endian samples of a frame, a last odd byte left out. -/
def samples : List UInt8 → List Int
  | lo :: hi :: frame =>
    let n : Int := hi.toNat * 256 + lo.toNat
    (if n < 32768 then n else n - 65536) :: samples frame
  | _ => []

/-- `_rms`. -/
def rms [Floats F] (frame : List UInt8) : F :=
  match samples frame with
  | [] => Floats.zero
  | s :: ss => Floats.level (((s :: ss).map fun s => s * s).foldl (· + ·) 0) (s :: ss).length

structure EnergyVAD (F : Type) where
  threshold : F
  smoothing : Nat
  history : List Bool

/-- The history after a raw decision. -/
def push (smoothing : Nat) (history : List Bool) (raw : Bool) : List Bool :=
  if smoothing < (history ++ [raw]).length then (history ++ [raw]).drop 1 else history ++ [raw]

/-- What is decided of a frame: by itself until the window is full, then by the majority. -/
def decision (smoothing : Nat) (history : List Bool) (raw : Bool) : Bool :=
  let window := push smoothing history raw
  if window.length < smoothing then raw else (smoothing + 1) / 2 ≤ window.count true

namespace EnergyVAD
variable [Floats F]

def new (threshold : F) (smoothing : Int) : EnergyVAD F := ⟨threshold, (max 1 smoothing).toNat, []⟩

/-- The raw decision of a frame. -/
def raw (vad : EnergyVAD F) (frame : List UInt8) : Bool := Floats.ge (rms frame) vad.threshold

def isSpeech (vad : EnergyVAD F) (frame : List UInt8) : Bool × EnergyVAD F :=
  (decision vad.smoothing vad.history (vad.raw frame),
    { vad with history := push vad.smoothing vad.history (vad.raw frame) })

/-- The decisions of the frames of a call. -/
def voiced (vad : EnergyVAD F) : List (List UInt8) → List Bool × EnergyVAD F
  | [] => ([], vad)
  | frame :: frames =>
    let (v, vad) := vad.isSpeech frame
    let (vs, vad) := vad.voiced frames
    (v :: vs, vad)

end EnergyVAD

structure Segment where
  startFrame : Nat
  endFrame : Nat
  frames : Nat
  speech : Bool
deriving DecidableEq

/-- The loop over the decisions: the segments from a frame on, `start` where a run is open. -/
def segments (n minSegmentFrames padFrames : Nat) : List Bool → Nat → Option Nat → List Segment
  | [], _, none => []
  | [], _, some start =>
    if minSegmentFrames ≤ n - start then [⟨start - padFrames, n, n - start, true⟩] else []
  | true :: voiced, i, none => segments n minSegmentFrames padFrames voiced (i + 1) (some i)
  | true :: voiced, i, some start =>
    segments n minSegmentFrames padFrames voiced (i + 1) (some start)
  | false :: voiced, i, none => segments n minSegmentFrames padFrames voiced (i + 1) none
  | false :: voiced, i, some start =>
    if minSegmentFrames ≤ i - start then
      ⟨start - padFrames, min n (i + padFrames), i - start, true⟩ ::
        segments n minSegmentFrames padFrames voiced (i + 1) none
    else segments n minSegmentFrames padFrames voiced (i + 1) none

/-- `VADPipeline.detect_speech_segments` in energy mode. -/
def EnergyVAD.detectSpeechSegments [Floats F] (vad : EnergyVAD F) (frames : List (List UInt8))
    (minSegmentFrames padFrames : Nat) : List Segment × EnergyVAD F :=
  let (voiced, vad) := vad.voiced frames
  (segments frames.length minSegmentFrames padFrames voiced 0 none, vad)

/-- A call on a pipeline. -/
inductive Call where
  | isSpeech (frame : List UInt8)
  | detectSpeechSegments (frames : List (List UInt8)) (minSegmentFrames padFrames : Nat)

/-- The pipeline after a call. -/
def EnergyVAD.after [Floats F] (vad : EnergyVAD F) : Call → EnergyVAD F
  | .isSpeech frame => (vad.isSpeech frame).2
  | .detectSpeechSegments frames minSegmentFrames padFrames =>
    (vad.detectSpeechSegments frames minSegmentFrames padFrames).2

def Call.frames : Call → List (List UInt8)
  | .isSpeech frame => [frame]
  | .detectSpeechSegments frames _ _ => frames

/-- The segments of a call belong to the long enough runs of the frames that it decides are
voiced. -/
def Segmented (voiced : List Bool) (minSegmentFrames padFrames : Nat) (segs : List Segment) :
    Prop :=
  ∃ rs : List (Nat × Nat), (∀ a b, (a, b) ∈ rs ↔
      MaximalRun voiced a b ∧ minSegmentFrames ≤ b - a) ∧
    rs.Pairwise (fun p q => p.2 < q.1) ∧
    List.Forall₂ (fun (s : Segment) r => s.startFrame ≤ r.1 ∧ r.1 ≤ s.startFrame + padFrames ∧
      r.2 ≤ s.endFrame ∧ s.endFrame ≤ r.2 + padFrames ∧ s.endFrame ≤ voiced.length ∧
      s.frames = r.2 - r.1) segs rs

/-- What the detection is for, on a pipeline that calls have been made on. -/
structure Detects [Floats F] (threshold : F) (smoothing : Int) (calls : List Call) : Prop where
  independent : ∀ frames minSegmentFrames padFrames, 1 ≤ minSegmentFrames →
    ((calls.foldl EnergyVAD.after (.new threshold smoothing)).detectSpeechSegments frames
      minSegmentFrames padFrames).1 =
    ((EnergyVAD.new threshold smoothing).detectSpeechSegments frames minSegmentFrames padFrames).1
  segmented : ∀ frames minSegmentFrames padFrames, 1 ≤ minSegmentFrames →
    let vad := calls.foldl EnergyVAD.after (.new threshold smoothing)
    Segmented (vad.voiced frames).1 minSegmentFrames padFrames
      (vad.detectSpeechSegments frames minSegmentFrames padFrames).1

theorem segments_eq (n m p : Nat) {vs : List Bool} {i : Nat} (hn : n = i + vs.length)
    (start : Option Nat) : segments n m p vs i start =
      ((runsFrom vs i start).filter fun r => m ≤ r.2 - r.1).map
        fun r => ⟨r.1 - p, min n (r.2 + p), r.2 - r.1, true⟩ := by
  induction vs generalizing i start with
  | nil =>
    obtain rfl : n = i := hn
    cases start with
    | none => rfl
    | some a =>
      rw [segments, runsFrom]
      by_cases hm : m ≤ n - a
      · rw [if_pos hm, List.filter_cons_of_pos (by simpa using hm)]
        simp
      · rw [if_neg hm, List.filter_cons_of_neg (by simpa using hm)]
        rfl
  | cons x vs ih =>
    have hn' : n = i + 1 + vs.length := by
      rw [hn, List.length_cons]
      omega
    cases x with
    | true =>
      cases start with
      | none => exact ih hn' _
      | some a => exact ih hn' _
    | false =>
      cases start with
      | none => exact ih hn' _
      | some a =>
        rw [segments, runsFrom, ih hn']
        by_cases hm : m ≤ i - a
        · rw [if_pos hm, List.filter_cons_of_pos (by simpa using hm)]
          rfl
        · rw [if_neg hm, List.filter_cons_of_neg (by simpa using hm)]

theorem segmented_segments (voiced : List Bool) (m p : Nat) :
    Segmented voiced m p (segments voiced.length m p voiced 0 none) := by
  refine ⟨(runs voiced).filter fun r => m ≤ r.2 - r.1, fun a b => ?_, ?_, ?_⟩
  · rw [List.mem_filter, mem_runs, decide_eq_true_eq]
  · exact (runs_ordered voiced).filter _
  · rw [segments_eq voiced.length m p (Nat.zero_add _).symm, ← runs, List.forall₂_map_left_iff,
      List.forall₂_same]
    rintro ⟨a, b⟩ hr
    have hrun := mem_runs.1 (List.mem_filter.1 hr).1
    have hlt := hrun.lt
    have hb : b ≤ voiced.length := by
      have := (List.getElem?_eq_some_iff.1 (hrun.inside (b - 1) (by omega) (by omega))).1
      omega
    dsimp only
    omega

/-- The decisions of a list of raw ones. -/
def decisions (s : Nat) : List Bool → List Bool → List Bool
  | _, [] => []
  | h, r :: rs => decision s h r :: decisions s (push s h r) rs

section
variable [Floats F]

theorem voiced_eq (vad : EnergyVAD F) (frames : List (List UInt8)) :
    vad.voiced frames = (decisions vad.smoothing vad.history (frames.map vad.raw),
      { vad with history := (frames.map vad.raw).foldl (push vad.smoothing) vad.history }) := by
  induction frames generalizing vad with
  | nil => rfl
  | cons frame frames ih =>
    rw [EnergyVAD.voiced, EnergyVAD.isSpeech]
    dsimp only
    rw [ih]
    rfl

theorem length_voiced (vad : EnergyVAD F) (frames : List (List UInt8)) :
    (vad.voiced frames).1.length = frames.length := by
  induction frames generalizing vad with
  | nil => rfl
  | cons frame frames ih => rw [EnergyVAD.voiced, List.length_cons, ih, List.length_cons]

/-- The pipeline after calls knows their frames by the raw decisions alone. -/
theorem after_calls (vad : EnergyVAD F) (calls : List Call) :
    calls.foldl EnergyVAD.after vad =
      { vad with
        history := ((calls.flatMap Call.frames).map vad.raw).foldl (push vad.smoothing)
          vad.history } := by
  induction calls generalizing vad with
  | nil => rfl
  | cons c calls ih =>
    have hc : vad.after c = { vad with
        history := (c.frames.map vad.raw).foldl (push vad.smoothing) vad.history } := by
      cases c with
      | isSpeech frame => rfl
      | detectSpeechSegments frames m p =>
        rw [EnergyVAD.after, EnergyVAD.detectSpeechSegments, voiced_eq]
        rfl
    rw [List.foldl_cons, ih, hc, List.flatMap_cons, List.map_append, List.foldl_append]
    rfl

theorem detectSpeechSegments_segmented (vad : EnergyVAD F) (frames : List (List UInt8))
    (m p : Nat) :
    Segmented (vad.voiced frames).1 m p (vad.detectSpeechSegments frames m p).1 := by
  rw [EnergyVAD.detectSpeechSegments, ← length_voiced vad frames]
  exact segmented_segments ..

/-- Segments of any length and without padding give the decisions back. -/
theorem voiced_of_segments {vad vad' : EnergyVAD F} {frames : List (List UInt8)}
    (h : (vad.detectSpeechSegments frames 1 0).1 = (vad'.detectSpeechSegments frames 1 0).1) :
    (vad.voiced frames).1 = (vad'.voiced frames).1 := by
  have hruns (w : EnergyVAD F) : (w.detectSpeechSegments frames 1 0).1 =
      (runs (w.voiced frames).1).map fun r => ⟨r.1, r.2, r.2 - r.1, true⟩ := by
    rw [EnergyVAD.detectSpeechSegments]
    dsimp only
    rw [segments_eq frames.length 1 0 (by rw [length_voiced, Nat.zero_add]), ← runs,
      List.filter_eq_self.2]
    · apply List.map_congr_left
      rintro ⟨a, b⟩ hr
      have hrun := mem_runs.1 hr
      have hlt := hrun.lt
      have hb := (List.getElem?_eq_some_iff.1 (hrun.inside (b - 1) (by omega) (by omega))).1
      rw [length_voiced] at hb
      have hmin : min frames.length (b + 0) = b := by omega
      rw [Segment.mk.injEq]
      exact ⟨rfl, hmin, rfl, rfl⟩
    · rintro ⟨a, b⟩ hr
      have hlt := (mem_runs.1 hr).lt
      rw [decide_eq_true_eq]
      dsimp only
      omega
  rw [hruns, hruns] at h
  apply runs_injective (by rw [length_voiced, length_voiced])
  apply List.map_injective_iff.2 _ h
  rintro ⟨a, b⟩ ⟨a', b'⟩ he
  cases he
  rfl

end

theorem push_of_lt {s : Nat} {h : List Bool} (hl : h.length < s) (r : Bool) :
    push s h r = h ++ [r] := by
  rw [push, if_neg]
  rw [List.length_append, List.length_singleton]
  omega

theorem push_of_full {s : Nat} {h : List Bool} (hs : 1 ≤ s) (hl : h.length = s) (r : Bool) :
    push s h r = push s (h.drop 1) r := by
  have hd : (h.drop 1).length < s := by
    rw [List.length_drop]
    omega
  rw [push_of_lt hd, push, if_pos, List.drop_append_of_le_length (by omega)]
  rw [List.length_append, List.length_singleton]
  omega

theorem length_push_le {s : Nat} {h : List Bool} (hs : 1 ≤ s) (hl : h.length ≤ s) (r : Bool) :
    (push s h r).length ≤ s := by
  rcases Nat.lt_or_eq_of_le hl with hl | hl
  · rw [push_of_lt hl, List.length_append, List.length_singleton]
    exact hl
  · have hd : (h.drop 1).length < s := by
      rw [List.length_drop]
      omega
    rw [push_of_full hs hl, push_of_lt hd, List.length_append, List.length_singleton]
    exact hd

theorem foldl_push_of_le {s : Nat} {h rs : List Bool} (hl : h.length + rs.length ≤ s) :
    rs.foldl (push s) h = h ++ rs := by
  induction rs generalizing h with
  | nil => exact (List.append_nil h).symm
  | cons r rs ih =>
    rw [List.length_cons] at hl
    rw [List.foldl_cons, push_of_lt (by omega), ih]
    · simp
    · rw [List.length_append, List.length_singleton]
      omega

theorem length_foldl_push_le {s : Nat} {h : List Bool} (hs : 1 ≤ s) (hl : h.length ≤ s)
    (rs : List Bool) : (rs.foldl (push s) h).length ≤ s := by
  induction rs generalizing h with
  | nil => exact hl
  | cons r rs ih => exact ih (length_push_le hs hl r)

/-- The newest raw decision is at the end of the history. -/
theorem getLast_foldl_push {s : Nat} (hs : 1 ≤ s) {h rs : List Bool} (hl : h.length ≤ s)
    {r : Bool} : ((rs ++ [r]).foldl (push s) h).getLast? = some r := by
  have hp (k : List Bool) (hk : k.length ≤ s) : (push s k r).getLast? = some r := by
    rcases Nat.lt_or_eq_of_le hk with hk | hk
    · rw [push_of_lt hk, List.getLast?_concat]
    · have hd : (k.drop 1).length < s := by
        rw [List.length_drop]
        omega
      rw [push_of_full hs hk, push_of_lt hd, List.getLast?_concat]
  rw [List.foldl_concat]
  exact hp _ (length_foldl_push_le hs hl rs)

theorem decision_of_lt {s : Nat} {h : List Bool} (hl : h.length + 1 < s) (r : Bool) :
    decision s h r = r := by
  rw [decision, push_of_lt (by omega), if_pos]
  rw [List.length_append, List.length_singleton]
  exact hl

theorem decision_of_eq {s : Nat} {h : List Bool} (hl : h.length + 1 = s) (r : Bool) :
    decision s h r = decide ((s + 1) / 2 ≤ h.count true + r.toNat) := by
  rw [decision, push_of_lt (by omega), if_neg]
  · rw [List.count_append]
    cases r <;> rfl
  · rw [List.length_append, List.length_singleton]
    omega

theorem decision_of_full {s : Nat} {h : List Bool} (hs : 1 ≤ s) (hl : h.length = s) (r : Bool) :
    decision s h r = decide ((s + 1) / 2 ≤ (h.drop 1).count true + r.toNat) := by
  rw [decision, push_of_full hs hl, ← decision]
  apply decision_of_eq
  rw [List.length_drop]
  omega

theorem decisions_concat (s : Nat) (h rs : List Bool) (r : Bool) :
    decisions s h (rs ++ [r]) = decisions s h rs ++ [decision s (rs.foldl (push s) h) r] := by
  induction rs generalizing h with
  | nil => rfl
  | cons x rs ih =>
    rw [List.cons_append, decisions, ih]
    rfl

/-- A history that makes no difference belongs to a window of two, and ends in silence. -/
theorem history_of_agrees {s : Nat} {h : List Bool} (hs : 2 ≤ s) (hne : h ≠ [])
    (hl : h.length < s) (ha : ∀ rs, decisions s h rs = decisions s [] rs) :
    s = 2 ∧ h.getLast? = some false := by
  have hlast (rs : List Bool) (r : Bool) :
      decision s (rs.foldl (push s) h) r = decision s (rs.foldl (push s) []) r := by
    have hc := ha (rs ++ [r])
    rw [decisions_concat, decisions_concat, ha rs] at hc
    exact List.singleton_inj.1 (List.append_cancel_left hc)
  have hpos : 0 < h.length := List.length_pos_iff.2 hne
  have hfull (x b : Bool) : decide ((s + 1) / 2 ≤
      h.count true + (List.replicate (s - 1 - h.length) x).count true + b.toNat) = b := by
    have hrep : (List.replicate (s - 1 - h.length) x).length = s - 1 - h.length :=
      List.length_replicate
    have hfresh : decision s (List.replicate (s - 1 - h.length) x) b = b :=
      decision_of_lt (by omega) b
    have hold := @decision_of_eq s (h ++ List.replicate (s - 1 - h.length) x)
      (by rw [List.length_append]; omega) b
    have hd := hlast (List.replicate (s - 1 - h.length) x) b
    rw [foldl_push_of_le (by omega), foldl_push_of_le (by rw [List.length_nil]; omega),
      List.nil_append, hfresh, hold, List.count_append] at hd
    exact hd
  have hloud := hfull true false
  have hquiet := hfull false true
  rw [decide_eq_false_iff_not, List.count_replicate_self, Bool.toNat_false] at hloud
  rw [decide_eq_true_eq, List.count_replicate, if_neg (by decide), Bool.toNat_true] at hquiet
  have hlen : h.length + 1 = s := by omega
  by_cases h2 : s = 2
  · refine ⟨h2, ?_⟩
    obtain ⟨x, rfl⟩ := List.length_eq_one_iff.1 (by omega : h.length = 1)
    cases x with
    | true =>
      rw [List.count_singleton_self] at hloud
      omega
    | false => rfl
  · have hnext (x b : Bool) :
        decide ((s + 1) / 2 ≤ (h.drop 1 ++ [x]).count true + b.toNat) = b := by
      have hone : ([x] : List Bool).length = 1 := rfl
      have hfresh : decision s [x] b = b := decision_of_lt (by omega) b
      have hold := @decision_of_full s (h ++ [x]) (by omega) (by rw [List.length_append]; omega) b
      have hd := hlast [x] b
      rw [foldl_push_of_le (by omega), foldl_push_of_le (by rw [List.length_nil]; omega),
        List.nil_append, hfresh, hold, List.drop_append_of_le_length hpos] at hd
      exact hd
    have h₁ := hnext true false
    have h₂ := hnext false true
    rw [decide_eq_false_iff_not, List.count_append] at h₁
    rw [decide_eq_true_eq, List.count_append] at h₂
    simp only [List.count_singleton_self, Bool.toNat_false, Bool.toNat_true] at h₁ h₂
    rw [List.count_singleton, beq_false_of_ne (by decide)] at h₂
    exact (h₁ h₂).elim

theorem decisions_of_full {s : Nat} {h : List Bool} (hs : 1 ≤ s) (hl : h.length = s)
    (rs : List Bool) : decisions s h rs = decisions s (h.drop 1) rs := by
  cases rs with
  | nil => rfl
  | cons r rs =>
    rw [decisions, decisions, decision, push_of_full hs hl, ← decision]

theorem decisions_of_agree {h rs : List Bool} {s : Nat} {c : Bool} (hs : 1 ≤ s)
    (hl : h.length ≤ s) (hh : ∀ x ∈ h, x = c) (hr : ∀ r ∈ rs, r = c) : decisions s h rs = rs := by
  have hmajority {k : List Bool} (hk : ∀ x ∈ k, x = c) (hkl : k.length + 1 = s) :
      decide ((s + 1) / 2 ≤ k.count true + c.toNat) = c := by
    rw [List.eq_replicate_of_mem hk, List.count_replicate]
    cases c with
    | true =>
      rw [if_pos (by decide), decide_eq_true_eq, Bool.toNat_true]
      omega
    | false =>
      rw [if_neg (by decide), decide_eq_false_iff_not, Bool.toNat_false]
      omega
  have hdecision {k : List Bool} (hk : ∀ x ∈ k, x = c) (hkl : k.length ≤ s) :
      decision s k c = c := by
    rcases Nat.lt_trichotomy (k.length + 1) s with hlt | heq | hgt
    · exact decision_of_lt hlt c
    · rw [decision_of_eq heq, hmajority hk heq]
    · rw [decision_of_full hs (by omega)]
      apply hmajority fun x hx => hk x (List.mem_of_mem_drop hx)
      rw [List.length_drop]
      omega
  have hpush {k : List Bool} (hk : ∀ x ∈ k, x = c) (hkl : k.length ≤ s) :
      ∀ x ∈ push s k c, x = c := by
    intro x hx
    have hm : x ∈ k ++ [c] := by
      rw [push] at hx
      split at hx
      · exact List.mem_of_mem_drop hx
      · exact hx
    rcases List.mem_append.1 hm with hm | hm
    · exact hk x hm
    · exact List.mem_singleton.1 hm
  induction rs generalizing h with
  | nil => rfl
  | cons r rs ih =>
    rw [List.forall_mem_cons] at hr
    obtain ⟨rfl, hr⟩ := hr
    rw [decisions, hdecision hh hl, ih (length_push_le hs hl r) (hpush hh hl) hr]

theorem decisions_of_one {h : List Bool} (hl : h.length ≤ 1) (rs : List Bool) :
    decisions 1 h rs = rs := by
  induction rs generalizing h with
  | nil => rfl
  | cons r rs ih =>
    have hr : decision 1 h r = r := by
      rcases Nat.le_one_iff_eq_zero_or_eq_one.1 hl with h0 | h1
      · rw [decision_of_eq (by omega), List.length_eq_zero_iff.1 h0]
        cases r <;> rfl
      · rw [decision_of_full (Nat.le_refl 1) h1, List.drop_eq_nil_of_le hl]
        cases r <;> rfl
    rw [decisions, hr, ih (length_push_le (Nat.le_refl 1) hl r)]

/-- In a window of two a silent end of the history makes no difference. -/
theorem decisions_of_silence {h : List Bool} (hl : h.length ≤ 2) (he : h.getLast? = some false)
    (rs : List Bool) : decisions 2 h rs = decisions 2 [] rs := by
  have hone (rs : List Bool) : decisions 2 [false] rs = decisions 2 [] rs := by
    cases rs with
    | nil => rfl
    | cons r rs =>
      have hfull := @decisions_of_full 2 [false, r] (by decide) rfl rs
      rw [decisions, decisions, push_of_lt (by decide), push_of_lt (by decide),
        List.singleton_append, hfull]
      cases r <;> rfl
  rcases h with _ | ⟨x, _ | ⟨y, _ | ⟨z, k⟩⟩⟩
  · cases he
  · cases he
    exact hone rs
  · cases he
    rw [@decisions_of_full 2 [x, false] (by decide) rfl rs]
    exact hone rs
  · simp only [List.length_cons] at hl
    omega

theorem mem_foldl_push {s : Nat} {h rs : List Bool} {x : Bool} (hx : x ∈ rs.foldl (push s) h) :
    x ∈ h ∨ x ∈ rs := by
  induction rs generalizing h with
  | nil => exact .inl hx
  | cons r rs ih =>
    rcases ih hx with hm | hm
    · have hm' : x ∈ h ++ [r] := by
        rw [push] at hm
        split at hm
        · exact List.mem_of_mem_drop hm
        · exact hm
      rcases List.mem_append.1 hm' with hm | hm
      · exact .inl hm
      · rw [List.mem_singleton.1 hm]
        exact .inr (List.mem_cons_self ..)
    · exact .inr (.tail _ hm)

theorem decisions_agree {s : Nat} (hs : 1 ≤ s) {earlier rs : List Bool}
    (h : s = 1 ∨ earlier = [] ∨ (∃ c, (∀ x ∈ earlier, x = c) ∧ ∀ r ∈ rs, r = c) ∨
      (s = 2 ∧ earlier.getLast? = some false)) :
    decisions s (earlier.foldl (push s) []) rs = decisions s [] rs := by
  have hnil : ([] : List Bool).length ≤ s := Nat.zero_le s
  have hlen := length_foldl_push_le hs hnil earlier
  rcases h with rfl | rfl | ⟨c, he, hr⟩ | ⟨rfl, he⟩
  · rw [decisions_of_one hlen, decisions_of_one hnil]
  · rfl
  · rw [decisions_of_agree hs hlen _ hr, decisions_of_agree hs hnil _ hr]
    · intro x hx
      cases hx
    · intro x hx
      exact he x ((mem_foldl_push hx).resolve_left fun h => (nomatch h))
  · apply decisions_of_silence hlen
    obtain ⟨init, rfl⟩ := List.getLast?_eq_some_iff.1 he
    exact getLast_foldl_push hs hnil

theorem silence_of_decisions {s : Nat} (hs : 2 ≤ s) {earlier : List Bool} (hne : earlier ≠ [])
    (ha : ∀ rs, decisions s (earlier.foldl (push s) []) rs = decisions s [] rs) :
    s = 2 ∧ earlier.getLast? = some false := by
  have hs' : 1 ≤ s := by omega
  have hlen := @length_foldl_push_le s [] hs' (Nat.zero_le s) earlier
  obtain ⟨init, r, rfl⟩ := (List.eq_nil_or_concat' earlier).resolve_left hne
  have hlast := @getLast_foldl_push s hs' [] init (Nat.zero_le s) r
  rw [List.getLast?_concat, ← hlast]
  rcases Nat.lt_or_eq_of_le hlen with hlt | heq
  · refine history_of_agrees hs ?_ hlt ha
    intro hn
    rw [hn] at hlast
    cases hlast
  · have hdrop : ((init ++ [r]).foldl (push s) []).drop 1 ≠ [] := by
      rw [← List.length_pos_iff, List.length_drop]
      omega
    have hlt : (((init ++ [r]).foldl (push s) []).drop 1).length < s := by
      rw [List.length_drop]
      omega
    have hh := history_of_agrees hs hdrop hlt fun rs => by
      rw [← decisions_of_full hs' heq, ha]
    rw [List.getLast?_drop, if_neg (by omega)] at hh
    exact hh

/-- What the pipeline makes of a call does not depend on the calls before it exactly when they
leave nothing in the window that could count. -/
theorem detects_iff [Floats F] (threshold : F) (smoothing : Int) (calls : List Call) :
    Detects threshold smoothing calls ↔
      smoothing ≤ 1 ∨ calls.flatMap Call.frames = [] ∨
      (∀ f g, Floats.ge (rms f) threshold = Floats.ge (rms g) threshold) ∨
      (smoothing = 2 ∧ ((calls.flatMap Call.frames).getLast?.map
        fun f => Floats.ge (rms f) threshold) = some false) := by
  have hs : 1 ≤ (max 1 smoothing).toNat := by omega
  have hraw (f : List UInt8) : (EnergyVAD.new threshold smoothing).raw f =
      Floats.ge (rms f) threshold := rfl
  have hdecisions (frames : List (List UInt8)) :
      ((calls.foldl EnergyVAD.after (.new threshold smoothing)).voiced frames).1 =
        decisions (max 1 smoothing).toNat
          (((calls.flatMap Call.frames).map fun f => Floats.ge (rms f) threshold).foldl
            (push (max 1 smoothing).toNat) [])
          (frames.map fun f => Floats.ge (rms f) threshold) := by
    rw [after_calls, voiced_eq]
    rfl
  have hfresh (frames : List (List UInt8)) :
      ((EnergyVAD.new threshold smoothing).voiced frames).1 =
        decisions (max 1 smoothing).toNat [] (frames.map fun f => Floats.ge (rms f) threshold) := by
    rw [voiced_eq]
    rfl
  constructor
  · intro h
    rw [or_iff_not_imp_left, or_iff_not_imp_left, or_iff_not_imp_left]
    intro hsmooth hne hkinds
    have hagree (rs : List Bool) : decisions (max 1 smoothing).toNat
        (((calls.flatMap Call.frames).map fun f => Floats.ge (rms f) threshold).foldl
          (push (max 1 smoothing).toNat) []) rs = decisions (max 1 smoothing).toNat [] rs := by
      have hsurj : Function.Surjective fun f => Floats.ge (rms f) threshold := by
        simp only [not_forall] at hkinds
        obtain ⟨f, g, hfg⟩ := hkinds
        intro b
        by_cases hf : Floats.ge (rms f) threshold = b
        · exact ⟨f, hf⟩
        · refine ⟨g, ?_⟩
          revert hfg hf
          dsimp only
          cases Floats.ge (rms f) threshold <;> cases Floats.ge (rms g) threshold <;>
            cases b <;> decide
      obtain ⟨frames, rfl⟩ := List.map_surjective_iff.2 hsurj rs
      rw [← hdecisions, ← hfresh]
      exact voiced_of_segments (h.independent frames 1 0 (Nat.le_refl 1))
    obtain ⟨h2, hlast⟩ := silence_of_decisions (by omega) (by simpa using hne) hagree
    rw [List.getLast?_map] at hlast
    exact ⟨by omega, hlast⟩
  · intro h
    refine ⟨fun frames m p _ => ?_, fun frames m p _ => detectSpeechSegments_segmented ..⟩
    have heq := @decisions_agree _ hs
      ((calls.flatMap Call.frames).map fun f => Floats.ge (rms f) threshold)
      (frames.map fun f => Floats.ge (rms f) threshold) ?_
    · rw [EnergyVAD.detectSpeechSegments, EnergyVAD.detectSpeechSegments]
      dsimp only
      rw [hdecisions, hfresh, heq]
    · rcases h with h1 | hn | hk | ⟨rfl, hlast⟩
      · exact .inl (by omega)
      · exact .inr (.inl (by rw [hn, List.map_nil]))
      · refine .inr (.inr (.inl ⟨Floats.ge (rms []) threshold, ?_, ?_⟩))
        · intro x hx
          obtain ⟨f, -, rfl⟩ := List.mem_map.1 hx
          exact hk f []
        · intro x hx
          obtain ⟨f, -, rfl⟩ := List.mem_map.1 hx
          exact hk f []
      · refine .inr (.inr (.inr ⟨rfl, ?_⟩))
        rw [List.getLast?_map]
        exact hlast

/-- Levels by the mean of the squares, without the root of it. -/
structure Level where
  meanSquare : Nat

instance : Floats Level where
  zero := ⟨0⟩
  level total n := ⟨total.toNat / n⟩
  ge a b := b.meanSquare ≤ a.meanSquare

def loudFrame : List UInt8 := [0x30, 0x75]

def quietFrame : List UInt8 := [0, 0]

/-- After a call that ends with speech a silent frame counts as speech. -/
theorem speech_lingers : ¬ Detects (Level.mk 429497) 3
    [.detectSpeechSegments [loudFrame, loudFrame, loudFrame] 5 2] := by
  intro h
  have hs := h.independent [quietFrame] 1 0 (Nat.le_refl 1)
  revert hs
  decide +kernel

end Obase.VadPipeline
