import Obase.Run
import Obase.PermissionContract.Issue

namespace Obase.PermissionContract
set_option autoImplicit true
open Text

/-- `_load`: the lines of the file that are not blank, without outer whitespace. -/
def CapabilityRevoker.load (file : Option (List Char)) : CapabilityRevoker :=
  match file with
  | none => ⟨[]⟩
  | some text =>
    ⟨(((splitlines text).map strip).filter fun line => !line.isEmpty).map String.ofList⟩

/-- The text that `_flush` writes: each nonce on a line of its own, in order. -/
def CapabilityRevoker.flush (r : CapabilityRevoker) : List Char :=
  unlines ((r.revoked.dedup.insertionSort (· ≤ ·)).map String.toList)

/-- An instance of `CapabilityRevoker`, with the nonces of its `revoke` calls that have not written
the file yet, and those whose revocation had returned when it was constructed. -/
structure Instance where
  revoker : CapabilityRevoker
  pending : List String
  before : List String

/-- The first half of `revoke`. -/
def Instance.add (x : Instance) (nonce : String) : Instance :=
  { x with revoker := ⟨nonce :: x.revoker.revoked⟩, pending := nonce :: x.pending }

def Instance.done (x : Instance) (nonce : String) : Instance :=
  { x with pending := x.pending.erase nonce }

/-- The instances that share a file, with the revocations that have returned. -/
structure Shared where
  file : Option (List Char)
  instances : List Instance
  returned : List (Nat × String)

def Shared.start (file : Option (List Char)) : Shared := ⟨file, [], []⟩

inductive RevokeAct where
  | construct
  | add (i : Nat) (nonce : String)
  | flush (i : Nat) (nonce : String)

/-- A step of one of the instances: its construction, or one of the two halves of a `revoke` call. -/
inductive Step (s : Shared) : RevokeAct → Shared → Prop
  | construct : Step s .construct
      { s with instances := s.instances ++ [⟨.load s.file, [], s.returned.map Prod.snd⟩] }
  | add (hi : s.instances[i]? = some x) (hn : nonce ≠ "") : Step s (.add i nonce)
      { s with instances := s.instances.set i (x.add nonce) }
  | flush (hi : s.instances[i]? = some x) (hn : nonce ∈ x.pending) : Step s (.flush i nonce)
      { file := some x.revoker.flush
        instances := s.instances.set i (x.done nonce)
        returned := s.returned ++ [(i, nonce)] }

/-- Every revocation that has returned is in the file, in the memory of its instance, and in that of
every instance constructed since. -/
structure Kept (s : Shared) : Prop where
  file : ∀ p ∈ s.returned, p.2 ∈ (CapabilityRevoker.load s.file).revoked
  own : ∀ p ∈ s.returned, ∀ x, s.instances[p.1]? = some x → p.2 ∈ x.revoker.revoked
  later : ∀ x ∈ s.instances, ∀ nonce ∈ x.before, nonce ∈ x.revoker.revoked

/-- The nonce is read back from the line that it is written on. -/
def Survives (nonce : String) : Prop :=
  strip nonce.toList = nonce.toList ∧ ∀ c ∈ nonce.toList, isLineBoundary c = false

/-- The file is written by an instance that has every nonce revoked so far in its memory, and for a
nonce that a line can hold. -/
def Complete (s : Shared) : RevokeAct → Prop
  | .flush i nonce => Survives nonce ∧
    ∀ x, s.instances[i]? = some x → ∀ p ∈ s.returned, p.2 ∈ x.revoker.revoked
  | _ => True

structure Tracked (s : Shared) : Prop where
  kept : Kept s
  survives : ∀ p ∈ s.returned, p.2 ≠ "" ∧ Survives p.2
  pending : ∀ x ∈ s.instances, ∀ nonce ∈ x.pending, nonce ≠ "" ∧ nonce ∈ x.revoker.revoked
  indices : ∀ p ∈ s.returned, p.1 < s.instances.length

theorem mem_load_flush {r : CapabilityRevoker} {nonce : String} (hm : nonce ∈ r.revoked)
    (h₀ : nonce ≠ "") (hs : Survives nonce) :
    nonce ∈ (CapabilityRevoker.load (some r.flush)).revoked := by
  have hne : nonce.toList ≠ [] := fun h => h₀ (String.toList_eq_nil_iff.1 h)
  have hline : nonce.toList ∈ splitlines r.flush := by
    apply mem_splitlines_unlines _ hs.2 hne
    apply List.mem_map_of_mem
    rw [List.mem_insertionSort, List.mem_dedup]
    exact hm
  rw [CapabilityRevoker.load]
  apply List.mem_map.2
  refine ⟨nonce.toList, ?_, String.ofList_toList⟩
  rw [List.mem_filter, List.mem_map]
  refine ⟨⟨nonce.toList, hline, hs.1⟩, ?_⟩
  rw [Bool.not_eq_true', List.isEmpty_eq_false_iff]
  exact hne

/-- An instance changes and forgets nothing. -/
theorem Kept.set {s : Shared} {i : Nat} {x y : Instance} (h : Kept s)
    (hi : s.instances[i]? = some x) (hm : ∀ n ∈ x.revoker.revoked, n ∈ y.revoker.revoked)
    (hb : y.before = x.before) : Kept { s with instances := s.instances.set i y } := by
  refine ⟨h.file, ?_, ?_⟩
  · intro p hp z hz
    rcases History.getElem?_set_cases hz with ⟨rfl, rfl⟩ | ⟨-, hz⟩
    · exact hm _ (h.own p hp x hi)
    · exact h.own p hp z hz
  · intro z hz n hn
    rcases List.mem_or_eq_of_mem_set hz with hz | rfl
    · exact h.later z hz n hn
    · rw [hb] at hn
      exact hm n (h.later x (List.mem_of_getElem? hi) n hn)

theorem Kept.construct {s : Shared} (h : Kept s) (hi : ∀ p ∈ s.returned, p.1 < s.instances.length) :
    Kept { s with
      instances := s.instances ++ [⟨.load s.file, [], s.returned.map Prod.snd⟩] } := by
  refine ⟨h.file, ?_, ?_⟩
  · intro p hp x hx
    rw [List.getElem?_append_left (hi p hp)] at hx
    exact h.own p hp x hx
  · intro x hx nonce hn
    rcases List.mem_append.1 hx with hx | hx
    · exact h.later x hx nonce hn
    · rw [List.mem_singleton.1 hx] at hn ⊢
      obtain ⟨p, hp, rfl⟩ := List.mem_map.1 hn
      exact h.file p hp

/-- A file that holds every nonce revoked so far is written for one more. -/
theorem Kept.flush {s : Shared} {i : Nat} {x : Instance} {nonce : String} (h : Kept s)
    (hi : s.instances[i]? = some x) (hf : ∀ p ∈ s.returned ++ [(i, nonce)],
      p.2 ≠ "" ∧ Survives p.2 ∧ p.2 ∈ x.revoker.revoked) :
    Kept ⟨some x.revoker.flush, s.instances.set i (x.done nonce), s.returned ++ [(i, nonce)]⟩ := by
  have hset : Kept { s with instances := s.instances.set i (x.done nonce) } :=
    h.set hi (fun _ hn => hn) rfl
  refine ⟨?_, ?_, hset.later⟩
  · intro p hp
    obtain ⟨h₀, hs, hm⟩ := hf p hp
    exact mem_load_flush hm h₀ hs
  · intro p hp y hy
    rcases List.mem_append.1 hp with hp' | hp'
    · exact hset.own p hp' y hy
    · rw [List.mem_singleton.1 hp'] at hy ⊢
      have hlt := (List.getElem?_eq_some_iff.1 hi).1
      change (s.instances.set i (x.done nonce))[i]? = some y at hy
      rw [List.getElem?_set_self hlt] at hy
      cases hy
      exact (hf _ (List.mem_append_right _ (.head _))).2.2

theorem Tracked.step {s t : Shared} {a : RevokeAct} (h : Tracked s) (ha : Complete s a)
    (hs : Step s a t) : Tracked t := by
  cases hs with
  | construct =>
    refine ⟨h.kept.construct h.indices, h.survives, ?_, ?_⟩
    · intro x hx nonce hn
      rcases List.mem_append.1 hx with hx | hx
      · exact h.pending x hx nonce hn
      · rw [List.mem_singleton.1 hx] at hn
        cases hn
    · intro p hp
      have hi := h.indices p hp
      rw [List.length_append]
      omega
  | @add i x nonce hi hn =>
    refine ⟨h.kept.set hi (fun _ hm => .tail _ hm) rfl, h.survives, ?_, ?_⟩
    · intro y hy m hm
      rcases List.mem_or_eq_of_mem_set hy with hy | rfl
      · exact h.pending y hy m hm
      · rcases List.mem_cons.1 hm with rfl | hm
        · exact ⟨hn, .head _⟩
        · obtain ⟨hm₀, hm⟩ := h.pending x (List.mem_of_getElem? hi) m hm
          exact ⟨hm₀, .tail _ hm⟩
    · intro p hp
      rw [List.length_set]
      exact h.indices p hp
  | @flush i x nonce hi hn =>
    obtain ⟨hnonce, hall⟩ := ha
    have hx := List.mem_of_getElem? hi
    obtain ⟨h₀, hm⟩ := h.pending x hx nonce hn
    have hf : ∀ p ∈ s.returned ++ [(i, nonce)],
        p.2 ≠ "" ∧ Survives p.2 ∧ p.2 ∈ x.revoker.revoked := by
      intro p hp
      rcases List.mem_append.1 hp with hp | hp
      · obtain ⟨hp₀, hps⟩ := h.survives p hp
        exact ⟨hp₀, hps, hall x hi p hp⟩
      · rw [List.mem_singleton.1 hp]
        exact ⟨h₀, hnonce, hm⟩
    refine ⟨h.kept.flush hi hf, fun p hp => ⟨(hf p hp).1, (hf p hp).2.1⟩, ?_, ?_⟩
    · intro y hy m hm
      rcases List.mem_or_eq_of_mem_set hy with hy | rfl
      · exact h.pending y hy m hm
      · exact h.pending x hx m (List.mem_of_mem_erase hm)
    · intro p hp
      change p.1 < (s.instances.set i (x.done nonce)).length
      rw [List.length_set]
      rcases List.mem_append.1 hp with hp | hp
      · exact h.indices p hp
      · rw [List.mem_singleton.1 hp]
        exact (List.getElem?_eq_some_iff.1 hi).1

/-- In a run where each file is written by an instance that knows every nonce revoked so far, for a
nonce that a line can hold, no revocation is lost. -/
theorem revocations_kept {file : Option (List Char)} {s : Shared}
    (h : Run.Reaches Step Complete (Shared.start file) s) : Kept s := by
  have ht : Tracked s := by
    apply h.invariant (I := Tracked)
    · exact ⟨⟨fun _ hp => (nomatch hp), fun _ hp => (nomatch hp), fun _ hx => (nomatch hx)⟩,
        fun _ hp => (nomatch hp), fun _ hx => (nomatch hx), fun _ hp => (nomatch hp)⟩
    · exact fun _ _ _ hI ha hs => hI.step ha hs
  exact ht.kept

/-- An instance revokes a nonce, and another is constructed. -/
theorem revocations_kept_restart : ∃ s,
    Run.Reaches Step Complete (Shared.start none) s ∧ s.returned = [(0, "x")] ∧
      s.instances.length = 2 ∧ Kept s := by
  have h₁ : Run.Reaches Step Complete (Shared.start none) _ :=
    (Run.Reaches.refl _).tail (a := RevokeAct.construct) trivial .construct
  have h₂ := h₁.tail (a := RevokeAct.add 0 "x") trivial (.add rfl (by decide))
  have hx : Survives "x" := ⟨by decide +kernel, forall_mem_of_all (by decide +kernel)⟩
  have h₃ := h₂.tail (a := RevokeAct.flush 0 "x") ⟨hx, fun _ _ _ hp => nomatch hp⟩
    (.flush rfl (.head _))
  have h₄ := h₃.tail (a := RevokeAct.construct) trivial .construct
  exact ⟨_, h₄, rfl, rfl, revocations_kept h₄⟩

/-- An instance writes the file without what another has revoked since it was constructed. -/
theorem revocation_overwritten : ∃ s,
    Run.Reaches Step (fun _ _ => True) (Shared.start none) s ∧ ¬ Kept s := by
  have h₁ : Run.Reaches Step (fun _ _ => True) (Shared.start none) _ :=
    (Run.Reaches.refl _).tail (a := RevokeAct.construct) trivial .construct
  have h₂ := h₁.tail (a := RevokeAct.construct) trivial .construct
  have h₃ := h₂.tail (a := RevokeAct.add 0 "x") trivial (.add rfl (by decide))
  have h₄ := h₃.tail (a := RevokeAct.flush 0 "x") trivial (.flush rfl (.head _))
  have h₅ := h₄.tail (a := RevokeAct.add 1 "y") trivial (.add rfl (by decide))
  have h₆ := h₅.tail (a := RevokeAct.flush 1 "y") trivial (.flush rfl (.head _))
  refine ⟨_, h₆, fun hk => ?_⟩
  have hx := hk.file (0, "x") (.head _)
  exact absurd hx (by decide +kernel)

/-- A nonce with outer whitespace is not read back. -/
theorem spaced_nonce_lost : ∃ s,
    Run.Reaches Step (fun _ _ => True) (Shared.start none) s ∧ ¬ Kept s := by
  have h₁ : Run.Reaches Step (fun _ _ => True) (Shared.start none) _ :=
    (Run.Reaches.refl _).tail (a := RevokeAct.construct) trivial .construct
  have h₂ := h₁.tail (a := RevokeAct.add 0 " x") trivial (.add rfl (by decide))
  have h₃ := h₂.tail (a := RevokeAct.flush 0 " x") trivial (.flush rfl (.head _))
  refine ⟨_, h₃, fun hk => ?_⟩
  have hx := hk.file (0, " x") (.head _)
  exact absurd hx (by decide +kernel)

section
variable [Runtime F]

/-- An instance refuses every token whose nonce it has in its memory. -/
theorem verify_of_revoked {mac : List UInt8 → List UInt8 → List UInt8} {secret : String}
    {token : List Char} {r : CapabilityRevoker} {now : F} {tok : CapabilityToken F} {nonce : String}
    (hm : nonce ∈ r.revoked) (h : verifyCapabilityToken mac secret token (some r) now = .ok tok) :
    tok.nonce ≠ .str nonce := by
  obtain ⟨payloadB64, signature, -, -, -, -, hr⟩ := verify_eq_ok (some r) now h
  intro he
  rw [Option.elim_some, he, CapabilityRevoker.isRevoked, List.contains_iff_mem.2 hm] at hr
  cases hr

end

end Obase.PermissionContract
