import Mathlib.Algebra.Order.Ring.Rat
import Mathlib.Data.List.Basic
import Obase.Lease

namespace Obase.Cache
set_option autoImplicit true

/-- A value of the store, with the time from which on it may expire. -/
structure Stored where
  token : String
  expiresAt : ℚ

abbrev Redis := String → Option Stored

inductive SetReply where
  | ok
  | nil
  | error

/-- `SET key token NX PX px`. -/
def Redis.setNxPx (r : Redis) (key token : String) (px : Int) (now : ℚ) : Redis × SetReply :=
  if px ≤ 0 then (r, .error)
  else
    match r key with
    | none => (Function.update r key (some ⟨token, now + px / 1000⟩), .ok)
    | some _ => (r, .nil)

/-- `_RELEASE_IF_OWNER_SCRIPT`. -/
def Redis.releaseIfOwner (r : Redis) (key token : String) : Redis × Int :=
  match r key with
  | some v => if v.token = token then (Function.update r key none, 1) else (r, 0)
  | none => (r, 0)

/-- `DistributedLock`; `connected` tells whether it has a client. -/
structure DistributedLock where
  key : String
  ttlMs : Int
  timeoutSeconds : ℚ
  retryInterval : ℚ
  token : String
  connected : Bool

/-- `DistributedLock.__init__`, with the token that it generates. -/
def DistributedLock.new (key : String) (ttlSeconds timeoutSeconds retryInterval : ℚ)
    (token : String) : DistributedLock :=
  ⟨"lock:" ++ key, (ttlSeconds * 1000).num.tdiv (ttlSeconds * 1000).den, timeoutSeconds,
    retryInterval, token, false⟩

/-- Where the task that uses a lock object is: about to try with a deadline, told that the key is
set, or inside, its entry good until a time. -/
inductive Phase where
  | idle
  | trying (deadline : ℚ)
  | refused (deadline : ℚ)
  | entered (expiry : ℚ)

def Phase.expiry : Phase → Option ℚ
  | .entered u => some u
  | _ => none

/-- A lock object with its task and the number of its enters. -/
structure Party where
  lock : DistributedLock
  phase : Phase
  enters : Nat

def Party.Trying (p : Party) : Prop := ∃ d, p.phase = .trying d ∨ p.phase = .refused d

def Party.enter (p : Party) (now : ℚ) : Party :=
  ⟨{ p.lock with connected := true }, .trying (now + p.lock.timeoutSeconds), p.enters + 1⟩

def Party.close (p : Party) : Party :=
  { p with lock := { p.lock with connected := false }, phase := .idle }

/-- The store and the lock objects, with the enters that set the key, in their order, and those that
raised `LockAcquisitionError`. -/
structure World (ι : Type) where
  redis : Redis
  party : ι → Party
  clock : ℚ
  acquired : List (ι × Nat)
  failed : List (ι × Nat)

def World.start (locks : ι → DistributedLock) (clock : ℚ) : World ι :=
  ⟨fun _ => none, fun o => ⟨{ locks o with connected := false }, .idle, 0⟩, clock, [], []⟩

inductive Act (ι : Type) where
  | enter (o : ι)
  | set (o : ι)
  | check (o : ι)
  | exit (o : ι)
  | expire (key : String)
  | tick (now : ℚ)

/-- The acts of an enter. -/
def Act.ofEnter : Act ι → Prop
  | .enter _ | .set _ | .check _ => True
  | _ => False

/-- `__aexit__`, which is the same with and without an exception. -/
def Party.release (p : Party) (r : Redis) : Redis :=
  if p.lock.connected then (r.releaseIfOwner p.lock.key p.lock.token).1 else r

variable {ι : Type}

inductive Step [DecidableEq ι] (w : World ι) : Act ι → World ι → Prop
  | enter (h : (w.party o).phase = .idle) :
      Step w (.enter o) { w with
        party := Function.update w.party o ((w.party o).enter w.clock) }
  | acquired (h : (w.party o).phase = .trying d)
      (hr : w.redis.setNxPx (w.party o).lock.key (w.party o).lock.token (w.party o).lock.ttlMs
        w.clock = (r, .ok)) :
      Step w (.set o) { w with
        redis := r
        party := Function.update w.party o { w.party o with
          phase := .entered (w.clock + (w.party o).lock.ttlMs / 1000) }
        acquired := w.acquired ++ [(o, (w.party o).enters)] }
  | refused (h : (w.party o).phase = .trying d)
      (hr : w.redis.setNxPx (w.party o).lock.key (w.party o).lock.token (w.party o).lock.ttlMs
        w.clock = (r, .nil)) :
      Step w (.set o) { w with
        redis := r, party := Function.update w.party o { w.party o with phase := .refused d } }
  | setError (h : (w.party o).phase = .trying d)
      (hr : w.redis.setNxPx (w.party o).lock.key (w.party o).lock.token (w.party o).lock.ttlMs
        w.clock = (r, .error)) :
      Step w (.set o) { w with
        redis := r, party := Function.update w.party o { w.party o with phase := .idle } }
  | retry (h : (w.party o).phase = .refused d) (hd : w.clock < d) :
      Step w (.check o) { w with
        party := Function.update w.party o { w.party o with phase := .trying d } }
  | raises (h : (w.party o).phase = .refused d) (hd : d ≤ w.clock) :
      Step w (.check o) { w with
        party := Function.update w.party o (w.party o).close
        failed := w.failed ++ [(o, (w.party o).enters)] }
  | exit (h : (w.party o).phase = .entered u) :
      Step w (.exit o) { w with
        redis := (w.party o).release w.redis
        party := Function.update w.party o (w.party o).close }
  | expire (h : w.redis key = some v) (hv : v.expiresAt ≤ w.clock) :
      Step w (.expire key) { w with redis := Function.update w.redis key none }
  | tick (h : w.clock ≤ now) : Step w (.tick now) { w with clock := now }

/-- The entry of the object is neither exited nor past its TTL. -/
def Live (w : World ι) (o : ι) : Prop :=
  ∃ u, (w.party o).phase = .entered u ∧ w.clock < u

/-- No exit removes a lock that another object acquired, at most one object has a live entry, and an
enter that raised or is still trying has not changed the stored lock: of its acts only the one
that is recorded as an acquisition does. -/
structure Safe [DecidableEq ι] (key : String) (w : World ι) : Prop where
  release : ∀ o w', Step w (.exit o) w' → w'.redis key ≠ w.redis key →
    ∃ n, w.acquired.getLast? = some (o, n)
  exclusive : ∀ o o', Live w o → Live w o' → o = o'
  failed : ∀ o n, (o, n) ∈ w.failed → (o, n) ∉ w.acquired
  trying : ∀ o, (w.party o).Trying → (o, (w.party o).enters) ∉ w.acquired
  logged : ∀ a w', a.ofEnter → Step w a w' → w'.redis = w.redis ∨
    ∃ o, a = .set o ∧ w'.acquired = w.acquired ++ [(o, (w.party o).enters)]

theorem setNxPx_ok {r r' : Redis} {key token : String} {px : Int} {now : ℚ}
    (h : r.setNxPx key token px now = (r', .ok)) :
    r key = none ∧ r' = Function.update r key (some ⟨token, now + px / 1000⟩) := by
  rw [Redis.setNxPx] at h
  split at h
  · cases h
  · split at h
    · rename_i hk
      cases h
      exact ⟨hk, rfl⟩
    · cases h

theorem setNxPx_free {r : Redis} {key token : String} {px : Int} {now : ℚ} (hpx : ¬ px ≤ 0)
    (hk : r key = none) : r.setNxPx key token px now =
      (Function.update r key (some ⟨token, now + px / 1000⟩), .ok) := by
  rw [Redis.setNxPx, if_neg hpx, hk]

theorem setNxPx_not_ok {r r' : Redis} {key token : String} {px : Int} {now : ℚ} {reply : SetReply}
    (h : r.setNxPx key token px now = (r', reply)) (hn : reply ≠ .ok) : r' = r := by
  rw [Redis.setNxPx] at h
  split at h
  · cases h
    rfl
  · split at h
    · cases h
      exact absurd rfl hn
    · cases h
      rfl

/-- An act changes the state of at most one party, and keeps the key and the token of each. -/
theorem Step.lock_eq [DecidableEq ι] {w w' : World ι} {a : Act ι} (hs : Step w a w') (o : ι) :
    (w'.party o).lock.key = (w.party o).lock.key ∧
      (w'.party o).lock.token = (w.party o).lock.token := by
  have hupdate (p : ι) (q : Party) (hk : q.lock.key = (w.party p).lock.key)
      (ht : q.lock.token = (w.party p).lock.token) :
      (Function.update w.party p q o).lock.key = (w.party o).lock.key ∧
        (Function.update w.party p q o).lock.token = (w.party o).lock.token := by
    by_cases ho : o = p
    · subst ho
      rw [Function.update_self]
      exact ⟨hk, ht⟩
    · rw [Function.update_of_ne ho]
      exact ⟨rfl, rfl⟩
  cases hs with
  | enter h => exact hupdate _ _ rfl rfl
  | acquired h hr => exact hupdate _ _ rfl rfl
  | refused h hr => exact hupdate _ _ rfl rfl
  | setError h hr => exact hupdate _ _ rfl rfl
  | retry h hd => exact hupdate _ _ rfl rfl
  | raises h hd => exact hupdate _ _ rfl rfl
  | exit h => exact hupdate _ _ rfl rfl
  | expire h hv => exact ⟨rfl, rfl⟩
  | tick h => exact ⟨rfl, rfl⟩

/-- The value of the key is the token of the party that has the lease, which was the last to
acquire it. -/
structure Refines (key : String) (w : World ι) (l : Lease.State ι ℚ) : Prop where
  stored : w.redis key = l.lease.map fun p => ⟨(w.party p.1).lock.token, p.2⟩
  last : ∀ o u, l.lease = some (o, u) → ∃ n, w.acquired.getLast? = some (o, n)
  entry : ∀ o, l.entry o = (w.party o).phase.expiry
  clock : l.clock = w.clock
  connected : ∀ o, (w.party o).phase ≠ .idle → (w.party o).lock.connected = true

/-- The objects are all on one key, with pairwise distinct tokens. -/
structure Shares (key : String) (party : ι → Party) : Prop where
  key : ∀ o, (party o).lock.key = key
  token : Function.Injective fun o => (party o).lock.token

theorem Shares.step [DecidableEq ι] {key : String} {w w' : World ι} {a : Act ι}
    (h : Shares key w.party) (hs : Step w a w') : Shares key w'.party where
  key o := (hs.lock_eq o).1.trans (h.key o)
  token o o' he := by
    dsimp only at he
    rw [(hs.lock_eq o).2, (hs.lock_eq o').2] at he
    exact h.token he


theorem party_update [DecidableEq ι] {P : ι → Party → Prop} {party : ι → Party} {o : ι} {q : Party}
    (hq : P o q) (h : ∀ p, P p (party p)) (p : ι) : P p (Function.update party o q p) := by
  by_cases hp : p = o
  · subst hp
    rw [Function.update_self]
    exact hq
  · rw [Function.update_of_ne hp]
    exact h p

/-- The token of the party of a lease is kept by every act. -/
theorem Step.stored_eq [DecidableEq ι] {w w' : World ι} {a : Act ι} (hs : Step w a w')
    (lease : Option (ι × ℚ)) :
    (lease.map fun p => (⟨(w'.party p.1).lock.token, p.2⟩ : Stored)) =
      lease.map fun p => ⟨(w.party p.1).lock.token, p.2⟩ := by
  congr 1
  funext p
  rw [(hs.lock_eq p.1).2]

/-- What an act other than an acquisition, a release or an expiry leaves as it is. -/
theorem Refines.keep [DecidableEq ι] {key : String} {w w' : World ι} {l : Lease.State ι ℚ}
    {a : Act ι} {o : ι} {q : Party} (h : Refines key w l) (hs : Step w a w')
    (hr : w'.redis key = w.redis key) (hc : w'.clock = w.clock) (ha : w'.acquired = w.acquired)
    (hp : w'.party = Function.update w.party o q)
    (hq : q.phase.expiry = (w.party o).phase.expiry) (hn : q.phase ≠ .idle → q.lock.connected = true) :
    Refines key w' l where
  stored := by
    rw [hr, h.stored, hs.stored_eq]
  last p u hl := by
    rw [ha]
    exact h.last p u hl
  entry p := by
    rw [hp]
    exact party_update (P := fun p r => l.entry p = r.phase.expiry) ((h.entry o).trans hq.symm)
      h.entry p
  clock := h.clock.trans hc.symm
  connected p := by
    rw [hp]
    exact party_update (P := fun _ r => r.phase ≠ .idle → r.lock.connected = true) hn h.connected p

/-- The release removes the value of the key exactly where it is that of the party's lease. -/
theorem Refines.released [DecidableEq ι] {key : String} {w : World ι} {l : Lease.State ι ℚ} {o : ι}
    {u : ℚ} (h : Refines key w l) (hsh : Shares key w.party) (ho : (w.party o).phase = .entered u) :
    (w.party o).release w.redis key =
      (l.lease.filter fun p => p.1 ≠ o).map fun p => ⟨(w.party p.1).lock.token, p.2⟩ := by
  have hs := h.stored
  rw [Party.release, if_pos (h.connected o (by rw [ho]; nofun)), Redis.releaseIfOwner, hsh.key o]
  cases hl : l.lease with
  | none =>
    rw [hl, Option.map_none] at hs
    rw [hs]
    exact hs
  | some p =>
    rw [hl, Option.map_some] at hs
    rw [hs]
    dsimp only
    by_cases hp : p.1 = o
    · rw [hp, if_pos rfl, Option.filter_some, if_neg]
      · exact Function.update_self ..
      · rw [decide_eq_true_eq]
        exact fun hn => hn hp
    · rw [if_neg fun he => hp (hsh.token he), Option.filter_some, if_pos (decide_eq_true hp)]
      exact hs

/-- An act is one of the lease, or leaves it as it is. -/
theorem Refines.step [DecidableEq ι] {key : String} {w w' : World ι} {l : Lease.State ι ℚ}
    {a : Act ι} (h : Refines key w l) (hsh : Shares key w.party) (hs : Step w a w') :
    Refines key w' l ∨ ∃ b l', Lease.Step l b l' ∧ Refines key w' l' := by
  have hstored := hs.stored_eq
  cases hs with
  | enter hi =>
    refine .inl (h.keep (.enter hi) rfl rfl rfl rfl ?_ fun _ => rfl)
    rw [hi]
    rfl
  | refused hi hr =>
    have hk := congrFun (setNxPx_not_ok hr nofun) key
    refine .inl (h.keep (.refused hi hr) hk rfl rfl rfl ?_ fun _ => h.connected _ (by rw [hi]; nofun))
    rw [hi]
    rfl
  | setError hi hr =>
    have hk := congrFun (setNxPx_not_ok hr nofun) key
    refine .inl (h.keep (.setError hi hr) hk rfl rfl rfl ?_ fun hn => absurd rfl hn)
    rw [hi]
    rfl
  | retry hi hd =>
    refine .inl (h.keep (.retry hi hd) rfl rfl rfl rfl ?_ fun _ => h.connected _ (by rw [hi]; nofun))
    rw [hi]
    rfl
  | raises hi hd =>
    refine .inl (h.keep (.raises hi hd) rfl rfl rfl rfl ?_ fun hn => absurd rfl hn)
    rw [hi]
    rfl
  | @acquired o d r hi hr =>
    obtain ⟨hfree, rfl⟩ := setNxPx_ok hr
    rw [hsh.key o, h.stored, Option.map_eq_none_iff] at hfree
    have hconnected := h.connected o (by rw [hi]; nofun)
    refine .inr ⟨.acquire o (w.clock + (w.party o).lock.ttlMs / 1000), _, .acquire hfree, ?_⟩
    constructor
    · rw [hstored]
      dsimp only
      rw [hsh.key o, Function.update_self, Option.map_some]
    · intro p u hl
      cases hl
      exact ⟨_, List.getLast?_concat⟩
    · intro p
      by_cases hp : p = o
      · subst hp
        dsimp only
        rw [Function.update_self, Function.update_self]
        rfl
      · dsimp only
        rw [Function.update_of_ne hp, Function.update_of_ne hp]
        exact h.entry p
    · exact h.clock
    · exact party_update (P := fun _ r => r.phase ≠ .idle → r.lock.connected = true)
        (fun _ => hconnected) h.connected
  | @exit o u hi =>
    refine .inr ⟨.release o, _, .release, ?_⟩
    constructor
    · rw [hstored]
      exact h.released hsh hi
    · intro p u hl
      exact h.last p u (Option.filter_eq_some_iff.1 hl).1
    · intro p
      by_cases hp : p = o
      · subst hp
        dsimp only
        rw [Function.update_self, Function.update_self]
        rfl
      · dsimp only
        rw [Function.update_of_ne hp, Function.update_of_ne hp]
        exact h.entry p
    · exact h.clock
    · exact party_update (P := fun _ r => r.phase ≠ .idle → r.lock.connected = true)
        (fun hn => absurd rfl hn) h.connected
  | @expire k v hk hv =>
    by_cases hkey : k = key
    · subst hkey
      rw [h.stored] at hk
      obtain ⟨p, hl, rfl⟩ := Option.map_eq_some_iff.1 hk
      refine .inr ⟨.expire, _, .expire hl (h.clock ▸ hv), ?_⟩
      exact ⟨Function.update_self .., fun _ _ hl => (nomatch hl), h.entry, h.clock, h.connected⟩
    · refine .inl ⟨?_, h.last, h.entry, h.clock, h.connected⟩
      exact (Function.update_of_ne (Ne.symm hkey) ..).trans h.stored
  | tick hn =>
    refine .inr ⟨.tick _, _, .tick (h.clock.trans_le hn), ?_⟩
    exact ⟨h.stored, h.last, h.entry, rfl, h.connected⟩

/-- The enters that set the key or raised are over, and none did both. -/
structure Logged (w : World ι) : Prop where
  acquired : ∀ o n, (o, n) ∈ w.acquired →
    n ≤ (w.party o).enters ∧ (n = (w.party o).enters → ¬ (w.party o).Trying)
  failed : ∀ o n, (o, n) ∈ w.failed → n ≤ (w.party o).enters ∧
    (n = (w.party o).enters → ¬ (w.party o).Trying) ∧ (o, n) ∉ w.acquired

theorem Logged.keep {w w' : World ι} (h : Logged w)
    (hp : ∀ o, (w.party o).enters ≤ (w'.party o).enters ∧
      ((w'.party o).enters = (w.party o).enters → (w'.party o).Trying → (w.party o).Trying))
    (ha : w'.acquired = w.acquired) (hf : w'.failed = w.failed) : Logged w' := by
  have hover (o : ι) (n : Nat) (hn : n ≤ (w.party o).enters)
      (ht : n = (w.party o).enters → ¬ (w.party o).Trying) :
      n ≤ (w'.party o).enters ∧ (n = (w'.party o).enters → ¬ (w'.party o).Trying) := by
    obtain ⟨hle, htry⟩ := hp o
    refine ⟨hn.trans hle, fun he ht' => ?_⟩
    have heq : (w'.party o).enters = (w.party o).enters := by omega
    exact ht (he.trans heq) (htry heq ht')
  constructor
  · intro o n hm
    rw [ha] at hm
    obtain ⟨hn, ht⟩ := h.acquired o n hm
    exact hover o n hn ht
  · intro o n hm
    rw [hf] at hm
    obtain ⟨hn, ht, hna⟩ := h.failed o n hm
    obtain ⟨hn', ht'⟩ := hover o n hn ht
    exact ⟨hn', ht', ha ▸ hna⟩

/-- An enter that is over and did not raise is added to those that set the key. -/
theorem Logged.acquire {w : World ι} {o : ι} (h : Logged w) (ht : ¬ (w.party o).Trying)
    (hf : (o, (w.party o).enters) ∉ w.failed) :
    Logged { w with acquired := w.acquired ++ [(o, (w.party o).enters)] } := by
  constructor
  · intro p n hm
    rcases List.mem_append.1 hm with hm | hm
    · exact h.acquired p n hm
    · cases List.mem_singleton.1 hm
      exact ⟨le_refl _, fun _ => ht⟩
  · intro p n hm
    obtain ⟨hn, ht', hna⟩ := h.failed p n hm
    refine ⟨hn, ht', fun hm' => ?_⟩
    rcases List.mem_append.1 hm' with hm' | hm'
    · exact hna hm'
    · cases List.mem_singleton.1 hm'
      exact hf hm

/-- An enter that is over and did not set the key is added to those that raised. -/
theorem Logged.fail {w : World ι} {o : ι} (h : Logged w) (ht : ¬ (w.party o).Trying)
    (ha : (o, (w.party o).enters) ∉ w.acquired) :
    Logged { w with failed := w.failed ++ [(o, (w.party o).enters)] } := by
  refine ⟨h.acquired, fun p n hm => ?_⟩
  rcases List.mem_append.1 hm with hm | hm
  · exact h.failed p n hm
  · cases List.mem_singleton.1 hm
    exact ⟨le_refl _, fun _ => ht, ha⟩

/-- The state of one party changes: a new enter begins, or the current one goes on or is over. -/
theorem Logged.update [DecidableEq ι] {w : World ι} {o : ι} {q : Party} (h : Logged w)
    (hq : (w.party o).enters ≤ q.enters ∧
      (q.enters = (w.party o).enters → q.Trying → (w.party o).Trying)) (r : Redis) :
    Logged { w with redis := r, party := Function.update w.party o q } := by
  refine h.keep (fun p => ?_) rfl rfl
  exact party_update (P := fun p r => (w.party p).enters ≤ r.enters ∧
    (r.enters = (w.party p).enters → r.Trying → (w.party p).Trying)) hq
    (fun p => ⟨le_refl _, fun _ ht => ht⟩) p

theorem Party.not_trying {p : Party} (h : ∀ d, p.phase ≠ .trying d ∧ p.phase ≠ .refused d) :
    ¬ p.Trying := by
  rintro ⟨d, hd | hd⟩
  · exact (h d).1 hd
  · exact (h d).2 hd

theorem Logged.step [DecidableEq ι] {w w' : World ι} {a : Act ι} (h : Logged w)
    (hs : Step w a w') : Logged w' := by
  cases hs with
  | enter hi => exact h.update ⟨Nat.le_succ _, fun he => absurd he (Nat.succ_ne_self _)⟩ w.redis
  | @acquired o d r hi hr =>
    have ht : (w.party o).Trying := ⟨d, .inl hi⟩
    have hl := h.update (q := { w.party o with
      phase := .entered (w.clock + (w.party o).lock.ttlMs / 1000) })
      ⟨le_refl _, fun _ _ => ht⟩ r
    have ha := hl.acquire (o := o)
    dsimp only at ha
    rw [Function.update_self] at ha
    apply ha
    · exact Party.not_trying fun d => ⟨nofun, nofun⟩
    · exact fun hm => (h.failed o _ hm).2.1 rfl ht
  | refused hi hr =>
    refine h.update ?_ _
    exact ⟨le_refl _, fun _ _ => ⟨_, .inl hi⟩⟩
  | setError hi hr =>
    refine h.update ?_ _
    exact ⟨le_refl _, fun _ _ => ⟨_, .inl hi⟩⟩
  | retry hi hd =>
    refine h.update ?_ w.redis
    exact ⟨le_refl _, fun _ _ => ⟨_, .inr hi⟩⟩
  | @raises o d hi hd =>
    have ht : (w.party o).Trying := ⟨d, .inr hi⟩
    have hl := h.update (q := (w.party o).close) ⟨le_refl _, fun _ _ => ht⟩ w.redis
    have hf := hl.fail (o := o)
    dsimp only at hf
    rw [Function.update_self] at hf
    apply hf
    · exact Party.not_trying fun d => ⟨nofun, nofun⟩
    · exact fun hm => (h.acquired o _ hm).2 rfl ht
  | exit hi =>
    refine h.update ?_ _
    exact ⟨le_refl _, fun _ ht => absurd ht (Party.not_trying fun d => ⟨nofun, nofun⟩)⟩
  | expire hk hv => exact h.keep (fun o => ⟨le_refl _, fun _ ht => ht⟩) rfl rfl
  | tick hn => exact h.keep (fun o => ⟨le_refl _, fun _ ht => ht⟩) rfl rfl

theorem World.start_shares {key : String} {locks : ι → DistributedLock}
    (hkey : ∀ o, (locks o).key = key) (htoken : Function.Injective fun o => (locks o).token)
    (clock : ℚ) : Shares key (World.start locks clock).party :=
  ⟨hkey, htoken⟩

theorem World.start_refines (key : String) (locks : ι → DistributedLock) (clock : ℚ) :
    Refines key (World.start locks clock) ⟨none, fun _ => none, clock⟩ where
  stored := rfl
  last _ _ hl := nomatch hl
  entry _ := rfl
  clock := rfl
  connected _ hn := absurd rfl hn

/-- Every run of the lock objects on one key is a run of a lease, in all of whose states there is at
most one live entry. -/
theorem reaches_lease [DecidableEq ι] {key : String} {locks : ι → DistributedLock} {clock : ℚ}
    {w : World ι} (hkey : ∀ o, (locks o).key = key)
    (htoken : Function.Injective fun o => (locks o).token)
    (h : Run.Reaches Step (fun _ _ => True) (World.start locks clock) w) :
    Shares key w.party ∧ Logged w ∧ ∃ l, Lease.Sound l ∧ Refines key w l := by
  apply h.invariant
    (I := fun w => Shares key w.party ∧ Logged w ∧ ∃ l, Lease.Sound l ∧ Refines key w l)
  · have hlog : Logged (World.start locks clock) :=
      ⟨fun _ _ hm => (nomatch hm), fun _ _ hm => (nomatch hm)⟩
    have hsound : Lease.Sound (⟨none, fun _ => none, clock⟩ : Lease.State ι ℚ) :=
      fun _ _ hu => (nomatch hu)
    exact ⟨World.start_shares hkey htoken clock, hlog, _, hsound, World.start_refines key locks clock⟩
  · intro w a w' hI _ hs
    obtain ⟨hsh, hlog, l, hsound, href⟩ := hI
    refine ⟨hsh.step hs, hlog.step hs, ?_⟩
    rcases href.step hsh hs with href | ⟨b, l', hl, href⟩
    · exact ⟨l, hsound, href⟩
    · exact ⟨l', hsound.step hl, href⟩

/-- The exit of an object that has an entry removes the value of the key only where the lease is its
own. -/
theorem Refines.exit_own [DecidableEq ι] {key : String} {w w' : World ι} {l : Lease.State ι ℚ} {o : ι}
    (h : Refines key w l) (hsh : Shares key w.party) (hs : Step w (.exit o) w')
    (hr : w'.redis key ≠ w.redis key) : ∃ u, l.lease = some (o, u) := by
  cases hs with
  | exit hi =>
    dsimp only at hr
    rw [h.released hsh hi, h.stored] at hr
    cases hl : l.lease with
    | none =>
      rw [hl] at hr
      exact absurd rfl hr
    | some p =>
      rw [hl, Option.filter_some] at hr
      by_cases hp : p.1 = o
      · subst hp
        exact ⟨p.2, rfl⟩
      · rw [if_pos (decide_eq_true hp)] at hr
        exact absurd rfl hr

/-- Of the acts of an enter only a SET that acquires changes the store. -/
theorem Step.enter_keeps [DecidableEq ι] {w w' : World ι} {a : Act ι} (ha : a.ofEnter)
    (hs : Step w a w') : w'.redis = w.redis ∨
      ∃ o, a = .set o ∧ w'.acquired = w.acquired ++ [(o, (w.party o).enters)] := by
  cases hs with
  | enter hi => exact .inl rfl
  | acquired hi hr => exact .inr ⟨_, rfl, rfl⟩
  | refused hi hr => exact .inl (setNxPx_not_ok hr nofun)
  | setError hi hr => exact .inl (setNxPx_not_ok hr nofun)
  | retry hi hd => exact .inl rfl
  | raises hi hd => exact .inl rfl
  | exit hi => cases ha
  | expire hk hv => cases ha
  | tick hn => cases ha

/-- Every run of lock objects on one key is safe. -/
theorem lock_safe [DecidableEq ι] {key : String} {locks : ι → DistributedLock} {clock : ℚ}
    {w : World ι} (hkey : ∀ o, (locks o).key = key)
    (htoken : Function.Injective fun o => (locks o).token)
    (h : Run.Reaches Step (fun _ _ => True) (World.start locks clock) w) : Safe key w := by
  obtain ⟨hsh, hlog, l, hsound, href⟩ := reaches_lease hkey htoken h
  constructor
  · intro o w' hs hr
    obtain ⟨u, hl⟩ := href.exit_own hsh hs hr
    exact href.last o u hl
  · have hlive (o : ι) (ho : Live w o) : Lease.Live l o := by
      obtain ⟨u, hu, hlt⟩ := ho
      refine ⟨u, ?_, href.clock.trans_lt hlt⟩
      rw [href.entry, hu]
      rfl
    exact fun o o' ho ho' => hsound.exclusive (hlive o ho) (hlive o' ho')
  · exact fun o n hm => (hlog.failed o n hm).2.2
  · exact fun o ht hm => (hlog.acquired o _ hm).2 rfl ht
  · exact fun a w' ha hs => hs.enter_keeps ha

def cartLocks (o : Bool) : DistributedLock :=
  .new "cart" 10 5 (1 / 20) (if o then "a" else "b")

theorem cartLocks_token : Function.Injective fun o => (cartLocks o).token := by
  intro o o' h
  revert o o'
  decide

theorem lock_safe_cart : ∃ w, Run.Reaches Step (fun _ _ => True) (World.start cartLocks 0) w ∧
    Live w true ∧ Safe "lock:cart" w := by
  have h₁ : Run.Reaches Step (fun _ _ => True) (World.start cartLocks 0) _ :=
    (Run.Reaches.refl _).tail (a := .enter true) trivial (.enter rfl)
  have h₂ := h₁.tail (a := .set true) trivial (.acquired rfl (setNxPx_free (by decide +kernel) rfl))
  refine ⟨_, h₂, ⟨_, rfl, ?_⟩, lock_safe (fun _ => rfl) cartLocks_token h₂⟩
  decide +kernel

end Obase.Cache
