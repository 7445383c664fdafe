import Obase.Http.SafeIp
import Obase.Json.Number

namespace Obase.Http
set_option autoImplicit true
open Separated Text

inductive Family where
  | inet
  | inet6
  | other
deriving DecidableEq

/-- A record of `getaddrinfo`: its family and the first field of its address. -/
structure Record where
  family : Family
  ip : List Char

inductive SSRFBlockedError where
  | resolutionFailed (hostname : List Char)
  | noRecords (hostname : List Char)
  | blockedIp (hostname ip : List Char)
deriving DecidableEq

/-- What `getaddrinfo` answers, `none` for a `gaierror`. -/
abbrev Resolver := List Char → Option (List Record)

/-- The loop over the records, with the first IPv4 address so far. -/
def checkRecords (hostname : List Char) :
    Option (List Char) → List Record → Except SSRFBlockedError (Option (List Char))
  | first, [] => .ok first
  | first, r :: rs =>
    if isSafeIp r.ip = false then .error (.blockedIp hostname r.ip)
    else checkRecords hostname (if r.family = .inet ∧ first = none then some r.ip else first) rs

def resolveAndCheck (getaddrinfo : Resolver) (hostname : List Char) :
    Except SSRFBlockedError (List Char) :=
  match getaddrinfo hostname with
  | none => .error (.resolutionFailed hostname)
  | some [] => .error (.noRecords hostname)
  | some (r :: rs) => (checkRecords hostname none (r :: rs)).map (·.getD r.ip)

/-- The value of a decimal digit in the Unicode database. -/
structure Decimals where
  decimal : Char → Option Nat
  decimal_ascii : ∀ c : Char, c.toNat < 128 →
    decimal c = if c.isDigit then some (c.toNat - '0'.toNat) else none

def dropSign : List Char → Bool × List Char
  | '-' :: cs => (true, cs)
  | '+' :: cs => (false, cs)
  | cs => (false, cs)

/-- `int(text)`, `none` for a `ValueError`. -/
def intOfText (D : Decimals) (text : List Char) : Option Int :=
  let (negative, digits) := dropSign (strip text)
  if (digits.splitOn '_').all fun g => !g.isEmpty && g.all fun c => (D.decimal c).isSome then
    let n : Nat := digits.foldl (fun n c => (D.decimal c).elim n (n * 10 + ·)) 0
    some (if negative then -n else n)
  else none

inductive OpenError where
  | blocked (e : SSRFBlockedError)
  | noHost
  | invalidUrl
deriving DecidableEq

/-- Whether the host has a blank or a control character. -/
def isInvalid (host : List Char) : Bool :=
  host.any fun c => decide (c.toNat ≤ 0x20 ∨ c.toNat = 0x7f)

/-- `_validate_host`. -/
def validated (host : List Char) (port : Int) : Except OpenError (List Char × Int) :=
  if isInvalid host then .error .invalidUrl else .ok (host, port)

def unbracketed (host : List Char) : List Char :=
  if host.head? = some '[' ∧ host.getLast? = some ']' then (host.drop 1).dropLast else host

/-- The host and port that a connection of `http.client` is opened to. -/
def hostport (D : Decimals) (defaultPort : Int) (host : List Char) :
    Except OpenError (List Char × Int) :=
  match rsplit ':' host with
  | none => validated (unbracketed host) defaultPort
  | some (before, text) =>
    if ']' ∈ text then validated (unbracketed host) defaultPort
    else
      match intOfText D text with
      | some port => validated (unbracketed before) port
      | none =>
        if text = [] then validated (unbracketed before) defaultPort else .error .invalidUrl

/-- `req.host.split(":")[0]`. -/
def hostnameOf (host : List Char) : List Char := (host.splitOn ':').headD []

def portOf (host defaultPort : List Char) : List Char :=
  if ':' ∈ host then ((host.splitOn ':')[1]?).getD [] else defaultPort

/-- `http_open`, up to the connection: the host and port that it is opened to. -/
def httpOpen (D : Decimals) (getaddrinfo : Resolver) (host : List Char) :
    Except OpenError (List Char × Int) :=
  match resolveAndCheck getaddrinfo (hostnameOf host) with
  | .error e => .error (.blocked e)
  | .ok ip =>
    let port := portOf host "80".toList
    let host := if port ≠ "80".toList then ip ++ ':' :: port else ip
    if host = [] then .error .noHost else hostport D 80 host

/-- `https_open`, up to the connection. -/
def httpsOpen (D : Decimals) (getaddrinfo : Resolver) (host : List Char) :
    Except OpenError (List Char × Int) :=
  match resolveAndCheck getaddrinfo (hostnameOf host) with
  | .error e => .error (.blocked e)
  | .ok ip =>
    if host = [] then .error .noHost
    else hostport D 443 (ip ++ ':' :: portOf host "443".toList)

inductive Handler where
  | http
  | https
deriving DecidableEq

def Handler.defaultPort : Handler → Int
  | .http => 80
  | .https => 443

def Handler.connect (D : Decimals) (getaddrinfo : Resolver) (host : List Char) :
    Handler → Except OpenError (List Char × Int)
  | .http => httpOpen D getaddrinfo host
  | .https => httpsOpen D getaddrinfo host

/-- The host of a request: a name with or without a port. -/
def requestHost (name : List Char) : Option (List Char) → List Char
  | none => name
  | some port => name ++ ':' :: port

/-- The port that a request asks for, `none` where its text is no number. -/
def Handler.requestedPort (D : Decimals) (h : Handler) : Option (List Char) → Option Int
  | none | some [] => some h.defaultPort
  | some text => intOfText D text

/-- The first IPv4 address of the records, or the first of all. -/
def pinnedAddress (records : List Record) : Option (List Char) :=
  ((records.find? fun r => r.family = .inet).or records.head?).map Record.ip

def Admitted (records : List Record) : Prop :=
  records ≠ [] ∧ ∀ r ∈ records, isSafeIp r.ip = true

/-- A connection is opened to nothing but the requested port of the pinned address of an answer that
is admitted. -/
def Pins (D : Decimals) (getaddrinfo : Resolver) (h : Handler) (name : List Char)
    (port : Option (List Char)) : Prop :=
  ∀ target, h.connect D getaddrinfo (requestHost name port) = .ok target →
    ∃ records, getaddrinfo name = some records ∧ Admitted records ∧
      pinnedAddress records = some target.1 ∧ h.requestedPort D port = some target.2

/-- What the handler makes of the address and the port is read back as such, or not at all. -/
def ReadsBack (D : Decimals) (h : Handler) (ip : List Char) (port : Option (List Char)) : Prop :=
  if h = .http ∧ (port = none ∨ port = some "80".toList) then
    ∀ before text, rsplit ':' ip = some (before, text) →
      ']' ∈ text ∨ (intOfText D text = none ∧ text ≠ []) ∨ isInvalid before = true
  else ∀ text, port = some text → ']' ∈ text → isInvalid (ip ++ ':' :: text) = true

theorem checkRecords_eq_ok_iff {hostname : List Char} {first x : Option (List Char)}
    {records : List Record} : checkRecords hostname first records = .ok x ↔
      (∀ r ∈ records, isSafeIp r.ip = true) ∧
        x = first.or ((records.find? fun r => r.family = .inet).map Record.ip) := by
  induction records generalizing first with
  | nil =>
    rw [checkRecords]
    constructor
    · intro h
      cases h
      exact ⟨fun _ hr => (nomatch hr), (Option.or_none).symm⟩
    · rintro ⟨-, rfl⟩
      exact congrArg Except.ok Option.or_none.symm
  | cons r rs ih =>
    rw [checkRecords]
    by_cases hs : isSafeIp r.ip = false
    · rw [if_pos hs]
      refine iff_of_false (fun h => nomatch h) fun h => ?_
      rw [h.1 r (.head _)] at hs
      cases hs
    · rw [if_neg hs, ih, List.forall_mem_cons, and_assoc,
        and_iff_right (Bool.eq_true_of_not_eq_false hs)]
      refine and_congr_right fun _ => ?_
      by_cases hf : r.family = .inet
      · have hfind : (r :: rs).find? (fun r => r.family = .inet) = some r :=
          List.find?_cons_of_pos (decide_eq_true hf)
        rw [hfind]
        cases first with
        | none => rw [if_pos ⟨hf, rfl⟩]; rfl
        | some ip => rw [if_neg fun h => nomatch h.2]; rfl
      · have hfind : (r :: rs).find? (fun r => r.family = .inet) =
            rs.find? fun r => r.family = .inet :=
          List.find?_cons_of_neg (fun h => hf (of_decide_eq_true h))
        rw [hfind, if_neg fun h => hf h.1]

/-- A name resolves exactly when its answer is admitted, and to the pinned address. -/
theorem resolveAndCheck_eq_ok_iff {getaddrinfo : Resolver} {hostname ip : List Char} :
    resolveAndCheck getaddrinfo hostname = .ok ip ↔ ∃ records,
      getaddrinfo hostname = some records ∧ Admitted records ∧ pinnedAddress records = some ip := by
  rw [resolveAndCheck]
  cases getaddrinfo hostname with
  | none => exact iff_of_false (fun h => nomatch h) fun ⟨_, h, _⟩ => nomatch h
  | some records =>
    cases records with
    | nil =>
      refine iff_of_false (fun h => nomatch h) ?_
      rintro ⟨_, h, ha, -⟩
      cases h
      exact ha.1 rfl
    | cons r rs =>
      constructor
      · intro h
        obtain ⟨x, hx, rfl⟩ := map_ok h
        obtain ⟨hs, rfl⟩ := checkRecords_eq_ok_iff.1 hx
        refine ⟨r :: rs, rfl, ⟨List.cons_ne_nil r rs, hs⟩, ?_⟩
        rw [pinnedAddress]
        cases (r :: rs).find? fun r => r.family = .inet with
        | none => rfl
        | some q => rfl
      · rintro ⟨_, h, ha, hp⟩
        cases h
        have hx : checkRecords hostname none (r :: rs) = .ok _ :=
          checkRecords_eq_ok_iff.2 ⟨ha.2, rfl⟩
        dsimp only
        rw [hx]
        rw [pinnedAddress] at hp
        cases hf : (r :: rs).find? fun r => r.family = .inet with
        | none =>
          rw [hf] at hp
          cases hp
          rfl
        | some q =>
          rw [hf] at hp
          cases hp
          rfl

theorem unbracketed_eq {host : List Char} (h : host.head? ≠ some '[') : unbracketed host = host :=
  if_neg fun hb => h hb.1

theorem head_append_colon {x t : List Char} (h : x.head? ≠ some '[') :
    (x ++ ':' :: t).head? ≠ some '[' := by
  cases x with
  | nil => exact fun he => nomatch he
  | cons c x => exact h

/-- How a host with a colon is split. -/
theorem hostport_append (D : Decimals) (d : Int) {x t : List Char} (hx : x.head? ≠ some '[')
    (ht : ':' ∉ t) : hostport D d (x ++ ':' :: t) =
      if ']' ∈ t then validated (x ++ ':' :: t) d
      else
        match intOfText D t with
        | some port => validated x port
        | none => if t = [] then validated x d else .error .invalidUrl := by
  rw [hostport, rsplit_append ht]
  dsimp only
  rw [unbracketed_eq (head_append_colon hx), unbracketed_eq hx]

theorem hostport_no_colon (D : Decimals) (d : Int) {x : List Char} (hx : x.head? ≠ some '[')
    (hc : ':' ∉ x) : hostport D d x = validated x d := by
  rw [hostport, rsplit_eq_none.2 hc]
  dsimp only
  rw [unbracketed_eq hx]

/-- What holds of whatever a validated host and a port are a target of. -/
theorem validated_targets_iff {x : List Char} {d : Int} {P : List Char × Int → Prop} :
    (∀ target, validated x d = .ok target → P target) ↔ isInvalid x = true ∨ P (x, d) := by
  rw [validated]
  by_cases hi : isInvalid x = true
  · rw [if_pos hi]
    exact iff_of_true (fun _ h => nomatch h) (.inl hi)
  · rw [if_neg hi, or_iff_right hi]
    constructor
    · exact fun h => h _ rfl
    · rintro h target ht
      cases ht
      exact h

theorem head_of_safe {ip : List Char} (h : isSafeIp ip = true) : ip.head? ≠ some '[' := by
  rw [isSafeIp] at h
  split at h
  · cases h
  · rename_i a ha
    obtain ⟨c, hc, hd⟩ := Ip.head_of_ipAddress ha
    rw [hc]
    intro he
    cases he
    exact absurd hd (by decide)

theorem hostnameOf_requestHost {name : List Char} (hn : ':' ∉ name) {port : Option (List Char)} :
    hostnameOf (requestHost name port) = name := by
  cases port with
  | none =>
    rw [requestHost, hostnameOf, List.splitOn_eq_singleton hn]
    rfl
  | some text =>
    rw [requestHost, hostnameOf, List.splitOn_append_cons_self, List.splitOn_eq_singleton hn]
    rfl

theorem portOf_requestHost {name : List Char} (hn : ':' ∉ name) {port : Option (List Char)}
    (hp : ∀ text, port = some text → ':' ∉ text) (d : List Char) :
    portOf (requestHost name port) d = port.getD d := by
  cases port with
  | none => exact if_neg hn
  | some text =>
    rw [requestHost, portOf, if_pos (List.mem_append_right name List.mem_cons_self),
      List.splitOn_append_cons_self, List.splitOn_eq_singleton hn,
      List.splitOn_eq_singleton (hp text rfl)]
    rfl

theorem decimal_of_isDigit (D : Decimals) {c : Char} (h : c.isDigit = true) :
    D.decimal c = some (c.toNat - '0'.toNat) := by
  rw [D.decimal_ascii c (ascii_of_isDigit h), if_pos h]

theorem strip_digits {text : List Char} (hne : text ≠ []) (h : ∀ c ∈ text, c.isDigit = true) :
    strip text = text := by
  have hspace {c : Char} (hc : c.isDigit = true) : isSpace c = false := by
    have hlt := ascii_of_isDigit hc
    revert hc
    exact forall_ascii (P := fun c => c.isDigit = true → isSpace c = false) (by decide +kernel) hlt
  apply strip_of_trimmed
  obtain ⟨c, cs, rfl⟩ := List.exists_cons_of_ne_nil hne
  refine ⟨c, rfl, hspace (h c (.head _)), _, List.getLast?_eq_some_getLast hne, ?_⟩
  exact hspace (h _ (List.getLast_mem hne))

/-- `int` of ASCII digits. -/
theorem intOfText_digits (D : Decimals) {text : List Char} (hne : text ≠ [])
    (h : ∀ c ∈ text, c.isDigit = true) :
    intOfText D text = some (Nat.ofDigitChars 10 text 0) := by
  have hstrip := strip_digits hne h
  have hsign : dropSign text = (false, text) := by
    unfold dropSign
    split
    · exact absurd (h '-' (.head _)) (by decide)
    · exact absurd (h '+' (.head _)) (by decide)
    · rfl
  have hsplit : text.splitOn '_' = [text] :=
    List.splitOn_eq_singleton fun hm => absurd (h _ hm) (by decide)
  have hall : ([text].all fun g => !g.isEmpty && g.all fun c => (D.decimal c).isSome) = true := by
    rw [List.all_cons, List.all_nil, Bool.and_true, Bool.and_eq_true, Bool.not_eq_true',
      List.isEmpty_eq_false_iff, List.all_eq_true]
    refine ⟨hne, fun c hc => ?_⟩
    rw [decimal_of_isDigit D (h c hc)]
    rfl
  have hfold : ∀ (cs : List Char) (n : Nat), (∀ c ∈ cs, c.isDigit = true) →
      cs.foldl (fun n c => (D.decimal c).elim n (n * 10 + ·)) n = Nat.ofDigitChars 10 cs n := by
    intro cs
    induction cs with
    | nil => exact fun _ _ => rfl
    | cons c cs ih =>
      intro n hd
      rw [List.foldl_cons, decimal_of_isDigit D (hd c (.head _)), Option.elim_some,
        ih _ fun x hx => hd x (.tail _ hx), Nat.ofDigitChars_cons, Nat.mul_comm]
  rw [intOfText, hstrip, hsign]
  dsimp only
  rw [hsplit, if_pos hall, hfold text 0 h]
  rfl

theorem digits_intText (n : Nat) : ∀ c ∈ Json.intText n, c.isDigit = true := by
  rw [Json.intText_ofNat]
  exact fun c hc => Nat.isDigit_of_mem_toDigits (by decide) (by decide) hc

theorem intText_ne_nil (n : Nat) : Json.intText n ≠ [] := by
  rw [Json.intText_ofNat]
  exact Nat.toDigits_ne_nil

/-- `int(str(n))`. -/
theorem intOfText_intText (D : Decimals) (n : Nat) :
    intOfText D (Json.intText n) = some (n : Int) := by
  rw [intOfText_digits D (intText_ne_nil n) (digits_intText n), Json.intText_ofNat,
    Nat.ofDigitChars_ten_toDigits]
  rfl

theorem intOfText_nil (D : Decimals) : intOfText D [] = none := rfl

theorem intOfText_eighty (D : Decimals) : intOfText D "80".toList = some 80 :=
  intOfText_digits D (by decide) (forall_mem_of_all (by decide))

theorem intOfText_default (D : Decimals) : intOfText D "443".toList = some 443 :=
  intOfText_digits D (by decide) (forall_mem_of_all (by decide))

/-- Of a checked address and a port that is no default of its handler, the port is read back. -/
theorem hostport_port_iff (D : Decimals) (h : Handler) {ip text : List Char} {port : Option Int}
    (hs : isSafeIp ip = true) (ht : ':' ∉ text)
    (hp : port = if text = [] then some h.defaultPort else intOfText D text) :
    (∀ target, hostport D h.defaultPort (ip ++ ':' :: text) = .ok target →
      target.1 = ip ∧ port = some target.2) ↔
        (']' ∈ text → isInvalid (ip ++ ':' :: text) = true) := by
  rw [hostport_append D _ (head_of_safe hs) ht]
  by_cases hb : ']' ∈ text
  · rw [if_pos hb, validated_targets_iff, or_iff_left]
    · exact ⟨fun hi _ => hi, fun hi => hi hb⟩
    · rintro ⟨he, -⟩
      have hlen := congrArg List.length he
      rw [List.length_append, List.length_cons] at hlen
      omega
  · rw [if_neg hb]
    refine iff_of_true ?_ fun hm => absurd hm hb
    cases hi : intOfText D text with
    | some n =>
      have hne : text ≠ [] := by
        rintro rfl
        cases hi
      rw [if_neg hne, hi] at hp
      exact validated_targets_iff.2 (.inr ⟨rfl, hp⟩)
    | none =>
      dsimp only
      by_cases hn : text = []
      · rw [if_pos hn] at hp ⊢
        exact validated_targets_iff.2 (.inr ⟨rfl, hp⟩)
      · rw [if_neg hn]
        exact fun _ he => nomatch he

/-- A checked address without its port is read back if its last field is no port. -/
theorem hostport_bare_iff (D : Decimals) {ip : List Char} (hs : isSafeIp ip = true) :
    (∀ target, hostport D 80 ip = .ok target → target.1 = ip ∧ some 80 = some target.2) ↔
      ∀ before text, rsplit ':' ip = some (before, text) →
        ']' ∈ text ∨ (intOfText D text = none ∧ text ≠ []) ∨ isInvalid before = true := by
  by_cases hc : ':' ∈ ip
  · obtain ⟨before, text, rfl, ht, hr⟩ := exists_rsplit hc
    have hhead : before.head? ≠ some '[' := by
      have hh := head_of_safe hs
      cases before with
      | nil => exact fun he => nomatch he
      | cons c x => exact hh
    have hne : before ≠ before ++ ':' :: text := by
      intro he
      have hlen := congrArg List.length he
      rw [List.length_append, List.length_cons] at hlen
      omega
    rw [hostport_append D _ hhead ht]
    have hone : (∀ before' text', rsplit ':' (before ++ ':' :: text) = some (before', text') →
        ']' ∈ text' ∨ (intOfText D text' = none ∧ text' ≠ []) ∨ isInvalid before' = true) ↔
          ']' ∈ text ∨ (intOfText D text = none ∧ text ≠ []) ∨ isInvalid before = true := by
      rw [hr]
      constructor
      · exact fun h => h before text rfl
      · rintro h _ _ he
        cases he
        exact h
    rw [hone]
    by_cases hb : ']' ∈ text
    · rw [if_pos hb]
      exact iff_of_true (validated_targets_iff.2 (.inr ⟨rfl, rfl⟩)) (.inl hb)
    · rw [if_neg hb, or_iff_right hb]
      cases hi : intOfText D text with
      | some n =>
        dsimp only
        rw [validated_targets_iff, or_iff_left fun h => hne h.1]
        exact (or_iff_right fun h => nomatch h.1).symm
      | none =>
        dsimp only
        by_cases hn : text = []
        · rw [if_pos hn, validated_targets_iff, or_iff_left fun h => hne h.1]
          exact (or_iff_right fun h => h.2 hn).symm
        · rw [if_neg hn]
          exact iff_of_true (fun _ he => nomatch he) (.inl ⟨rfl, hn⟩)
  · rw [hostport_no_colon D _ (head_of_safe hs) hc]
    refine iff_of_true (validated_targets_iff.2 (.inr ⟨rfl, rfl⟩)) ?_
    intro before text hr
    rw [rsplit_eq_none.2 hc] at hr
    cases hr

/-- What a handler does with the address that a name resolves to. -/
theorem connect_of_resolved {D : Decimals} {getaddrinfo : Resolver} {h : Handler}
    {name ip : List Char} {port : Option (List Char)} (hn : ':' ∉ name)
    (hp : ∀ text, port = some text → ':' ∉ text) (hi : ip ≠ [])
    (hr : resolveAndCheck getaddrinfo name = .ok ip) 
    (hhost : h = .https → requestHost name port ≠ []) :
    h.connect D getaddrinfo (requestHost name port) =
      if h = .http ∧ (port = none ∨ port = some "80".toList) then hostport D 80 ip
      else hostport D h.defaultPort (ip ++ ':' :: port.getD "443".toList) := by
  have hne (t : List Char) : ip ++ ':' :: t ≠ [] := fun he =>
    List.cons_ne_nil _ _ (List.append_eq_nil_iff.1 he).2
  cases h with
  | http =>
    rw [Handler.connect, httpOpen, hostnameOf_requestHost hn, hr]
    dsimp only
    rw [portOf_requestHost hn hp]
    cases port with
    | none =>
      rw [Option.getD_none, if_neg (not_not.2 rfl), if_neg hi, if_pos ⟨rfl, .inl rfl⟩]
    | some text =>
      rw [Option.getD_some, Option.getD_some]
      by_cases ht : text = "80".toList
      · rw [if_neg (not_not.2 ht), if_neg hi, if_pos ⟨rfl, .inr (congrArg some ht)⟩]
      · rw [if_pos ht, if_neg (hne text), if_neg, Handler.defaultPort]
        rintro ⟨-, he | he⟩
        · cases he
        · exact ht (Option.some.inj he)
  | https =>
    rw [Handler.connect, httpsOpen, hostnameOf_requestHost hn, hr]
    dsimp only
    rw [if_neg (hhost rfl), portOf_requestHost hn hp, if_neg fun he => nomatch he.1]
    rfl

theorem safe_of_pinned {records : List Record} {ip : List Char} (ha : Admitted records)
    (hp : pinnedAddress records = some ip) : isSafeIp ip = true := by
  obtain ⟨r, hr, rfl⟩ := Option.map_eq_some_iff.1 hp
  apply ha.2
  cases hf : records.find? fun r => r.family = .inet with
  | none =>
    rw [hf] at hr
    exact List.mem_of_mem_head? hr
  | some q =>
    rw [hf] at hr
    cases hr
    exact List.mem_of_find?_eq_some hf

section
variable {D : Decimals} {getaddrinfo : Resolver} {h : Handler} {name : List Char}
  {port : Option (List Char)}

/-- A name whose answer is not admitted is connected to nothing. -/
theorem not_connect_of_error {e : SSRFBlockedError} (hn : ':' ∉ name)
    (hr : resolveAndCheck getaddrinfo name = .error e) (target : List Char × Int) :
    h.connect D getaddrinfo (requestHost name port) ≠ .ok target := by
  cases h with
  | http =>
    rw [Handler.connect, httpOpen, hostnameOf_requestHost hn, hr]
    exact fun he => nomatch he
  | https =>
    rw [Handler.connect, httpsOpen, hostnameOf_requestHost hn, hr]
    exact fun he => nomatch he

theorem pins_of_resolved {records : List Record} {ip : List Char} (hn : ':' ∉ name)
    (hp : ∀ text, port = some text → ':' ∉ text) (hr : getaddrinfo name = some records)
    (ha : Admitted records) (hi : pinnedAddress records = some ip) :
    Pins D getaddrinfo h name port ↔ ReadsBack D h ip port := by
  have hs := safe_of_pinned ha hi
  have hne : ip ≠ [] := by
    rintro rfl
    exact absurd hs (by decide +kernel)
  have htarget (target : List Char × Int) : (∃ records, getaddrinfo name = some records ∧
      Admitted records ∧ pinnedAddress records = some target.1 ∧
        h.requestedPort D port = some target.2) ↔
          target.1 = ip ∧ h.requestedPort D port = some target.2 := by
    constructor
    · rintro ⟨records', hr', -, hi', hq⟩
      rw [hr] at hr'
      cases hr'
      rw [hi] at hi'
      exact ⟨(Option.some.inj hi').symm, hq⟩
    · rintro ⟨rfl, hq⟩
      exact ⟨records, hr, ha, hi, hq⟩
  by_cases hempty : h = .https ∧ requestHost name port = []
  · obtain ⟨rfl, he⟩ := hempty
    have hport : port = none := by
      cases port with
      | none => rfl
      | some text => exact absurd (List.append_eq_nil_iff.1 he).2 (List.cons_ne_nil _ _)
    refine iff_of_true (fun target ht => ?_) ?_
    · rw [Handler.connect, httpsOpen, he] at ht
      split at ht
      · cases ht
      · cases ht
    · rw [ReadsBack, if_neg fun hc => absurd hc.1 (by decide), hport]
      exact fun _ hc => nomatch hc
  · have hconn := connect_of_resolved (D := D) hn hp hne
      (resolveAndCheck_eq_ok_iff.2 ⟨records, hr, ha, hi⟩) fun hh he => hempty ⟨hh, he⟩
    simp only [Pins, htarget]
    rw [hconn, ReadsBack]
    by_cases hd : h = .http ∧ (port = none ∨ port = some "80".toList)
    · have hport : h.requestedPort D port = some 80 := by
        obtain ⟨rfl, rfl | rfl⟩ := hd
        · rfl
        · exact intOfText_eighty D
      rw [if_pos hd, if_pos hd, hport]
      exact hostport_bare_iff D hs
    · rw [if_neg hd, if_neg hd]
      cases port with
      | none =>
        have hh : h = .https := by
          cases h with
          | http => exact absurd ⟨rfl, .inl rfl⟩ hd
          | https => rfl
        have hq : h.requestedPort D none = if "443".toList = [] then some h.defaultPort else
            intOfText D "443".toList := by
          rw [if_neg (by decide), intOfText_default, hh]
          rfl
        refine (hostport_port_iff D h hs (by decide) hq).trans ?_
        exact iff_of_true (fun hm => absurd hm (by decide)) fun _ hc => nomatch hc
      | some text =>
        have hq : h.requestedPort D (some text) = if text = [] then some h.defaultPort else
            intOfText D text := by
          cases text with
          | nil => rfl
          | cons c cs => rfl
        refine (hostport_port_iff D h hs (hp text rfl) hq).trans ?_
        constructor
        · rintro hm _ hc
          cases hc
          exact hm
        · exact fun hm => hm text rfl

end

/-- A connection is opened to nothing but the requested port of the pinned address of an admitted
answer exactly when what the handler makes of that address and port is read back. -/
theorem pins_iff (D : Decimals) (getaddrinfo : Resolver) (h : Handler) {name : List Char}
    {port : Option (List Char)} (hn : ':' ∉ name) (hp : ∀ text, port = some text → ':' ∉ text) :
    Pins D getaddrinfo h name port ↔ ∀ records ip, getaddrinfo name = some records →
      Admitted records → pinnedAddress records = some ip → ReadsBack D h ip port := by
  cases hr : resolveAndCheck getaddrinfo name with
  | error e =>
    refine iff_of_true (fun target ht => absurd ht (not_connect_of_error hn hr target)) ?_
    intro records ip hg ha hi
    have hok := resolveAndCheck_eq_ok_iff.2 ⟨records, hg, ha, hi⟩
    rw [hr] at hok
    cases hok
  | ok ip =>
    obtain ⟨records, hg, ha, hi⟩ := resolveAndCheck_eq_ok_iff.1 hr
    rw [pins_of_resolved hn hp hg ha hi]
    constructor
    · intro h records' ip' hg' ha' hi'
      rw [hg] at hg'
      cases hg'
      rw [hi] at hi'
      cases hi'
      exact h
    · exact fun h => h records ip hg ha hi

/-- The digits of ASCII alone. -/
def Decimals.ascii : Decimals where
  decimal c := if c.isDigit then some (c.toNat - '0'.toNat) else none
  decimal_ascii _ _ := rfl

theorem pins_ipv4 : Pins .ascii (fun _ => some [⟨.inet6, "2606:4700::1".toList⟩,
    ⟨.inet, "93.184.216.34".toList⟩]) .http "example.com".toList (some "8080".toList) := by
  have hn : ':' ∉ "example.com".toList := by decide
  have hp : ∀ text, some "8080".toList = some text → ':' ∉ text := by
    intro text he
    cases he
    decide
  apply (pins_iff _ _ _ hn hp).2
  intro records ip hr _ hi
  cases hr
  cases hi
  rw [ReadsBack, if_neg (by decide)]
  intro text he hm
  cases he
  exact absurd hm (by decide)

/-- The only address of a name is split at its last colon. -/
theorem ipv6_not_pinned : ¬ Pins .ascii (fun _ => some [⟨.inet6, "2606:4700::1".toList⟩]) .http
    "example.com".toList none := by
  intro h
  have hc : Handler.http.connect .ascii (fun _ => some [⟨.inet6, "2606:4700::1".toList⟩])
      (requestHost "example.com".toList none) = .ok ("2606:4700:".toList, 1) := by
    decide +kernel
  obtain ⟨records, hr, -, hi, -⟩ := h _ hc
  cases hr
  exact absurd hi (by decide)

end Obase.Http
