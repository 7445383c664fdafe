import Mathlib.Data.List.SplitBy
import Obase.Builtins
import Obase.Separated

namespace Obase.Url
set_option autoImplicit true

/-- `_ALWAYS_SAFE`. -/
def isSafe (b : UInt8) : Bool :=
  let c := Char.ofNat b.toNat
  b.toNat < 128 && (c.isAlphanum || c == '_' || c == '.' || c == '-' || c == '~')

/-- A digit of `'{:02X}'`. -/
def hexUpper (n : Nat) : Char := (Nat.digitChar n).toUpper

def quoteByte (b : UInt8) : List Char :=
  if b = 32 then ['+']
  else if isSafe b then [Char.ofNat b.toNat]
  else ['%', hexUpper (b.toNat / 16), hexUpper (b.toNat % 16)]

def quotePlus (cs : List Char) : List Char := (utf8 cs).flatMap quoteByte

/-- `unquote_to_bytes` of an ASCII text. -/
def unquoteToBytes : List Char → List UInt8
  | [] => []
  | '%' :: a :: b :: cs =>
    match Json.hexValue a, Json.hexValue b with
    | some m, some n => UInt8.ofNat (16 * m + n) :: unquoteToBytes cs
    | _, _ => 37 :: unquoteToBytes (a :: b :: cs)
  | c :: cs => UInt8.ofNat c.toNat :: unquoteToBytes cs

def isAscii (c : Char) : Bool := c.toNat < 128

/-- `unquote`; `decode` is `bytes.decode` with replacement of what is not UTF-8. -/
def unquote (decode : List UInt8 → List Char) (s : List Char) : List Char :=
  if '%' ∉ s then s
  else
    (s.splitBy fun a b => isAscii a == isAscii b).flatMap fun run =>
      if run.all isAscii then decode (unquoteToBytes run) else run

def plusToSpace (s : List Char) : List Char := s.map fun c => if c = '+' then ' ' else c

def unquotePlus (decode : List UInt8 → List Char) (s : List Char) : List Char :=
  unquote decode (plusToSpace s)

/-- `s.partition(c)`: what is before and after the first `c`. -/
def partition (c : Char) (s : List Char) : List Char × List Char :=
  (s.takeWhile (· ≠ c), (s.dropWhile (· ≠ c)).tail)

/-- `parse_qsl` with `keep_blank_values`. -/
def parseQsl (decode : List UInt8 → List Char) (qs : List Char) : List (List Char × List Char) :=
  ((qs.splitOn '&').filter fun nameValue => !nameValue.isEmpty).map fun nameValue =>
    (unquotePlus decode (partition '=' nameValue).1, unquotePlus decode (partition '=' nameValue).2)

def urlencode (pairs : List (List Char × List Char)) : List Char :=
  ['&'].intercalate (pairs.map fun p => quotePlus p.1 ++ '=' :: quotePlus p.2)

theorem partition_append {c : Char} {x : List Char} (hx : c ∉ x) (y : List Char) :
    partition c (x ++ c :: y) = (x, y) := by
  have hp : ∀ a ∈ x, decide (a ≠ c) = true := fun a ha => decide_eq_true fun he => hx (he ▸ ha)
  rw [partition, List.takeWhile_append_of_pos hp, List.dropWhile_append_of_pos hp,
    List.takeWhile_cons_of_neg (by simp), List.dropWhile_cons_of_neg (by simp), List.append_nil,
    List.tail_cons]

theorem partition_of_not_mem {c : Char} {x : List Char} (hx : c ∉ x) :
    partition c x = (x, []) := by
  have hp : ∀ a ∈ x, decide (a ≠ c) = true := fun a ha => decide_eq_true fun he => hx (he ▸ ha)
  rw [partition, List.takeWhile_eq_self_iff.2 hp, List.dropWhile_eq_nil_iff.2 hp, List.tail_nil]

theorem partition_of_mem {c : Char} {x : List Char} (h : c ∈ x) :
    x = (partition c x).1 ++ c :: (partition c x).2 ∧ c ∉ (partition c x).1 := by
  obtain ⟨as, bs, rfl, hn⟩ := List.eq_append_cons_of_mem h
  rw [partition_append hn]
  exact ⟨rfl, hn⟩

theorem not_mem_partition_fst (c : Char) (x : List Char) : c ∉ (partition c x).1 := by
  intro h
  have hp := List.mem_takeWhile_imp h
  simp at hp

theorem partition_fst_initial (c : Char) (x : List Char) : (partition c x).1 <+: x :=
  List.takeWhile_prefix _

theorem partition_snd_suffix (c : Char) (x : List Char) : (partition c x).2 <:+ x :=
  (List.tail_suffix _).trans (List.dropWhile_suffix _)

/-- A byte is quoted in letters, digits and the marks `_.-~%+`. -/
def isQuoted (c : Char) : Bool :=
  c.isAlphanum || c ∈ ['_', '.', '-', '~', '%', '+']

theorem forall_byte {P : UInt8 → Prop} (h : ∀ n < 256, P (UInt8.ofNat n)) (b : UInt8) : P b := by
  have hb := h b.toNat (UInt8.toNat_lt b)
  rwa [UInt8.ofNat_toNat] at hb

theorem quoteByte_quoted (b : UInt8) : (quoteByte b).all isQuoted = true :=
  forall_byte (P := fun b => (quoteByte b).all isQuoted = true) (by decide +kernel) b

theorem quotePlus_quoted {cs : List Char} {c : Char} (h : c ∈ quotePlus cs) :
    isQuoted c = true := by
  obtain ⟨b, -, hb⟩ := List.mem_flatMap.1 h
  exact List.all_eq_true.1 (quoteByte_quoted b) c hb

theorem ascii_of_quoted {c : Char} (h : isQuoted c = true) : c.toNat < 128 := by
  rw [isQuoted, Bool.or_eq_true] at h
  rcases h with h | h
  · delta Char.isAlphanum Char.isAlpha Char.isUpper Char.isLower Char.isDigit at h
    simp only [Bool.or_eq_true, Bool.and_eq_true, decide_eq_true_eq, UInt32.le_iff_toNat_le] at h
    change ((65 ≤ c.toNat ∧ c.toNat ≤ 90) ∨ 97 ≤ c.toNat ∧ c.toNat ≤ 122) ∨
      48 ≤ c.toNat ∧ c.toNat ≤ 57 at h
    omega
  · simp only [List.mem_cons, List.not_mem_nil, or_false, decide_eq_true_eq] at h
    rcases h with rfl | rfl | rfl | rfl | rfl | rfl <;> decide

theorem unquoteToBytes_cons {c : Char} (hc : c ≠ '%') (cs : List Char) :
    unquoteToBytes (c :: cs) = UInt8.ofNat c.toNat :: unquoteToBytes cs := by
  rw [unquoteToBytes]
  rintro a b t rfl
  exact (hc rfl).elim

/-- The text reads back as the byte. -/
def readsBack (b : UInt8) : List Char → Bool
  | [c] => c != '%' && UInt8.ofNat c.toNat == b
  | ['%', h, l] =>
    match Json.hexValue h, Json.hexValue l with
    | some m, some n => UInt8.ofNat (16 * m + n) == b
    | _, _ => false
  | _ => false

theorem readsBack_quoteByte (b : UInt8) : readsBack b (plusToSpace (quoteByte b)) = true :=
  forall_byte (P := fun b => readsBack b (plusToSpace (quoteByte b)) = true) (by decide +kernel) b

theorem unquoteToBytes_of_readsBack {b : UInt8} {t : List Char} (h : readsBack b t = true)
    (cs : List Char) : unquoteToBytes (t ++ cs) = b :: unquoteToBytes cs := by
  unfold readsBack at h
  split at h
  · rw [Bool.and_eq_true, bne_iff_ne, beq_iff_eq] at h
    rw [List.singleton_append, unquoteToBytes_cons h.1, h.2]
  · rename_i hi lo
    rw [List.cons_append, List.cons_append, List.singleton_append, unquoteToBytes]
    split at h
    · rw [eq_of_beq h]
    · cases h
  · cases h

theorem plusToSpace_append (s t : List Char) :
    plusToSpace (s ++ t) = plusToSpace s ++ plusToSpace t :=
  List.map_append

theorem unquoteToBytes_quoted (bs : List UInt8) :
    unquoteToBytes (plusToSpace (bs.flatMap quoteByte)) = bs := by
  induction bs with
  | nil => rfl
  | cons b bs ih =>
    rw [List.flatMap_cons, plusToSpace_append,
      unquoteToBytes_of_readsBack (readsBack_quoteByte b), ih]

theorem unquoteToBytes_of_no_percent {cs : List Char} (h : '%' ∉ cs) :
    unquoteToBytes cs = cs.map fun c => UInt8.ofNat c.toNat := by
  induction cs with
  | nil => rfl
  | cons c cs ih =>
    rw [List.mem_cons, not_or] at h
    rw [unquoteToBytes_cons (Ne.symm h.1), ih h.2, List.map_cons]

/-- An ASCII text is unquoted in one run. -/
theorem unquote_ascii {decode : List UInt8 → List Char} (hd : ∀ cs, decode (utf8 cs) = cs)
    {s : List Char} (hs : ∀ c ∈ s, c.toNat < 128) : unquote decode s = decode (unquoteToBytes s) := by
  rw [unquote]
  split
  · rename_i h
    rw [unquoteToBytes_of_no_percent h, ← utf8_ascii hs, hd]
  · rename_i h
    have hne : s ≠ [] := by
      rintro rfl
      exact h (by simp)
    have ha : ∀ c ∈ s, isAscii c = true := fun c hc => decide_eq_true (hs c hc)
    have hc : s.IsChain fun a b => (isAscii a == isAscii b) = true :=
      (List.pairwise_of_forall_mem_list fun a hm b hb => by rw [ha a hm, ha b hb]; rfl).isChain
    rw [List.splitBy_of_isChain hne hc, List.flatMap_singleton, if_pos (List.all_eq_true.2 ha)]

theorem unquotePlus_quotePlus {decode : List UInt8 → List Char}
    (hd : ∀ cs, decode (utf8 cs) = cs) (cs : List Char) :
    unquotePlus decode (quotePlus cs) = cs := by
  have ha : ∀ c ∈ plusToSpace (quotePlus cs), c.toNat < 128 := by
    intro c hc
    obtain ⟨a, ha, rfl⟩ := List.mem_map.1 hc
    split
    · decide
    · exact ascii_of_quoted (quotePlus_quoted ha)
  rw [unquotePlus, unquote_ascii hd ha, quotePlus, unquoteToBytes_quoted, hd]

theorem not_mem_quotePlus {cs : List Char} {c : Char} (h : isQuoted c = false) :
    c ∉ quotePlus cs := by
  intro hc
  rw [quotePlus_quoted hc] at h
  cases h

/-- A query is decoded to the pairs that it was made of. -/
theorem parseQsl_urlencode {decode : List UInt8 → List Char} (hd : ∀ cs, decode (utf8 cs) = cs)
    (pairs : List (List Char × List Char)) : parseQsl decode (urlencode pairs) = pairs := by
  cases pairs with
  | nil => rfl
  | cons p ps =>
    have hfree : ∀ l ∈ (p :: ps).map fun p => quotePlus p.1 ++ '=' :: quotePlus p.2,
        '&' ∉ l := by
      intro l hl
      obtain ⟨q, -, rfl⟩ := List.mem_map.1 hl
      have hq : ∀ cs, '&' ∉ quotePlus cs := fun cs => not_mem_quotePlus (by decide)
      simp [hq]
    have hall : ∀ l ∈ (p :: ps).map fun p => quotePlus p.1 ++ '=' :: quotePlus p.2,
        (!l.isEmpty) = true := by
      intro l hl
      obtain ⟨q, -, rfl⟩ := List.mem_map.1 hl
      simp
    rw [parseQsl, urlencode, List.splitOn_intercalate '&' hfree (by simp),
      List.filter_eq_self.2 hall, List.map_map]
    have hc : ∀ q ∈ p :: ps, ((fun nameValue => (unquotePlus decode (partition '=' nameValue).1,
        unquotePlus decode (partition '=' nameValue).2)) ∘
        fun p => quotePlus p.1 ++ '=' :: quotePlus p.2) q = id q := by
      intro q _
      dsimp only [Function.comp, id]
      rw [partition_append (not_mem_quotePlus (by decide)), unquotePlus_quotePlus hd,
        unquotePlus_quotePlus hd]
    rw [List.map_congr_left hc, List.map_id]

theorem mem_urlencode {pairs : List (List Char × List Char)} {c : Char}
    (h : c ∈ urlencode pairs) : isQuoted c = true ∨ c = '&' ∨ c = '=' := by
  rcases Separated.mem_intercalate h with he | ⟨l, hl, h⟩
  · exact .inr (.inl he)
  · obtain ⟨p, -, rfl⟩ := List.mem_map.1 hl
    rcases List.mem_append.1 h with h | h
    · exact .inl (quotePlus_quoted h)
    · rcases List.mem_cons.1 h with he | h
      · exact .inr (.inr he)
      · exact .inl (quotePlus_quoted h)

def decodeUtf8 (bs : List UInt8) : List Char :=
  match String.fromUTF8? ⟨bs.toArray⟩ with
  | some s => s.toList
  | none => []

theorem decodeUtf8_utf8 (cs : List Char) : decodeUtf8 (utf8 cs) = cs := by
  have hb : (⟨(utf8 cs).toArray⟩ : ByteArray) = (String.ofList cs).toByteArray := by
    rw [utf8, Array.toArray_toList]
    rfl
  have hv : ((String.ofList cs).toByteArray).IsValidUTF8 := (String.ofList cs).isValidUTF8
  rw [decodeUtf8, hb, String.fromUTF8?, dif_pos hv]
  exact String.toList_ofList

end Obase.Url
