import Obase.Fallible
import Obase.Json.Lexical

namespace Obase
set_option autoImplicit true

/-- The exceptions of the interpreter that the modelled code meets. -/
inductive PyError where
  | keyError (key : String)
  | typeError
  | valueError
  | attributeError
  | overflowError
deriving DecidableEq

/-- Built-in conversions that are left open: `int` and `float` of a string, `float` of an
integer (`none` where they raise), `x + 1` of a float, `str` of a container and the texts of
exceptions, a `JSONDecodeError` by the document it is about. -/
class Builtins (F : Type) extends Json.FloatText F where
  intOfStr : String → Option Int
  floatOfStr : String → Option (PyFloat F)
  floatOfInt : Int → Option F
  addOne : F → PyFloat F
  strOf : Json F → List Char
  excText : PyError → String
  decodeErrorText : List Char → String

namespace Json

/-- `str(x)` of a float; JSON spells the three others differently. -/
def floatStr [FloatText F] : PyFloat F → List Char
  | .finite x => FloatText.repr x
  | .inf => ['i', 'n', 'f']
  | .negInf => ['-', 'i', 'n', 'f']
  | .nan => ['n', 'a', 'n']

/-- What an f-string makes of a value. -/
def format [Builtins F] : Json F → List Char
  | .str s => s.toList
  | .int n => intText n
  | .float x => floatStr x
  | .bool true => ['T', 'r', 'u', 'e']
  | .bool false => ['F', 'a', 'l', 's', 'e']
  | .null => ['N', 'o', 'n', 'e']
  | v => Builtins.strOf v

/-- `int(v)`. -/
def toInt [Builtins F] : Json F → Except PyError Int
  | .int n => .ok n
  | .bool b => .ok (if b then 1 else 0)
  | .float (.finite x) => .ok ((FloatText.val x).num.tdiv (FloatText.val x).den)
  | .float .nan => .error .valueError
  | .float _ => .error .overflowError
  | .str s =>
    match Builtins.intOfStr F s with
    | some n => .ok n
    | none => .error .valueError
  | _ => .error .typeError

def floatOfInt [Builtins F] (n : Int) : Except PyError (PyFloat F) :=
  match Builtins.floatOfInt n with
  | some x => .ok (.finite x)
  | none => .error .overflowError

/-- `float(v)`. -/
def toFloat [Builtins F] : Json F → Except PyError (PyFloat F)
  | .float x => .ok x
  | .int n => floatOfInt n
  | .bool b => floatOfInt (if b then 1 else 0)
  | .str s =>
    match Builtins.floatOfStr s with
    | some x => .ok x
    | none => .error .valueError
  | _ => .error .typeError

/-- `v + 1`. -/
def addOne [Builtins F] : Json F → Except PyError (Json F)
  | .int n => .ok (.int (n + 1))
  | .bool b => .ok (.int (if b then 2 else 1))
  | .float (.finite x) => .ok (.float (Builtins.addOne x))
  | .float x => .ok (.float x)
  | _ => .error .typeError

/-- `bool(v)`. -/
def truthy [FloatText F] : Json F → Bool
  | .null => false
  | .bool b => b
  | .int n => n != 0
  | .float (.finite x) => FloatText.val x != 0
  | .float _ => true
  | .str s => s != ""
  | .list xs => !xs.isEmpty
  | .dict ms => !ms.isEmpty

/-- `v[k]` for a string `k`. -/
def getItem (v : Json F) (k : String) : Except PyError (Json F) :=
  match v with
  | .dict ms =>
    match ms.lookup k with
    | some w => .ok w
    | none => .error (.keyError k)
  | _ => .error .typeError

/-- `v.get(k, default)`. -/
def getD (v : Json F) (k : String) (default : Json F) : Except PyError (Json F) :=
  match v with
  | .dict ms => .ok ((ms.lookup k).getD default)
  | _ => .error .attributeError

end Json

/-- `text.encode()`. -/
def utf8 (cs : List Char) : List UInt8 := (String.ofList cs).toUTF8.data.toList

/-- `data.decode("utf-8")`, `none` for a `UnicodeDecodeError`. -/
def utf8Decode (bs : List UInt8) : Option (List Char) :=
  (String.fromUTF8? ⟨bs.toArray⟩).map String.toList

/-- `digest.hex()`. -/
def hex (bs : List UInt8) : String :=
  String.ofList (bs.flatMap fun b =>
    [Nat.digitChar (b.toNat / 16), Nat.digitChar (b.toNat % 16)])

theorem utf8_append (cs ds : List Char) : utf8 (cs ++ ds) = utf8 cs ++ utf8 ds := by
  rw [utf8, String.ofList_append]
  change ((String.ofList cs).toByteArray ++ (String.ofList ds).toByteArray).data.toList = _
  rw [ByteArray.data_append, Array.toList_append]
  rfl

theorem utf8_singleton {c : Char} (h : c.toNat < 128) : utf8 [c] = [UInt8.ofNat c.toNat] :=
  Text.forall_ascii (P := fun c => utf8 [c] = [UInt8.ofNat c.toNat]) (by decide +kernel) h

theorem utf8_ascii {cs : List Char} (h : ∀ c ∈ cs, c.toNat < 128) :
    utf8 cs = cs.map fun c => UInt8.ofNat c.toNat := by
  induction cs with
  | nil => rfl
  | cons c cs ih =>
    rw [List.forall_mem_cons] at h
    rw [← List.singleton_append, utf8_append, utf8_singleton h.1, ih h.2]
    rfl

theorem utf8_injective {cs ds : List Char} (h : utf8 cs = utf8 ds) : cs = ds := by
  have hb : (String.ofList cs).toByteArray = (String.ofList ds).toByteArray :=
    ByteArray.ext (Array.toList_inj.1 h)
  exact String.ofList_injective (String.toByteArray_inj.1 hb)

theorem utf8Decode_utf8 (cs : List Char) : utf8Decode (utf8 cs) = some cs := by
  have hb : (⟨(utf8 cs).toArray⟩ : ByteArray) = (String.ofList cs).toByteArray := rfl
  rw [utf8Decode, hb, String.fromUTF8?, dif_pos (String.ofList cs).isValidUTF8, Option.map_some]
  exact congrArg some (String.toList_ofList ..)

theorem digitChar_hex : ∀ m, m < 16 → ∀ n, n < 16 → Nat.digitChar m = Nat.digitChar n → m = n := by
  decide

theorem hex_injective {bs cs : List UInt8} (h : hex bs = hex cs) : bs = cs := by
  have hl := String.ofList_injective h
  clear h
  induction bs generalizing cs with
  | nil =>
    cases cs with
    | nil => rfl
    | cons c cs => cases hl
  | cons b bs ih =>
    cases cs with
    | nil => cases hl
    | cons c cs =>
      simp only [List.flatMap_cons, List.cons_append, List.nil_append, List.cons.injEq] at hl
      obtain ⟨hhi, hlo, hl⟩ := hl
      have hb := UInt8.toNat_lt b
      have hc := UInt8.toNat_lt c
      have h₁ := digitChar_hex _ (by omega) _ (by omega) hhi
      have h₂ := digitChar_hex _ (by omega) _ (by omega) hlo
      have he : b = c := UInt8.toNat_inj.1 (by omega)
      rw [he, ih hl]

theorem hex_digits (bs : List UInt8) :
    ∀ c ∈ (hex bs).toList, c.isDigit = true ∨ ('a' ≤ c ∧ c ≤ 'f') := by
  have hd : ∀ n, n < 16 → (Nat.digitChar n).isDigit = true ∨
      ('a' ≤ Nat.digitChar n ∧ Nat.digitChar n ≤ 'f') := by decide
  intro c hc
  rw [hex, String.toList_ofList] at hc
  obtain ⟨b, -, hb⟩ := List.mem_flatMap.1 hc
  have hlt := UInt8.toNat_lt b
  simp only [List.mem_cons, List.not_mem_nil, or_false] at hb
  rcases hb with rfl | rfl
  · exact hd _ (by omega)
  · exact hd _ (by omega)

theorem utf8_cons (c : Char) (cs : List Char) :
    utf8 (c :: cs) = String.utf8EncodeChar c ++ utf8 cs := by
  have hc : utf8 [c] = String.utf8EncodeChar c := by
    simp [utf8, List.utf8Encode_singleton, List.data_toByteArray]
  rw [← List.singleton_append, utf8_append, hc]

theorem utf8_of_decode {bs : List UInt8} {cs : List Char} (h : utf8Decode bs = some cs) :
    utf8 cs = bs := by
  rw [utf8Decode] at h
  obtain ⟨s, hs, rfl⟩ := Option.map_eq_some_iff.1 h
  rw [String.fromUTF8?] at hs
  split at hs
  · cases hs
    rw [utf8, String.ofList_toList]
    rfl
  · cases hs

theorem utf8EncodeChar_append_inj {c d : Char} {bs bs' : List UInt8}
    (h : String.utf8EncodeChar c ++ bs = String.utf8EncodeChar d ++ bs') : c = d := by
  have hc := ByteArray.utf8DecodeChar?_utf8EncodeChar_append (b := bs.toByteArray) (c := c)
  have hd := ByteArray.utf8DecodeChar?_utf8EncodeChar_append (b := bs'.toByteArray) (c := d)
  rw [← List.toByteArray_append, h, List.toByteArray_append, hd] at hc
  exact (Option.some.inj hc).symm

/-- The bytes of a text begin with those of another only if the text begins with it. -/
theorem utf8_prefix {cs t : List Char} {bs : List UInt8} (h : utf8 t = utf8 cs ++ bs) :
    ∃ ds, t = cs ++ ds ∧ utf8 ds = bs := by
  induction cs generalizing t with
  | nil => exact ⟨t, rfl, h⟩
  | cons c cs ih =>
    cases t with
    | nil =>
      have hl := congrArg List.length h
      have hpos := c.utf8Size_pos
      rw [utf8_cons, List.length_append, List.length_append, String.length_utf8EncodeChar] at hl
      change 0 = _ at hl
      omega
    | cons d t =>
      rw [utf8_cons, utf8_cons, List.append_assoc] at h
      have hcd := utf8EncodeChar_append_inj h
      subst hcd
      obtain ⟨ds, rfl, hds⟩ := ih (List.append_cancel_left h)
      exact ⟨ds, rfl, hds⟩

end Obase
