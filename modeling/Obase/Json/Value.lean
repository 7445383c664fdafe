import Obase.Dict

namespace Obase
set_option autoImplicit true

/-- A float of the interpreter: a finite one, taken from `F`, or one of the other three. -/
inductive PyFloat (F : Type) where
  | finite (x : F)
  | inf
  | negInf
  | nan
deriving DecidableEq

/-- What `json.dumps` accepts and `json.loads` returns. The keys of a dictionary are drawn from
`κ`; a tuple is written as a list and has no case of its own. -/
inductive Value (κ F : Type) where
  | null
  | bool (b : Bool)
  | int (n : Int)
  | float (x : PyFloat F)
  | str (s : String)
  | list (xs : List (Value κ F))
  | dict (ms : List (κ × Value κ F))

/-- A decoded value: its keys are strings. -/
abbrev Json (F : Type) := Value String F

namespace Value

mutual
def mapKeys (f : κ → κ') : Value κ F → Value κ' F
  | .null => .null
  | .bool b => .bool b
  | .int n => .int n
  | .float x => .float x
  | .str s => .str s
  | .list xs => .list (mapKeysList f xs)
  | .dict ms => .dict (mapKeysMembers f ms)
def mapKeysList (f : κ → κ') : List (Value κ F) → List (Value κ' F)
  | [] => []
  | v :: vs => mapKeys f v :: mapKeysList f vs
def mapKeysMembers (f : κ → κ') : List (κ × Value κ F) → List (κ' × Value κ' F)
  | [] => []
  | (k, v) :: ms => (f k, mapKeys f v) :: mapKeysMembers f ms
end

mutual
/-- The dictionaries a decoder builds from the pairs it reads, innermost first. -/
def build : Json F → Json F
  | .list xs => .list (buildList xs)
  | .dict ms => .dict (Dict.ofPairs (buildMembers ms))
  | v => v
def buildList : List (Json F) → List (Json F)
  | [] => []
  | v :: vs => build v :: buildList vs
def buildMembers : List (String × Json F) → List (String × Json F)
  | [] => []
  | (k, v) :: ms => (k, build v) :: buildMembers ms
end

mutual
/-- Every dictionary inside the value has distinct keys. -/
def Distinct : Value κ F → Prop
  | .list xs => DistinctList xs
  | .dict ms => Dict.Distinct ms ∧ DistinctMembers ms
  | _ => True
def DistinctList : List (Value κ F) → Prop
  | [] => True
  | v :: vs => Distinct v ∧ DistinctList vs
def DistinctMembers : List (κ × Value κ F) → Prop
  | [] => True
  | (_, v) :: ms => Distinct v ∧ DistinctMembers ms
end

theorem distinctMembers_iff {ms : List (κ × Value κ F)} :
    DistinctMembers ms ↔ ∀ p ∈ ms, Distinct p.2 := by
  induction ms with
  | nil => simp [DistinctMembers]
  | cons p ms ih =>
    obtain ⟨k, v⟩ := p
    simp [DistinctMembers, ih]

@[simp] theorem keys_buildMembers (ms : List (String × Json F)) :
    Dict.keys (buildMembers ms) = Dict.keys ms := by
  induction ms with
  | nil => rfl
  | cons p ms ih => rw [buildMembers, Dict.keys_cons, Dict.keys_cons, ih]

mutual
theorem build_of_distinct : ∀ v : Json F, Distinct v → build v = v
  | .null, _ | .bool _, _ | .int _, _ | .float _, _ | .str _, _ => rfl
  | .list xs, h => by rw [build, buildList_of_distinct xs h]
  | .dict ms, h => by
    rw [build, buildMembers_of_distinct ms h.2, Dict.ofPairs_of_distinct h.1]
theorem buildList_of_distinct : ∀ vs : List (Json F), DistinctList vs → buildList vs = vs
  | [], _ => rfl
  | v :: vs, h => by rw [buildList, build_of_distinct v h.1, buildList_of_distinct vs h.2]
theorem buildMembers_of_distinct :
    ∀ ms : List (String × Json F), DistinctMembers ms → buildMembers ms = ms
  | [], _ => rfl
  | (k, v) :: ms, h => by
    rw [buildMembers, build_of_distinct v h.1, buildMembers_of_distinct ms h.2]
end

mutual
/-- What a decoder builds has distinct keys everywhere. -/
theorem build_distinct : ∀ v : Json F, Distinct (build v)
  | .null | .bool _ | .int _ | .float _ | .str _ => by simp [build, Distinct]
  | .list xs => buildList_distinct xs
  | .dict ms => by
    refine ⟨Dict.ofPairs_distinct _, distinctMembers_iff.2 ?_⟩
    intro p hp
    obtain ⟨q, hq, he⟩ := Dict.mem_ofPairs hp
    rw [he]
    exact distinctMembers_iff.1 (buildMembers_distinct ms) q hq
theorem buildList_distinct : ∀ vs : List (Json F), DistinctList (buildList vs)
  | [] => trivial
  | v :: vs => ⟨build_distinct v, buildList_distinct vs⟩
theorem buildMembers_distinct :
    ∀ ms : List (String × Json F), DistinctMembers (buildMembers ms)
  | [] => trivial
  | (_, v) :: ms => ⟨build_distinct v, buildMembers_distinct ms⟩
end

end Value
end Obase
