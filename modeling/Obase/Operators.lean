import Obase.Fallible

namespace Obase.Operators
set_option autoImplicit true

/-- The operators of expressions, by how tightly they bind. -/
inductive Op where
  | or
  | and
  | not
  | lt
  | le
  | eq
  | ne
  | gt
  | ge
  | bitOr
  | bitXor
  | bitAnd
  | shiftLeft
  | shiftRight
  | add
  | sub
  | mul
  | matMul
  | div
  | floorDiv
  | mod
  | invert
  | pow
deriving DecidableEq

namespace Op

/-- How tightly an operator between two operands binds. -/
def infixLevel : Op → Option Nat
  | or => some 1
  | and => some 2
  | lt | le | eq | ne | gt | ge => some 4
  | bitOr => some 5
  | bitXor => some 6
  | bitAnd => some 7
  | shiftLeft | shiftRight => some 8
  | add | sub => some 9
  | mul | matMul | div | floorDiv | mod => some 10
  | pow => some 12
  | not | invert => none

/-- How tightly an operator before an operand binds. -/
def signLevel : Op → Option Nat
  | not => some 3
  | add | sub | invert => some 11
  | _ => none

end Op

/-- An expression over atoms. -/
inductive Tree (α : Type) where
  | leaf (a : α)
  | sign (o : Op) (t : Tree α)
  | pair (o : Op) (s t : Tree α)
  | cond (t c e : Tree α)

/-- What an expression is written with. -/
inductive Item (α : Type) where
  | atom (a : α)
  | op (o : Op)
  | opening
  | closing
  | ifWord
  | elseWord

/-- What waits for an operand to its right. -/
inductive Frame (α : Type) where
  | paren
  | sign (o : Op)
  | pair (o : Op) (s : Tree α)
  | chain (done s : Tree α) (o : Op)
  | test (t : Tree α)
  | other (t c : Tree α)

/-- What stands to the left of a place in an expression: the frames, the last one first, and the
operand that ends there. -/
abbrev Stack (α : Type) := List (Frame α) × Option (Tree α)

namespace Frame

/-- How tightly the operator of a frame binds its operand, `0` for what is not an operator. -/
def level : Frame α → Nat
  | sign o => o.signLevel.getD 0
  | pair o _ => o.infixLevel.getD 0
  | chain _ _ _ => 4
  | _ => 0

def fill : Frame α → Tree α → Tree α
  | paren, t => t
  | sign o, t => .sign o t
  | pair o s, t => .pair o s t
  | chain done s o, t => .pair .and done (.pair o s t)
  | test _, t => t
  | other s c, t => .cond s c t

end Frame

/-- Give the operand to the frames that bind it at least this tightly. -/
def reduce (n : Nat) : List (Frame α) → Tree α → List (Frame α) × Tree α
  | [], t => ([], t)
  | f :: fs, t => if n ≤ f.level then reduce n fs (f.fill t) else (f :: fs, t)

/-- End the conditional expressions whose last operand this is. -/
def endConds : List (Frame α) → Tree α → List (Frame α) × Tree α
  | .other s c :: fs, t => endConds fs (.cond s c t)
  | fs, t => (fs, t)

/-- An operator between two operands. A comparison after a comparison is one more of a chain. -/
def pushPair (o : Op) (n : Nat) (fs : List (Frame α)) (t : Tree α) : List (Frame α) :=
  if n = 4 then
    match reduce 5 fs t with
    | (.pair o' s :: fs', t) =>
      if o'.infixLevel = some 4 then .chain (.pair o' s t) t o :: fs'
      else .pair o t :: .pair o' s :: fs'
    | (.chain done s o' :: fs', t) => .chain (.pair .and done (.pair o' s t)) t o :: fs'
    | (fs', t) => .pair o t :: fs'
  else
    let (fs', t) := reduce (if o = .pow then 13 else n) fs t
    .pair o t :: fs'

/-- An item after what is to its left, `none` where it may not stand there. -/
def step : Stack α → Item α → Option (Stack α)
  | (fs, none), .atom a => some (fs, some (.leaf a))
  | (fs, none), .opening => some (.paren :: fs, none)
  | (fs, none), .op o =>
    match o.signLevel with
    | none => none
    | some n =>
      if n = 3 ∧ 3 < (fs.head?.map Frame.level).getD 0 then none
      else some (.sign o :: fs, none)
  | (fs, some t), .op o =>
    match o.infixLevel with
    | none => none
    | some n => some (pushPair o n fs t, none)
  | (fs, some t), .closing =>
    let (fs, t) := reduce 1 fs t
    match endConds fs t with
    | (.paren :: fs, t) => some (fs, some t)
    | _ => none
  | (fs, some t), .ifWord =>
    match reduce 1 fs t with
    | (.test _ :: _, _) => none
    | (fs, t) => some (.test t :: fs, none)
  | (fs, some t), .elseWord =>
    match reduce 1 fs t with
    | (.test s :: fs, c) => some (.other s c :: fs, none)
    | _ => none
  | _, _ => none

/-- The expression that the items are, `none` where they are not one. -/
def parse (items : List (Item α)) : Option (Tree α) :=
  match items.foldlM step ([], none) with
  | some (fs, some t) =>
    let (fs, t) := reduce 1 fs t
    match endConds fs t with
    | ([], t) => some t
    | _ => none
  | _ => none

/-- `1 + 2 < 3 < 4` is a chain of comparisons. -/
example : parse [.atom 1, .op .add, .atom 2, .op .lt, .atom 3, .op .lt, .atom 4] =
    some (.pair .and (.pair .lt (.pair .add (.leaf 1) (.leaf 2)) (.leaf 3))
      (.pair .lt (.leaf 3) (.leaf 4))) := rfl

section
variable (f : α → β)

def Tree.map : Tree α → Tree β
  | leaf a => .leaf (f a)
  | sign o t => .sign o (t.map)
  | pair o s t => .pair o (s.map) (t.map)
  | cond t c e => .cond (t.map) (c.map) (e.map)

def Item.map : Item α → Item β
  | atom a => .atom (f a)
  | op o => .op o
  | opening => .opening
  | closing => .closing
  | ifWord => .ifWord
  | elseWord => .elseWord

def Frame.map : Frame α → Frame β
  | paren => .paren
  | sign o => .sign o
  | pair o s => .pair o (s.map f)
  | chain done s o => .chain (done.map f) (s.map f) o
  | test t => .test (t.map f)
  | other t c => .other (t.map f) (c.map f)

def mapStack (s : Stack α) : Stack β := (s.1.map (Frame.map f), s.2.map (Tree.map f))

theorem Frame.level_map (g : Frame α) : (g.map f).level = g.level := by cases g <;> rfl

theorem Frame.fill_map (g : Frame α) (t : Tree α) :
    (g.map f).fill (t.map f) = (g.fill t).map f := by
  cases g <;> rfl

theorem reduce_map (n : Nat) (fs : List (Frame α)) (t : Tree α) :
    reduce n (fs.map (Frame.map f)) (t.map f) =
      ((reduce n fs t).1.map (Frame.map f), (reduce n fs t).2.map f) := by
  induction fs generalizing t with
  | nil => rfl
  | cons g fs ih =>
    rw [List.map_cons, reduce, reduce, g.level_map, g.fill_map]
    split
    · exact ih _
    · rfl

theorem endConds_map (fs : List (Frame α)) (t : Tree α) :
    endConds (fs.map (Frame.map f)) (t.map f) =
      ((endConds fs t).1.map (Frame.map f), (endConds fs t).2.map f) := by
  induction fs generalizing t with
  | nil => rfl
  | cons g fs ih =>
    cases g with
    | other s c => exact ih (.cond s c t)
    | paren => rfl
    | sign o => rfl
    | pair o s => rfl
    | chain done s o => rfl
    | test s => rfl

theorem pushPair_map (o : Op) (n : Nat) (fs : List (Frame α)) (t : Tree α) :
    pushPair o n (fs.map (Frame.map f)) (t.map f) = (pushPair o n fs t).map (Frame.map f) := by
  rw [pushPair, pushPair, reduce_map, reduce_map]
  split
  · cases reduce 5 fs t with
    | mk gs u =>
      cases gs with
      | nil => rfl
      | cons g gs =>
        cases g with
        | pair o' s =>
          change (if o'.infixLevel = some 4 then _ else _) =
            List.map (Frame.map f) (if o'.infixLevel = some 4 then _ else _)
          by_cases ho : o'.infixLevel = some 4
          · rw [if_pos ho, if_pos ho]
            rfl
          · rw [if_neg ho, if_neg ho]
            rfl
        | paren => rfl
        | sign o' => rfl
        | chain done s o' => rfl
        | test s => rfl
        | other s c => rfl
  · rfl

theorem step_map (s : Stack α) (i : Item α) :
    step (mapStack f s) (i.map f) = (step s i).map (mapStack f) := by
  obtain ⟨fs, t⟩ := s
  cases t with
  | none =>
    cases i with
    | atom a => rfl
    | opening => rfl
    | closing => rfl
    | ifWord => rfl
    | elseWord => rfl
    | op o =>
      have hh : ((fs.map (Frame.map f)).head?.map Frame.level) = fs.head?.map Frame.level := by
        cases fs with
        | nil => rfl
        | cons g fs => exact congrArg some (g.level_map f)
      dsimp only [mapStack, Option.map_none, Item.map, step]
      rw [hh]
      cases o.signLevel with
      | none => rfl
      | some n =>
        dsimp only
        split
        · rfl
        · rfl
  | some t =>
    cases i with
    | atom a => rfl
    | opening => rfl
    | op o =>
      dsimp only [mapStack, Option.map_some, Item.map, step]
      cases o.infixLevel with
      | none => rfl
      | some n =>
        dsimp only
        rw [pushPair_map]
        rfl
    | closing =>
      dsimp only [mapStack, Option.map_some, Item.map, step]
      rw [reduce_map, endConds_map]
      cases endConds (reduce 1 fs t).1 (reduce 1 fs t).2 with
      | mk gs u =>
        cases gs with
        | nil => rfl
        | cons g gs => cases g <;> rfl
    | ifWord =>
      dsimp only [mapStack, Option.map_some, Item.map, step]
      rw [reduce_map]
      cases reduce 1 fs t with
      | mk gs u =>
        cases gs with
        | nil => rfl
        | cons g gs => cases g <;> rfl
    | elseWord =>
      dsimp only [mapStack, Option.map_some, Item.map, step]
      rw [reduce_map]
      cases reduce 1 fs t with
      | mk gs u =>
        cases gs with
        | nil => rfl
        | cons g gs => cases g <;> rfl

theorem foldlM_map (items : List (Item α)) (s : Stack α) :
    (items.map (Item.map f)).foldlM step (mapStack f s) =
      (items.foldlM step s).map (mapStack f) := by
  induction items generalizing s with
  | nil => rfl
  | cons i items ih =>
    rw [List.map_cons, List.foldlM_cons, List.foldlM_cons, step_map]
    cases step s i with
    | none => rfl
    | some t => exact ih t

/-- The atoms of an expression can be replaced before it is parsed or after. -/
theorem parse_map (items : List (Item α)) :
    parse (items.map (Item.map f)) = (parse items).map (Tree.map f) := by
  have h := foldlM_map f items ([], none)
  rw [show mapStack f (([], none) : Stack α) = ([], none) from rfl] at h
  rw [parse, parse, h]
  cases items.foldlM step ([], none) with
  | none => rfl
  | some s =>
    obtain ⟨fs, t⟩ := s
    cases t with
    | none => rfl
    | some t =>
      dsimp only [Option.map_some, mapStack]
      rw [reduce_map, endConds_map]
      cases endConds (reduce 1 fs t).1 (reduce 1 fs t).2 with
      | mk gs u =>
        cases gs with
        | nil => rfl
        | cons g gs => rfl

end

/-- What the operators do with values. -/
structure Algebra (V ε : Type) where
  signOp : Op → V → Except ε V
  pairOp : Op → V → V → Except ε V
  truth : V → Except ε Bool
  ofBool : Bool → V

section
variable (A : Algebra V ε) (leaf : α → Except ε V)

def Tree.eval : Tree α → Except ε V
  | .leaf a => leaf a
  | .sign o t => do
    let v ← t.eval
    if o = .not then do
      let b ← A.truth v
      pure (A.ofBool !b)
    else A.signOp o v
  | .pair o s t => do
    let v ← s.eval
    if o = .and then do
      let b ← A.truth v
      if b then t.eval else pure v
    else if o = .or then do
      let b ← A.truth v
      if b then pure v else t.eval
    else do
      let w ← t.eval
      A.pairOp o v w
  | .cond t c e => do
    let v ← c.eval
    let b ← A.truth v
    if b then t.eval else e.eval

/-- The truth of an expression, `none` where it has none. -/
def Tree.truth (t : Tree α) : Option Bool := (t.eval A leaf >>= A.truth).toOption

/-- The atoms that the evaluation of an expression comes to. -/
def Tree.reads : Tree α → List α
  | .leaf a => [a]
  | .sign _ t => t.reads
  | .pair o s t =>
    s.reads ++
      if o = .and ∧ s.truth A leaf = some false ∨ o = .or ∧ s.truth A leaf = some true then []
      else t.reads
  | .cond t c e => c.reads ++ if c.truth A leaf = some true then t.reads else e.reads

end

section
variable (A : Algebra V ε) (leaf : α → Except ε V)

theorem Tree.eval_sign (o : Op) (t : Tree α) : (Tree.sign o t).eval A leaf =
    t.eval A leaf >>= fun v =>
      if o = .not then A.truth v >>= fun b => pure (A.ofBool !b) else A.signOp o v := rfl

theorem Tree.eval_pair (o : Op) (s t : Tree α) : (Tree.pair o s t).eval A leaf =
    s.eval A leaf >>= fun v =>
      if o = .and then A.truth v >>= fun b => if b then t.eval A leaf else pure v
      else if o = .or then A.truth v >>= fun b => if b then pure v else t.eval A leaf
      else t.eval A leaf >>= fun w => A.pairOp o v w := rfl

theorem Tree.eval_cond (t c e : Tree α) : (Tree.cond t c e).eval A leaf =
    c.eval A leaf >>= fun v =>
      A.truth v >>= fun b => if b then t.eval A leaf else e.eval A leaf := rfl

theorem Tree.reads_sign (o : Op) (t : Tree α) :
    (Tree.sign o t).reads A leaf = t.reads A leaf := rfl

theorem Tree.reads_pair (o : Op) (s t : Tree α) : (Tree.pair o s t).reads A leaf =
    s.reads A leaf ++
      if o = .and ∧ s.truth A leaf = some false ∨ o = .or ∧ s.truth A leaf = some true then []
      else t.reads A leaf := rfl

theorem Tree.reads_cond (t c e : Tree α) : (Tree.cond t c e).reads A leaf =
    c.reads A leaf ++
      if c.truth A leaf = some true then t.reads A leaf else e.reads A leaf := rfl

end

/-- A computation that comes to these atoms has this value if none of them is spoilt, and else
ends with this error. -/
structure Outcome (P : α → Prop) (e : ε) (reads : List α) (x : Except ε V) (v : V) : Prop where
  clean : (∀ a ∈ reads, ¬ P a) → x = .ok v
  spoilt : (∃ a ∈ reads, P a) → x = .error e

section
variable {P : α → Prop} {e : ε}

theorem Outcome.done {x : Except ε V} {v : V} (h : x = .ok v) : Outcome P e [] x v :=
  ⟨fun _ => h, fun ⟨_, ha, _⟩ => (nomatch ha)⟩

theorem Outcome.bind {x : Except ε V} {f : V → Except ε V'} {v : V} {w : V'} {rs rs' : List α}
    (h : Outcome P e rs x v) (hf : Outcome P e rs' (f v) w) :
    Outcome P e (rs ++ rs') (x >>= f) w := by
  refine ⟨fun hc => ?_, fun hs => ?_⟩
  · rw [h.clean fun a ha => hc a (List.mem_append_left _ ha)]
    exact hf.clean fun a ha => hc a (List.mem_append_right _ ha)
  · by_cases hx : ∃ a ∈ rs, P a
    · rw [h.spoilt hx]
      rfl
    · obtain ⟨a, ha, hp⟩ := hs
      rw [h.clean fun b hb hpb => hx ⟨b, hb, hpb⟩]
      exact hf.spoilt ⟨a, (List.mem_append.1 ha).resolve_left fun ha => hx ⟨a, ha, hp⟩, hp⟩

variable {A : Algebra V ε} {leaf g : α → Except ε V}

theorem eval_map (f : α → β) (leaf : β → Except ε V) (t : Tree α) :
    (t.map f).eval A leaf = t.eval A (leaf ∘ f) := by
  induction t with
  | leaf a => rfl
  | sign o t ih => rw [Tree.map, Tree.eval_sign, Tree.eval_sign, ih]
  | pair o s t ihs iht => rw [Tree.map, Tree.eval_pair, Tree.eval_pair, ihs, iht]
  | cond t c e iht ihc ihe => rw [Tree.map, Tree.eval_cond, Tree.eval_cond, iht, ihc, ihe]

theorem truth_eq {t : Tree α} {v : V} {b : Bool} (hv : t.eval A leaf = .ok v)
    (hb : A.truth v = .ok b) : t.truth A leaf = some b := by
  rw [Tree.truth, hv]
  change (A.truth v).toOption = some b
  rw [hb]
  rfl

/-- What comes of an expression where some of its atoms are spoilt. -/
theorem outcome_eval (hp : ∀ a, P a → g a = .error e) (hn : ∀ a, ¬ P a → g a = leaf a)
    (t : Tree α) {v : V} (hv : t.eval A leaf = .ok v) :
    Outcome P e (t.reads A leaf) (t.eval A g) v := by
  induction t generalizing v with
  | leaf a =>
    refine ⟨fun hc => ?_, fun ⟨b, hb, hpb⟩ => ?_⟩
    · exact (hn a (hc a (.head _))).trans hv
    · rw [Tree.reads, List.mem_singleton] at hb
      exact hp a (hb ▸ hpb)
  | sign o t ih =>
    rw [Tree.eval_sign] at hv
    obtain ⟨w, hw, hv⟩ := bind_ok hv
    rw [Tree.eval_sign, Tree.reads_sign, ← List.append_nil (t.reads A leaf)]
    exact (ih hw).bind (.done hv)
  | pair o s t ihs iht =>
    rw [Tree.eval_pair] at hv
    obtain ⟨w, hw, hv⟩ := bind_ok hv
    rw [Tree.eval_pair, Tree.reads_pair]
    apply (ihs hw).bind
    by_cases ha : o = .and
    · subst ha
      rw [if_pos rfl] at hv ⊢
      obtain ⟨b, hb, hv⟩ := bind_ok hv
      have ht := truth_eq hw hb
      rw [hb]
      cases b with
      | true =>
        rw [if_neg (by rw [ht]; decide)]
        exact iht hv
      | false =>
        rw [if_pos (.inl ⟨rfl, ht⟩)]
        exact .done hv
    · rw [if_neg ha] at hv ⊢
      by_cases ho : o = .or
      · subst ho
        rw [if_pos rfl] at hv ⊢
        obtain ⟨b, hb, hv⟩ := bind_ok hv
        have ht := truth_eq hw hb
        rw [hb]
        cases b with
        | true =>
          rw [if_pos (.inr ⟨rfl, ht⟩)]
          exact .done hv
        | false =>
          rw [if_neg (by rw [ht]; decide)]
          exact iht hv
      · rw [if_neg ho] at hv ⊢
        obtain ⟨u, hu, hv⟩ := bind_ok hv
        rw [if_neg fun h => h.elim (fun h => ha h.1) fun h => ho h.1,
          ← List.append_nil (t.reads A leaf)]
        exact (iht hu).bind (.done hv)
  | cond t c e iht ihc ihe =>
    rw [Tree.eval_cond] at hv
    obtain ⟨w, hw, hv⟩ := bind_ok hv
    obtain ⟨b, hb, hv⟩ := bind_ok hv
    have ht := truth_eq hw hb
    rw [Tree.eval_cond, Tree.reads_cond]
    apply (ihc hw).bind
    rw [hb]
    cases b with
    | true =>
      rw [if_pos ht]
      exact iht hv
    | false =>
      rw [if_neg (by rw [ht]; decide)]
      exact ihe hv

/-- An expression that has a value comes to atoms that have one. -/
theorem ok_of_mem_reads {t : Tree α} {v : V} (hv : t.eval A leaf = .ok v) {a : α}
    (ha : a ∈ t.reads A leaf) : ∃ w, leaf a = .ok w := by
  cases hl : leaf a with
  | ok w => exact ⟨w, rfl⟩
  | error e =>
    have h := outcome_eval (P := (· = a)) (e := e) (g := leaf) (fun b hb => hb ▸ hl)
      (fun _ _ => rfl) t hv
    have hs := h.spoilt ⟨a, ha, rfl⟩
    rw [hv] at hs
    cases hs

/-- A property of the atoms that the operators keep is one of the value. -/
theorem eval_kept {Q : V → Prop} (hb : ∀ b, Q (A.ofBool b))
    (hs : ∀ o v w, Q v → A.signOp o v = .ok w → Q w)
    (hpair : ∀ o u v w, Q u → Q v → A.pairOp o u v = .ok w → Q w) (t : Tree α)
    (hr : ∀ a ∈ t.reads A leaf, ∀ v, leaf a = .ok v → Q v) {v : V}
    (hv : t.eval A leaf = .ok v) : Q v := by
  induction t generalizing v with
  | leaf a => exact hr a (.head _) v hv
  | sign o t ih =>
    rw [Tree.eval_sign] at hv
    obtain ⟨w, hw, hv⟩ := bind_ok hv
    by_cases ho : o = .not
    · rw [if_pos ho] at hv
      obtain ⟨b, -, hv⟩ := bind_ok hv
      cases hv
      exact hb _
    · rw [if_neg ho] at hv
      exact hs o w v (ih hr hw) hv
  | pair o s t ihs iht =>
    rw [Tree.eval_pair] at hv
    obtain ⟨w, hw, hv⟩ := bind_ok hv
    rw [Tree.reads_pair] at hr
    have hqs := ihs (fun a ha => hr a (List.mem_append_left _ ha)) hw
    by_cases ha : o = .and
    · rw [if_pos ha] at hv
      obtain ⟨b, hb, hv⟩ := bind_ok hv
      have ht := truth_eq hw hb
      cases b with
      | true =>
        rw [if_neg (by rw [ha, ht]; decide)] at hr
        exact iht (fun a ha => hr a (List.mem_append_right _ ha)) hv
      | false =>
        cases hv
        exact hqs
    · rw [if_neg ha] at hv
      by_cases ho : o = .or
      · rw [if_pos ho] at hv
        obtain ⟨b, hb, hv⟩ := bind_ok hv
        have ht := truth_eq hw hb
        cases b with
        | true =>
          cases hv
          exact hqs
        | false =>
          rw [if_neg (by rw [ho, ht]; decide)] at hr
          exact iht (fun a ha => hr a (List.mem_append_right _ ha)) hv
      · rw [if_neg ho] at hv
        obtain ⟨u, hu, hv⟩ := bind_ok hv
        rw [if_neg fun h => h.elim (fun h => ha h.1) fun h => ho h.1] at hr
        exact hpair o w u v hqs (iht (fun a ha => hr a (List.mem_append_right _ ha)) hu) hv
  | cond t c e iht ihc ihe =>
    rw [Tree.eval_cond] at hv
    obtain ⟨w, hw, hv⟩ := bind_ok hv
    obtain ⟨b, hb, hv⟩ := bind_ok hv
    have ht := truth_eq hw hb
    rw [Tree.reads_cond] at hr
    cases b with
    | true =>
      rw [if_pos ht] at hr
      exact iht (fun a ha => hr a (List.mem_append_right _ ha)) hv
    | false =>
      rw [if_neg (by rw [ht]; decide)] at hr
      exact ihe (fun a ha => hr a (List.mem_append_right _ ha)) hv

end

end Obase.Operators
