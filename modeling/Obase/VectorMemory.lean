import Mathlib.Analysis.SpecialFunctions.Log.Basic
import Mathlib.Data.List.Perm.Subperm
import Mathlib.Data.List.Sort
import Obase.Casing
import Obase.Dict

namespace Obase.VectorMemory
set_option autoImplicit true

/-- The positive part of the start of a list in falling order is the start of its positive
part. -/
theorem filter_take_of_falling [Zero R] [LinearOrder R] {l : List (α × R)}
    (h : l.Pairwise fun p q => q.2 ≤ p.2) (n : Nat) :
    (l.take n).filter (fun p => 0 < p.2) = (l.filter fun p => 0 < p.2).take n := by
  induction l generalizing n with
  | nil => simp
  | cons p l ih =>
    obtain ⟨hp, hl⟩ := List.pairwise_cons.1 h
    cases n with
    | zero => rfl
    | succ n =>
      by_cases h0 : 0 < p.2
      · rw [List.take_succ_cons, List.filter_cons_of_pos (by simpa using h0),
          List.filter_cons_of_pos (by simpa using h0), List.take_succ_cons, ih hl]
      · have hnil (k : List (α × R)) (hk : ∀ q ∈ k, q ∈ p :: l) :
            k.filter (fun q => 0 < q.2) = [] := by
          rw [List.filter_eq_nil_iff]
          intro q hq
          rw [decide_eq_true_eq, not_lt]
          rcases List.mem_cons.1 (hk q hq) with rfl | hm
          · exact not_lt.1 h0
          · exact (hp q hm).trans (not_lt.1 h0)
        rw [hnil _ fun q hq => List.take_subset _ _ hq, hnil _ fun q hq => hq, List.take_nil]

/-- A row of the table `memory`. -/
structure Row where
  id : Nat
  collection : String
  query : String
  result : String
  metadata : String
deriving DecidableEq

/-- A character of `[a-zA-Z0-9_\u4e00-\u9fff]`. -/
def isToken (c : Char) : Bool :=
  c.isAlphanum || c == '_' || (0x4e00 ≤ c.toNat && c.toNat ≤ 0x9fff)

/-- `_terms`. -/
def terms (U : Casing) (text : String) : List String :=
  (((U.lower text.toList).splitOnP fun c => !isToken c).filter fun t => t ≠ []).map String.ofList

def docTerms (U : Casing) (c : Row) : List String := terms U (c.query ++ " " ++ c.result)

/-- The inner loop of `_df`. -/
def addSeen (seen ts : List String) (df : Dict String Nat) : Dict String Nat :=
  ts.foldl (fun df t => if t ∈ seen then Dict.set t ((df.lookup t).getD 0 + 1) df else df) df

/-- `_df`. -/
def df (U : Casing) (candidates : List Row) (ts : List String) : Dict String Nat :=
  candidates.foldl (fun d c => addSeen (docTerms U c) ts d) []

section
variable {R : Type} [Field R] [LinearOrder R] (log : R → R)

/-- What a term of the query adds to the score of a text in which it occurs. -/
def termScore (nDocs : Nat) (df : Dict String Nat) (docTerms : List String) (t : String) : R :=
  let k1 : R := 3 / 2
  let b : R := 3 / 4
  let dl : R := docTerms.length
  let avgdl : R := max 1 dl
  let f : R := docTerms.count t
  let nT : R := (df.lookup t).getD 1
  let idf := log (1 + (nDocs - nT + 1 / 2) / (nT + 1 / 2))
  idf * (f * (k1 + 1)) / (f + k1 * (1 - b + b * dl / avgdl))

/-- `_bm25_score`. -/
def bm25Score (queryTerms docTerms : List String) (nDocs : Nat) (df : Dict String Nat) : R :=
  if docTerms = [] then 0
  else queryTerms.dedup.foldl (fun score t =>
    if docTerms.count t = 0 then score else score + termScore log nDocs df docTerms t) 0

/-- The rows of a collection, or all of them. -/
def select (rows : List Row) (collection : Option String) : List Row :=
  match collection with
  | none => rows
  | some name => if name = "" then rows else rows.filter fun r => r.collection = name

/-- The rows that are ranked, newest first. -/
def candidates (rows : List Row) (collection : Option String) : List Row :=
  ((select rows collection).insertionSort fun r s => s.id ≤ r.id).take 1000

def queryTerms (U : Casing) (queryTexts : List String) : List String :=
  terms U (" ".intercalate queryTexts)

/-- The score that `query` gives a candidate. -/
def score (U : Casing) (queryTexts : List String) (cs : List Row) (c : Row) : R :=
  bm25Score log (queryTerms U queryTexts) (docTerms U c) cs.length
    (df U cs (queryTerms U queryTexts))

/-- `VectorMemory.query` without an `embed_fn`. -/
def query (U : Casing) (rows : List Row) (queryTexts : List String)
    (collection : Option String) (nResults : Nat) : List Row :=
  let cs := candidates rows collection
  if cs = [] then []
  else
    let scores := (cs.map fun c => (c, score log U queryTexts cs c)).insertionSort
      fun p q => -p.2 ≤ -q.2
    match ((scores.take nResults).filter fun p => 0 < p.2).map Prod.fst with
    | [] => cs.take nResults
    | hits => hits

end

/-- The text of the row has a term of the query. -/
def Shares (U : Casing) (queryTexts : List String) (c : Row) : Prop :=
  ∃ t ∈ queryTerms U queryTexts, t ∈ docTerms U c

instance : Decidable (Shares U queryTexts c) :=
  inferInstanceAs (Decidable (∃ t ∈ queryTerms U queryTexts, t ∈ docTerms U c))

/-- What the ranking of the rows of a collection is for. -/
structure Ranks (U : Casing) (rows : List Row) (queryTexts : List String)
    (collection : Option String) (nResults : Nat) : Prop where
  frequency : ∀ c ∈ select rows collection, ∀ t ∈ queryTerms U queryTexts, t ∈ docTerms U c →
    ((df U (candidates rows collection) (queryTerms U queryTexts)).lookup t).getD 1 =
      (select rows collection).countP fun d => t ∈ docTerms U d
  above : ∀ c ∈ select rows collection, ∀ d ∈ select rows collection,
    Shares U queryTexts c → ¬ Shares U queryTexts d →
      score Real.log U queryTexts (candidates rows collection) d <
        score Real.log U queryTexts (candidates rows collection) c
  retrieved : (∃ c ∈ select rows collection, Shares U queryTexts c) →
    let hits := query Real.log U rows queryTexts collection nResults
    let sharing := (select rows collection).filter fun c => Shares U queryTexts c
    hits.Subperm sharing ∧ hits.length = min nResults sharing.length ∧
      hits.Pairwise fun c d =>
        score Real.log U queryTexts (candidates rows collection) d ≤
          score Real.log U queryTexts (candidates rows collection) c

theorem lookup_addSeen (seen ts : List String) (d : Dict String Nat) (t : String) :
    (addSeen seen ts d).lookup t =
      if t ∈ seen ∧ t ∈ ts then some ((d.lookup t).getD 0 + ts.count t) else d.lookup t := by
  induction ts generalizing d with
  | nil => simp [addSeen]
  | cons u ts ih =>
    rw [addSeen, List.foldl_cons, ← addSeen, ih]
    by_cases hs : t ∈ seen
    · by_cases hu : u = t
      · subst hu
        have hcons : u ∈ seen ∧ u ∈ u :: ts := ⟨hs, List.mem_cons_self ..⟩
        rw [if_pos hs, Dict.lookup_set_self, if_pos hcons, List.count_cons_self]
        by_cases hm : u ∈ ts
        · rw [if_pos ⟨hs, hm⟩, Option.getD_some]
          congr 1
          omega
        · rw [if_neg fun h => hm h.2, List.count_eq_zero.2 hm]
      · have hl : (if u ∈ seen then Dict.set u ((d.lookup u).getD 0 + 1) d else d).lookup t =
            d.lookup t := by
          split
          · exact Dict.lookup_set_ne (Ne.symm hu) _ _
          · rfl
        rw [hl, List.count_cons_of_ne hu]
        simp [hs, Ne.symm hu]
    · have hl : (if u ∈ seen then Dict.set u ((d.lookup u).getD 0 + 1) d else d).lookup t =
          d.lookup t := by
        split
        · rename_i hu
          exact Dict.lookup_set_ne (fun h => hs (by rwa [h])) _ _
        · rfl
      rw [hl, if_neg fun h => hs h.1, if_neg fun h => hs h.1]

/-- A term of the query is counted as often as the query repeats it. -/
theorem getD_df (U : Casing) (cs : List Row) (ts : List String) {t : String} (ht : t ∈ ts) :
    ((df U cs ts).lookup t).getD 0 = ts.count t * cs.countP fun d => t ∈ docTerms U d := by
  have hgo (d : Dict String Nat) :
      ((cs.foldl (fun d c => addSeen (docTerms U c) ts d) d).lookup t).getD 0 =
        (d.lookup t).getD 0 + ts.count t * cs.countP fun d => t ∈ docTerms U d := by
    induction cs generalizing d with
    | nil => simp
    | cons c cs ih =>
      rw [List.foldl_cons, ih, lookup_addSeen]
      by_cases hc : t ∈ docTerms U c
      · rw [if_pos ⟨hc, ht⟩, List.countP_cons_of_pos (by simpa using hc), Option.getD_some]
        ring
      · rw [if_neg fun h => hc h.1, List.countP_cons_of_neg (by simpa using hc)]
  have h := hgo []
  rw [List.lookup_nil, Option.getD_none, Nat.zero_add] at h
  exact h

theorem getD_one_df (U : Casing) {cs : List Row} {ts : List String} {t : String} (ht : t ∈ ts)
    {c : Row} (hc : c ∈ cs) (hm : t ∈ docTerms U c) :
    ((df U cs ts).lookup t).getD 1 = ts.count t * cs.countP fun d => t ∈ docTerms U d := by
  have h := getD_df U cs ts ht
  have hpos : 0 < ts.count t * cs.countP fun d => t ∈ docTerms U d :=
    Nat.mul_pos (List.count_pos_iff.2 ht) (List.countP_pos_iff.2 ⟨c, hc, by simpa using hm⟩)
  cases hl : (df U cs ts).lookup t with
  | none =>
    rw [hl, Option.getD_none] at h
    omega
  | some n =>
    rw [hl, Option.getD_some] at h
    rw [Option.getD_some, h]

theorem mem_candidates {rows : List Row} {collection : Option String}
    (h : (select rows collection).length ≤ 1000) :
    (candidates rows collection).Perm (select rows collection) := by
  have hp := List.perm_insertionSort (fun r s : Row => s.id ≤ r.id) (select rows collection)
  rw [candidates, List.take_of_length_le (by rw [hp.length_eq]; exact h)]
  exact hp

/-- A term that is not counted too often adds to the score. -/
theorem termScore_pos {nDocs : Nat} {d : Dict String Nat} {doc : List String} {t : String}
    (ht : t ∈ doc) (hn : (d.lookup t).getD 1 ≤ nDocs) :
    0 < termScore Real.log nDocs d doc t := by
  have hf : (0 : ℝ) < doc.count t := by
    exact_mod_cast List.count_pos_iff.2 ht
  have hdl : (0 : ℝ) ≤ doc.length := Nat.cast_nonneg _
  have havg : (0 : ℝ) < max 1 (doc.length : ℝ) := lt_max_of_lt_left one_pos
  have hnt : (0 : ℝ) ≤ ((d.lookup t).getD 1 : Nat) := Nat.cast_nonneg _
  have hle : (((d.lookup t).getD 1 : Nat) : ℝ) ≤ nDocs := by exact_mod_cast hn
  have hratio : (0 : ℝ) < (nDocs - ((d.lookup t).getD 1 : Nat) + 1 / 2) /
      (((d.lookup t).getD 1 : Nat) + 1 / 2) := by
    apply div_pos
    · linarith
    · linarith
  have hidf := Real.log_pos (lt_add_of_pos_right 1 hratio)
  have hnorm : (0 : ℝ) ≤ 3 / 4 * doc.length / max 1 (doc.length : ℝ) := by positivity
  rw [termScore]
  apply div_pos
  · exact mul_pos hidf (mul_pos hf (by norm_num))
  · linarith

/-- The terms that a query and a text share, none of them counted too often. -/
theorem foldl_terms_lt {nDocs : Nat} {d : Dict String Nat} {doc ts : List String}
    (hn : ∀ t ∈ ts, t ∈ doc → (d.lookup t).getD 1 ≤ nDocs) (x : ℝ) :
    x ≤ ts.foldl (fun score t => if doc.count t = 0 then score
        else score + termScore Real.log nDocs d doc t) x ∧
      ((∃ t ∈ ts, t ∈ doc) → x < ts.foldl (fun score t => if doc.count t = 0 then score
        else score + termScore Real.log nDocs d doc t) x) := by
  induction ts generalizing x with
  | nil => simp
  | cons t ts ih =>
    rw [List.forall_mem_cons] at hn
    rw [List.foldl_cons]
    by_cases ht : t ∈ doc
    · have hlt := lt_add_of_pos_right x (termScore_pos ht (hn.1 ht))
      have hle := (ih hn.2 (x + termScore Real.log nDocs d doc t)).1
      rw [if_neg fun h => List.count_eq_zero.1 h ht]
      exact ⟨(hlt.trans_le hle).le, fun _ => hlt.trans_le hle⟩
    · rw [if_pos (List.count_eq_zero.2 ht)]
      refine ⟨(ih hn.2 x).1, ?_⟩
      rintro ⟨u, hu, hd⟩
      rcases List.mem_cons.1 hu with rfl | hu
      · exact (ht hd).elim
      · exact (ih hn.2 x).2 ⟨u, hu, hd⟩

theorem foldl_terms_of_disjoint {nDocs : Nat} {d : Dict String Nat} {doc ts : List String}
    (h : ∀ t ∈ ts, t ∉ doc) (x : ℝ) :
    ts.foldl (fun score t => if doc.count t = 0 then score
      else score + termScore Real.log nDocs d doc t) x = x := by
  induction ts with
  | nil => rfl
  | cons t ts ih =>
    rw [List.forall_mem_cons] at h
    rw [List.foldl_cons, if_pos (List.count_eq_zero.2 h.1), ih h.2]

theorem score_of_not_shares {U : Casing} {queryTexts : List String} {c : Row}
    (h : ¬ Shares U queryTexts c) (cs : List Row) : score Real.log U queryTexts cs c = 0 := by
  rw [score, bm25Score]
  split
  · rfl
  · apply foldl_terms_of_disjoint
    intro t ht hd
    exact h ⟨t, List.mem_dedup.1 ht, hd⟩

/-- No term that occurs in one of the texts is repeated in the query. -/
def Unrepeated (U : Casing) (queryTexts : List String) (cs : List Row) : Prop :=
  ∀ c ∈ cs, ∀ t ∈ docTerms U c, (queryTerms U queryTexts).count t ≤ 1

theorem score_pos_iff {U : Casing} {queryTexts : List String} {cs : List Row}
    (h : Unrepeated U queryTexts cs) {c : Row} (hc : c ∈ cs) :
    0 < score Real.log U queryTexts cs c ↔ Shares U queryTexts c := by
  constructor
  · intro hpos
    by_contra hs
    rw [score_of_not_shares hs] at hpos
    exact lt_irrefl _ hpos
  · rintro ⟨t, ht, hd⟩
    rw [score, bm25Score, if_neg (List.ne_nil_of_mem hd)]
    refine (foldl_terms_lt ?_ 0).2 ⟨t, List.mem_dedup.2 ht, hd⟩
    intro u hu hm
    have hq := List.mem_dedup.1 hu
    rw [getD_one_df U hq hc hm, Nat.le_antisymm (h c hc u hm) (List.count_pos_iff.2 hq),
      Nat.one_mul]
    exact List.countP_le_length

/-- The candidates of positive score, best first. -/
noncomputable def ranked (U : Casing) (queryTexts : List String) (cs : List Row) :
    List (Row × ℝ) :=
  ((cs.map fun c => (c, score Real.log U queryTexts cs c)).insertionSort
    fun p q => -p.2 ≤ -q.2).filter fun p => 0 < p.2

theorem ranked_falling (U : Casing) (queryTexts : List String) (cs : List Row) :
    ((cs.map fun c => (c, score Real.log U queryTexts cs c)).insertionSort
      fun p q => -p.2 ≤ -q.2).Pairwise fun p q => q.2 ≤ p.2 := by
  have htotal : Std.Total fun p q : Row × ℝ => -p.2 ≤ -q.2 := ⟨fun p q => le_total (-p.2) (-q.2)⟩
  have htrans : IsTrans (Row × ℝ) fun p q => -p.2 ≤ -q.2 := ⟨fun _ _ _ h₁ h₂ => h₁.trans h₂⟩
  exact (List.pairwise_insertionSort (fun p q : Row × ℝ => -p.2 ≤ -q.2) _).imp neg_le_neg_iff.1

theorem mem_ranked {U : Casing} {queryTexts : List String} {cs : List Row} {p : Row × ℝ}
    (h : p ∈ ranked U queryTexts cs) : p.2 = score Real.log U queryTexts cs p.1 := by
  rw [ranked, List.mem_filter, (List.perm_insertionSort ..).mem_iff] at h
  obtain ⟨c, -, rfl⟩ := List.mem_map.1 h.1
  rfl

theorem ranked_perm {U : Casing} {queryTexts : List String} {cs : List Row}
    (h : Unrepeated U queryTexts cs) :
    ((ranked U queryTexts cs).map Prod.fst).Perm
      (cs.filter fun c => Shares U queryTexts c) := by
  have hp := ((List.perm_insertionSort (fun p q : Row × ℝ => -p.2 ≤ -q.2)
    (cs.map fun c => (c, score Real.log U queryTexts cs c))).filter fun p => 0 < p.2).map Prod.fst
  apply hp.trans
  rw [List.filter_map, List.map_map]
  have hmap : (Prod.fst ∘ fun c : Row => (c, score Real.log U queryTexts cs c)) = id := rfl
  rw [hmap, List.map_id]
  have hfilter : cs.filter ((fun p : Row × ℝ => decide (0 < p.2)) ∘
      fun c => (c, score Real.log U queryTexts cs c)) =
      cs.filter fun c => Shares U queryTexts c := by
    apply List.filter_congr
    intro c hc
    exact decide_eq_decide.2 (score_pos_iff h hc)
  rw [hfilter]

theorem query_of_shares {U : Casing} {rows : List Row} {queryTexts : List String}
    {collection : Option String} (h : Unrepeated U queryTexts (candidates rows collection))
    {c : Row} (hc : c ∈ candidates rows collection) (hs : Shares U queryTexts c) (n : Nat) :
    query Real.log U rows queryTexts collection n =
      ((ranked U queryTexts (candidates rows collection)).take n).map Prod.fst := by
  rw [query]
  dsimp only
  rw [if_neg (List.ne_nil_of_mem hc), filter_take_of_falling (ranked_falling ..), ← ranked]
  cases n with
  | zero => rfl
  | succ n =>
    have hm := (ranked_perm h).mem_iff.2 (List.mem_filter.2 ⟨hc, decide_eq_true hs⟩)
    obtain ⟨p, ps, he⟩ := List.exists_cons_of_ne_nil
      (List.ne_nil_of_mem (List.mem_map.1 hm).choose_spec.1)
    rw [he]
    rfl

/-- The ranking works out if and only if the query repeats no term of the texts it ranks. -/
theorem ranks_iff (U : Casing) (rows : List Row) (queryTexts : List String)
    (collection : Option String) (nResults : Nat)
    (hrows : (select rows collection).length ≤ 1000) :
    Ranks U rows queryTexts collection nResults ↔
      Unrepeated U queryTexts (select rows collection) := by
  have hperm := mem_candidates hrows
  constructor
  · intro h c hc t ht
    by_cases hq : t ∈ queryTerms U queryTexts
    · have hf := h.frequency c hc t hq ht
      rw [getD_one_df U hq (hperm.mem_iff.2 hc) ht, hperm.countP_eq] at hf
      have hpos : 0 < (select rows collection).countP fun d => t ∈ docTerms U d :=
        List.countP_pos_iff.2 ⟨c, hc, by simpa using ht⟩
      exact (Nat.eq_of_mul_eq_mul_right hpos (hf.trans (Nat.one_mul _).symm)).le
    · rw [List.count_eq_zero.2 hq]
      exact Nat.zero_le 1
  · intro h
    have hcs : Unrepeated U queryTexts (candidates rows collection) :=
      fun c hc => h c (hperm.mem_iff.1 hc)
    refine ⟨?_, ?_, ?_⟩
    · intro c hc t hq ht
      rw [getD_one_df U hq (hperm.mem_iff.2 hc) ht, hperm.countP_eq,
        Nat.le_antisymm (h c hc t ht) (List.count_pos_iff.2 hq), Nat.one_mul]
    · intro c hc d _ hsc hsd
      rw [score_of_not_shares hsd]
      exact (score_pos_iff hcs (hperm.mem_iff.2 hc)).2 hsc
    · rintro ⟨c, hc, hsc⟩
      have hr := (ranked_perm hcs).trans (hperm.filter _)
      dsimp only
      rw [query_of_shares hcs (hperm.mem_iff.2 hc) hsc]
      refine ⟨?_, ?_, ?_⟩
      · exact ((List.take_sublist ..).map _).subperm.trans hr.subperm
      · rw [List.length_map, List.length_take, ← hr.length_eq, List.length_map]
      · rw [List.pairwise_map]
        refine ((ranked_falling ..).filter _).sublist (List.take_sublist ..) |>.imp_of_mem ?_
        intro p q hp hq hle
        rw [← mem_ranked (List.take_subset _ _ hp), ← mem_ranked (List.take_subset _ _ hq)]
        exact hle

def oldNote : Row := ⟨1, "default", "a", "x", "\x7b\x7d"⟩

def newNote : Row := ⟨2, "default", "b", "y", "\x7b\x7d"⟩

theorem old_note_found : Ranks .ascii [oldNote, newNote] ["a"] none 1 :=
  (ranks_iff .ascii [oldNote, newNote] ["a"] none 1 (by decide)).2 (by
    rw [Unrepeated]
    decide +kernel)

theorem score_repeated :
    score Real.log .ascii ["a a a"] (candidates [oldNote, newNote] none) oldNote < 0 := by
  have hq : queryTerms .ascii ["a a a"] = ["a", "a", "a"] := by decide +kernel
  have hd : docTerms .ascii oldNote = ["a", "x"] := by decide +kernel
  have hdf : df .ascii (candidates [oldNote, newNote] none) ["a", "a", "a"] = [("a", 3)] := by
    decide +kernel
  have hlen : (candidates [oldNote, newNote] none).length = 2 := by decide
  have hlog : Real.log (1 + ((2 : Nat) - (3 : Nat) + 1 / 2) / ((3 : Nat) + 1 / 2)) < 0 :=
    Real.log_neg (by norm_num) (by norm_num)
  have hterm : termScore Real.log 2 [("a", 3)] ["a", "x"] "a" < 0 := by
    rw [termScore]
    apply div_neg_of_neg_of_pos
    · exact mul_neg_of_neg_of_pos hlog (by simp; norm_num)
    · simp
      norm_num
  rw [score, hq, hd, hdf, hlen]
  simpa [bm25Score] using hterm

/-- A query that repeats its term finds the note that does not have it. -/
theorem old_note_missed : (select [oldNote, newNote] none).length ≤ 1000 ∧
    query Real.log .ascii [oldNote, newNote] ["a a a"] none 1 = [newNote] ∧
    ¬ Ranks .ascii [oldNote, newNote] ["a a a"] none 1 := by
  have hquery : query Real.log .ascii [oldNote, newNote] ["a a a"] none 1 = [newNote] := by
    have hcs : candidates [oldNote, newNote] none = [newNote, oldNote] := by decide
    have hnot : ¬ Shares .ascii ["a a a"] newNote := by decide +kernel
    have hnew := score_of_not_shares hnot (candidates [oldNote, newNote] none)
    have hold := score_repeated
    rw [hcs] at hnew hold
    simp [query, hcs, hnew, hold.le]
  refine ⟨by decide, hquery, fun h => ?_⟩
  have hr := (h.retrieved ⟨oldNote, by decide, by decide +kernel⟩).1
  rw [hquery] at hr
  have hm := hr.subset (List.mem_singleton_self newNote)
  revert hm
  decide +kernel

end Obase.VectorMemory
