import Obase.HierarchicalContext.Separation

namespace Obase.HierarchicalContext
set_option autoImplicit true

/-- What a call returns or raises, and the files after it. -/
def Call.result (jail : PathJail) (t : FileTree) : Call → Except Failure Unit × FileTree
  | .write uri content abstract overview =>
    HierarchicalContext.write jail t uri content abstract overview
  | .setAbstract uri text =>
    andThen (.ok (), t) fun t => HierarchicalContext.setAbstract jail t uri text
  | .setOverview uri text =>
    andThen (.ok (), t) fun t => HierarchicalContext.setOverview jail t uri text

/-- `exists`. -/
def existsLayer (jail : PathJail) (t : FileTree) (uri : String) (layer : Layer) :
    Except Failure Bool :=
  (jail.path uri).map fun p => (t.entry (target p layer)).isSome

/-- A `HierarchicalContextError`, or a path that the jail rejects. -/
def Failure.Own : Failure → Prop
  | .notAUri _ | .tokenBudgetExceeded .. | .permissionError _ => True
  | .fileNotFound .. | .valueError | .os _ => False

/-- Nothing is read otherwise than before, and nothing else is there. -/
structure Same (jail : PathJail) (t t' : FileTree) : Prop where
  reads : ∀ uri layer, read jail t' uri layer = read jail t uri layer
  there : ∀ uri layer, existsLayer jail t' uri layer = existsLayer jail t uri layer

/-- A call that the store refuses changes no answer, and one that succeeds changes nothing but what
lies below the root. -/
structure Sealed (jail : PathJail) (t : FileTree) (call : Call) : Prop where
  undone : ∀ e, (call.result jail t).1 = .error e → e.Own → Same jail t (call.result jail t).2
  within : (call.result jail t).1 = .ok () →
    ∀ q, (call.result jail t).2.entry q ≠ t.entry q → jail.root <+: q ∧ q ≠ jail.root

/-- The layers before the first one that is over its budget, if one is. -/
def early : List Request → Option (List Request)
  | [] => none
  | r :: rs => if Fits r.layer r.text then (early rs).map (r :: ·) else some []

/-- No file is on the way to the path, and no directory is in its place. -/
def Free (t : FileTree) (p : Path) : Prop :=
  (∀ q, q <+: p.dropLast → t.content q = none) ∧ t.isDir p = false

/-- A file is there that reads as the text. -/
def Shown (t : FileTree) (p : Path) (text : List Char) : Prop :=
  ∃ cs, t.content p = some cs ∧ Text.universalNewlines cs = Text.universalNewlines text

/-- What a call would write before a layer over its budget is there already, and what it would write
beside the root is. -/
structure Contained (jail : PathJail) (t : FileTree) (call : Call) : Prop where
  shown : ∀ p, jail.path call.uri = .ok p → ∀ rs, early call.requests = some rs →
    (∀ r ∈ rs, Free t (target p r.layer)) → ∀ r ∈ rs, Shown t (target p r.layer) r.text
  inside : jail.path call.uri = .ok jail.root → jail.root ≠ [] →
    (∀ r ∈ call.requests, Fits r.layer r.text ∧ Free t (target jail.root r.layer)) →
    ∀ r ∈ call.requests, t.content (target jail.root r.layer) = some r.text

/-- What writing some layers of a path changes. -/
structure Effects (p : Path) (rs : List Request) (t t' : FileTree) : Prop where
  wrote : ∀ r ∈ rs, t'.entry (target p r.layer) = some (.file r.text)
  rest : ∀ q, (∀ r ∈ rs, q ≠ target p r.layer) → t'.entry q = t.entry q ∨
    rs ≠ [] ∧ q <+: p.dropLast ∧ t'.entry q = some .directory ∧ t.entry q = none

variable {jail : PathJail} {t t' : FileTree} {p : Path}

theorem Call.result_eq (call : Call) : call.result jail t = runAll jail t call.requests := by
  cases call with
  | write uri content abstract overview =>
    cases abstract with
    | none =>
      cases overview with
      | none => rfl
      | some o => rfl
    | some a =>
      cases overview with
      | none => rfl
      | some o => rfl
  | setAbstract uri text => rfl
  | setOverview uri text => rfl

theorem runAll_cons (r : Request) (rs : List Request) : runAll jail t (r :: rs) =
    match r.run jail t with
    | .ok t' => runAll jail t' rs
    | .error e => (.error e, t) := by
  rw [runAll, List.foldl_cons, andThen]
  cases r.run jail t with
  | ok t' => rfl
  | error e =>
    dsimp only
    induction rs with
    | nil => rfl
    | cons r rs ih => exact ih

/-- A sidecar is not the path that it belongs to. -/
theorem sidecar_ne (p : Path) {layer : Layer} (h : layer ≠ .L2) : sidecar p layer ≠ p := by
  intro he
  have hn := congrArg Path.name he
  rw [sidecar, Path.name_append] at hn
  have hl := congrArg (fun s => s.toList.length) hn
  rw [String.toList_append, List.length_append, layerSuffix_length h] at hl
  omega

theorem target_layer_inj {layer layer' : Layer} (hp : ∀ n ∈ p, Path.IsName n)
    (h : target p layer = target p layer') : layer = layer' := by
  rw [target, target] at h
  split at h
  · rename_i hl
    split at h
    · rename_i hl'
      rw [hl, hl']
    · rename_i hl'
      exact (sidecar_ne p hl' h.symm).elim
  · rename_i hl
    split at h
    · exact (sidecar_ne p hl h).elim
    · rename_i hl'
      exact (sidecar_inj hp hp hl hl' h).2

theorem target_dropLast (p : Path) (layer : Layer) : (target p layer).dropLast = p.dropLast := by
  rw [target]
  split
  · rfl
  · exact List.dropLast_concat

theorem eq_nil_of_prefix_dropLast {q : Path} (h : q <+: q.dropLast) : q = [] := by
  have hl := h.length_le
  rw [List.length_dropLast] at hl
  exact List.length_eq_zero_iff.1 (by omega)

/-- What writing one layer changes. -/
theorem Effects.put {r : Request} (h : t.put (target p r.layer) r.text = .ok t') :
    Effects p [r] t t' := by
  obtain ⟨hn, hq, -, he⟩ := FileTree.put_ok h
  refine ⟨List.forall_mem_singleton.2 ?_, fun q hne => ?_⟩
  · rw [he, if_pos rfl]
  · have hne := hne r (.head _)
    rw [he, if_neg hne]
    by_cases hqp : q <+: target p r.layer
    · rw [if_pos hqp]
      have hc := hn q hqp hne
      cases hq : t.entry q with
      | none =>
        refine .inr ⟨List.cons_ne_nil _ _, ?_, rfl, rfl⟩
        rw [← target_dropLast p r.layer]
        exact (FileTree.prefix_dropLast_iff hne).2 hqp
      | some e =>
        cases e with
        | directory => exact .inl rfl
        | file cs =>
          rw [FileTree.content_eq_some.2 hq] at hc
          cases hc
    · rw [if_neg hqp]
      exact .inl rfl

section
variable (hd : t.isDir [] = true)
include hd

theorem not_prefix_of_free {q : Path} (h : t.isDir q = false) : ¬ q <+: q.dropLast := by
  intro hq
  rw [eq_nil_of_prefix_dropLast hq, hd] at h
  cases h

theorem put_iff_free {q : Path} {cs : List Char} : (∃ t', t.put q cs = .ok t') ↔ Free t q := by
  constructor
  · rintro ⟨t', h⟩
    obtain ⟨hn, hq, -, -⟩ := FileTree.put_ok h
    refine ⟨fun r hr => hn r (hr.trans (List.dropLast_prefix q)) ?_, hq⟩
    rintro rfl
    exact not_prefix_of_free hd hq hr
  · exact fun h => FileTree.put_of_free h.1 h.2 (not_prefix_of_free hd h.2) cs

/-- Another layer of the path can be written after one of them if it could be before. -/
theorem Effects.free_iff {r : Request} (h : t.put (target p r.layer) r.text = .ok t')
    {layer : Layer} (hne : target p layer ≠ target p r.layer) :
    Free t' (target p layer) ↔ Free t (target p layer) := by
  have he : t'.entry (target p layer) = t.entry (target p layer) := by
    obtain he | ⟨-, hq, -, hnone⟩ := (Effects.put h).rest _ (List.forall_mem_singleton.2 hne)
    · exact he
    · rw [← target_dropLast p layer] at hq
      rw [eq_nil_of_prefix_dropLast hq, FileTree.isDir_iff.1 hd] at hnone
      cases hnone
  have hc (q : Path) (hq : q <+: p.dropLast) : t'.content q = t.content q := by
    rw [FileTree.content_put h, if_neg]
    rintro rfl
    rw [← target_dropLast p r.layer] at hq
    exact not_prefix_of_free hd (FileTree.put_ok h).2.1 hq
  rw [Free, Free, FileTree.isDir, FileTree.isDir, he, target_dropLast]
  refine and_congr_left fun _ => forall_congr' fun q => ?_
  exact ⟨fun h hq => (hc q hq).symm.trans (h hq), fun h hq => (hc q hq).trans (h hq)⟩

end

/-- What is written one layer after another. -/
theorem Effects.cons {r : Request} {rs : List Request} {t₁ : FileTree} (h : Effects p [r] t t₁)
    (h' : Effects p rs t₁ t') (hne : ∀ r' ∈ rs, target p r.layer ≠ target p r'.layer) :
    Effects p (r :: rs) t t' := by
  have hr := h.wrote r (.head _)
  refine ⟨List.forall_mem_cons.2 ⟨?_, h'.wrote⟩, fun q hq => ?_⟩
  · obtain he | ⟨-, -, -, hnone⟩ := h'.rest _ hne
    · rw [he, hr]
    · rw [hr] at hnone
      cases hnone
  · obtain ⟨hqr, hqs⟩ := List.forall_mem_cons.1 hq
    obtain he | ⟨-, hqp, hdir, hnone⟩ := h.rest q (List.forall_mem_singleton.2 hqr)
    · rw [← he]
      obtain he' | ⟨-, hqp, hdir, hnone⟩ := h'.rest q hqs
      · exact .inl he'
      · exact .inr ⟨List.cons_ne_nil _ _, hqp, hdir, hnone⟩
    · obtain he' | ⟨-, -, -, hnone'⟩ := h'.rest q hqs
      · exact .inr ⟨List.cons_ne_nil _ _, hqp, he'.trans hdir, hnone⟩
      · rw [hdir] at hnone'
        cases hnone'

theorem Effects.nil (p : Path) (t : FileTree) : Effects p [] t t :=
  ⟨fun _ h => (nomatch h), fun _ _ => .inl rfl⟩

theorem early_subset {rs es : List Request} (h : early rs = some es) : es ⊆ rs := by
  induction rs generalizing es with
  | nil => cases h
  | cons r rs ih =>
    rw [early] at h
    split at h
    · obtain ⟨es', he, rfl⟩ := Option.map_eq_some_iff.1 h
      exact List.cons_subset_cons r (ih he)
    · cases h
      exact List.nil_subset _

/-- How the writing of some layers of a path ends: all are written, or those before the first one
over its budget, or a file or a directory is in the way of one of them. -/
inductive Ending (p : Path) (rs : List Request) (t : FileTree) :
    Except Failure Unit × FileTree → Prop where
  | done {t' : FileTree} (fit : ∀ r ∈ rs, Fits r.layer r.text ∧ Free t (target p r.layer))
      (effects : Effects p rs t t') : Ending p rs t (.ok (), t')
  | refused {t' : FileTree} {e : Failure} {es : List Request} (own : e.Own)
      (early : early rs = some es) (free : ∀ r ∈ es, Free t (target p r.layer))
      (effects : Effects p es t t') : Ending p rs t (.error e, t')
  | blocked {t' : FileTree} {e : OsError}
      (early : ∀ es, early rs = some es → ∃ r ∈ es, ¬ Free t (target p r.layer))
      (all : ∃ r ∈ rs, ¬ Free t (target p r.layer)) : Ending p rs t (.error (.os e), t')

theorem Request.run_of_path {r : Request} (hp : jail.path r.uri = .ok p)
    (hf : Fits r.layer r.text) : r.run jail t = (t.put (target p r.layer) r.text).mapError .os := by
  rw [run_of_fits hf, hp]
  rfl

theorem Request.run_over (jail : PathJail) (t : FileTree) {r : Request}
    (hf : ¬ Fits r.layer r.text) :
    ∃ e, r.run jail t = .error e ∧ e.Own := by
  obtain ⟨uri, layer, text⟩ := r
  cases layer with
  | L0 => exact ⟨_, writeLayer_of_not_fits hf, trivial⟩
  | L1 => exact ⟨_, writeLayer_of_not_fits hf, trivial⟩
  | L2 => exact (hf trivial).elim

theorem runAll_ending {uri : String} (hp : jail.path uri = .ok p) {rs : List Request}
    (hu : ∀ r ∈ rs, r.uri = uri) (hl : (rs.map Request.layer).Nodup) (hs : t.Sound)
    (hd : t.isDir [] = true) : Ending p rs t (runAll jail t rs) := by
  have hnames := (PathJail.path_ok hp).names
  induction rs generalizing t with
  | nil => exact .done (fun _ h => (nomatch h)) (Effects.nil p t)
  | cons r rs ih =>
    obtain ⟨hu, hus⟩ := List.forall_mem_cons.1 hu
    obtain ⟨hr, hrs⟩ := List.nodup_cons.1 hl
    have hne : ∀ r' ∈ rs, target p r'.layer ≠ target p r.layer := by
      intro r' hm he
      rw [← target_layer_inj hnames he] at hr
      exact hr (List.mem_map_of_mem hm)
    rw [runAll_cons]
    by_cases hf : Fits r.layer r.text
    · rw [Request.run_of_path (hu ▸ hp) hf]
      cases ht : t.put (target p r.layer) r.text with
      | error e =>
        have hfree : ¬ Free t (target p r.layer) := by
          intro h
          obtain ⟨t', h⟩ := (put_iff_free hd).2 h
          rw [ht] at h
          cases h
        refine .blocked (fun es he => ?_) ⟨r, .head _, hfree⟩
        rw [early, if_pos hf] at he
        obtain ⟨es', -, rfl⟩ := Option.map_eq_some_iff.1 he
        exact ⟨r, .head _, hfree⟩
      | ok t₁ =>
        have hfree : Free t (target p r.layer) := (put_iff_free hd).1 ⟨t₁, ht⟩
        have heffect := Effects.put ht
        have hi := ih hus hrs (hs.put ht) (FileTree.isDir_put ht hd)
        change Ending p (r :: rs) t (runAll jail t₁ rs)
        generalize runAll jail t₁ rs = out at hi
        cases hi with
        | done fit effects =>
          refine .done (List.forall_mem_cons.2 ⟨⟨hf, hfree⟩, fun r' hm => ⟨(fit r' hm).1, ?_⟩⟩)
            (heffect.cons effects fun r' hm => (hne r' hm).symm)
          exact (Effects.free_iff hd ht (hne r' hm)).1 (fit r' hm).2
        | @refused t' e es own he free effects =>
          have hsub := early_subset he
          have hearly : early (r :: rs) = some (r :: es) := by
            rw [early, if_pos hf, he]
            rfl
          refine .refused own hearly (List.forall_mem_cons.2 ⟨hfree, fun r' hm => ?_⟩)
            (heffect.cons effects fun r' hm => (hne r' (hsub hm)).symm)
          exact (Effects.free_iff hd ht (hne r' (hsub hm))).1 (free r' hm)
        | blocked he all =>
          refine .blocked (fun es hes => ?_) ?_
          · rw [early, if_pos hf] at hes
            obtain ⟨es', hes', rfl⟩ := Option.map_eq_some_iff.1 hes
            obtain ⟨r', hm, hn⟩ := he es' hes'
            refine ⟨r', .tail _ hm, fun h => hn ?_⟩
            exact (Effects.free_iff hd ht (hne r' (early_subset hes' hm))).2 h
          · obtain ⟨r', hm, hn⟩ := all
            exact ⟨r', .tail _ hm, fun h => hn ((Effects.free_iff hd ht (hne r' hm)).2 h)⟩
    · obtain ⟨e, he, ho⟩ := Request.run_over jail t hf
      rw [he]
      exact .refused ho (if_neg hf) (fun _ h => (nomatch h)) (Effects.nil p t)

/-- Nothing is answered otherwise where every file reads as before. -/
theorem same_of_similar (h : ∀ q, (t'.entry q).isSome = (t.entry q).isSome ∧
    (t'.readText q).map Text.universalNewlines = (t.readText q).map Text.universalNewlines) :
    Same jail t t' := by
  have hnone (q : Path) : (t'.entry q).isNone = (t.entry q).isNone := by
    rw [← Option.not_isSome, ← Option.not_isSome, (h q).1]
  constructor
  · intro uri layer
    rw [read, read]
    simp only [hnone, (h _).2]
  · intro uri layer
    rw [existsLayer, existsLayer]
    simp only [(h _).1]

/-- Layers that were there already are written without a trace. -/
theorem Effects.same {rs : List Request} (h : Effects p rs t t') (hs : t.Sound)
    (hshown : ∀ r ∈ rs, Shown t (target p r.layer) r.text) : Same jail t t' := by
  refine same_of_similar fun q => ?_
  by_cases hq : ∃ r ∈ rs, q = target p r.layer
  · obtain ⟨r, hr, rfl⟩ := hq
    obtain ⟨cs, hc, he⟩ := hshown r hr
    rw [FileTree.content_eq_some] at hc
    rw [FileTree.readText, FileTree.readText, h.wrote r hr, hc]
    exact ⟨rfl, congrArg Except.ok he.symm⟩
  · push Not at hq
    obtain he | ⟨hne, hqp, -, hnone⟩ := h.rest q hq
    · rw [FileTree.readText, FileTree.readText, he]
      exact ⟨rfl, rfl⟩
    · obtain ⟨r, hr⟩ := List.exists_mem_of_ne_nil rs hne
      obtain ⟨cs, hc, -⟩ := hshown r hr
      rw [FileTree.content_eq_some] at hc
      rw [← target_dropLast p r.layer] at hqp
      have hdir := hs.parents _ (FileTree.mem_keys_iff.2 ⟨_, hc⟩) q
        (hqp.trans (List.dropLast_prefix _)) (hq r hr)
      rw [hnone] at hdir
      cases hdir

theorem Same.shown (h : Same jail t t') {uri : String} (hp : jail.path uri = .ok p) {layer : Layer}
    {text : List Char} (he : t'.entry (target p layer) = some (.file text)) :
    Shown t (target p layer) text := by
  have hr : read jail t' uri layer = .ok (Text.universalNewlines text) :=
    (read_ok_iff hp).2 ⟨text, FileTree.content_eq_some.2 he, rfl⟩
  rw [h.reads] at hr
  obtain ⟨cs, hc, ht⟩ := (read_ok_iff hp).1 hr
  exact ⟨cs, hc, ht.symm⟩

theorem early_eq_none {rs : List Request} (h : ∀ r ∈ rs, Fits r.layer r.text) :
    early rs = none := by
  induction rs with
  | nil => rfl
  | cons r rs ih =>
    obtain ⟨hr, hrs⟩ := List.forall_mem_cons.1 h
    rw [early, if_pos hr, ih hrs]
    rfl

/-- Every layer of a path below the root lies below it. -/
theorem target_below {root : Path} (hr : root <+: p) (hne : p ≠ root) (layer : Layer) :
    root <+: target p layer ∧ target p layer ≠ root := by
  have hd : root <+: (target p layer).dropLast := by
    rw [target_dropLast]
    exact (FileTree.prefix_dropLast_iff hne.symm).2 hr
  refine ⟨hd.trans (List.dropLast_prefix _), fun he => ?_⟩
  rw [he] at hd
  have hnil := eq_nil_of_prefix_dropLast hd
  rw [target] at he
  split at he
  · exact hne he
  · rw [hnil, sidecar] at he
    exact List.append_ne_nil_of_right_ne_nil _ (List.cons_ne_nil _ _) he

/-- No layer of the root lies below it, but for a root that is that of the file system. -/
theorem target_root {root : Path} (hne : root ≠ []) (layer : Layer) :
    ¬ (root <+: target root layer ∧ target root layer ≠ root) := by
  rintro ⟨hp, ht⟩
  have hd := (FileTree.prefix_dropLast_iff ht.symm).2 hp
  rw [target_dropLast] at hd
  exact hne (eq_nil_of_prefix_dropLast hd)

theorem runAll_of_rejected (t : FileTree) {e : Failure} {r : Request} (rs : List Request)
    (hp : jail.path r.uri = .error e) : ∃ e, runAll jail t (r :: rs) = (.error e, t) := by
  obtain ⟨w, t', hput, -, -⟩ | ⟨⟨e, he⟩, -⟩ := r.run_cases jail t
  · rw [(Request.put_eq_some.1 hput).1] at hp
    cases hp
  · exact ⟨e, by rw [runAll_cons, he]⟩

theorem Call.requests_cons (call : Call) : ∃ r rs, call.requests = r :: rs := by
  cases call with
  | write uri content abstract overview => exact ⟨_, _, rfl⟩
  | setAbstract | setOverview => exact ⟨_, _, rfl⟩

theorem Sealed.contained {call : Call} (h : Sealed jail t call)
    (hp : jail.path call.uri = .ok p) (hend : Ending p call.requests t (call.result jail t)) :
    Contained jail t call := by
  obtain ⟨hundone, hwithin⟩ := h
  generalize call.result jail t = out at hundone hwithin hend
  refine ⟨fun p' hp' es hes hfree => ?_, fun hp' hne hfit r hr => ?_⟩
  · rw [hp] at hp'
    cases hp'
    cases hend with
    | done fit effects =>
      rw [early_eq_none fun r hr => (fit r hr).1] at hes
      cases hes
    | refused own he free effects =>
      rw [he] at hes
      cases hes
      exact fun r hr => (hundone _ rfl own).shown hp (effects.wrote r hr)
    | blocked he all =>
      obtain ⟨r, hr, hn⟩ := he es hes
      exact (hn (hfree r hr)).elim
  · rw [hp] at hp'
    cases hp'
    cases hend with
    | done fit effects =>
      by_contra hc
      have hw := effects.wrote r hr
      refine target_root hne r.layer (hwithin rfl _ ?_)
      rw [hw]
      exact fun he => hc (FileTree.content_eq_some.2 he.symm)
    | refused own he free effects =>
      rw [early_eq_none fun r hr => (hfit r hr).1] at he
      cases he
    | blocked he all =>
      obtain ⟨r, hr, hn⟩ := all
      exact (hn (hfit r hr).2).elim

section
variable (hs : t.Sound) (hd : t.isDir jail.root = true) {call : Call}
include hs hd

theorem entry_of_prefix_root {q : Path} (hq : q <+: jail.root) : t.entry q = some .directory := by
  have hroot := FileTree.isDir_iff.1 hd
  by_cases he : q = jail.root
  · rw [he, hroot]
  · exact hs.parents _ (FileTree.mem_keys_iff.2 ⟨_, hroot⟩) q hq he

theorem Contained.isSealed (h : Contained jail t call) (hp : jail.path call.uri = .ok p)
    (hend : Ending p call.requests t (call.result jail t)) : Sealed jail t call := by
  have hbelow := (PathJail.path_ok hp).below
  refine ⟨fun e he ho => ?_, fun hok q hq => ?_⟩
  · generalize call.result jail t = out at hend he
    cases hend with
    | done fit effects => cases he
    | refused own hes free effects => exact effects.same hs (h.shown p hp _ hes free)
    | blocked hes all =>
      cases he
      exact ho.elim
  · generalize call.result jail t = out at hend hok hq
    cases hend with
    | refused own hes free effects => cases hok
    | blocked hes all => cases hok
    | done fit effects =>
      by_cases hqt : ∃ r ∈ call.requests, q = target p r.layer
      · obtain ⟨r, hr, rfl⟩ := hqt
        by_cases hpr : p = jail.root
        · subst hpr
          by_cases hroot : jail.root = []
          · refine ⟨hroot ▸ List.nil_prefix, fun he => ?_⟩
            have hfree := (fit r hr).2.2
            rw [he, hd] at hfree
            cases hfree
          · have hc := FileTree.content_eq_some.1 (h.inside hp hroot fit r hr)
            exact (hq ((effects.wrote r hr).trans hc.symm)).elim
        · exact target_below hbelow hpr r.layer
      · push Not at hqt
        obtain he | ⟨-, hqp, -, hnone⟩ := effects.rest q hqt
        · exact (hq he).elim
        · have hnot : ¬ q <+: jail.root := by
            intro hqr
            rw [entry_of_prefix_root hs hd hqr] at hnone
            cases hnone
          have hqp := hqp.trans (List.dropLast_prefix p)
          refine ⟨(List.prefix_or_prefix_of_prefix hqp hbelow).resolve_left hnot, ?_⟩
          rintro rfl
          exact hnot (List.prefix_refl _)

end

/-- A call on a store that has its root is all or nothing and stays below the root exactly if what
it writes before it is refused is there already, and so is what it writes beside the root. -/
theorem sealed_iff (hs : t.Sound) (hd : t.isDir jail.root = true) (call : Call) :
    Sealed jail t call ↔ Contained jail t call := by
  cases hp : jail.path call.uri with
  | error e =>
    obtain ⟨r, rs, hcons⟩ := call.requests_cons
    have hu : r.uri = call.uri := call.requests_uri r (hcons ▸ .head _)
    obtain ⟨e', hrun⟩ := runAll_of_rejected t rs (hu ▸ hp)
    rw [← hcons, ← call.result_eq] at hrun
    refine iff_of_true ⟨fun _ _ _ => ?_, fun hok => ?_⟩ ⟨fun p' hp' => ?_, fun hp' => ?_⟩
    · rw [hrun]
      exact ⟨fun _ _ => rfl, fun _ _ => rfl⟩
    · rw [hrun] at hok
      cases hok
    · rw [hp] at hp'
      cases hp'
    · rw [hp] at hp'
      cases hp'
  | ok p =>
    have hnil : t.isDir [] = true :=
      FileTree.isDir_iff.2 (entry_of_prefix_root hs hd List.nil_prefix)
    have hend := runAll_ending hp call.requests_uri call.requests_layers hs hnil
    rw [← call.result_eq] at hend
    exact ⟨fun h => h.contained hp hend, fun h => h.isSealed hs hd hp hend⟩

/-- A body and its abstract are written to a new store. -/
theorem sealed_new :
    Sealed contextJail (FileTree.root ["context"])
      (.write "3o://a" "body".toList (some "short".toList) none) := by
  have hd : FileTree.isDir (FileTree.root ["context"]) contextJail.root = true := rfl
  refine (sealed_iff (FileTree.root_sound _) hd _).2 ⟨fun _ _ rs he => ?_, fun hp => ?_⟩
  · have hnone : early (Call.write "3o://a" "body".toList (some "short".toList) none).requests =
        none := rfl
    rw [hnone] at he
    cases he
  · have ha : contextJail.path "3o://a" = .ok ["context", "a"] := rfl
    change contextJail.path "3o://a" = .ok ["context"] at hp
    rw [ha] at hp
    cases hp

/-- A text of 121 tokens. -/
def longText : List Char := List.replicate 484 'x'

theorem longText_over : ¬ Fits .L0 longText := by
  have hne : longText ≠ [] := List.cons_ne_nil _ _
  change ¬ tokenCounter longText ≤ l0MaxTokens
  rw [tokenCounter, if_neg hne, longText, List.length_replicate]
  decide

theorem early_write {uri : String} {content text : List Char} (h : ¬ Fits .L0 text) :
    early (Call.write uri content (some text) none).requests = some [⟨uri, .L2, content⟩] := by
  change early [⟨uri, .L2, content⟩, ⟨uri, .L0, text⟩] = _
  have hl : early [⟨uri, .L0, text⟩] = some [] := if_neg h
  rw [early, hl]
  exact if_pos trivial

/-- A write with an abstract over its budget leaves its body, and the abstract of the root is
written beside the root. -/
theorem refused_body_and_root_abstract :
    ¬ Sealed contextJail (FileTree.root ["context"])
      (.write "3o://a" "body".toList (some longText) none) ∧
    ¬ Sealed contextJail (FileTree.root ["context"]) (.setAbstract "3o://" "short".toList) := by
  constructor
  · intro h
    have hp : contextJail.path "3o://a" = .ok ["context", "a"] := rfl
    have hend := runAll_ending (t := FileTree.root ["context"]) hp
      (Call.requests_uri (.write "3o://a" "body".toList (some longText) none))
      (Call.requests_layers _) (FileTree.root_sound _) rfl
    rw [← Call.result_eq] at hend
    obtain ⟨cs, hc, -⟩ := (h.contained hp hend).shown _ hp _ (early_write longText_over)
      (List.forall_mem_singleton.2 ⟨fun q _ => FileTree.root_content _ q, rfl⟩) _ (.head _)
    rw [FileTree.root_content] at hc
    cases hc
  · intro h
    have hq := h.within rfl ["context.abstract"] (by
      intro he
      cases he)
    exact absurd hq.1 (by decide)

end Obase.HierarchicalContext
