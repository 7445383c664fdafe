import Obase.HierarchicalContext.Store

namespace Obase.HierarchicalContext
set_option autoImplicit true

/-- A request is written by the function for its layer. -/
def Request.run (jail : PathJail) (t : FileTree) (r : Request) : Except Failure FileTree :=
  match r.layer with
  | .L0 => setAbstract jail t r.uri r.text
  | .L1 => setOverview jail t r.uri r.text
  | .L2 => writeBody jail t r.uri r.text

/-- The files after the requests of a call, the first of which that raises ends it. -/
def runAll (jail : PathJail) (t : FileTree) (rs : List Request) : Except Failure Unit × FileTree :=
  rs.foldl (fun out r => andThen out fun t => r.run jail t) (.ok (), t)

variable {jail : PathJail} {s : State} {t t' : FileTree}

theorem Call.run_eq (call : Call) : call.run jail t = (runAll jail t call.requests).2 := by
  cases call with
  | write uri content abstract overview =>
    cases abstract with
    | none =>
      cases overview with
      | none => rfl
      | some o => rfl
    | some a =>
      cases overview with
      | none => rfl
      | some o => rfl
  | setAbstract uri text => rfl
  | setOverview uri text => rfl

theorem writeLayer_of_fits {uri : String} {layer : Layer} {text : List Char} {limit : Nat}
    (h : tokenCounter text ≤ limit) : writeLayer jail t uri layer text limit =
      (jail.path uri).bind fun p => (t.put (target p layer) text).mapError .os :=
  if_neg (Nat.not_lt.2 h)

theorem writeLayer_of_not_fits {uri : String} {layer : Layer} {text : List Char} {limit : Nat}
    (h : ¬ tokenCounter text ≤ limit) : writeLayer jail t uri layer text limit =
      .error (.tokenBudgetExceeded layer limit (tokenCounter text)) :=
  if_pos (Nat.lt_of_not_le h)

theorem Request.run_of_fits {r : Request} (h : Fits r.layer r.text) : r.run jail t =
    (jail.path r.uri).bind fun p => (t.put (target p r.layer) r.text).mapError .os := by
  obtain ⟨uri, layer, text⟩ := r
  cases layer with
  | L0 => exact writeLayer_of_fits h
  | L1 => exact writeLayer_of_fits h
  | L2 => rfl

theorem Request.run_of_not_fits {r : Request} (h : ¬ Fits r.layer r.text) :
    ∃ e, r.run jail t = .error e := by
  obtain ⟨uri, layer, text⟩ := r
  cases layer with
  | L0 => exact ⟨_, writeLayer_of_not_fits h⟩
  | L1 => exact ⟨_, writeLayer_of_not_fits h⟩
  | L2 => exact (h trivial).elim

theorem Request.put_eq_some {r : Request} {w : Put} : r.put jail = some w ↔
    jail.path r.uri = .ok w.path ∧ r.layer = w.layer ∧ r.text = w.text ∧ Fits w.layer w.text := by
  obtain ⟨p, layer, text⟩ := w
  rw [put]
  split
  · rename_i q hq
    rw [hq]
    split
    · rename_i hf
      constructor
      · intro h
        cases h
        exact ⟨rfl, rfl, rfl, hf⟩
      · rintro ⟨hp, hl, ht, -⟩
        cases hp
        rw [hl, ht]
    · rename_i hf
      refine iff_of_false (fun h => (nomatch h)) ?_
      rintro ⟨-, hl, ht, hf'⟩
      rw [hl, ht] at hf
      exact hf hf'
  · rename_i e he
    rw [he]
    exact iff_of_false (fun h => (nomatch h)) fun h => (nomatch h.1)

/-- A request is taken and writes what it is to write, or it raises. -/
theorem Request.run_cases (jail : PathJail) (t : FileTree) (r : Request) :
    (∃ w t', r.put jail = some w ∧ t.put (target w.path w.layer) w.text = .ok t' ∧
      r.run jail t = .ok t') ∨
    (∃ e, r.run jail t = .error e) ∧ ∀ rs, taken jail t (r :: rs) = [] := by
  by_cases hf : Fits r.layer r.text
  · rw [run_of_fits hf]
    cases hp : jail.path r.uri with
    | error e =>
      refine .inr ⟨⟨e, rfl⟩, fun rs => ?_⟩
      rw [taken, put, hp]
    | ok p =>
      have hput : r.put jail = some ⟨p, r.layer, r.text⟩ := put_eq_some.2 ⟨hp, rfl, rfl, hf⟩
      cases ht : t.put (target p r.layer) r.text with
      | error e =>
        refine .inr ⟨⟨.os e, ?_⟩, fun rs => ?_⟩
        · change (t.put (target p r.layer) r.text).mapError Failure.os = _
          rw [ht]
          rfl
        · rw [taken, hput]
          dsimp only
          rw [ht]
      | ok t' =>
        refine .inl ⟨_, t', hput, ht, ?_⟩
        change (t.put (target p r.layer) r.text).mapError Failure.os = _
        rw [ht]
        rfl
  · refine .inr ⟨run_of_not_fits hf, fun rs => ?_⟩
    have hput : r.put jail = none := by
      rw [Option.eq_none_iff_forall_ne_some]
      intro w hw
      obtain ⟨-, hl, ht, hf'⟩ := put_eq_some.1 hw
      rw [hl, ht] at hf
      exact hf hf'
    rw [taken, hput]

theorem mem_taken {rs : List Request} {w : Put} (h : w ∈ taken jail t rs) :
    ∃ r ∈ rs, r.put jail = some w := by
  induction rs generalizing t with
  | nil => cases h
  | cons r rs ih =>
    obtain ⟨w', t', hput, ht, -⟩ | ⟨-, hnil⟩ := r.run_cases jail t
    · rw [taken, hput] at h
      dsimp only at h
      rw [ht] at h
      obtain rfl | h := List.mem_cons.1 h
      · exact ⟨r, .head _, hput⟩
      · obtain ⟨r', hr', hput'⟩ := ih h
        exact ⟨r', .tail _ hr', hput'⟩
    · rw [hnil] at h
      cases h

/-- What holds before the requests of a call, and is kept by every layer that they write, holds
after them. -/
theorem runAll_induct {P : FileTree → List Put → Prop} {Q : Put → Prop} {rs : List Request}
    (puts : List Put) (hstep : ∀ t t' puts w, P t puts → Q w →
      FileTree.put t (target w.path w.layer) w.text = .ok t' → P t' (puts ++ [w]))
    (h : P t puts) (hq : ∀ w ∈ taken jail t rs, Q w) :
    P (runAll jail t rs).2 (puts ++ taken jail t rs) := by
  induction rs generalizing t puts with
  | nil =>
    rw [taken, List.append_nil]
    exact h
  | cons r rs ih =>
    obtain ⟨w, t', hput, ht, hr⟩ | ⟨⟨e, hr⟩, hnil⟩ := r.run_cases jail t
    · have htaken : taken jail t (r :: rs) = w :: taken jail t' rs := by
        rw [taken, hput]
        dsimp only
        rw [ht]
      have hrun : runAll jail t (r :: rs) = runAll jail t' rs := by
        rw [runAll, List.foldl_cons, andThen, hr]
        rfl
      rw [htaken, List.forall_mem_cons] at hq
      rw [htaken, hrun, List.append_cons]
      exact ih (puts ++ [w]) (hstep t t' puts w h hq.1 ht) hq.2
    · have hrun : (runAll jail t (r :: rs)).2 = t := by
        rw [runAll, List.foldl_cons, andThen, hr]
        clear hq ih hr hnil
        induction rs with
        | nil => rfl
        | cons r rs ih => exact ih
      rw [hnil, hrun, List.append_nil]
      exact h

theorem lastWritten_concat (puts : List Put) (w : Put) (p : Path) (layer : Layer) :
    lastWritten (puts ++ [w]) p layer =
      if w.path = p ∧ w.layer = layer then some w.text else lastWritten puts p layer :=
  List.foldl_concat ..

/-- A layer that an accepted request has written. -/
structure Put.Accepted (jail : PathJail) (w : Put) : Prop where
  accepts : jail.Accepts w.path
  fits : Fits w.layer w.text

theorem taken_accepted {rs : List Request} : ∀ w ∈ taken jail t rs, w.Accepted jail := by
  intro w hw
  obtain ⟨r, -, hput⟩ := mem_taken hw
  obtain ⟨hp, -, -, hf⟩ := Request.put_eq_some.1 hput
  exact ⟨PathJail.path_ok hp, hf⟩

theorem sidecar_isName {p : Path} (h : ∀ n ∈ p, Path.IsName n) {layer : Layer}
    (hl : layer ≠ .L2) : Path.IsName (p.name ++ layerSuffix layer) := by
  have hlen : 9 ≤ (p.name ++ layerSuffix layer).toList.length := by
    rw [String.toList_append, List.length_append, layerSuffix_length hl]
    exact Nat.le_add_left ..
  have hsuffix : (layerSuffix layer).toList.all (fun c => c != '/' && c != '\x00') = true := by
    cases layer with
    | L0 | L1 | L2 => rfl
  have hname : p.name.toList.all (fun c => c != '/' && c != '\x00') = true := by
    by_cases hp : p = []
    · rw [hp]
      rfl
    · have hm : p.name ∈ p := by
        rw [← Path.dropLast_append_name hp]
        simp
      rw [List.all_eq_true]
      intro c hc
      have hslash : c ≠ '/' := fun he => (h _ hm).no_slash (he ▸ hc)
      have hnul : c ≠ '\x00' := fun he => (h _ hm).no_nul (he ▸ hc)
      simp [hslash, hnul]
  have hall : ∀ c ∈ (p.name ++ layerSuffix layer).toList, c ≠ '/' ∧ c ≠ '\x00' := by
    intro c hc
    rw [String.toList_append, List.mem_append] at hc
    obtain hc | hc := hc
    · simpa using List.all_eq_true.1 hname c hc
    · simpa using List.all_eq_true.1 hsuffix c hc
  have hne {m : String} (hm : m.toList.length < 9) : p.name ++ layerSuffix layer ≠ m := by
    intro he
    rw [he] at hlen
    exact absurd hlen (Nat.not_le.2 hm)
  exact ⟨hne (by decide), hne (by decide), hne (by decide), fun hc => (hall _ hc).1 rfl,
    fun hc => (hall _ hc).2 rfl⟩

theorem target_names {p : Path} (h : ∀ n ∈ p, Path.IsName n) (layer : Layer) :
    ∀ n ∈ target p layer, Path.IsName n := by
  rw [target]
  split
  · exact h
  · rename_i hl
    refine List.forall_mem_append.2 ⟨fun n hn => h n (p.dropLast_sublist.subset hn), ?_⟩
    exact List.forall_mem_singleton.2 (sidecar_isName h hl)

theorem Grown.put (h : Grown jail t) {w : Put} (hw : w.Accepted jail)
    (ht : t.put (target w.path w.layer) w.text = .ok t') : Grown jail t' := by
  obtain ⟨-, -, he, hentry⟩ := FileTree.put_ok ht
  refine ⟨h.sound.put ht, FileTree.isDir_put ht h.root, fun p hp n hn => ?_⟩
  obtain ⟨e, hp⟩ := FileTree.mem_keys_iff.1 hp
  rw [hentry] at hp
  have htarget := target_names hw.accepts.names w.layer
  split at hp
  · rename_i hpt
    rw [hpt] at hn
    exact htarget n hn
  · split at hp
    · rename_i hpt
      exact htarget n (hpt.subset hn)
    · exact h.names p (FileTree.mem_keys_iff.2 ⟨e, hp⟩) n hn

theorem Kept.put {puts : List Put} (h : Kept jail ⟨t, puts⟩) {w : Put} (hw : w.Accepted jail)
    (hp : w.Plain) (ht : t.put (target w.path w.layer) w.text = .ok t') :
    Kept jail ⟨t', puts ++ [w]⟩ := by
  have hcontent := FileTree.content_put ht
  refine ⟨h.grown.put hw ht, fun p layer text hl => ?_, fun q text hq => ?_⟩
  · change lastWritten (puts ++ [w]) p layer = _ at hl
    rw [lastWritten_concat] at hl
    change _ ∧ _ ∧ _ ∧ t'.content _ = _
    rw [hcontent]
    split at hl
    · rename_i he
      obtain ⟨rfl, rfl⟩ := he
      cases hl
      exact ⟨hw.accepts, hp, hw.fits, if_pos rfl⟩
    · rename_i hne
      obtain ⟨ha, hpl, hf, hc⟩ := h.stored p layer text hl
      refine ⟨ha, hpl, hf, ?_⟩
      rw [if_neg]
      · exact hc
      · intro he
        obtain ⟨rfl, rfl⟩ := target_inj ha.names hw.accepts.names hpl.body hp.body he
        exact hne ⟨rfl, rfl⟩
  · change t'.content q = _ at hq
    change ∃ p layer, _ ∧ lastWritten (puts ++ [w]) p layer = _
    rw [hcontent] at hq
    split at hq
    · rename_i he
      cases hq
      refine ⟨w.path, w.layer, he, ?_⟩
      rw [lastWritten_concat, if_pos ⟨rfl, rfl⟩]
    · rename_i hne
      obtain ⟨p, layer, he, hl⟩ := h.files q text hq
      refine ⟨p, layer, he, ?_⟩
      rw [lastWritten_concat, if_neg]
      · exact hl
      · rintro ⟨rfl, rfl⟩
        exact hne he

theorem Kept.new (jail : PathJail) : Kept jail (.new jail) := by
  refine ⟨⟨FileTree.root_sound _, ?_, fun p hp n hn => ?_⟩, fun p layer text h => (nomatch h),
    fun q text h => ?_⟩
  · rw [FileTree.isDir_iff, State.new, FileTree.root_entry, if_pos (List.prefix_refl _)]
  · obtain ⟨e, hp⟩ := FileTree.mem_keys_iff.1 hp
    rw [State.new, FileTree.root_entry] at hp
    split at hp
    · rename_i hpr
      exact jail.names n (hpr.subset hn)
    · cases hp
  · rw [State.new, FileTree.root_content] at h
    cases h

theorem Grown.step (h : Grown jail s.tree) (call : Call) :
    Grown jail (call.step jail s).tree := by
  rw [Call.step, Call.run_eq]
  exact runAll_induct (P := fun t _ => Grown jail t) s.puts
    (fun t t' puts w h hw ht => h.put hw ht) h taken_accepted

theorem Kept.step (h : Kept jail s) {call : Call} (hc : Clean jail s call) :
    Kept jail (call.step jail s) := by
  rw [Call.step, Call.run_eq]
  exact runAll_induct (P := fun t puts => Kept jail ⟨t, puts⟩) s.puts
    (Q := fun w => w.Accepted jail ∧ w.Plain) (fun t t' puts w h hw ht => h.put hw.1 hw.2 ht) h
    fun w hw => ⟨taken_accepted w hw, hc w hw⟩

end Obase.HierarchicalContext
