import Obase.HierarchicalContext.Budget

namespace Obase.HierarchicalContext
set_option autoImplicit true
open Run

variable {jail : PathJail} {s : State} {t t' : FileTree}

theorem lastWritten_append_of_ne {puts ws : List Put} {p : Path} {layer : Layer}
    (h : ∀ w ∈ ws, ¬ (w.path = p ∧ w.layer = layer)) :
    lastWritten (puts ++ ws) p layer = lastWritten puts p layer := by
  induction ws generalizing puts with
  | nil => rw [List.append_nil]
  | cons w ws ih =>
    rw [List.forall_mem_cons] at h
    rw [List.append_cons, ih h.2, lastWritten_concat, if_neg h.1]

/-- What is written last to different layers is what is written to each. -/
theorem lastWritten_append_of_mem {puts ws : List Put} {w : Put}
    (h : ws.Pairwise fun w w' => w.layer ≠ w'.layer) (hw : w ∈ ws) :
    lastWritten (puts ++ ws) w.path w.layer = some w.text := by
  induction ws generalizing puts with
  | nil => cases hw
  | cons w' ws ih =>
    obtain ⟨hne, hp⟩ := List.pairwise_cons.1 h
    rw [List.append_cons]
    obtain rfl | hw := List.mem_cons.1 hw
    · rw [lastWritten_append_of_ne fun w' hw' he => hne w' hw' he.2.symm, lastWritten_concat,
        if_pos ⟨rfl, rfl⟩]
    · exact ih hp hw

def Call.uri : Call → String
  | .write uri _ _ _ | .setAbstract uri _ | .setOverview uri _ => uri

theorem Call.requests_uri (call : Call) : ∀ r ∈ call.requests, r.uri = call.uri := by
  cases call with
  | write u content abstract overview =>
    cases abstract with
    | none =>
      cases overview with
      | none => simp [requests, Call.uri]
      | some o => simp [requests, Call.uri]
    | some a =>
      cases overview with
      | none => simp [requests, Call.uri]
      | some o => simp [requests, Call.uri]
  | setAbstract | setOverview => simp [requests, Call.uri]

theorem Call.requests_layers (call : Call) : (call.requests.map Request.layer).Nodup := by
  cases call with
  | write uri content abstract overview =>
    cases abstract with
    | none =>
      cases overview with
      | none => simp [requests]
      | some o => simp [requests]
    | some a =>
      cases overview with
      | none => simp [requests]
      | some o => simp [requests]
  | setAbstract | setOverview => simp [requests]

theorem taken_layers (rs : List Request) :
    ((taken jail t rs).map Put.layer).Sublist (rs.map Request.layer) := by
  induction rs generalizing t with
  | nil => exact List.Sublist.refl _
  | cons r rs ih =>
    obtain ⟨w, t', hput, ht, -⟩ | ⟨-, hnil⟩ := r.run_cases jail t
    · rw [taken, hput]
      dsimp only
      rw [ht, List.map_cons, List.map_cons, (Request.put_eq_some.1 hput).2.1]
      exact ih.cons_cons _
    · rw [hnil]
      exact List.nil_sublist _

theorem taken_pairwise (call : Call) :
    (taken jail t call.requests).Pairwise fun w w' => w.layer ≠ w'.layer :=
  List.pairwise_map.1 (call.requests_layers.sublist (taken_layers _))

theorem taken_path {call : Call} {w : Put} (hw : w ∈ taken jail t call.requests) :
    jail.path call.uri = .ok w.path := by
  obtain ⟨r, hr, hput⟩ := mem_taken hw
  rw [← call.requests_uri r hr]
  exact (Request.put_eq_some.1 hput).1

theorem taken_isFile {rs : List Request} :
    ∀ w ∈ taken jail t rs, (runAll jail t rs).2.isFile (target w.path w.layer) = true := by
  refine runAll_induct (P := fun t puts => ∀ w ∈ puts, t.isFile (target w.path w.layer) = true)
    (Q := fun _ => True) [] ?_ (fun w hw => (nomatch hw)) fun _ _ => trivial
  intro t t' puts w h _ ht w' hw'
  rw [FileTree.isFile, FileTree.content_put ht]
  split
  · rfl
  · rename_i hne
    obtain hw' | hw' := List.mem_append.1 hw'
    · exact h w' hw'
    · rw [List.mem_singleton.1 hw'] at hne
      exact (hne rfl).elim

section
variable {call : Call} {w : Put}

/-- What a call has written to a layer is what was written to it last. -/
theorem step_lastWritten (hw : w ∈ taken jail s.tree call.requests) :
    lastWritten (call.step jail s).puts w.path w.layer = some w.text :=
  lastWritten_append_of_mem (taken_pairwise call) hw

theorem step_lastWritten_of_ne (hw : w ∈ taken jail s.tree call.requests) {p : Path}
    (hp : p ≠ w.path) (layer : Layer) :
    lastWritten (call.step jail s).puts p layer = lastWritten s.puts p layer := by
  refine lastWritten_append_of_ne fun w' hw' he => hp ?_
  have hpath : w'.path = w.path :=
    Except.ok.inj ((taken_path hw').symm.trans (taken_path hw))
  exact he.1.symm.trans hpath

theorem step_isFile (hw : w ∈ taken jail s.tree call.requests) :
    (call.step jail s).tree.isFile (target w.path w.layer) = true := by
  rw [Call.step, Call.run_eq]
  exact taken_isFile w hw

/-- A body with the name of a sidecar is not listed below the root. -/
theorem not_layered_of_isSidecar (hg : Grown jail (call.step jail s).tree)
    (hw : w ∈ taken jail s.tree call.requests) (hl : w.layer = .L2)
    (hs : isSidecar w.path = true) : ¬ Layered jail (call.step jail s) := by
  intro h
  have hroot : jail.path (jail.uri jail.root) = .ok jail.root :=
    PathJail.Accepts.path_uri ⟨List.prefix_refl _, jail.names⟩
  have hf := not_isFile_of_isDir hg.root
  have hlist := (h.lists _ _ hroot).2 fun hn => by rw [hf] at hn; exact absurd hn.2 (by decide)
  obtain ⟨us, hus, hq⟩ := hlist
  obtain ⟨us', hus', hq'⟩ := hg.listUris_of_dir hroot hf hg.root
  rw [hus] at hus'
  cases hus'
  have hlast := step_lastWritten hw
  rw [hl] at hlast
  have hbelow := (PathJail.path_ok (taken_path hw)).below
  have hmem := (hq' w.path).1 ((hq w.path).2 ⟨hbelow, w.text, hlast⟩)
  rw [hs] at hmem
  exact absurd hmem.2.2 (by decide)

/-- A body at a sidecar of the root of the file system is read as that sidecar. -/
theorem not_layered_of_rootSidecar (hk : Kept jail s) (hg : Grown jail (call.step jail s).tree)
    (hw : w ∈ taken jail s.tree call.requests) (hl : w.layer = .L2) {layer : Layer}
    (hlayer : layer ≠ .L2) (hp : w.path = sidecar [] layer) :
    ¬ Layered jail (call.step jail s) := by
  intro h
  have hfile := step_isFile hw
  rw [target, if_pos hl] at hfile
  have hne : w.path ≠ jail.root := by
    intro he
    rw [he, not_isFile_of_isDir hg.root] at hfile
    cases hfile
  have hroot : jail.root = [] := by
    have hbelow := (PathJail.path_ok (taken_path hw)).below
    rw [hp, sidecar, List.dropLast_nil, List.nil_append] at hbelow hne
    obtain he | ⟨rest, he, hrest⟩ := List.prefix_cons_iff.1 hbelow
    · exact he
    · rw [List.prefix_nil.1 hrest] at he
      exact (hne he.symm).elim
  have hnil : jail.path (jail.uri []) = .ok [] :=
    PathJail.Accepts.path_uri ⟨hroot ▸ List.prefix_refl _, List.forall_mem_nil _⟩
  obtain ⟨cs, hcs⟩ := FileTree.isFile_iff.1 hfile
  have hreads := (h.reads _ [] layer hnil).2 fun hn => hlayer hn.1
  have hread : read jail (call.step jail s).tree (jail.uri []) layer =
      .ok (Text.universalNewlines cs) := by
    refine (read_ok_iff hnil).2 ⟨cs, ?_, rfl⟩
    rw [target, if_neg hlayer, ← hp]
    exact hcs
  have hlast := (hreads _).1 hread
  have hpath : [] ≠ w.path := by
    rw [hp, sidecar]
    exact (List.append_ne_nil_of_right_ne_nil _ (List.cons_ne_nil _ _)).symm
  rw [step_lastWritten_of_ne hw hpath] at hlast
  exact (hk.stored _ _ _ hlast).2.1.sidecar hlayer rfl

/-- A sidecar of the root of the file system is listed as a body. -/
theorem not_layered_of_root (hk : Kept jail s) (hg : Grown jail (call.step jail s).tree)
    (hw : w ∈ taken jail s.tree call.requests) (hl : w.layer ≠ .L2) (hp : w.path = []) :
    ¬ Layered jail (call.step jail s) := by
  intro h
  have hnil := taken_path hw
  rw [hp] at hnil
  have hroot : jail.root = [] := List.prefix_nil.1 (PathJail.path_ok hnil).below
  have hdir : (call.step jail s).tree.isDir [] = true := hroot ▸ hg.root
  have hf := not_isFile_of_isDir hdir
  obtain ⟨us, hus, hq⟩ := (h.lists _ _ hnil).2 fun hn => by
    rw [hf] at hn
    exact absurd hn.2 (by decide)
  obtain ⟨us', hus', hq'⟩ := hg.listUris_of_dir hnil hf hdir
  rw [hus] at hus'
  cases hus'
  have hfile := step_isFile hw
  rw [target, if_neg hl, hp] at hfile
  have hside : isSidecar (sidecar [] w.layer) = false := by
    cases w.layer with
    | L0 | L1 | L2 => rfl
  obtain ⟨-, text, hlast⟩ := (hq _).1 ((hq' _).2 ⟨List.nil_prefix, hfile, hside⟩)
  rw [step_lastWritten_of_ne hw (by rw [hp, sidecar]; simp)] at hlast
  have hnames : ∀ n ∈ ([] : Path), Path.IsName n := List.forall_mem_nil _
  rw [hk.lastWritten_clash (sidecar_clashes hnames hl)] at hlast
  cases hlast

/-- A text with a carriage return is not read as it was written. -/
theorem not_layered_of_return (hw : w ∈ taken jail s.tree call.requests)
    (hl : w.layer = .L2 → ¬ Clashes w.path) (hr : '\r' ∈ w.text) :
    ¬ Layered jail (call.step jail s) := by
  intro h
  have hp := taken_path hw
  have hreads := (h.reads _ _ w.layer hp).2 fun hn => hl hn.1 hn.2.1
  obtain ⟨cs, -, hcs⟩ := (read_ok_iff hp).1 ((hreads _).2 (step_lastWritten hw))
  exact Text.cr_not_mem_universalNewlines cs (hcs ▸ hr)

/-- From a kept state, a call leaves the layers apart exactly when all that it writes is plain. -/
theorem Kept.layered_step (hk : Kept jail s) (call : Call) :
    Layered jail (call.step jail s) ↔ Clean jail s call := by
  constructor
  · intro h w hw
    have hg := hk.grown.step call
    have hbody : w.layer = .L2 → ¬ Clashes w.path := by
      rintro hl (hs | hp | hp)
      · exact not_layered_of_isSidecar hg hw hl hs h
      · exact not_layered_of_rootSidecar hk hg hw hl (by decide) hp h
      · exact not_layered_of_rootSidecar hk hg hw hl (by decide) hp h
    exact ⟨fun hr => not_layered_of_return hw hbody hr h, hbody,
      fun hl hp => not_layered_of_root hk hg hw hl hp h⟩
  · exact fun hc => (hk.step hc).layered

end

theorem states_trace (jail : PathJail) (s : State) (calls : List Call) :
    Trace (Step jail) s (states jail s calls) := by
  induction calls generalizing s with
  | nil => trivial
  | cons call calls ih => exact ⟨rfl, ih _⟩

/-- In every run from an empty store, the layers are apart after each call exactly when all that the
calls write is plain. -/
theorem layered_iff (jail : PathJail) (calls : List Call) :
    Along (fun _ _ t => Layered jail t) (.new jail) (states jail (.new jail) calls) ↔
      Always (Clean jail) (.new jail) (states jail (.new jail) calls) := by
  refine (states_trace jail _ calls).along_iff_while (I := Kept jail) (Kept.new jail) ?_
  rintro s call t hk rfl
  exact ⟨hk.step, hk.layered_step call⟩

/-- A store in the directory `/context`. -/
def contextJail : PathJail :=
  ⟨["context"], List.forall_mem_singleton.2 ⟨by decide, by decide, by decide, by decide, by decide⟩⟩

/-- An abstract, and a body with its name. -/
def bodyOverAbstract : List Call :=
  [.setAbstract "3o://a" "short".toList, .write "3o://a.abstract" "body".toList none none]

/-- The body is read as the abstract, and is not listed. -/
theorem body_read_as_abstract :
    let s := bodyOverAbstract.foldl (Call.step contextJail) (.new contextJail)
    lastWritten s.puts ["context", "a"] .L0 = some "short".toList ∧
      read contextJail s.tree "3o://a" .L0 = .ok "body".toList ∧
      lastWritten s.puts ["context", "a.abstract"] .L2 = some "body".toList ∧
      listUris contextJail s.tree "3o://" = .ok [] :=
  ⟨rfl, rfl, rfl, rfl⟩
end Obase.HierarchicalContext
