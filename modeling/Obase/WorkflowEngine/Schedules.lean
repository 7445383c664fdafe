import Obase.WorkflowEngine.Engine

namespace Obase.WorkflowEngine
set_option autoImplicit true

variable {α : Type} {executor : String → Dict String α → Except α α} {onError : String}

/-- What `outputs` has for a node with this outcome. -/
def value : Except α α → α
  | .ok result => result
  | .error outcome => outcome

/-- `outputs` behind a layer whose tasks have all seen these. -/
def settle (executor : String → Dict String α → Except α α) (outputs : Dict String α)
    (layer : List String) : Dict String α :=
  layer.foldl (fun d n => d.set n (value (executor n outputs))) outputs

/-- `outputs` behind these layers. -/
def settled (executor : String → Dict String α → Except α α) (completed : Dict String α)
    (layers : List (List String)) : Dict String α :=
  layers.foldl (settle executor) completed

theorem settled_concat (completed : Dict String α) (before : List (List String))
    (layer : List String) :
    settled executor completed (before ++ [layer]) =
      settle executor (settled executor completed before) layer := List.foldl_concat ..

theorem lookup_foldl_set (f : String → α) (layer : List String) (d : Dict String α) (x : String) :
    (layer.foldl (fun d n => d.set n (f n)) d).lookup x =
      if x ∈ layer then some (f x) else d.lookup x := by
  induction layer using List.reverseRecOn with
  | nil => rfl
  | append_singleton layer n ih =>
    rw [List.foldl_concat]
    by_cases hx : x = n
    · subst hx
      rw [Dict.lookup_set_self, if_pos (List.mem_append_right _ (.head _))]
    · rw [Dict.lookup_set_ne hx, ih]
      simp [hx]

theorem lookup_settle (outputs : Dict String α) (layer : List String) (x : String) :
    (settle executor outputs layer).lookup x =
      if x ∈ layer then some (value (executor x outputs)) else outputs.lookup x :=
  lookup_foldl_set (fun n => value (executor n outputs)) layer outputs x

/-- The completed entries and the outputs of all nodes of these layers, and no others. -/
structure Upstream (executor : String → Dict String α → Except α α) (completed : Dict String α)
    (before : List (List String)) (upstream : Dict String α) : Prop where
  kept : ∀ x ∉ before.flatten, upstream.lookup x = completed.lookup x
  outputs : ∀ earlier layer later, before = earlier ++ layer :: later → ∀ x ∈ layer,
    upstream.lookup x = some (value (executor x (settled executor completed earlier)))

/-- A list with an element somewhere in it ends in this element or in another one. -/
theorem split_concat {before earlier later : List ι} {l layer : ι}
    (h : before ++ [l] = earlier ++ layer :: later) :
    (earlier = before ∧ layer = l ∧ later = []) ∨
      ∃ later', later = later' ++ [l] ∧ before = earlier ++ layer :: later' := by
  obtain rfl | ⟨later', l', rfl⟩ := List.eq_nil_or_concat' later
  · obtain ⟨hb, hl⟩ := List.append_inj' h rfl
    exact .inl ⟨hb.symm, (List.singleton_inj.1 hl).symm, rfl⟩
  · rw [← List.cons_append, ← List.append_assoc] at h
    obtain ⟨hb, hl⟩ := List.append_inj' h rfl
    exact .inr ⟨later', by rw [List.singleton_inj.1 hl], hb⟩

theorem upstream_settled (completed : Dict String α) {before : List (List String)}
    (hn : before.flatten.Nodup) :
    Upstream executor completed before (settled executor completed before) := by
  induction before using List.reverseRecOn with
  | nil => exact ⟨fun _ _ => rfl, fun earlier layer later h => by simp at h⟩
  | append_singleton before l ih =>
    rw [List.flatten_concat] at hn
    obtain ⟨hb, hl, hdisj⟩ := List.nodup_append.1 hn
    obtain ⟨hcompleted, houtputs⟩ := ih hb
    rw [settled_concat]
    refine ⟨fun x hx => ?_, fun earlier layer later h x hx => ?_⟩
    · rw [List.flatten_concat, List.mem_append, not_or] at hx
      rw [lookup_settle, if_neg hx.2, hcompleted x hx.1]
    · obtain ⟨rfl, rfl, -⟩ | ⟨later', -, hbefore⟩ := split_concat h
      · rw [lookup_settle, if_pos hx]
      · have hmem : x ∈ before.flatten := by
          rw [hbefore]
          exact List.mem_flatten.2 ⟨layer, by simp, hx⟩
        have hout : x ∉ l := fun hm => hdisj x hmem x hm rfl
        rw [lookup_settle, if_neg hout, houtputs earlier layer later' hbefore x hx]

/-- None of these nodes fails on these outputs. -/
def Succeeds (executor : String → Dict String α → Except α α) (outputs : Dict String α)
    (nodes : List String) : Prop := ∀ n ∈ nodes, ∃ result, executor n outputs = .ok result

/-- The first node of the layer that fails on these outputs, and its exception. -/
def FirstFailure (executor : String → Dict String α → Except α α) (outputs : Dict String α)
    (layer : List String) (node : String) (cause : α) : Prop :=
  ∃ as bs, layer = as ++ node :: bs ∧ Succeeds executor outputs as ∧
    executor node outputs = .error cause

/-- The outcome of the task of a node. -/
def outcome (executor : String → Dict String α → Except α α) (outputs : Dict String α)
    (node : String) : Except α (String × α) :=
  (executor node outputs).map fun result => (node, result)

/-- The loop over a layer takes all outcomes, or stops at the first failure. -/
theorem collect_outcomes (executor : String → Dict String α → Except α α) (onError : String)
    (outputs : Dict String α) (layer : List String) (d : Dict String α) :
    (collect onError d (layer.map fun n => (n, outcome executor outputs n)) =
        (layer.foldl (fun d n => d.set n (value (executor n outputs))) d, none) ∧
      (onError = "rollback" → Succeeds executor outputs layer)) ∨
    onError = "rollback" ∧ ∃ d' node cause,
      collect onError d (layer.map fun n => (n, outcome executor outputs n)) =
        (d', some (node, cause)) ∧ FirstFailure executor outputs layer node cause := by
  induction layer generalizing d with
  | nil => exact .inl ⟨rfl, fun _ => List.forall_mem_nil _⟩
  | cons n layer ih =>
    rw [List.map_cons, outcome, List.foldl_cons]
    cases hn : executor n outputs with
    | error e =>
      by_cases hr : onError = "rollback"
      · exact .inr ⟨hr, d, n, e, if_pos hr, [], layer, rfl, List.forall_mem_nil _, hn⟩
      · have hstep : collect onError d ((n, Except.map (fun r => (n, r)) (.error e)) ::
            layer.map fun n => (n, outcome executor outputs n)) =
            collect onError (d.set n e) (layer.map fun n => (n, outcome executor outputs n)) :=
          if_neg hr
        rw [hstep]
        obtain ⟨hc, hs⟩ | ⟨hr', -⟩ := ih (d.set n e)
        · exact .inl ⟨hc, fun h => (hr h).elim⟩
        · exact (hr hr').elim
    | ok r =>
      obtain ⟨hc, hs⟩ | ⟨hr, d', node, cause, hc, as, bs, rfl, hs, he⟩ := ih (d.set n r)
      · exact .inl ⟨hc, fun h => List.forall_mem_cons.2 ⟨⟨r, hn⟩, hs h⟩⟩
      · exact .inr ⟨hr, d', node, cause, hc, n :: as, bs, rfl,
          List.forall_mem_cons.2 ⟨⟨r, hn⟩, hs⟩, he⟩

/-- What a task of a layer with these outputs can be. -/
inductive TaskOf (executor : String → Dict String α → Except α α) (outputs : Dict String α)
    (node : String) : Task α → Prop
  | created : TaskOf executor outputs node .created
  | running : TaskOf executor outputs node (.running outputs)
  | done : TaskOf executor outputs node (.done (outcome executor outputs node))

theorem TaskOf.of_done {outputs : Dict String α} {node : String} {o : Except α (String × α)}
    (h : TaskOf executor outputs node (.done o)) : o = outcome executor outputs node := by
  cases h
  rfl

/-- Under `rollback` no node of these layers fails. -/
def Passed (executor : String → Dict String α → Except α α) (onError : String)
    (completed : Dict String α) (before : List (List String)) : Prop :=
  onError = "rollback" → ∀ earlier layer later, before = earlier ++ layer :: later →
    Succeeds executor (settled executor completed earlier) layer

/-- The call is for a node of one of these layers, with what the ones before it have left. -/
def Called (executor : String → Dict String α → Except α α) (completed : Dict String α)
    (layers : List (List String)) (call : String × Dict String α) : Prop :=
  ∃ earlier layer later, layers = earlier ++ layer :: later ∧ call.1 ∈ layer ∧
    call.2 = settled executor completed earlier

/-- The nodes whose tasks have not started. -/
def waiting : List (String × Task α) → List String
  | [] => []
  | (n, .created) :: tasks => n :: waiting tasks
  | (_, .running _) :: tasks => waiting tasks
  | (_, .done _) :: tasks => waiting tasks

/-- `execute` is at a layer. -/
structure AtLayer (executor : String → Dict String α → Except α α) (onError : String)
    (completed : Dict String α) (layers before : List (List String)) (layer : List String)
    (s : Execution α) : Prop where
  parts : layers = before ++ layer :: s.rest
  result : s.result = none
  outputs : s.outputs = settled executor completed before
  passed : Passed executor onError completed before
  nodes : s.tasks.map Prod.fst = layer
  tasks : ∀ p ∈ s.tasks, TaskOf executor s.outputs p.1 p.2
  calls : ∀ c ∈ s.calls, Called executor completed (before ++ [layer]) c
  once : (s.calls.map Prod.fst ++ waiting s.tasks).Perm (before ++ [layer]).flatten

/-- Where `execute` can be: at a layer, returned, or stopped at a failure. -/
inductive Reached (executor : String → Dict String α → Except α α) (onError : String)
    (completed : Dict String α) (layers : List (List String)) (s : Execution α) : Prop
  | layer (h : AtLayer executor onError completed layers before layer s)
  | returned (hr : s.result = some (.ok (settled executor completed layers)))
      (ht : s.tasks = []) (hp : Passed executor onError completed layers)
      (hc : ∀ c ∈ s.calls, Called executor completed layers c)
      (ho : (s.calls.map Prod.fst).Perm layers.flatten)
  | failed (hl : layers = before ++ layer :: rest) (hm : onError = "rollback")
      (hr : s.result = some (.error (.execution node cause))) (ht : s.tasks = [])
      (hp : Passed executor onError completed before)
      (hf : FirstFailure executor (settled executor completed before) layer node cause)
      (hc : ∀ c ∈ s.calls, Called executor completed (before ++ [layer]) c)
      (ho : (s.calls.map Prod.fst).Perm (before ++ [layer]).flatten)

theorem waiting_created (layer : List String) :
    waiting (layer.map fun n => (n, (Task.created : Task α))) = layer := by
  induction layer with
  | nil => rfl
  | cons n layer ih => rw [List.map_cons, waiting, ih]

theorem waiting_append (as bs : List (String × Task α)) :
    waiting (as ++ bs) = waiting as ++ waiting bs := by
  induction as with
  | nil => rfl
  | cons p as ih =>
    obtain ⟨n, t⟩ := p
    cases t with
    | created => exact congrArg (n :: ·) ih
    | running upstream => exact ih
    | done o => exact ih

theorem waiting_done (results : List (String × Except α (String × α))) :
    waiting (results.map fun p => (p.1, Task.done p.2)) = [] := by
  induction results with
  | nil => rfl
  | cons p results ih => rw [List.map_cons, waiting, ih]

theorem Called.mono {completed : Dict String α} {layers : List (List String)}
    {call : String × Dict String α} (h : Called executor completed layers call)
    (more : List (List String)) :
    Called executor completed (layers ++ more) call := by
  obtain ⟨earlier, layer, later, rfl, hm, he⟩ := h
  exact ⟨earlier, layer, later ++ more, by simp, hm, he⟩

theorem Passed.concat {completed : Dict String α} {before : List (List String)}
    {layer : List String} (h : Passed executor onError completed before)
    (hl : onError = "rollback" → Succeeds executor (settled executor completed before) layer) :
    Passed executor onError completed (before ++ [layer]) := by
  intro hr earlier l later he
  obtain ⟨rfl, rfl, -⟩ | ⟨later', -, hb⟩ := split_concat he
  · exact hl hr
  · exact h hr earlier l later' hb

/-- The next layer behind those that have passed. -/
theorem reached_next {completed : Dict String α} {layers before rest : List (List String)}
    {calls : List (String × Dict String α)} (hl : layers = before ++ rest)
    (hp : Passed executor onError completed before)
    (hc : ∀ c ∈ calls, Called executor completed before c)
    (ho : (calls.map Prod.fst).Perm before.flatten) :
    Reached executor onError completed layers
      (.next (settled executor completed before) calls rest) := by
  cases rest with
  | nil =>
    rw [List.append_nil] at hl
    subst hl
    exact .returned rfl rfl hp hc ho
  | cons layer rest =>
    have hlayer : AtLayer executor onError completed layers before layer
        (.next (settled executor completed before) calls (layer :: rest)) := ?_
    · exact .layer hlayer
    refine ⟨hl, rfl, rfl, hp, ?_, fun p hm => ?_, fun c hm => (hc c hm).mono _, ?_⟩
    · exact (List.map_map ..).trans (List.map_id layer)
    · obtain ⟨n, -, rfl⟩ := List.mem_map.1 hm
      exact .created
    · rw [List.flatten_concat]
      exact ho.append (.of_eq (waiting_created layer))

theorem reached_start (layers : List (List String)) (completed : Option (Dict String α))
    (hm : onError = "rollback" ∨ onError = "continue") :
    Reached executor onError (completed.getD []) layers (.start layers onError completed) := by
  rw [Execution.start, if_pos hm]
  have hp : Passed executor onError (completed.getD []) [] :=
    fun _ earlier layer later h => by simp at h
  exact reached_next rfl hp (List.forall_mem_nil _) (.refl _)

theorem exists_split {xs : List ι} {i : Nat} {x : ι} (h : xs[i]? = some x) (y : ι) :
    ∃ as bs, xs = as ++ x :: bs ∧ xs.set i y = as ++ y :: bs := by
  obtain ⟨hlt, rfl⟩ := List.getElem?_eq_some_iff.1 h
  refine ⟨xs.take i, xs.drop (i + 1), ?_, ?_⟩
  · rw [← List.drop_eq_getElem_cons hlt, List.take_append_drop]
  · rw [List.set_eq_take_append_cons_drop, if_pos hlt]

namespace AtLayer
variable {completed : Dict String α} {layers before : List (List String)} {layer : List String}
  {s : Execution α}

theorem begin (h : AtLayer executor onError completed layers before layer s) {i : Nat}
    {node : String} (hi : s.tasks[i]? = some (node, .created)) :
    AtLayer executor onError completed layers before layer
      { s with
        tasks := s.tasks.set i (node, .running s.outputs)
        calls := s.calls ++ [(node, s.outputs)] } := by
  obtain ⟨as, bs, hs, hset⟩ := exists_split hi (node, .running s.outputs)
  obtain ⟨hparts, hresult, houtputs, hpassed, hnodes, htasks, hcalls, honce⟩ := h
  rw [hs, List.map_append, List.map_cons] at hnodes
  rw [hs, List.forall_mem_append, List.forall_mem_cons] at htasks
  rw [hs, waiting_append, waiting] at honce
  refine ⟨hparts, hresult, houtputs, hpassed, ?_, ?_, ?_, ?_⟩
  · rw [hset, List.map_append, List.map_cons, hnodes]
  · rw [hset, List.forall_mem_append, List.forall_mem_cons]
    exact ⟨htasks.1, .running, htasks.2.2⟩
  · rw [List.forall_mem_append, List.forall_mem_singleton]
    refine ⟨hcalls, before, layer, [], rfl, ?_, houtputs⟩
    rw [← hnodes]
    exact List.mem_append_right _ (.head _)
  · rw [hset, waiting_append, waiting, List.map_append, List.append_assoc]
    have hmid : (node :: (waiting as ++ waiting bs)).Perm (waiting as ++ node :: waiting bs) :=
      List.perm_middle.symm
    exact (hmid.append_left _).trans honce

theorem finish (h : AtLayer executor onError completed layers before layer s) {i : Nat}
    {node : String} {upstream : Dict String α}
    (hi : s.tasks[i]? = some (node, .running upstream)) :
    AtLayer executor onError completed layers before layer
      { s with
        tasks := s.tasks.set i
          (node, .done ((executor node upstream).map fun result => (node, result))) } := by
  obtain ⟨as, bs, hs, hset⟩ := exists_split hi
    (node, Task.done ((executor node upstream).map fun result => (node, result)))
  obtain ⟨hparts, hresult, houtputs, hpassed, hnodes, htasks, hcalls, honce⟩ := h
  rw [hs, List.map_append, List.map_cons] at hnodes
  rw [hs, List.forall_mem_append, List.forall_mem_cons] at htasks
  rw [hs, waiting_append, waiting] at honce
  refine ⟨hparts, hresult, houtputs, hpassed, ?_, ?_, hcalls, ?_⟩
  · rw [hset, List.map_append, List.map_cons, hnodes]
  · rw [hset, List.forall_mem_append, List.forall_mem_cons]
    refine ⟨htasks.1, ?_, htasks.2.2⟩
    cases htasks.2.1 with
    | running => exact .done
  · rw [hset, waiting_append, waiting]
    exact honce

/-- The outcomes of a layer whose tasks are all done. -/
theorem results_eq (h : AtLayer executor onError completed layers before layer s)
    {results : List (String × Except α (String × α))}
    (ht : s.tasks = results.map fun p => (p.1, .done p.2)) :
    results = layer.map fun n => (n, outcome executor s.outputs n) := by
  have hnodes := h.nodes
  have htasks := h.tasks
  rw [ht, List.map_map] at hnodes
  rw [ht] at htasks
  rw [← hnodes, List.map_map]
  refine (List.map_id results).symm.trans (List.map_congr_left fun p hp => ?_)
  exact Prod.ext rfl (htasks _ (List.mem_map.2 ⟨p, hp, rfl⟩)).of_done

theorem gather (h : AtLayer executor onError completed layers before layer s)
    {results : List (String × Except α (String × α))}
    (ht : s.tasks = results.map fun p => (p.1, .done p.2)) :
    Reached executor onError completed layers
      (.proceed s.calls s.rest (collect onError s.outputs results)) := by
  have hresults := h.results_eq ht
  have honce : (s.calls.map Prod.fst).Perm (before ++ [layer]).flatten := by
    have honce := h.once
    rwa [ht, waiting_done, List.append_nil] at honce
  obtain ⟨hparts, -, houtputs, hpassed, -, -, hcalls, -⟩ := h
  rw [hresults]
  obtain ⟨hc, hs⟩ | ⟨hm, d, node, cause, hc, hf⟩ :=
    collect_outcomes executor onError s.outputs layer s.outputs
  · rw [hc]
    have hnext : layer.foldl (fun d n => d.set n (value (executor n s.outputs))) s.outputs =
        settled executor completed (before ++ [layer]) := by
      rw [settled_concat, ← houtputs, settle]
    rw [houtputs] at hs
    rw [Execution.proceed, hnext]
    refine reached_next ?_ (hpassed.concat hs) hcalls honce
    rw [hparts, List.append_assoc, List.singleton_append]
  · rw [hc]
    rw [houtputs] at hf
    exact .failed hparts hm rfl rfl hpassed hf hcalls honce

end AtLayer

/-- A step keeps to where `execute` can be. -/
theorem Reached.step {completed : Dict String α} {layers : List (List String)}
    {s s' : Execution α} (h : Reached executor onError completed layers s)
    (hs : Step executor onError s s') : Reached executor onError completed layers s' := by
  have hend (ht : s.tasks = []) (hr : s.result ≠ none) : False := by
    cases hs with
    | begin hi =>
      rw [ht] at hi
      cases hi
    | finish hi =>
      rw [ht] at hi
      cases hi
    | gather _ hn _ => exact hr hn
  cases h with
  | layer h =>
    cases hs with
    | begin hi => exact .layer (h.begin hi)
    | finish hi => exact .layer (h.finish hi)
    | gather _ _ ht => exact h.gather ht
  | returned hr ht =>
    rw [hr] at hend
    exact (hend ht (Option.some_ne_none _)).elim
  | failed hl hm hr ht =>
    rw [hr] at hend
    exact (hend ht (Option.some_ne_none _)).elim

theorem reached_steps {layers : List (List String)} {completed : Option (Dict String α)}
    {s : Execution α} {n : Nat} (hm : onError = "rollback" ∨ onError = "continue")
    (h : Steps executor onError n (.start layers onError completed) s) :
    Reached executor onError (completed.getD []) layers s := by
  generalize hs : Execution.start layers onError completed = s₀ at h
  induction h with
  | refl =>
    rw [← hs]
    exact reached_start layers completed hm
  | tail _ hstep ih => exact (ih hs).step hstep

/-- While `execute` is at a layer there is a step. -/
theorem AtLayer.exists_step {completed : Dict String α} {layers before : List (List String)}
    {layer : List String} {s : Execution α}
    (h : AtLayer executor onError completed layers before layer s) :
    ∃ s', Step executor onError s s' := by
  by_cases hall : ∀ p ∈ s.tasks, ∃ o, p.2 = .done o
  · have hresults : ∃ results : List (String × Except α (String × α)),
        s.tasks = results.map fun p => (p.1, .done p.2) := by
      clear h
      generalize s.tasks = tasks at hall
      induction tasks with
      | nil => exact ⟨[], rfl⟩
      | cons p tasks ih =>
        obtain ⟨⟨o, ho⟩, htail⟩ := List.forall_mem_cons.1 hall
        obtain ⟨results, rfl⟩ := ih htail
        exact ⟨(p.1, o) :: results, by rw [List.map_cons, ← ho]⟩
    obtain ⟨results, ht⟩ := hresults
    exact ⟨_, .gather results h.result ht⟩
  · push Not at hall
    obtain ⟨⟨node, t⟩, hp, hnot⟩ := hall
    obtain ⟨i, hi⟩ := List.mem_iff_getElem?.1 hp
    cases t with
    | created => exact ⟨_, .begin hi⟩
    | running upstream => exact ⟨_, .finish hi⟩
    | done o => exact (hnot o rfl).elim

/-- The steps that a task has left. -/
def Task.left : Task α → Nat
  | .created => 2
  | .running _ => 1
  | .done _ => 0

/-- The steps that layers take whose tasks are not created yet. -/
def layersLeft (layers : List (List String)) : Nat := 2 * layers.flatten.length + layers.length

/-- The steps that are left at most. -/
def Execution.left (s : Execution α) : Nat :=
  (s.tasks.map fun p => p.2.left).sum + if s.result.isNone then 1 + layersLeft s.rest else 0

theorem left_next (outputs : Dict String α) (calls : List (String × Dict String α))
    (layers : List (List String)) :
    (Execution.next outputs calls layers).left = layersLeft layers := by
  cases layers with
  | nil => rfl
  | cons layer rest =>
    have hsum : ((layer.map fun n => (n, (Task.created : Task α))).map fun p => p.2.left).sum =
        2 * layer.length := by
      induction layer with
      | nil => rfl
      | cons n layer ih =>
        rw [List.map_cons, List.map_cons, List.sum_cons, ih, List.length_cons, Task.left]
        omega
    simp only [Execution.left, Execution.next, hsum, layersLeft, List.flatten_cons,
      List.length_append, List.length_cons, Option.isNone_none, if_true]
    omega

theorem sum_left_set {tasks : List (String × Task α)} {i : Nat} {p : String × Task α}
    (hi : tasks[i]? = some p) {q : String × Task α} (hq : q.2.left < p.2.left) :
    ((tasks.set i q).map fun p => p.2.left).sum < (tasks.map fun p => p.2.left).sum := by
  obtain ⟨as, bs, hs, hset⟩ := exists_split hi q
  rw [hset, hs]
  simp only [List.map_append, List.map_cons, List.sum_append, List.sum_cons]
  omega

theorem Step.left_lt {s s' : Execution α} (h : Step executor onError s s') : s'.left < s.left := by
  cases h with
  | begin hi =>
    refine Nat.add_lt_add_right (sum_left_set hi ?_) _
    exact Nat.lt_succ_self 1
  | finish hi =>
    refine Nat.add_lt_add_right (sum_left_set hi ?_) _
    exact Nat.zero_lt_one
  | gather _ hr ht =>
    have hleft : s.left ≥ 1 + layersLeft s.rest := by
      rw [Execution.left, hr, Option.isNone_none, if_pos rfl]
      exact Nat.le_add_left ..
    generalize collect onError s.outputs _ = c
    obtain ⟨outputs, _ | ⟨node, cause⟩⟩ := c
    · rw [Execution.proceed, left_next]
      omega
    · exact Nat.lt_of_lt_of_le (Nat.lt_of_lt_of_le Nat.zero_lt_one (Nat.le_add_right ..)) hleft

theorem Steps.le_left {s s' : Execution α} {n : Nat} (h : Steps executor onError n s s') :
    n + s'.left ≤ s.left := by
  induction h with
  | refl => exact Nat.le_of_eq (Nat.zero_add _)
  | tail _ hs ih =>
    have hlt := hs.left_lt
    omega

/-- Whatever the order in which tasks start and finish: an executor is called with the completed
entries and the outputs of the layers before its own; `continue` returns the outputs of all nodes,
`rollback` raises for the first node that fails, and starts no layer behind it. -/
theorem execute_spec {layers : List (List String)} (hn : layers.flatten.Nodup)
    {completed : Option (Dict String α)} (hm : onError = "rollback" ∨ onError = "continue")
    {n : Nat} {s : Execution α}
    (h : Steps executor onError n (.start layers onError completed) s) :
    (∀ c ∈ s.calls, ∃ before layer later, layers = before ++ layer :: later ∧ c.1 ∈ layer ∧
        Upstream executor (completed.getD []) before c.2) ∧
      (onError = "continue" → ∀ r, s.result = some r →
        r = .ok (settled executor (completed.getD []) layers) ∧
          Upstream executor (completed.getD []) layers
            (settled executor (completed.getD []) layers) ∧
          (s.calls.map Prod.fst).Perm layers.flatten) ∧
      (onError = "rollback" → ∀ r, s.result = some r →
        (r = .ok (settled executor (completed.getD []) layers) ∧
          ∀ before layer later, layers = before ++ layer :: later →
            Succeeds executor (settled executor (completed.getD []) before) layer) ∨
        ∃ before layer later node cause, layers = before ++ layer :: later ∧
          (∀ earlier l later, before = earlier ++ l :: later →
            Succeeds executor (settled executor (completed.getD []) earlier) l) ∧
          FirstFailure executor (settled executor (completed.getD []) before) layer node cause ∧
          r = .error (.execution node cause) ∧
          ∀ c ∈ s.calls, c.1 ∈ (before ++ [layer]).flatten) ∧
      (s.result = none → ∃ s', Step executor onError s s') ∧
      n ≤ 2 * layers.flatten.length + layers.length := by
  have hreached := reached_steps hm h
  have hcalls : ∀ c, Called executor (completed.getD []) layers c →
      ∃ before layer later, layers = before ++ layer :: later ∧ c.1 ∈ layer ∧
        Upstream executor (completed.getD []) before c.2 := by
    rintro c ⟨before, layer, later, rfl, hc, he⟩
    rw [List.flatten_append] at hn
    rw [he]
    exact ⟨before, layer, later, rfl, hc, upstream_settled _ (List.nodup_append.1 hn).1⟩
  have hbound : n ≤ 2 * layers.flatten.length + layers.length := by
    have hle := h.le_left
    rw [Execution.start, if_pos hm, left_next, layersLeft] at hle
    omega
  cases hreached with
  | @layer before layer h =>
    have hlayers : layers = (before ++ [layer]) ++ s.rest := by
      rw [h.parts, List.append_assoc, List.singleton_append]
    refine ⟨fun c hc => hcalls c ?_, ?_, ?_, fun _ => h.exists_step, hbound⟩
    · rw [hlayers]
      exact (h.calls c hc).mono _
    · rw [h.result]
      exact fun _ r hr => (Option.some_ne_none r hr.symm).elim
    · rw [h.result]
      exact fun _ r hr => (Option.some_ne_none r hr.symm).elim
  | returned hr _ hp hc ho =>
    refine ⟨fun c hm => hcalls c (hc c hm), fun _ r he => ?_, fun hm r he => ?_, ?_, hbound⟩
    · rw [hr, Option.some.injEq] at he
      exact ⟨he.symm, upstream_settled _ hn, ho⟩
    · rw [hr, Option.some.injEq] at he
      exact .inl ⟨he.symm, hp hm⟩
    · rw [hr]
      exact fun hnone => (Option.some_ne_none _ hnone).elim
  | @failed before layer rest node cause hl hmode hr _ hp hf hc ho =>
    refine ⟨fun c hm => hcalls c ?_, fun hcont => ?_, fun _ r he => ?_, ?_, hbound⟩
    · have hcalled := (hc c hm).mono rest
      rwa [List.append_assoc, List.singleton_append, ← hl] at hcalled
    · rw [hmode] at hcont
      exact absurd hcont (by decide)
    · rw [hr, Option.some.injEq] at he
      refine .inr ⟨before, layer, rest, node, cause, hl, hp hmode, hf, he.symm, fun c hm => ?_⟩
      exact ho.mem_iff.1 (List.mem_map_of_mem hm)
    · rw [hr]
      exact fun hnone => (Option.some_ne_none _ hnone).elim

/-- An executor that fails at one node. -/
def flaky (node : String) (_ : Dict String String) : Except String String :=
  if node = "a" then .error "boom" else .ok node

/-- A run in which the failing task is done before the other one starts. -/
theorem execute_flaky : ∃ s, Steps flaky "rollback" 5
    (.start [["b", "a"], ["c"]] "rollback" none) s ∧
      ∀ c ∈ s.calls, ∃ before layer later,
        [["b", "a"], ["c"]] = before ++ layer :: later ∧ c.1 ∈ layer ∧
          Upstream flaky [] before c.2 := by
  have h : Steps flaky "rollback" 5 (.start [["b", "a"], ["c"]] "rollback" none) _ :=
    .tail (.tail (.tail (.tail (.tail .refl (.begin (i := 1) rfl)) (.finish (i := 1) rfl))
      (.begin (i := 0) rfl)) (.finish (i := 0) rfl))
      (.gather [("b", .ok ("b", "b")), ("a", .error "boom")] rfl rfl)
  exact ⟨_, h, (execute_spec (by decide) (.inl rfl) h).1⟩

end Obase.WorkflowEngine
