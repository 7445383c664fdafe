import Obase.Concrete
import Obase.TeamRegistry.Inbox

namespace Obase.TeamRegistry
set_option autoImplicit true
open Json Run

/-- The messages that a list of messages has for an agent. -/
def forAgent (msgs : List (Message F)) (agent : String) : List (Json F) :=
  (msgs.filter fun msg => isText ((msg.lookup "to").getD .null) agent).map .dict

theorem forAgent_append (ms ms' : List (Message F)) (agent : String) :
    forAgent (ms ++ ms') agent = forAgent ms agent ++ forAgent ms' agent := by
  rw [forAgent, List.filter_append, List.map_append, forAgent, forAgent]

theorem isText_str (a b : String) : isText (.str a : Json F) b = true ↔ b = a := by
  rw [isText, beq_iff_eq]
  exact eq_comm

theorem receivedBy_append (received : List (String × Json F)) (agent : String)
    (got : List (Json F)) (b : String) :
    ((received ++ got.map fun m => (agent, m)).filter fun p => p.1 = b).map Prod.snd =
      (received.filter fun p => p.1 = b).map Prod.snd ++ if b = agent then got else [] := by
  rw [List.filter_append, List.map_append]
  congr 1
  by_cases hba : b = agent
  · subst hba
    rw [if_pos rfl, List.filter_eq_self.2 (by simp), List.map_map]
    exact List.map_id _
  · rw [if_neg hba, List.filter_eq_nil_iff.2 (by simp [Ne.symm hba])]
    rfl

variable [Builtins F] {dir : Path} {t t' : FileTree} {s : State F}

/-- The inboxes hold what they held, and after it the messages that were sent meanwhile. -/
structure Received (dir : Path) (t : FileTree) (msgs : List (Message F)) (t' : FileTree) :
    Prop where
  inboxes : Inboxes (F := F) dir t'
  waiting : ∀ agent, Path.IsName agent →
    waiting dir t' agent = waiting dir t agent ++ forAgent msgs agent

theorem Received.of_unchanged (hi : Inboxes (F := F) dir t) (hs : t'.Sound)
    (h : Unchanged dir t t') : Received (F := F) dir t [] t' := by
  refine ⟨hi.unchanged hs h, fun agent ha => ?_⟩
  rw [(h agent ha).waiting hi.sound hs]
  exact (List.append_nil _).symm

theorem Received.trans {t'' : FileTree} {ms ms' : List (Message F)} (h : Received dir t ms t')
    (h' : Received dir t' ms' t'') : Received dir t (ms ++ ms') t'' := by
  refine ⟨h'.inboxes, fun agent ha => ?_⟩
  rw [h'.waiting agent ha, h.waiting agent ha, forAgent_append, List.append_assoc]

/-- A message that is in order is sent, or nothing is. -/
theorem sendMessage_received (hi : Inboxes (F := F) dir t) {msg : Message F} {stamp : Stamp}
    (ho : InOrder dir t (stamped msg stamp)) {r : Except Failure (Message F)}
    (h : sendMessage dir t msg stamp = (r, t')) :
    (∃ e, r = .error e) ∧ Received (F := F) dir t [] t' ∨
      r = .ok (stamped msg stamp) ∧ Received dir t [stamped msg stamp] t' := by
  have herror {e : Failure} {t₁ : FileTree} (hs : t₁.Sound) (hu : Unchanged dir t t₁) :
      (∃ e', (Except.error e : Except Failure (Message F)) = .error e') ∧
        Received (F := F) dir t [] t₁ := ⟨⟨e, rfl⟩, .of_unchanged hi hs hu⟩
  rw [sendMessage] at h
  split at h
  · rename_i htruthy
    have hto {a : String} (he : ((stamped msg stamp).lookup "to").getD .null = .str a) :
        (stamped msg stamp).lookup "to" = some (.str a) ∧ Path.IsName a := by
      have hl : (stamped msg stamp).lookup "to" = some (.str a) := by
        cases hv : (stamped msg stamp).lookup "to" with
        | none =>
          rw [hv] at he
          cases he
        | some v =>
          rw [hv] at he
          exact congrArg some he
      refine ⟨hl, ho.recipient a hl ?_⟩
      rintro rfl
      rw [he] at htruthy
      cases htruthy
    split at h
    · rename_i hd
      cases h
      obtain ⟨hs, hu, -⟩ := inboxDir_unchanged hi.sound (fun a he => (hto he).2) hd
      exact .inl (herror hs hu)
    · rename_i box t₁ hd
      obtain ⟨hs, hu, hbox⟩ := inboxDir_unchanged hi.sound (fun a he => (hto he).2) hd
      split at h
      · cases h
        exact .inl (herror hs hu)
      · split at h
        · rename_i t₂ hsave
          cases h
          obtain ⟨a, he, rfl⟩ := hbox box rfl
          obtain ⟨hl, ha⟩ := hto he
          refine .inr ⟨rfl, ?_⟩
          have hname : (String.ofList (fileName (stamped msg stamp))).toList =
              fileName (stamped msg stamp) := String.toList_ofList
          have hput : t₁.put (inbox dir a ++ [String.ofList (fileName (stamped msg stamp))])
              (dumpsIndent 2 0 (.dict (stamped msg stamp))) = .ok t' := by
            rw [← Path.resolve_name _ ho.fileName, hname]
            rw [saveJson] at hsave
            cases hp : t₁.put (Path.resolve (inbox dir a) (fileName (stamped msg stamp)))
              (dumpsIndent 2 0 (.dict (stamped msg stamp))) with
            | error e =>
              rw [hp] at hsave
              cases hsave
            | ok t₂ =>
              rw [hp] at hsave
              cases hsave
              rfl
          have hi₁ := hi.unchanged hs hu
          have hlast := ho.last a hl
          rw [← (hu a ha).inboxFiles hi.sound hs] at hlast
          have htv : truthy (.dict (stamped msg stamp) : Json F) = true := by
            rw [truthy, List.isEmpty_eq_false_iff.2 (stamped_ne_nil msg stamp)]
            rfl
          have hx : jsonExt <:+ (String.ofList (fileName (stamped msg stamp))).toList := by
            rw [hname]
            exact List.suffix_append ..
          obtain ⟨hi₂, hw⟩ := put_inOrder hi₁ ha ho.distinct htv hx hlast hput
          refine ⟨hi₂, fun b hb => ?_⟩
          rw [hw b hb, (hu b hb).waiting hi.sound hs]
          congr 1
          rw [forAgent, List.filter_singleton, he]
          by_cases hba : b = a
          · rw [if_pos hba, (isText_str a b).2 hba]
            rfl
          · rw [if_neg hba, Bool.eq_false_iff.2 fun ht => hba ((isText_str a b).1 ht)]
            rfl
        · cases h
          exact .inl (herror hs hu)
  · cases h
    exact .inl (herror hi.sound (.refl t))

/-- A broadcast sends its messages in order. -/
theorem broadcastTo_received {fromAgent content : String} {stamps : Nat → Stamp}
    {members : List (Json F)} (sent : List (Message F)) (hi : Inboxes (F := F) dir t)
    (ho : BroadcastInOrder dir fromAgent content stamps t sent.length members) :
    ∃ ms, (broadcastTo dir fromAgent content stamps t sent members).1.1 = sent ++ ms ∧
      Received dir t ms (broadcastTo dir fromAgent content stamps t sent members).2 := by
  induction members generalizing t sent with
  | nil => exact ⟨[], (List.append_nil _).symm, .of_unchanged hi hi.sound (.refl t)⟩
  | cons m members ih =>
    rw [BroadcastInOrder] at ho
    rw [broadcastTo]
    cases hn : (getItem m "name" : Except PyError (Json F)) with
    | error e => exact ⟨[], (List.append_nil _).symm, .of_unchanged hi hi.sound (.refl t)⟩
    | ok name =>
      rw [hn] at ho
      dsimp only at ho ⊢
      split
      · rename_i hs
        rw [if_pos hs] at ho
        exact ih sent hi ho
      · rename_i hs
        rw [if_neg hs] at ho
        obtain ⟨ho, hrest⟩ := ho
        cases hsend : sendMessage dir t (broadcastMessage fromAgent content stamps name sent.length)
          (stamps sent.length) with
        | mk r t₁ =>
          rw [hsend] at hrest
          obtain ⟨⟨e, rfl⟩, hr⟩ | ⟨rfl, hr⟩ := sendMessage_received hi ho hsend
          · exact ⟨[], (List.append_nil _).symm, hr⟩
          · dsimp only at hrest ⊢
            obtain ⟨ms, hms, hr'⟩ := ih (sent ++ [_]) hr.inboxes (by
              rw [List.length_append]
              exact hrest)
            refine ⟨_ :: ms, ?_, hr.trans hr'⟩
            rw [hms, List.append_assoc]
            rfl

/-- Receiving takes the first files, with their messages. -/
theorem receiveFrom_ok (limit : Int) {fs : List Path} (msgs : List (Json F)) (hs : t.Sound)
    (hn : fs.Nodup) (hm : ∀ f ∈ fs, ∃ m : Json F, message t f = some m) :
    ∃ pre rest t', fs = pre ++ rest ∧
      receiveFrom limit t msgs fs = (.ok (msgs ++ pre.filterMap (message t)), t') ∧ t'.Sound ∧
      ∀ q, t'.entry q = if q ∈ pre then none else t.entry q := by
  induction fs generalizing t msgs with
  | nil => exact ⟨[], [], t, rfl, by rw [receiveFrom]; simp, hs, fun q => (if_neg (by simp)).symm⟩
  | cons f fs ih =>
    rw [List.forall_mem_cons] at hm
    obtain ⟨hf, hn⟩ := List.nodup_cons.1 hn
    obtain ⟨⟨m, hmf⟩, hm⟩ := hm
    have hc : ∃ cs, t.content f = some cs := by
      cases hr : t.readText f with
      | error e =>
        rw [message, loadJson, hr] at hmf
        cases hmf
      | ok cs => exact ⟨cs, FileTree.readText_ok.1 hr⟩
    obtain ⟨cs, hc⟩ := hc
    obtain ⟨t₁, ht₁⟩ := FileTree.unlink_of_content hc
    obtain ⟨-, he₁⟩ := FileTree.unlink_ok ht₁
    have hs₁ := hs.unlink ht₁
    rw [receiveFrom, ht₁, hmf]
    dsimp only
    split
    · refine ⟨[f], fs, t₁, rfl, ?_, hs₁, fun q => ?_⟩
      · rw [List.filterMap_cons, hmf]
        rfl
      · rw [he₁]
        simp
    · have hsame {q : Path} (hq : q ∈ fs) : (message t₁ q : Option (Json F)) = message t q := by
        apply message_congr
        rw [he₁, if_neg]
        rintro rfl
        exact hf hq
      obtain ⟨pre, rest, t', rfl, hr, hs', he⟩ := ih (msgs ++ [m]) (t := t₁) hs₁ hn
        fun q hq => by rw [hsame hq]; exact hm q hq
      refine ⟨f :: pre, rest, t', rfl, ?_, hs', fun q => ?_⟩
      · have hpre : pre.filterMap (message t₁ : Path → Option (Json F)) =
            pre.filterMap (message t) :=
          List.filterMap_congr fun q hq => hsame (List.mem_append_left _ hq)
        rw [hpre, List.append_assoc] at hr
        rw [List.filterMap_cons, hmf]
        exact hr
      · rw [he, he₁]
        by_cases hq : q = f
        · subst hq
          simp
        · simp [hq]

/-- What an agent receives and what is left in its inbox is what was there, and other inboxes stay as
they are. -/
theorem receiveMessages_ok (hi : Inboxes (F := F) dir t) {agent : String}
    (ha : Path.IsName agent) {limit : Int} {r : Except Failure (List (Json F))}
    (h : receiveMessages dir t agent limit = (r, t')) : Inboxes (F := F) dir t' ∧
      ∃ msgs, (∀ got, r = .ok got → got = msgs) ∧ ((∃ e, r = .error e) → msgs = []) ∧
        waiting dir t agent = msgs ++ waiting dir t' agent ∧ ∀ b, Path.IsName b → b ≠ agent →
          (waiting dir t' b : List (Json F)) = waiting dir t b := by
  rw [receiveMessages] at h
  have hagent : ∀ a, (.str agent : Json F) = .str a → Path.IsName a := by
    intro a he
    cases he
    exact ha
  split at h
  · rename_i e t₁ hd
    cases h
    obtain ⟨hs, hu, -⟩ := inboxDir_unchanged hi.sound hagent hd
    refine ⟨hi.unchanged hs hu, [], fun got he => (nomatch he), fun _ => rfl, ?_, fun b hb _ => ?_⟩
    · rw [(hu agent ha).waiting hi.sound hs]
      rfl
    · exact (hu b hb).waiting hi.sound hs
  · rename_i box t₁ hd
    obtain ⟨hs, hu, hbox⟩ := inboxDir_unchanged hi.sound hagent hd
    obtain ⟨a, he, rfl⟩ := hbox box rfl
    cases he
    have hi₁ := hi.unchanged hs hu
    have hlt := inboxFiles_lt hs (inbox dir agent)
    obtain ⟨pre, rest, t₂, hfs, hr, hs₂, he⟩ := receiveFrom_ok limit [] hs
      (hlt.imp ne_of_lt) fun f hf => hi₁.message agent ha f (mem_inboxFiles.1 hf)
    rw [hr] at h
    cases h
    have hpre {q : Path} (hq : q ∈ pre) : q.dropLast = inbox dir agent := by
      have hm := mem_inboxFiles.1 (hfs ▸ List.mem_append_left rest hq)
      exact (FileTree.mem_glob.1 hm).2.2.1
    have hother {b : String} (hb : Path.IsName b) (hne : b ≠ agent) :
        SameIn (inbox dir b) t₁ t' := by
      intro q _ hd
      rw [he, if_neg]
      exact fun hq => hne (inbox_inj hb ha (hd.symm.trans (hpre hq)))
    have hmem (q : Path) : q ∈ rest ↔ q ∈ t'.glob (inbox dir agent) jsonExt := by
      have hfiles : q ∈ pre ++ rest ↔ q ∈ t₁.glob (inbox dir agent) jsonExt := by
        rw [← hfs, mem_inboxFiles]
      have hnodup : (pre ++ rest).Nodup := hfs ▸ hlt.imp ne_of_lt
      rw [List.mem_append, FileTree.mem_glob] at hfiles
      rw [FileTree.mem_glob, he]
      constructor
      · intro hq
        have hnp : q ∉ pre := fun hp => (List.nodup_append.1 hnodup).2.2 q hp q hq rfl
        rw [if_neg hnp]
        exact hfiles.1 (.inr hq)
      · rintro ⟨⟨e, hq⟩, hx⟩
        split at hq
        · cases hq
        · rename_i hnp
          exact (hfiles.2 ⟨⟨e, hq⟩, hx⟩).resolve_left hnp
    have hrest : inboxFiles t' (inbox dir agent) = rest := by
      refine inboxFiles_eq hs₂ ?_ hmem
      rw [hfs] at hlt
      exact (List.pairwise_append.1 hlt).2.1
    have hmsg {q : Path} (hq : q ∈ rest) : (message t' q : Option (Json F)) = message t₁ q := by
      have hq₂ := FileTree.mem_glob.1 ((hmem q).1 hq)
      obtain ⟨e, heq⟩ := hq₂.1
      apply message_congr
      rw [he] at heq ⊢
      split at heq
      · cases heq
      · rename_i hnp
        rw [if_neg hnp]
    refine ⟨⟨hs₂, fun b hb q hq => ?_⟩, pre.filterMap (message t₁), ?_, ?_, ?_, fun b hb hne => ?_⟩
    · by_cases hba : b = agent
      · subst hba
        have hq := (hmem q).2 hq
        rw [hmsg hq]
        exact hi₁.message b hb q (mem_inboxFiles.1 (hfs ▸ List.mem_append_right pre hq))
      · have hq := (hother hb hba).mem_glob.1 hq
        rw [(hother hb hba).message hq]
        exact hi₁.message b hb q hq
    · intro got hgot
      cases hgot
      rfl
    · rintro ⟨e, he⟩
      cases he
    · rw [← (hu agent ha).waiting hi.sound hs, waiting, waiting, hfs, hrest,
        List.filterMap_append]
      congr 1
      exact List.filterMap_congr fun q hq => (hmsg hq).symm
    · exact ((hother hb hne).waiting hs hs₂).trans ((hu b hb).waiting hi.sound hs)

/-- The inboxes are those of messages that were sent, and what was sent is delivered. -/
structure Kept (dir : Path) (s : State F) : Prop where
  inboxes : Inboxes (F := F) dir s.tree
  delivers : Delivers dir s

theorem Kept.received {ms : List (Message F)} (h : Kept dir s) (hr : Received dir s.tree ms t') :
    Kept dir { s with tree := t', sent := s.sent ++ ms } := by
  refine ⟨hr.inboxes, fun agent ha => ?_⟩
  change s.receivedBy agent ++ waiting dir t' agent = forAgent (s.sent ++ ms) agent
  rw [hr.waiting agent ha, ← List.append_assoc, h.delivers agent ha, forAgent_append]
  rfl

theorem listMembers_unchanged (hs : t.Sound) {r : Except Failure (List (Json F))}
    (h : listMembers dir t = (r, t')) : t'.Sound ∧ Unchanged dir t t' := by
  rw [listMembers] at h
  split at h
  · cases h
    exact ⟨hs, .refl t⟩
  · rename_i t₁ h₁
    have hu : t₁.Sound ∧ Unchanged dir t t₁ :=
      ⟨hs.mkdirs h₁, .mkdirs (Nat.le_add_right ..) h₁⟩
    split at h
    · split at h
      · cases h
        exact hu
      · cases h
        exact hu
    · cases h
      exact hu

/-- A call that is in order keeps what was sent delivered. -/
theorem Kept.step (h : Kept dir s) {call : Call F} (ho : call.InOrder dir s) :
    Kept dir (call.step dir s) := by
  have hnone {t' : FileTree} (hr : Received (F := F) dir s.tree [] t') :
      Kept dir { s with tree := t' } := by
    have hk := h.received hr
    rw [List.append_nil] at hk
    exact hk
  cases call with
  | sendMessage msg stamp =>
    rw [Call.step]
    split
    · rename_i m t₁ hsend
      obtain ⟨⟨e, he⟩, -⟩ | ⟨he, hr⟩ := sendMessage_received h.inboxes ho hsend
      · cases he
      · cases he
        exact h.received hr
    · rename_i e t₁ hsend
      obtain ⟨-, hr⟩ | ⟨he, -⟩ := sendMessage_received h.inboxes ho hsend
      · exact hnone hr
      · cases he
  | broadcast fromAgent content stamps =>
    rw [Call.InOrder] at ho
    rw [Call.step]
    split
    · rename_i members t₁ hl
      rw [hl] at ho
      obtain ⟨hs, hu⟩ := listMembers_unchanged h.inboxes.sound hl
      have hr₁ := Received.of_unchanged h.inboxes hs hu
      obtain ⟨ms, hms, hr⟩ := broadcastTo_received [] hr₁.inboxes ho
      dsimp only
      rw [hms]
      exact h.received (hr₁.trans hr)
    · rename_i e t₁ hl
      obtain ⟨hs, hu⟩ := listMembers_unchanged h.inboxes.sound hl
      exact hnone (.of_unchanged h.inboxes hs hu)
  | receiveMessages agent limit =>
    rw [Call.step]
    cases hrec : (receiveMessages dir s.tree agent limit : Except Failure (List (Json F)) × FileTree)
      with
    | mk r t₁ =>
      obtain ⟨hi, msgs, hok, herr, hw, hothers⟩ := receiveMessages_ok h.inboxes ho hrec
      cases r with
      | error e =>
        refine ⟨hi, fun b hb => ?_⟩
        rw [herr ⟨e, rfl⟩] at hw
        change s.receivedBy b ++ waiting dir t₁ b = s.sentTo b
        rw [← h.delivers b hb]
        congr 1
        by_cases hba : b = agent
        · subst hba
          exact hw.symm
        · exact hothers b hb hba
      | ok got =>
        obtain rfl := hok got rfl
        refine ⟨hi, fun b hb => ?_⟩
        have hrb := receivedBy_append s.received agent got b
        change _ ++ waiting dir t₁ b = s.sentTo b
        rw [State.receivedBy, hrb, ← h.delivers b hb, List.append_assoc]
        congr 1
        by_cases hba : b = agent
        · subst hba
          rw [if_pos rfl]
          exact hw.symm
        · rw [if_neg hba]
          exact hothers b hb hba

theorem states_trace (dir : Path) (s : State F) (calls : List (Call F)) :
    Trace (Step dir) s (states dir s calls) := by
  induction calls generalizing s with
  | nil => trivial
  | cons call calls ih => exact ⟨rfl, ih _⟩

theorem Kept.newTeam (h : NewTeam dir t) : Kept (F := F) dir ⟨t, [], []⟩ := by
  have hnone {agent : String} (ha : Path.IsName agent) (q : Path) :
      q ∉ t.glob (inbox dir agent) jsonExt := by
    intro hq
    obtain ⟨he, hne, hd, -⟩ := FileTree.mem_glob.1 hq
    apply h.inboxes q (FileTree.mem_keys_iff.2 he)
    have hp : inbox dir agent <+: q := hd ▸ List.dropLast_prefix q
    refine List.IsPrefix.trans ?_ hp
    rw [inbox_eq ha]
    exact ⟨[agent], List.append_assoc ..⟩
  refine ⟨⟨h.sound, fun agent ha q hq => (hnone ha q hq).elim⟩, fun agent ha => ?_⟩
  have hfiles : inboxFiles t (inbox dir agent) = [] :=
    List.eq_nil_iff_forall_not_mem.2 fun q hq => hnone ha q (mem_inboxFiles.1 hq)
  change [] ++ waiting dir t agent = []
  rw [waiting, hfiles]
  rfl

/-- In every run from a new team whose calls are in order, what every agent has received and what is
still in its inbox is what was sent to it. -/
theorem delivers_of_inOrder {dir : Path} {t : FileTree} (ht : NewTeam dir t)
    {calls : List (Call F)}
    (h : Always (Call.InOrder dir) ⟨t, [], []⟩ (states dir ⟨t, [], []⟩ calls)) :
    Along (fun _ _ s => Delivers dir s) ⟨t, [], []⟩ (states dir ⟨t, [], []⟩ calls) := by
  refine (states_trace dir _ calls).along_of_always (I := Kept dir) (Kept.newTeam ht) h ?_
  rintro s call s' hk ho rfl
  exact ⟨hk.step ho, (hk.step ho).delivers⟩

/-- The directory of a team. -/
def redTeam : Path := ["base", "teams", "red"]

def noon : Stamp := ⟨"5f0c2d1e", "2025-01-01T12:00:00+00:00"⟩

/-- A message to `bob` with a request id. -/
def toBob (requestId content : String) : Message WholeFloat :=
  [("to", .str "bob"), ("content", .str content), ("request_id", .str requestId)]

theorem redTeam_new : NewTeam redTeam (FileTree.root redTeam) := by
  refine ⟨FileTree.root_sound _, ?_⟩
  decide

theorem toBob_inOrder {requestId content : String} {t : FileTree}
    (hn : Path.IsName (String.ofList (fileName (stamped (toBob requestId content) noon))))
    (h : ∀ f ∈ inboxFiles t (inbox redTeam "bob"),
      f < inbox redTeam "bob" ++
        [String.ofList (fileName (stamped (toBob requestId content) noon))]) :
    InOrder redTeam t (stamped (toBob requestId content) noon) := by
  have hto {agent : String}
      (he : (stamped (toBob requestId content) noon).lookup "to" = some (.str agent)) :
      agent = "bob" := by
    injection he with he
    injection he with he
    exact he.symm
  refine ⟨⟨?_, ?_⟩, fun agent he _ => ?_, hn, fun agent he => ?_⟩
  · change ["to", "content", "request_id", "timestamp"].Nodup
    decide
  · exact ⟨trivial, trivial, trivial, trivial, trivial⟩
  · rw [hto he]
    exact ⟨by decide, by decide, by decide, by decide, by decide⟩
  · rw [hto he]
    exact h

/-- Messages whose names increase are received as they were sent. -/
theorem delivers_increasing :
    Along (fun _ _ s => Delivers redTeam s) ⟨FileTree.root redTeam, [], []⟩
      (states redTeam ⟨FileTree.root redTeam, [], []⟩
        [.sendMessage (toBob "1" "first") noon, .sendMessage (toBob "2" "second") noon,
          .receiveMessages "bob" 1]) := by
  refine delivers_of_inOrder redTeam_new ⟨?_, ?_, ?_, trivial⟩
  · refine toBob_inOrder ⟨by decide, by decide, by decide, by decide, by decide⟩ ?_
    decide
  · refine toBob_inOrder ⟨by decide, by decide, by decide, by decide, by decide⟩ ?_
    decide
  · exact ⟨by decide, by decide, by decide, by decide, by decide⟩

/-- Two messages to `bob` with one request id. -/
def replied : State WholeFloat :=
  [Call.sendMessage (toBob "x" "first") noon, .sendMessage (toBob "x" "second") noon].foldl
    (Call.step redTeam) ⟨FileTree.root redTeam, [], []⟩

/-- A message that reuses a request id takes the place of the one that waits. -/
theorem reply_replaces : ¬ Delivers redTeam replied := by
  intro h
  have hreceived : (replied.receivedBy "bob").length = 0 := rfl
  have hsent : (replied.sentTo "bob").length = 2 := rfl
  have hfiles : (inboxFiles replied.tree (inbox redTeam "bob")).length = 1 := rfl
  have hwaiting : (waiting (F := WholeFloat) redTeam replied.tree "bob").length ≤
      (inboxFiles replied.tree (inbox redTeam "bob")).length := List.length_filterMap_le _ _
  have hb := h "bob" ⟨by decide, by decide, by decide, by decide, by decide⟩
  have hb := congrArg List.length hb
  rw [List.length_append, hreceived, hsent, Nat.zero_add] at hb
  rw [hb, hfiles] at hwaiting
  exact absurd hwaiting (by decide)

end Obase.TeamRegistry
