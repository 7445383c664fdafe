import Obase.Json.Canonical
import Obase.TeamRegistry.Messages
import Obase.Run

namespace Obase.TeamRegistry
set_option autoImplicit true
open Json Run

section
variable [Builtins F] (dir : Path)

/-- What is still in an inbox, in the order in which it is received. -/
def waiting (t : FileTree) (agent : String) : List (Json F) :=
  (inboxFiles t (inbox dir agent)).filterMap (message t)

/-- The messages that were sent to an agent, in order. -/
def State.sentTo (s : State F) (agent : String) : List (Json F) :=
  (s.sent.filter fun msg => isText ((msg.lookup "to").getD .null) agent).map .dict

/-- What an agent has received, in order. -/
def State.receivedBy (s : State F) (agent : String) : List (Json F) :=
  (s.received.filter fun p => p.1 = agent).map Prod.snd

/-- What every agent has received and what is still in its inbox is what was sent to it. -/
def Delivers (s : State F) : Prop :=
  ∀ agent, Path.IsName agent → s.receivedBy agent ++ waiting dir s.tree agent = s.sentTo agent

/-- A message that is to be sent goes to a plain file name in the inbox of a plain file name, and
comes after all that wait there. -/
structure InOrder (t : FileTree) (msg : Message F) : Prop where
  distinct : (Value.dict msg).Distinct
  recipient : ∀ agent, msg.lookup "to" = some (.str agent) → agent ≠ "" → Path.IsName agent
  fileName : Path.IsName (String.ofList (fileName msg))
  last : ∀ agent, msg.lookup "to" = some (.str agent) → ∀ f ∈ inboxFiles t (inbox dir agent),
    f < inbox dir agent ++ [String.ofList (TeamRegistry.fileName msg)]

/-- All messages of a broadcast are in order when they are sent. -/
def BroadcastInOrder (fromAgent content : String) (stamps : Nat → Stamp) (t : FileTree) (k : Nat) :
    List (Json F) → Prop
  | [] => True
  | m :: ms =>
    match getItem m "name" with
    | .error _ => True
    | .ok name =>
      if isText name fromAgent then BroadcastInOrder fromAgent content stamps t k ms
      else
        InOrder dir t (stamped (broadcastMessage fromAgent content stamps name k) (stamps k)) ∧
        match sendMessage dir t (broadcastMessage fromAgent content stamps name k) (stamps k) with
        | (.ok _, t) => BroadcastInOrder fromAgent content stamps t (k + 1) ms
        | (.error _, _) => True

/-- What a call sends is in order, and the agent that receives has a plain file name. -/
def Call.InOrder (s : State F) : Call F → Prop
  | .sendMessage msg stamp => TeamRegistry.InOrder dir s.tree (stamped msg stamp)
  | .broadcast fromAgent content stamps =>
    match (listMembers dir s.tree : Except Failure (List (Json F)) × FileTree) with
    | (.ok members, t) => BroadcastInOrder dir fromAgent content stamps t 0 members
    | (.error _, _) => True
  | .receiveMessages agent _ => Path.IsName agent

/-- A call leads from one state to the next. -/
def Step (s : State F) (call : Call F) (t : State F) : Prop := t = call.step dir s

/-- The calls, each with the state that it leads to. -/
def states (s : State F) : List (Call F) → List (Call F × State F)
  | [] => []
  | call :: calls => (call, call.step dir s) :: states (call.step dir s) calls

/-- The directory of a team in which nothing was sent. -/
structure NewTeam (t : FileTree) : Prop where
  sound : t.Sound
  inboxes : ∀ q ∈ Dict.keys t, ¬ dir ++ ["inboxes"] <+: q

/-- Every file of an inbox holds a message. -/
structure Inboxes (t : FileTree) : Prop where
  sound : t.Sound
  message : ∀ agent, Path.IsName agent → ∀ f ∈ t.glob (inbox dir agent) jsonExt,
    ∃ m : Json F, message t f = some m

end

/-- Nothing that lies in a directory has changed. -/
def SameIn (box : Path) (t t' : FileTree) : Prop :=
  ∀ q, q ≠ [] → q.dropLast = box → t'.entry q = t.entry q

/-- Nothing that lies in an inbox has changed. -/
def Unchanged (dir : Path) (t t' : FileTree) : Prop :=
  ∀ agent, Path.IsName agent → SameIn (inbox dir agent) t t'

section
variable {dir : Path} {t t' t'' : FileTree}

theorem inbox_eq {agent : String} (h : Path.IsName agent) :
    inbox dir agent = dir ++ ["inboxes", agent] := by
  rw [inbox, Path.resolve_name _ h, List.append_assoc]
  rfl

theorem inbox_inj {a b : String} (ha : Path.IsName a) (hb : Path.IsName b)
    (h : inbox dir a = inbox dir b) : a = b := by
  rw [inbox_eq ha, inbox_eq hb] at h
  have hl := List.append_cancel_left h
  injection hl with _ hl
  injection hl

theorem inbox_length {agent : String} (h : Path.IsName agent) :
    (inbox dir agent).length = dir.length + 2 := by
  rw [inbox_eq h, List.length_append]
  rfl

theorem Unchanged.refl (t : FileTree) : Unchanged dir t t := fun _ _ _ _ _ => rfl

theorem Unchanged.trans (h : Unchanged dir t t') (h' : Unchanged dir t' t'') :
    Unchanged dir t t'' :=
  fun a ha q hq hd => (h' a ha q hq hd).trans (h a ha q hq hd)

theorem Unchanged.mkdirs {p : Path} (hp : p.length ≤ dir.length + 2)
    (h : t.mkdirs p = .ok t') : Unchanged dir t t' := by
  intro agent ha q hq hd
  obtain ⟨-, -, he⟩ := FileTree.mkdirs_ok h
  rw [he, if_neg]
  apply FileTree.not_prefix_of_length hq
  rw [hd, inbox_length ha]
  exact hp

theorem inboxFiles_lt (h : t.Sound) (box : Path) : (inboxFiles t box).Pairwise (· < ·) := by
  have hle := List.pairwise_insertionSort (· ≤ ·) (t.glob box jsonExt)
  have hne : (inboxFiles t box).Nodup :=
    (List.perm_insertionSort _ _).nodup_iff.2 (FileTree.glob_nodup h.distinct _ _)
  exact (hle.and hne).imp fun h => lt_of_le_of_ne h.1 h.2

theorem mem_inboxFiles {box q : Path} : q ∈ inboxFiles t box ↔ q ∈ t.glob box jsonExt :=
  List.mem_insertionSort _

/-- The files of an inbox are the list of them in which their names increase. -/
theorem inboxFiles_eq (h : t.Sound) {box : Path} {fs : List Path} (hfs : fs.Pairwise (· < ·))
    (hm : ∀ q, q ∈ fs ↔ q ∈ t.glob box jsonExt) : inboxFiles t box = fs := by
  have hlt := inboxFiles_lt h box
  have hperm : (inboxFiles t box).Perm fs :=
    (List.perm_ext_iff_of_nodup (hlt.imp ne_of_lt) (hfs.imp ne_of_lt)).2 fun q => by
      rw [mem_inboxFiles, hm]
  exact hperm.eq_of_pairwise (fun a b _ _ => le_antisymm) (hlt.imp le_of_lt) (hfs.imp le_of_lt)

theorem SameIn.mem_glob {box q : Path} (h : SameIn box t t') :
    q ∈ t'.glob box jsonExt ↔ q ∈ t.glob box jsonExt := by
  rw [FileTree.mem_glob, FileTree.mem_glob]
  constructor
  · rintro ⟨⟨e, he⟩, hq, hd, hx⟩
    exact ⟨⟨e, (h q hq hd).symm.trans he⟩, hq, hd, hx⟩
  · rintro ⟨⟨e, he⟩, hq, hd, hx⟩
    exact ⟨⟨e, (h q hq hd).trans he⟩, hq, hd, hx⟩

theorem SameIn.inboxFiles {box : Path} (h : SameIn box t t') (ht : t.Sound) (ht' : t'.Sound) :
    inboxFiles t' box = TeamRegistry.inboxFiles t box :=
  inboxFiles_eq ht' (inboxFiles_lt ht _) fun q => by rw [mem_inboxFiles, h.mem_glob]

/-- Going to an inbox leaves what lies in all of them. -/
theorem inboxDir_unchanged (hs : t.Sound) {agent : Json F}
    (ha : ∀ a, agent = .str a → Path.IsName a) {r : Except Failure Path}
    (h : inboxDir dir t agent = (r, t')) : t'.Sound ∧ Unchanged dir t t' ∧
      ∀ box, r = .ok box → ∃ a, agent = .str a ∧ box = inbox dir a := by
  have herror {e : Failure} {P : Path → Prop} :
      ∀ box, (Except.error e : Except Failure Path) = .ok box → P box :=
    fun _ h => (nomatch h)
  rw [inboxDir] at h
  split at h
  · cases h
    exact ⟨hs, .refl t, herror⟩
  · rename_i t₁ h₁
    have hs₁ := hs.mkdirs h₁
    have hu₁ : Unchanged dir t t₁ := .mkdirs (Nat.le_add_right ..) h₁
    split at h
    · rename_i a
      split at h
      · cases h
        exact ⟨hs₁, hu₁, herror⟩
      · split at h
        · cases h
          exact ⟨hs₁, hu₁, herror⟩
        · rename_i t₂ h₂
          cases h
          refine ⟨hs₁.mkdirs h₂, hu₁.trans (.mkdirs (inbox_length (ha a rfl)).le h₂), ?_⟩
          rintro box he
          cases he
          exact ⟨a, rfl, rfl⟩
    · cases h
      exact ⟨hs₁, hu₁, herror⟩

/-- What lies in the inboxes when a file is put into one of them. -/
theorem put_inbox {a : String} (ha : Path.IsName a) {n : String} {cs : List Char}
    (h : t.put (inbox dir a ++ [n]) cs = .ok t') {b : String} (hb : Path.IsName b) {q : Path}
    (hq : q ≠ []) (hd : q.dropLast = inbox dir b) :
    t'.entry q = if q = inbox dir a ++ [n] then some (.file cs) else t.entry q := by
  obtain ⟨-, -, -, he⟩ := FileTree.put_ok h
  rw [he]
  by_cases hqp : q = inbox dir a ++ [n]
  · rw [if_pos hqp, if_pos hqp]
  · rw [if_neg hqp, if_neg hqp, if_neg]
    intro hp
    have hpd := (FileTree.prefix_dropLast_iff hqp).2 hp
    rw [List.dropLast_concat] at hpd
    refine FileTree.not_prefix_of_length hq ?_ hpd
    rw [hd, inbox_length ha, inbox_length hb]

theorem stamped_ne_nil (msg : Message F) (stamp : Stamp) : stamped msg stamp ≠ [] := by
  have hset (k : String) (v : Json F) (d : Message F) : Dict.set k v d ≠ [] := by
    intro h
    have hk : k ∈ Dict.keys (Dict.set k v d) := Dict.mem_keys_set.2 (.inl rfl)
    rw [h] at hk
    cases hk
  have hid : (if "request_id" ∈ Dict.keys msg then msg
      else Dict.set "request_id" (.str stamp.id) msg) ≠ [] := by
    split
    · rename_i hm
      rintro rfl
      cases hm
    · exact hset _ _ _
  rw [stamped]
  generalize (if "request_id" ∈ Dict.keys msg then msg
    else Dict.set "request_id" (.str stamp.id) msg) = d at hid
  by_cases hd : "timestamp" ∈ Dict.keys d
  · rw [if_pos hd]
    exact hid
  · rw [if_neg hd]
    exact hset _ _ _

end

section
variable [Builtins F] {dir : Path} {t t' t'' : FileTree} {s : State F}

theorem message_congr {q : Path} (h : t'.entry q = t.entry q) :
    (message t' q : Option (Json F)) = message t q := by
  rw [message, message, loadJson, loadJson, FileTree.readText, FileTree.readText, h]

theorem SameIn.message {box q : Path} (h : SameIn box t t') (hq : q ∈ t.glob box jsonExt) :
    (TeamRegistry.message t' q : Option (Json F)) = TeamRegistry.message t q := by
  obtain ⟨-, hne, hd, -⟩ := FileTree.mem_glob.1 hq
  exact message_congr (h q hne hd)

theorem SameIn.waiting {agent : String} (h : SameIn (inbox dir agent) t t') (ht : t.Sound)
    (ht' : t'.Sound) :
    (waiting dir t' agent : List (Json F)) = TeamRegistry.waiting dir t agent := by
  rw [TeamRegistry.waiting, TeamRegistry.waiting, h.inboxFiles ht ht']
  exact List.filterMap_congr fun q hq => h.message (mem_inboxFiles.1 hq)

theorem Inboxes.unchanged (hi : Inboxes (F := F) dir t) (hs : t'.Sound) (h : Unchanged dir t t') :
    Inboxes (F := F) dir t' := by
  refine ⟨hs, fun agent ha q hq => ?_⟩
  have hq := (h agent ha).mem_glob.1 hq
  rw [(h agent ha).message hq]
  exact hi.message agent ha q hq

/-- What is saved is what is loaded. -/
theorem message_of_content {q : Path} {v : Json F} (hd : v.Distinct) (ht : truthy v = true)
    (h : t.content q = some (dumpsIndent 2 0 v)) : message t q = some v := by
  have hr := FileTree.readText_ok.2 h
  rw [message, loadJson, hr]
  dsimp only
  rw [universalNewlines_dumpsIndent, loads_dumpsIndent, Value.build_of_distinct v hd,
    Option.filter_some, if_pos ht]

/-- A message that is put in order comes last in its inbox, and other inboxes stay as they are. -/
theorem put_inOrder (hi : Inboxes (F := F) dir t) {a n : String} (ha : Path.IsName a) {v : Json F}
    (hv : v.Distinct) (htv : truthy v = true) (hx : jsonExt <:+ n.toList)
    (hlast : ∀ f ∈ inboxFiles t (inbox dir a), f < inbox dir a ++ [n])
    (h : t.put (inbox dir a ++ [n]) (dumpsIndent 2 0 v) = .ok t') :
    Inboxes (F := F) dir t' ∧ ∀ b, Path.IsName b →
      waiting dir t' b = waiting dir t b ++ if b = a then [v] else [] := by
  have hentry {b : String} (hb : Path.IsName b) {q : Path} (hq : q ≠ [])
      (hd : q.dropLast = inbox dir b) := put_inbox ha h hb hq hd
  have hs := hi.sound.put h
  have hother {b : String} (hb : Path.IsName b) (hne : b ≠ a) : SameIn (inbox dir b) t t' := by
    intro q hq hd
    rw [hentry hb hq hd, if_neg]
    rintro rfl
    rw [List.dropLast_concat] at hd
    exact hne (inbox_inj hb ha hd.symm)
  have hnew : (message t' (inbox dir a ++ [n]) : Option (Json F)) = some v := by
    refine message_of_content hv htv ?_
    rw [FileTree.content_put h, if_pos rfl]
  have hmem (q : Path) : q ∈ t'.glob (inbox dir a) jsonExt ↔
      q ∈ t.glob (inbox dir a) jsonExt ∨ q = inbox dir a ++ [n] := by
    rw [FileTree.mem_glob, FileTree.mem_glob]
    constructor
    · rintro ⟨⟨e, he⟩, hq, hd, hx⟩
      rw [hentry ha hq hd] at he
      split at he
      · rename_i hqn
        exact .inr hqn
      · exact .inl ⟨⟨e, he⟩, hq, hd, hx⟩
    · rintro (⟨⟨e, he⟩, hq, hd, hx⟩ | rfl)
      · refine ⟨?_, hq, hd, hx⟩
        rw [hentry ha hq hd]
        split
        · exact ⟨_, rfl⟩
        · exact ⟨e, he⟩
      · have hq : inbox dir a ++ [n] ≠ [] := by simp
        have hd : (inbox dir a ++ [n]).dropLast = inbox dir a := List.dropLast_concat
        refine ⟨⟨.file (dumpsIndent 2 0 v), ?_⟩, hq, hd, by rwa [Path.name_append]⟩
        rw [hentry ha hq hd, if_pos rfl]
  have hold {q : Path} (hq : q ∈ t.glob (inbox dir a) jsonExt) :
      (message t' q : Option (Json F)) = message t q := by
    obtain ⟨-, hne, hd, -⟩ := FileTree.mem_glob.1 hq
    apply message_congr
    rw [hentry ha hne hd, if_neg (hlast q (mem_inboxFiles.2 hq)).ne]
  refine ⟨⟨hs, fun b hb q hq => ?_⟩, fun b hb => ?_⟩
  · by_cases hba : b = a
    · subst hba
      obtain hq | rfl := (hmem q).1 hq
      · rw [hold hq]
        exact hi.message b hb q hq
      · exact ⟨v, hnew⟩
    · have hq := (hother hb hba).mem_glob.1 hq
      rw [(hother hb hba).message hq]
      exact hi.message b hb q hq
  · by_cases hba : b = a
    · subst hba
      have hfiles : inboxFiles t' (inbox dir b) = inboxFiles t (inbox dir b) ++
          [inbox dir b ++ [n]] := by
        refine inboxFiles_eq hs ?_ fun q => ?_
        · refine List.pairwise_append.2 ⟨inboxFiles_lt hi.sound _, List.pairwise_singleton .., ?_⟩
          intro f hf q hq
          rw [List.mem_singleton.1 hq]
          exact hlast f hf
        · rw [List.mem_append, List.mem_singleton, mem_inboxFiles, hmem]
      rw [if_pos rfl, waiting, hfiles, List.filterMap_append, waiting]
      congr 1
      · exact List.filterMap_congr fun q hq => hold (mem_inboxFiles.1 hq)
      · rw [List.filterMap_cons, hnew]
        rfl
    · rw [if_neg hba, List.append_nil]
      exact (hother hb hba).waiting hi.sound hs

end

end Obase.TeamRegistry
