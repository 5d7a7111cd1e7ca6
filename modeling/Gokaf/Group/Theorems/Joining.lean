import Gokaf.Group.Theorems.Orphans
import Gokaf.Group.Theorems.Transitions

open Go Protocol

namespace ConsumerGroup

variable {s s' : State} {a : Step} {o os : List Output} {groupID memberID : Bytes}

def Output.joined? : Output → Option (JoinCall × JoinResult)
  | .joined call result => some (call, result)
  | _ => none

def Output.joining? : Output → Option ((Bytes × Bytes) × Bytes)
  | .joining call metadata => some (call.caller, metadata)
  | _ => none

-- All answers to `Join` calls.
def joinAnswers (os : List Output) : List (JoinCall × JoinResult) :=
  os.filterMap Output.joined?

-- The metadata of a member's latest `Join`.
def latestMetadata (os : List Output) (x : Bytes × Bytes) : Option Bytes :=
  (os.filterMap Output.joining?).reverse.lookup x

theorem mem_joinAnswers {os : List Output} {x : JoinCall × JoinResult} :
    x ∈ joinAnswers os ↔ .joined x.fst x.snd ∈ os := by
  rw [joinAnswers, List.mem_filterMap]
  refine ⟨fun ⟨y, hy, hx⟩ => ?_, fun h => ⟨_, h, rfl⟩⟩
  cases y
  case joined =>
    cases hx
    exact hy
  all_goals contradiction

@[simp]
theorem joinAnswers_append (os o : List Output) : joinAnswers (os ++ o) = joinAnswers os ++ joinAnswers o :=
  List.filterMap_append ..

theorem joinAnswers_map (delivered : List (JoinCall × JoinResult)) :
    joinAnswers (delivered.map fun (call, result) => .joined call result) = delivered := by
  rw [joinAnswers, List.filterMap_map]
  exact List.filterMap_some

theorem latestMetadata_append (h : ∀ x ∈ o, x.joining? = none) : latestMetadata (os ++ o) = latestMetadata os := by
  funext x
  rw [latestMetadata, List.filterMap_append, List.filterMap_eq_nil_iff.mpr h, List.append_nil, latestMetadata]

theorem latestMetadata_append_joining (os : List Output) (call : JoinCall) (metadata : Bytes) :
    latestMetadata (os ++ [.joining call metadata]) =
      Function.update (latestMetadata os) call.caller (some metadata) := by
  funext x
  rw [latestMetadata, List.filterMap_append, List.reverse_append, Function.update_apply]
  split
  case isTrue heq  => simp [heq, Output.joining?]
  case isFalse hne => simp [Output.joining?, List.lookup_cons, beq_eq_false_iff_ne.mpr hne, latestMetadata]

theorem mem_of_latestMetadata {x : Bytes × Bytes} {metadata : Bytes} (h : latestMetadata os x = some metadata) :
    ∃ call, .joining call metadata ∈ os ∧ call.caller = x := by
  have hmem : (x, metadata) ∈ os.filterMap Output.joining? := by
    obtain ⟨l, l', heq, _⟩ := List.lookup_eq_some_iff.mp h
    exact List.mem_reverse.mp (heq ▸ List.mem_append_right l List.mem_cons_self)
  obtain ⟨y, hy, heq⟩ := List.mem_filterMap.mp hmem
  unfold Output.joining? at heq
  split at heq
  case h_1 call metadata' =>
    cases heq
    exact ⟨call, hy, rfl⟩
  case h_2 => contradiction

-- An output that has nothing to do with `Join` calls.
def Output.IsApart (x : Output) : Prop :=
  x.joined? = none ∧ x.joining? = none

theorem Output.IsQuiet.isApart {x : Output} (h : x.IsQuiet) : x.IsApart := by
  cases x
  all_goals first | exact ⟨rfl, rfl⟩ | exact h.elim

namespace Coordinator

variable {c c' : Coordinator} {g g' : Group}

def leaderID (c : Coordinator) (groupID : Bytes) : Bytes :=
  ((c.groups.lookup groupID).map (·.leaderID)).getD []

theorem leaderID_eq (hg : c.groups.lookup groupID = some g) : c.leaderID groupID = g.leaderID := by
  simp [leaderID, hg]

theorem leaderID_of_ne {id : Bytes} (h : c'.groups = c.groups.insert groupID g') (hid : id ≠ groupID) :
    c'.leaderID id = c.leaderID id := by
  simp only [leaderID, h, AList.lookup_insert_ne hid]

theorem Joins.leaderID_eq {req : JoinRequest} {now : Int} (h : Joins c now req c' memberID g') :
    g'.leaderID = c.leaderID req.groupID := by
  rw [h.group]
  simp only [joinedGroup, getOrCreateGroup, leaderID]
  cases c.groups.lookup req.groupID <;> rfl

theorem memberIDFor_ne_nil (c : Coordinator) (req : JoinRequest) : c.memberIDFor req ≠ [] := by
  unfold memberIDFor
  split
  case isTrue      => simp [nextMemberID]
  case isFalse hne => exact hne

end Coordinator

namespace State

-- Nothing happens to `Join` calls, and nobody becomes the leader of a group.
structure Unjoined (s s' : State) (o : List Output) : Prop where
  member      : ∀ x m', s'.coordinator.member? x = some m' → ∃ m, s.coordinator.member? x = some m ∧ m'.card = m.card
  leader      : ∀ id, s'.coordinator.leaderID id = [] ∨ s'.coordinator.leaderID id = s.coordinator.leaderID id
  generation  : ∀ id, s'.coordinator.generationID id = s.coordinator.generationID id
  epoch       : ∀ id, (s'.rounds id).epoch = (s.rounds id).epoch
  joins       : s'.joins = s.joins
  readyJoins  : s'.readyJoins = s.readyJoins
  nextChannel : s'.coordinator.runtime.nextChannel = s.coordinator.runtime.nextChannel
  outputs     : ∀ x ∈ o, x.IsApart

-- A member makes a `Join` call, which takes the next channel.
structure Calls (s s' : State) (call : JoinCall) (metadata : Bytes) : Prop where
  channel     : call.channel = s.coordinator.runtime.nextChannel
  since       : call.since = (s.rounds call.groupID).epoch
  named       : call.memberID ≠ []
  member      : ∀ x m, s'.coordinator.member? x = some m →
    x = call.caller ∧ m.card = (s.coordinator.runtime.nextChannel, s.coordinator.runtime.nextChannel, metadata) ∨
      x ≠ call.caller ∧ s.coordinator.member? x = some m
  leader      : ∀ id, s'.coordinator.leaderID id = s.coordinator.leaderID id
  generation  : ∀ id, s'.coordinator.generationID id = s.coordinator.generationID id
  rounds      : s'.rounds = s.rounds
  joins       : s'.joins = s.joins
  readyJoins  : s'.readyJoins = s.readyJoins ++ [call]
  nextChannel : s'.coordinator.runtime.nextChannel = s.coordinator.runtime.nextChannel + 1

-- A call receives from its channel.
structure Receives (s s' : State) (call : JoinCall) : Prop where
  coordinator : s'.coordinator = { s.coordinator with runtime := { s.coordinator.runtime with
    joins := Function.update s.joins call.channel ((s.joins call.channel).receive call).fst } }
  rounds      : s'.rounds = s.rounds
  readyJoins  : s.readyJoins.Perm (call :: s'.readyJoins)

namespace Unjoined

-- The groups stay the same up to the session timers.
theorem touched (hgroups : s.coordinator.groups.Rel (fun _ => Group.Touched) s'.coordinator.groups)
    (hrounds : s'.rounds = s.rounds) (hjoins : s'.joins = s.joins) (hready : s'.readyJoins = s.readyJoins)
    (hnext : s'.coordinator.runtime.nextChannel = s.coordinator.runtime.nextChannel) (ho : ∀ x ∈ o, x.IsApart) :
    s.Unjoined s' o where
  member _ _  := (Coordinator.Like.touched hgroups).member?_eq_some
  leader id   := by
    rw [Coordinator.leaderID, hgroups.map_lookup fun _ _ _ htouched => by rw [htouched.eq]]
    exact .inr rfl
  generation  := Coordinator.generationID_of_touched hgroups
  epoch _     := by rw [hrounds]
  joins       := hjoins
  readyJoins  := hready
  nextChannel := hnext
  outputs     := ho

-- One group is replaced.
theorem insert {g g' : Group} (hg : s.coordinator.groups.lookup groupID = some g)
    (hgroups : s'.coordinator.groups = s.coordinator.groups.insert groupID g')
    (hmember : ∀ x m', s'.coordinator.member? x = some m' → ∃ m, s.coordinator.member? x = some m ∧ m'.card = m.card)
    (hleader : g'.leaderID = [] ∨ g'.leaderID = g.leaderID) (hgen : g'.generationID = g.generationID)
    (hepoch : ∀ id, (s'.rounds id).epoch = (s.rounds id).epoch) (hjoins : s'.joins = s.joins)
    (hready : s'.readyJoins = s.readyJoins)
    (hnext : s'.coordinator.runtime.nextChannel = s.coordinator.runtime.nextChannel) (ho : ∀ x ∈ o, x.IsApart) :
    s.Unjoined s' o where
  member      := hmember
  leader id   := by
    by_cases hid : id = groupID
    case pos =>
      rw [hid, Coordinator.leaderID_eq (Coordinator.lookup_insert_self hgroups), Coordinator.leaderID_eq hg]
      exact hleader
    case neg => exact .inr (Coordinator.leaderID_of_ne hgroups hid)
  generation  := Coordinator.generationID_of_insert hgroups (hgen.trans (Coordinator.generationID_eq hg).symm)
  epoch       := hepoch
  joins       := hjoins
  readyJoins  := hready
  nextChannel := hnext
  outputs     := ho

theorem evicts {g g' : Group} (he : s.coordinator.Evicts s.now groupID memberID g g' s'.coordinator)
    (hready : s'.readyJoins = s.readyJoins) (hrounds : s'.rounds = s.rounds) (ho : ∀ x ∈ o, x.IsApart) :
    s.Unjoined s' o := by
  refine .insert he.lookup he.groups (fun x m' hm' => ?_) (he.leader.imp_right And.left) he.generationID
    (fun _ => by rw [hrounds]) he.runtime.joins hready he.runtime.nextChannel ho
  rw [he.member?_eq, Function.update_apply] at hm'
  split at hm'
  case isTrue  => contradiction
  case isFalse => exact ⟨m', hm', rfl⟩

end Unjoined

theorem Calls.of_joins {req : JoinRequest} {g' : Group} {call : JoinCall}
    (hj : s.coordinator.Joins s.now req s'.coordinator memberID g')
    (hcall : call = ⟨s.coordinator.runtime.nextChannel, req.groupID, memberID, (s.rounds req.groupID).epoch⟩)
    (hready : s'.readyJoins = s.readyJoins ++ [call]) (hrounds : s'.rounds = s.rounds) :
    s.Calls s' call (firstProtocolMetadata req.protocols) := by
  subst hcall
  refine ⟨rfl, rfl, ?_, fun x m hm => ?_, fun id => ?_, ?_, hrounds, hj.runtime.joins, hready, hj.nextChannel⟩
  · rw [hj.memberID_eq]
    exact s.coordinator.memberIDFor_ne_nil req
  · rw [hj.member?_eq, Function.update_apply] at hm
    split at hm
    case isTrue hx =>
      cases hm
      exact .inl ⟨hx, rfl⟩
    case isFalse hx => exact .inr ⟨hx, hm⟩
  · by_cases hid : id = req.groupID
    case pos => rw [hid, Coordinator.leaderID_eq (Coordinator.lookup_insert_self hj.groups), hj.leaderID_eq]
    case neg => exact Coordinator.leaderID_of_ne hj.groups hid
  · exact Coordinator.generationID_of_insert hj.groups hj.generationID_eq

namespace Receives

variable {call : JoinCall}

theorem joins (h : s.Receives s' call) :
    s'.joins = Function.update s.joins call.channel ((s.joins call.channel).receive call).fst := by
  rw [State.joins, h.coordinator]

theorem nextChannel (h : s.Receives s' call) :
    s'.coordinator.runtime.nextChannel = s.coordinator.runtime.nextChannel := by
  rw [h.coordinator]

theorem member?_eq (h : s.Receives s' call) : s'.coordinator.member? = s.coordinator.member? := by
  rw [h.coordinator]
  rfl

theorem buffer_eq_none (h : s.Receives s' call) : (s'.joins call.channel).buffer = none := by
  rw [h.joins, Function.update_self]
  cases (s.joins call.channel).receive_cases call
  case inl hreceive =>
    obtain ⟨_, _, _, hnone, _⟩ := hreceive
    exact hnone
  case inr hreceive => exact hreceive.right.right.left

theorem waiting (h : s.Receives s' call) : call ∈ (s.joins call.channel).waiting (s.readyJoin call.channel) := by
  refine List.mem_append_right _ (List.mem_filter.mpr ⟨?_, by simp⟩)
  exact h.readyJoins.mem_iff.mpr List.mem_cons_self

theorem readyJoin_self (h : s.Receives s' call) :
    (s.readyJoin call.channel).Perm (call :: s'.readyJoin call.channel) :=
  (h.readyJoins.filter _).trans (.of_eq (List.filter_cons_of_pos (by simp)))

theorem readyJoin_of_ne {channel : Nat} (h : s.Receives s' call) (hne : channel ≠ call.channel) :
    (s.readyJoin channel).Perm (s'.readyJoin channel) :=
  (h.readyJoins.filter _).trans (.of_eq (List.filter_cons_of_neg (by simpa using hne.symm)))

end Receives
end State

-- What a step does to `Join` calls.
inductive JoinMoves (s s' : State) (o : List Output) : Prop
  | unjoined : s.Unjoined s' o → JoinMoves s s' o
  | calls {call : JoinCall} {metadata : Bytes} : s.Calls s' call metadata → o = [.joining call metadata] →
    JoinMoves s s' o
  | completes {groupID : Bytes} {g g' : Group} {leaderMembers : List JoinMember}
      {delivered : List (JoinCall × JoinResult)} :
    s.coordinator.Completes groupID g g' leaderMembers s'.coordinator delivered → s'.readyJoins = s.readyJoins →
    s'.rounds = Function.update s.rounds groupID ⟨(s.rounds groupID).epoch + 1, none⟩ →
    o = delivered.map (fun (call, result) => .joined call result) → JoinMoves s s' o
  | receives {call : JoinCall} : s.Receives s' call →
    o = ((s.joins call.channel).receive call).snd.toList.map (.joined call) → JoinMoves s s' o

theorem joinMoves (hs : machine.step s a = some (s', o)) : JoinMoves s s' o := by
  cases moves hs
  case quiet hsame hquiet =>
    exact .unjoined (.touched hsame.groups hsame.rounds hsame.joins hsame.readyJoins hsame.nextChannel
      fun x hx => (hquiet x hx).isApart)
  case joins hcall hj hready _ hrounds => exact .calls (.of_joins hj hcall hready hrounds) rfl
  case distributes hleads hready _ hrounds =>
    refine .unjoined (.insert hleads.lookup hleads.groups (fun _ _ => (Coordinator.Like.leads hleads).member?_eq_some)
      (.inr (by rw [hleads.eq])) (by rw [hleads.eq]) (fun id => ?_) hleads.runtime.joins hready
      hleads.runtime.nextChannel fun x hx => ?_)
    · rw [hrounds, Function.update_apply]
      split
      case isTrue hid => rw [hid]
      case isFalse    => rfl
    · simp only [List.mem_cons, List.mem_map] at hx
      rcases hx with rfl | rfl | ⟨_, _, rfl⟩
      all_goals exact ⟨rfl, rfl⟩
  case answers hsame =>
    exact .unjoined (.touched hsame.groups hsame.rounds hsame.joins hsame.readyJoins hsame.nextChannel
      (List.forall_mem_singleton.mpr ⟨rfl, rfl⟩))
  case waits ht hready _ hrounds =>
    exact .unjoined (.touched ht.groups hrounds ht.runtime.joins hready ht.runtime.nextChannel (by simp))
  case evicts he hready _ hrounds hquiet =>
    exact .unjoined (.evicts he hready hrounds fun x hx => (hquiet x hx).isApart)
  case completes hcompletes hready _ hrounds => exact .completes hcompletes hready hrounds rfl
  case receivesJoin hi => exact .receives ⟨rfl, rfl, perm_cons_eraseIdx hi⟩ rfl
  case receivesSync =>
    refine .unjoined (.touched (.refl (fun _ => Group.Touched.refl) _) rfl rfl rfl rfl fun x hx => ?_)
    obtain ⟨_, _, heq⟩ := List.mem_map.mp hx
    exact heq ▸ ⟨rfl, rfl⟩

end ConsumerGroup
