import Gokaf.Group.Theorems.Shares

open Go Protocol
open Assignor (Subscription PartitionCounts)

namespace ConsumerGroup

section Outputs

variable {s s' : State} {a : Step} {o os : List Output}

theorem mem_of_synced? {call : SyncCall} {result : SyncResult} (h : (call, result) ∈ os.filterMap Output.synced?) :
    .synced call result ∈ os := by
  obtain ⟨x, hx, hsynced⟩ := List.mem_filterMap.mp h
  cases x <;> cases hsynced
  exact hx

theorem exists_join_of_joining {call : JoinCall} {metadata : Bytes} (hs : machine.step s a = some (s', o))
    (hmem : .joining call metadata ∈ o) : ∃ req, a = .join req ∧ metadata = firstProtocolMetadata req.protocols := by
  cases a
  case join req =>
    cases hs
    cases List.mem_singleton.mp hmem
    exact ⟨req, rfl, rfl⟩
  case sync =>
    simp only [machine] at hs
    split at hs
    all_goals
      cases hs
      simp at hmem
  case completeJoin =>
    obtain ⟨groupID, _, heq⟩ := Option.map_eq_some_iff.mp hs
    split at heq
    all_goals
      cases heq
      simp at hmem
  case heartbeat | leave | tick =>
    cases hs
    simp at hmem
  all_goals
    obtain ⟨_, _, heq⟩ := Option.map_eq_some_iff.mp hs
    cases heq
    simp at hmem

-- A step completes one generation and begins one `Join` at most.
theorem bounds_of_step (hs : machine.step s a = some (s', o)) :
    (∀ id, (s'.rounds id).epoch ≤ (s.rounds id).epoch + 1) ∧ (o.filterMap Output.joining?).length ≤ 1 := by
  have hnone : (∀ x ∈ o, x.joining? = none) → (o.filterMap Output.joining?).length ≤ 1 := by
    intro h
    rw [List.filterMap_eq_nil_iff.mpr h]
    exact Nat.zero_le 1
  cases joinMoves hs
  case unjoined hu =>
    refine ⟨fun id => ?_, hnone fun x hx => (hu.outputs x hx).right⟩
    rw [hu.epoch]
    exact Nat.le_succ _
  case calls hc ho =>
    refine ⟨fun id => ?_, ?_⟩
    · rw [hc.rounds]
      exact Nat.le_succ _
    · rw [ho]
      exact Nat.le_refl 1
  case completes hrounds ho =>
    refine ⟨fun id => ?_, hnone fun x hx => ?_⟩
    · rw [hrounds, Function.update_apply]
      split
      case isTrue hid => rw [hid]
      case isFalse    => exact Nat.le_succ _
    · obtain ⟨_, _, rfl⟩ := List.mem_map.mp (ho ▸ hx)
      rfl
  case receives hr ho =>
    refine ⟨fun id => ?_, hnone fun x hx => ?_⟩
    · rw [hr.rounds]
      exact Nat.le_succ _
    · obtain ⟨_, _, rfl⟩ := List.mem_map.mp (ho ▸ hx)
      rfl

end Outputs

namespace Clients

variable {s s' : State} {a : Step} {as : List Step} {o os : List Output} {groupID : Bytes} {delay now : Int} {n : Nat}
  {counts : Bytes → PartitionCounts} {fresh : Prop} {label : Nat → JoinCall} {rosters : Rosters}

-- The names that a client subscribes to fit the fields of its metadata.
def Step.Fits : Step → Prop
  | .join _ _ _ _ topics _ => (∀ t ∈ topics, t.length < 2 ^ 15) ∧ topics.length < 2 ^ 31
  | _ => True

instance : DecidablePred Step.Fits := fun _ => by
  unfold Step.Fits
  split <;> infer_instance

structure Inv (counts : Bytes → PartitionCounts) (fresh : Prop) (n : Nat) (s : State) (os : List Output)
    (label : Nat → JoinCall) (rosters : Rosters) : Prop where
  valid    : s.group.Valid
  answered : Answered s.group os label
  rostered : Rostered s.group os label rosters
  shared   : Shared counts fresh s.group os label rosters
  joined   : ∀ x ∈ s.joined, x ∈ joinAnswers os
  epoch    : ∀ id, (s.group.rounds id).epoch ≤ n
  joining  : (os.filterMap Output.joining?).length ≤ n
  decoded  : ∀ call metadata topics, .joining call metadata ∈ os → decodeSubscription metadata = some topics →
    metadata = encodeSubscription topics

-- If shares are to be `fresh`, no leader syncs while a rebalance is prepared.
def Prompt (counts : Bytes → PartitionCounts) (s : State) (a : Step) : Prop :=
  ∀ b ∈ s.request counts a, s.group.Prompt b

instance (counts : Bytes → PartitionCounts) (s : State) : DecidablePred (Prompt counts s) :=
  fun a => inferInstanceAs (Decidable (∀ b ∈ s.request counts a, s.group.Prompt b))

theorem mem_answers {x : JoinCall × JoinResult} : x ∈ answers o ↔ x ∈ joinAnswers o := by
  simp only [answers, joinAnswers, List.mem_flatMap, List.mem_filterMap]
  refine exists_congr fun y => and_congr_right fun _ => ?_
  cases y <;> simp [Output.joined?, eq_comm]

-- The requests of the clients come from clients that have been answered.
theorem comes_of_request {b : ConsumerGroup.Step} (hjoined : ∀ x ∈ s.joined, x ∈ joinAnswers os)
    (h : s.request counts a = some b) : b.Comes counts os := by
  cases b
  case sync req =>
    cases a
    case join => cases Option.some.inj h
    case sync i =>
      simp only [State.request, Option.bind_eq_bind, Option.bind_eq_some_iff] at h
      obtain ⟨x, hx, assignments, hassign, heq⟩ := h
      cases heq
      exact ⟨x, hjoined x (List.mem_of_getElem? hx), rfl, rfl, rfl, hassign⟩
    case serve a => cases a <;> cases h
  all_goals trivial

-- Metadata that the leader can decode is that of a client, and it decodes to the topics of the client.
theorem decoded_of_request {b : ConsumerGroup.Step} {group group' : ConsumerGroup.State} {call : JoinCall}
    {metadata : Bytes} {topics : List Bytes} (hfits : a.Fits) (h : s.request counts a = some b)
    (hs : ConsumerGroup.machine.step group b = some (group', o)) (hmem : .joining call metadata ∈ o)
    (hdecode : decodeSubscription metadata = some topics) : metadata = encodeSubscription topics := by
  obtain ⟨req, rfl, rfl⟩ := exists_join_of_joining hs hmem
  cases a
  case join groupID clientID memberID sessionTimeoutMS topics' protocols =>
    cases Option.some.inj h
    cases protocols
    case nil       => cases hdecode
    case cons name =>
      have hdecode' := decodeSubscription_encodeSubscription hfits.left hfits.right
      rw [Option.some.inj (hdecode.symm.trans hdecode')]
      rfl
  case sync i =>
    simp only [State.request, Option.bind_eq_bind, Option.bind_eq_some_iff] at h
    obtain ⟨_, _, _, _, heq⟩ := h
    cases heq
  case serve a => cases a <;> cases h

theorem inductive_inv (counts : Bytes → PartitionCounts) (fresh : Prop) :
    (machine counts).InductiveUpTo (fun s a => a.Fits ∧ (fresh → Prompt counts s a)) (2 ^ 31 - 1)
      fun n s os => ∃ label rosters, Inv counts fresh n s os label rosters where
  step {n s a s' o os} hn hinv hc hs := by
    obtain ⟨label, rosters, h⟩ := hinv
    obtain ⟨b, hb, hadvance⟩ := Option.bind_eq_some_iff.mp hs
    obtain ⟨⟨group, o'⟩, hstep, heq⟩ := Option.map_eq_some_iff.mp hadvance
    cases heq
    obtain ⟨label', rosters', ha', hr', hlabel, hrosters⟩ := h.rostered.step h.answered h.valid hstep
    obtain ⟨hepoch, hjoining⟩ := bounds_of_step hstep
    have hlt : ∀ id, (s.group.rounds id).epoch < 2 ^ 31 := by
      intro id
      have := h.epoch id
      omega
    have hshared := h.shared.step h.answered h.rostered hlabel hrosters hstep (comes_of_request h.joined hb)
      (fun hfresh => hc.right hfresh b hb) hlt ha' hr'
    have hnil : Output.panicked ∉ ([] : List Output) := List.not_mem_nil
    obtain ⟨hvalid, _⟩ := ConsumerGroup.State.inductive_valid.step ⟨h.valid, hnil⟩ trivial hstep
    refine ⟨label', rosters', hvalid, ha', hr', hshared, fun x hx => ?_, fun id => ?_, ?_,
      fun call metadata topics hmem hdecode => ?_⟩
    · rw [joinAnswers_append, List.mem_append]
      exact (List.mem_append.mp hx).imp (h.joined x) mem_answers.mp
    · exact (hepoch id).trans (Nat.add_le_add_right (h.epoch id) 1)
    · rw [List.filterMap_append, List.length_append]
      exact Nat.add_le_add h.joining hjoining
    · cases List.mem_append.mp hmem
      case inl hold => exact h.decoded call metadata topics hold hdecode
      case inr hnew => exact decoded_of_request hc.left hb hstep hnew hdecode

theorem Inv.init (counts : Bytes → PartitionCounts) (fresh : Prop) (delay now : Int) :
    ∃ label rosters, Inv counts fresh 0 (.init delay now) [] label rosters :=
  ⟨_, _, .init delay now, .init delay now, .init delay now, .init counts fresh delay now,
    by simp [State.init], fun _ => Nat.le_refl 0, Nat.le_refl 0, by simp⟩

-- Every partition of the topics is handed out once among the members of the generation, with the topics that they
-- have joined with. These members are the ones that the leader was told, and all who were answered are among them.
structure Divides (os : List Output) (groupID : Bytes) (epoch : Nat) (partitionCounts : PartitionCounts)
    (assignments : Assignments) (members : List JoinMember) (subs : List Subscription)
    (assigned : Assignor.Assignments) : Prop where
  leader : ∃ call result, .joined call result ∈ os ∧ call.groupID = groupID ∧ call.since + 1 = epoch ∧
    result.memberID = result.leaderID ∧ result.members = members
  told   : ∀ call result, .joined call result ∈ os → call.groupID = groupID → call.since + 1 = epoch →
    result.memberID ∈ members.map (·.id)
  nodup  : (members.map (·.id)).Nodup
  ids    : subs.map (·.memberID) = members.map (·.id)
  joined : ∀ sub ∈ subs, ∃ call, .joining call (encodeSubscription sub.topics) ∈ os ∧
    call.caller = (groupID, sub.memberID)
  exact  : Assignor.Exact subs partitionCounts assigned
  decode : ∀ id, ∃ share, Assignor.decodeAssignment (given assignments id) = .ok share ∧
    Assignor.flat share = Assignor.held assigned id

namespace Inv

variable {epoch : Nat} {assignments : Assignments}

theorem length_le (h : Inv counts fresh n s os label rosters) (hepoch : epoch ≤ (s.group.rounds groupID).epoch) :
    (rosters groupID epoch).members.length ≤ n := by
  have hsub : (rosters groupID epoch).members.map (·.id) ⊆ (os.filterMap Output.joining?).map (·.fst.snd) := by
    intro id hid
    obtain ⟨x, hx, rfl⟩ := List.mem_map.mp hid
    obtain ⟨call, hmem, hcaller⟩ := h.rostered.metadata groupID epoch hepoch x hx
    exact List.mem_map.mpr ⟨_, List.mem_filterMap.mpr ⟨_, hmem, rfl⟩, congrArg (·.snd) hcaller⟩
  have hle := ((h.rostered.nodup groupID epoch hepoch).subperm hsub).length_le
  rw [List.length_map, List.length_map] at hle
  exact hle.trans h.joining

theorem exists_divides (h : Inv counts fresh n s os label rosters) (hfit : (counts groupID).Fit) (hn : n < 2 ^ 31)
    (hmem : .distributed groupID epoch assignments ∈ os) :
    ∃ members subs assigned, Divides os groupID epoch (counts groupID) assignments members subs assigned := by
  obtain ⟨hepoch, hplan, ⟨leaderCall, leaderResult⟩, hleader, hgroup, hsince, hself⟩ :=
    h.shared.distributed groupID epoch assignments hmem
  have hids := h.rostered.nodup groupID epoch hepoch
  have hlen := (h.length_le hepoch).trans hn.le
  obtain ⟨subs, assigned, hp⟩ := exists_plan hfit hids hlen hplan
  refine ⟨_, subs, assigned, ?_, fun call result hjoined hgroup hsince => ?_, hids, hp.ids, fun sub hsub => ?_,
    hp.exact, hp.decode⟩
  · obtain ⟨hanswer, _⟩ := h.rostered.joined _ hleader
    refine ⟨leaderCall, leaderResult, mem_joinAnswers.mp hleader, hgroup, hsince, ?_⟩
    dsimp only at hanswer hgroup hsince hself
    rw [hanswer, Rosters.answerTo, Roster.answer, hgroup, hsince, if_pos hself]
    exact ⟨hself, rfl⟩
  · obtain ⟨hanswer, hlisted⟩ := h.rostered.joined (call, result) (mem_joinAnswers.mpr hjoined)
    dsimp only at hanswer hlisted
    rw [hgroup, hsince] at hlisted
    rw [hanswer]
    exact hlisted
  · obtain ⟨x, hx, hid, htopics⟩ := hp.topics sub hsub
    obtain ⟨call, hjoining, hcaller⟩ := h.rostered.metadata groupID epoch hepoch x hx
    refine ⟨call, ?_, hid ▸ hcaller⟩
    rwa [h.decoded call x.metadata sub.topics hjoining htopics] at hjoining

end Inv

def sampleCounts (_ : Bytes) : PartitionCounts :=
  AList.insert [116] 3 ∅

theorem fit_sampleCounts (id : Bytes) : (sampleCounts id).Fit where
  topics topic n h := by
    by_cases ht : topic = [116]
    case pos =>
      subst ht
      cases h
      decide
    case neg =>
      rw [sampleCounts, AList.lookup_insert_ne ht] at h
      contradiction
  length := (by decide : 1 < 2 ^ 31)

def sampleClient (memberID : Bytes) : Step :=
  .join sampleGroup [] memberID 60000 [[116]] [[114, 97, 110, 103, 101]]

-- The follower waits for the leader.
def firstShares : List Step := [
  sampleClient [97], sampleClient [98], .serve (.receiveJoin 0), .serve (.receiveJoin 0), .serve (.tick 3000000000),
  .serve (.fireJoinTimer 0), .serve (.completeJoin 0), .sync 1, .serve (.receiveSync 0), .sync 0
]

-- Partitions 0 and 1, and partition 2.
def sampleShares : List Bytes := [
  [0, 0, 0, 0, 0, 1, 0, 1, 116, 0, 0, 0, 2, 0, 0, 0, 0, 0, 0, 0, 1, 255, 255, 255, 255],
  [0, 0, 0, 0, 0, 1, 0, 1, 116, 0, 0, 0, 1, 0, 0, 0, 2, 255, 255, 255, 255]
]

-- If no leader is late, a client is never told what it had in an earlier generation.
theorem synced_fresh (hfits : ∀ a ∈ as, a.Fits) (hlen : as.length < 2 ^ 31)
    (hprompt : (machine counts).Along (Prompt counts) (.init delay now) as)
    (hr : (machine counts).run (.init delay now) as = some (s, os)) {call : SyncCall} {result : SyncResult}
    (hmem : .synced call result ∈ os) (hnone : result.errorCode = .none) :
    ∃ epoch assignments, call.epoch ≤ epoch ∧ .distributed call.groupID epoch assignments ∈ os ∧
      result.assignment = given assignments call.memberID := by
  have hc : (machine counts).Along (fun s a => a.Fits ∧ (True → Prompt counts s a)) (.init delay now) as :=
    ((Machine.along_of_forall hfits _).and hprompt).mono fun _ _ h => ⟨h.left, fun _ => h.right⟩
  obtain ⟨label, rosters, h⟩ := (inductive_inv counts True).run_nil (Inv.init counts True delay now) (by omega) hc hr
  obtain ⟨epoch, ⟨assignments, hmem, heq⟩, hle⟩ := h.shared.delivers.synced call result hmem hnone
  exact ⟨epoch, assignments, hle trivial, hmem, heq⟩

def secondShares : List Step := firstShares ++ [
  sampleClient [98], .serve (.receiveJoin 0), sampleClient [97], .serve (.receiveJoin 0), .serve (.tick 3000000000),
  .serve (.fireJoinTimer 1), .serve (.completeJoin 0), .sync 3, .serve (.receiveSync 0), .sync 2
]

theorem synced_fresh_again :
    ∃ s os, (machine sampleCounts).run (.init 3000000000 0) secondShares = some (s, os) ∧
      ∃ call result, call.epoch = 2 ∧ .synced call result ∈ os ∧
        ∃ epoch assignments, call.epoch ≤ epoch ∧ .distributed call.groupID epoch assignments ∈ os ∧
          result.assignment = given assignments call.memberID := by
  have hrun : ((machine sampleCounts).run (.init 3000000000 0) secondShares).map (fun r =>
      (r.snd.filterMap Output.synced?)[3]?) =
      some (some (⟨sampleGroup, [98], 2⟩, ⟨sampleShares[1], .none⟩)) := by decide +kernel
  obtain ⟨⟨s, os⟩, hs, hos⟩ := Option.map_eq_some_iff.mp hrun
  have hmem : .synced ⟨sampleGroup, [98], 2⟩ ⟨sampleShares[1], .none⟩ ∈ os :=
    mem_of_synced? (List.mem_of_getElem? hos)
  have hprompt : (machine sampleCounts).Along (Prompt sampleCounts) (.init 3000000000 0) secondShares := by
    decide +kernel
  exact ⟨s, os, hs, _, _, rfl, hmem, synced_fresh (by decide) (by decide) hprompt hs hmem rfl⟩

-- The leader of the first generation syncs when the other client has already joined again. In the second generation,
-- that client gets its share of the first one before anything is handed out.
def lateLeader : List Step := [
  sampleClient [97], sampleClient [98], .serve (.receiveJoin 0), .serve (.receiveJoin 0), .serve (.tick 3000000000),
  .serve (.fireJoinTimer 0), .serve (.completeJoin 0), sampleClient [98], .sync 0, .serve (.receiveJoin 0),
  .serve (.tick 3000000000), .serve (.fireJoinTimer 1), .serve (.completeJoin 0), .sync 2, .serve (.receiveSync 0)
]

example : ¬(machine sampleCounts).Along (Prompt sampleCounts) (.init 3000000000 0) lateLeader ∧
    ((machine sampleCounts).run (.init 3000000000 0) lateLeader).map (fun r => r.snd.filterMap Output.synced?) =
      some [(⟨sampleGroup, [97], 1⟩, ⟨sampleShares[0], .none⟩),
        (⟨sampleGroup, [98], 2⟩, ⟨sampleShares[1], .none⟩)] := by
  decide +kernel

end Clients
end ConsumerGroup
