import Gokaf.Assignor.Theorems.Exact
import Gokaf.Group.Clients
import Gokaf.Group.Theorems.Assignments

open Go Protocol
open Assignor (Subscription PartitionCounts)

namespace ConsumerGroup.Clients

variable {members : List JoinMember} {subs : List Subscription} {partitionCounts : PartitionCounts}
  {protocolName id : Bytes} {assignments : Assignments} {assigned : Assignor.Assignments}

theorem reads_readBytes_none : Reads readBytes (writeInt32 (-1)) none := by
  intro rest
  rw [readBytes, (reads_of_isInt32 (by decide)).run_bind]
  rfl

theorem decodeSubscription_encodeSubscription {topics : List Bytes} (h : ∀ t ∈ topics, t.length < 2 ^ 15)
    (hlen : topics.length < 2 ^ 31) : decodeSubscription (encodeSubscription topics) = some topics := by
  have hread : Reads readSubscription (encodeSubscription topics) topics := by
    rw [encodeSubscription, List.append_assoc, List.append_assoc]
    refine (reads_readInt16 0).bind ((reads_readArrayLen_of_lt hlen).bind
      ((reads_makeSlice (Int.natCast_nonneg _)).bind ((reads_forRange fun t ht => reads_readString (h t ht)).bind ?_)))
    exact reads_readBytes_none.bind_pure fun _ => topics
  have hrun := hread []
  rw [List.append_nil] at hrun
  rw [decodeSubscription, hrun]

theorem map_memberID_of_subscriptions (h : subscriptions members = some subs) :
    subs.map (·.memberID) = members.map (·.id) := by
  induction members generalizing subs
  case nil =>
    cases h
    rfl
  case cons member members hi =>
    simp only [subscriptions, Option.bind_eq_bind, Option.bind_eq_some_iff] at h
    obtain ⟨topics, _, subs', hsubs, heq⟩ := h
    cases heq
    rw [List.map_cons, List.map_cons, hi hsubs]

theorem exists_of_mem_subscriptions {sub : Subscription} (h : subscriptions members = some subs) (hsub : sub ∈ subs) :
    ∃ x ∈ members, x.id = sub.memberID ∧ decodeSubscription x.metadata = some sub.topics := by
  induction members generalizing subs
  case nil =>
    cases h
    contradiction
  case cons member members hi =>
    simp only [subscriptions, Option.bind_eq_bind, Option.bind_eq_some_iff] at h
    obtain ⟨topics, htopics, subs', hsubs, heq⟩ := h
    cases heq
    cases List.mem_cons.mp hsub
    case inl heq =>
      subst heq
      exact ⟨member, List.mem_cons_self, rfl, htopics⟩
    case inr hmem =>
      obtain ⟨x, hx, hid, htopics⟩ := hi hsubs hmem
      exact ⟨x, List.mem_cons_of_mem _ hx, hid, htopics⟩

theorem lookup_foldl_insert (f : Bytes → Bytes) (members : List JoinMember) (assignments : Assignments) (id : Bytes) :
    (members.foldl (fun assignments member => assignments.insert member.id (f member.id)) assignments).lookup id =
      if id ∈ members.map (·.id) then some (f id) else assignments.lookup id := by
  induction members generalizing assignments
  case nil => rfl
  case cons member members hi =>
    rw [List.foldl_cons, hi]
    by_cases hid : id = member.id
    case pos =>
      subst hid
      simp
    case neg => simp [hid, AList.lookup_insert_ne hid]

theorem given_of_buildAssignments (h : buildAssignments members protocolName partitionCounts = some assignments) :
    ∃ subs assigned, subscriptions members = some subs ∧ assign protocolName subs partitionCounts = some assigned ∧
      ∀ id, given assignments id =
        if id ∈ members.map (·.id) then Assignor.encodeAssignment (assigned.get id) else [] := by
  simp only [buildAssignments, Option.bind_eq_bind, Option.bind_eq_some_iff] at h
  obtain ⟨subs, hsubs, assigned, hassigned, heq⟩ := h
  refine ⟨subs, assigned, hsubs, hassigned, fun id => ?_⟩
  cases heq
  rw [given, lookup_foldl_insert fun id => Assignor.encodeAssignment (assigned.get id)]
  split
  case isTrue  => rfl
  case isFalse => rfl

theorem mem_buildAssignments (h : buildAssignments members protocolName partitionCounts = some assignments) :
    id ∈ assignments ↔ id ∈ members.map (·.id) := by
  simp only [buildAssignments, Option.bind_eq_bind, Option.bind_eq_some_iff] at h
  obtain ⟨subs, _, assigned, _, heq⟩ := h
  cases heq
  rw [← AList.lookup_isSome, lookup_foldl_insert fun id => Assignor.encodeAssignment (assigned.get id)]
  split
  case isTrue hid  => simp [hid]
  case isFalse hid => simp [hid]

theorem exact_of_assign (hfit : partitionCounts.Fit) (hids : (subs.map (·.memberID)).Nodup)
    (hlen : subs.length ≤ 2 ^ 31) (h : assign protocolName subs partitionCounts = some assigned) :
    Assignor.Exact subs partitionCounts assigned ∧
      ∀ m, Assignor.decodeAssignment (Assignor.encodeAssignment (assigned.get m)) = .ok (assigned.get m) := by
  unfold assign at h
  split at h
  case isTrue =>
    cases hrange : Assignor.range subs partitionCounts
    case error =>
      rw [hrange] at h
      contradiction
    case ok =>
      rw [hrange] at h
      cases h
      exact Assignor.exact_of_range hfit hids hlen hrange
  case isFalse =>
    split at h
    case isTrue =>
      cases h
      exact Assignor.exact_of_roundRobin hfit hids
    case isFalse => contradiction

-- What the leader hands out: the shares of all members.
structure Plan (members : List JoinMember) (partitionCounts : PartitionCounts) (assignments : Assignments)
    (subs : List Subscription) (assigned : Assignor.Assignments) : Prop where
  ids    : subs.map (·.memberID) = members.map (·.id)
  topics : ∀ sub ∈ subs, ∃ x ∈ members, x.id = sub.memberID ∧ decodeSubscription x.metadata = some sub.topics
  exact  : Assignor.Exact subs partitionCounts assigned
  decode : ∀ id, ∃ share, Assignor.decodeAssignment (given assignments id) = .ok share ∧
    Assignor.flat share = Assignor.held assigned id

theorem exists_plan (hfit : partitionCounts.Fit) (hids : (members.map (·.id)).Nodup) (hlen : members.length ≤ 2 ^ 31)
    (h : buildAssignments members protocolName partitionCounts = some assignments) :
    ∃ subs assigned, Plan members partitionCounts assignments subs assigned := by
  obtain ⟨subs, assigned, hsubs, hassign, hgiven⟩ := given_of_buildAssignments h
  have hmap := map_memberID_of_subscriptions hsubs
  have hlen' : subs.length ≤ 2 ^ 31 := by
    rw [← List.length_map (fun s : Subscription => s.memberID), hmap, List.length_map]
    exact hlen
  obtain ⟨hexact, hdecode⟩ := exact_of_assign hfit (hmap ▸ hids) hlen' hassign
  refine ⟨subs, assigned, hmap, fun sub => exists_of_mem_subscriptions hsubs, hexact, fun id => ?_⟩
  rw [hgiven]
  split
  case isTrue => exact ⟨_, hdecode id, rfl⟩
  case isFalse hid =>
    refine ⟨[], rfl, (List.eq_nil_iff_forall_not_mem.mpr fun x hx => hid ?_).symm⟩
    rw [← hmap]
    exact (hexact.within id x hx).left

end ConsumerGroup.Clients
