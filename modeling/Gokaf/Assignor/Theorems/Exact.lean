import Gokaf.Assignor.Theorems.Codec
import Gokaf.Assignor.Theorems.Range
import Gokaf.Assignor.Theorems.RoundRobin

open Go

namespace Assignor

-- The topic partitions are shared out among the members, those without a subscriber maybe left out.
structure Exact (subs : List Subscription) (partitionCounts : PartitionCounts) (assignments : Assignments) : Prop where
  disjoint : ∀ m m' x, x ∈ held assignments m → x ∈ held assignments m' → m = m'
  complete : ∀ x, Exists partitionCounts x → (∃ m, Subscribes subs m x.fst) →
    ∃ m ∈ subs.map (·.memberID), x ∈ held assignments m
  within   : ∀ m, ∀ x ∈ held assignments m, m ∈ subs.map (·.memberID) ∧ Exists partitionCounts x

-- The names and the numbers fit the fields of an assignment.
structure PartitionCounts.Fit (partitionCounts : PartitionCounts) : Prop where
  topics : ∀ topic n, partitionCounts.lookup topic = some n → topic.length < 2 ^ 15 ∧ 0 ≤ n ∧ n < 2 ^ 31
  length : partitionCounts.keys.length < 2 ^ 31

variable {subs : List Subscription} {partitionCounts : PartitionCounts} {assignments : Assignments} {m topic : Bytes}
  {a : TopicPartitions} {p n : Int}

theorem mem_held : (topic, p) ∈ held assignments m ↔ p ∈ given assignments topic m := by
  simp only [held, flat, given, List.mem_flatMap, List.mem_map, Prod.mk.injEq, List.mem_filter, decide_eq_true_eq]
  constructor
  · rintro ⟨a, ha, p, hp, rfl, rfl⟩
    exact ⟨a, ⟨ha, rfl⟩, hp⟩
  · rintro ⟨a, ⟨ha, rfl⟩, hp⟩
    exact ⟨a, ha, p, hp, rfl, rfl⟩

theorem RangeCover.within (h : RangeCover subs partitionCounts assignments) :
    ∀ x ∈ held assignments m, Subscribes subs m x.fst ∧ Exists partitionCounts x := by
  rintro ⟨topic, p⟩ hx
  obtain ⟨a, ha, rfl, hp⟩ := mem_of_mem_given (mem_held.mp hx)
  obtain ⟨hsub, n, hn, hbounds⟩ := h.subscribed m a ha
  exact ⟨hsub, n, hn, hbounds p hp⟩

theorem RangeCover.toExact (h : RangeCover subs partitionCounts assignments) :
    Exact subs partitionCounts assignments where
  disjoint m m' x hx hx' := by
    obtain ⟨topic, p⟩ := x
    obtain ⟨hsub, n, hn, hpos, hlt⟩ := h.within _ hx
    exact (h.exact topic n hn ⟨m, hsub⟩ p hpos hlt).unique (mem_held.mp hx) (mem_held.mp hx')
  complete x hexists hsub := by
    obtain ⟨n, hn, hpos, hlt⟩ := hexists
    obtain ⟨m, hm, _⟩ := h.exact x.fst n hn hsub x.snd hpos hlt
    have hx : x ∈ held assignments m := mem_held.mpr hm
    obtain ⟨sub, hmem, hid, _⟩ := (h.within x hx).left
    exact ⟨m, List.mem_map.mpr ⟨sub, hmem, hid⟩, hx⟩
  within m x hx := by
    obtain ⟨⟨sub, hmem, hid, _⟩, hexists⟩ := h.within x hx
    exact ⟨List.mem_map.mpr ⟨sub, hmem, hid⟩, hexists⟩

theorem RoundRobinCover.toExact (h : RoundRobinCover subs partitionCounts assignments) :
    Exact subs partitionCounts assignments where
  disjoint m m' x hx hx' := (h.exact x (h.member m x hx).right).unique hx hx'
  complete x hexists _   := by
    obtain ⟨m, hm, _⟩ := h.exact x hexists
    exact ⟨m, (h.member m x hm).left, hm⟩
  within                 := h.member

-- Numbers in ascending order below a bound are not more than the bound.
theorem length_lt_of_ascending {ps : List Int} (h : ps.Pairwise (· < ·)) (hbounds : ∀ p ∈ ps, 0 ≤ p ∧ p < n)
    (hn : n < 2 ^ 31) : ps.length < 2 ^ 31 := by
  have hsub : ps ⊆ interval 0 n := fun p hp => mem_interval.mpr (hbounds p hp)
  have hnodup : ps.Nodup := h.imp Int.ne_of_lt
  have hle := (hnodup.subperm hsub).length_le
  rw [interval, List.length_map, List.length_range] at hle
  omega

-- What a member is given can be encoded.
theorem decode_get (hfit : partitionCounts.Fit) (htopics : ((assignments.get m).map (·.topic)).Nodup)
    (hlookup : ∀ a ∈ assignments.get m,
      ∃ n, partitionCounts.lookup a.topic = some n ∧ ∀ p ∈ a.partitions, 0 ≤ p ∧ p < n)
    (hascending : ∀ a ∈ assignments.get m, a.partitions.Pairwise (· < ·)) :
    decodeAssignment (encodeAssignment (assignments.get m)) = .ok (assignments.get m) := by
  refine decodeAssignment_encodeAssignment (fun a ha => ?_) ?_
  · obtain ⟨n, hn, hbounds⟩ := hlookup a ha
    obtain ⟨htopic, hpos, hlt⟩ := hfit.topics a.topic n hn
    refine ⟨htopic, length_lt_of_ascending (hascending a ha) hbounds hlt, fun p hp => ?_⟩
    have := hbounds p hp
    exact ⟨by omega, by omega⟩
  · have hsub : (assignments.get m).map (·.topic) ⊆ partitionCounts.keys := by
      intro topic htopic
      obtain ⟨a, ha, rfl⟩ := List.mem_map.mp htopic
      obtain ⟨n, hn, _⟩ := hlookup a ha
      exact AList.mem_keys.mp (Map.mem_of_lookup hn)
    have hle := (htopics.subperm hsub).length_le
    rw [List.length_map] at hle
    have := hfit.length
    omega

section Range

variable (hfit : partitionCounts.Fit) (hids : (subs.map (·.memberID)).Nodup) (hlen : subs.length ≤ 2 ^ 31)
  (h : range subs partitionCounts = .ok assignments)
include hfit hids hlen h

theorem cover_of_range : RangeCover subs partitionCounts assignments :=
  rangeCover_of_le (fun topic n hn => (hfit.topics topic n hn).right)
    (fun _ _ => (List.countP_le_length ..).trans hlen) hids h

theorem ascending_of_range (ha : a ∈ assignments.get m) : a.partitions.Pairwise (· < ·) := by
  obtain ⟨hsub, n, hn, _⟩ := (cover_of_range hfit hids hlen h).subscribed m a ha
  have hmem : m ∈ subscribedMembers subs a.topic := mem_subscribedMembers.mpr hsub
  have hflat := flatten_map_given (fun topic n hn => (hfit.topics topic n hn).right)
    (fun _ _ => (List.countP_le_length ..).trans hlen) hids h hn (List.ne_nil_of_mem hmem)
  have hgiven : (given assignments a.topic m).Sublist (interval 0 n) := by
    rw [← hflat]
    exact List.sublist_flatten_of_mem (List.mem_map_of_mem hmem)
  have hpart : a.partitions.Sublist (given assignments a.topic m) := by
    rw [given, List.flatMap_def]
    exact List.sublist_flatten_of_mem (List.mem_map_of_mem (List.mem_filter.mpr ⟨ha, decide_eq_true rfl⟩))
  exact (ascending_interval 0 n).sublist (hpart.trans hgiven)

theorem exact_of_range : Exact subs partitionCounts assignments ∧
    ∀ m, decodeAssignment (encodeAssignment (assignments.get m)) = .ok (assignments.get m) := by
  have hcover := cover_of_range hfit hids hlen h
  refine ⟨hcover.toExact, fun m => decode_get hfit (hcover.once m) (fun a ha => ?_) fun a ha => ?_⟩
  · exact (hcover.subscribed m a ha).right
  · exact ascending_of_range hfit hids hlen h ha

end Range

theorem exact_of_roundRobin (hfit : partitionCounts.Fit) (hids : (subs.map (·.memberID)).Nodup) :
    Exact subs partitionCounts (roundRobin subs partitionCounts) ∧
      ∀ m, decodeAssignment (encodeAssignment ((roundRobin subs partitionCounts).get m)) =
        .ok ((roundRobin subs partitionCounts).get m) := by
  by_cases hne : subs = []
  case pos =>
    subst hne
    have hempty : roundRobin [] partitionCounts = ∅ := rfl
    rw [hempty]
    refine ⟨⟨fun _ _ _ hx => ?_, fun _ _ hsub => ?_, fun _ _ hx => ?_⟩,
      fun m => decodeAssignment_encodeAssignment (by simp) (by simp)⟩
    · simp [held, flat] at hx
    · simp [Subscribes] at hsub
    · simp [held, flat] at hx
  case neg =>
    have hcover : RoundRobinCover subs partitionCounts _ := roundRobinCover hne hids
    refine ⟨hcover.toExact, fun m => decode_get hfit (hcover.grouped m).left (fun a ha => ?_) (hcover.grouped m).right⟩
    have hmembers : sortedMembers subs ≠ [] := by
      rw [← List.length_pos_iff, sortedMembers, length_sortStrings, List.length_map]
      exact List.length_pos_iff.mpr hne
    obtain ⟨p, hp⟩ := List.exists_mem_of_ne_nil _ ((grouped_roundRobin hmembers m).nonempty a ha)
    obtain ⟨n, hn, _⟩ := (hcover.member m (a.topic, p) (mem_flat ha hp)).right
    refine ⟨n, hn, fun p hp => ?_⟩
    obtain ⟨n', hn', hbounds⟩ := (hcover.member m (a.topic, p) (mem_flat ha hp)).right
    cases hn.symm.trans hn'
    exact hbounds

end Assignor
