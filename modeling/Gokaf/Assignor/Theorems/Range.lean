import Gokaf.Assignor.Theorems.Blocks
import Gokaf.Go.Decimal

open Go

namespace Assignor

def Subscribes (subs : List Subscription) (memberID topic : Bytes) : Prop :=
  ∃ sub ∈ subs, sub.memberID = memberID ∧ topic ∈ sub.topics

-- The partitions of `topic` on a member's list.
def given (assignments : Assignments) (topic memberID : Bytes) : List Int :=
  ((assignments.get memberID).filter (·.topic = topic)).flatMap (·.partitions)

structure RangeCover (subs : List Subscription) (partitionCounts : PartitionCounts) (assignments : Assignments) :
    Prop where
  exact : ∀ topic n, partitionCounts.lookup topic = some n → (∃ m, Subscribes subs m topic) →
    ∀ p, 0 ≤ p → p < n → ∃! m, p ∈ given assignments topic m
  -- In particular nobody is given a topic without subscribers.
  subscribed : ∀ m, ∀ a ∈ assignments.get m, Subscribes subs m a.topic ∧
    ∃ n, partitionCounts.lookup a.topic = some n ∧ ∀ p ∈ a.partitions, 0 ≤ p ∧ p < n
  balanced : ∀ topic n, partitionCounts.lookup topic = some n →
    ∀ members : List Bytes, members.Pairwise (· < ·) → (∀ m, m ∈ members ↔ Subscribes subs m topic) → members ≠ [] →
      ∃ sizes : List Nat, members.map (given assignments topic) = tile 0 sizes ∧ (sizes.sum : Int) = n ∧
        sizes.Pairwise (· ≥ ·) ∧ ∀ s ∈ sizes, ∀ s' ∈ sizes, s ≤ s' + 1
  once : ∀ m, ((assignments.get m).map (·.topic)).Nodup

section Members

variable {topic memberID : Bytes} {perMember extra cursor : Int} {members : List Bytes} {i : Nat}
  {assignments assignments' : Assignments}

theorem contiguousPartitions_ok_iff {count : Int} {partitions : List Int} (h : IsInt32 count) :
    contiguousPartitions cursor (int32 (cursor + count)) = .ok partitions ↔
      0 ≤ count ∧ partitions = interval cursor (int32 (cursor + count)) := by
  have hcap : int32 (int32 (cursor + count) - cursor) = count := by
    have hwrap := wrap_add_wrap 32 (-cursor) (cursor + count)
    rw [show -cursor + (cursor + count) = count by ring] at hwrap
    rw [show int32 (cursor + count) - cursor = -cursor + wrap 32 (cursor + count) by rw [int32]; ring, int32, hwrap]
    exact wrap_of_mem (by decide) h.left h.right
  simp only [contiguousPartitions, makeSlice, hcap]
  by_cases hneg : count < 0
  case pos =>
    have hpos : ¬ 0 ≤ count := by omega
    simp [hneg, hpos, bind, Except.bind, throw, throwThe, MonadExceptOf.throw]
  case neg =>
    have hpos : 0 ≤ count := by omega
    simp [hneg, hpos, bind, Except.bind, pure, Except.pure, eq_comm]

-- What the loop appends, and to whose list.
def grants (topic : Bytes) (perMember extra : Int) : List Bytes → Nat → Int → List (Bytes × TopicPartitions)
  | [], _, _ => []
  | memberID :: members, i, cursor =>
    let count := memberCount perMember extra i
    if count = 0 then
      grants topic perMember extra members (i + 1) cursor
    else
      (memberID, { topic, partitions := interval cursor (int32 (cursor + count)) }) ::
        grants topic perMember extra members (i + 1) (int32 (cursor + count))

def give (assignments : Assignments) (grant : Bytes × TopicPartitions) : Assignments :=
  assignments.insert grant.fst (assignments.get grant.fst ++ [grant.snd])

-- The loop panics at the first negative count.
theorem rangeMembers_ok_iff (h : IsInt32 perMember) :
    rangeMembers topic perMember extra members i cursor assignments = .ok assignments' ↔
      Nonneg perMember extra members.length i ∧
        assignments' = (grants topic perMember extra members i cursor).foldl give assignments := by
  induction members generalizing i cursor assignments
  case nil => simp [rangeMembers, grants, Nonneg, eq_comm]
  case cons m members hi =>
    rw [List.length_cons, nonneg_succ_iff, rangeMembers, grants]
    split
    case isTrue hcount =>
      rw [hi]
      simp [hcount]
    case isFalse hcount =>
      have hpart {l : List Int} := @contiguousPartitions_ok_iff cursor _ l (@isInt32_memberCount _ extra h i)
      cases hc : contiguousPartitions cursor (int32 (cursor + memberCount perMember extra i))
      case error e =>
        have hneg : ¬ 0 ≤ memberCount perMember extra i := by
          intro hpos
          rw [hpart.mpr ⟨hpos, rfl⟩] at hc
          contradiction
        simp [hneg, bind, Except.bind]
      case ok l =>
        obtain ⟨hpos, rfl⟩ := hpart.mp hc
        simp only [bind, Except.bind, hi, hpos, true_and, List.foldl_cons, give]

theorem topic_of_mem_grants {g : Bytes × TopicPartitions} (h : g ∈ grants topic perMember extra members i cursor) :
    g.fst ∈ members ∧ g.snd.topic = topic := by
  induction members generalizing i cursor
  case nil => contradiction
  case cons m members hi =>
    rw [grants] at h
    split at h
    case isTrue =>
      have ht := hi h
      exact ⟨List.mem_cons_of_mem m ht.left, ht.right⟩
    case isFalse =>
      cases h
      case head     => exact ⟨List.mem_cons_self, rfl⟩
      case tail h _ =>
        have ht := hi ‹_›
        exact ⟨List.mem_cons_of_mem m ht.left, ht.right⟩

-- What a member gets out of a list of grants.
def portion (gs : List (Bytes × TopicPartitions)) (memberID : Bytes) : List TopicPartitions :=
  (gs.filter (·.fst = memberID)).map (·.snd)

theorem portion_cons_self (a : TopicPartitions) (gs : List (Bytes × TopicPartitions)) :
    portion ((memberID, a) :: gs) memberID = a :: portion gs memberID := by
  simp [portion]

theorem portion_cons_of_ne {m : Bytes} (h : m ≠ memberID) (a : TopicPartitions) (gs : List (Bytes × TopicPartitions)) :
    portion ((m, a) :: gs) memberID = portion gs memberID := by
  simp [portion, h]

theorem portion_grants_of_notMem (h : memberID ∉ members) :
    portion (grants topic perMember extra members i cursor) memberID = [] := by
  rw [portion, List.map_eq_nil_iff, List.filter_eq_nil_iff]
  intro g hg
  simp only [decide_eq_true_eq]
  rintro rfl
  exact h (topic_of_mem_grants hg).left

theorem portion_grants_sublist (h : members.Nodup) (memberID : Bytes) :
    ((portion (grants topic perMember extra members i cursor) memberID).map (·.topic)).Sublist [topic] := by
  induction members generalizing i cursor
  case nil => exact List.nil_sublist _
  case cons m members hi =>
    obtain ⟨hm, hnodup⟩ := List.nodup_cons.mp h
    rw [grants]
    split
    case isTrue => exact hi hnodup
    case isFalse =>
      by_cases hid : m = memberID
      case pos =>
        subst hid
        rw [portion_cons_self, portion_grants_of_notMem hm]
        exact .refl _
      case neg =>
        rw [portion_cons_of_ne hid]
        exact hi hnodup

theorem map_portion_grants (h : members.Nodup) :
    members.map (fun m => (portion (grants topic perMember extra members i cursor) m).flatMap (·.partitions)) =
      blocks perMember extra members.length i cursor := by
  induction members generalizing i cursor
  case nil => rfl
  case cons m members hi =>
    obtain ⟨hm, hnodup⟩ := List.nodup_cons.mp h
    rw [List.length_cons, blocks, grants]
    split
    case isTrue => rw [List.map_cons, hi hnodup, portion_grants_of_notMem hm, List.flatMap_nil]
    case isFalse =>
      rw [List.map_cons, portion_cons_self, portion_grants_of_notMem hm, ← hi hnodup]
      simp only [List.flatMap_cons, List.flatMap_nil, List.append_nil, List.cons.injEq, true_and]
      refine List.map_congr_left fun m' hm' => ?_
      rw [portion_cons_of_ne (by rintro rfl; exact hm hm')]

end Members

section Topics

variable {subs subs' : List Subscription} {partitionCounts : PartitionCounts} {assignments assignments' : Assignments}
  {topic memberID : Bytes} {topics : List Bytes} {n : Int}

def perMember (subs : List Subscription) (topic : Bytes) (n : Int) : Int :=
  int32 (n.tdiv (int32 (subscribedMembers subs topic).length))

def extra (subs : List Subscription) (topic : Bytes) (n : Int) : Int :=
  n.tmod (int32 (subscribedMembers subs topic).length)

def topicGrants (subs : List Subscription) (partitionCounts : PartitionCounts) (topic : Bytes) :
    List (Bytes × TopicPartitions) :=
  let n := (partitionCounts.lookup topic).getD 0
  grants topic (perMember subs topic n) (extra subs topic n) (subscribedMembers subs topic) 0 0

-- The round of the topic does not panic.
def Shared (subs : List Subscription) (partitionCounts : PartitionCounts) (topic : Bytes) : Prop :=
  let n := (partitionCounts.lookup topic).getD 0
  subscribedMembers subs topic ≠ [] → int32 (subscribedMembers subs topic).length ≠ 0 ∧
    Nonneg (perMember subs topic n) (extra subs topic n) (subscribedMembers subs topic).length 0

theorem quo_of_ne {x y : Int} (h : y ≠ 0) : quo x y = .ok (int32 (x.tdiv y)) := if_neg h

theorem rem_of_ne {x y : Int} (h : y ≠ 0) : rem x y = .ok (x.tmod y) := if_neg h

theorem quo_zero (x : Int) : quo x 0 = .error (.panic .divide) := rfl

theorem rangeTopic_ok_iff : rangeTopic subs partitionCounts assignments topic = .ok assignments' ↔
    Shared subs partitionCounts topic ∧
      assignments' = (topicGrants subs partitionCounts topic).foldl give assignments := by
  by_cases hnil : subscribedMembers subs topic = []
  case pos =>
    have hshared : Shared subs partitionCounts topic := fun h => absurd hnil h
    have hgrants : topicGrants subs partitionCounts topic = [] := by rw [topicGrants, hnil, grants]
    rw [rangeTopic, hgrants, if_pos (by rw [hnil, List.length_nil])]
    simp [hshared, eq_comm]
  case neg =>
    unfold rangeTopic Shared
    by_cases hzero : int32 (subscribedMembers subs topic).length = 0
    case pos =>
      simp only [List.length_eq_zero_iff, hnil, if_false, hzero, quo_zero]
      constructor
      case mp  => rintro ⟨⟩
      case mpr => exact fun h => absurd rfl (h.left hnil).left
    case neg =>
      simp only [List.length_eq_zero_iff, hnil, if_false, quo_of_ne hzero, rem_of_ne hzero]
      exact (rangeMembers_ok_iff (isInt32_int32 _)).trans
        ⟨fun h => ⟨fun _ => ⟨hzero, h.left⟩, h.right⟩, fun h => ⟨(h.left hnil).right, h.right⟩⟩

theorem foldlM_rangeTopic_ok_iff : topics.foldlM (rangeTopic subs partitionCounts) assignments = .ok assignments' ↔
    (∀ topic ∈ topics, Shared subs partitionCounts topic) ∧
      assignments' = (topics.flatMap (topicGrants subs partitionCounts)).foldl give assignments := by
  induction topics generalizing assignments
  case nil => simp [pure, Except.pure, eq_comm]
  case cons t topics hi =>
    rw [List.foldlM_cons, List.flatMap_cons, List.foldl_append, List.forall_mem_cons]
    cases h : rangeTopic subs partitionCounts assignments t
    case error e =>
      have hshared : ¬ Shared subs partitionCounts t := by
        intro hs
        rw [rangeTopic_ok_iff.mpr ⟨hs, rfl⟩] at h
        contradiction
      simp [hshared, bind, Except.bind]
    case ok next =>
      obtain ⟨hs, rfl⟩ := rangeTopic_ok_iff.mp h
      simp only [bind, Except.bind, hi, hs, true_and]

theorem get_foldl_give (gs : List (Bytes × TopicPartitions)) (memberID : Bytes) :
    Assignments.get (gs.foldl give ∅) memberID = portion gs memberID := by
  have h := Assignments.get_foldl_insert (fun held a => held ++ [a]) gs ∅ memberID
  rw [List.foldl_append_eq_append, ← List.flatMap_def, List.flatMap_singleton'] at h
  exact h

theorem portion_flatMap (f : Bytes → List (Bytes × TopicPartitions)) :
    portion (topics.flatMap f) memberID = topics.flatMap fun t => portion (f t) memberID := by
  simp [portion, List.filter_flatMap, List.map_flatMap]

theorem mem_subscribedMembers : memberID ∈ subscribedMembers subs topic ↔ Subscribes subs memberID topic := by
  simp [subscribedMembers, subscribesTo, Subscribes, and_comm, and_left_comm]

theorem length_subscribedMembers : (subscribedMembers subs topic).length = subs.countP (subscribesTo · topic) := by
  rw [subscribedMembers, length_sortStrings, List.length_map, List.countP_eq_length_filter]

theorem ascending_subscribedMembers (h : (subs.map (·.memberID)).Nodup) :
    (subscribedMembers subs topic).Pairwise (· < ·) :=
  ascending_sortStrings (h.sublist (List.filter_sublist.map _))

theorem nodup_subscribedMembers (h : (subs.map (·.memberID)).Nodup) : (subscribedMembers subs topic).Nodup :=
  nodup_sortStrings (h.sublist (List.filter_sublist.map _))

theorem subscribedMembers_eq_of_perm (h : subs'.Perm subs) (topic : Bytes) :
    subscribedMembers subs' topic = subscribedMembers subs topic :=
  sortStrings_eq_of_perm ((h.filter _).map _)

-- A member's part of the topics, each of which occurs in its own grants only.
theorem filter_flatMap_portion (h : topics.Nodup) (ht : topic ∈ topics) :
    (topics.flatMap fun t => portion (topicGrants subs partitionCounts t) memberID).filter (·.topic = topic) =
      portion (topicGrants subs partitionCounts topic) memberID := by
  have hown {t : Bytes} {a : TopicPartitions} (ha : a ∈ portion (topicGrants subs partitionCounts t) memberID) :
      a.topic = t := by
    obtain ⟨g, hg, rfl⟩ := List.mem_map.mp ha
    exact (topic_of_mem_grants (List.mem_of_mem_filter hg)).right
  induction topics
  case nil => contradiction
  case cons t topics hi =>
    obtain ⟨hnot, hnodup⟩ := List.nodup_cons.mp h
    rw [List.flatMap_cons, List.filter_append]
    obtain rfl | htail := List.mem_cons.mp ht
    case inl =>
      rw [List.filter_eq_self.mpr fun a ha => decide_eq_true (hown ha), List.filter_eq_nil_iff.mpr, List.append_nil]
      intro a ha
      obtain ⟨t, hmem, ha⟩ := List.mem_flatMap.mp ha
      rw [decide_eq_true_eq, hown ha]
      rintro rfl
      exact hnot hmem
    case inr =>
      rw [hi hnodup htail, List.filter_eq_nil_iff.mpr, List.nil_append]
      intro a ha
      rw [decide_eq_true_eq, hown ha]
      rintro rfl
      exact hnot htail

theorem range_ok_iff : range subs partitionCounts = .ok assignments ↔
    (∀ topic ∈ partitionCounts, Shared subs partitionCounts topic) ∧
      assignments = ((sortedTopics partitionCounts).flatMap (topicGrants subs partitionCounts)).foldl give ∅ := by
  simp only [range, foldlM_rangeTopic_ok_iff, mem_sortedTopics]

theorem get_of_range (h : range subs partitionCounts = .ok assignments) (memberID : Bytes) :
    assignments.get memberID =
      (sortedTopics partitionCounts).flatMap fun t => portion (topicGrants subs partitionCounts t) memberID := by
  rw [(range_ok_iff.mp h).right, get_foldl_give, portion_flatMap]

theorem given_of_range (h : range subs partitionCounts = .ok assignments) (ht : topic ∈ partitionCounts) :
    given assignments topic memberID =
      (portion (topicGrants subs partitionCounts topic) memberID).flatMap (·.partitions) := by
  rw [given, get_of_range h, filter_flatMap_portion (nodup_sortedTopics _) (mem_sortedTopics.mpr ht)]

theorem map_given_of_range (hids : (subs.map (·.memberID)).Nodup) (h : range subs partitionCounts = .ok assignments)
    (ht : partitionCounts.lookup topic = some n) :
    (subscribedMembers subs topic).map (given assignments topic) =
      blocks (perMember subs topic n) (extra subs topic n) (subscribedMembers subs topic).length 0 0 := by
  have hgrants : topicGrants subs partitionCounts topic =
      grants topic (perMember subs topic n) (extra subs topic n) (subscribedMembers subs topic) 0 0 := by
    rw [topicGrants, ht, Option.getD_some]
  rw [← map_portion_grants (nodup_subscribedMembers hids), ← hgrants]
  exact List.map_congr_left fun m _ => given_of_range h (Map.mem_of_lookup ht)

theorem once_of_range (hids : (subs.map (·.memberID)).Nodup) (h : range subs partitionCounts = .ok assignments)
    (memberID : Bytes) : ((assignments.get memberID).map (·.topic)).Nodup := by
  have hsub (topics : List Bytes) :
      ((topics.flatMap fun t => portion (topicGrants subs partitionCounts t) memberID).map
        (·.topic)).Sublist topics := by
    induction topics
    case nil => exact .refl _
    case cons t topics hi =>
      rw [List.flatMap_cons, List.map_append]
      exact (portion_grants_sublist (nodup_subscribedMembers hids) memberID).append hi
  rw [get_of_range h]
  exact (nodup_sortedTopics partitionCounts).sublist (hsub _)

-- A grant goes to a subscriber of its topic.
theorem mem_of_mem_get (h : range subs partitionCounts = .ok assignments) {a : TopicPartitions}
    (ha : a ∈ assignments.get memberID) : Subscribes subs memberID a.topic ∧ a.topic ∈ partitionCounts := by
  rw [get_of_range h, List.mem_flatMap] at ha
  obtain ⟨t, ht, ha⟩ := ha
  obtain ⟨g, hg, rfl⟩ := List.mem_map.mp ha
  obtain ⟨hg, hm⟩ := List.mem_filter.mp hg
  obtain ⟨hmem, htopic⟩ := topic_of_mem_grants hg
  rw [decide_eq_true_eq] at hm
  rw [htopic, ← hm]
  exact ⟨mem_subscribedMembers.mp hmem, mem_sortedTopics.mp ht⟩

theorem subset_given {a : TopicPartitions} (ha : a ∈ assignments.get memberID) :
    ∀ p ∈ a.partitions, p ∈ given assignments a.topic memberID := by
  intro p hp
  exact List.mem_flatMap.mpr ⟨a, List.mem_filter.mpr ⟨ha, decide_eq_true rfl⟩, hp⟩

theorem mem_of_mem_given {p : Int} (h : p ∈ given assignments topic memberID) :
    ∃ a ∈ assignments.get memberID, a.topic = topic ∧ p ∈ a.partitions := by
  obtain ⟨a, ha, hp⟩ := List.mem_flatMap.mp h
  obtain ⟨ha, ht⟩ := List.mem_filter.mp ha
  exact ⟨a, ha, of_decide_eq_true ht, hp⟩

end Topics

section Cover

variable {subs subs' : List Subscription} {partitionCounts partitionCounts' : PartitionCounts}
  {assignments : Assignments}

theorem range_eq_of_perm (h : subs'.Perm subs) (hcounts : partitionCounts'.entries.Perm partitionCounts.entries) :
    range subs' partitionCounts' = range subs partitionCounts := by
  have htopics : sortedTopics partitionCounts' = sortedTopics partitionCounts :=
    sortStrings_eq_of_perm (hcounts.map _)
  have hround : rangeTopic subs' partitionCounts' = rangeTopic subs partitionCounts := by
    funext assignments topic
    simp only [rangeTopic, subscribedMembers_eq_of_perm h, AList.perm_lookup hcounts]
  rw [range, range, htopics, hround]

section

variable (hcounts : ∀ topic n, partitionCounts.lookup topic = some n → 0 ≤ n ∧ n < 2 ^ 31)
  (hle : ∀ topic ∈ partitionCounts, subs.countP (subscribesTo · topic) ≤ 2 ^ 31)
include hcounts hle

theorem exists_range_ok : ∃ assignments, range subs partitionCounts = .ok assignments := by
  refine ⟨_, range_ok_iff.mpr ⟨fun topic ht hne => ?_, rfl⟩⟩
  obtain ⟨n, hn⟩ := Option.isSome_iff_exists.mp (AList.lookup_isSome.mpr ht)
  have hpos := List.length_pos_iff.mpr hne
  have hle := length_subscribedMembers ▸ hle topic ht
  rw [hn, Option.getD_some]
  refine ⟨?_, nonneg_of_le hpos hle (hcounts topic n hn)⟩
  simp only [int32, wrap]
  omega

variable (hids : (subs.map (·.memberID)).Nodup) (h : range subs partitionCounts = .ok assignments)
include hids h

theorem map_given_eq_tile {topic : Bytes} {n : Int} (hn : partitionCounts.lookup topic = some n)
    (hne : subscribedMembers subs topic ≠ []) :
    (subscribedMembers subs topic).map (given assignments topic) =
      tile 0 ((List.range (subscribedMembers subs topic).length).map
        (size n.toNat (subscribedMembers subs topic).length)) := by
  rw [map_given_of_range hids h hn]
  exact blocks_eq_sizes (List.length_pos_iff.mpr hne)
    (length_subscribedMembers ▸ hle topic (Map.mem_of_lookup hn)) (hcounts topic n hn)

theorem flatten_map_given {topic : Bytes} {n : Int} (hn : partitionCounts.lookup topic = some n)
    (hne : subscribedMembers subs topic ≠ []) :
    ((subscribedMembers subs topic).map (given assignments topic)).flatten = interval 0 n := by
  have := hcounts topic n hn
  rw [map_given_eq_tile hcounts hle hids h hn hne, flatten_tile, sum_size (List.length_pos_iff.mpr hne)]
  congr 1
  omega

theorem rangeCover_of_le : RangeCover subs partitionCounts assignments := by
  have hmember {m topic : Bytes} {p : Int} (hp : p ∈ given assignments topic m) :
      m ∈ subscribedMembers subs topic := by
    obtain ⟨a, ha, rfl, _⟩ := mem_of_mem_given hp
    exact mem_subscribedMembers.mpr (mem_of_mem_get h ha).left
  constructor
  case exact =>
    intro topic n hn hsub p hpos hlt
    obtain ⟨m₀, hm₀⟩ := hsub
    have hflat := flatten_map_given hcounts hle hids h hn (List.ne_nil_of_mem (mem_subscribedMembers.mpr hm₀))
    have hp : p ∈ ((subscribedMembers subs topic).map (given assignments topic)).flatten := by
      rw [hflat, mem_interval]
      exact ⟨hpos, hlt⟩
    obtain ⟨b, hb, hpb⟩ := List.mem_flatten.mp hp
    obtain ⟨m, hm, rfl⟩ := List.mem_map.mp hb
    refine ⟨m, hpb, fun m' hpb' => ?_⟩
    -- The blocks have no partition in common, their concatenation being ascending.
    have hnodup := (ascending_interval 0 n).imp Int.ne_of_lt
    rw [← hflat] at hnodup
    have hdisj := List.pairwise_map.mp (List.nodup_flatten.mp hnodup).right
    by_contra hne
    have : Std.Symm fun m m' => (given assignments topic m).Disjoint (given assignments topic m') :=
      ⟨fun _ _ hd _ hp hp' => hd hp' hp⟩
    exact hdisj.forall hm (hmember hpb') (Ne.symm hne) hpb hpb'
  case subscribed =>
    intro m a ha
    obtain ⟨hsub, hmem⟩ := mem_of_mem_get h ha
    obtain ⟨n, hn⟩ := Option.isSome_iff_exists.mp (AList.lookup_isSome.mpr hmem)
    have hm := mem_subscribedMembers.mpr hsub
    refine ⟨hsub, n, hn, fun p hp => ?_⟩
    rw [← mem_interval, ← flatten_map_given hcounts hle hids h hn (List.ne_nil_of_mem hm)]
    exact List.mem_flatten.mpr ⟨_, List.mem_map_of_mem hm, subset_given ha p hp⟩
  case balanced =>
    intro topic n hn members hasc hmem hne
    obtain rfl : members = subscribedMembers subs topic :=
      eq_of_ascending hasc (ascending_subscribedMembers hids) fun m => (hmem m).trans mem_subscribedMembers.symm
    have := hcounts topic n hn
    refine ⟨_, map_given_eq_tile hcounts hle hids h hn hne, ?_, ?_, ?_⟩
    case refine_1 =>
      rw [sum_size (List.length_pos_iff.mpr hne)]
      omega
    case refine_2 =>
      rw [List.pairwise_map]
      exact List.pairwise_lt_range.imp fun hlt => size_antitone (Nat.le_of_lt hlt)
    case refine_3 =>
      simp only [List.forall_mem_map]
      exact fun j _ j' _ => size_le_succ _ _ j j'
  case once => exact once_of_range hids h

end

-- A topic with more subscribers than `int32` counts is not shared out.
theorem not_rangeCover_of_lt (hids : (subs.map (·.memberID)).Nodup) {topic : Bytes} {n : Int}
    (hn : partitionCounts.lookup topic = some n) (hint : 0 ≤ n ∧ n < 2 ^ 31)
    (hlt : 2 ^ 31 < subs.countP (subscribesTo · topic)) :
    ¬ ∃ assignments, range subs partitionCounts = .ok assignments ∧ RangeCover subs partitionCounts assignments := by
  rintro ⟨assignments, h, hcover⟩
  rw [← length_subscribedMembers] at hlt
  have hne : subscribedMembers subs topic ≠ [] := List.length_pos_iff.mp (by omega)
  obtain ⟨hzero, hnonneg⟩ := (range_ok_iff.mp h).left topic (Map.mem_of_lookup hn) hne
  rw [hn, Option.getD_some] at hnonneg
  refine not_within_of_lt hlt rfl hzero hint hnonneg ?_
  intro b hb p hp
  rw [← perMember, ← extra, ← map_given_of_range hids h hn] at hb
  obtain ⟨m, hm, rfl⟩ := List.mem_map.mp hb
  obtain ⟨a, ha, rfl, hpa⟩ := mem_of_mem_given hp
  obtain ⟨n', hn', hall⟩ := (hcover.subscribed m a ha).right
  obtain rfl : n = n' := Option.some.inj (hn.symm.trans hn')
  exact hall p hpa

theorem range_cover_iff (hids : (subs.map (·.memberID)).Nodup)
    (hcounts : ∀ topic n, partitionCounts.lookup topic = some n → 0 ≤ n ∧ n < 2 ^ 31) :
    ((∃ assignments, range subs partitionCounts = .ok assignments ∧ RangeCover subs partitionCounts assignments) ∧
      ∀ subs' partitionCounts', subs'.Perm subs → partitionCounts'.entries.Perm partitionCounts.entries →
        range subs' partitionCounts' = range subs partitionCounts) ↔
      ∀ topic ∈ partitionCounts, subs.countP (subscribesTo · topic) ≤ 2 ^ 31 := by
  constructor
  case mp =>
    rintro ⟨hcover, -⟩ topic ht
    obtain ⟨n, hn⟩ := Option.isSome_iff_exists.mp (AList.lookup_isSome.mpr ht)
    by_contra hlt
    exact not_rangeCover_of_lt hids hn (hcounts topic n hn) (by omega) hcover
  case mpr =>
    intro hle
    obtain ⟨assignments, h⟩ := exists_range_ok hcounts hle
    exact ⟨⟨assignments, h, rangeCover_of_le hcounts hle hids h⟩, fun _ _ => range_eq_of_perm⟩

-- The members "C0" and "C1" of the topics "t0" and "t1", and a member of "t1" only.
def sampleSubs : List Subscription :=
  [{ memberID := [67, 49], topics := [[116, 48], [116, 49]] },
    { memberID := [67, 48], topics := [[116, 49], [116, 48]] },
    { memberID := [67, 50], topics := [[116, 49]] }]

def sampleCounts : PartitionCounts :=
  ((∅ : PartitionCounts).insert [116, 49] 2).insert [116, 48] 3

theorem sampleCounts_isInt32 : ∀ topic n, sampleCounts.lookup topic = some n → 0 ≤ n ∧ n < 2 ^ 31 := by
  intro topic n h
  have hall : ∀ e ∈ sampleCounts.entries, 0 ≤ e.snd ∧ e.snd < 2 ^ 31 := by decide
  exact hall ⟨topic, n⟩ (AList.mem_lookup_iff.mp h)

theorem range_cover_sample :
    (∃ assignments, range sampleSubs sampleCounts = .ok assignments ∧
      RangeCover sampleSubs sampleCounts assignments) ∧
      ∀ subs' partitionCounts', subs'.Perm sampleSubs → partitionCounts'.entries.Perm sampleCounts.entries →
        range subs' partitionCounts' = range sampleSubs sampleCounts :=
  (range_cover_iff (by decide) sampleCounts_isInt32).mpr (by decide)

example : (range sampleSubs sampleCounts).map (fun a => [a.get [67, 48], a.get [67, 49], a.get [67, 50]]) =
    .ok [[⟨[116, 48], [0, 1]⟩, ⟨[116, 49], [0]⟩], [⟨[116, 48], [2]⟩, ⟨[116, 49], [1]⟩], []] := by
  decide +kernel

-- `k` members, all of them of the topic "t".
def crowd (k : Nat) : List Subscription :=
  (List.range k).map fun i : Nat => { memberID := decimal i, topics := [[116]] }

theorem nodup_crowd (k : Nat) : ((crowd k).map (·.memberID)).Nodup := by
  rw [crowd, List.map_map]
  refine List.nodup_range.map fun i j h => ?_
  exact Int.ofNat.inj (decimal_inj (Int.natCast_nonneg i) (Int.natCast_nonneg j) h)

theorem countP_crowd (k : Nat) : (crowd k).countP (subscribesTo · [116]) = k := by
  rw [crowd, List.countP_map]
  simp [Function.comp_def, subscribesTo]

-- One partition and `2 ^ 31 + 1` members: the last of them is given a partition `1` that the topic has not got.
theorem crowd_not_covered :
    ¬ ∃ assignments, range (crowd (2 ^ 31 + 1)) ((∅ : PartitionCounts).insert [116] 1) = .ok assignments ∧
      RangeCover (crowd (2 ^ 31 + 1)) ((∅ : PartitionCounts).insert [116] 1) assignments := by
  refine not_rangeCover_of_lt (nodup_crowd _) (AList.lookup_insert _) (by decide) ?_
  rw [countP_crowd]
  exact Nat.lt_succ_self _

end Cover

end Assignor
