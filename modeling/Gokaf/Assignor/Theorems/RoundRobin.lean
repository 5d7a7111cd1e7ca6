import Gokaf.Assignor.Theorems.Assignor
import Gokaf.Residue

open Go

namespace Assignor

-- The order of the topic partitions: by topic, and within a topic by number.
abbrev Before : Bytes × Int → Bytes × Int → Prop :=
  Prod.Lex (· < ·) (· < ·)

instance : Std.Asymm Before where
  asymm x y h h' := by
    obtain hlt | ⟨heq, hlt⟩ := Prod.lex_def.mp h
    case inl =>
      obtain hlt' | ⟨heq', -⟩ := Prod.lex_def.mp h'
      case inl => exact Std.lt_irrefl (Std.lt_trans hlt hlt')
      case inr => exact Std.ne_of_lt hlt heq'.symm
    case inr =>
      obtain hlt' | ⟨-, hlt'⟩ := Prod.lex_def.mp h'
      case inl => exact Std.ne_of_lt hlt' heq.symm
      case inr => omega

-- A member's list, topic partition by topic partition.
def flat (assignments : List TopicPartitions) : List (Bytes × Int) :=
  assignments.flatMap fun a => a.partitions.map (a.topic, ·)

def held (assignments : Assignments) (memberID : Bytes) : List (Bytes × Int) :=
  flat (assignments.get memberID)

def Exists (partitionCounts : PartitionCounts) (x : Bytes × Int) : Prop :=
  ∃ n, partitionCounts.lookup x.fst = some n ∧ 0 ≤ x.snd ∧ x.snd < n

structure RoundRobinCover (subs : List Subscription) (partitionCounts : PartitionCounts) (assignments : Assignments) :
    Prop where
  exact : ∀ x, Exists partitionCounts x → ∃! m, x ∈ held assignments m
  member : ∀ m, ∀ x ∈ held assignments m, m ∈ subs.map (·.memberID) ∧ Exists partitionCounts x
  dealt : ∀ (pairs : List (Bytes × Int)) (members : List Bytes),
    pairs.Pairwise Before → (∀ x, x ∈ pairs ↔ Exists partitionCounts x) →
    members.Pairwise (· < ·) → (∀ m, m ∈ members ↔ m ∈ subs.map (·.memberID)) →
      ∀ k x, pairs[k]? = some x → ∃ m, members[k % members.length]? = some m ∧ x ∈ held assignments m
  balanced : ∀ m ∈ subs.map (·.memberID), ∀ m' ∈ subs.map (·.memberID),
    (held assignments m).length ≤ (held assignments m').length + 1
  grouped : ∀ m, ((assignments.get m).map (·.topic)).Nodup ∧
    ∀ a ∈ assignments.get m, a.partitions.Pairwise (· < ·)

section Grouping

variable {topic : Bytes} {partition : Int} {assignments : List TopicPartitions} {dealt : List (Bytes × Int)}

-- A member's list groups what the member was dealt.
structure Grouped (assignments : List TopicPartitions) (dealt : List (Bytes × Int)) : Prop where
  flat_eq    : flat assignments = dealt
  topics     : assignments.Pairwise fun a b => a.topic < b.topic
  nonempty   : ∀ a ∈ assignments, a.partitions ≠ []
  partitions : ∀ a ∈ assignments, a.partitions.Pairwise (· < ·)

theorem mem_flat {a : TopicPartitions} {p : Int} (ha : a ∈ assignments) (hp : p ∈ a.partitions) :
    (a.topic, p) ∈ flat assignments :=
  List.mem_flatMap.mpr ⟨a, ha, List.mem_map_of_mem hp⟩

theorem flat_append (as bs : List TopicPartitions) : flat (as ++ bs) = flat as ++ flat bs :=
  List.flatMap_append ..

theorem flat_singleton (a : TopicPartitions) : flat [a] = a.partitions.map (a.topic, ·) := by
  simp [flat]

theorem appendPartition_nil (topic : Bytes) (partition : Int) :
    appendPartition [] topic partition = [{ topic, partitions := [partition] }] := rfl

theorem appendPartition_concat (front : List TopicPartitions) (last : TopicPartitions) (topic : Bytes)
    (partition : Int) : appendPartition (front ++ [last]) topic partition =
      if last.topic = topic then front ++ [{ last with partitions := last.partitions ++ [partition] }]
      else front ++ [last] ++ [{ topic, partitions := [partition] }] := by
  simp [appendPartition]

-- The new partition is behind all others, so the only group it can belong to is the last one.
theorem Grouped.appendPartition (h : Grouped assignments dealt)
    (hbehind : ∀ x ∈ dealt, Before x (topic, partition)) :
    Grouped (appendPartition assignments topic partition) (dealt ++ [(topic, partition)]) := by
  obtain ⟨rfl, htopics, hnonempty, hparts⟩ := h
  have hlex {a : TopicPartitions} {p : Int} (ha : a ∈ assignments) (hp : p ∈ a.partitions) :
      a.topic < topic ∨ a.topic = topic ∧ p < partition := Prod.lex_def.mp (hbehind _ (mem_flat ha hp))
  obtain rfl | ⟨front, last, rfl⟩ := List.eq_nil_or_concat' assignments
  case inl =>
    rw [appendPartition_nil]
    exact ⟨rfl, List.pairwise_singleton .., by simp, by simp⟩
  case inr =>
    have hlast : last ∈ front ++ [last] := List.mem_append_right _ List.mem_cons_self
    have hfront {a : TopicPartitions} (ha : a ∈ front) : a.topic < last.topic :=
      (List.pairwise_append.mp htopics).right.right a ha last List.mem_cons_self
    rw [appendPartition_concat]
    split
    case isTrue heq =>
      have hlt : ∀ p ∈ last.partitions, p < partition := by
        intro p hp
        obtain hlt | ⟨_, hlt⟩ := hlex hlast hp
        case inl => exact absurd (heq ▸ hlt) Std.lt_irrefl
        case inr => exact hlt
      constructor
      case flat_eq =>
        rw [flat_append, flat_append, flat_singleton, flat_singleton, List.map_append, List.append_assoc, heq]
        rfl
      case topics =>
        exact List.pairwise_append.mpr ⟨(List.pairwise_append.mp htopics).left, List.pairwise_singleton ..,
          fun a ha b hb => by rw [List.mem_singleton.mp hb]; exact hfront ha⟩
      case nonempty =>
        simp only [List.forall_mem_append, List.forall_mem_singleton] at hnonempty ⊢
        exact ⟨hnonempty.left, by simp⟩
      case partitions =>
        simp only [List.forall_mem_append, List.forall_mem_singleton] at hparts ⊢
        refine ⟨hparts.left, List.pairwise_append.mpr ⟨hparts.right, List.pairwise_singleton .., ?_⟩⟩
        intro p hp q hq
        rw [List.mem_singleton.mp hq]
        exact hlt p hp
    case isFalse hne =>
      obtain ⟨p, hp⟩ := List.exists_mem_of_ne_nil _ (hnonempty last hlast)
      have hlt : last.topic < topic := (hlex hlast hp).resolve_right fun h => hne h.left
      constructor
      case flat_eq => rw [flat_append (front ++ [last]), flat_singleton, List.map_singleton]
      case topics =>
        refine List.pairwise_append.mpr ⟨htopics, List.pairwise_singleton .., ?_⟩
        intro a ha b hb
        rw [List.mem_singleton.mp hb]
        obtain ha | ha := List.mem_append.mp ha
        case inl => exact Std.lt_trans (hfront ha) hlt
        case inr => rwa [List.mem_singleton.mp ha]
      case nonempty =>
        rw [List.forall_mem_append]
        exact ⟨hnonempty, by simp⟩
      case partitions =>
        rw [List.forall_mem_append]
        exact ⟨hparts, by simp⟩

theorem grouped_foldl (h : dealt.Pairwise Before) :
    Grouped (dealt.foldl (fun assignments x => appendPartition assignments x.fst x.snd) []) dealt := by
  induction dealt using List.reverseRecOn
  case nil => exact ⟨rfl, .nil, by simp, by simp⟩
  case append_singleton dealt x hi =>
    obtain ⟨hdealt, -, hlast⟩ := List.pairwise_append.mp h
    rw [List.foldl_append]
    exact (hi hdealt).appendPartition fun y hy => hlast y hy x List.mem_cons_self

end Grouping

section Dealing

variable {subs subs' : List Subscription} {partitionCounts partitionCounts' : PartitionCounts} {members : List Bytes}
  {m : Bytes} {x : Bytes × Int}

def pairs (partitionCounts : PartitionCounts) : List (Bytes × Int) :=
  (sortedTopics partitionCounts).flatMap fun topic =>
    (interval 0 ((partitionCounts.lookup topic).getD 0)).map (topic, ·)

theorem mem_pairs : x ∈ pairs partitionCounts ↔ Exists partitionCounts x := by
  obtain ⟨topic, p⟩ := x
  simp only [pairs, List.mem_flatMap, mem_sortedTopics, List.mem_map, mem_interval, Prod.mk.injEq, Exists]
  constructor
  case mp =>
    rintro ⟨t, ht, p', hp, rfl, rfl⟩
    obtain ⟨n, hn⟩ := Option.isSome_iff_exists.mp (AList.lookup_isSome.mpr ht)
    rw [hn, Option.getD_some] at hp
    exact ⟨n, hn, hp⟩
  case mpr =>
    rintro ⟨n, hn, hp⟩
    refine ⟨topic, Map.mem_of_lookup hn, p, ?_, rfl, rfl⟩
    rwa [hn, Option.getD_some]

theorem ascending_sortedTopics (partitionCounts : PartitionCounts) :
    (sortedTopics partitionCounts).Pairwise (· < ·) :=
  ascending_sortStrings partitionCounts.nodupKeys

theorem ascending_pairs (partitionCounts : PartitionCounts) : (pairs partitionCounts).Pairwise Before := by
  rw [pairs, List.pairwise_flatMap]
  constructor
  case left =>
    intro topic _
    rw [List.pairwise_map]
    exact (ascending_interval ..).imp fun hlt => .right _ hlt
  case right =>
    refine (ascending_sortedTopics partitionCounts).imp fun hlt x hx y hy => ?_
    obtain ⟨p, -, rfl⟩ := List.mem_map.mp hx
    obtain ⟨q, -, rfl⟩ := List.mem_map.mp hy
    exact .left _ _ hlt

-- The member whose turn it is.
def turn (members : List Bytes) (k : Nat) : Bytes :=
  members.getD (k % members.length) []

def dealtTo (members : List Bytes) (pairs : List (Bytes × Int)) (m : Bytes) : List (Bytes × Int) :=
  ((pairs.zipIdx).filter fun x => turn members x.snd = m).map (·.fst)

theorem foldl_deal (members : List Bytes) (pairs : List (Bytes × Int)) (k : Nat) (assignments : Assignments) :
    (pairs.foldl (fun s x => deal members x.fst s x.snd) (k, assignments)).snd =
      ((pairs.zipIdx k).map fun x => (turn members x.snd, x.fst)).foldl
        (fun a s => a.insert s.fst (appendPartition (a.get s.fst) s.snd.fst s.snd.snd)) assignments := by
  induction pairs generalizing k assignments
  case nil => rfl
  case cons x pairs hi =>
    rw [List.foldl_cons, List.zipIdx_cons, List.map_cons, List.foldl_cons]
    exact hi (k + 1) _

-- The two loops are one over the pairs.
theorem get_roundRobin (h : sortedMembers subs ≠ []) (m : Bytes) : (roundRobin subs partitionCounts).get m =
    (dealtTo (sortedMembers subs) (pairs partitionCounts) m).foldl (fun a x => appendPartition a x.fst x.snd) [] := by
  have hloop : roundRobin subs partitionCounts =
      ((pairs partitionCounts).foldl (fun s x => deal (sortedMembers subs) x.fst s x.snd) (0, ∅)).snd := by
    rw [roundRobin, if_neg (mt List.length_eq_zero_iff.mp h), pairs, List.foldl_flatMap]
    simp only [List.foldl_map]
  rw [hloop, foldl_deal, Assignments.get_foldl_insert fun a (x : Bytes × Int) => appendPartition a x.fst x.snd,
    Assignments.get_empty, dealtTo, List.filter_map, List.map_map]
  rfl

theorem dealtTo_sublist (members : List Bytes) (pairs : List (Bytes × Int)) (m : Bytes) :
    (dealtTo members pairs m).Sublist pairs := by
  have h : (pairs.zipIdx.map (·.fst)) = pairs := List.zipIdx_map_fst ..
  conv_rhs => rw [← h]
  exact List.filter_sublist.map _

theorem mem_dealtTo {pairs : List (Bytes × Int)} :
    x ∈ dealtTo members pairs m ↔ ∃ k, pairs[k]? = some x ∧ turn members k = m := by
  simp [dealtTo, List.mem_zipIdx_iff_getElem?, and_comm]

theorem grouped_roundRobin (h : sortedMembers subs ≠ []) (m : Bytes) :
    Grouped ((roundRobin subs partitionCounts).get m) (dealtTo (sortedMembers subs) (pairs partitionCounts) m) := by
  rw [get_roundRobin h]
  exact grouped_foldl ((ascending_pairs partitionCounts).sublist (dealtTo_sublist ..))

theorem held_roundRobin (h : sortedMembers subs ≠ []) (m : Bytes) :
    held (roundRobin subs partitionCounts) m = dealtTo (sortedMembers subs) (pairs partitionCounts) m :=
  (grouped_roundRobin h m).flat_eq

theorem turn_eq_iff (h : members.Nodup) {r : Nat} (hr : members[r]? = some m) (k : Nat) :
    turn members k = m ↔ k % members.length = r := by
  obtain ⟨hlt, rfl⟩ := List.getElem?_eq_some_iff.mp hr
  have hmod := Nat.mod_lt k (Nat.zero_lt_of_lt hlt)
  rw [turn, List.getD_eq_getElem?_getD, List.getElem?_eq_getElem hmod, Option.getD_some, h.getElem_inj_iff]

theorem length_dealtTo (h : members.Nodup) {r : Nat} (hr : members[r]? = some m) (pairs : List (Bytes × Int)) :
    (dealtTo members pairs m).length =
      pairs.length / members.length + if r < pairs.length % members.length then 1 else 0 := by
  have hlt := (List.getElem?_eq_some_iff.mp hr).choose
  have hidx : pairs.zipIdx.map (·.snd) = List.range pairs.length := by
    rw [List.zipIdx_map_snd, List.range_eq_range']
  rw [← Residue.card_mod hlt, ← Residue.countP_range, ← hidx, List.countP_map, dealtTo, List.length_map,
    ← List.countP_eq_length_filter]
  refine List.countP_congr fun x _ => ?_
  simp [turn_eq_iff h hr]

theorem mem_sortedMembers : m ∈ sortedMembers subs ↔ m ∈ subs.map (·.memberID) := by
  rw [sortedMembers, mem_sortStrings]

theorem roundRobin_eq_of_perm (h : subs'.Perm subs) (hcounts : partitionCounts'.entries.Perm partitionCounts.entries) :
    roundRobin subs' partitionCounts' = roundRobin subs partitionCounts := by
  have hmembers : sortedMembers subs' = sortedMembers subs := sortStrings_eq_of_perm (h.map _)
  have htopics : sortedTopics partitionCounts' = sortedTopics partitionCounts :=
    sortStrings_eq_of_perm (hcounts.map _)
  simp only [roundRobin, hmembers, htopics, AList.perm_lookup hcounts]

theorem roundRobinCover (hne : subs ≠ []) (hids : (subs.map (·.memberID)).Nodup) :
    RoundRobinCover subs partitionCounts (roundRobin subs partitionCounts) := by
  have hmembers : sortedMembers subs ≠ [] := by
    rw [← List.length_pos_iff, sortedMembers, length_sortStrings, List.length_map]
    exact List.length_pos_iff.mpr hne
  have hnodup : (sortedMembers subs).Nodup := nodup_sortStrings hids
  have hturn (k : Nat) :
      (sortedMembers subs)[k % (sortedMembers subs).length]? = some (turn (sortedMembers subs) k) := by
    have hlt := Nat.mod_lt k (List.length_pos_iff.mpr hmembers)
    rw [turn, List.getD_eq_getElem?_getD, List.getElem?_eq_getElem hlt, Option.getD_some]
  have hheld {x : Bytes × Int} {m : Bytes} : x ∈ held (roundRobin subs partitionCounts) m ↔
      ∃ k, (pairs partitionCounts)[k]? = some x ∧ turn (sortedMembers subs) k = m := by
    rw [held_roundRobin hmembers, mem_dealtTo]
  -- No pair comes up twice.
  have hpair {x : Bytes × Int} {k k' : Nat} (hk : (pairs partitionCounts)[k]? = some x)
      (hk' : (pairs partitionCounts)[k']? = some x) : k' = k := by
    obtain ⟨hlt, rfl⟩ := List.getElem?_eq_some_iff.mp hk
    obtain ⟨hlt', heq⟩ := List.getElem?_eq_some_iff.mp hk'
    exact (nodup_of_ascending (ascending_pairs partitionCounts)).getElem_inj_iff.mp heq
  constructor
  case exact =>
    intro x hx
    obtain ⟨k, hk⟩ := List.getElem?_of_mem (mem_pairs.mpr hx)
    refine ⟨turn (sortedMembers subs) k, ?_, fun m hm => ?_⟩
    case refine_1 => exact hheld.mpr ⟨k, hk, rfl⟩
    case refine_2 =>
      obtain ⟨k', hk', rfl⟩ := hheld.mp hm
      rw [hpair hk hk']
  case member =>
    intro m x hx
    obtain ⟨k, hk, rfl⟩ := hheld.mp hx
    exact ⟨mem_sortedMembers.mp (List.mem_of_getElem? (hturn k)), mem_pairs.mp (List.mem_of_getElem? hk)⟩
  case dealt =>
    intro pairs' members hpairs hexists hasc hmem k x hk
    obtain rfl := eq_of_ascending hpairs (ascending_pairs partitionCounts) fun x => (hexists x).trans mem_pairs.symm
    obtain rfl := eq_of_ascending hasc (ascending_sortStrings hids) fun m => (hmem m).trans mem_sortedMembers.symm
    exact ⟨_, hturn k, hheld.mpr ⟨k, hk, rfl⟩⟩
  case balanced =>
    intro m hm m' hm'
    obtain ⟨r, hr⟩ := List.getElem?_of_mem (mem_sortedMembers.mpr hm)
    obtain ⟨r', hr'⟩ := List.getElem?_of_mem (mem_sortedMembers.mpr hm')
    rw [held_roundRobin hmembers, held_roundRobin hmembers, length_dealtTo hnodup hr, length_dealtTo hnodup hr']
    split <;> split <;> omega
  case grouped =>
    intro m
    have hgrouped := @grouped_roundRobin subs partitionCounts hmembers m
    refine ⟨?_, hgrouped.partitions⟩
    exact List.pairwise_map.mpr (hgrouped.topics.imp Std.ne_of_lt)

theorem roundRobin_cover (hne : subs ≠ []) (hids : (subs.map (·.memberID)).Nodup) :
    RoundRobinCover subs partitionCounts (roundRobin subs partitionCounts) ∧
      ∀ subs' partitionCounts', subs'.Perm subs → partitionCounts'.entries.Perm partitionCounts.entries →
        roundRobin subs' partitionCounts' = roundRobin subs partitionCounts :=
  ⟨roundRobinCover hne hids, fun _ _ => roundRobin_eq_of_perm⟩

-- The members "C1" and "C0", and the topics "t1" of two partitions and "t0" of three.
def twoSubs : List Subscription :=
  [{ memberID := [67, 49], topics := [[116, 48], [116, 49]] },
    { memberID := [67, 48], topics := [[116, 48], [116, 49]] }]

def twoCounts : PartitionCounts :=
  ((∅ : PartitionCounts).insert [116, 49] 2).insert [116, 48] 3

theorem roundRobin_cover_two :
    RoundRobinCover twoSubs twoCounts (roundRobin twoSubs twoCounts) ∧
      roundRobin twoSubs.reverse twoCounts = roundRobin twoSubs twoCounts := by
  obtain ⟨hcover, hperm⟩ := @roundRobin_cover twoSubs twoCounts (by decide) (by decide)
  exact ⟨hcover, hperm _ _ (List.reverse_perm _) (.refl _)⟩

example : [[67, 48], [67, 49]].map (roundRobin twoSubs twoCounts).get =
    [[⟨[116, 48], [0, 2]⟩, ⟨[116, 49], [1]⟩], [⟨[116, 48], [1]⟩, ⟨[116, 49], [0]⟩]] := by
  decide

end Dealing

end Assignor
