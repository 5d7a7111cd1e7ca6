import Gokaf.Assignor.Assignor

open Go

namespace Assignor

variable {a b c p : Int}

@[simp]
theorem mem_interval : p ∈ interval a b ↔ a ≤ p ∧ p < b := by
  simp only [interval, List.mem_map, List.mem_range]
  constructor
  case mp  => rintro ⟨k, hk, rfl⟩; omega
  case mpr => intro h; exact ⟨(p - a).toNat, by omega, by omega⟩

@[simp]
theorem interval_self (a : Int) : interval a a = [] := by
  simp [interval]

theorem ascending_interval (a b : Int) : (interval a b).Pairwise (· < ·) := by
  rw [interval, List.pairwise_map]
  exact List.pairwise_lt_range.imp (by omega)

theorem interval_append (hab : a ≤ b) (hbc : b ≤ c) : interval a b ++ interval b c = interval a c := by
  have hlen : (c - a).toNat = (b - a).toNat + (c - b).toNat := by omega
  rw [interval, interval, interval, hlen, List.range_add, List.map_append, List.map_map]
  congr 1
  refine List.map_congr_left fun k _ => ?_
  simp only [Function.comp_apply]
  omega

variable {partitionCounts : PartitionCounts} {topic : Bytes}

theorem nodup_sortedTopics (partitionCounts : PartitionCounts) : (sortedTopics partitionCounts).Nodup :=
  nodup_sortStrings partitionCounts.nodupKeys

theorem mem_sortedTopics : topic ∈ sortedTopics partitionCounts ↔ topic ∈ partitionCounts := by
  rw [sortedTopics, mem_sortStrings, AList.mem_keys]

namespace Assignments

variable {assignments : Assignments} {memberID member : Bytes} {held : List TopicPartitions} {β : Type*}

@[simp]
theorem get_empty (memberID : Bytes) : get ∅ memberID = [] := rfl

theorem get_insert : get (assignments.insert member held) memberID =
    if memberID = member then held else assignments.get memberID := by
  unfold get
  split
  case isTrue h  => rw [h, AList.lookup_insert, Option.getD_some]
  case isFalse h => rw [AList.lookup_insert_ne h]

-- An entry is worked on by the steps that name its member, in their order.
theorem get_foldl_insert (f : List TopicPartitions → β → List TopicPartitions) (steps : List (Bytes × β))
    (assignments : Assignments) (memberID : Bytes) :
    get (steps.foldl (fun a s => a.insert s.fst (f (a.get s.fst) s.snd)) assignments) memberID =
      ((steps.filter (·.fst = memberID)).map (·.snd)).foldl f (assignments.get memberID) := by
  induction steps generalizing assignments
  case nil => rfl
  case cons s steps hi =>
    rw [List.foldl_cons, hi, get_insert]
    by_cases h : s.fst = memberID
    case pos => simp [h]
    case neg => simp [h, Ne.symm h]

end Assignments

end Assignor
