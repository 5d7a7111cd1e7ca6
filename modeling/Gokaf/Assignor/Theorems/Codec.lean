import Gokaf.Assignor.Codec
import Gokaf.Protocol.Theorems.Types

open Go Protocol

namespace Assignor

-- The name and the numbers fit their fields.
structure TopicPartitions.Valid (a : TopicPartitions) : Prop where
  topic      : a.topic.length < 2 ^ 15
  length     : a.partitions.length < 2 ^ 31
  partitions : ∀ p ∈ a.partitions, IsInt32 p

variable {a : TopicPartitions} {assignments : List TopicPartitions}

theorem TopicPartitions.Valid.reads (h : a.Valid) : Reads readTopicPartitions (writeTopicPartitions a) a := by
  have hrest := (reads_forRange fun p hp => reads_of_isInt32 (h.partitions p hp)).bind_pure fun partitions =>
    ({ a with partitions } : TopicPartitions)
  rw [writeTopicPartitions, List.append_assoc]
  exact (reads_readString h.topic).bind ((reads_readArrayLen_of_lt h.length).bind
    ((reads_makeSlice (Int.natCast_nonneg a.partitions.length)).bind hrest))

theorem reads_readAssignment (h : ∀ a ∈ assignments, a.Valid) (hlen : assignments.length < 2 ^ 31) :
    Reads readAssignment
      (writeInt16 0 ++ (writeArrayLen assignments.length ++ assignments.flatMap writeTopicPartitions)) assignments :=
  (reads_readInt16 0).bind ((reads_readArrayLen_of_lt hlen).bind
    ((reads_makeSlice (Int.natCast_nonneg assignments.length)).bind (reads_forRange fun a ha => (h a ha).reads)))

theorem decodeAssignment_encodeAssignment (h : ∀ a ∈ assignments, a.Valid) (hlen : assignments.length < 2 ^ 31) :
    decodeAssignment (encodeAssignment assignments) = .ok assignments := by
  have hread := reads_readAssignment h hlen (writeInt32 (-1))
  have hne : (encodeAssignment assignments).length ≠ 0 := by
    simp [encodeAssignment, writeInt16]
  rw [decodeAssignment, if_neg hne, encodeAssignment, List.append_assoc (writeInt16 0), hread]
  rfl

end Assignor
