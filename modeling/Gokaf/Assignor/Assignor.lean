import Gokaf.Go.Fault
import Gokaf.Go.Map
import Gokaf.Go.Sort

open Go

namespace Assignor

structure TopicPartitions where
  topic      : Bytes
  partitions : List Int
  deriving DecidableEq, Repr

structure Subscription where
  memberID : Bytes
  topics   : List Bytes
  deriving DecidableEq, Repr

abbrev PartitionCounts := Map Bytes Int

abbrev Assignments := Map Bytes (List TopicPartitions)

-- `assignments[memberID]`: a missing key reads as the nil slice.
def Assignments.get (assignments : Assignments) (memberID : Bytes) : List TopicPartitions :=
  (assignments.lookup memberID).getD []

def sortedTopics (partitionCounts : PartitionCounts) : List Bytes :=
  sortStrings partitionCounts.keys

def sortedMembers (subs : List Subscription) : List Bytes :=
  sortStrings (subs.map (·.memberID))

def subscribesTo (sub : Subscription) (topic : Bytes) : Bool :=
  sub.topics.any (· == topic)

def subscribedMembers (subs : List Subscription) (topic : Bytes) : List Bytes :=
  sortStrings ((subs.filter (subscribesTo · topic)).map (·.memberID))

-- The values of `for v := start; v < stop; v++`.
def interval (start stop : Int) : List Int :=
  (List.range (stop - start).toNat).map fun k : Nat => start + k

def contiguousPartitions (start stop : Int) : Except Fault (List Int) := do
  makeSlice (int32 (stop - start))
  return interval start stop

-- The block of the member of index `i`, `int32(i)` being what is compared.
def memberCount (perMember extra : Int) (i : Nat) : Int :=
  if int32 i < extra then int32 (perMember + 1) else perMember

-- The loop over the subscribed members of a topic.
def rangeMembers (topic : Bytes) (perMember extra : Int) :
    List Bytes → Nat → Int → Assignments → Except Fault Assignments
  | [], _, _, assignments => .ok assignments
  | memberID :: members, i, cursor, assignments =>
    let count := memberCount perMember extra i
    if count = 0 then
      rangeMembers topic perMember extra members (i + 1) cursor assignments
    else do
      let partitions ← contiguousPartitions cursor (int32 (cursor + count))
      rangeMembers topic perMember extra members (i + 1) (int32 (cursor + count))
        (assignments.insert memberID (assignments.get memberID ++ [{ topic, partitions }]))

-- `int32` division and remainder.
def quo (x y : Int) : Except Fault Int :=
  if y = 0 then .error (.panic .divide) else .ok (int32 (x.tdiv y))

def rem (x y : Int) : Except Fault Int :=
  if y = 0 then .error (.panic .divide) else .ok (x.tmod y)

def rangeTopic (subs : List Subscription) (partitionCounts : PartitionCounts)
    (assignments : Assignments) (topic : Bytes) : Except Fault Assignments :=
  let members := subscribedMembers subs topic
  if members.length = 0 then
    .ok assignments
  else do
    let partitionCount := (partitionCounts.lookup topic).getD 0
    let perMember ← quo partitionCount (int32 members.length)
    let extra ← rem partitionCount (int32 members.length)
    rangeMembers topic perMember extra members 0 0 assignments

def range (subs : List Subscription) (partitionCounts : PartitionCounts) : Except Fault Assignments :=
  (sortedTopics partitionCounts).foldlM (rangeTopic subs partitionCounts) ∅

def appendPartition (assignments : List TopicPartitions) (topic : Bytes) (partition : Int) :
    List TopicPartitions :=
  match assignments.getLast? with
  | some last =>
    if last.topic = topic then
      assignments.dropLast ++ [{ last with partitions := last.partitions ++ [partition] }]
    else
      assignments ++ [{ topic, partitions := [partition] }]
  | none => assignments ++ [{ topic, partitions := [partition] }]

-- A round of the inner loop. Each one stores four bytes, so that the index stays far from the end of `int`.
def deal (members : List Bytes) (topic : Bytes) (s : Nat × Assignments) (partition : Int) : Nat × Assignments :=
  let (i, assignments) := s
  let memberID := members.getD (i % members.length) []
  (i + 1, assignments.insert memberID (appendPartition (assignments.get memberID) topic partition))

def roundRobin (subs : List Subscription) (partitionCounts : PartitionCounts) : Assignments :=
  let members := sortedMembers subs
  if members.length = 0 then
    ∅
  else
    let dealTopic s topic := (interval 0 ((partitionCounts.lookup topic).getD 0)).foldl (deal members topic) s
    ((sortedTopics partitionCounts).foldl dealTopic (0, ∅)).snd

end Assignor
