import Gokaf.Assignor.Assignor
import Gokaf.Protocol.Types

open Go Protocol

namespace Assignor

def writeTopicPartitions (a : TopicPartitions) : Bytes :=
  writeString a.topic ++ writeArrayLen a.partitions.length ++ a.partitions.flatMap writeInt32

def encodeAssignment (assignments : List TopicPartitions) : Bytes :=
  writeInt16 0 ++ writeArrayLen assignments.length ++ assignments.flatMap writeTopicPartitions ++ writeInt32 (-1)

section

variable {m : Type → Type} [Monad m] [MonadStateOf Bytes m] [MonadExceptOf Fault m]

def readTopicPartitions : m TopicPartitions := do
  let topic ← readString
  let partitionCount ← readArrayLen
  makeSlice partitionCount
  let partitions ← forRange partitionCount readInt32
  return { topic, partitions }

def readAssignment : m (List TopicPartitions) := do
  let _ ← readInt16
  let count ← readArrayLen
  makeSlice count
  forRange count readTopicPartitions

end

-- Bytes behind the topics are ignored.
def decodeAssignment (b : Bytes) : Except Fault (List TopicPartitions) :=
  if b.length = 0 then .ok [] else ((readAssignment : Decoder _).run b).map (·.fst)

end Assignor
