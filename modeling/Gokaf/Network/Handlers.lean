import Gokaf.Go.Effect
import Gokaf.Network.Broker

open Go Protocol Cluster

namespace Network

-- The loops of the handlers. A handler executes an element of the request as soon as it has read it, so what is
-- done with an element is a parameter here.
section Loops

variable {m : Type → Type*} [Monad m] [MonadStateOf Bytes m] [MonadExceptOf Fault m] {α : Type}

-- The topics of a request, each with the answers for its partitions.
def forTopics (partition : Bytes → m α) : m (List (Bytes × List α)) := do
  let topicCount ← readArrayLen
  makeSlice topicCount
  forRange topicCount do
    let topicName ← readString
    let partitionCount ← readArrayLen
    makeSlice partitionCount
    let partitions ← forRange partitionCount (partition topicName)
    return (topicName, partitions)

def produceTopics (producePartition : Bytes → Int → Bytes → Int → Int → m α) : m (List (Bytes × List α)) := do
  let acks ← readInt16
  let timeoutMS ← readInt32
  forTopics fun topicName => do
    let partitionIndex ← readInt32
    let batch ← readBytes
    producePartition topicName partitionIndex (batch.getD []) acks timeoutMS

def fetchTopics (fetchPartition : Int → Bytes → Int → Int → Int → m α) : m (List (Bytes × List α)) := do
  let replicaID ← readInt32
  let _ ← readInt32
  let _ ← readInt32
  forTopics fun topicName => do
    let partitionIndex ← readInt32
    let fetchOffset ← readInt64
    let partitionMaxBytes ← readInt32
    fetchPartition replicaID topicName partitionIndex fetchOffset partitionMaxBytes

def listOffsetsTopics (listOffset : Bytes → Int → Int → m α) : m (List (Bytes × List α)) := do
  let _ ← readInt32
  forTopics fun topicName => do
    let partitionIndex ← readInt32
    let timestamp ← readInt64
    listOffset topicName partitionIndex timestamp

def offsetCommitTopics (commit : Offset.Key → Int → m α) : m (List (Bytes × List (Int × α))) := do
  let groupID ← readString
  forTopics fun topicName => do
    let partitionIndex ← readInt32
    let committedOffset ← readInt64
    let _ ← readNullableString
    let errorCode ← commit ⟨groupID, topicName, partitionIndex⟩ committedOffset
    return (partitionIndex, errorCode)

def offsetFetchTopics (fetch : Offset.Key → m α) : m (List (Bytes × List (Int × α))) := do
  let groupID ← readString
  forTopics fun topicName => do
    let partitionIndex ← readInt32
    let offset ← fetch ⟨groupID, topicName, partitionIndex⟩
    return (partitionIndex, offset)

def drainCreateTopicAssignments : m Unit := do
  let assignmentCount ← readArrayLen
  let _ ← forRange assignmentCount do
    let _ ← readInt32
    let brokerIDCount ← readArrayLen
    forRange brokerIDCount readInt32

def drainCreateTopicConfigs : m Unit := do
  let configCount ← readArrayLen
  let _ ← forRange configCount do
    let _ ← readString
    readNullableString

-- The topics of a request that has one more field behind them.
def forTopicResults (topic : m (Bytes × α)) : m (List (Bytes × α)) := do
  let topicCount ← readArrayLen
  makeSlice topicCount
  let results ← forRange topicCount topic
  let _ ← readInt32
  return results

def createTopics (createTopic : Bytes → Int → Int → m α) : m (List (Bytes × α)) :=
  forTopicResults do
    let name ← readString
    let numPartitions ← readInt32
    let replicationFactor ← readInt16
    drainCreateTopicAssignments
    drainCreateTopicConfigs
    return (name, ← createTopic name numPartitions replicationFactor)

def deleteTopics (deleteTopic : Bytes → m α) : m (List (Bytes × α)) :=
  forTopicResults do
    let name ← readString
    return (name, ← deleteTopic name)

end Loops

section Responses

def writeArray {α : Type} (write : α → Bytes) (as : List α) : Bytes :=
  writeArrayLen as.length ++ as.flatMap write

def writeTopics {α : Type} (writePartition : α → Bytes) : List (Bytes × List α) → Bytes :=
  writeArray fun t => writeString t.fst ++ writeArray writePartition t.snd

def writeProduceResponse : List (Bytes × List ProducePartitionResponse) → Bytes :=
  writeTopics fun r => writeInt32 r.index ++ writeInt16 r.errorCode.code ++ writeInt64 r.baseOffset

def writeOffsetCommitResponse : List (Bytes × List (Int × ErrorCode)) → Bytes :=
  writeTopics fun r => writeInt32 r.fst ++ writeInt16 r.snd.code

def writeTopicResults : List (Bytes × ErrorCode) → Bytes :=
  writeArray fun r => writeString r.fst ++ writeInt16 r.snd.code

end Responses

namespace Broker

-- The check that `handleCreateTopics` and `handleDeleteTopics` make for each topic.
def asController (env : Env) (b : Broker) (f : Broker → Broker × ErrorCode) : Broker × ErrorCode :=
  if env.controllerID ≠ env.config.nodeID then (b, .notController) else f b

def commitOffset (env : Env) (b : Broker) (key : Offset.Key) (offset : Int) : Broker × ErrorCode :=
  match b.commit env key offset with
  | (b, .ok ())   => (b, .none)
  | (b, .error _) => (b, .unknown)

end Broker

-- A handler at work: the broker, and how many elements of the request have been executed.
structure Handling where
  broker : Broker
  count  : Nat

abbrev Handler := Effect Handling

-- The element at work finds `env` at its own position.
def execute {α : Type} (env : Nat → Env) (f : Env → Broker → Broker × α) : Handler α :=
  .update fun s => ((f (env s.count) s.broker).snd, ⟨(f (env s.count) s.broker).fst, s.count + 1⟩)

section Handlers

variable (env : Nat → Env)

def handleProduce : Handler Bytes := do
  let responses ← produceTopics fun topicName partitionIndex batch acks _ =>
    execute env fun env b => b.producePartition env topicName partitionIndex batch acks
  return writeProduceResponse responses

def handleFetch : Handler Bytes := do
  let responses ← fetchTopics fun replicaID topicName partitionIndex fetchOffset partitionMaxBytes =>
    execute env fun env b => b.fetchPartition env replicaID topicName partitionIndex fetchOffset partitionMaxBytes
  return writeFetchResponse (responses.map fun t => ⟨t.fst, t.snd⟩)

def handleOffsetCommit : Handler Bytes := do
  let responses ← offsetCommitTopics fun key offset =>
    execute env fun env b => b.commitOffset env key offset
  return writeOffsetCommitResponse responses

def handleCreateTopics : Handler Bytes := do
  let results ← createTopics fun name numPartitions replicationFactor =>
    execute env fun env b => b.asController env (·.createTopic env name numPartitions replicationFactor)
  return writeTopicResults results

def handleDeleteTopics : Handler Bytes := do
  let results ← deleteTopics fun name =>
    execute env fun env b => b.asController env (·.deleteTopic name)
  return writeTopicResults results

end Handlers

end Network
