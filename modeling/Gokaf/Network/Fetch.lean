import Gokaf.Protocol.Errors
import Gokaf.Protocol.Types
import Gokaf.Replication.PartitionState
import Gokaf.Storage.Log

open Go Protocol

namespace Network

structure FetchPartitionResponse where
  index         : Int
  errorCode     : ErrorCode := .none
  highWatermark : Int := 0
  records       : Option Bytes := none
  deriving DecidableEq, Repr

structure FetchTopicResponse where
  name       : Bytes
  partitions : List FetchPartitionResponse
  deriving DecidableEq, Repr

def joinRecordPayloads (records : List Storage.Record) : Bytes :=
  (records.map (·.payload)).flatten

-- What a fetch reads from a partition log.
structure Fetchable (σ : Type*) where
  endOffset : σ → Int
  read      : σ → Int → Int → Except IOError (List Storage.Record)

-- The leader's bookkeeping in `fetchPartition`: the fetch of a follower is recorded, and the
-- watermark is brought up to date. A broker that does not lead the partition has no state for it and
-- answers with its end offset.
def recordFetch (led : Option Replication.PartitionState) (replicaID fetchOffset endOffset now : Int) :
    Option Replication.PartitionState × List Replication.Waiter × Int :=
  match led with
  | none => (none, [], endOffset)
  | some state =>
    let (state, released) :=
      if 0 ≤ replicaID then state.recordFollowerFetch replicaID fetchOffset endOffset now else (state, [])
    let (state, released') := state.updateHighWatermark endOffset now
    (some state, released ++ released', state.highWatermark)

-- The rest of `fetchPartition`, once the end offset and the watermark are known.
def answerFetch {σ : Type*} (ops : Fetchable σ) (log : σ)
    (partitionIndex endOffset highWatermark fetchOffset partitionMaxBytes : Int) : FetchPartitionResponse :=
  let response : FetchPartitionResponse := { index := partitionIndex, highWatermark }
  if fetchOffset < 0 ∨ endOffset < fetchOffset then
    { response with errorCode := .offsetOutOfRange }
  else if fetchOffset = endOffset then
    response
  else
    match ops.read log fetchOffset partitionMaxBytes with
    | .error _    => { response with errorCode := .unknown }
    | .ok records => { response with records := some (joinRecordPayloads records) }

-- `known` is whether the registry has the partition, `log` the outcome of opening its log.
def fetchPartition {σ : Type*} (ops : Fetchable σ) (known : Bool) (log : Except IOError σ)
    (led : Option Replication.PartitionState)
    (replicaID partitionIndex fetchOffset partitionMaxBytes now : Int) :
    Option Replication.PartitionState × List Replication.Waiter × FetchPartitionResponse :=
  let response : FetchPartitionResponse := { index := partitionIndex }
  if ¬known then
    (led, [], { response with errorCode := .unknownTopicOrPartition })
  else
    match log with
    | .error _ => (led, [], { response with errorCode := .unknown })
    | .ok log =>
      let endOffset := ops.endOffset log
      let (led, released, highWatermark) := recordFetch led replicaID fetchOffset endOffset now
      (led, released, answerFetch ops log partitionIndex endOffset highWatermark fetchOffset partitionMaxBytes)

def writeFetchResponse (responses : List FetchTopicResponse) : Bytes :=
  writeArrayLen responses.length ++ (responses.map fun topicResponse =>
    writeString topicResponse.name ++ writeArrayLen topicResponse.partitions.length ++
      (topicResponse.partitions.map fun partitionResponse =>
        writeInt32 partitionResponse.index ++ writeInt16 partitionResponse.errorCode.code ++
          writeInt64 partitionResponse.highWatermark ++ writeBytes partitionResponse.records).flatten).flatten

end Network
