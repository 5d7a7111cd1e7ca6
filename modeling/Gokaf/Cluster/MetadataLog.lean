import Gokaf.Protocol.Types
import Gokaf.Storage.Log
import Gokaf.Topic.Partition

open Go Protocol

namespace Cluster

inductive RecordType
  | topicUpsert
  | topicDelete
  deriving DecidableEq, Repr

def RecordType.code : RecordType → Int
  | topicUpsert => 0
  | topicDelete => 1

structure Record where
  type       : RecordType
  topic      : Bytes
  partitions : List Topic.Partition
  deriving DecidableEq, Repr

def writeMetadataIDs (ids : List Int) : Bytes :=
  writeArrayLen ids.length ++ ids.flatMap writeInt32

def readMetadataIDs : Decoder (List Int) := do
  let count ← readArrayLen
  makeSlice count
  forRange count readInt32

def writePartition (p : Topic.Partition) : Bytes :=
  writeInt32 p.id ++ writeInt32 p.leader ++ writeMetadataIDs p.replicas ++ writeMetadataIDs p.isr

def readPartition : Decoder Topic.Partition := do
  let id ← readInt32
  let leader ← readInt32
  let replicas ← readMetadataIDs
  let isr ← readMetadataIDs
  return { id, leader, replicas, isr }

def encodeMetadataRecord (record : Record) : Bytes :=
  writeInt8 record.type.code ++ writeString record.topic ++
    match record.type with
    | .topicUpsert => writeArrayLen record.partitions.length ++ record.partitions.flatMap writePartition
    | .topicDelete => []

def readMetadataRecord : Decoder Record := do
  let typeValue ← readInt8
  if typeValue = RecordType.topicUpsert.code then
    let topic ← readString
    let partitionCount ← readArrayLen
    makeSlice partitionCount
    let partitions ← forRange partitionCount readPartition
    return { type := .topicUpsert, topic, partitions }
  else if typeValue = RecordType.topicDelete.code then
    let topic ← readString
    return { type := .topicDelete, topic, partitions := [] }
  else
    fail (.recordType typeValue)

-- Bytes behind the record are ignored.
def decodeMetadataRecord (payload : Bytes) : Except Fault Record :=
  (readMetadataRecord.run payload).map (·.fst)

-- The metadata log is a storage log of encoded records.
namespace MetadataLog

def append (log : Storage.Log) (record : Record) : Storage.Log × Except IOError Int :=
  log.append (encodeMetadataRecord record)

def appendRaw (log : Storage.Log) (payload : Bytes) : Storage.Log × Except IOError Int :=
  log.append payload

-- One round of the loop of `ReadRawFrom`: nothing is left to read, or there are more payloads.
def readRound (log : Storage.Log) (next : Int) : Except IOError (Option (List Bytes × Int)) := do
  let records ← log.read next (-1)
  return records.getLast?.map fun last => (records.map (·.payload), int64 (last.offset + 1))

-- The loop reads at least one record a round.
def readRawFrom (log : Storage.Log) (offset : Int) : Except IOError (List Bytes) :=
  go (log.endOffset.toNat + 1) offset []
where
  go : Nat → Int → List Bytes → Except IOError (List Bytes)
    | 0, _, _ => .error .failed
    | fuel + 1, next, payloads =>
      match readRound log next with
      | .error e                => .error e
      | .ok none                => .ok payloads
      | .ok (some (more, next)) => go fuel next (payloads ++ more)

def readFrom (log : Storage.Log) (offset : Int) : Except Fault (List Record) :=
  match readRawFrom log offset with
  | .error e => .error (.error (.io e))
  | .ok raw  => raw.mapM decodeMetadataRecord

def replayAll (log : Storage.Log) : Except Fault (List Record) :=
  readFrom log 0

end MetadataLog
end Cluster
