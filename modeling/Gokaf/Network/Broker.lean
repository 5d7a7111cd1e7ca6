import Gokaf.Network.Consumer
import Gokaf.Network.Metadata
import Gokaf.Offset.Store
import Gokaf.Storage.Manager

open Go Protocol Cluster

namespace Network

-- "__consumer_offsets"
def consumerOffsets : Bytes :=
  [95, 95, 99, 111, 110, 115, 117, 109, 101, 114, 95, 111, 102, 102, 115, 101, 116, 115]

-- "__cluster_metadata"
def clusterMetadata : Bytes :=
  [95, 95, 99, 108, 117, 115, 116, 101, 114, 95, 109, 101, 116, 97, 100, 97, 116, 97]

-- `filepath.Join(*dataDir, "__cluster_metadata-0")`
def metadataDir (dataDir : Bytes) : Path :=
  .join dataDir (clusterMetadata ++ [45, 48])

-- The parts of a broker that a request can change, groups and replication apart. The metadata log has its files in
-- `metadataDir`, on the disk of the manager, and the offset store has its log in the manager.
structure Broker where
  topics    : Topic.Registry
  metadata  : Storage.Log
  logs      : Storage.Manager
  producers : Producer.Manager
  offsets   : Offset.Offsets

-- What a request finds otherwise. `replicated` says whether `WaitForHighWatermark` returns in time.
structure Env where
  config       : Config
  controllerID : Int
  now          : Int
  led          : Bytes → Int → Option Replication.PartitionState
  replicated   : Bytes → Int → Int → Bool

structure ListOffsetsPartitionResponse where
  index     : Int
  errorCode : ErrorCode := .unknownTopicOrPartition
  timestamp : Int := -1
  offset    : Int := -1
  deriving DecidableEq, Repr

def listOffsetLatest : Int := -1

def waitForAllAcks (env : Env) (topicName : Bytes) (partitionIndex acks : Int) : Produced → ProducePartitionResponse
  | .answer response         => response
  | .waitForAllAcks response =>
    if acks ≠ -1 ∨ response.errorCode ≠ .none then
      response
    else if env.replicated topicName partitionIndex (int64 (response.baseOffset + 1)) then
      response
    else
      { response with errorCode := .requestTimedOut }

namespace Broker

-- `t.Partitions[partitionIndex]`, with the checks before it.
def partition? (b : Broker) (topicName : Bytes) (partitionIndex : Int) : Option Topic.Partition :=
  (b.topics.get topicName).bind fun t =>
    if partitionIndex < 0 then none else t.partitions[partitionIndex.toNat]?

-- The metadata log after an operation on it.
def setMetadata (b : Broker) (metadata : Storage.Log) : Broker :=
  { b with
    metadata
    logs := { b.logs with disk := b.logs.disk.write (metadataDir b.logs.dataDir) metadata.dir } }

def appendMetadata (b : Broker) (record : Record) : Broker × ErrorCode :=
  match MetadataLog.append b.metadata record with
  | (metadata, .error _) => (b.setMetadata metadata, .unknown)
  | (metadata, .ok _)    => ({ b.setMetadata metadata with topics := applyMetadataRecord b.topics record }, .none)

def createTopic (env : Env) (b : Broker) (name : Bytes) (numPartitions replicationFactor : Int) : Broker × ErrorCode :=
  match newPartitions env.config.cluster.ids numPartitions replicationFactor with
  | .error code    => (b, code)
  | .ok partitions =>
    if (b.topics.get name).isSome then
      (b, .topicAlreadyExists)
    else
      b.appendMetadata ⟨.topicUpsert, name, partitions⟩

def deleteTopic (b : Broker) (name : Bytes) : Broker × ErrorCode :=
  if (b.topics.get name).isSome then
    b.appendMetadata ⟨.topicDelete, name, []⟩
  else
    (b, .unknownTopicOrPartition)

-- The log is opened only for a batch that is valid and for this broker.
def producePartition (env : Env) (b : Broker) (topicName : Bytes) (partitionIndex : Int) (batch : Bytes) (acks : Int) :
    Broker × ProducePartitionResponse :=
  let leader := (b.partition? topicName partitionIndex).map (·.leader)
  let (logs, log) :=
    if leader = some env.config.nodeID ∧ validRecordBatch batch then
      b.logs.log topicName partitionIndex
    else
      (b.logs, .error .failed)
  match Network.producePartition Storage.Log.appendWithOffset env.config.nodeID leader topicName partitionIndex batch
      b.producers log with
  | (producers, .error _, produced) =>
    ({ b with logs, producers }, waitForAllAcks env topicName partitionIndex acks produced)
  | (producers, .ok log, produced) =>
    ({ b with logs := logs.set topicName partitionIndex log, producers },
      waitForAllAcks env topicName partitionIndex acks produced)

def fetchPartition (env : Env) (b : Broker) (replicaID : Int) (topicName : Bytes)
    (partitionIndex fetchOffset partitionMaxBytes : Int) : Broker × FetchPartitionResponse :=
  let known := (b.partition? topicName partitionIndex).isSome
  let (logs, log) := if known then b.logs.log topicName partitionIndex else (b.logs, .error .failed)
  let (_, _, response) := Network.fetchPartition storageLog known log (env.led topicName partitionIndex) replicaID
    partitionIndex fetchOffset partitionMaxBytes env.now
  ({ b with logs }, response)

def listOffset (b : Broker) (topicName : Bytes) (partitionIndex timestamp : Int) :
    Broker × ListOffsetsPartitionResponse :=
  if (b.partition? topicName partitionIndex).isSome then
    match b.logs.log topicName partitionIndex with
    | (logs, .error _) => ({ b with logs }, { index := partitionIndex, errorCode := .unknown })
    | (logs, .ok log)  =>
      let offset := if timestamp = listOffsetLatest then log.endOffset else log.startOffset
      ({ b with logs }, { index := partitionIndex, errorCode := .none, offset })
  else
    (b, { index := partitionIndex })

-- `Offsets.Commit`. The store has got its log from the manager.
def commit (env : Env) (b : Broker) (key : Offset.Key) (offset : Int) : Broker × Except IOError Unit :=
  match b.logs.log consumerOffsets 0 with
  | (logs, .error e) => ({ b with logs }, .error e)
  | (logs, .ok log)  =>
    match (Offset.Store.mk log b.offsets).commit env.now key offset with
    | (store, r) => ({ b with logs := logs.set consumerOffsets 0 store.log, offsets := store.offsets }, r)

-- What `main` does with the data directory. It opens the metadata log first.
def start (logs : Storage.Manager) : Except Fault Broker :=
  match Storage.openLog logs.disk (metadataDir logs.dataDir) with
  | (_, .error e)        => .error (.error (.io e))
  | (disk, .ok metadata) =>
    match { logs with disk }.log consumerOffsets 0 with
    | (_, .error e)   => .error (.error (.io e))
    | (logs, .ok log) => do
      let offsets ← Offset.replay log
      let topics ← Metadata.Broker.replay metadata
      return { topics, metadata, logs, producers := .new, offsets }

-- The broker that starts on an empty data directory.
def init (dataDir : Bytes) : Broker where
  topics    := ∅
  metadata  := .empty
  logs      :=
    ((Storage.Manager.new dataDir (Storage.openLog .empty (metadataDir dataDir)).fst).log consumerOffsets 0).fst
  producers := .new
  offsets   := ∅

def restart (b : Broker) : Except Fault Broker :=
  start b.logs.close

end Broker
end Network
