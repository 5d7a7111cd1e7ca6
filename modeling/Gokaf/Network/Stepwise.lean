import Gokaf.Go.Routine
import Gokaf.Network.Dispatch

open Go Protocol Cluster

-- The handlers as goroutines. A step is what they do under one lock, of the registry, the metadata log, the manager of
-- the logs, a log, the producers, the offsets, replication or the groups.
namespace Network.Stepwise

section Broker

variable {α : Type}

abbrev Handler := Goroutine Surroundings Handling

-- The first step of an element of the request. The element finds `env` at its own position.
def enter (f : Env → Broker → Broker × α) : Handler (Nat × α) :=
  .access fun w s => ((s.count, (f (w.env s.count) s.broker).snd), ⟨(f (w.env s.count) s.broker).fst, s.count + 1⟩)

-- A further step of the element at position `i`.
def proceed (i : Nat) (f : Env → Broker → Broker × α) : Handler α :=
  .access fun w s => ((f (w.env i) s.broker).snd, { s with broker := (f (w.env i) s.broker).fst })

def once (f : Env → Broker → Broker × α) : Handler α := do
  return (← enter f).snd

-- `Logs.Log`, or a call of a method of the log that it has returned.
def onLog (i : Nat) (topicName : Bytes) (partitionIndex : Int) (f : Storage.Log → α) : Handler (Except IOError α) :=
  proceed i fun _ b =>
    let (logs, log) := b.logs.log topicName partitionIndex
    ({ b with logs }, log.map f)

-- What `producePartition` checks before it opens the log.
def refuse (nodeID : Int) (leader : Option Int) (batch : Bytes) : Option ErrorCode :=
  match leader with
  | none        => some .unknownTopicOrPartition
  | some leader =>
    if leader ≠ nodeID then
      some .notLeaderForPartition
    else if ¬validRecordBatch batch then
      some .corruptMessage
    else
      none

-- `AppendBatch` or `AppendWithOffset`. The append itself is a single step under the lock of the producers, too.
def appendBatch (nodeID : Int) (topicName : Bytes) (partitionIndex : Int) (batch : Bytes) (b : Broker) :
    Broker × Produced :=
  let (logs, log) := b.logs.log topicName partitionIndex
  match Network.producePartition Storage.Log.appendWithOffset nodeID (some nodeID) topicName partitionIndex batch
      b.producers log with
  | (producers, .error _, produced) => ({ b with logs, producers }, produced)
  | (producers, .ok log, produced)  => ({ b with logs := logs.set topicName partitionIndex log, producers }, produced)

def producePartition (topicName : Bytes) (partitionIndex : Int) (batch : Bytes) (acks : Int) :
    Handler ProducePartitionResponse := do
  let (i, nodeID, leader) ← enter fun env b =>
    (b, env.config.nodeID, (b.partition? topicName partitionIndex).map (·.leader))
  match refuse nodeID leader batch with
  | some errorCode => return { index := partitionIndex, errorCode }
  | none           =>
    match ← onLog i topicName partitionIndex fun _ => () with
    | .error _ => return { index := partitionIndex }
    | .ok ()   =>
      match ← proceed i fun _ b => appendBatch nodeID topicName partitionIndex batch b with
      | .answer response         => return response
      | .waitForAllAcks response =>
        if acks ≠ -1 ∨ response.errorCode ≠ .none then
          return response
        else
          proceed i fun env b => (b, waitForAllAcks env topicName partitionIndex acks (.waitForAllAcks response))

def fetchPartition (replicaID : Int) (topicName : Bytes) (partitionIndex fetchOffset partitionMaxBytes : Int) :
    Handler FetchPartitionResponse := do
  let (i, known) ← enter fun _ b => (b, (b.partition? topicName partitionIndex).isSome)
  if ¬known then
    return { index := partitionIndex, errorCode := .unknownTopicOrPartition }
  else
    match ← onLog i topicName partitionIndex fun _ => () with
    | .error _ => return { index := partitionIndex, errorCode := .unknown }
    | .ok ()   =>
      match ← onLog i topicName partitionIndex (·.endOffset) with
      | .error _      => return { index := partitionIndex, errorCode := .unknown }
      | .ok endOffset =>
        let highWatermark ← proceed i fun env b =>
          (b, (recordFetch (env.led topicName partitionIndex) replicaID fetchOffset endOffset env.now).snd.snd)
        match ← onLog i topicName partitionIndex fun log =>
            answerFetch storageLog log partitionIndex endOffset highWatermark fetchOffset partitionMaxBytes with
        | .error _     => return { index := partitionIndex, errorCode := .unknown }
        | .ok response => return response

def listOffset (topicName : Bytes) (partitionIndex timestamp : Int) : Handler ListOffsetsPartitionResponse := do
  let (i, known) ← enter fun _ b => (b, (b.partition? topicName partitionIndex).isSome)
  if ¬known then
    return { index := partitionIndex }
  else
    match ← onLog i topicName partitionIndex fun _ => () with
    | .error _ => return { index := partitionIndex, errorCode := .unknown }
    | .ok ()   =>
      match ← onLog i topicName partitionIndex fun log =>
          if timestamp = listOffsetLatest then log.endOffset else log.startOffset with
      | .error _   => return { index := partitionIndex, errorCode := .unknown }
      | .ok offset => return { index := partitionIndex, errorCode := .none, offset }

-- `MetadataLog.Append` and `ApplyMetadataRecord`.
def appendMetadata (i : Nat) (record : Record) : Handler ErrorCode := do
  match ← proceed i fun _ b =>
      let (metadata, r) := MetadataLog.append b.metadata record
      (b.setMetadata metadata, r) with
  | .error _ => return .unknown
  | .ok _    => proceed i fun _ b => ({ b with topics := applyMetadataRecord b.topics record }, .none)

-- The check that `handleCreateTopics` and `handleDeleteTopics` make for each topic, with the position of the topic.
def asController (f : Nat → Config → Handler ErrorCode) : Handler ErrorCode := do
  let (i, controllerID, config) ← enter fun env b => (b, env.controllerID, env.config)
  if controllerID ≠ config.nodeID then return .notController else f i config

def createTopic (name : Bytes) (numPartitions replicationFactor : Int) (i : Nat) (config : Config) :
    Handler ErrorCode := do
  match newPartitions config.cluster.ids numPartitions replicationFactor with
  | .error code    => return code
  | .ok partitions =>
    if ← proceed i fun _ b => (b, (b.topics.get name).isSome) then
      return .topicAlreadyExists
    else
      appendMetadata i ⟨.topicUpsert, name, partitions⟩

def deleteTopic (name : Bytes) (i : Nat) : Handler ErrorCode := do
  if ← proceed i fun _ b => (b, (b.topics.get name).isSome) then
    appendMetadata i ⟨.topicDelete, name, []⟩
  else
    return .unknownTopicOrPartition

def handleProduce : Handler Bytes := do
  let responses ← produceTopics fun topicName partitionIndex batch acks _ =>
    producePartition topicName partitionIndex batch acks
  return writeProduceResponse responses

def handleFetch : Handler Bytes := do
  let responses ← fetchTopics fetchPartition
  return writeFetchResponse (responses.map fun t => ⟨t.fst, t.snd⟩)

def handleListOffsets : Handler Bytes := do
  let responses ← listOffsetsTopics listOffset
  return writeListOffsetsResponse responses

-- `Commit` appends to the log under the lock of the store.
def handleOffsetCommit : Handler Bytes := do
  let responses ← offsetCommitTopics fun key offset => once fun env b => b.commitOffset env key offset
  return writeOffsetCommitResponse responses

def handleOffsetFetch : Handler Bytes := do
  let responses ← offsetFetchTopics fun key => once fun _ b => (b, b.fetchOffset key)
  return writeOffsetFetchResponse responses

def handleCreateTopics : Handler Bytes := do
  let results ← createTopics fun name numPartitions replicationFactor =>
    asController (createTopic name numPartitions replicationFactor)
  return writeTopicResults results

def handleDeleteTopics : Handler Bytes := do
  let results ← deleteTopics fun name => asController fun i _ => deleteTopic name i
  return writeTopicResults results

def handleInitProducerID : Handler Bytes := do
  let _ ← readNullableString
  let _ ← readInt32
  let r ← once fun _ b => b.initProducerID
  return writeInitProducerIDResponse r.fst r.snd

def handleApplyTopic : Handler Bytes := do
  let r ← decodeApplyTopic
  once fun _ b => (b.applyTopic r.fst r.snd, ())
  return writeTopicResults [(r.fst, .none)]

-- The last read of `ReadRawFrom` finds nothing, and the log only grows, so all of it has been read as it is then.
def handleFetchMetadataLog : Handler Bytes := do
  let fromOffset ← readInt64
  let payloads ← once fun _ b => (b, MetadataLog.readRawFrom b.metadata fromOffset)
  writePayloads payloads

end Broker

section Server

variable {α : Type}

def onGroups (f : Int → ConsumerGroup.Coordinator → ConsumerGroup.Coordinator × α) : Goroutine Surroundings Server α :=
  .access fun w s => ((f w.now s.groups).snd, { s with groups := (f w.now s.groups).fst })

def openReplica (topicName : Bytes) (p : Topic.Partition) : Goroutine Surroundings Server Bool :=
  .access fun w s =>
    if (w.env 0).config.nodeID ∈ p.replicas then
      let (logs, log) := s.broker.logs.log topicName p.id
      (log.isOk, { s with broker.logs := logs })
    else
      (false, s)

def offsetOf (topicName : Bytes) (partition : Int) (f : Storage.Log → Int) : Goroutine Surroundings Server Int :=
  .access fun _ s =>
    let (logs, log) := s.broker.logs.log topicName partition
    (log.toOption.elim 0 f, { s with broker.logs := logs })

def partitionInfo (topicName : Bytes) (p : Topic.Partition) : Goroutine Surroundings Server PartitionInfo := do
  if ← openReplica topicName p then
    let startOffset ← offsetOf topicName p.id (·.startOffset)
    let endOffset ← offsetOf topicName p.id (·.endOffset)
    .access fun w s => (describePartition (w.env 0) topicName p startOffset endOffset, s)
  else
    .access fun w s => (describePartition (w.env 0) topicName p 0 0, s)

def topicInfos : Goroutine Surroundings Server (List TopicInfo) := do
  let all ← .access fun w s => ((w.all s.broker.topics).val, s)
  all.mapM fun t => do return { name := t.name, partitions := ← t.partitions.mapM (partitionInfo t.name) }

def handleMetadata : Goroutine Surroundings Server Bytes := do
  let topics ← describeTopics topicInfos
  .access fun w s => (writeMetadataResponse w.nodes (w.env 0).controllerID topics.fst topics.snd, s)

def handleFindCoordinator : Goroutine Surroundings Server Bytes := do
  let _ ← readString
  .access fun w s => (writeFindCoordinatorResponse w, s)

def handleJoinGroup (header : RequestHeader) : Goroutine Surroundings Server Bytes := do
  let request ← readJoinRequest header
  let joined ← onGroups fun now c => c.join now request
  let result ← .await (·.joined joined.snd)
  return writeJoinGroupResponse result

def handleHeartbeat : Goroutine Surroundings Server Bytes := do
  let request ← readHeartbeatRequest
  let errorCode ← onGroups fun now c => c.heartbeat now request
  return writeInt16 errorCode.code

def handleLeaveGroup : Goroutine Surroundings Server Bytes := do
  let request ← readLeaveRequest
  let errorCode ← onGroups fun now c => c.leave now request
  return writeInt16 errorCode.code

def awaitSync : ConsumerGroup.Synced → Goroutine Surroundings Server ConsumerGroup.SyncResult
  | .answer result | .distributed result _ => return result
  | .receive channel                       => .await (·.synced channel)

def handleSyncGroup : Goroutine Surroundings Server Bytes := do
  let request ← readSyncRequest
  let synced ← onGroups fun now c => c.sync now request
  let result ← awaitSync synced
  return writeSyncGroupResponse result

def handleApiVersions : Goroutine Surroundings Server Bytes :=
  return writeApiVersionsResponse

def handlePing : Goroutine Surroundings Server Bytes := do
  let dropped ← .access fun w s => (w.dropPings, s)
  answerPing dropped

end Server

-- What the goroutine of a connection works on. How many elements it has executed is its own.
structure Serving where
  server : Server
  count  : Nat

def onBroker {α : Type} (x : Handler α) : Goroutine Surroundings Serving α :=
  x.zoom (fun s => ⟨s.server.broker, s.count⟩) fun h s => ⟨{ s.server with broker := h.broker }, h.count⟩

def onServer {α : Type} (x : Goroutine Surroundings Server α) : Goroutine Surroundings Serving α :=
  x.zoom (·.server) fun server s => { s with server }

def dispatchTable (header : RequestHeader) : API → Goroutine Surroundings Serving Bytes
  | .produce          => onBroker handleProduce
  | .fetch            => onBroker handleFetch
  | .listOffsets      => onBroker handleListOffsets
  | .metadata         => onServer handleMetadata
  | .offsetCommit     => onBroker handleOffsetCommit
  | .offsetFetch      => onBroker handleOffsetFetch
  | .findCoordinator  => onServer handleFindCoordinator
  | .joinGroup        => onServer (handleJoinGroup header)
  | .heartbeat        => onServer handleHeartbeat
  | .leaveGroup       => onServer handleLeaveGroup
  | .syncGroup        => onServer handleSyncGroup
  | .apiVersions      => onServer handleApiVersions
  | .createTopics     => onBroker handleCreateTopics
  | .deleteTopics     => onBroker handleDeleteTopics
  | .initProducerID   => onBroker handleInitProducerID
  | .applyTopic       => onBroker handleApplyTopic
  | .ping             => onServer handlePing
  | .fetchMetadataLog => onBroker handleFetchMetadataLog

def handle (header : RequestHeader) : Goroutine Surroundings Serving Bytes :=
  match API.ofKey header.apiKey with
  | some api => dispatchTable header api
  | none     => return writeInt16 (-1)

def respond : Goroutine Surroundings Serving Bytes := do
  let header ← readRequestHeader
  let responseBody ← handle header
  return writeResponseHeader header.correlationID ++ responseBody

end Network.Stepwise
