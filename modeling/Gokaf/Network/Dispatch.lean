import Gokaf.Group.Coordinator
import Gokaf.Network.Handlers
import Gokaf.Protocol.Header

open Go Protocol Cluster

namespace Network

-- A broker of the cluster with its address.
structure Node where
  id   : Int
  host : Bytes
  port : Int
  deriving DecidableEq, Repr

-- The broker that `main` starts, replication apart.
structure Server where
  broker : Broker
  groups : ConsumerGroup.Coordinator

-- What a request finds otherwise: an environment for each of its elements, the order in which `All` ranges over the
-- topics, and what arrives on the channels of the groups, if anything does.
structure Surroundings where
  env       : Nat → Env
  now       : Int
  host      : Bytes
  port      : Int
  nodes     : List Node
  all       : (topics : Topic.Registry) → { ts : List Topic.Topic // topics.All ts }
  dropPings : Bool
  joined    : Nat → Option ConsumerGroup.JoinResult
  synced    : Nat → Option ConsumerGroup.SyncResult

structure PartitionInfo where
  id            : Int
  leader        : Int
  replicas      : List Int
  isr           : List Int
  startOffset   : Int
  endOffset     : Int
  highWatermark : Int
  deriving DecidableEq, Repr

structure TopicInfo where
  name       : Bytes
  partitions : List PartitionInfo
  deriving DecidableEq, Repr

-- What replication says about a partition, if this broker leads it.
def describePartition (env : Env) (topicName : Bytes) (p : Topic.Partition) (startOffset endOffset : Int) :
    PartitionInfo :=
  let led := env.led topicName p.id
  let live := led.elim [] (·.isr env.now)
  { id := p.id, leader := p.leader, replicas := p.replicas, startOffset, endOffset
    isr           := if live = [] then p.isr else live
    highWatermark := led.elim endOffset fun state => (state.updateHighWatermark endOffset env.now).fst.highWatermark }

namespace Broker

-- The log is opened only on a replica.
def partitionInfo (env : Env) (topicName : Bytes) (p : Topic.Partition) : StateM Broker PartitionInfo := fun b =>
  let (logs, startOffset, endOffset) :=
    if env.config.nodeID ∈ p.replicas then
      match b.logs.log topicName p.id with
      | (logs, .error _) => (logs, 0, 0)
      | (logs, .ok log)  => (logs, log.startOffset, log.endOffset)
    else
      (b.logs, 0, 0)
  (describePartition env topicName p startOffset endOffset, { b with logs })

def topicInfos (env : Env) (all : List Topic.Topic) : StateM Broker (List TopicInfo) :=
  all.mapM fun t => do return { name := t.name, partitions := ← t.partitions.mapM (partitionInfo env t.name) }

def fetchOffset (b : Broker) (key : Offset.Key) : Int :=
  (b.offsets.lookup key).getD (-1)

-- What `applyTopic` does to the registry.
def applyTopic (b : Broker) (name : Bytes) (partitions : List Topic.Partition) : Broker :=
  { b with topics := b.topics.upsert { name, partitions } }

def initProducerID (b : Broker) : Broker × Int × Int :=
  let (producers, pid, epoch) := b.producers.initProducerID
  ({ b with producers }, pid, epoch)

end Broker

section Decoder

variable {m : Type → Type*} [Monad m] [MonadStateOf Bytes m] [MonadExceptOf Fault m]

def readJoinGroupProtocols : m (List ConsumerGroup.Protocol) := do
  let protocolCount ← readArrayLen
  makeSlice protocolCount
  forRange protocolCount do
    let name ← readString
    let metadata ← readBytes
    return { name, metadata := metadata.getD [] }

-- `make(map[string][]byte, assignmentCount)` takes the count for a hint.
def readSyncGroupAssignments : m ConsumerGroup.Assignments := do
  let assignmentCount ← readArrayLen
  let assignments ← forRange assignmentCount do
    let memberID ← readString
    let assignment ← readBytes
    return (memberID, assignment.getD [])
  return assignments.foldl (fun assignments a => assignments.insert a.fst a.snd) ∅

def readJoinRequest (header : RequestHeader) : m ConsumerGroup.JoinRequest := do
  let groupID ← readString
  let sessionTimeoutMS ← readInt32
  let memberID ← readString
  let _ ← readString
  let protocols ← readJoinGroupProtocols
  return { groupID, clientID := header.clientID.getD [], sessionTimeoutMS, memberID, protocols }

def readSyncRequest : m ConsumerGroup.SyncRequest := do
  let groupID ← readString
  let generationID ← readInt32
  let memberID ← readString
  let assignments ← readSyncGroupAssignments
  return { groupID, generationID, memberID, assignments }

def readHeartbeatRequest : m ConsumerGroup.HeartbeatRequest := do
  let groupID ← readString
  let generationID ← readInt32
  let memberID ← readString
  return { groupID, generationID, memberID }

def readLeaveRequest : m ConsumerGroup.LeaveRequest := do
  let groupID ← readString
  let memberID ← readString
  return { groupID, memberID }

-- The topics that a metadata request asks for, and the names among them that nobody knows.
def describeTopics (topicInfos : m (List TopicInfo)) : m (List TopicInfo × List Bytes) := do
  let topicCount ← readArrayLen
  let allTopics ← topicInfos
  let topicByName : Map Bytes TopicInfo := allTopics.foldl (fun topics info => topics.insert info.name info) ∅
  -- There are no names to read if the count is not positive, and then all topics are meant.
  let names ← forRange topicCount readString
  let topics := if topicCount ≤ 0 then allTopics else names.filterMap topicByName.lookup
  return (topics, names.filter (· ∉ topicByName))

def readInt32Array : m (List Int) := do
  let count ← readArrayLen
  makeSlice count
  forRange count readInt32

def decodeApplyTopic : m (Bytes × List Topic.Partition) := do
  let name ← readString
  let partitionCount ← readArrayLen
  makeSlice partitionCount
  let partitions ← forRange partitionCount do
    let id ← readInt32
    let leader ← readInt32
    let replicas ← readInt32Array
    let isr ← readInt32Array
    return { id, leader, replicas, isr }
  return (name, partitions)

def writePayloads : Except IOError (List Bytes) → m Bytes
  | .error e     => fail (.io e)
  | .ok payloads => return writeArray (writeBytes ∘ some) payloads

def answerPing (dropped : Bool) : m Bytes :=
  if dropped then fail .pingDropped else return []

end Decoder

section Responses

def writeListOffsetsResponse : List (Bytes × List ListOffsetsPartitionResponse) → Bytes :=
  writeTopics fun r => writeInt32 r.index ++ writeInt16 r.errorCode.code ++ writeInt64 r.timestamp ++
    writeInt64 r.offset

def writeOffsetFetchResponse : List (Bytes × List (Int × Int)) → Bytes :=
  writeTopics fun r =>
    writeInt32 r.fst ++ writeInt64 r.snd ++ writeNullableString none ++ writeInt16 ErrorCode.none.code

def writeInt32Array : List Int → Bytes :=
  writeArray writeInt32

def writeMetadataTopic (t : TopicInfo) : Bytes :=
  writeInt16 ErrorCode.none.code ++ writeString t.name ++ writeArray (fun p =>
    writeInt16 ErrorCode.none.code ++ writeInt32 p.id ++ writeInt32 p.leader ++ writeInt32Array p.replicas ++
      writeInt32Array p.isr) t.partitions

def writeUnknownTopic (name : Bytes) : Bytes :=
  writeInt16 ErrorCode.unknownTopicOrPartition.code ++ writeString name ++ writeArrayLen 0

def writeMetadataResponse (nodes : List Node) (controllerID : Int) (topics : List TopicInfo)
    (unknownTopics : List Bytes) : Bytes :=
  writeArray (fun n => writeInt32 n.id ++ writeString n.host ++ writeInt32 n.port) nodes ++ writeInt32 controllerID ++
    writeArrayLen (topics.length + unknownTopics.length) ++ topics.flatMap writeMetadataTopic ++
    unknownTopics.flatMap writeUnknownTopic

def writeInitProducerIDResponse (pid epoch : Int) : Bytes :=
  writeInt32 0 ++ writeInt16 ErrorCode.none.code ++ writeInt64 pid ++ writeInt16 epoch

def writeFindCoordinatorResponse (w : Surroundings) : Bytes :=
  writeInt16 ErrorCode.none.code ++ writeInt32 (w.env 0).config.nodeID ++ writeString w.host ++ writeInt32 w.port

def writeJoinGroupResponse (result : ConsumerGroup.JoinResult) : Bytes :=
  writeInt16 result.errorCode.code ++ writeInt32 result.generationID ++ writeString result.protocol ++
    writeString result.leaderID ++ writeString result.memberID ++
    writeArray (fun m => writeString m.id ++ writeBytes (some m.metadata)) result.members

def writeSyncGroupResponse (result : ConsumerGroup.SyncResult) : Bytes :=
  writeInt16 result.errorCode.code ++ writeBytes (some result.assignment)

end Responses

section Handlers

variable (env : Nat → Env)

def handleListOffsets : Handler Bytes := do
  let responses ← listOffsetsTopics fun topicName partitionIndex timestamp =>
    execute env fun _ b => b.listOffset topicName partitionIndex timestamp
  return writeListOffsetsResponse responses

def handleOffsetFetch : Handler Bytes := do
  let responses ← offsetFetchTopics fun key =>
    execute env fun _ b => (b, b.fetchOffset key)
  return writeOffsetFetchResponse responses

def handleInitProducerID : Handler Bytes := do
  let _ ← readNullableString
  let _ ← readInt32
  let r ← execute env fun _ b => b.initProducerID
  return writeInitProducerIDResponse r.fst r.snd

def handleApplyTopic : Handler Bytes := do
  let r ← decodeApplyTopic
  execute env fun _ b => (b.applyTopic r.fst r.snd, ())
  return writeTopicResults [(r.fst, .none)]

def handleFetchMetadataLog : Handler Bytes := do
  let fromOffset ← readInt64
  let payloads ← execute env fun _ b => (b, MetadataLog.readRawFrom b.metadata fromOffset)
  writePayloads payloads

end Handlers

structure SupportedAPI where
  apiKey     : Int
  minVersion : Int
  maxVersion : Int
  deriving DecidableEq, Repr

def supportedAPIs : List SupportedAPI :=
  [⟨0, 0, 0⟩, ⟨1, 0, 0⟩, ⟨2, 1, 1⟩, ⟨3, 0, 0⟩, ⟨8, 0, 0⟩, ⟨9, 0, 0⟩, ⟨10, 0, 0⟩, ⟨11, 0, 0⟩, ⟨12, 0, 0⟩, ⟨13, 0, 0⟩,
    ⟨14, 0, 0⟩, ⟨18, 0, 0⟩, ⟨19, 0, 0⟩, ⟨20, 0, 0⟩, ⟨22, 0, 0⟩]

def writeApiVersionsResponse : Bytes :=
  writeInt16 0 ++ writeArray (fun api =>
    writeInt16 api.apiKey ++ writeInt16 api.minVersion ++ writeInt16 api.maxVersion) supportedAPIs

namespace Server

variable (w : Surroundings)

-- The elements of each request are counted from zero.
def onBroker {α : Type} (x : Handler α) : Effect Server α :=
  x.zoom (⟨·.broker, 0⟩) fun h s => { s with broker := h.broker }

def onGroups {α : Type} (f : ConsumerGroup.Coordinator → ConsumerGroup.Coordinator × α) : Effect Server α :=
  .update fun s => ((f s.groups).snd, { s with groups := (f s.groups).fst })

-- `<-ch`
def receive {α : Type} (arrived : Option α) : Effect Server α :=
  match arrived with
  | none   => throw .parked
  | some a => pure a

def topicInfos : Effect Server (List TopicInfo) :=
  .update fun s =>
    let (infos, broker) := (Broker.topicInfos (w.env 0) (w.all s.broker.topics)).run s.broker
    (infos, { s with broker })

def handleMetadata : Effect Server Bytes := do
  let topics ← describeTopics (topicInfos w)
  return writeMetadataResponse w.nodes (w.env 0).controllerID topics.fst topics.snd

def handleFindCoordinator : Effect Server Bytes := do
  let _ ← readString
  return writeFindCoordinatorResponse w

def handleJoinGroup (header : RequestHeader) : Effect Server Bytes := do
  let request ← readJoinRequest header
  let joined ← onGroups fun c => c.join w.now request
  let result ← receive (w.joined joined.snd)
  return writeJoinGroupResponse result

def handleHeartbeat : Effect Server Bytes := do
  let request ← readHeartbeatRequest
  let errorCode ← onGroups fun c => c.heartbeat w.now request
  return writeInt16 errorCode.code

def handleLeaveGroup : Effect Server Bytes := do
  let request ← readLeaveRequest
  let errorCode ← onGroups fun c => c.leave w.now request
  return writeInt16 errorCode.code

def handleSyncGroup : Effect Server Bytes := do
  let request ← readSyncRequest
  let synced ← onGroups fun c => c.sync w.now request
  let result ← receive <|
    match synced with
    | .answer result | .distributed result _ => some result
    | .receive channel                       => w.synced channel
  return writeSyncGroupResponse result

def handleApiVersions : Effect Server Bytes :=
  return writeApiVersionsResponse

def handlePing : Effect Server Bytes :=
  answerPing w.dropPings

end Server

inductive API
  | produce
  | fetch
  | listOffsets
  | metadata
  | offsetCommit
  | offsetFetch
  | findCoordinator
  | joinGroup
  | heartbeat
  | leaveGroup
  | syncGroup
  | apiVersions
  | createTopics
  | deleteTopics
  | initProducerID
  | applyTopic
  | ping
  | fetchMetadataLog
  deriving DecidableEq, Repr

-- The keys of `dispatchTable`.
def API.ofKey (apiKey : Int) : Option API :=
  List.lookup apiKey [
    (0, produce), (1, fetch), (2, listOffsets), (3, metadata), (8, offsetCommit), (9, offsetFetch),
    (10, findCoordinator), (11, joinGroup), (12, heartbeat), (13, leaveGroup), (14, syncGroup), (18, apiVersions),
    (19, createTopics), (20, deleteTopics), (22, initProducerID), (1000, applyTopic), (1001, ping),
    (1002, fetchMetadataLog)]

namespace Server

variable (w : Surroundings)

def dispatchTable (header : RequestHeader) : API → Effect Server Bytes
  | .produce          => onBroker (handleProduce w.env)
  | .fetch            => onBroker (handleFetch w.env)
  | .listOffsets      => onBroker (handleListOffsets w.env)
  | .metadata         => handleMetadata w
  | .offsetCommit     => onBroker (handleOffsetCommit w.env)
  | .offsetFetch      => onBroker (handleOffsetFetch w.env)
  | .findCoordinator  => handleFindCoordinator w
  | .joinGroup        => handleJoinGroup w header
  | .heartbeat        => handleHeartbeat w
  | .leaveGroup       => handleLeaveGroup w
  | .syncGroup        => handleSyncGroup w
  | .apiVersions      => handleApiVersions
  | .createTopics     => onBroker (handleCreateTopics w.env)
  | .deleteTopics     => onBroker (handleDeleteTopics w.env)
  | .initProducerID   => onBroker (handleInitProducerID w.env)
  | .applyTopic       => onBroker (handleApplyTopic w.env)
  | .ping             => handlePing w
  | .fetchMetadataLog => onBroker (handleFetchMetadataLog w.env)

def handle (header : RequestHeader) : Effect Server Bytes :=
  match API.ofKey header.apiKey with
  | some api => dispatchTable w header api
  | none     => return writeInt16 (-1)

def respond : Effect Server Bytes := do
  let header ← readRequestHeader
  let responseBody ← handle w header
  return writeResponseHeader header.correlationID ++ responseBody

-- `Dispatch` up to `WriteFrame`.
def dispatch (s : Server) (payload : Bytes) : Except Fault Bytes × Server :=
  match (respond w).exec payload s with
  | (.ok (response, _), s) => (.ok response, s)
  | (.error fault, s)      => (.error fault, s)

end Server
end Network
