import Gokaf.Cluster.Membership
import Gokaf.Cluster.MetadataLog
import Gokaf.Network.Failover
import Gokaf.Protocol.Errors
import Gokaf.Topic.Assign
import Gokaf.Topic.Registry

open Go Protocol Cluster

namespace Network

def applyMetadataRecord (topics : Topic.Registry) (record : Record) : Topic.Registry :=
  match record.type with
  | .topicUpsert => topics.upsert { name := record.topic, partitions := record.partitions }
  | .topicDelete => (topics.delete record.topic).fst

-- What `createTopic` does before it looks at the registry.
def newPartitions (brokerIDs : List Int) (numPartitions replicationFactor : Int) :
    Except ErrorCode (List Topic.Partition) :=
  if numPartitions ≤ 0 then
    .error .invalidPartitions
  else if replicationFactor ≤ 0 ∨ brokerIDs.length < replicationFactor then
    .error .invalidReplicationFactor
  else
    .ok <| (Topic.assignReplicas numPartitions brokerIDs replicationFactor).mapIdx fun i replicas =>
      { id := int32 i, leader := replicas.headD 0, replicas, isr := replicas }

-- What `OnPeerDown` does with one topic; `none` if none of its partitions has changed.
def reassignTopic (peerAlive : Int → Bool) (deadID : Int) (t : Topic.Topic) : Option (List Topic.Partition) :=
  if t.partitions.any fun p => (reassign peerAlive deadID p).isSome then
    some <| t.partitions.map fun p => (reassign peerAlive deadID p).getD p
  else
    none

-- The operations on topics that change the metadata.
inductive Operation
  | createTopic (name : Bytes) (numPartitions replicationFactor : Int)
  | deleteTopic (name : Bytes)
  | onPeerDown (deadID : Int)
  deriving DecidableEq, Repr

-- What is left to do once a record has been dealt with.
inductive Continuation
  | reply
  | scan (deadID : Int) (topics : List Topic.Topic)
  deriving DecidableEq, Repr

-- How far an operation has come. Each step ends before the next access to what is shared: the registry
-- or the log.
inductive Progress
  | start
  | scan (deadID : Int) (topics : List Topic.Topic)
  | append (record : Record) (next : Continuation)
  | apply (record : Record) (next : Continuation)
  | done (code : ErrorCode)
  deriving DecidableEq, Repr

structure Task where
  operation : Operation
  progress  : Progress
  deriving DecidableEq, Repr

structure Config where
  nodeID  : Int
  cluster : Membership

-- What a broker believes at some moment, and the order in which it ranges over its topics.
structure View where
  controllerID : Int
  alive        : List Int
  topics       : List Topic.Topic

def peerAlive (nodeID : Int) (view : View) (id : Int) : Bool :=
  id = nodeID ∨ id ∈ view.alive

namespace Continuation

def resume : Continuation → Progress
  | reply               => .done .none
  | scan deadID topics => .scan deadID topics

-- A failed append ends a request, but not `OnPeerDown`.
def fail : Continuation → Progress
  | reply               => .done .unknown
  | scan deadID topics => .scan deadID topics

end Continuation

namespace Operation

-- `Get` or `All` and what comes before it.
def start (config : Config) (view : View) (topics : Topic.Registry) : Operation → Option Progress
  | createTopic name numPartitions replicationFactor =>
    match newPartitions config.cluster.ids numPartitions replicationFactor with
    | .error code    => some (.done code)
    | .ok partitions =>
      if (topics.get name).isSome then
        some (.done .topicAlreadyExists)
      else
        some (.append ⟨.topicUpsert, name, partitions⟩ .reply)
  | deleteTopic name =>
    if (topics.get name).isSome then
      some (.append ⟨.topicDelete, name, []⟩ .reply)
    else
      some (.done .unknownTopicOrPartition)
  | onPeerDown deadID =>
    if view.controllerID ≠ config.nodeID then
      some (.done .none)
    else if topics.All view.topics then
      some (.scan deadID view.topics)
    else
      none

end Operation

namespace Task

-- The next step of an operation.
def step (config : Config) (view : View) (log : Storage.Log) (topics : Topic.Registry) (task : Task) :
    Option (Storage.Log × Topic.Registry × Task) :=
  match task.progress with
  | .start => (task.operation.start config view topics).map fun progress => (log, topics, { task with progress })
  | .scan _ [] => some (log, topics, { task with progress := .done .none })
  | .scan deadID (t :: ts) =>
    match reassignTopic (peerAlive config.nodeID view) deadID t with
    | none            => some (log, topics, { task with progress := .scan deadID ts })
    | some partitions =>
      some (log, topics, { task with progress := .append ⟨.topicUpsert, t.name, partitions⟩ (.scan deadID ts) })
  | .append record next =>
    match MetadataLog.append log record with
    | (log, .ok _)    => some (log, topics, { task with progress := .apply record next })
    | (log, .error _) => some (log, topics, { task with progress := next.fail })
  | .apply record next => some (log, applyMetadataRecord topics record, { task with progress := next.resume })
  | .done _ => none

end Task
end Network
