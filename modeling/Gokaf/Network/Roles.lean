import Gokaf.Machine
import Gokaf.Network.Topics
import Gokaf.Replication.Manager

open Go Protocol Cluster

-- A broker that applies metadata records, with the partitions that it leads and follows. It knows every leader
-- and can open every log.
namespace Network.Roles

structure State where
  topics      : Topic.Registry
  replication : Replication.Manager

namespace State

def init (selfID : Int) : State where
  topics      := ∅
  replication := .new selfID

def applyTopic (s : State) (now : Int) (name : Bytes) (partitions : List Topic.Partition) : State where
  topics      := s.topics.upsert { name, partitions }
  replication :=
    (partitions.foldl (fun m partition => m.stopFollowing name partition.id) s.replication).startFollowing now
      { name, partitions }

def applyMetadataRecord (s : State) (now : Int) (record : Record) : State :=
  match record.type with
  | .topicUpsert => s.applyTopic now record.topic record.partitions
  | .topicDelete => { s with topics := (s.topics.delete record.topic).fst }

end State

structure Step where
  record : Record
  now    : Int
  deriving DecidableEq, Repr

def machine : Machine State Step Unit where
  step s a := some (s.applyMetadataRecord a.now a.record, [])

-- The records that the operations on topics make. `OnPeerDown` makes its own of a topic that it has found in the
-- registry, as an earlier record has left it there.
inductive Produced (cluster : Membership) : Record → Prop
  | created {name numPartitions replicationFactor partitions} :
    IsInt32 numPartitions → newPartitions cluster.ids numPartitions replicationFactor = .ok partitions →
    Produced cluster ⟨.topicUpsert, name, partitions⟩
  | deleted {name} : Produced cluster ⟨.topicDelete, name, []⟩
  | failedOver {name partitions peerAlive deadID partitions'} :
    Produced cluster ⟨.topicUpsert, name, partitions⟩ →
    reassignTopic peerAlive deadID ⟨name, partitions⟩ = some partitions' →
    Produced cluster ⟨.topicUpsert, name, partitions'⟩

end Network.Roles
