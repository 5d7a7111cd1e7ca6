import Gokaf.Replication.PartitionState
import Gokaf.Topic.Registry

open Go

namespace Replication

def lagTimeout : Int := 10 * 1000000000

-- What the manager keeps for one partition: its state as a leader, and the broker that the running
-- fetcher asks.
structure Replica where
  led    : Option PartitionState
  source : Option Int

namespace Replica

def stopFollowing (r : Replica) : Replica :=
  { r with source := none }

-- `StartFollowing` for one partition, on a broker that knows the leader and can open its log.
def startFollowing (r : Replica) (selfID now : Int) (partition : Topic.Partition) : Replica :=
  if selfID ∉ partition.replicas then
    r
  else if partition.leader = selfID then
    match r.led with
    | some _ => r.stopFollowing
    | none   =>
      let replicas := if partition.isr = [] then partition.replicas else partition.isr
      { source := none, led := some (.new replicas selfID lagTimeout now) }
  else
    match r.source with
    | some _ => r
    | none   => { source := some partition.leader, led := none }

end Replica

-- The maps of the manager, which have the topic and the partition for their keys.
structure Manager where
  selfID   : Int
  replicas : Bytes × Int → Replica

namespace Manager

def new (selfID : Int) : Manager where
  selfID     := selfID
  replicas _ := { led := none, source := none }

def set (m : Manager) (key : Bytes × Int) (r : Replica) : Manager :=
  { m with replicas := Function.update m.replicas key r }

def stopFollowing (m : Manager) (topic : Bytes) (partition : Int) : Manager :=
  m.set (topic, partition) (m.replicas (topic, partition)).stopFollowing

def startFollowing (m : Manager) (now : Int) (t : Topic.Topic) : Manager :=
  t.partitions.foldl (fun m' partition => m'.set (t.name, partition.id)
    ((m'.replicas (t.name, partition.id)).startFollowing m.selfID now partition)) m

end Manager
end Replication
