import Gokaf.Cluster.Liveness
import Gokaf.Machine
import Gokaf.Network.PeerDown

open Cluster

-- A broker that watches its peers, wired as in `main`: the monitor calls `OnPeerDown`, which asks the monitor who is
-- alive and who is the controller.
namespace Network.Watching

structure State where
  monitor : LivenessMonitor
  log     : Storage.Log
  topics  : Topic.Registry

-- The outcome of a ping. `topics` is the order in which `OnPeerDown` ranges over the topics, if it is called.
inductive Step
  | miss (id : Int) (topics : List Topic.Topic)
  | success (id : Int)

def view (config : Config) (monitor : LivenessMonitor) (topics : List Topic.Topic) : View where
  controllerID := monitor.controllerID
  alive        := config.cluster.ids.filter monitor.isAlive
  topics       := topics

-- A callback is handled completely before the next outcome.
def machine (config : Config) : Machine State Step Callback where
  step s
    | .miss id topics =>
      if id ∈ config.cluster.ids ∧ id ≠ config.nodeID then
        match s.monitor.recordMiss id with
        | (monitor, none)          => some ({ s with monitor }, [])
        | (monitor, some callback) =>
          (onPeerDown config (view config monitor topics) s.log s.topics id).map fun r =>
            (⟨monitor, r.fst, r.snd⟩, [callback])
      else
        none
    | .success id =>
      if id ∈ config.cluster.ids ∧ id ≠ config.nodeID then
        let r := s.monitor.recordSuccess id
        some ({ s with monitor := r.fst }, r.snd.toList)
      else
        none

end Network.Watching
