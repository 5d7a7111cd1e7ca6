import Gokaf.Network.Consumer
import Gokaf.Network.Leading
import Gokaf.Replication.Execution
import Gokaf.Replication.Manager

open Go Protocol Replication

namespace Network

-- One partition on a broker that answers any fetch request, whoever sends it.
namespace Serving

structure Setup where
  nodeID         : Int
  topicName      : Bytes
  partitionIndex : Int

-- `source` is the broker that the running fetcher asks.
structure State where
  now    : Int
  leader : Leading
  source : Option Int

-- `leader` is what the registry says at that time. `known` and `opened` are whether the registry has the
-- partition and its log can be opened.
inductive Step
  | produce (leader : Option Int) (batch : Bytes) (acks timeoutMS : Int)
  | await (id : Nat)
  | expire (id : Nat)
  | finish (id : Nat)
  | fetch (known opened : Bool) (replicaID fetchOffset partitionMaxBytes : Int)
  | isr
  | startFollowing (partition : Topic.Partition)
  | replicate (batch : Bytes)
  | tick (d : Nat)

-- A broker that has just opened the log of the partition.
def State.init (log : Storage.Log) (now : Int) : State where
  now    := now
  leader := { Leading.new none with log }
  source := none

def State.fetch (p : Setup) (s : State) (known opened : Bool) (replicaID fetchOffset partitionMaxBytes : Int) :
    Option PartitionState × List Waiter × FetchPartitionResponse :=
  fetchPartition storageLog known (if opened then .ok s.leader.log else .error .failed) s.leader.led replicaID
    p.partitionIndex fetchOffset partitionMaxBytes s.now

-- The answers to fetch requests, and the calls of `producePartition` that returned.
inductive Output
  | fetched (response : FetchPartitionResponse)
  | produced (call : Call)

def machine (p : Setup) : Machine State Step Output where
  step s
    | .produce leader batch acks timeoutMS =>
      some ({ s with
        leader := s.leader.produce p.nodeID leader p.topicName p.partitionIndex batch acks timeoutMS }, [])
    | .await id  => (s.leader.await id s.now).map fun leader => ({ s with leader }, [])
    | .expire id => (s.leader.expire id s.now).map fun leader => ({ s with leader }, [])
    | .finish id => (s.leader.finish id).map fun (leader, call) => ({ s with leader }, [.produced call])
    | .fetch known opened replicaID fetchOffset partitionMaxBytes =>
      match s.fetch p known opened replicaID fetchOffset partitionMaxBytes with
      | (led, released, response) => some ({ s with leader := s.leader.recorded led released }, [.fetched response])
    | .isr =>
      let led := s.leader.led.map fun st => (st.recomputedISR s.now).fst
      some ({ s with leader := { s.leader with led } }, [])
    | .startFollowing partition =>
      let r := Replica.startFollowing { led := s.leader.led, source := s.source } p.nodeID s.now partition
      some ({ s with leader := { s.leader with led := r.led }, source := r.source }, [])
    | .replicate batch =>
      if s.source = none then
        none
      else
        some ({ s with leader := { s.leader with log := (s.leader.log.append batch).fst } }, [])
    | .tick d => some ({ s with now := s.now + d }, [])

-- A fetch that is out of range is not recorded and wakes up nobody who would not be woken up anyway, and
-- every answer has a watermark in the log.
def Faithful (p : Setup) (s : State) : Step → Prop
  | .fetch known opened replicaID fetchOffset partitionMaxBytes =>
    let (led, released, response) := s.fetch p known opened replicaID fetchOffset partitionMaxBytes
    (response.errorCode = .offsetOutOfRange →
      led.map (·.followerOffset) = s.leader.led.map (·.followerOffset) ∧
      ∀ st ∈ s.leader.led, released ⊆ (st.updateHighWatermark s.leader.log.endOffset s.now).snd) ∧
    0 ≤ response.highWatermark ∧ response.highWatermark ≤ s.leader.log.endOffset
  | _ => True

-- A request with the id of a replica asks the leader for something that is in its log, or comes next.
def InRange (s : State) : Step → Prop
  | .fetch known opened replicaID fetchOffset _ =>
    known → opened → s.leader.led.isSome → 0 ≤ replicaID →
      0 ≤ fetchOffset ∧ fetchOffset ≤ s.leader.log.endOffset
  | _ => True

instance (s : State) : DecidablePred (InRange s) := fun _ => by
  unfold InRange
  split <;> infer_instance

end Serving
end Network
