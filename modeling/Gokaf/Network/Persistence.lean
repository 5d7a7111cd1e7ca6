import Gokaf.Network.Broker

open Go Protocol Cluster

-- A broker as far as its files are concerned that it reads when it starts.
namespace Network.Persistence

structure State where
  broker : Broker
  tasks  : List Task

inductive Step
  | topics (a : Metadata.Step)
  | produce (env : Env) (topicName : Bytes) (partitionIndex : Int) (batch : Bytes) (acks : Int)
  | fetch (env : Env) (replicaID : Int) (topicName : Bytes) (partitionIndex fetchOffset partitionMaxBytes : Int)
  | listOffset (topicName : Bytes) (partitionIndex timestamp : Int)
  | commit (env : Env) (key : Offset.Key) (offset : Int)
  | restart

inductive Output
  | topics (o : Metadata.Output)
  | committed (c : Offset.Commit)
  deriving DecidableEq, Repr

namespace State

def init (dataDir : Bytes) : State where
  broker := .init dataDir
  tasks  := []

def metadata (s : State) : Metadata.Broker where
  log    := s.broker.metadata
  topics := s.broker.topics
  tasks  := s.tasks

-- What an operation on topics has left.
def setMetadata (s : State) (b : Metadata.Broker) : State where
  broker := { s.broker.setMetadata b.log with topics := b.topics }
  tasks  := b.tasks

end State

-- The operations on topics take several steps. A broker that cannot start again stays down.
def machine (config : Config) : Machine State Step Output where
  step s
    | .topics a => (s.metadata.exec config a).map fun r => (s.setMetadata r.fst, r.snd.map .topics)
    | .produce env topicName partitionIndex batch acks =>
      some ({ s with broker := (s.broker.producePartition env topicName partitionIndex batch acks).fst }, [])
    | .fetch env replicaID topicName partitionIndex fetchOffset partitionMaxBytes =>
      some ({ s with
        broker := (s.broker.fetchPartition env replicaID topicName partitionIndex fetchOffset
          partitionMaxBytes).fst }, [])
    | .listOffset topicName partitionIndex timestamp =>
      some ({ s with broker := (s.broker.listOffset topicName partitionIndex timestamp).fst }, [])
    | .commit env key offset =>
      match s.broker.commit env key offset with
      | (broker, .ok ())   => some ({ s with broker }, [.committed ⟨key, offset, env.now⟩])
      | (broker, .error _) => some ({ s with broker }, [])
    | .restart =>
      match s.broker.restart with
      | .ok broker => some ({ broker, tasks := [] }, [])
      | .error _   => none

end Network.Persistence
