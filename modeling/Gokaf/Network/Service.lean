import Gokaf.Network.Dispatch
import Gokaf.Storage.Directories

open Go Protocol

namespace Network

-- A broker that comes up again with what a crash left of its data directory.
def Broker.crash (b : Broker) (metadata : Storage.Remains) (logs : List (Bytes × Storage.Remains)) :
    Except Fault Broker :=
  let crashed := b.logs.crash logs
  let files   := b.metadata.crash metadata.log metadata.index
  start { crashed with disk := crashed.disk.write (metadataDir crashed.dataDir) files }

-- A broker over its whole life, with the answers that its clients get.
namespace Service

inductive Request
  | createTopic (name : Bytes) (numPartitions replicationFactor : Int)
  | deleteTopic (name : Bytes)
  | produce (topicName : Bytes) (partitionIndex : Int) (batch : Bytes) (acks : Int)
  | fetch (replicaID : Int) (topicName : Bytes) (partitionIndex fetchOffset partitionMaxBytes : Int)
  | listOffset (topicName : Bytes) (partitionIndex timestamp : Int)
  | offsetCommit (key : Offset.Key) (offset : Int)
  | offsetFetch (key : Offset.Key)
  | initProducerID
  | restart
  | crash (metadata : Storage.Remains) (logs : List (Bytes × Storage.Remains))
  deriving DecidableEq, Repr

inductive Answer
  | topic (errorCode : ErrorCode)
  | produced (response : ProducePartitionResponse)
  | fetched (response : FetchPartitionResponse)
  | offset (response : ListOffsetsPartitionResponse)
  | committed (errorCode : ErrorCode)
  | committedOffset (offset : Int)
  | producerID (pid epoch : Int)
  | started
  deriving DecidableEq, Repr

def exec (env : Env) (b : Broker) : Request → Option (Broker × Answer)
  | .createTopic name numPartitions replicationFactor =>
    let (b, errorCode) := b.asController env (·.createTopic env name numPartitions replicationFactor)
    some (b, .topic errorCode)
  | .deleteTopic name =>
    let (b, errorCode) := b.asController env (·.deleteTopic name)
    some (b, .topic errorCode)
  | .produce topicName partitionIndex batch acks =>
    let (b, response) := b.producePartition env topicName partitionIndex batch acks
    some (b, .produced response)
  | .fetch replicaID topicName partitionIndex fetchOffset partitionMaxBytes =>
    let (b, response) := b.fetchPartition env replicaID topicName partitionIndex fetchOffset partitionMaxBytes
    some (b, .fetched response)
  | .listOffset topicName partitionIndex timestamp =>
    let (b, response) := b.listOffset topicName partitionIndex timestamp
    some (b, .offset response)
  | .offsetCommit key offset =>
    let (b, errorCode) := b.commitOffset env key offset
    some (b, .committed errorCode)
  | .offsetFetch key => some (b, .committedOffset (b.fetchOffset key))
  | .initProducerID =>
    let (b, pid, epoch) := b.initProducerID
    some (b, .producerID pid epoch)
  | .restart => b.restart.toOption.map (·, .started)
  | .crash metadata logs => (b.crash metadata logs).toOption.map (·, .started)

-- A broker that cannot start again stays down.
def machine : Machine Broker (Env × Request) Answer where
  step b a := (exec a.fst b a.snd).map fun (b, answer) => (b, [answer])

end Service
end Network
