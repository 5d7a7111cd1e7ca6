import Gokaf.Network.Service

open Go Protocol Cluster

namespace Network

-- What a broker is to its clients: lists to which entries are added.
structure Ledger where
  records   : List Record
  batches   : Bytes × Int → List Bytes
  commits   : List Offset.Commit
  producers : Producer.Manager

namespace Ledger

def empty : Ledger where
  records   := []
  batches _ := []
  commits   := []
  producers := .new

def topics (l : Ledger) : Topic.Registry :=
  l.records.foldl applyMetadataRecord ∅

def partition? (l : Ledger) (topicName : Bytes) (partitionIndex : Int) : Option Topic.Partition :=
  (l.topics.get topicName).bind fun t =>
    if partitionIndex < 0 then none else t.partitions[partitionIndex.toNat]?

def asController (env : Env) (l : Ledger) (f : Ledger → Ledger × ErrorCode) : Ledger × ErrorCode :=
  if env.controllerID ≠ env.config.nodeID then (l, .notController) else f l

def createTopic (env : Env) (l : Ledger) (name : Bytes) (numPartitions replicationFactor : Int) : Ledger × ErrorCode :=
  match newPartitions env.config.cluster.ids numPartitions replicationFactor with
  | .error code    => (l, code)
  | .ok partitions =>
    if (l.topics.get name).isSome then
      (l, .topicAlreadyExists)
    else
      ({ l with records := l.records ++ [⟨.topicUpsert, name, partitions⟩] }, .none)

def deleteTopic (l : Ledger) (name : Bytes) : Ledger × ErrorCode :=
  if (l.topics.get name).isSome then
    ({ l with records := l.records ++ [⟨.topicDelete, name, []⟩] }, .none)
  else
    (l, .unknownTopicOrPartition)

-- `producePartition` on the list of the partition's batches.
def produce (env : Env) (l : Ledger) (topicName : Bytes) (partitionIndex : Int) (batch : Bytes) (acks : Int) :
    Ledger × ProducePartitionResponse :=
  let leader := (l.partition? topicName partitionIndex).map (·.leader)
  let (producers, batches, produced) := Network.producePartition (Storage.listAppend false) env.config.nodeID leader
    topicName partitionIndex batch l.producers (.ok (l.batches (topicName, partitionIndex)))
  let batches := batches.toOption.getD (l.batches (topicName, partitionIndex))
  ({ l with batches := Function.update l.batches (topicName, partitionIndex) batches, producers },
    waitForAllAcks env topicName partitionIndex acks produced)

-- A list from which at most `k` entries are read at a time.
def fetchable (k : Nat) : Fetchable (List Bytes) where
  endOffset L  := L.length
  read L o _   := .ok (Storage.recordsFrom o ((L.drop o.toNat).take k))

def fetch (env : Env) (l : Ledger) (replicaID : Int) (topicName : Bytes)
    (partitionIndex fetchOffset partitionMaxBytes : Int) (k : Nat) : FetchPartitionResponse :=
  (Network.fetchPartition (fetchable k) (l.partition? topicName partitionIndex).isSome
    (.ok (l.batches (topicName, partitionIndex))) (env.led topicName partitionIndex) replicaID partitionIndex
    fetchOffset partitionMaxBytes env.now).snd.snd

def listOffset (l : Ledger) (topicName : Bytes) (partitionIndex timestamp : Int) : ListOffsetsPartitionResponse :=
  if (l.partition? topicName partitionIndex).isSome then
    { index := partitionIndex, errorCode := .none
      offset := if timestamp = listOffsetLatest then (l.batches (topicName, partitionIndex)).length else 0 }
  else
    { index := partitionIndex }

-- A fetch below the end gets at least one batch. A crash may lose what was added last to any of the lists.
inductive Step : Ledger → Env × Service.Request → List Service.Answer → Ledger → Prop
  | createTopic {l l' : Ledger} {env : Env} {name : Bytes} {numPartitions replicationFactor : Int} {code : ErrorCode} :
    l.asController env (·.createTopic env name numPartitions replicationFactor) = (l', code) →
    Step l (env, .createTopic name numPartitions replicationFactor) [.topic code] l'
  | deleteTopic {l l' : Ledger} {env : Env} {name : Bytes} {code : ErrorCode} :
    l.asController env (·.deleteTopic name) = (l', code) → Step l (env, .deleteTopic name) [.topic code] l'
  | produce {l l' : Ledger} {env : Env} {topicName batch : Bytes} {partitionIndex acks : Int}
      {response : ProducePartitionResponse} :
    l.produce env topicName partitionIndex batch acks = (l', response) →
    Step l (env, .produce topicName partitionIndex batch acks) [.produced response] l'
  | fetch {l : Ledger} {env : Env} {topicName : Bytes} {replicaID partitionIndex fetchOffset partitionMaxBytes : Int}
      {k : Nat} : 0 < k →
    Step l (env, .fetch replicaID topicName partitionIndex fetchOffset partitionMaxBytes)
      [.fetched (l.fetch env replicaID topicName partitionIndex fetchOffset partitionMaxBytes k)] l
  | listOffset {l : Ledger} {env : Env} {topicName : Bytes} {partitionIndex timestamp : Int} :
    Step l (env, .listOffset topicName partitionIndex timestamp)
      [.offset (l.listOffset topicName partitionIndex timestamp)] l
  | offsetCommit {l : Ledger} {env : Env} {key : Offset.Key} {offset : Int} :
    Step l (env, .offsetCommit key offset) [.committed .none]
      { l with commits := l.commits ++ [⟨key, offset, env.now⟩] }
  | offsetFetch {l : Ledger} {env : Env} {key : Offset.Key} :
    Step l (env, .offsetFetch key) [.committedOffset (Offset.lastOffset l.commits key)] l
  | initProducerID {l : Ledger} {env : Env} {producers : Producer.Manager} {pid epoch : Int} :
    l.producers.initProducerID = (producers, pid, epoch) →
    Step l (env, .initProducerID) [.producerID pid epoch] { l with producers }
  | restart {l : Ledger} {env : Env} : Step l (env, .restart) [.started] { l with producers := .new }
  | crash {l l' : Ledger} {env : Env} {metadata : Storage.Remains} {logs : List (Bytes × Storage.Remains)} :
    l'.records <+: l.records → (∀ key, l'.batches key <+: l.batches key) → l'.commits <+: l.commits →
    l'.producers = .new → Step l (env, .crash metadata logs) [.started] l'

end Ledger
end Network
