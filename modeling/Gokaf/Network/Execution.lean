import Gokaf.Machine
import Gokaf.Network.Produce
import Gokaf.Storage.Execution

open Go

namespace Network

-- One broker as its producers see it.
namespace Producing

structure State where
  producers : Producer.Manager
  logs      : Bytes → Int → List Bytes

-- A produce request for one partition. The registry and the files are not part of the state: what
-- they answer is part of the step.
inductive Step
  | produce (leader : Option Int) (topicName : Bytes) (partitionIndex : Int) (batch : Bytes) (fails : Bool)
  | initProducerID

structure Answer where
  topicName : Bytes
  batch     : Bytes
  response  : ProducePartitionResponse
  deriving DecidableEq, Repr

namespace State

def init : State where
  producers := .new
  logs _ _  := []

def setLog (s : State) (topicName : Bytes) (partitionIndex : Int) (log : List Bytes) : State where
  producers := s.producers
  logs t i := if t = topicName ∧ i = partitionIndex then log else s.logs t i

end State

def machine (nodeID : Int) : Machine State Step Answer where
  step s
    | .produce leader topicName partitionIndex batch fails =>
      match producePartition (Storage.listAppend fails) nodeID leader topicName partitionIndex batch
          s.producers (.ok (s.logs topicName partitionIndex)) with
      | (_, .error _, _) => none
      | (producers, .ok log, produced) =>
        some ({ s.setLog topicName partitionIndex log with producers },
          [⟨topicName, batch, produced.response⟩])
    | .initProducerID => some ({ s with producers := s.producers.initProducerID.fst }, [])

-- The sequence number `seq` of the producer `pid` belongs to an entry of the log.
def Stored (log : List Bytes) (pid seq : Int) : Prop :=
  ∃ e ∈ log, Batch.pid e = pid ∧ Batch.baseSeq e ≤ seq ∧ seq < Batch.baseSeq e + Batch.recordCount e

-- An idempotent batch that is answered without an error is in the log, every record of it.
def Answer.IsStored (a : Answer) (s : State) : Prop :=
  a.response.errorCode = .none → 0 ≤ Batch.pid a.batch → 1 ≤ Batch.recordCount a.batch →
    Batch.baseSeq a.batch + Batch.recordCount a.batch ≤ 2 ^ 31 →
    ∀ seq, Batch.baseSeq a.batch ≤ seq → seq < Batch.baseSeq a.batch + Batch.recordCount a.batch →
      Stored (s.logs a.topicName a.response.index) (Batch.pid a.batch) seq

-- Batches with usual sequence numbers, and no batch that starts at or below the last stored sequence
-- number ends above it.
def KeepsBoundaries (s : State) : Step → Prop
  | .produce _ topicName partitionIndex batch _ =>
    0 ≤ Batch.pid batch →
      0 ≤ Batch.baseSeq batch ∧ 1 ≤ Batch.recordCount batch ∧
      Batch.baseSeq batch + Batch.recordCount batch ≤ 2 ^ 31 ∧
      ∀ st ∈ s.producers.seqs ⟨Batch.pid batch, topicName, partitionIndex⟩,
        Batch.baseSeq batch ≤ st.lastSequence →
        Batch.baseSeq batch + Batch.recordCount batch - 1 ≤ st.lastSequence
  | .initProducerID => True

instance (s : State) : DecidablePred (KeepsBoundaries s) := fun _ => by
  unfold KeepsBoundaries
  split <;> infer_instance

end Producing
end Network
