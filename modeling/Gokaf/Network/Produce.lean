import Gokaf.Go.Crc32
import Gokaf.Producer.Manager
import Gokaf.Protocol.Errors
import Gokaf.Storage.Log

open Go

namespace Network

def recordBatchHeaderSize : Nat := 61

def validRecordBatch (batch : Bytes) : Bool :=
  recordBatchHeaderSize ≤ batch.length ∧ batch[16]? = some 2 ∧
    Crc32.checksum (batch.drop 21) = BigEndian.uint (slice batch 17 21)

-- The header fields of a batch that `producePartition` reads.
namespace Batch

def pid (batch : Bytes) : Int :=
  sint 64 (slice batch 43 51)

def baseSeq (batch : Bytes) : Int :=
  sint 32 (slice batch 53 57)

def recordCount (batch : Bytes) : Int :=
  sint 32 (slice batch 57 61)

-- `binary.BigEndian.PutUint64(batch[0:8], uint64(offset))`. A valid batch is long enough.
def withBaseOffset (batch : Bytes) (offset : Int) : Bytes :=
  if 8 ≤ batch.length then putInt 64 offset ++ batch.drop 8 else batch

theorem length_withBaseOffset (batch : Bytes) (offset : Int) :
    (withBaseOffset batch offset).length = batch.length := by
  simp only [withBaseOffset]
  split
  case isTrue h =>
    simp
    omega
  case isFalse => rfl

def stamp : Storage.Stamp where
  run offset batch := withBaseOffset batch offset
  length_run offset batch := length_withBaseOffset batch offset

end Batch

structure ProducePartitionResponse where
  index      : Int
  errorCode  : Protocol.ErrorCode := .unknown
  baseOffset : Int := -1
  deriving DecidableEq, Repr

-- How `producePartition` goes on once the batch is appended or refused: it answers at once, or it
-- calls `waitForAllAcks` with the response it has.
inductive Produced
  | answer (response : ProducePartitionResponse)
  | waitForAllAcks (response : ProducePartitionResponse)
  deriving DecidableEq, Repr

namespace Produced

def response : Produced → ProducePartitionResponse
  | answer r | waitForAllAcks r => r

end Produced

-- The operations of a partition log that a produce uses.
abbrev Appender (σ : Type*) := σ → Bytes → Storage.Stamp → σ × Except IOError Int

-- `producePartition` up to its wait. `leader` is what the registry says about the partition, `none`
-- if there is no such partition; `log` is the outcome of opening the partition's log.
def producePartition {σ : Type*} (append : Appender σ) (nodeID : Int) (leader : Option Int)
    (topicName : Bytes) (partitionIndex : Int) (batch : Bytes) (producers : Producer.Manager)
    (log : Except IOError σ) : Producer.Manager × Except IOError σ × Produced :=
  let response : ProducePartitionResponse := { index := partitionIndex }
  match leader with
  | none => (producers, log, .answer { response with errorCode := .unknownTopicOrPartition })
  | some leader =>
    if leader ≠ nodeID then
      (producers, log, .answer { response with errorCode := .notLeaderForPartition })
    else if ¬validRecordBatch batch then
      (producers, log, .answer { response with errorCode := .corruptMessage })
    else
      match log with
      | .error e => (producers, .error e, .answer response)
      | .ok log =>
        if 0 ≤ Batch.pid batch then
          match producers.appendBatch ⟨Batch.pid batch, topicName, partitionIndex⟩
              (Batch.baseSeq batch) (Batch.recordCount batch) (append · batch Batch.stamp) log with
          | (producers, log, .error _) => (producers, .ok log, .answer response)
          | (producers, log, .ok check) =>
            match check.decision with
            | .duplicate =>
              let response := { response with errorCode := .none, baseOffset := check.cachedOffset }
              (producers, .ok log, .answer response)
            | .outOfOrder =>
              let response := { response with errorCode := .outOfOrderSequenceNumber, baseOffset := -1 }
              (producers, .ok log, .answer response)
            | .append =>
              let response := { response with errorCode := .none, baseOffset := check.cachedOffset }
              (producers, .ok log, .waitForAllAcks response)
        else
          match append log batch Batch.stamp with
          | (log, .error _) => (producers, .ok log, .answer response)
          | (log, .ok baseOffset) =>
            (producers, .ok log, .waitForAllAcks { response with errorCode := .none, baseOffset })

end Network
