import Gokaf.Network.Produce
import Gokaf.Protocol.Theorems.RecordBatch

open Go

namespace Network

namespace Batch

-- A batch that is all header: the shortest one that is accepted.
def headerOnly (pid baseSeq recordCount : Int) : Bytes :=
  let body := List.replicate 22 0 ++ putInt 64 pid ++ putInt 16 0 ++ putInt 32 baseSeq ++ putInt 32 recordCount
  List.replicate 8 0 ++ putInt 32 49 ++ List.replicate 4 0 ++ [2] ++
    BigEndian.put 4 (Crc32.checksum body) ++ body

variable {batch : Bytes} {i j : Nat}

theorem length_of_valid (h : validRecordBatch batch) : recordBatchHeaderSize ≤ batch.length := by
  simp only [validRecordBatch, decide_eq_true_eq] at h
  exact h.left

-- The base offset covers the first eight bytes and nothing else.
theorem sameBatch_withBaseOffset (batch : Bytes) (o : Int) :
    Protocol.SameBatch (withBaseOffset batch o) batch where
  length := length_withBaseOffset batch o
  drop := by
    simp only [withBaseOffset]
    split
    case isFalse => rfl
    case isTrue  => rw [List.drop_left' (by simp)]

theorem slice_withBaseOffset (hi : 8 ≤ i) (o : Int) :
    slice (withBaseOffset batch o) i j = slice batch i j :=
  (sameBatch_withBaseOffset batch o).slice hi

@[simp]
theorem pid_withBaseOffset (batch : Bytes) (o : Int) : pid (withBaseOffset batch o) = pid batch := by
  simp [pid, slice_withBaseOffset]

@[simp]
theorem baseSeq_withBaseOffset (batch : Bytes) (o : Int) :
    baseSeq (withBaseOffset batch o) = baseSeq batch := by
  simp [baseSeq, slice_withBaseOffset]

@[simp]
theorem recordCount_withBaseOffset (batch : Bytes) (o : Int) :
    recordCount (withBaseOffset batch o) = recordCount batch := by
  simp [recordCount, slice_withBaseOffset]

end Batch

section Produces

variable {σ : Type*} (append : Appender σ) (nodeID : Int) (leader : Option Int) (topicName : Bytes)
variable (partitionIndex : Int) (batch : Bytes) (producers : Producer.Manager) (log : Except IOError σ)

-- All that `producePartition` can do. A response without an error comes from one of the last three.
inductive Produces : Producer.Manager → Except IOError σ → Produced → Prop
  | refused {r : ProducePartitionResponse} :
    r.errorCode ≠ .none → Produces producers log (.answer r)
  | failed {l l' : σ} {e : IOError} {r : ProducePartitionResponse} :
    log = .ok l → append l batch Batch.stamp = (l', .error e) → r.errorCode ≠ .none →
    Produces producers (.ok l') (.answer r)
  | duplicate {l : σ} {offset : Int} :
    leader = some nodeID → validRecordBatch batch → log = .ok l → 0 ≤ Batch.pid batch →
    producers.checkSequenceLocked ⟨Batch.pid batch, topicName, partitionIndex⟩ (Batch.baseSeq batch) =
      ⟨.duplicate, offset⟩ →
    Produces producers (.ok l) (.answer ⟨partitionIndex, .none, offset⟩)
  | appended {l l' : σ} {offset : Int} :
    leader = some nodeID → validRecordBatch batch → log = .ok l → 0 ≤ Batch.pid batch →
    (producers.checkSequenceLocked ⟨Batch.pid batch, topicName, partitionIndex⟩
      (Batch.baseSeq batch)).decision = .append →
    append l batch Batch.stamp = (l', .ok offset) →
    Produces
      (producers.committedLocked ⟨Batch.pid batch, topicName, partitionIndex⟩ (Batch.baseSeq batch)
        (Batch.recordCount batch) offset)
      (.ok l') (.waitForAllAcks ⟨partitionIndex, .none, offset⟩)
  | plain {l l' : σ} {offset : Int} :
    leader = some nodeID → validRecordBatch batch → log = .ok l → Batch.pid batch < 0 →
    append l batch Batch.stamp = (l', .ok offset) →
    Produces producers (.ok l') (.waitForAllAcks ⟨partitionIndex, .none, offset⟩)

variable {append nodeID leader topicName partitionIndex batch producers log}

theorem produces {producers' : Producer.Manager} {log' : Except IOError σ} {r : Produced}
    (h : producePartition append nodeID leader topicName partitionIndex batch producers log =
      (producers', log', r)) :
    Produces append nodeID leader topicName partitionIndex batch producers log producers' log' r := by
  simp only [producePartition] at h
  cases leader
  case none =>
    cases h
    exact .refused (by simp)
  case some leader =>
    simp only at h
    split at h
    case isTrue =>
      cases h
      exact .refused (by simp)
    case isFalse hleader =>
      split at h
      case isTrue =>
        cases h
        exact .refused (by simp)
      case isFalse hvalid =>
        have hleader : some leader = some nodeID := congrArg some (not_not.mp hleader)
        have hvalid := not_not.mp hvalid
        cases log
        case error e =>
          cases h
          exact .refused (by simp)
        case ok l =>
          simp only at h
          split at h
          case isFalse hpid =>
            rcases ha : append l batch Batch.stamp with ⟨l', e | o⟩
            case error =>
              simp only [ha] at h
              cases h
              exact .failed rfl ha (by simp)
            case ok =>
              simp only [ha] at h
              cases h
              exact .plain hleader hvalid rfl (not_le.mp hpid) ha
          case isTrue hpid =>
            simp only [Producer.Manager.appendBatch] at h
            rcases hc : producers.checkSequenceLocked ⟨Batch.pid batch, topicName, partitionIndex⟩
              (Batch.baseSeq batch) with ⟨decision, offset⟩
            cases decision <;> simp [hc] at h
            case duplicate =>
              obtain ⟨rfl, rfl, rfl⟩ := h
              exact .duplicate hleader hvalid rfl hpid hc
            case outOfOrder =>
              obtain ⟨rfl, rfl, rfl⟩ := h
              exact .refused (by simp)
            case append =>
              rcases ha : append l batch Batch.stamp with ⟨l', e | o⟩
              case error =>
                simp [ha] at h
                obtain ⟨rfl, rfl, rfl⟩ := h
                exact .failed rfl ha (by simp)
              case ok =>
                simp [ha] at h
                obtain ⟨rfl, rfl, rfl⟩ := h
                exact .appended hleader hvalid rfl hpid (by rw [hc]) ha

end Produces
end Network
