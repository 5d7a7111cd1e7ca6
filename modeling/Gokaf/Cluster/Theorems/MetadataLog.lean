import Gokaf.Cluster.MetadataLog
import Gokaf.Protocol.Theorems.Types
import Gokaf.Storage.Theorems.Refinement
import Mathlib.Algebra.Order.BigOperators.Group.List

open Go Protocol

namespace Cluster

variable {ids : List Int} {p : Topic.Partition} {record : Record}

structure IsPartition (p : Topic.Partition) : Prop where
  id       : IsInt32 p.id
  leader   : IsInt32 p.leader
  replicas : ∀ id ∈ p.replicas, IsInt32 id
  isr      : ∀ id ∈ p.isr, IsInt32 id

-- What a record must be for its bytes to say what it is, if there are not too many of them.
structure Record.Valid (record : Record) : Prop where
  topic      : record.topic.length < 2 ^ 15
  partitions : ∀ p ∈ record.partitions, IsPartition p
  delete     : record.type = .topicDelete → record.partitions = []

theorem reads_readMetadataIDs (h : ∀ id ∈ ids, IsInt32 id) (hlen : ids.length < 2 ^ 31) :
    Reads readMetadataIDs (writeMetadataIDs ids) ids :=
  (reads_readArrayLen_of_lt hlen).bind
    ((reads_makeSlice (by omega)).bind (reads_forRange fun id hid => reads_of_isInt32 (h id hid)))

theorem reads_readPartition (h : IsPartition p) (hreplicas : p.replicas.length < 2 ^ 31)
    (hisr : p.isr.length < 2 ^ 31) : Reads readPartition (writePartition p) p := by
  rw [writePartition, List.append_assoc, List.append_assoc]
  have hrest := (reads_readMetadataIDs h.isr hisr).bind_pure fun isr => { p with isr }
  exact (reads_of_isInt32 h.id).bind
    ((reads_of_isInt32 h.leader).bind ((reads_readMetadataIDs h.replicas hreplicas).bind hrest))

@[simp]
theorem length_writeInt32 (x : Int) : (writeInt32 x).length = 4 := by
  simp [writeInt32]

@[simp]
theorem length_writeArrayLen (n : Int) : (writeArrayLen n).length = 4 :=
  length_writeInt32 _

@[simp]
theorem length_writeMetadataIDs (ids : List Int) : (writeMetadataIDs ids).length = 4 + 4 * ids.length := by
  simp [writeMetadataIDs, List.length_flatMap, Nat.mul_comm]

@[simp]
theorem length_writePartition (p : Topic.Partition) :
    (writePartition p).length = 16 + 4 * p.replicas.length + 4 * p.isr.length := by
  simp only [writePartition, List.length_append, length_writeInt32, length_writeMetadataIDs]
  omega

theorem length_writePartition_le {partitions : List Topic.Partition} (hp : p ∈ partitions) :
    (writePartition p).length ≤ (partitions.flatMap writePartition).length := by
  rw [List.length_flatMap]
  exact List.single_le_sum (by simp) _ (List.mem_map_of_mem hp)

theorem length_le_flatMap_writePartition (partitions : List Topic.Partition) :
    16 * partitions.length ≤ (partitions.flatMap writePartition).length := by
  induction partitions
  case nil => exact Nat.zero_le _
  case cons p ps hi =>
    simp only [List.length_cons, List.flatMap_cons, List.length_append, length_writePartition]
    omega

theorem length_flatMap_writePartition {partitions : List Topic.Partition} {k : Nat}
    (h : ∀ p ∈ partitions, p.replicas.length = k ∧ p.isr.length = k) :
    (partitions.flatMap writePartition).length = partitions.length * (16 + 8 * k) := by
  induction partitions
  case nil => simp
  case cons p ps hi =>
    have ⟨⟨hreplicas, hisr⟩, hps⟩ := List.forall_mem_cons.mp h
    rw [List.flatMap_cons, List.length_append, length_writePartition, hreplicas, hisr, hi hps, List.length_cons]
    ring

theorem length_topicUpsert (topic : Bytes) (partitions : List Topic.Partition) :
    (encodeMetadataRecord ⟨.topicUpsert, topic, partitions⟩).length =
      7 + topic.length + (partitions.flatMap writePartition).length := by
  simp only [encodeMetadataRecord, writeInt8, writeString, writeInt16, List.length_append, length_putInt,
    length_writeArrayLen]
  omega

theorem reads_topicUpsert {topic : Bytes} {partitions : List Topic.Partition} (htopic : topic.length < 2 ^ 15)
    (hpartitions : ∀ p ∈ partitions, IsPartition p)
    (hlen : (partitions.flatMap writePartition).length < 2 ^ 32) :
    Reads readMetadataRecord (encodeMetadataRecord ⟨.topicUpsert, topic, partitions⟩)
      ⟨.topicUpsert, topic, partitions⟩ := by
  have hcount := length_le_flatMap_writePartition partitions
  have hall : ∀ p ∈ partitions, Reads readPartition (writePartition p) p := by
    intro p hp
    have hle := length_writePartition_le hp
    rw [length_writePartition] at hle
    exact reads_readPartition (hpartitions p hp) (by omega) (by omega)
  have hrest := (reads_forRange hall).bind_pure fun partitions => (⟨.topicUpsert, topic, partitions⟩ : Record)
  simp only [encodeMetadataRecord, List.append_assoc]
  exact (reads_readInt8 0).bind ((reads_readString htopic).bind ((reads_readArrayLen_of_lt (by omega)).bind
    ((reads_makeSlice (Int.natCast_nonneg partitions.length)).bind hrest)))

theorem reads_topicDelete {topic : Bytes} (htopic : topic.length < 2 ^ 15) :
    Reads readMetadataRecord (encodeMetadataRecord ⟨.topicDelete, topic, []⟩) ⟨.topicDelete, topic, []⟩ := by
  simp only [encodeMetadataRecord, List.append_nil]
  exact (reads_readInt8 1).bind ((reads_readString htopic).bind_pure fun topic => (⟨.topicDelete, topic, []⟩ : Record))

-- A record's bytes are read back, whatever follows them.
theorem reads_readMetadataRecord (h : record.Valid) (hlen : (encodeMetadataRecord record).length < 2 ^ 32) :
    Reads readMetadataRecord (encodeMetadataRecord record) record := by
  cases record
  case mk type topic partitions =>
    cases type
    case topicUpsert =>
      simp only [encodeMetadataRecord, List.length_append] at hlen
      exact reads_topicUpsert h.topic h.partitions (by omega)
    case topicDelete =>
      cases h.delete rfl
      exact reads_topicDelete h.topic

theorem decode_encodeMetadataRecord (h : record.Valid) (hlen : (encodeMetadataRecord record).length < 2 ^ 32) :
    decodeMetadataRecord (encodeMetadataRecord record) = .ok record := by
  have hreads := reads_readMetadataRecord h hlen []
  rw [List.append_nil] at hreads
  rw [decodeMetadataRecord, hreads]
  rfl

namespace MetadataLog

variable {log : Storage.Log} {L : List Bytes}

theorem readRound_eq_none (h : log.Stores L) {next : Int} (hnext : L.length ≤ next) :
    readRound log next = .ok none := by
  rw [readRound, h.read_of_le hnext]
  rfl

-- A round gets at least one payload.
theorem readRound_eq_some (h : log.Stores L) {next : Int} (hnonneg : 0 ≤ next) (hnext : next < L.length) :
    ∃ k, 0 < k ∧ next.toNat + k ≤ L.length ∧
      readRound log next = .ok (some ((L.drop next.toNat).take k, next + k)) := by
  have hlt := h.length_lt
  obtain ⟨k, hk, hle, hread⟩ := h.read_of_lt hnonneg hnext (-1)
  have hlen : ((L.drop next.toNat).take k).length = k := by
    rw [List.length_take, List.length_drop]
    omega
  obtain ⟨last, hlast, hoffset⟩ :=
    Storage.exists_getLast?_recordsFrom (List.length_pos_iff.mp (hlen.symm ▸ hk)) next
  rw [hlen] at hoffset
  refine ⟨k, hk, hle, ?_⟩
  rw [readRound, hread]
  simp only [bind, Except.bind, hlast, Option.map_some, hoffset, Storage.map_payload_recordsFrom]
  rw [int64, wrap_of_nonneg (by decide) (by omega) (by omega)]
  rfl

theorem readRawFrom_go_eq (h : log.Stores L) (next : Nat) (payloads : List Bytes) {fuel : Nat}
    (hfuel : L.length < next + fuel) (hpos : 0 < fuel) :
    readRawFrom.go log fuel next payloads = .ok (payloads ++ L.drop next) := by
  induction fuel generalizing next payloads
  case zero => contradiction
  case succ fuel hi =>
    cases Nat.lt_or_ge next L.length
    case inr hle =>
      rw [readRawFrom.go, readRound_eq_none h (by omega), List.drop_of_length_le hle, List.append_nil]
    case inl hlt =>
      have ⟨k, hk, hle, hround⟩ := readRound_eq_some h (Int.natCast_nonneg next) (by omega)
      rw [Int.toNat_natCast] at hle hround
      rw [readRawFrom.go, hround]
      simp only [← Int.natCast_add]
      rw [hi (next + k) _ (by omega) (by omega), List.append_assoc, ← List.drop_drop, List.take_append_drop]

theorem readRawFrom_eq (h : log.Stores L) {offset : Int} (ho : 0 ≤ offset) :
    readRawFrom log offset = .ok (L.drop offset.toNat) := by
  have hfuel : L.length < offset.toNat + (log.endOffset.toNat + 1) := by
    rw [h.endOffset]
    omega
  have hgo := readRawFrom_go_eq h offset.toNat [] hfuel (by omega)
  rwa [Int.toNat_of_nonneg ho] at hgo

theorem replayAll_eq {records : List Record} (h : log.Stores (records.map encodeMetadataRecord))
    (hvalid : ∀ r ∈ records, r.Valid) : replayAll log = .ok records := by
  have hdecode : (records.map encodeMetadataRecord).mapM decodeMetadataRecord = .ok records := by
    have hlen := h.payload_lt
    clear h
    induction records
    case nil => rfl
    case cons r rs hi =>
      rw [List.map_cons, List.mapM_cons,
        decode_encodeMetadataRecord (hvalid r List.mem_cons_self) (hlen _ List.mem_cons_self),
        hi (fun r hr => hvalid r (List.mem_cons_of_mem _ hr)) fun p hp => hlen p (List.mem_cons_of_mem _ hp)]
      rfl
  rw [replayAll, readFrom, readRawFrom_eq h (Int.le_refl 0)]
  exact hdecode

end MetadataLog
end Cluster
