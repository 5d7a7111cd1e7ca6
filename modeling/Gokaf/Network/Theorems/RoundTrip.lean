import Gokaf.Network.Theorems.Produce
import Gokaf.Protocol.Theorems.Format
import Mathlib.Algebra.BigOperators.Group.List.Basic

open Go Protocol

namespace Protocol.Format.Batch

variable {b : Batch}

theorem slice_batchLength (b : Batch) : slice b.encode 8 12 = putInt 32 (9 + b.checked.length) := by
  simp (disch := simp) only [encode, List.append_assoc, slice_append_right, length_putInt]
  exact slice_append_self (length_putInt ..)

theorem slice_crc (b : Batch) : slice b.encode 17 21 = BigEndian.put 4 (Crc32.checksum b.checked) := by
  simp (disch := simp) only [encode, List.append_assoc, slice_append_right, length_putInt, List.length_singleton]
  exact slice_append_self (BigEndian.length_put ..)

theorem drop_checked (b : Batch) : b.encode.drop 21 = b.checked := by
  simp (disch := simp) only [encode, List.append_assoc, drop_append_right, length_putInt, BigEndian.length_put,
    List.length_singleton]
  rfl

theorem length_checked (b : Batch) : b.encode.length = 21 + b.checked.length := by
  simp only [encode, List.length_append, length_putInt, BigEndian.length_put, List.length_singleton]

-- A batch that is encoded as it should be is accepted, and its length field tells its length.
theorem valid_encode (b : Batch) : Network.validRecordBatch b.encode := by
  have hlen : Network.recordBatchHeaderSize ≤ b.encode.length := by
    rw [length_encode]
    exact Nat.le_add_right _ _
  have hcrc : Crc32.checksum b.checked = BigEndian.uint (BigEndian.put 4 (Crc32.checksum b.checked)) :=
    (BigEndian.uint_put_of_lt (UInt32.toNat_lt _)).symm
  simp only [Network.validRecordBatch, decide_eq_true_eq]
  exact ⟨hlen, getElem?_magic b, by rw [drop_checked, slice_crc]; exact hcrc⟩

theorem framed_encode (h : b.encode.length < 2 ^ 31) : Framed b.encode where
  le_length := by
    rw [length_encode]
    exact Nat.le_add_right _ _
  length_eq := by
    rw [length_checked] at h ⊢
    have hcast : (9 : Int) + b.checked.length = ((9 + b.checked.length : Nat) : Int) := by push_cast; rfl
    rw [slice_batchLength, putInt, hcast, unsigned_natCast_of_lt (by omega), BigEndian.uint_put_of_lt (by omega)]
    omega

theorem withBaseOffset_encode (b : Batch) (o : Int) :
    Network.Batch.withBaseOffset b.encode o = { b with baseOffset := o }.encode := by
  rw [Network.Batch.withBaseOffset, if_pos (by rw [length_checked]; omega)]
  simp (disch := simp) only [encode, List.append_assoc, drop_append_right, length_putInt]
  rfl

end Protocol.Format.Batch

namespace Protocol

-- The record that `encodeRecord` writes.
def BatchRecord.format (r : BatchRecord) (i : Nat) : Format.Record where
  attributes     := 0
  timestampDelta := 0
  offsetDelta    := i
  key            := r.key
  value          := some r.value
  headers        := []

theorem int32_natCast {n : Nat} (h : n < 2 ^ 31) : int32 n = n :=
  wrap_of_nonneg (by decide) (by omega) (by omega)

variable {r : BatchRecord} {records : List BatchRecord} {i : Nat}

theorem encodeRecord_of_lt (hi : i < 2 ^ 31) (hkey : ∀ key ∈ r.key, key.length < 2 ^ 31)
    (hvalue : r.value.length < 2 ^ 31) :
    encodeRecord r i = writeVarint (int32 (r.format i).body.length) ++ (r.format i).body := by
  simp only [Format.Record.body, Format.Record.front, BatchRecord.format, List.flatMap_nil, List.append_nil,
    List.length_nil, Nat.cast_zero]
  cases hr : r.key
  case none =>
    simp only [encodeRecord, hr, int32_natCast hi, int32_natCast hvalue, Format.encodeNullable, List.append_assoc]
  case some key =>
    simp only [encodeRecord, hr, int32_natCast hi, int32_natCast hvalue, int32_natCast (hkey key hr),
      Format.encodeNullable, List.append_assoc]

theorem encodeRecord_eq (hi : i < 2 ^ 31) (h : (encodeRecord r i).length < 2 ^ 31) :
    encodeRecord r i = (r.format i).encode ∧ (r.format i).WellFormed := by
  have hkey : ∀ key ∈ r.key, key.length < 2 ^ 31 := by
    intro key hmem
    simp only [encodeRecord, Option.mem_def.mp hmem, List.length_append] at h
    omega
  have hvalue : r.value.length < 2 ^ 31 := by
    simp only [encodeRecord, List.length_append] at h
    omega
  have heq := encodeRecord_of_lt hi hkey hvalue
  have hbody : (r.format i).body.length < 2 ^ 31 := by
    rw [heq, List.length_append] at h
    omega
  rw [int32_natCast hbody] at heq
  exact ⟨heq, show IsInt32 0 by decide, isInt32_natCast hi, hbody⟩

-- The batch that `BuildRecordBatch` makes, once its base offset is known.
def buildFormat (records : List BatchRecord) (baseOffset : Int) : Format.Batch where
  baseOffset           := baseOffset
  partitionLeaderEpoch := -1
  attributes           := 0
  lastOffsetDelta      := records.length - 1
  baseTimestamp        := baseTimestamp
  maxTimestamp         := baseTimestamp
  producerID           := -1
  producerEpoch        := -1
  baseSequence         := -1
  records              := records.zipIdx.map fun (r, i) => r.format i

def recordBytes (records : List BatchRecord) : Bytes :=
  (records.zipIdx.map fun p => encodeRecord p.fst p.snd).flatten

theorem length_buildRecordBatch (records : List BatchRecord) :
    (buildRecordBatch records).length = recordBatchHeaderLen + (recordBytes records).length := by
  simp only [buildRecordBatch, checkedPart, List.length_append, length_putInt, BigEndian.length_put,
    List.length_singleton, recordBatchHeaderLen]
  rw [recordBytes]
  omega

theorem length_le_length_recordBytes (records : List BatchRecord) : records.length ≤ (recordBytes records).length := by
  have hone : ∀ n ∈ records.zipIdx.map fun p => (encodeRecord p.fst p.snd).length, 1 ≤ n := by
    intro n hn
    obtain ⟨p, -, rfl⟩ := List.mem_map.mp hn
    rw [encodeRecord, List.length_append]
    exact le_trans (one_le_length_writeVarint _) (Nat.le_add_right _ _)
  simpa [recordBytes, List.length_flatten, Function.comp_def] using List.length_le_sum_of_one_le _ hone

theorem buildRecordBatch_eq (h : (buildRecordBatch records).length < 2 ^ 31) :
    buildRecordBatch records = (buildFormat records 0).encode ∧ (buildFormat records 0).WellFormed := by
  have hbytes : (recordBytes records).length < 2 ^ 31 := by
    rw [length_buildRecordBatch] at h
    omega
  have hcount := length_le_length_recordBytes records
  have hrecord : ∀ p ∈ records.zipIdx,
      encodeRecord p.fst p.snd = (p.fst.format p.snd).encode ∧ (p.fst.format p.snd).WellFormed := by
    intro p hp
    have hi := List.snd_lt_of_mem_zipIdx hp
    have hmem : encodeRecord p.fst p.snd ∈ records.zipIdx.map fun p => encodeRecord p.fst p.snd :=
      List.mem_map_of_mem hp
    have hle := (List.sublist_flatten_of_mem hmem).length_le
    exact encodeRecord_eq (by omega) (lt_of_le_of_lt hle hbytes)
  have hflat : recordBytes records = (buildFormat records 0).records.flatMap Format.Record.encode := by
    rw [recordBytes, List.map_congr_left fun p hp => (hrecord p hp).left]
    simp [buildFormat, List.flatMap_def, Function.comp_def]
  have hchecked : checkedPart records = (buildFormat records 0).checked := by
    have hlen : (buildFormat records 0).records.length = records.length := by simp [buildFormat]
    rw [Format.Batch.checked, ← hflat, hlen]
    rfl
  refine ⟨?_, rfl, ?_, ?_⟩
  · rw [buildRecordBatch, hchecked]
    rfl
  · simp only [buildFormat, List.length_map, List.length_zipIdx]
    omega
  · exact List.forall_mem_map.mpr fun p hp => (hrecord p hp).right

end Protocol

namespace Network

variable {records : List BatchRecord}

-- The records of a batch as they are read back.
def readBack (baseOffset : Int) (records : List BatchRecord) : List DecodedRecord :=
  records.zipIdx.map fun (r, i) => ⟨int64 (baseOffset + i), r.key, some r.value, baseTimestamp⟩

theorem withBaseOffset_build (h : (buildRecordBatch records).length < 2 ^ 31) (o : Int) :
    Batch.withBaseOffset (buildRecordBatch records) o = (buildFormat records o).encode := by
  rw [(buildRecordBatch_eq h).left, Format.Batch.withBaseOffset_encode]
  rfl

theorem decodeOneBatch_build (h : (buildRecordBatch records).length < 2 ^ 31) (o : Int) :
    decodeOneBatch (Batch.withBaseOffset (buildRecordBatch records) o) = .ok (readBack o records) := by
  obtain ⟨-, huncompressed, hlen, hrecords⟩ := buildRecordBatch_eq h
  have hwf : (buildFormat records o).WellFormed := ⟨huncompressed, hlen, hrecords⟩
  have hheaders : ∀ r ∈ (buildFormat records o).records.dropLast, r.headers = [] := by
    intro r hr
    obtain ⟨p, -, rfl⟩ := List.mem_map.mp ((List.dropLast_sublist _).subset hr)
    rfl
  rw [withBaseOffset_build h, hwf.decodeOneBatch_eq hheaders]
  simp only [Format.Batch.resolve, buildFormat, readBack, List.map_map]
  rfl

-- A batch of any records goes through produce and fetch.
theorem build_roundTrip {batches : List (Int × List BatchRecord)}
    (h : ∀ p ∈ batches, (buildRecordBatch p.snd).length < 2 ^ 31) :
    (∀ p ∈ batches, validRecordBatch (buildRecordBatch p.snd) ∧
      validRecordBatch (Batch.withBaseOffset (buildRecordBatch p.snd) p.fst)) ∧
    decodeRecordBatches (batches.map fun p => Batch.withBaseOffset (buildRecordBatch p.snd) p.fst).flatten =
      .ok (batches.map fun p => readBack p.fst p.snd).flatten := by
  refine ⟨fun p hp => ⟨?_, ?_⟩, decodeRecordBatches_flatten ?_⟩
  · rw [(buildRecordBatch_eq (h p hp)).left]
    exact Format.Batch.valid_encode _
  · rw [withBaseOffset_build (h p hp)]
    exact Format.Batch.valid_encode _
  · rw [List.forall₂_map_left_iff, List.forall₂_map_right_iff, List.forall₂_same]
    intro p hp
    refine ⟨?_, decodeOneBatch_build (h p hp) p.fst⟩
    have hlen := Batch.length_withBaseOffset (buildRecordBatch p.snd) p.fst
    rw [withBaseOffset_build (h p hp)] at hlen ⊢
    exact Format.Batch.framed_encode (lt_of_eq_of_lt hlen (h p hp))

-- Two batches, with a null key and with an empty one.
theorem build_roundTrip_two :
    let batches : List (Int × List BatchRecord) := [(5, [⟨none, [1]⟩, ⟨some [], [2, 3]⟩]), (9, [⟨some [4], []⟩])]
    decodeRecordBatches (batches.map fun p => Batch.withBaseOffset (buildRecordBatch p.snd) p.fst).flatten =
      .ok [⟨5, none, some [1], baseTimestamp⟩, ⟨6, some [], some [2, 3], baseTimestamp⟩,
        ⟨9, some [4], some [], baseTimestamp⟩] := by
  intro batches
  have h : ∀ p ∈ batches, (buildRecordBatch p.snd).length < 2 ^ 31 := by decide +kernel
  exact (build_roundTrip h).right

end Network
