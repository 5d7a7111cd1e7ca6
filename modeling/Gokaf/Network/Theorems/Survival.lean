import Gokaf.Assignor.Codec
import Gokaf.Network.Theorems.Creation
import Gokaf.Network.Theorems.Dispatch

open Go Protocol Effect

namespace Network

section Batches

theorem decodes_readVarintBytes : Decodes readVarintBytes .varintBytes := by
  refine matches_readVarint_bind fun n rest => ?_
  by_cases hn : n < 0
  case pos =>
    rw [if_pos hn, if_pos hn]
    exact .ends none rest
  case neg =>
    rw [if_neg hn, if_neg hn]
    exact (decodes_readFull n.toNat).map some rest

theorem decodes_decodeRecord (baseOffset baseTS : Int) : Decodes (decodeRecord baseOffset baseTS) recordLayout :=
  decodes_readVarint.bind fun _ => (decodes_readInt 8).bind fun _ => decodes_readVarint.bind fun _ =>
    decodes_readVarint.bind fun _ => decodes_readVarintBytes.bind fun _ => decodes_readVarintBytes.bind fun _ =>
      decodes_readVarint.bind fun _ => decodes_pure _

-- The records of a batch, with the bytes behind them.
theorem matches_decodeOneBatch (batch : Bytes) :
    ∃ out : Except Fault (List DecodedRecord × Bytes),
      decodeOneBatch batch = out.map (·.fst) ∧ (batchExtent batch).Matches out := by
  unfold decodeOneBatch batchExtent
  by_cases hlen : batch.length < recordBatchHeaderLen
  case pos =>
    rw [if_pos hlen, if_pos (.inl hlen)]
    exact ⟨.error _, rfl, .cut _⟩
  by_cases hmagic : batch[16]? ≠ some 2
  case pos =>
    rw [if_neg hlen, if_pos hmagic, if_pos (.inr hmagic)]
    exact ⟨.error _, rfl, .cut _⟩
  rw [if_neg hlen, if_neg hmagic, if_neg (not_or.mpr ⟨hlen, hmagic⟩)]
  obtain ⟨n, hn⟩ : ∃ n, sint 32 (slice batch 57 61) = n := ⟨_, rfl⟩
  simp only [Batch.recordCount, hn]
  by_cases hcount : n < 0
  case pos =>
    rw [if_pos hcount, makeSlice, if_pos hcount]
    exact ⟨.error _, rfl, .negative n⟩
  case neg =>
    rw [if_neg hcount, makeSlice, if_neg hcount, pure_bind]
    exact ⟨_, rfl, (decodes_decodeRecord _ _).rounds n.toNat _⟩

theorem survives_go_iff (fuel : Nat) (raw : Bytes) (out : List DecodedRecord) :
    Survives (decodeRecordBatches.go fuel raw out) ↔ ∀ n, batchesExtent.go fuel raw ≠ .negative n := by
  induction fuel generalizing raw out
  case zero => simp [decodeRecordBatches.go, batchesExtent.go, pure, Except.pure]
  case succ fuel hi =>
    rw [decodeRecordBatches.go, batchesExtent.go]
    by_cases hlen : 12 ≤ raw.length
    case neg => simp [hlen, pure, Except.pure]
    rw [if_pos hlen]
    dsimp only
    by_cases hwhole : recordBatchHeaderLen ≤ 12 + BigEndian.uint (slice raw 8 12) ∧
        12 + BigEndian.uint (slice raw 8 12) ≤ raw.length
    case neg =>
      rw [if_pos (by omega), if_neg (fun h => hwhole h.right)]
      simp [pure, Except.pure]
    case pos =>
      rw [if_neg (by omega), if_pos ⟨hlen, hwhole⟩]
      obtain ⟨out', hdecode, hm⟩ := matches_decodeOneBatch (raw.take (12 + BigEndian.uint (slice raw 8 12)))
      rw [hdecode]
      generalize batchExtent _ = e at hm
      cases hm
      case ends rs rest => exact hi _ (out ++ rs)
      case cut e        => simp [Except.map, Extent.bind, bind, Except.bind]
      case negative n   => simp [Except.map, Extent.bind, bind, Except.bind]

theorem survives_decodeRecordBatches_iff (raw : Bytes) :
    Survives (decodeRecordBatches raw) ↔ ∀ n, batchesExtent raw ≠ .negative n :=
  survives_go_iff (raw.length + 1) raw []

end Batches

section Assignments

open Assignor

variable {σ : Type}

theorem follows_readTopicPartitions :
    Follows (readTopicPartitions : Effect σ TopicPartitions) (.fields [.string, .array true (.fixed 4)]) :=
  follows_readString.bind fun _ => follows_sizedArray_bind (follows_readInt 32) fun _ => follows_pure _

theorem stateless_readTopicPartitions :
    Stateless (readTopicPartitions : Effect σ TopicPartitions) readTopicPartitions :=
  stateless_readString.bind fun _ => stateless_readArrayLen.bind fun n => (stateless_makeSlice n).bind fun _ =>
    (stateless_readInt32.forRange n).bind fun _ => stateless_pure _

theorem decodes_readAssignment : Decodes readAssignment assignmentLayout := by
  have hfollows : Follows (readAssignment : Effect Unit (List TopicPartitions)) assignmentLayout :=
    (follows_readInt 16).bind fun _ => (follows_sizedArray follows_readTopicPartitions).last
  exact hfollows.decodes <| (stateless_readInt 16).bind fun _ => stateless_readArrayLen.bind fun n =>
    (stateless_makeSlice n).bind fun _ => stateless_readTopicPartitions.forRange n

theorem survives_decodeAssignment_iff (blob : Bytes) :
    Survives (decodeAssignment blob) ↔ ∀ n, assignmentLayout.scan blob ≠ .negative n := by
  rw [← (decodes_readAssignment blob).survives_iff, decodeAssignment]
  by_cases hempty : blob.length = 0
  case pos =>
    rw [List.length_eq_zero_iff.mp hempty]
    refine iff_of_true (survives_ok _) ?_
    rintro p ⟨⟩
  case neg =>
    rw [if_neg hempty]
    rcases (readAssignment : Decoder (List TopicPartitions)).run blob with fault | r
    case error => simp [Except.map]
    case ok    => simp [Except.map]

end Assignments

-- Every panic comes from a negative number of elements for which a slice is made.
theorem survives_iff_not_negative (w : Surroundings) (s : Server) (payload raw blob : Bytes) :
    (Survives (Server.dispatch w s payload).fst ↔ ∀ n, requestExtent payload ≠ .negative n) ∧
    (Survives (decodeRecordBatches raw) ↔ ∀ n, batchesExtent raw ≠ .negative n) ∧
    (Survives (Assignor.decodeAssignment blob) ↔ ∀ n, assignmentLayout.scan blob ≠ .negative n) :=
  ⟨Server.survives_dispatch_iff w s payload, survives_decodeRecordBatches_iff raw, survives_decodeAssignment_iff blob⟩

section Example

theorem all_toList (r : Topic.Registry) : r.All (r.entries.map (·.snd)).toList := by
  rw [Topic.Registry.All]
  exact Multiset.coe_toList _

noncomputable def sampleSurroundings : Surroundings where
  env _     := Broker.sampleEnv
  now       := 0
  host      := [104]
  port      := 9092
  nodes     := [⟨1, [104], 9092⟩]
  all r     := ⟨(r.entries.map (·.snd)).toList, all_toList r⟩
  dropPings := false
  joined _  := none
  synced _  := none

def sampleServer : Server where
  broker := .init [100]
  groups := .new 3000000000

-- A produce request with a null array of topics.
def nullTopics : Bytes :=
  writeRequestHeader ⟨0, 0, 1, none⟩ ++ writeInt16 1 ++ writeInt32 0 ++ writeArrayLen (-1)

-- A batch that says that it has -1 records, as its producer has computed its checksum.
def nullRecords : Bytes :=
  Batch.headerOnly (-1) (-1) (-1)

theorem nullArrays_panic :
    (Server.dispatch sampleSurroundings sampleServer nullTopics).fst = .error (.panic (.makeSlice (-1))) ∧
      (((Broker.init [100]).createTopic Broker.sampleEnv [116] 1 1).fst.producePartition Broker.sampleEnv [116] 0
        nullRecords 1).snd = { index := 0, errorCode := .none, baseOffset := 0 } ∧
      decodeRecordBatches (Batch.withBaseOffset nullRecords 0) = .error (.panic (.makeSlice (-1))) ∧
      Assignor.decodeAssignment (writeInt16 0 ++ writeArrayLen (-1)) = .error (.panic (.makeSlice (-1))) := by
  refine ⟨?_, ?_, ?_, ?_⟩
  · decide +kernel
  · decide +kernel
  · decide +kernel
  · decide +kernel

end Example

end Network
