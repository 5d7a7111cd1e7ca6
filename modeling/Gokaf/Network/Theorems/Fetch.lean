import Gokaf.Network.Consumer
import Gokaf.Replication.Theorems.PartitionState
import Gokaf.Storage.Theorems.Refinement

open Go Protocol

namespace Network

theorem joinRecordPayloads_recordsFrom (o : Int) (ps : List Bytes) :
    joinRecordPayloads (Storage.recordsFrom o ps) = ps.flatten := by
  rw [joinRecordPayloads, Storage.map_payload_recordsFrom]

-- What a fetch at `o` from a log with the entries `L` is answered: entries from `o` on, at least one of
-- them unless `o` is the end.
structure Answers (L : List Bytes) (o : Int) (response : FetchPartitionResponse) : Prop where
  none_iff : response.errorCode = .none ↔ 0 ≤ o ∧ o ≤ L.length
  records  : ∃ n, response.records.getD [] = ((L.drop o.toNat).take n).flatten ∧
    (0 ≤ o → o < L.length → 0 < n ∧ o.toNat + n ≤ L.length)

theorem answerFetch_answers {l : Storage.Log} {L : List Bytes} (h : l.Stores L)
    (partitionIndex highWatermark o maxBytes : Int) :
    Answers L o (answerFetch storageLog l partitionIndex L.length highWatermark o maxBytes) := by
  unfold answerFetch
  split
  case isTrue hout => exact ⟨by simp; omega, 0, by simp, by omega⟩
  case isFalse hin =>
    split
    case isTrue heq => exact ⟨by simp; omega, 0, by simp, by omega⟩
    case isFalse hne =>
      have ⟨rs, hread, hrs⟩ := h.read (o := o) (by omega) maxBytes
      have hpos : rs ≠ [] := fun hnil => by
        have := hrs.empty_iff.mp hnil
        omega
      have hlen := congrArg List.length hrs.consecutive
      rw [Storage.length_recordsFrom, List.length_take, List.length_drop] at hlen
      have hjoin : joinRecordPayloads rs = ((L.drop o.toNat).take rs.length).flatten := by
        conv_lhs => rw [hrs.consecutive, joinRecordPayloads_recordsFrom]
      have hread' : storageLog.read l o maxBytes = .ok rs := hread
      rw [hread']
      refine ⟨by simp; omega, rs.length, hjoin, fun _ _ => ?_⟩
      have := List.length_pos_iff.mpr hpos
      omega

theorem fetchPartition_answers {l : Storage.Log} {L : List Bytes} (h : l.Stores L)
    (led : Option Replication.PartitionState) (replicaID partitionIndex o maxBytes now : Int) :
    ∃ response, Answers L o response ∧
      fetchPartition storageLog true (.ok l) led replicaID partitionIndex o maxBytes now =
        ((recordFetch led replicaID o L.length now).fst, (recordFetch led replicaID o L.length now).snd.fst,
          response) := by
  have hend : storageLog.endOffset l = L.length := h.endOffset
  simp only [fetchPartition, hend, not_true_eq_false, if_false]
  exact ⟨_, answerFetch_answers h .., rfl⟩

-- A fetch is recorded in the leader's state before the watermark is recomputed.
theorem recordFetch_recomputed (st : Replication.PartitionState) (replicaID f e now : Int) :
    ∃ st' ws, recordFetch (some st) replicaID f e now = (some st', ws, st'.highWatermark) ∧
      Replication.PartitionState.Recomputed
        (if 0 ≤ replicaID then st.fetched replicaID f e now else { st with leaderEndOffset := e }) now st' ws := by
  simp only [recordFetch]
  split
  case isFalse =>
    refine ⟨_, _, rfl, ?_⟩
    rw [List.nil_append]
    exact st.updateHighWatermark_recomputed e now
  case isTrue =>
    have h := st.recordFollowerFetch_recomputed replicaID f e now
    have h' := (st.recordFollowerFetch replicaID f e now).fst.updateHighWatermark_recomputed e now
    have hend : { (st.recordFollowerFetch replicaID f e now).fst with leaderEndOffset := e } =
        (st.recordFollowerFetch replicaID f e now).fst := by
      rw [h.eq]
      rfl
    rw [hend] at h'
    exact ⟨_, _, rfl, h.trans h'⟩

end Network
