import Gokaf.Network.Fetch
import Gokaf.Protocol.Theorems.RecordBatch
import Gokaf.Protocol.Theorems.Types
import Gokaf.Replication.Fetcher
import Gokaf.Storage.Theorems.Refinement

open Go Protocol

namespace Replication

-- One round of the loop on bytes that start with a framed batch, which need not be there to its end.
theorem splitBatches.go_framed {b rest p : Bytes} {fuel : Nat} (hb : Framed b) (hp : p <+: b ++ rest) :
    go (fuel + 1) p = [] ∨ ∃ p', p' <+: rest ∧ go (fuel + 1) p = b :: go fuel p' := by
  have hlen : 61 ≤ b.length := hb.le_length
  simp only [go]
  split
  case isFalse => exact .inl rfl
  case isTrue hle =>
    have htotal : 12 + BigEndian.uint (slice p 8 12) = b.length := by
      have hslice : slice p 8 12 = slice b 8 12 := by
        have h₁ := List.prefix_iff_eq_take.mp hp
        rw [slice, slice, ← List.drop_take, ← List.drop_take, h₁, List.take_take, Nat.min_eq_left hle,
          List.take_append_of_le_length (by omega)]
      rw [hslice, hb.length_eq]
    rw [htotal]
    split
    case isTrue => exact .inl rfl
    case isFalse h =>
      obtain ⟨p', hp'⟩ : b <+: p := List.prefix_of_prefix_length_le (List.prefix_append b rest) hp (by omega)
      rw [← hp'] at hp ⊢
      refine .inr ⟨p', (List.prefix_append_right_inj b).mp hp, ?_⟩
      rw [List.take_left, List.drop_left]

theorem splitBatches.go_isPrefix {bs : List Bytes} {p : Bytes} {fuel : Nat} (hb : ∀ b ∈ bs, Framed b)
    (hp : p <+: bs.flatten) : go fuel p <+: bs := by
  induction fuel generalizing bs p
  case zero => exact List.nil_prefix
  case succ fuel hi =>
    cases bs
    case nil =>
      rw [List.prefix_nil.mp hp]
      exact List.nil_prefix
    case cons b bs =>
      cases @go_framed _ _ _ fuel (hb b (by simp)) hp
      case inl h =>
        rw [h]
        exact List.nil_prefix
      case inr h =>
        obtain ⟨p', hp', h⟩ := h
        rw [h, List.prefix_cons_inj]
        exact hi (fun b' hb' => hb b' (by simp [hb'])) hp'

-- However many bytes of framed batches arrive, the follower cuts them into some of these batches.
theorem splitBatches_isPrefix {bs : List Bytes} {p : Bytes} (hb : ∀ b ∈ bs, Framed b)
    (hp : p <+: bs.flatten) : splitBatches p <+: bs :=
  splitBatches.go_isPrefix hb hp

section Delimited

variable {b : Bytes} {bs : List Bytes}

-- One round of the loop takes a batch off the input that tells its own length.
theorem splitBatches.go_append (hb : 12 + BigEndian.uint (slice b 8 12) = b.length) (fuel : Nat) (rest : Bytes) :
    go (fuel + 1) (b ++ rest) = b :: go fuel rest := by
  have htotal : 12 + BigEndian.uint (slice (b ++ rest) 8 12) = b.length := by rw [slice_append_left (by omega), hb]
  simp only [go, htotal]
  rw [if_pos (by simp; omega), if_neg (by simp; omega), List.take_left, List.drop_left]

theorem splitBatches.go_flatten (h : ∀ b ∈ bs, 12 + BigEndian.uint (slice b 8 12) = b.length) {fuel : Nat}
    (hf : bs.length < fuel) : go fuel bs.flatten = bs := by
  induction bs generalizing fuel
  case nil =>
    obtain ⟨fuel, rfl⟩ : ∃ f, fuel = f + 1 := ⟨fuel - 1, by omega⟩
    simp [go]
  case cons b bs hi =>
    obtain ⟨fuel, rfl⟩ : ∃ f, fuel = f + 1 := ⟨fuel - 1, by omega⟩
    rw [List.flatten_cons, go_append (h b List.mem_cons_self)]
    rw [hi (fun b hb => h b (List.mem_cons_of_mem _ hb)) (by simpa using hf)]

theorem splitBatches_flatten (h : ∀ b ∈ bs, 12 + BigEndian.uint (slice b 8 12) = b.length) :
    splitBatches bs.flatten = bs := by
  refine splitBatches.go_flatten h (Nat.lt_succ_of_le ?_)
  induction bs
  case nil => simp
  case cons b bs hi =>
    have hb := h b List.mem_cons_self
    have := hi fun b hb => h b (List.mem_cons_of_mem _ hb)
    rw [List.length_cons, List.flatten_cons, List.length_append]
    omega

end Delimited

theorem run_parseFetchPartition {topicName : Bytes} (ht : topicName.length < 2 ^ 15)
    {response : Network.FetchPartitionResponse} {batches : Option Bytes} {rest : Bytes}
    (hrun : (readBytes : Decoder _).run (writeBytes response.records) = .ok (batches, rest)) :
    parseFetchPartition.run (Network.writeFetchResponse [⟨topicName, [response]⟩]) =
      .ok ((batches, wrap 16 response.errorCode.code), rest) := by
  have hone : int32 (1 : Nat) ≠ 0 := by decide
  simp only [Network.writeFetchResponse, List.map_cons, List.map_nil, List.flatten_cons, List.flatten_nil,
    List.append_nil, List.append_assoc, List.length_singleton]
  rw [parseFetchPartition, (reads_readArrayLen _).run_bind, if_neg hone, (reads_readString ht).run_bind,
    (reads_readArrayLen _).run_bind, if_neg hone, (reads_readInt32 _).run_bind,
    (reads_readInt16 _).run_bind, (reads_readInt64 _).run_bind, StateT.run_bind, hrun]
  rfl

-- What the leader's answer makes the follower append.
theorem batchesOf_isPrefix {topicName : Bytes} {response : Network.FetchPartitionResponse} {bs : List Bytes}
    (ht : topicName.length < 2 ^ 15) (hb : ∀ b ∈ bs, Framed b) (hr : response.records.getD [] = bs.flatten) :
    batchesOf (Network.writeFetchResponse [⟨topicName, [response]⟩]) <+: bs := by
  obtain ⟨batches, rest, hrun, hpre⟩ := run_readBytes_writeBytes response.records
  rw [batchesOf, run_parseFetchPartition ht hrun]
  dsimp only
  split
  case isTrue  => exact List.nil_prefix
  case isFalse => exact splitBatches_isPrefix hb (hr ▸ hpre)

-- The follower gets back the batches that the leader has joined.
theorem batchesOf_eq {topicName : Bytes} {response : Network.FetchPartitionResponse} {bs : List Bytes}
    (ht : topicName.length < 2 ^ 15) (hcode : response.errorCode = .none)
    (hb : ∀ b ∈ bs, 12 + BigEndian.uint (slice b 8 12) = b.length) (hr : response.records.getD [] = bs.flatten)
    (hlen : bs.flatten.length < 2 ^ 31) : batchesOf (Network.writeFetchResponse [⟨topicName, [response]⟩]) = bs := by
  have hrun := reads_readBytes (hr.symm ▸ hlen) []
  rw [List.append_nil] at hrun
  rw [batchesOf, run_parseFetchPartition ht hrun]
  dsimp only
  have hnone : wrap 16 response.errorCode.code = ErrorCode.none.code := by
    rw [hcode]
    rfl
  rw [hnone, Option.getD_some, hr]
  by_cases hnil : bs.flatten.length = 0
  case pos =>
    rw [if_pos (.inr hnil)]
    have hsplit := splitBatches_flatten hb
    rw [List.length_eq_zero_iff.mp hnil] at hsplit
    exact hsplit
  case neg =>
    rw [if_neg (not_or.mpr ⟨not_ne_iff.mpr rfl, hnil⟩)]
    exact splitBatches_flatten hb

theorem appendAll_stores {l : Storage.Log} {L bs : List Bytes} (h : l.Stores L)
    (hb : ∀ b ∈ bs, b.length < 2 ^ 32) (hlen : bs ≠ [] → L.length + bs.length < 2 ^ 63) :
    (appendAll l bs).Stores (L ++ bs) := by
  induction bs generalizing l L
  case nil => simpa [appendAll] using h
  case cons b bs hi =>
    have hlen := hlen (by simp)
    rw [List.length_cons] at hlen
    obtain ⟨l', happend, hl'⟩ := h.appendWithOffset .none (hb b (by simp)) (by omega)
    have happend' : l.append b = (l', .ok L.length) := happend
    simp only [appendAll, happend']
    have := hi hl' (fun b' hb' => hb b' (by simp [hb'])) (fun _ => by
      simp only [Storage.listAppend, Bool.false_eq_true, if_false, List.length_append, List.length_singleton]
      omega)
    simpa [Storage.listAppend, Storage.Stamp.none] using this

end Replication
