import Gokaf.Network.Theorems.Produce
import Gokaf.Replication.Theorems.Fetcher

open Go Protocol Replication

namespace Replication.splitBatches

-- Every piece has the length that it tells.
theorem length_of_mem_go {p : Bytes} {fuel : Nat} {raw : Bytes} (hp : p ∈ go fuel raw) :
    12 + BigEndian.uint (slice p 8 12) = p.length := by
  induction fuel generalizing raw
  case zero => simp [go] at hp
  case succ fuel hi =>
    simp only [go] at hp
    split at hp
    case isFalse => simp at hp
    case isTrue hle =>
      split at hp
      case isTrue => simp at hp
      case isFalse htotal =>
        cases List.mem_cons.mp hp
        case inr hp => exact hi hp
        case inl hp =>
          have hslice : slice p 8 12 = slice raw 8 12 := by
            rw [hp, slice, slice, ← List.drop_take, ← List.drop_take, List.take_take, Nat.min_eq_left (by omega)]
          rw [hslice, hp, List.length_take]
          omega

end Replication.splitBatches

namespace Network

variable {b : Bytes} {bs : List Bytes}

theorem framed_of_mem_splitBatches (hb : validRecordBatch b) {raw : Bytes} (h : b ∈ splitBatches raw) : Framed b where
  le_length := Batch.length_of_valid hb
  length_eq := splitBatches.length_of_mem_go h

theorem admitted_iff_framed (hb : validRecordBatch b) (hbs : ∀ b ∈ bs, validRecordBatch b) :
    ((∀ rest, (splitBatches (b ++ rest)).head? = some b ∧
        decodeRecordBatches (b ++ rest) = do
          let rs ← decodeOneBatch b
          let rs' ← decodeRecordBatches rest
          return rs ++ rs') ↔ Framed b) ∧
      (splitBatches bs.flatten = bs ∧ decodeRecordBatches bs.flatten = List.flatten <$> bs.mapM decodeOneBatch ↔
        ∀ b ∈ bs, Framed b) := by
  refine ⟨⟨fun h => ?_, fun hf rest => ⟨?_, decodeRecordBatches_append hf rest⟩⟩,
    ⟨fun h b hb => ?_, fun hf => ⟨splitBatches_flatten fun b hb => (hf b hb).length_eq, decodeRecordBatches_mapM hf⟩⟩⟩
  · exact framed_of_mem_splitBatches hb (List.mem_of_head? (h []).left)
  · rw [splitBatches, splitBatches.go_append hf.length_eq]
    rfl
  · exact framed_of_mem_splitBatches (hbs b hb) (h.left.symm ▸ hb)

-- A valid batch whose length field says one byte too many.
def Batch.overlong : Bytes :=
  (headerOnly (-1) 0 1).take 8 ++ putInt 32 50 ++ (headerOnly (-1) 0 1).drop 12

-- The follower takes the first byte of the next batch for the last one of this batch.
theorem overlong_not_framed :
    validRecordBatch Batch.overlong ∧ splitBatches Batch.overlong = [] ∧
      splitBatches (Batch.overlong ++ Batch.headerOnly (-1) 0 1) = [Batch.overlong ++ [0]] := by
  decide +kernel

def Batch.single : Bytes :=
  buildRecordBatch [{ key := some [107], value := [118] }]

def Batch.double : Bytes :=
  buildRecordBatch [{ key := none, value := [119, 120] }, { key := none, value := [] }]

theorem admitted_iff_framed_two :
    validRecordBatch Batch.single ∧ (splitBatches (Batch.single ++ Batch.double)).head? = some Batch.single ∧
      splitBatches [Batch.single, Batch.double].flatten = [Batch.single, Batch.double] ∧
      (decodeRecordBatches [Batch.single, Batch.double].flatten).map (·.map fun r => (r.offset, r.key, r.value)) =
        .ok [(0, some [107], some [118]), (0, none, some [119, 120]), (1, none, some [])] := by
  have hb : validRecordBatch Batch.single := by decide +kernel
  have hbs : ∀ b ∈ [Batch.single, Batch.double], validRecordBatch b := by decide +kernel
  obtain ⟨hfirst, hall⟩ := admitted_iff_framed hb hbs
  obtain ⟨hsplit, hdecode⟩ := hall.mpr (by decide +kernel)
  refine ⟨hb, (hfirst.mpr (by decide +kernel) Batch.double).left, hsplit, ?_⟩
  rw [hdecode]
  decide +kernel

end Network
