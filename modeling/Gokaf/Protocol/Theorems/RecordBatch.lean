import Gokaf.Protocol.RecordBatch

open Go

namespace Go

theorem rounds_map {m : Type → Type} [Monad m] [LawfulMonad m] {α β : Type} (f : α → β) (body : m α) (n : Nat) :
    rounds (f <$> body) n = List.map f <$> rounds body n := by
  induction n
  case zero      => simp [rounds]
  case succ n hi => simp [rounds, hi]

end Go

namespace Protocol

namespace DecodedRecord

-- The record as it reads in a batch with another base offset.
def shift (o : Int) (r : DecodedRecord) : DecodedRecord :=
  { r with offset := int64 (o + r.offset) }

end DecodedRecord

theorem decodeRecord_shift (baseOffset baseTS : Int) :
    decodeRecord baseOffset baseTS = DecodedRecord.shift baseOffset <$> decodeRecord 0 baseTS := by
  simp [decodeRecord, DecodedRecord.shift, int64, wrap_add_wrap]

-- Two batches that differ in their base offset at most.
structure SameBatch (b b' : Bytes) : Prop where
  length : b.length = b'.length
  drop   : b.drop 8 = b'.drop 8

namespace SameBatch

variable {b b' : Bytes}

theorem symm (h : SameBatch b b') : SameBatch b' b where
  length := h.length.symm
  drop   := h.drop.symm

theorem trans {b'' : Bytes} (h : SameBatch b b') (h' : SameBatch b' b'') : SameBatch b b'' where
  length := h.length.trans h'.length
  drop   := h.drop.trans h'.drop

theorem getElem? (h : SameBatch b b') {i : Nat} (hi : 8 ≤ i) : b[i]? = b'[i]? := by
  have := congrArg (·[i - 8]?) h.drop
  simpa [List.getElem?_drop, Nat.add_sub_cancel' hi] using this

theorem drop_of_le (h : SameBatch b b') {i : Nat} (hi : 8 ≤ i) : b.drop i = b'.drop i := by
  have := congrArg (·.drop (i - 8)) h.drop
  simpa [List.drop_drop, Nat.add_sub_cancel' hi] using this

theorem slice (h : SameBatch b b') {i j : Nat} (hi : 8 ≤ i) : Go.slice b i j = Go.slice b' i j := by
  rw [Go.slice, Go.slice, h.drop_of_le hi]

end SameBatch

theorem decodeRecords_shift (o baseTS n : Int) (body : Bytes) :
    StateT.run' (forRange n (decodeRecord o baseTS)) body =
      List.map (DecodedRecord.shift o) <$> StateT.run' (forRange n (decodeRecord 0 baseTS)) body := by
  rw [decodeRecord_shift, forRange, rounds_map, forRange]
  simp only [StateT.run'_eq, StateT.run_map, Functor.map_map]

-- The records of a batch are those it has at base offset zero, moved.
theorem decodeOneBatch_shift {b b' : Bytes} (h : SameBatch b b') (hz : sint 64 (slice b' 0 8) = 0) :
    decodeOneBatch b = List.map (DecodedRecord.shift (sint 64 (slice b 0 8))) <$> decodeOneBatch b' := by
  simp only [decodeOneBatch, h.length, h.getElem? (show 8 ≤ 16 by decide), h.slice (show 8 ≤ 27 by decide),
    h.slice (show 8 ≤ 57 by decide), h.drop_of_le (show 8 ≤ recordBatchHeaderLen by decide), hz]
  generalize sint 64 (slice b 0 8) = o
  generalize sint 64 (slice b' 27 35) = baseTS
  generalize sint 32 (slice b' 57 61) = n
  rw [decodeRecords_shift]
  split
  case isTrue  => rfl
  case isFalse =>
    split
    case isTrue  => rfl
    case isFalse => rw [map_bind]

theorem SameBatch.framed {b b' : Bytes} (h : SameBatch b b') (hf : Framed b') : Framed b where
  le_length := h.length ▸ hf.le_length
  length_eq := by rw [h.slice (by decide), h.length, hf.length_eq]

theorem slice_append_left {b c : Bytes} {i j : Nat} (h : j ≤ b.length) :
    slice (b ++ c) i j = slice b i j := by
  rw [slice, slice, List.drop_append, List.take_append]
  by_cases hi : i ≤ j
  · rw [List.length_drop, Nat.sub_eq_zero_of_le (show j - i ≤ b.length - i by omega)]
    simp
  · simp [Nat.sub_eq_zero_of_le (not_le.mp hi).le]

-- One round of the decoder uses up one batch.
theorem decodeRecordBatches.go_framed {b rest : Bytes} {out : List DecodedRecord} {fuel : Nat} (hb : Framed b) :
    decodeRecordBatches.go (fuel + 1) (b ++ rest) out =
      decodeOneBatch b >>= fun rs => decodeRecordBatches.go fuel rest (out ++ rs) := by
  have hle : 61 ≤ b.length := hb.le_length
  have htotal : 12 + BigEndian.uint (slice (b ++ rest) 8 12) = b.length := by
    rw [slice_append_left (by omega), hb.length_eq]
  simp only [decodeRecordBatches.go, htotal]
  rw [if_pos (by simp; omega), if_neg (by simp [recordBatchHeaderLen]; omega), List.take_left, List.drop_left]

theorem decodeRecordBatches.go_append {b rest : Bytes} {rs out : List DecodedRecord} {fuel : Nat}
    (hb : Framed b) (hd : decodeOneBatch b = .ok rs) :
    decodeRecordBatches.go (fuel + 1) (b ++ rest) out = decodeRecordBatches.go fuel rest (out ++ rs) := by
  rw [go_framed hb, hd]
  rfl

theorem decodeRecordBatches.go_out (fuel : Nat) (raw : Bytes) (out : List DecodedRecord) :
    decodeRecordBatches.go fuel raw out = (out ++ ·) <$> decodeRecordBatches.go fuel raw [] := by
  induction fuel generalizing raw out
  case zero => simp [go]
  case succ fuel hi =>
    simp only [go]
    split
    case isFalse => simp
    case isTrue =>
      split
      case isTrue => simp
      case isFalse =>
        rw [map_bind]
        congr 1
        funext rs
        rw [hi _ (out ++ rs), hi _ ([] ++ rs), Functor.map_map]
        simp

-- The fuel does not matter as long as there is enough of it.
theorem decodeRecordBatches.go_fuel {fuel fuel' : Nat} {raw : Bytes} (h : raw.length < fuel)
    (h' : raw.length < fuel') (out : List DecodedRecord) :
    decodeRecordBatches.go fuel raw out = decodeRecordBatches.go fuel' raw out := by
  induction fuel generalizing fuel' raw out
  case zero => omega
  case succ fuel hi =>
    obtain ⟨fuel', rfl⟩ : ∃ f, fuel' = f + 1 := ⟨fuel' - 1, by omega⟩
    simp only [go]
    split
    case isFalse => rfl
    case isTrue hle =>
      split
      case isTrue => rfl
      case isFalse =>
        congr 1
        funext rs
        exact hi (by rw [List.length_drop]; omega) (by rw [List.length_drop]; omega) _

-- A framed batch is decoded on its own, whatever follows.
theorem decodeRecordBatches_append {b : Bytes} (hb : Framed b) (rest : Bytes) :
    decodeRecordBatches (b ++ rest) = do
      let rs ← decodeOneBatch b
      let rs' ← decodeRecordBatches rest
      return rs ++ rs' := by
  have hle : 61 ≤ b.length := hb.le_length
  rw [decodeRecordBatches, decodeRecordBatches.go_framed hb]
  congr 1
  funext rs
  rw [decodeRecordBatches.go_out, decodeRecordBatches,
    decodeRecordBatches.go_fuel (by rw [List.length_append]; omega) (Nat.lt_succ_self rest.length)]
  rfl

-- Well-framed batches are decoded one by one, up to the first that fails.
theorem decodeRecordBatches_mapM {bs : List Bytes} (h : ∀ b ∈ bs, Framed b) :
    decodeRecordBatches bs.flatten = List.flatten <$> bs.mapM decodeOneBatch := by
  induction bs
  case nil => rfl
  case cons b bs hi =>
    have hb := h b List.mem_cons_self
    have hbs := hi fun b hb => h b (List.mem_cons_of_mem _ hb)
    rw [List.flatten_cons, decodeRecordBatches_append hb, hbs]
    simp

theorem decodeRecordBatches.go_flatten {bs : List Bytes} {rss : List (List DecodedRecord)}
    (h : List.Forall₂ (fun b rs => Framed b ∧ decodeOneBatch b = .ok rs) bs rss) {fuel : Nat}
    (hf : bs.length < fuel) (out : List DecodedRecord) :
    decodeRecordBatches.go fuel bs.flatten out = .ok (out ++ rss.flatten) := by
  induction h generalizing fuel out
  case nil =>
    obtain ⟨fuel, rfl⟩ : ∃ f, fuel = f + 1 := ⟨fuel - 1, by omega⟩
    simp [decodeRecordBatches.go]
    rfl
  case cons b rs bs rss h _ hi =>
    obtain ⟨fuel, rfl⟩ : ∃ f, fuel = f + 1 := ⟨fuel - 1, by omega⟩
    rw [List.flatten_cons, go_append h.left h.right, hi (by simpa using hf)]
    simp

-- Well-framed batches are decoded one by one.
theorem decodeRecordBatches_flatten {bs : List Bytes} {rss : List (List DecodedRecord)}
    (h : List.Forall₂ (fun b rs => Framed b ∧ decodeOneBatch b = .ok rs) bs rss) :
    decodeRecordBatches bs.flatten = .ok rss.flatten := by
  have hlen : bs.length ≤ bs.flatten.length := by
    induction h
    case nil => simp
    case cons b rs bs rss h _ hi =>
      have : 61 ≤ b.length := h.left.le_length
      simp only [List.length_cons, List.flatten_cons, List.length_append]
      omega
  simpa [decodeRecordBatches] using decodeRecordBatches.go_flatten h (Nat.lt_succ_of_le hlen) []

end Protocol
