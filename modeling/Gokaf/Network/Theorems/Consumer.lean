import Gokaf.Network.Theorems.Fetch
import Gokaf.Network.Theorems.Produce

open Go Protocol

namespace Network

-- Batches as the log stores them, one offset each.
def stampedFrom : Int → List Bytes → List Bytes
  | _, [] => []
  | o, b :: bs => Batch.withBaseOffset b o :: stampedFrom (o + 1) bs

def shiftedFrom : Int → List (List DecodedRecord) → List (List DecodedRecord)
  | _, [] => []
  | o, rs :: rss => rs.map (DecodedRecord.shift o) :: shiftedFrom (o + 1) rss

-- The offsets of the records of batches with the given sizes.
def offsetsFrom : Int → List Nat → List Int
  | _, [] => []
  | o, n :: ns => (List.range n).map (fun k : Nat => o + k) ++ offsetsFrom (o + 1) ns

section Offsets

variable {o : Int} {n : Nat} {ns : List Nat}

theorem lt_of_mem_offsetsFrom {x : Int} (h : x ∈ offsetsFrom o ns) : o ≤ x := by
  induction ns generalizing o
  case nil => simp [offsetsFrom] at h
  case cons n ns hi =>
    cases List.mem_append.mp h
    case inl h =>
      have ⟨k, _, hk⟩ := List.mem_map.mp h
      omega
    case inr h =>
      have := hi h
      omega

-- Offsets go up exactly if no batch but the last has a second record.
theorem pairwise_offsetsFrom (hpos : ∀ n ∈ ns, 1 ≤ n) :
    (offsetsFrom o ns).Pairwise (· < ·) ↔ ∀ n ∈ ns.dropLast, n = 1 := by
  induction ns generalizing o
  case nil => simp [offsetsFrom]
  case cons n ns hi =>
    have hrange : ((List.range n).map (fun k : Nat => o + k)).Pairwise (· < ·) := by
      rw [List.pairwise_map]
      exact List.pairwise_lt_range.imp (fun h => by omega)
    rw [offsetsFrom, List.pairwise_append, hi (o := o + 1) (fun n hn => hpos n (by simp [hn]))]
    cases ns
    case nil => simp [offsetsFrom, hrange]
    case cons n' ns =>
      rw [List.dropLast_cons_cons, List.forall_mem_cons]
      have h₁ := hpos n (by simp)
      have h₂ := hpos n' (by simp)
      constructor
      case mpr =>
        rintro ⟨rfl, hns⟩
        refine ⟨hrange, hns, fun x hx y hy => ?_⟩
        have := lt_of_mem_offsetsFrom hy
        simp at hx
        omega
      case mp =>
        rintro ⟨_, hns, hcross⟩
        refine ⟨?_, hns⟩
        -- The last record of the first batch comes before the first record of the second one.
        have hx : o + ((n - 1 : Nat) : Int) ∈ (List.range n).map (fun k : Nat => o + k) :=
          List.mem_map.mpr ⟨n - 1, List.mem_range.mpr (by omega), rfl⟩
        have hy : o + 1 ∈ offsetsFrom (o + 1) (n' :: ns) := by
          rw [offsetsFrom]
          refine List.mem_append_left _ (List.mem_map.mpr ⟨0, List.mem_range.mpr (by omega), by simp⟩)
        have := hcross _ hx _ hy
        omega

end Offsets

section Stamped

variable {o : Int} {batches : List Bytes} {rss : List (List DecodedRecord)}

@[simp]
theorem length_stampedFrom (o : Int) (bs : List Bytes) : (stampedFrom o bs).length = bs.length := by
  induction bs generalizing o
  case nil          => rfl
  case cons b bs hi => simp [stampedFrom, hi]

@[simp]
theorem length_shiftedFrom (o : Int) (rss : List (List DecodedRecord)) :
    (shiftedFrom o rss).length = rss.length := by
  induction rss generalizing o
  case nil            => rfl
  case cons rs rss hi => simp [shiftedFrom, hi]

theorem Carries.le_length {b : Bytes} {rs : List DecodedRecord} (h : Carries b rs) : 61 ≤ b.length := by
  have hd := h.decoded
  rw [decodeOneBatch, Batch.length_withBaseOffset] at hd
  split at hd
  case isTrue         => simp at hd
  case isFalse hshort => exact not_lt.mp hshort

theorem Batch.baseOffset_withBaseOffset {b : Bytes} (h : 8 ≤ b.length) (hl : 0 ≤ o) (hu : o < 2 ^ 63) :
    sint 64 (slice (withBaseOffset b o) 0 8) = o := by
  rw [withBaseOffset, if_pos h, slice_append_left (by simp), slice, List.drop_zero,
    List.take_of_length_le (by simp), sint_putInt _ (by decide)]
  exact wrap_of_nonneg (by decide) hl (by norm_num; omega)

-- A stored batch decodes to its records, moved to its offset.
theorem Carries.decodes {b : Bytes} {rs : List DecodedRecord} (h : Carries b rs) (hl : 0 ≤ o)
    (hu : o < 2 ^ 63) : Framed (Batch.withBaseOffset b o) ∧
      decodeOneBatch (Batch.withBaseOffset b o) = .ok (rs.map (DecodedRecord.shift o)) := by
  have hlen : 8 ≤ b.length := (show 8 ≤ 61 by decide).trans h.le_length
  have hsame := (Batch.sameBatch_withBaseOffset b o).trans (Batch.sameBatch_withBaseOffset b 0).symm
  constructor
  · refine ⟨?_, ?_⟩
    · rw [Batch.length_withBaseOffset]
      exact h.le_length
    · rw [Batch.slice_withBaseOffset (by decide), Batch.length_withBaseOffset, h.length_eq]
  · rw [decodeOneBatch_shift hsame (Batch.baseOffset_withBaseOffset hlen le_rfl (by decide)), h.decoded,
      Batch.baseOffset_withBaseOffset hlen hl hu]
    rfl

theorem decodes_stampedFrom (h : List.Forall₂ Carries batches rss) (hl : 0 ≤ o)
    (hu : o + batches.length < 2 ^ 63) :
    List.Forall₂ (fun b rs => Framed b ∧ decodeOneBatch b = .ok rs) (stampedFrom o batches)
      (shiftedFrom o rss) := by
  induction h generalizing o
  case nil => exact .nil
  case cons b rs bs rss h _ hi =>
    rw [List.length_cons] at hu
    push_cast at hu
    exact .cons (h.decodes hl (by omega)) (hi (by omega) (by omega))

theorem Carries.offsets_shift {b : Bytes} {rs : List DecodedRecord} (h : Carries b rs) (hl : 0 ≤ o)
    (hu : o + rs.length < 2 ^ 63) :
    (rs.map (DecodedRecord.shift o)).map (·.offset) = (List.range rs.length).map (fun k : Nat => o + k) := by
  have hshift : (rs.map (DecodedRecord.shift o)).map (·.offset) =
      (rs.map (·.offset)).map (fun x => int64 (o + x)) := by
    simp [DecodedRecord.shift, Function.comp_def]
  rw [hshift, h.deltas, List.map_map]
  refine List.map_congr_left fun k hk => ?_
  have := List.mem_range.mp hk
  have hk' : 0 ≤ o + (k : Int) ∧ o + (k : Int) < 2 ^ 63 := by omega
  exact wrap_of_nonneg (by decide) hk'.left hk'.right

theorem offsets_shiftedFrom (h : List.Forall₂ Carries batches rss) (hl : 0 ≤ o)
    (hu : o + rss.flatten.length < 2 ^ 63) :
    (shiftedFrom o rss).flatten.map (·.offset) = offsetsFrom o (rss.map List.length) := by
  induction h generalizing o
  case nil => rfl
  case cons b rs bs rss h hrest hi =>
    have := List.length_pos_iff.mpr h.nonempty
    simp only [List.flatten_cons, List.length_append] at hu
    push_cast at hu
    simp only [shiftedFrom, List.flatten_cons, List.map_append, List.map_cons, offsetsFrom]
    rw [h.offsets_shift hl (by omega), hi (by omega) (by omega)]

end Stamped

section Accept

variable {nodeID partitionIndex : Int} {topicName : Bytes} {l l' : Storage.Log}
variable {producers : Producer.Manager} {batches : List Bytes} {L : List Bytes}

theorem stores_accept (h : l.Stores L) (hb : ∀ b ∈ batches, b.length < 2 ^ 31)
    (hlen : L.length + batches.length < 2 ^ 63)
    (ha : accept nodeID topicName partitionIndex l producers batches = some l') :
    l'.Stores (L ++ stampedFrom L.length batches) := by
  induction batches generalizing l producers L
  case nil =>
    cases ha
    simpa [stampedFrom] using h
  case cons b bs hi =>
    have hblen : b.length < 2 ^ 31 := hb b (by simp)
    rw [List.length_cons] at hlen
    have ⟨l₁, happend, h₁⟩ := h.appendWithOffset Batch.stamp (p := b) (by omega) (by omega)
    rw [accept] at ha
    split at ha
    case h_2 => simp at ha
    case h_1 producers₁ l₂ r hp =>
      -- Whether the batch carries a producer id or not, it went through one append.
      have hl₂ : l₂ = l₁ := by
        cases produces hp with
        | appended _ _ hlog _ _ ha =>
          rw [← Except.ok.inj hlog] at ha
          exact (congrArg Prod.fst (ha.symm.trans happend))
        | plain _ _ hlog _ ha =>
          rw [← Except.ok.inj hlog] at ha
          exact (congrArg Prod.fst (ha.symm.trans happend))
      rw [hl₂] at ha
      have := hi h₁ (fun b hb' => hb b (by simp [hb'])) (by simp [Storage.listAppend]; omega) ha
      simpa [Storage.listAppend, stampedFrom, Batch.stamp] using this

end Accept

section Consume

variable {l : Storage.Log} {L : List Bytes} {rss : List (List DecodedRecord)}

-- A log of batches that decode to the given records.
structure Holds (l : Storage.Log) (L : List Bytes) (rss : List (List DecodedRecord)) : Prop where
  stores  : l.Stores L
  decodes : List.Forall₂ (fun b rs => Framed b ∧ decodeOneBatch b = .ok rs) L rss

theorem Holds.length_eq (h : Holds l L rss) : L.length = rss.length :=
  h.decodes.length_eq

theorem Holds.stored (h : Holds l L rss) : stored l = .ok rss.flatten := by
  have hall : l.readAll (fun _ => 0) (l.endOffset.toNat + 1) 0 = _ :=
    h.stores.readAll (fun _ => 0) le_rfl (by rw [h.stores.endOffset]; simp) (by omega)
  simp only [Network.stored, hall, Int.toNat_zero, List.drop_zero, joinRecordPayloads_recordsFrom]
  exact decodeRecordBatches_flatten h.decodes

-- What a consumer gets from one fetch: whole batches, at least one of them.
theorem Holds.fetch (h : Holds l L rss) {k : Nat} (hk : k < L.length) (m : Int) :
    ∃ n, 0 < n ∧ k + n ≤ L.length ∧
      decodeRecordBatches ((fetchPartition storageLog true (.ok l) none (-1) 0 k m 0).snd.snd.records.getD []) =
        .ok ((rss.drop k).take n).flatten := by
  have ⟨response, hr, hfetch⟩ := fetchPartition_answers h.stores none (-1) 0 k m 0
  have ⟨n, hrecords, hn⟩ := hr.records
  have ⟨hpos, hle⟩ := hn (by omega) (by omega)
  rw [Int.toNat_natCast] at hrecords hle
  refine ⟨n, hpos, hle, ?_⟩
  rw [hfetch, hrecords]
  exact decodeRecordBatches_flatten (List.forall₂_take _ (List.forall₂_drop k h.decodes))

-- Every batch ends at an offset not before its own, and with it if another batch follows.
def Spaced (rss : List (List DecodedRecord)) : Prop :=
  ∀ (i : Nat) rs, rss[i]? = some rs → ∃ r, rs.getLast? = some r ∧ (i : Int) ≤ r.offset ∧ r.offset + 1 < 2 ^ 63 ∧
    (i + 1 < rss.length → r.offset = i)

theorem getLast?_flatten_take_drop {k n : Nat} (hn : 0 < n) (hk : k + n ≤ rss.length) (hs : Spaced rss) :
    ∃ r, ((rss.drop k).take n).flatten.getLast? = some r ∧ (k + n : Int) ≤ r.offset + 1 ∧
      r.offset + 1 < 2 ^ 63 ∧ (k + n < rss.length → r.offset + 1 = k + n) := by
  obtain ⟨n, rfl⟩ : ∃ m, n = m + 1 := ⟨n - 1, by omega⟩
  have hlt : k + n < rss.length := by omega
  have ⟨r, hr, hle, hu, hnext⟩ := hs (k + n) rss[k + n] (List.getElem?_eq_getElem hlt)
  have htake : (rss.drop k).take (n + 1) = (rss.drop k).take n ++ [rss[k + n]] := by
    rw [List.take_add_one, List.getElem?_drop, List.getElem?_eq_getElem hlt]
    rfl
  have hlast : ((rss.drop k).take (n + 1)).flatten.getLast? = some r := by
    rw [htake, List.flatten_append, List.flatten_singleton, List.getLast?_append, hr]
    rfl
  refine ⟨r, hlast, ?_, hu, fun h => ?_⟩
  · push_cast at hle ⊢
    omega
  · have := hnext (by omega)
    push_cast at this ⊢
    omega

theorem Holds.consume (h : Holds l L rss) (hs : Spaced rss) (maxBytes : Int → Int) {o : Int} {fuel : Nat}
    (ho : 0 ≤ o) (hf : L.length < o.toNat + fuel) (hf' : 0 < fuel) :
    consume l maxBytes fuel o = .ok (rss.drop o.toNat).flatten := by
  induction fuel generalizing o
  case zero => contradiction
  case succ fuel hi =>
    have hend := h.stores.endOffset
    have hlen := h.length_eq
    rw [Network.consume, hend]
    split
    case isTrue hle => rw [List.drop_of_length_le (by omega), List.flatten_nil]
    case isFalse hlt =>
      obtain ⟨k, rfl⟩ : ∃ k : Nat, o = k := ⟨o.toNat, by omega⟩
      have ⟨n, hn, hkn, hdecode⟩ := h.fetch (k := k) (by omega) (maxBytes k)
      have ⟨r, hlast, hle, hu, hnext⟩ := getLast?_flatten_take_drop hn (hlen ▸ hkn) hs
      have hwrap : int64 (r.offset + 1) = r.offset + 1 := wrap_of_nonneg (by decide) (by omega) hu
      simp only [hdecode, hlast, hwrap]
      have hdrop : rss.drop (r.offset + 1).toNat = rss.drop (k + n) := by
        by_cases hlt' : k + n < rss.length
        · rw [hnext hlt']
          congr 1
        · rw [List.drop_of_length_le (by omega), List.drop_of_length_le (by omega)]
      rw [hi (by omega) (by omega) (by omega), hdrop, Int.toNat_natCast, ← List.drop_drop]
      simp only [← List.flatten_append, List.take_append_drop]

end Consume

section SeenOnce

variable {batches : List Bytes} {rss : List (List DecodedRecord)} {o : Int}

theorem getElem?_shiftedFrom (o : Int) (rss : List (List DecodedRecord)) (i : Nat) :
    (shiftedFrom o rss)[i]? = rss[i]?.map (List.map (DecodedRecord.shift (o + i))) := by
  induction rss generalizing o i
  case nil => simp [shiftedFrom]
  case cons rs rss hi =>
    cases i
    case zero => simp [shiftedFrom]
    case succ i =>
      simp only [shiftedFrom, List.getElem?_cons_succ, hi]
      push_cast
      rw [add_assoc, add_comm 1 (i : Int)]

theorem Carries.getLast?_shift {b : Bytes} {rs : List DecodedRecord} (h : Carries b rs) (hl : 0 ≤ o)
    (hu : o + rs.length < 2 ^ 63) :
    ∃ r, (rs.map (DecodedRecord.shift o)).getLast? = some r ∧ r.offset + 1 = o + rs.length := by
  have hpos := List.length_pos_iff.mpr h.nonempty
  have hlast := congrArg List.getLast? (h.offsets_shift hl hu)
  cases hr : (rs.map (DecodedRecord.shift o)).getLast?
  case none => simp [h.nonempty] at hr
  case some r =>
    refine ⟨r, rfl, ?_⟩
    generalize rs.map (DecodedRecord.shift o) = rs' at hr hlast
    rw [List.getLast?_map, List.getLast?_map, hr, List.getLast?_range, if_neg (by omega)] at hlast
    simp only [Option.map_some, Option.some.injEq] at hlast
    omega

theorem exists_carries_of_mem (h : List.Forall₂ Carries batches rss) : ∀ rs ∈ rss, ∃ b, Carries b rs := by
  induction h
  case nil => simp
  case cons b rs bs rss h _ hi =>
    rintro rs' (_ | ⟨_, hrs⟩)
    · exact ⟨b, h⟩
    · exact hi rs' hrs

theorem length_le_length_flatten (h : ∀ rs ∈ rss, rs ≠ []) : rss.length ≤ rss.flatten.length := by
  induction rss
  case nil => simp
  case cons rs rss hi =>
    have h₁ := List.length_pos_iff.mpr (h rs (by simp))
    have h₂ := hi (fun rs hrs => h rs (by simp [hrs]))
    simp only [List.length_cons, List.flatten_cons, List.length_append]
    omega

theorem add_length_le_length_flatten (h : ∀ rs ∈ rss, rs ≠ []) {i : Nat} {rs : List DecodedRecord}
    (hi : rss[i]? = some rs) : i + rs.length ≤ rss.flatten.length := by
  have ⟨hlt, hget⟩ := List.getElem?_eq_some_iff.mp hi
  have hle : (rss.take i).length ≤ (rss.take i).flatten.length :=
    length_le_length_flatten fun rs hrs => h rs (List.mem_of_mem_take hrs)
  have hsplit := congrArg (·.flatten.length) (List.take_append_drop (i + 1) rss)
  simp only [List.take_add_one, List.getElem?_eq_getElem hlt, hget, Option.toList_some,
    List.flatten_append, List.flatten_singleton, List.length_append] at hsplit
  rw [List.length_take, Nat.min_eq_left hlt.le] at hle
  omega

theorem spaced_shiftedFrom (h : List.Forall₂ Carries batches rss) (hlen : rss.flatten.length < 2 ^ 63)
    (hone : ∀ rs ∈ rss.dropLast, rs.length = 1) : Spaced (shiftedFrom 0 rss) := by
  intro i rs' hrs'
  rw [getElem?_shiftedFrom, zero_add] at hrs'
  have ⟨rs, hrs, heq⟩ := Option.map_eq_some_iff.mp hrs'
  have ⟨b, hb⟩ := exists_carries_of_mem h rs (List.mem_of_getElem? hrs)
  have hne : ∀ rs ∈ rss, rs ≠ [] := fun rs hrs => (exists_carries_of_mem h rs hrs).choose_spec.nonempty
  have hpos := List.length_pos_iff.mpr hb.nonempty
  have hle := add_length_le_length_flatten hne hrs
  have ⟨r, hr, hoff⟩ := hb.getLast?_shift (Int.natCast_nonneg i) (by omega)
  rw [← heq]
  refine ⟨r, hr, by omega, by omega, fun hnext => ?_⟩
  rw [length_shiftedFrom] at hnext
  have hmem : rs ∈ rss.dropLast := by
    refine List.mem_of_getElem? (i := i) ?_
    rw [List.getElem?_dropLast, if_pos (by omega), hrs]
  have := hone rs hmem
  omega

-- Batches of the given values, one record each, and how they read.
def batchOf (values : List Bytes) : Bytes :=
  buildRecordBatch (values.map (⟨none, ·⟩))

def recordsOf (values : List Bytes) : List DecodedRecord :=
  values.zipIdx.map fun (v, i) => ⟨i, none, some v, baseTimestamp⟩

-- The offsets of the records of a new log that takes the given batches.
def storedOffsets (batches : List Bytes) : Option (Except Fault (List Int)) :=
  (accept 1 [116] 0 .empty .new batches).map fun l => (stored l).map (List.map (·.offset))

theorem exists_accept_of_storedOffsets {batches : List Bytes} {os : List Int}
    (h : storedOffsets batches = some (.ok os)) :
    ∃ l, accept 1 [116] 0 .empty .new batches = some l ∧ ∀ rs, stored l = .ok rs → rs.map (·.offset) = os := by
  have ⟨l, ha, hl⟩ := Option.map_eq_some_iff.mp h
  refine ⟨l, ha, fun rs hrs => ?_⟩
  rw [hrs] at hl
  exact Except.ok.inj hl

-- The second of two batches starts at offset one, where the first one has its second record.
theorem two_pairs_not_seenOnce :
    let batch := batchOf [[97], [98]]
    let records := recordsOf [[97], [98]]
    List.Forall₂ Carries [batch, batch] [records, records] ∧
      ∃ l, accept 1 [116] 0 .empty .new [batch, batch] = some l ∧ ¬SeenOnce l := by
  intro batch records
  have hcarries : Carries batch records := by decide +kernel
  have hoffsets : storedOffsets [batch, batch] = some (.ok [0, 1, 1, 2]) := by decide +kernel
  have ⟨l, ha, hl⟩ := exists_accept_of_storedOffsets hoffsets
  refine ⟨.cons hcarries (.cons hcarries .nil), l, ha, ?_⟩
  rintro ⟨rs, hrs, hnodup, _⟩
  rw [hl rs hrs] at hnodup
  revert hnodup
  decide

-- The batches that a log takes must have a single record each, save for the last one.
theorem seenOnce_iff {nodeID partitionIndex : Int} {topicName : Bytes} {l : Storage.Log}
    {producers : Producer.Manager} (h : List.Forall₂ Carries batches rss) (hlen : rss.flatten.length < 2 ^ 63)
    (ha : accept nodeID topicName partitionIndex .empty producers batches = some l) :
    SeenOnce l ↔ ∀ rs ∈ rss.dropLast, rs.length = 1 := by
  have hne : ∀ rs ∈ rss, rs ≠ [] := fun rs hrs => (exists_carries_of_mem h rs hrs).choose_spec.nonempty
  have hcount : batches.length < 2 ^ 63 := by
    rw [h.length_eq]
    exact (length_le_length_flatten hne).trans_lt hlen
  have hshort : ∀ b ∈ batches, b.length < 2 ^ 31 := by
    clear * - h
    induction h
    case nil => simp
    case cons h _ hi => exact List.forall_mem_cons.mpr ⟨h.length_lt, hi⟩
  have hstores := stores_accept Storage.Log.empty_stores hshort (by simpa using hcount) ha
  rw [List.nil_append, List.length_nil, Nat.cast_zero] at hstores
  have hholds : Holds l _ (shiftedFrom 0 rss) :=
    ⟨hstores, decodes_stampedFrom h le_rfl (by rw [zero_add]; exact_mod_cast hcount)⟩
  have hoffsets := offsets_shiftedFrom h le_rfl (by rw [zero_add]; exact_mod_cast hlen)
  have hpos : ∀ n ∈ rss.map List.length, 1 ≤ n := by
    intro n hn
    have ⟨rs, hrs, heq⟩ := List.mem_map.mp hn
    exact heq ▸ List.length_pos_iff.mpr (hne rs hrs)
  have hiff : (∀ n ∈ (rss.map List.length).dropLast, n = 1) ↔ ∀ rs ∈ rss.dropLast, rs.length = 1 := by
    rw [← List.map_dropLast, List.forall_mem_map]
  constructor
  case mp =>
    rintro ⟨rs, hrs, _, hlt, _⟩
    cases hrs.symm.trans hholds.stored
    rw [hoffsets, pairwise_offsetsFrom hpos] at hlt
    exact hiff.mp hlt
  case mpr =>
    intro hone
    have hlt := (pairwise_offsetsFrom (o := 0) hpos).mpr (hiff.mpr hone)
    rw [← hoffsets] at hlt
    refine ⟨_, hholds.stored, hlt.imp ne_of_lt, hlt, fun maxBytes => ⟨l.endOffset.toNat + 1, ?_⟩⟩
    have hspaced := spaced_shiftedFrom h hlen hone
    rw [hholds.consume hspaced maxBytes le_rfl (by rw [hstores.endOffset]; simp) (by omega)]
    rfl

theorem seenOnce_iff_single_then_pair :
    let batches := [batchOf [[97]], batchOf [[98], [99]]]
    ∃ l, accept 1 [116] 0 .empty .new batches = some l ∧ SeenOnce l := by
  intro batches
  have hcarries₁ : Carries (batchOf [[97]]) (recordsOf [[97]]) := by decide +kernel
  have hcarries₂ : Carries (batchOf [[98], [99]]) (recordsOf [[98], [99]]) := by
    decide +kernel
  have hoffsets : storedOffsets batches = some (.ok [0, 1, 2]) := by decide +kernel
  have ⟨l, ha, _⟩ := exists_accept_of_storedOffsets hoffsets
  refine ⟨l, ha, ?_⟩
  exact (seenOnce_iff (.cons hcarries₁ (.cons hcarries₂ .nil)) (by decide) ha).mpr (by decide)

end SeenOnce

end Network
