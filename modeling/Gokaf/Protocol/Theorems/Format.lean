import Gokaf.Protocol.Format
import Gokaf.Protocol.Theorems.RecordBatch
import Gokaf.Protocol.Theorems.Varint

open Go

namespace Protocol

theorem one_le_length_writeVarint (x : Int) : 1 ≤ (writeVarint x).length := by
  simp only [writeVarint, writeUnsignedVarint, maxVarintBytes, writeUnsignedVarint.go]
  split <;> simp

theorem isInt32_natCast {n : Nat} (h : n < 2 ^ 31) : IsInt32 n :=
  ⟨by omega, by omega⟩

namespace Format

variable {r : Record} {b : Batch} {baseOffset baseTimestamp : Int}

theorem reads_readVarintBytes {o : Option Bytes} (h : ∀ bs ∈ o, bs.length < 2 ^ 31) :
    Reads readVarintBytes (encodeNullable o) o := by
  intro rest
  cases o
  case none =>
    rw [readVarintBytes, encodeNullable, (reads_readVarint (by decide)).run_bind, if_pos (by decide)]
    rfl
  case some bs =>
    rw [readVarintBytes, encodeNullable, List.append_assoc,
      (reads_readVarint (isInt32_natCast (h bs rfl))).run_bind, if_neg (by omega), Int.toNat_natCast]
    exact (reads_readFull bs).bind_pure some rest

theorem length_le_encodeNullable {o : Option Bytes} {bs : Bytes} (h : bs ∈ o) :
    bs.length ≤ (encodeNullable o).length := by
  cases h
  simp [encodeNullable]

theorem one_le_length_encodeNullable (o : Option Bytes) : 1 ≤ (encodeNullable o).length := by
  cases o
  case none => exact one_le_length_writeVarint _
  case some bs =>
    have := one_le_length_writeVarint bs.length
    rw [encodeNullable, List.length_append]
    omega

theorem two_le_length_encode (h : Header) : 2 ≤ h.encode.length := by
  have hkey := one_le_length_writeVarint h.key.length
  have hvalue := one_le_length_encodeNullable h.value
  simp only [Header.encode, List.length_append]
  omega

theorem two_mul_length_le (hs : List Header) : 2 * hs.length ≤ (hs.flatMap Header.encode).length := by
  induction hs
  case nil => simp
  case cons h hs hi =>
    have := two_le_length_encode h
    simp only [List.length_cons, List.flatMap_cons, List.length_append]
    omega

namespace Record

theorem encode_eq (r : Record) :
    r.encode = writeVarint r.body.length ++ r.front ++ r.headers.flatMap Header.encode := by
  rw [encode, body, List.append_assoc]

-- The decoder gets everything right up to the headers, which it does not look at.
theorem WellFormed.reads (h : r.WellFormed) (baseOffset baseTimestamp : Int) :
    Reads (decodeRecord baseOffset baseTimestamp) (writeVarint r.body.length ++ r.front)
      (r.resolve baseOffset baseTimestamp) := by
  have hlen := h.length_lt
  have hbody : r.body.length = r.front.length + (r.headers.flatMap Header.encode).length := List.length_append
  have hfront : (encodeNullable r.key).length + (encodeNullable r.value).length ≤ r.front.length := by
    simp only [front, List.length_append]
    omega
  have hheaders := two_mul_length_le r.headers
  have hkey : ∀ bs ∈ r.key, bs.length < 2 ^ 31 := by
    intro bs hbs
    have := length_le_encodeNullable hbs
    omega
  have hvalue : ∀ bs ∈ r.value, bs.length < 2 ^ 31 := by
    intro bs hbs
    have := length_le_encodeNullable hbs
    omega
  intro rest
  simp only [front, List.append_assoc]
  rw [decodeRecord, (reads_readVarint (isInt32_natCast hlen)).run_bind, (reads_readInt8 _).run_bind,
    (reads_readVarint h.timestampDelta).run_bind, (reads_readVarint h.offsetDelta).run_bind,
    (reads_readVarintBytes hkey).run_bind, (reads_readVarintBytes hvalue).run_bind,
    (reads_readVarint (isInt32_natCast (by omega))).run_bind]
  rfl

-- The base offset and the base timestamp are read from fields of 64 bits.
theorem resolve_wrap (r : Record) (baseOffset baseTimestamp : Int) :
    r.resolve (wrap 64 baseOffset) (wrap 64 baseTimestamp) = r.resolve baseOffset baseTimestamp := by
  simp only [resolve, int64, Int.add_comm _ r.offsetDelta, Int.add_comm _ r.timestampDelta, wrap_add_wrap]

end Record

theorem drop_append_right {a c : Bytes} {i : Nat} (h : a.length ≤ i) : (a ++ c).drop i = c.drop (i - a.length) := by
  rw [List.drop_append, List.drop_eq_nil_of_le h, List.nil_append]

theorem slice_append_right {a c : Bytes} {i j : Nat} (h : a.length ≤ i) :
    slice (a ++ c) i j = slice c (i - a.length) (j - a.length) := by
  rw [slice, slice, drop_append_right h]
  congr 1
  omega

theorem slice_append_self {a c : Bytes} {n : Nat} (h : a.length = n) : slice (a ++ c) 0 n = a := by
  rw [slice, List.drop_zero, Nat.sub_zero, List.take_left' h]

namespace Batch

-- Where the decoder finds the fields of a batch.
theorem slice_baseOffset (b : Batch) : slice b.encode 0 8 = putInt 64 b.baseOffset := by
  simp only [encode, List.append_assoc]
  exact slice_append_self (length_putInt ..)

theorem slice_baseTimestamp (b : Batch) : slice b.encode 27 35 = putInt 64 b.baseTimestamp := by
  simp (disch := simp) only [encode, checked, List.append_assoc, slice_append_right, length_putInt,
    BigEndian.length_put, List.length_singleton]
  exact slice_append_self (length_putInt ..)

theorem slice_recordCount (b : Batch) : slice b.encode 57 61 = putInt 32 b.records.length := by
  simp (disch := simp) only [encode, checked, List.append_assoc, slice_append_right, length_putInt,
    BigEndian.length_put, List.length_singleton]
  exact slice_append_self (length_putInt ..)

theorem getElem?_magic (b : Batch) : b.encode[16]? = some 2 := by
  simp only [encode, List.append_assoc]
  rw [List.getElem?_append_right (by simp), List.getElem?_append_right (by simp), List.getElem?_append_right (by simp)]
  simp

theorem drop_encode (b : Batch) : b.encode.drop recordBatchHeaderLen = b.records.flatMap Record.encode := by
  simp (disch := simp) only [encode, checked, List.append_assoc, recordBatchHeaderLen, drop_append_right,
    length_putInt, BigEndian.length_put, List.length_singleton]
  rfl

theorem length_encode (b : Batch) :
    b.encode.length = recordBatchHeaderLen + (b.records.flatMap Record.encode).length := by
  simp only [encode, checked, List.length_append, length_putInt, BigEndian.length_put, List.length_singleton,
    recordBatchHeaderLen]
  omega

theorem decodeOneBatch_encode (hlen : b.records.length < 2 ^ 31) :
    decodeOneBatch b.encode = StateT.run' (rounds (decodeRecord (wrap 64 b.baseOffset) (wrap 64 b.baseTimestamp))
      b.records.length) (b.records.flatMap Record.encode) := by
  have hcount : sint 32 (slice b.encode 57 61) = b.records.length := by
    rw [slice_recordCount, sint_putInt _ (by decide), wrap_of_nonneg (by decide) (by omega) (by omega)]
  have hmake : (makeSlice (b.records.length : Int) : Except Fault Unit) = .ok () := if_neg (by omega)
  rw [decodeOneBatch, if_neg (by rw [length_encode]; omega), if_neg (by rw [getElem?_magic]; simp)]
  simp only [hcount, hmake, slice_baseOffset, slice_baseTimestamp, drop_encode, forRange, Int.toNat_natCast]
  rw [sint_putInt _ (by decide), sint_putInt _ (by decide)]
  rfl

end Batch

section Rounds

variable {rs : List Record}

-- What comes behind the last record that is asked for does not matter.
theorem run_rounds (hwf : ∀ r ∈ rs, r.WellFormed) (h : ∀ r ∈ rs.dropLast, r.headers = []) :
    ∃ rest, (rounds (decodeRecord baseOffset baseTimestamp) rs.length).run (rs.flatMap Record.encode) =
      .ok (rs.map (·.resolve baseOffset baseTimestamp), rest) := by
  induction rs
  case nil => exact ⟨[], rfl⟩
  case cons r rs hi =>
    have hread := (hwf r List.mem_cons_self).reads baseOffset baseTimestamp
    rw [List.flatMap_cons, Record.encode_eq, List.append_assoc, List.length_cons, rounds, hread.run_bind]
    cases rs
    case nil => exact ⟨r.headers.flatMap Header.encode ++ [], rfl⟩
    case cons r' rs =>
      rw [List.dropLast_cons_cons] at h
      obtain ⟨rest, hrun⟩ := hi (fun r hr => hwf r (List.mem_cons_of_mem _ hr)) fun r hr =>
        h r (List.mem_cons_of_mem _ hr)
      rw [h r List.mem_cons_self, List.flatMap_nil, List.nil_append, StateT.run_bind, hrun]
      exact ⟨rest, rfl⟩

-- The least record with as many headers.
def Record.bare (r : Record) : Record where
  attributes     := 0
  timestampDelta := 0
  offsetDelta    := 0
  key            := none
  value          := none
  headers        := r.headers.map fun _ => ⟨[], none⟩

theorem encode_bare_header : Header.encode ⟨[], none⟩ = writeVarint 0 ++ writeVarint (-1) := by
  decide

theorem length_bare_headers (hs : List Header) :
    ((hs.map fun _ => (⟨[], none⟩ : Header)).flatMap Header.encode).length = 2 * hs.length := by
  have hlen : (Header.encode ⟨[], none⟩).length = 2 := by decide
  induction hs
  case nil => rfl
  case cons h hs hi =>
    rw [List.map_cons, List.flatMap_cons, List.length_append, hi, hlen, List.length_cons]
    omega

theorem Record.WellFormed.bare (h : r.WellFormed) : r.bare.WellFormed where
  timestampDelta := show IsInt32 0 by decide
  offsetDelta    := show IsInt32 0 by decide
  length_lt := by
    have hlen := h.length_lt
    have hheaders := two_mul_length_le r.headers
    have hbare := length_bare_headers r.headers
    have htimestamp := one_le_length_writeVarint r.timestampDelta
    have hoffset := one_le_length_writeVarint r.offsetDelta
    have hkey := one_le_length_encodeNullable r.key
    have hvalue := one_le_length_encodeNullable r.value
    have hzero : (writeVarint 0).length = 1 := by decide
    have hnone : (encodeNullable none).length = 1 := by decide
    simp only [body, front, List.length_append, writeInt8, length_putInt] at hlen
    simp only [Record.bare, body, front, List.length_append, writeInt8, length_putInt, hzero, hnone, hbare,
      List.length_map]
    omega

-- The decoder takes the first bytes behind the number of headers for the length and the attributes of the next
-- record, and goes on from there.
theorem decodeRecord_misled {x y : Int} {tail rest : Bytes} {d : DecodedRecord} (hx : IsInt32 x) (hy : IsInt32 y)
    (h : (decodeRecord baseOffset baseTimestamp).run
      (Header.encode ⟨[], none⟩ ++ (writeVarint x ++ (writeVarint y ++ tail))) = .ok (d, rest)) :
    d.timestamp = int64 (baseTimestamp + x) ∧ d.offset = int64 (baseOffset + y) := by
  have hbytes : Header.encode ⟨[], none⟩ = writeVarint 0 ++ writeInt8 1 := by decide
  rw [hbytes, List.append_assoc, decodeRecord, (reads_readVarint (by decide)).run_bind, (reads_readInt8 _).run_bind,
    (reads_readVarint hx).run_bind, (reads_readVarint hy).run_bind] at h
  obtain ⟨key, rest₁, -, h⟩ := run_bind_eq_ok h
  obtain ⟨value, rest₂, -, h⟩ := run_bind_eq_ok h
  obtain ⟨count, rest₃, -, h⟩ := run_bind_eq_ok h
  cases h
  exact ⟨rfl, rfl⟩

-- These are never both zero: another header is there, or the length of the next record.
theorem misleading (hs : List Header) (hr : r.WellFormed) (rest : Bytes) :
    ∃ x y tail, IsInt32 x ∧ IsInt32 y ∧ (x ≠ 0 ∨ y ≠ 0) ∧
      (hs.map fun _ => (⟨[], none⟩ : Header)).flatMap Header.encode ++ (r.bare.encode ++ rest) =
        writeVarint x ++ (writeVarint y ++ tail) := by
  cases hs
  case nil =>
    have hzero : writeInt8 0 = writeVarint 0 := by decide
    obtain ⟨tail, htail⟩ : ∃ tail, r.bare.body = writeVarint 0 ++ tail := by
      rw [Record.body, Record.front]
      simp only [Record.bare, hzero, List.append_assoc]
      exact ⟨_, rfl⟩
    have hpos : 0 < r.bare.body.length := by
      have := one_le_length_writeVarint 0
      rw [htail, List.length_append]
      omega
    refine ⟨r.bare.body.length, 0, tail ++ rest, isInt32_natCast hr.bare.length_lt, by decide, .inl (by omega), ?_⟩
    rw [List.map_nil, List.flatMap_nil, List.nil_append, Record.encode, List.append_assoc, ← List.append_assoc
      (writeVarint 0), ← htail]
  case cons h hs =>
    refine ⟨0, -1, (hs.map fun _ => (⟨[], none⟩ : Header)).flatMap Header.encode ++ (r.bare.encode ++ rest), by decide,
      by decide, .inr (by decide), ?_⟩
    rw [List.map_cons, List.flatMap_cons, encode_bare_header, List.append_assoc, List.append_assoc]

-- A record with headers that is not the last one is followed by a wrong one.
theorem rounds_misled {rest : Bytes} (hwf : ∀ r ∈ rs, r.WellFormed) (h : ∃ r ∈ rs.dropLast, r.headers ≠ []) :
    (rounds (decodeRecord baseOffset baseTimestamp) rs.length).run ((rs.map Record.bare).flatMap Record.encode) ≠
      .ok ((rs.map Record.bare).map (·.resolve baseOffset baseTimestamp), rest) := by
  induction rs
  case nil => simp at h
  case cons r rs hi =>
    cases rs
    case nil => simp at h
    case cons r' rs =>
      have hread := (hwf r List.mem_cons_self).bare.reads baseOffset baseTimestamp
      rw [List.map_cons, List.flatMap_cons, Record.encode_eq, List.append_assoc, List.length_cons, rounds,
        hread.run_bind]
      intro hrun
      obtain ⟨ds, rest', hrounds, heq⟩ := run_bind_eq_ok hrun
      cases heq
      cases hr : r.headers
      case nil =>
        rw [Record.bare, hr, List.map_nil, List.flatMap_nil, List.nil_append] at hrounds
        obtain ⟨r₀, hr₀, hne⟩ := h
        rw [List.dropLast_cons_cons] at hr₀
        cases hr₀
        case head      => exact hne hr
        case tail hr₀  => exact hi (fun r hr => hwf r (List.mem_cons_of_mem _ hr)) ⟨r₀, hr₀, hne⟩ hrounds
      case cons hd hs =>
        obtain ⟨x, y, tail, hx, hy, hne, hbytes⟩ := misleading hs (hwf r' (by simp))
          ((rs.map Record.bare).flatMap Record.encode)
        rw [Record.bare, hr, List.map_cons, List.map_cons, List.flatMap_cons, List.flatMap_cons, List.append_assoc,
          hbytes, List.length_cons, rounds] at hrounds
        obtain ⟨d, rest₁, hd, hrounds⟩ := run_bind_eq_ok hrounds
        obtain ⟨ds, rest₂, -, heq⟩ := run_bind_eq_ok hrounds
        obtain ⟨htimestamp, hoffset⟩ := decodeRecord_misled hx hy hd
        cases heq
        -- The first record of the rest should have both deltas at zero.
        have htimestamp : int64 (baseTimestamp + 0) = int64 (baseTimestamp + x) := htimestamp
        have hoffset : int64 (baseOffset + 0) = int64 (baseOffset + y) := hoffset
        obtain ⟨hxl, hxu⟩ := hx
        obtain ⟨hyl, hyu⟩ := hy
        simp only [int64, wrap] at htimestamp hoffset
        omega

end Rounds

namespace Batch

theorem map_resolve_wrap (b : Batch) :
    b.records.map (·.resolve (wrap 64 b.baseOffset) (wrap 64 b.baseTimestamp)) = b.resolve :=
  List.map_congr_left fun r _ => r.resolve_wrap _ _

theorem WellFormed.decodeOneBatch_eq (h : b.WellFormed) (hheaders : ∀ r ∈ b.records.dropLast, r.headers = []) :
    decodeOneBatch b.encode = .ok b.resolve := by
  obtain ⟨rest, hrun⟩ := run_rounds h.records hheaders
  rw [decodeOneBatch_encode h.length_lt, StateT.run'_eq, hrun, map_resolve_wrap]
  rfl

def bare (b : Batch) : Batch :=
  { b with records := b.records.map Record.bare }

theorem WellFormed.bare (h : b.WellFormed) : b.bare.WellFormed where
  uncompressed := h.uncompressed
  length_lt    := by simpa [Batch.bare] using h.length_lt
  records      := List.forall_mem_map.mpr fun r hr => (h.records r hr).bare

theorem WellFormed.decodeOneBatch_bare (h : b.WellFormed) (hheaders : ∃ r ∈ b.records.dropLast, r.headers ≠ []) :
    decodeOneBatch b.bare.encode ≠ .ok b.bare.resolve := by
  rw [decodeOneBatch_encode h.bare.length_lt, StateT.run'_eq, ← map_resolve_wrap]
  simp only [Batch.bare, List.length_map]
  cases hrun : (rounds (decodeRecord (wrap 64 b.baseOffset) (wrap 64 b.baseTimestamp)) b.records.length).run
    ((b.records.map Record.bare).flatMap Record.encode)
  case error e => exact fun heq => nomatch heq
  case ok r =>
    obtain ⟨ds, rest⟩ := r
    intro heq
    have hds : ds = _ := Except.ok.inj heq
    rw [hds] at hrun
    exact rounds_misled h.records hheaders hrun

-- Batches with the same numbers of headers are all decoded as they should exactly if no record has headers but the
-- last.
theorem decoded_iff_headers (h : b.WellFormed) :
    (∀ b' : Batch, b'.WellFormed → b'.records.map (·.headers.length) = b.records.map (·.headers.length) →
      decodeOneBatch b'.encode = .ok b'.resolve) ↔
    ∀ r ∈ b.records.dropLast, r.headers = [] := by
  constructor
  case mp =>
    intro hall
    by_contra hheaders
    push Not at hheaders
    refine h.decodeOneBatch_bare hheaders (hall b.bare h.bare ?_)
    simp [Batch.bare, Record.bare, Function.comp_def]
  case mpr =>
    intro hheaders b' h' hcount
    refine h'.decodeOneBatch_eq fun r hr => ?_
    have hcount := congrArg List.dropLast hcount
    rw [← List.map_dropLast, ← List.map_dropLast] at hcount
    have hmem : r.headers.length ∈ b.records.dropLast.map (·.headers.length) :=
      hcount ▸ List.mem_map_of_mem hr
    obtain ⟨r', hr', hlen⟩ := List.mem_map.mp hmem
    rw [hheaders r' hr'] at hlen
    exact List.eq_nil_of_length_eq_zero hlen.symm

def sample (headers : List Header) : Batch where
  baseOffset           := 0
  partitionLeaderEpoch := -1
  attributes           := 0
  lastOffsetDelta      := 1
  baseTimestamp        := 1700000000000
  maxTimestamp         := 1700000000000
  producerID           := -1
  producerEpoch        := -1
  baseSequence         := -1
  records := [
    { attributes := 0, timestampDelta := 0, offsetDelta := 0, key := some [97], value := some [98], headers },
    { attributes := 0, timestampDelta := 0, offsetDelta := 1, key := some [99], value := some [100], headers }
  ]

theorem wellFormed_sample {headers : List Header} (h : ∀ r ∈ (sample headers).records, r.body.length < 2 ^ 31) :
    (sample headers).WellFormed where
  uncompressed := rfl
  length_lt    := by simp [sample]
  records r hr := by
    refine ⟨?_, ?_, h r hr⟩
    all_goals
      simp only [sample, List.mem_cons, List.not_mem_nil, or_false] at hr
      obtain rfl | rfl := hr
      all_goals
        dsimp only
        decide

-- The header of the first record is read as the second record, which then is cut off.
theorem sample_not_decoded :
    (sample [⟨[107], some [118]⟩]).WellFormed ∧
      decodeOneBatch (sample [⟨[107], some [118]⟩]).encode = .error (.error .eof) :=
  ⟨wellFormed_sample (by decide), by decide +kernel⟩

theorem decoded_iff_headers_nil :
    (sample []).WellFormed ∧ decodeOneBatch (sample []).encode = .ok (sample []).resolve := by
  have h : (sample []).WellFormed := wellFormed_sample (by decide)
  exact ⟨h, (decoded_iff_headers h).mpr (by decide) (sample []) h rfl⟩

end Batch

end Format
end Protocol
