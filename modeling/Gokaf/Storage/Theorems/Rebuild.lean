import Gokaf.Storage.Theorems.Refinement

open Go

namespace Storage

-- What a segment's index, in memory and on disk, has to do with the entries `ps` of its log file.
structure IndexAgrees (s : Segment) (ps : List Bytes) : Prop where
  log       : s.logFile = encodeEntries s.baseOffset ps
  rebuild   : rebuildIndex s.logFile s.baseOffset s.logSize = .ok (s.index, s.indexFile)
  located   : ∀ e ∈ s.index, ∃ k : Nat, k < ps.length ∧ e.relOffset = k ∧ e.position = entryPos ps k
  apart     : s.index.Pairwise fun e e' =>
    e.relOffset < e'.relOffset ∧ e.position + (indexIntervalBytes : Int) ≤ e'.position
  unwrapped : ∀ k : Nat, k < ps.length →
    int32 k = k ∧ int32 (entryPos ps k) = entryPos ps k ∧ entryPos ps k < maxSegmentBytes

-- The index that is written along with the entries `ps`.
def sparseIndex (ps : List Bytes) : List IndexEntry :=
  indexAt ps (sparseFrom 0 0 0 ps)

section Sparse

variable {ps qs : List Bytes} {p : Bytes} {k pos last : Nat}

-- The position of the last entry listed.
def lastListed (pos last : Nat) : List Bytes → Nat
  | [] => last
  | p :: ps =>
    lastListed (pos + entryHeaderSize + p.length) (if indexIntervalBytes ≤ pos - last then pos else last) ps

theorem sparseFrom_snoc (k pos last : Nat) (ps : List Bytes) (p : Bytes) :
    sparseFrom k pos last (ps ++ [p]) = sparseFrom k pos last ps ++
      if indexIntervalBytes ≤ pos + entriesSize ps - lastListed pos last ps then [k + ps.length] else [] := by
  induction ps generalizing k pos last
  case nil => simp [sparseFrom, lastListed]
  case cons q ps hi =>
    have hsize : pos + entriesSize (q :: ps) = pos + entryHeaderSize + q.length + entriesSize ps := by
      rw [entriesSize_cons]
      omega
    have hlen : k + (q :: ps).length = k + 1 + ps.length := by
      rw [List.length_cons]
      omega
    rw [List.cons_append, sparseFrom, sparseFrom, lastListed, hsize, hlen]
    split
    case isTrue  => rw [hi, List.cons_append]
    case isFalse => rw [hi]

theorem lastIndexedPosition_sparseFrom (qs ps : List Bytes) (last : Nat) :
    (lastListed (entriesSize qs) last ps : Int) =
      (indexAt (qs ++ ps) (sparseFrom qs.length (entriesSize qs) last ps)).getLast?.elim (last : Int) (·.position) := by
  induction ps generalizing qs last
  case nil => simp [lastListed, sparseFrom, indexAt]
  case cons p ps hi =>
    have hi := hi (qs ++ [p])
    simp only [List.append_assoc, List.singleton_append, List.length_append, List.length_singleton,
      entriesSize_append, entriesSize_cons, entriesSize_nil, Nat.add_zero, ← Nat.add_assoc] at hi
    rw [lastListed, sparseFrom, hi]
    split
    case isTrue =>
      rw [indexAt, indexAt, List.map_cons, List.getLast?_cons, entryPos_length_append]
      cases (List.map _ _).getLast? <;> rfl
    case isFalse => rfl

theorem lastListed_eq (ps : List Bytes) : (lastListed 0 0 ps : Int) = lastIndexedPosition (sparseIndex ps) :=
  lastIndexedPosition_sparseFrom [] ps 0

theorem lastListed_le (pos last : Nat) (ps : List Bytes) (h : last ≤ pos) :
    lastListed pos last ps ≤ pos + entriesSize ps := by
  induction ps generalizing pos last
  case nil => simpa [lastListed] using h
  case cons p ps hi =>
    rw [lastListed, entriesSize_cons]
    have := hi (pos + entryHeaderSize + p.length) (if indexIntervalBytes ≤ pos - last then pos else last)
      (by split <;> omega)
    omega

-- The choice that an append makes by the last position in memory.
theorem sparseIndex_snoc (ps : List Bytes) (p : Bytes) : sparseIndex (ps ++ [p]) = sparseIndex ps ++
    if (entriesSize ps : Int) - lastIndexedPosition (sparseIndex ps) < indexIntervalBytes then []
    else [⟨ps.length, entriesSize ps⟩] := by
  have hle := lastListed_le 0 0 ps (Nat.le_refl 0)
  have hlast := lastListed_eq ps
  have hold : indexAt (ps ++ [p]) (sparseFrom 0 0 0 ps) = sparseIndex ps :=
    indexAt_append fun k hk => by simpa using (mem_sparseFrom hk).right.le
  rw [sparseIndex, sparseFrom_snoc, indexAt, List.map_append, ← indexAt, hold, Nat.zero_add, Nat.zero_add, ← hlast]
  rw [Nat.zero_add] at hle
  congr 1
  by_cases hfar : indexIntervalBytes ≤ entriesSize ps - lastListed 0 0 ps
  case pos =>
    rw [if_pos hfar, if_neg (by omega), List.map_singleton, entryPos_length_append]
  case neg =>
    rw [if_neg hfar, if_pos (by omega), List.map_nil]

-- What is listed lies behind the last position and is spread out.
theorem sparseFrom_apart (qs ps : List Bytes) (last : Nat) :
    (∀ k ∈ sparseFrom qs.length (entriesSize qs) last ps, last + indexIntervalBytes ≤ entryPos (qs ++ ps) k) ∧
      (sparseFrom qs.length (entriesSize qs) last ps).Pairwise fun k k' =>
        entryPos (qs ++ ps) k + indexIntervalBytes ≤ entryPos (qs ++ ps) k' := by
  induction ps generalizing qs last
  case nil => simp [sparseFrom]
  case cons p ps hi =>
    have hi := hi (qs ++ [p])
    simp only [List.append_assoc, List.singleton_append, List.length_append, List.length_singleton,
      entriesSize_append, entriesSize_cons, entriesSize_nil, Nat.add_zero, ← Nat.add_assoc] at hi
    rw [sparseFrom]
    split
    case isTrue hfar =>
      obtain ⟨hafter, hpair⟩ := hi (entriesSize qs)
      rw [List.pairwise_cons, List.forall_mem_cons, entryPos_length_append]
      have hpos : 0 < indexIntervalBytes := by decide
      refine ⟨⟨by omega, fun k hk => ?_⟩, hafter, hpair⟩
      have := hafter k hk
      omega
    case isFalse => exact hi last

end Sparse

namespace Segment

variable {s : Segment} {ps : List Bytes}

theorem Holds.indexAgrees (h : s.Holds ps) (hindex : s.index = sparseIndex ps) : IndexAgrees s ps where
  log := h.log
  rebuild := by
    rw [h.indexFile, hindex, h.log, h.logSize]
    exact rebuildIndex_entries h.base_nonneg h.end_lt h.fits
  located e he := by
    rw [hindex] at he
    obtain ⟨k, hk, rfl⟩ := List.mem_map.mp he
    exact ⟨k, (indexes_sparseFrom ps).lt k hk, rfl, rfl⟩
  apart := by
    rw [hindex, sparseIndex, indexAt, List.pairwise_map]
    refine ((sparseFrom_sorted 0 0 0 ps).and (sparseFrom_apart [] ps 0).right).imp fun {k k'} hkk' => ?_
    obtain ⟨hlt, hapart⟩ := hkk'
    rw [List.nil_append] at hapart
    simp only
    omega
  unwrapped k hk := by
    have hle := h.fits.entryPos_le hk
    refine ⟨int32_of_le (by have := h.fits.length_le; omega), int32_of_le hle, ?_⟩
    obtain hone | hsize := h.fits.size
    case inl =>
      obtain rfl : k = 0 := by omega
      rw [entryPos_zero]
      decide
    case inr => exact (entryPos_lt_of_lt hk).trans_le hsize

-- An index file that lists nothing cannot be told from a missing one.
theorem Holds.loadIndex (h : s.Holds ps) :
    loadIndex s.indexFile s.logSize = .ok (if s.index = [] ∧ 0 < s.logSize then none else some s.index) := by
  obtain ⟨ks, hks⟩ := h.indexes
  rw [h.indexFile, Storage.loadIndex, length_encodeIndex]
  by_cases hnil : s.index = []
  case pos =>
    rw [hnil]
    simp only [List.length_nil, Nat.mul_zero, if_true, true_and]
    split <;> rfl
  case neg =>
    have hpos := List.length_pos_iff.mpr hnil
    have hbelow : ∀ e ∈ s.index, e.position < s.logSize := by
      intro e he
      rw [hks.eq] at he
      obtain ⟨k, hk, rfl⟩ := List.mem_map.mp he
      rw [h.logSize]
      exact Int.ofNat_lt.mpr (entryPos_lt_of_lt (hks.lt k hk))
    have hgo := loadIndex.go_encodeIndex [] ((encodeIndex s.index).length + 1) s.logSize [] (hks.fits h.fits)
      (by rw [length_encodeIndex, indexEntrySize]; omega)
    rw [if_neg (by rw [indexEntrySize]; omega), if_neg (by simp), if_neg (fun hc => hnil hc.left)]
    rw [if_pos hbelow, List.nil_append, List.nil_append, List.length_nil, length_encodeIndex] at hgo
    exact hgo

-- A clean restart gives back the segment as it was.
theorem Holds.openSegment_self (h : s.Holds ps) (hindex : s.index = sparseIndex ps) : openSegment s.files = .ok s := by
  have hrec := recoverLog_entries (Torn.nil _) h.fits.payload h.base_nonneg h.end_lt
  have hrebuild := (h.indexAgrees hindex).rebuild
  have htake : s.logFile.take s.logSize = s.logFile := List.take_of_length_le (by simp [h.log, h.logSize])
  rw [List.append_nil, ← h.log, ← h.logSize] at hrec
  simp only [openSegment, files, hrec, bind, Except.bind, Option.getD_some, h.loadIndex, htake]
  by_cases hempty : s.index = [] ∧ 0 < s.logSize
  case pos => simp only [if_pos hempty, hrebuild, ← h.lastIndexPos, ← h.healthy, pure, Except.pure]
  case neg => simp only [if_neg hempty, ← h.lastIndexPos, ← h.healthy, pure, Except.pure]

end Segment

theorem Sealed.forall₂ {ss : List Segment} {pss : List (List Bytes)} (h : Sealed ss pss) :
    List.Forall₂ Segment.Holds ss pss := by
  induction h
  case nil => exact .nil
  case snoc hs _ _ hi => exact List.rel_append hi (.cons hs .nil)

namespace Log

variable {l : Log} {pss : List (List Bytes)} {ps : List Bytes} {p : Bytes}

-- Each segment has the index that is written along with its entries.
structure Sparse (l : Log) (pss : List (List Bytes)) (ps : List Bytes) : Prop where
  holds  : l.Holds pss ps
  sealed : List.Forall₂ (fun s ps => s.index = sparseIndex ps) l.sealed pss
  active : l.active.index = sparseIndex ps

theorem Sparse.forall₂ (h : l.Sparse pss ps) :
    List.Forall₂ (fun s ps => s.Holds ps ∧ s.index = sparseIndex ps) l.segments (pss ++ [ps]) :=
  List.rel_append (.mp (fun _ _ => .intro) h.holds.sealed.forall₂ h.sealed) (.cons ⟨h.holds.active, h.active⟩ .nil)

theorem mapM_openSegment_self {ss : List Segment}
    (h : List.Forall₂ (fun s ps => s.Holds ps ∧ s.index = sparseIndex ps) ss pss) :
    (ss.map Segment.files).mapM openSegment = .ok ss := by
  induction h
  case nil => rfl
  case cons hs _ hi =>
    rw [List.map_cons, List.mapM_cons, hs.left.openSegment_self hs.right, hi]
    rfl

theorem Sparse.openFiles_close (h : l.Sparse pss ps) : openFiles l.close = .ok l := by
  have hsorted : (l.segments.map Segment.files).Pairwise (·.baseOffset < ·.baseOffset) :=
    List.pairwise_map.mpr h.holds.pairwise_segments
  have hnext : recoverNextOffset l.active = l.nextOffset := by
    rw [h.holds.active.recoverNextOffset, h.holds.base, h.holds.nextOffset]
  have hsealed := mapM_openSegment_self (.mp (fun _ _ => .intro) h.holds.sealed.forall₂ h.sealed)
  have hactive := h.holds.active.openSegment_self h.active
  rw [segments, List.map_append, List.map_singleton] at hsorted
  rw [close, dir, segments, h.holds.orphans, List.append_nil, List.map_append, List.map_singleton,
    openFiles_of_sorted hsorted hsealed hactive, hnext, ← h.holds.orphans]

-- What the roll and the index write of an append do to the indices.
theorem appendWithOffset_index (h : l.active.writeFailed = false) (stamp : Stamp) :
    let l' := (l.appendWithOffset p stamp none).fst
    if 0 < l.active.logSize ∧ maxSegmentBytes < l.active.logSize + (entryHeaderSize + p.length) then
      l'.sealed = l.segments ∧ l'.active.index = []
    else
      l'.sealed = l.sealed ∧ l'.active.index = l.active.index ++
        if l.active.logSize - l.active.lastIndexPos < indexIntervalBytes then []
        else [⟨int32 (l.nextOffset - l.active.baseOffset), int32 l.active.logSize⟩] := by
  simp only [appendWithOffset, roll]
  split
  case isTrue hfull =>
    have hnear : 0 < indexIntervalBytes := by decide
    simp [h, createSegment, Segment.maybeWriteIndex, Segment.writeEntry, hnear]
  case isFalse =>
    by_cases hnear : l.active.logSize - l.active.lastIndexPos < indexIntervalBytes
    case pos => simp [h, Segment.maybeWriteIndex, Segment.writeEntry, hnear]
    case neg => simp [h, Segment.maybeWriteIndex, Segment.writeEntry, hnear]

theorem Sparse.appendWithOffset (h : l.Sparse pss ps) (stamp : Stamp) (hp : p.length < 2 ^ 32)
    (hend : l.nextOffset + 1 < 2 ^ 63) :
    ∃ l' pss' ps', l.appendWithOffset p stamp none = (l', .ok l.nextOffset) ∧ l'.Sparse pss' ps' ∧
      pss'.flatten ++ ps' = pss.flatten ++ ps ++ [stamp.run l.nextOffset p] := by
  obtain ⟨l', pss', ps', happend, h', hflat, hplace⟩ := h.holds.appendWithOffset stamp hp hend
  have hindex := @appendWithOffset_index l p h.holds.active.healthy stamp
  simp only [happend] at hindex
  rw [h.holds.active.logSize] at hindex
  rw [place, stamp.length_run] at hplace
  refine ⟨l', pss', ps', happend, ?_, hflat⟩
  split at hindex
  case isTrue hfull =>
    rw [if_pos hfull] at hplace
    obtain ⟨rfl, rfl⟩ := Prod.mk.inj hplace
    obtain ⟨hsealed, hactive⟩ := hindex
    exact ⟨h', hsealed ▸ List.rel_append h.sealed (.cons h.active .nil), hactive⟩
  case isFalse hfull =>
    rw [if_neg hfull] at hplace
    obtain ⟨rfl, rfl⟩ := Prod.mk.inj hplace
    obtain ⟨hsealed, hactive⟩ := hindex
    refine ⟨h', hsealed ▸ h.sealed, ?_⟩
    rw [hactive, sparseIndex_snoc, h.active, h.holds.active.lastIndexPos, h.active, h.holds.nextOffset, h.holds.base,
      add_sub_cancel_left, int32_of_le h.holds.active.fits.length_le, int32_of_le (by omega)]

theorem empty_sparse : empty.Sparse [] [] :=
  ⟨empty_holds, .nil, rfl⟩

-- The log has the contents `L` and its indices are those written along with it.
def Indexed (l : Log) (L : List Bytes) : Prop :=
  ∃ pss ps, l.Sparse pss ps ∧ pss.flatten ++ ps = L

end Log

variable {loc : Location} {l : Log} {L : List Bytes} {ops : List Op}

theorem Op.exec_indexed (hloc : Ordinary loc.dir) (h : l.Indexed L) {op : Op} (hv : op.Valid)
    (hlen : (op.apply L).length < 2 ^ 63) : ∃ l' a, op.exec loc l = .ok (l', a) ∧ l'.Indexed (op.apply L) := by
  obtain ⟨pss, ps, h, rfl⟩ := h
  have hstores : l.Stores (pss.flatten ++ ps) := ⟨pss, ps, h.holds, rfl⟩
  cases op
  case append p stamp =>
    have hend : l.nextOffset = (pss.flatten ++ ps).length := hstores.endOffset
    have hnext : l.nextOffset + 1 < 2 ^ 63 := by
      rw [Op.apply, listAppend, if_neg (by decide), List.length_append, List.length_singleton] at hlen
      omega
    obtain ⟨l', pss', ps', happend, h', hflat⟩ := h.appendWithOffset stamp hv hnext
    refine ⟨l', .offset l.nextOffset, by simp [Op.exec, happend], pss', ps', h', ?_⟩
    rw [hflat, hend]
    rfl
  case read o m =>
    by_cases ho : o < 0
    case pos => exact ⟨l, .records [], by simp [Op.exec, hstores.read_neg ho], pss, ps, h, rfl⟩
    case neg =>
      obtain ⟨rs, hrs, -⟩ := hstores.read (not_lt.mp ho) m
      exact ⟨l, .records rs, by simp [Op.exec, hrs], pss, ps, h, rfl⟩
  case reopen => exact ⟨l, .opened, by simp [Op.exec, hloc.openLog_eq, h.openFiles_close], pss, ps, h, rfl⟩

theorem exec_indexed (hloc : Ordinary loc.dir) (h : l.Indexed L) (hv : ∀ op ∈ ops, op.Valid)
    (hlen : (appended L ops).length < 2 ^ 63) :
    ∃ l' as, exec loc l ops = .ok (l', as) ∧ l'.Indexed (appended L ops) := by
  induction ops generalizing l L
  case nil => exact ⟨l, [], rfl, h⟩
  case cons op ops hi =>
    have hlen' : (op.apply L).length < 2 ^ 63 := by
      rw [appended, List.foldl_cons, ← appended, length_appended] at hlen
      omega
    obtain ⟨l₁, a, hop, h₁⟩ := Op.exec_indexed hloc h (hv op List.mem_cons_self) hlen'
    obtain ⟨l₂, as, hops, h₂⟩ := hi h₁ (fun o ho => hv o (List.mem_cons_of_mem op ho)) hlen
    exact ⟨l₂, a :: as, by simp [exec, hop, hops], h₂⟩

-- After any appends and restarts each segment's index is the one that `rebuildIndex` makes of its log file.
theorem exec_indexAgrees (hloc : Ordinary loc.dir) (ops : List Op) (hv : ∀ op ∈ ops, op.Valid)
    (hlen : (appended [] ops).length < 2 ^ 63) :
    ∃ l₀ l as pss, loc.openLog [] = .ok l₀ ∧ exec loc l₀ ops = .ok (l, as) ∧ pss.flatten = appended [] ops ∧
      List.Forall₂ IndexAgrees l.segments pss := by
  obtain ⟨l, as, hexec, pss, ps, h, hflat⟩ := exec_indexed hloc ⟨[], [], Log.empty_sparse, rfl⟩ hv hlen
  refine ⟨.empty, l, as, pss ++ [ps], hloc.openLog_eq [], hexec, by simpa using hflat, ?_⟩
  exact h.forall₂.imp fun s ps hs => hs.left.indexAgrees hs.right

section Example

def page : Bytes :=
  List.replicate 4096 0

-- From the second entry on each of them is listed.
def samplePages : List Op :=
  [.append page .none, .append page .none, .append page .none, .reopen, .append page .none]

theorem exec_indexAgrees_append_reopen :
    ∃ l₀ l as pss, sampleLocation.openLog [] = .ok l₀ ∧ exec sampleLocation l₀ samplePages = .ok (l, as) ∧
      l.segments.map (·.index) = [[⟨1, 4108⟩, ⟨2, 8216⟩, ⟨3, 12324⟩]] ∧
      pss.flatten = [page, page, page, page] ∧ List.Forall₂ IndexAgrees l.segments pss := by
  have hloc : Ordinary sampleLocation.dir := by decide +kernel
  have hpage (stamp : Stamp) : (Op.append page stamp).Valid := by
    rw [Op.Valid, page, List.length_replicate]
    decide
  have hvalid : ∀ op ∈ samplePages, op.Valid := by
    simp only [samplePages, List.forall_mem_cons, hpage, true_and, List.not_mem_nil, false_imp_iff, implies_true,
      and_true]
    trivial
  have hindex : (exec sampleLocation .empty samplePages).toOption.map (·.fst.segments.map (·.index)) =
      some [[⟨1, 4108⟩, ⟨2, 8216⟩, ⟨3, 12324⟩]] := by
    decide +kernel
  obtain ⟨l₀, l, as, pss, hopen, hexec, hflat, hagrees⟩ := exec_indexAgrees hloc samplePages hvalid (by decide)
  obtain rfl : l₀ = .empty := Except.ok.inj (hopen.symm.trans (hloc.openLog_eq []))
  rw [hexec] at hindex
  exact ⟨_, l, as, pss, hopen, hexec, Option.some.inj hindex, hflat, hagrees⟩

end Example

section Oversized

variable {logFile : Bytes} {base : Int} {logSize fuel pos last : Nat} {index index' : List IndexEntry}
  {file file' header : Bytes}

-- An entry of the log file that `rebuildIndex` comes to, listed or not.
theorem rebuildIndex.go_succ (hpos : pos + entryHeaderSize ≤ logSize)
    (hread : readAt logFile pos entryHeaderSize = .ok header)
    (hend : pos + entryHeaderSize + entryLength header ≤ logSize) :
    rebuildIndex.go logFile base logSize (fuel + 1) pos last index file =
      if (indexIntervalBytes : Int) ≤ (pos : Int) - last then
        rebuildIndex.go logFile base logSize fuel (pos + entryHeaderSize + entryLength header) pos
          (index ++ [⟨int32 (entryOffset header - base), int32 pos⟩])
          (file ++ encodeIndexEntry ⟨int32 (entryOffset header - base), int32 pos⟩)
      else
        rebuildIndex.go logFile base logSize fuel (pos + entryHeaderSize + entryLength header) last index file := by
  rw [rebuildIndex.go, if_pos hpos, hread]
  simp only
  rw [if_neg (by omega)]

theorem rebuildIndex.go_isPrefix
    (h : rebuildIndex.go logFile base logSize fuel pos last index file = .ok (index', file')) : index <+: index' := by
  induction fuel generalizing pos last index file
  case zero => contradiction
  case succ fuel hi =>
    rw [rebuildIndex.go] at h
    split at h
    case isFalse =>
      cases h
      exact List.prefix_rfl
    case isTrue =>
      split at h
      case h_1 => contradiction
      case h_2 header _ =>
        simp only at h
        by_cases hend : logSize < pos + entryHeaderSize + entryLength header
        case pos =>
          rw [if_pos hend] at h
          cases h
          exact List.prefix_rfl
        case neg =>
          rw [if_neg hend] at h
          split at h
          case isTrue  => exact (List.prefix_append ..).trans (hi h)
          case isFalse => exact hi h

-- A payload whose length does not fit the header field, which says 4096, and whose bytes read as empty entries.
def oversized : Bytes :=
  List.replicate (2 ^ 32 + 4096) 0

theorem append_empty (loc : Location) (p : Bytes) : exec loc .empty [.append p .none] =
    .ok (⟨[], { createSegment [] 0 with
      logFile := encodeHeader 0 p.length ++ p
      logSize := entryHeaderSize + p.length }, [], 1⟩, [.offset 0]) := by
  have hnext : int64 1 = 1 := by decide
  have hnear : 0 < indexIntervalBytes := by decide
  simp [exec, Op.exec, Log.appendWithOffset, Log.roll, Log.empty, createSegment, Segment.maybeWriteIndex, hnear,
    Segment.writeEntry, Stamp.none, hnext]

-- The header of the first entry says `m`, which leads into the payload.
theorem rebuildIndex_zeros {n m : Nat} (hn : m + entryHeaderSize ≤ n) (hm : indexIntervalBytes ≤ m)
    (hlen : entryLength (encodeHeader 0 n) = m)
    (h : rebuildIndex (encodeHeader 0 n ++ List.replicate n 0) 0 (entryHeaderSize + n) = .ok (index, file)) :
    index ≠ [] := by
  have hsize : (encodeHeader 0 n ++ List.replicate n 0).length = entryHeaderSize + n := by
    rw [List.length_append, length_encodeHeader, List.length_replicate]
  have hfirst := readAt_append [] (encodeHeader 0 n) (List.replicate n 0)
  rw [List.nil_append, List.length_nil, length_encodeHeader] at hfirst
  have hsecond := readAt_append (encodeHeader 0 n ++ List.replicate m 0) (List.replicate entryHeaderSize 0)
    (List.replicate (n - (m + entryHeaderSize)) 0)
  rw [List.append_assoc, List.append_assoc, List.replicate_append_replicate, List.replicate_append_replicate,
    ← Nat.add_assoc, Nat.add_sub_cancel' hn, List.length_append, length_encodeHeader, List.length_replicate,
    List.length_replicate] at hsecond
  have hzero : entryLength (List.replicate entryHeaderSize 0) = 0 := by decide
  have hnext : 0 + entryHeaderSize + entryLength (encodeHeader 0 n) ≤ entryHeaderSize + n := by omega
  have hnext' : entryHeaderSize + m + entryHeaderSize + entryLength (List.replicate entryHeaderSize 0) ≤
      entryHeaderSize + n := by omega
  obtain ⟨fuel, hfuel⟩ : ∃ fuel, entryHeaderSize + n + 1 = fuel + 2 :=
    ⟨entryHeaderSize + n - 1, by rw [entryHeaderSize]; omega⟩
  rw [rebuildIndex, hsize, hfuel, rebuildIndex.go_succ (by omega) hfirst hnext, if_neg (by decide), hlen,
    Nat.zero_add, rebuildIndex.go_succ (by omega) hsecond hnext', if_pos (by omega), List.nil_append] at h
  rintro rfl
  exact List.cons_ne_nil _ _ (List.prefix_nil.mp (rebuildIndex.go_isPrefix h))

theorem oversized_not_rebuilt :
    ∃ l₀ l as, sampleLocation.openLog [] = .ok l₀ ∧ exec sampleLocation l₀ [.append oversized .none] = .ok (l, as) ∧
      l.segments = [l.active] ∧ l.active.index = [] ∧
      rebuildIndex l.active.logFile l.active.baseOffset l.active.logSize ≠
        .ok (l.active.index, l.active.indexFile) := by
  have hloc : Ordinary sampleLocation.dir := by decide +kernel
  refine ⟨_, _, _, hloc.openLog_eq [], append_empty sampleLocation oversized, rfl, rfl, fun h => ?_⟩
  rw [oversized, List.length_replicate] at h
  have hfield : entryLength (encodeHeader 0 (2 ^ 32 + 4096)) = indexIntervalBytes := by decide
  refine rebuildIndex_zeros ?_ (Nat.le_refl _) hfield h rfl
  decide

end Oversized

end Storage
