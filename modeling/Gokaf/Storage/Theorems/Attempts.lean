import Gokaf.Storage.Attempts
import Gokaf.Storage.Theorems.Damage
import Gokaf.Storage.Theorems.Layout

open Go

namespace Storage

namespace Segment

variable {s : Segment} {ps : List Bytes}

-- The segment with the index file that goes with its index.
def mended (s : Segment) : Segment :=
  { s with indexFile := encodeIndex s.index }

-- The index file is that one, or its length shows that it is torn.
def Mendable (s : Segment) : Prop :=
  s.indexFile = encodeIndex s.index ∨ s.indexFile.length % indexEntrySize ≠ 0

theorem mended_of_eq (h : s.indexFile = encodeIndex s.index) : s.mended = s := by
  rw [mended, ← h]

theorem loadIndex_torn {file : Bytes} (h : file.length % indexEntrySize ≠ 0) (logSize : Nat) :
    loadIndex file logSize = .ok none := by
  have hne : file.length ≠ 0 := fun hz => h (by rw [hz]; rfl)
  rw [loadIndex, if_neg hne, if_pos h]

-- Reopening a segment after its log file was cut to `n` bytes and its index file to `m`. A torn index file that is cut
-- could pass for a whole one.
theorem Mendable.openSegment_take (h : s.Mendable) (hs : s.mended.Holds ps) (n : Nat) {m : Nat}
    (hm : s.indexFile = encodeIndex s.index ∨ s.indexFile.length ≤ m) :
    ∃ s', openSegment ⟨s.baseOffset, s.logFile.take n, some (s.indexFile.take m)⟩ = .ok s' ∧
      s'.baseOffset = s.baseOffset ∧ s'.Holds (intact n ps) := by
  by_cases hindex : s.indexFile = encodeIndex s.index
  case pos =>
    rw [mended_of_eq hindex] at hs
    exact hs.openSegment_take n m
  case neg =>
    obtain ⟨lost, hlost⟩ := intact_isPrefix n ps
    obtain ⟨tail, htake, htail⟩ := take_encodeEntries s.baseOffset n hs.fits.payload
    have hlog : s.logFile = encodeEntries s.baseOffset ps := hs.log
    have hlen : (intact n ps).length ≤ ps.length := (intact_isPrefix n ps).length_le
    have hbase : 0 ≤ s.baseOffset := hs.base_nonneg
    have hend : s.baseOffset + (intact n ps).length < 2 ^ 63 := by
      have : s.baseOffset + ps.length < 2 ^ 63 := hs.end_lt
      omega
    have hfits : Fits (intact n ps) := (hlost.symm ▸ hs.fits : Fits (intact n ps ++ lost)).of_append
    have hwhole : (encodeEntries s.baseOffset (intact n ps) ++ tail).take (entriesSize (intact n ps)) =
        encodeEntries s.baseOffset (intact n ps) := by
      rw [List.take_append_of_le_length (by simp), List.take_of_length_le (by simp)]
    rw [List.take_of_length_le (hm.resolve_left hindex), hlog, htake]
    simp only [openSegment, recoverLog_entries htail hfits.payload hbase hend, hwhole, Option.getD_some,
      loadIndex_torn (h.resolve_left hindex), rebuildIndex_entries hbase hend hfits, bind, Except.bind, pure,
        Except.pure]
    exact ⟨_, rfl, rfl, rfl, rfl, rfl, hfits, ⟨_, indexes_sparseFrom _⟩, rfl, rfl, hbase, hend⟩

theorem Mendable.openSegment_files (h : s.Mendable) (hs : s.mended.Holds ps) :
    ∃ s', openSegment s.files = .ok s' ∧ s'.baseOffset = s.baseOffset ∧ s'.Holds ps := by
  have hlog : s.logFile = encodeEntries s.baseOffset ps := hs.log
  have hopen := h.openSegment_take hs s.logFile.length (.inr le_rfl)
  rwa [List.take_length, List.take_length, intact_of_le (by simp [hlog])] at hopen

-- A full index entry does not change whether the index file is torn.
theorem Mendable.maybeWriteIndex (h : s.Mendable) (offset : Int) (pos : Nat) :
    ∃ s', s.maybeWriteIndex offset pos none = (s', .ok ()) ∧
      s.mended.maybeWriteIndex offset pos none = (s'.mended, .ok ()) ∧
      s'.Mendable ∧ s'.writeFailed = s.writeFailed := by
  unfold Segment.maybeWriteIndex
  by_cases hnear : s.logSize - s.lastIndexPos < indexIntervalBytes
  case pos => exact ⟨s, by rw [if_pos hnear], if_pos hnear, h, rfl⟩
  case neg =>
    rw [if_neg hnear]
    refine ⟨_, rfl, ?_, ?_, by rfl⟩
    · simp [mended, hnear, encodeIndex_append, encodeIndex_singleton]
    · obtain heq | htorn := h
      case inl => exact .inl (by simp [heq, encodeIndex_append, encodeIndex_singleton])
      case inr => exact .inr (by simpa [indexEntrySize] using htorn)

theorem maybeWriteIndex_unreached {fault : Option Fault} (offset : Int) (pos : Nat)
    (h : s.logSize - s.lastIndexPos < indexIntervalBytes ∨ ∀ n, fault ≠ some (.writeIndex n)) :
    s.maybeWriteIndex offset pos fault = s.maybeWriteIndex offset pos none := by
  unfold Segment.maybeWriteIndex
  split
  case isTrue       => rfl
  case isFalse hdue =>
    have hfault := h.resolve_left hdue
    split
    case h_1 n => exact absurd rfl (hfault n)
    case h_2   => rfl

theorem writeEntry_unreached {fault : Option Fault} (bytes : Bytes) (h : ∀ n, fault ≠ some (.writeLog n)) :
    s.writeEntry bytes fault = s.writeEntry bytes none := by
  unfold Segment.writeEntry
  split
  case isTrue  => rfl
  case isFalse =>
    split
    case h_1 n => exact absurd rfl (h n)
    case h_2   => rfl

end Segment

theorem Sealed.exists_holds {ss : List Segment} {pss : List (List Bytes)} (h : Sealed ss pss) :
    ∀ s ∈ ss, ∃ ps, s.Holds ps := by
  induction h
  case nil => simp
  case snoc hs _ _ hi =>
    intro t ht
    obtain ht | ht := List.mem_append.mp ht
    case inl => exact hi t ht
    case inr => exact ⟨_, List.mem_singleton.mp ht ▸ hs⟩

theorem Sealed.baseOffset_eq {ss ss' : List Segment} {pss : List (List Bytes)} (h : Sealed ss pss)
    (h' : Sealed ss' pss) : ss.map (·.baseOffset) = ss'.map (·.baseOffset) := by
  have hfiles := congrArg (List.map Prod.fst) (h.logFiles_eq h')
  rwa [List.map_map, List.map_map] at hfiles

theorem Sealed.mapM_mended {ss : List Segment} {pss : List (List Bytes)} (h : Sealed (ss.map Segment.mended) pss)
    (hm : ∀ s ∈ ss, s.Mendable) : ∃ ss', (ss.map Segment.files).mapM openSegment = .ok ss' ∧ Sealed ss' pss := by
  generalize hmap : ss.map Segment.mended = ts at h
  induction h generalizing ss
  case nil =>
    rw [List.map_eq_nil_iff.mp hmap]
    exact ⟨[], rfl, .nil⟩
  case snoc hs hb hne hi =>
    obtain ⟨ss₁, ss₂, rfl, rfl, hlast⟩ := List.map_eq_append_iff.mp hmap
    obtain ⟨s, rfl, rfl⟩ := List.map_eq_singleton_iff.mp hlast
    obtain ⟨ss', hss', hsealed⟩ := hi (fun s hs => hm s (List.mem_append_left _ hs)) rfl
    obtain ⟨s', hs', hbase, hholds⟩ := (hm s (by simp)).openSegment_files hs
    refine ⟨ss' ++ [s'], ?_, hsealed.snoc hholds (hbase.trans hb) hne⟩
    simp [hss', hs', bind, Except.bind, pure, Except.pure]

namespace Log

variable {l l' : Log} {pss : List (List Bytes)} {ps : List Bytes} {p : Bytes} {entrySize : Nat}

def mended (l : Log) : Log where
  sealed     := l.sealed.map Segment.mended
  active     := l.active.mended
  orphans    := []
  nextOffset := l.nextOffset

theorem segments_mended (l : Log) : l.mended.segments = l.segments.map Segment.mended := by
  simp [segments, mended]

theorem boundaries_mended (l : Log) : l.mended.boundaries = l.boundaries := by
  rw [boundaries, segments_mended, List.map_map]
  rfl

-- Neither index files nor orphans matter to a read.
theorem read_mended (l : Log) (o m : Int) : l.mended.read o m = l.read o m := by
  have hseg : l.mended.segmentForOffset o = (l.segmentForOffset o).map Segment.mended := by
    have hget (i : Nat) : l.mended.segments[i]? = l.segments[i]?.map Segment.mended := by
      rw [segments_mended, List.getElem?_map]
    have hlater (i : Nat) : l.mended.segments[i]?.elim true (o < ·.baseOffset) =
        l.segments[i]?.elim true (o < ·.baseOffset) := by
      rw [hget]
      cases l.segments[i]? <;> rfl
    simp only [segmentForOffset, hlater, show l.mended.segments.length = l.segments.length by simp [segments_mended]]
    split
    case isTrue  => rfl
    case isFalse =>
      split
      case h_1     => rfl
      case h_2 i _ => exact hget i
  rw [Log.read, Log.read, hseg]
  cases l.segmentForOffset o <;> rfl

-- The log holds these payloads up to the index files, and a roll that failed has left at most an empty log file for
-- the segment that would come next.
structure Survives (l : Log) (pss : List (List Bytes)) (ps : List Bytes) : Prop where
  holds    : l.mended.Holds pss ps
  mendable : ∀ s ∈ l.segments, s.Mendable
  orphans  : l.orphans = [] ∨ ps ≠ [] ∧ l.orphans = [⟨l.nextOffset, [], none⟩]

theorem Holds.indexFile_eq (h : l.Holds pss ps) : ∀ s ∈ l.segments, s.indexFile = encodeIndex s.index := by
  intro s hs
  obtain hs | hs := List.mem_append.mp hs
  case inl =>
    obtain ⟨ps', hholds⟩ := h.sealed.exists_holds s hs
    exact hholds.indexFile
  case inr =>
    rw [List.mem_singleton.mp hs]
    exact h.active.indexFile

theorem Holds.mended_eq (h : l.Holds pss ps) : l.mended = l := by
  have hmended (s : Segment) (hs : s ∈ l.segments) : s.mended = s := Segment.mended_of_eq (h.indexFile_eq s hs)
  have hsealed : l.sealed.map Segment.mended = l.sealed :=
    (List.map_congr_left fun s hs => hmended s (List.mem_append_left _ hs)).trans (List.map_id _)
  rw [mended, hsealed, hmended l.active (by simp [segments]), ← h.orphans]

theorem Holds.survives (h : l.Holds pss ps) : l.Survives pss ps where
  holds := by rwa [h.mended_eq]
  mendable s hs := .inl (h.indexFile_eq s hs)
  orphans := .inl h.orphans

theorem Survives.healthy (h : l.Survives pss ps) : l.active.writeFailed = false :=
  h.holds.active.healthy

section Roll

theorem roll_of_not_full (h : ¬l.Full entrySize) (fault : Option Fault) : l.roll entrySize fault = (l, .ok ()) :=
  if_neg h

-- The new segment is empty whether there is an orphan in its place or not.
theorem Survives.createSegment_eq (h : l.Survives pss ps) :
    createSegment l.orphans l.nextOffset = createSegment [] l.nextOffset := by
  obtain hnil | ⟨-, hone⟩ := h.orphans
  case inl => rw [hnil]
  case inr => simp [hone, createSegment]

theorem Survives.filter_orphans (h : l.Survives pss ps) : l.orphans.filter (·.baseOffset ≠ l.nextOffset) = [] := by
  obtain hnil | ⟨-, hone⟩ := h.orphans
  case inl => rw [hnil, List.filter_nil]
  case inr => simp [hone]

theorem Survives.roll_of_full (h : l.Survives pss ps) (hfull : l.Full entrySize) (fault : Option Fault) :
    l.roll entrySize fault =
      if fault = some .sync ∨ fault = some .openLog then
        (l, .error .failed)
      else if fault = some .openIndex then
        ({ l with orphans := [⟨l.nextOffset, [], none⟩] }, .error .failed)
      else
        ({ l with sealed := l.segments, active := createSegment [] l.nextOffset, orphans := [] }, .ok ()) := by
  have hfull' : 0 < l.active.logSize ∧ maxSegmentBytes < l.active.logSize + entrySize := hfull
  simp only [roll, hfull', and_self, if_true, h.healthy, h.createSegment_eq, h.filter_orphans, Bool.false_eq_true,
    false_or]
  by_cases hsync : fault = some .sync
  case pos => simp [hsync]
  case neg => simp [hsync, createSegment]

-- Without a fault the log rolls as the mended one does.
theorem Survives.roll_none (h : l.Survives pss ps) (ho : l.Full entrySize ∨ l.orphans = []) :
    ∃ l', l.roll entrySize none = (l', .ok ()) ∧ l.mended.roll entrySize none = (l'.mended, .ok ()) ∧
      l'.orphans = [] ∧ (∀ s ∈ l'.segments, s.Mendable) ∧ l'.active.writeFailed = false := by
  have hiff : l.mended.Full entrySize ↔ l.Full entrySize := Iff.rfl
  by_cases hfull : l.Full entrySize
  case pos =>
    refine ⟨_, by simpa using h.roll_of_full hfull none, ?_, rfl, fun s hs => ?_, rfl⟩
    · rw [h.holds.survives.roll_of_full (hiff.mpr hfull), segments_mended]
      rfl
    · obtain hs | hs := List.mem_append.mp hs
      case inl => exact h.mendable s hs
      case inr =>
        rw [List.mem_singleton.mp hs]
        exact .inl rfl
  case neg =>
    have hroll' := roll_of_not_full (l := l.mended) (hiff.not.mpr hfull) none
    exact ⟨l, roll_of_not_full hfull none, hroll', ho.resolve_left hfull, h.mendable, h.healthy⟩

end Roll

section Append

variable {stamp : Stamp}

-- An append that does not roll has nothing to do with the orphans.
theorem appendWithOffset_orphans (h : ¬l.Full (entryHeaderSize + p.length)) (orphans : Dir) :
    { l with orphans }.appendWithOffset p stamp =
      ({ (l.appendWithOffset p stamp).fst with orphans }, (l.appendWithOffset p stamp).snd) := by
  have h' : ¬{ l with orphans }.Full (entryHeaderSize + p.length) := h
  simp only [appendWithOffset, roll_of_not_full h, roll_of_not_full h']
  split
  case h_1 => rfl
  case h_2 => split <;> rfl

theorem Survives.append_none (h : l.Survives pss ps) (hp : p.length < 2 ^ 32) (hend : l.nextOffset + 1 < 2 ^ 63)
    (ho : l.Full (entryHeaderSize + p.length) ∨ l.orphans = []) :
    ∃ l' pss' ps', l.appendWithOffset p stamp none = (l', .ok l.nextOffset) ∧ l'.Survives pss' ps' ∧
      pss'.flatten ++ ps' = pss.flatten ++ ps ++ [stamp.run l.nextOffset p] := by
  obtain ⟨l₁, hroll, hroll', horphans, hmendable, hhealthy⟩ := h.roll_none ho
  obtain ⟨s, hindex, hindex', hs, hfailed⟩ :=
    (hmendable l₁.active (by simp [segments])).maybeWriteIndex l.nextOffset l₁.active.logSize
  obtain ⟨l'', pss', ps', happend, hholds, hflat, -⟩ := h.holds.appendWithOffset stamp hp hend
  have hwrite : s.writeFailed = false := hfailed.trans hhealthy
  let q := stamp.run l.nextOffset p
  let l' : Log := { l₁ with
    active := { s with
      logFile := s.logFile ++ (encodeHeader l.nextOffset q.length ++ q)
      logSize := s.logSize + (entryHeaderSize + p.length) }
    nextOffset := int64 (l.nextOffset + 1) }
  have hmended : l'' = l'.mended := by
    have hnext : l.mended.nextOffset = l.nextOffset := rfl
    have hactive : l₁.mended.active = l₁.active.mended := rfl
    have hsize : l₁.active.mended.logSize = l₁.active.logSize := rfl
    have hwrite' : s.mended.writeFailed = false := hwrite
    simp only [appendWithOffset, hroll', hnext, hactive, hsize, hindex', Segment.writeEntry, hwrite',
      Bool.false_eq_true, if_false] at happend
    rw [← hwrite] at happend
    exact (congrArg Prod.fst happend).symm
  refine ⟨l', pss', ps', ?_, ⟨hmended ▸ hholds, fun t ht => ?_, .inl horphans⟩, hflat⟩
  · simp [appendWithOffset, hroll, hindex, Segment.writeEntry, hwrite, l', q]
  · obtain ht | ht := List.mem_append.mp ht
    case inl => exact hmendable t (List.mem_append_left _ ht)
    case inr =>
      rw [List.mem_singleton.mp ht]
      exact hs

variable {fault : Option Fault}

theorem Bears.not_writeLog (h : l.Bears entrySize fault) (n : Nat) : fault ≠ some (.writeLog n) := by
  rintro rfl
  exact h

theorem Bears.orphans (h : l.Bears entrySize fault) (hfull : ¬l.Full entrySize)
    (hindex : l.IndexDue → ∀ n, fault ≠ some (.writeIndex n)) : l.orphans = [] := by
  unfold Bears at h
  split at h
  case h_1 => contradiction
  case h_2 n =>
    have hrest := h.resolve_left hfull
    rwa [if_neg fun hdue => hindex hdue n rfl] at hrest
  case h_3 => exact h.resolve_left hfull

-- A fault that is not reached does nothing.
theorem Survives.append_unreached (h : l.Survives pss ps) (hlog : ∀ n, fault ≠ some (.writeLog n))
    (hroll : l.Full (entryHeaderSize + p.length) →
      fault ≠ some .sync ∧ fault ≠ some .openLog ∧ fault ≠ some .openIndex)
    (hindex : ¬l.Full (entryHeaderSize + p.length) → l.IndexDue → ∀ n, fault ≠ some (.writeIndex n)) :
    l.appendWithOffset p stamp fault = l.appendWithOffset p stamp none := by
  by_cases hfull : l.Full (entryHeaderSize + p.length)
  case pos =>
    obtain ⟨hsync, hopenLog, hopenIndex⟩ := hroll hfull
    have hnear : 0 < indexIntervalBytes := by decide
    simp only [appendWithOffset, h.roll_of_full hfull, hsync, hopenLog, hopenIndex, or_self, if_false, reduceCtorEq]
    rw [Segment.maybeWriteIndex_unreached _ _ (.inl (by simpa [createSegment] using hnear))]
    simp only [Segment.writeEntry_unreached _ hlog]
  case neg =>
    have hreach : l.active.logSize - l.active.lastIndexPos < indexIntervalBytes ∨ ∀ n, fault ≠ some (.writeIndex n) :=
      or_iff_not_imp_left.mpr (hindex hfull)
    simp only [appendWithOffset, roll_of_not_full hfull, Segment.maybeWriteIndex_unreached _ _ hreach,
      Segment.writeEntry_unreached _ hlog]

-- A roll that fails leaves nothing or an empty log file behind.
theorem Survives.append_of_roll (h : l.Survives pss ps) (hfull : l.Full (entryHeaderSize + p.length))
    (hfault : fault = some .sync ∨ fault = some .openLog ∨ fault = some .openIndex) :
    ∃ l', l.appendWithOffset p stamp fault = (l', .error .failed) ∧ l'.mended = l.mended ∧ l'.Survives pss ps := by
  have hroll := h.roll_of_full hfull fault
  by_cases hopenIndex : fault = some .openIndex
  case pos =>
    subst hopenIndex
    have hne : ps ≠ [] := by
      rintro rfl
      have hpos : 0 < l.active.logSize := hfull.left
      have hzero : l.active.logSize = 0 := h.holds.active.logSize
      omega
    refine ⟨{ l with orphans := [⟨l.nextOffset, [], none⟩] }, ?_, rfl, h.holds, h.mendable, .inr ⟨hne, rfl⟩⟩
    simp [appendWithOffset, hroll]
  case neg =>
    have hquiet : fault = some .sync ∨ fault = some .openLog := by
      obtain hsync | hopenLog | hindex := hfault
      case inl     => exact .inl hsync
      case inr.inl => exact .inr hopenLog
      case inr.inr => exact absurd hindex hopenIndex
    exact ⟨l, by simp only [appendWithOffset, hroll, if_pos hquiet], rfl, h⟩

-- An index write that fails leaves part of an entry behind, if anything.
theorem Survives.append_of_index (h : l.Survives pss ps) {n : Nat} (hfull : ¬l.Full (entryHeaderSize + p.length))
    (hdue : l.IndexDue) (hn : n < indexEntrySize)
    (htorn : n = 0 ∨ (l.active.indexFile.length + n) % indexEntrySize ≠ 0) :
    ∃ l', l.appendWithOffset p stamp (some (.writeIndex n)) = (l', .error .failed) ∧ l'.mended = l.mended ∧
      l'.Survives pss ps := by
  let entry : IndexEntry := ⟨int32 (l.nextOffset - l.active.baseOffset), int32 l.active.logSize⟩
  let active : Segment := { l.active with indexFile := l.active.indexFile ++ (encodeIndexEntry entry).take n }
  have hactive : active.Mendable := by
    obtain rfl | htorn := htorn
    case inl =>
      have := h.mendable l.active (by simp [segments])
      simpa [Segment.Mendable, active] using this
    case inr =>
      refine .inr ?_
      rwa [List.length_append, List.length_take, length_encodeIndexEntry, Nat.min_eq_left hn.le]
  refine ⟨{ l with active }, ?_, rfl, h.holds, fun s hs => ?_, h.orphans⟩
  · have hdue' : ¬l.active.logSize - l.active.lastIndexPos < indexIntervalBytes := hdue
    simp only [appendWithOffset, roll_of_not_full hfull, Segment.maybeWriteIndex, if_neg hdue']
    rfl
  · obtain hs | hs := List.mem_append.mp hs
    case inl => exact h.mendable s (List.mem_append_left _ hs)
    case inr =>
      rw [List.mem_singleton.mp hs]
      exact hactive

-- An append either adds its record or leaves the log as it was.
theorem Survives.appendWithOffset (h : l.Survives pss ps) (stamp : Stamp) (hp : p.length < 2 ^ 32)
    (hend : l.nextOffset + 1 < 2 ^ 63) (hf : l.Bears (entryHeaderSize + p.length) fault) :
    (∃ l' pss' ps', l.appendWithOffset p stamp fault = (l', .ok l.nextOffset) ∧ l'.Survives pss' ps' ∧
        pss'.flatten ++ ps' = pss.flatten ++ ps ++ [stamp.run l.nextOffset p]) ∨
      fault ≠ none ∧ ∃ l', l.appendWithOffset p stamp fault = (l', .error .failed) ∧ l'.mended = l.mended ∧
        l'.Survives pss ps := by
  by_cases hroll : l.Full (entryHeaderSize + p.length) ∧
      (fault = some .sync ∨ fault = some .openLog ∨ fault = some .openIndex)
  case pos =>
    refine .inr ⟨?_, h.append_of_roll hroll.left hroll.right⟩
    rintro rfl
    simp at hroll
  case neg =>
    by_cases hindex : ¬l.Full (entryHeaderSize + p.length) ∧ l.IndexDue ∧ ∃ n, fault = some (.writeIndex n)
    case pos =>
      obtain ⟨hfull, hdue, n, rfl⟩ := hindex
      have hn := hf.resolve_left hfull
      rw [if_pos hdue] at hn
      exact .inr ⟨Option.some_ne_none _, h.append_of_index hfull hdue hn.left hn.right⟩
    case neg =>
      have hunreached : l.appendWithOffset p stamp fault = l.appendWithOffset p stamp none :=
        h.append_unreached hf.not_writeLog (fun hfull => by simpa [hfull] using hroll)
          fun hfull hdue => by simpa [hfull, hdue] using hindex
      rw [hunreached]
      refine .inl (h.append_none hp hend ?_)
      by_cases hfull : l.Full (entryHeaderSize + p.length)
      case pos => exact .inl hfull
      case neg => exact .inr (hf.orphans hfull fun hdue n hn => hindex ⟨hfull, hdue, n, hn⟩)

end Append

section Reopen

theorem Holds.boundaries_eq (h : l.Holds pss ps) (h' : l'.Holds pss ps) : l.boundaries = l'.boundaries := by
  have hbase : l.active.baseOffset = l'.active.baseOffset := h.base.trans h'.base.symm
  have hnext : l.nextOffset = l'.nextOffset := h.nextOffset.trans h'.nextOffset.symm
  simp only [boundaries, segments, List.map_append, List.map_singleton, h.sealed.baseOffset_eq h'.sealed, hbase, hnext]

-- An empty segment at the end of a log is no further boundary.
theorem Holds.mem_boundaries_snoc (h : l.Holds pss ps) (h' : l'.Holds (pss ++ [ps]) []) (b : Int) :
    b ∈ l'.boundaries ↔ b ∈ l.boundaries := by
  obtain ⟨ts, s, hts, hsealed, -, hs⟩ := h'.sealed.eq_snoc
  have hbase : l'.active.baseOffset = l.nextOffset := by
    rw [h'.base, h.nextOffset]
    simp
  have hnext : l'.nextOffset = l.nextOffset := by
    rw [h'.nextOffset, h.nextOffset]
    simp
  simp only [boundaries, segments, hts, List.map_append, List.map_singleton, hsealed.baseOffset_eq h.sealed,
    hs.trans h.base.symm, hbase, hnext, List.mem_append, List.mem_singleton, or_self, or_assoc]

theorem openSegment_orphan (baseOffset : Int) :
    openSegment ⟨baseOffset, [], none⟩ = .ok (createSegment [] baseOffset) :=
  rfl

-- A clean restart keeps the contents and the ends of the segments. The orphan becomes the active segment.
theorem Survives.openFiles_close (h : l.Survives pss ps) :
    ∃ l' pss' ps', openFiles l.close = .ok l' ∧ l'.Holds pss' ps' ∧ pss'.flatten ++ ps' = pss.flatten ++ ps ∧
      ∀ b, b ∈ l'.boundaries ↔ b ∈ l.boundaries := by
  obtain ⟨ss, hss, hsealed⟩ := h.holds.sealed.mapM_mended fun s hs => h.mendable s (List.mem_append_left _ hs)
  obtain ⟨s, hs, hbase, hholds⟩ := (h.mendable l.active (by simp [segments])).openSegment_files h.holds.active
  have hbase : s.baseOffset = (pss.flatten.length : Int) := hbase.trans h.holds.base
  obtain hnil | ⟨hne, hone⟩ := h.orphans
  case inl =>
    obtain ⟨l', hopen, h'⟩ := openFiles_snoc hss hs hsealed hholds hbase
    refine ⟨l', pss, ps, ?_, h', rfl, fun b => ?_⟩
    · rwa [close, dir, segments, hnil, List.append_nil, List.map_append, List.map_singleton]
    · rw [h'.boundaries_eq h.holds, boundaries_mended]
  case inr =>
    have hall : (l.segments.map Segment.files).mapM openSegment = .ok (ss ++ [s]) := by
      simp [segments, hss, hs, bind, Except.bind, pure, Except.pure]
    have hlast : l.nextOffset = ((pss ++ [ps]).flatten.length : Int) := by
      rw [List.flatten_append, List.flatten_singleton, List.length_append, Nat.cast_add]
      exact h.holds.nextOffset
    have hnew := Segment.createSegment_holds h.holds.nextOffset_nonneg h.holds.nextOffset_lt
    obtain ⟨l', hopen, h'⟩ :=
      openFiles_snoc hall (openSegment_orphan l.nextOffset) (hsealed.snoc hholds hbase hne) hnew hlast
    refine ⟨l', pss ++ [ps], [], ?_, h', by simp, fun b => ?_⟩
    · rwa [close, dir, hone]
    · rw [h.holds.mem_boundaries_snoc h', boundaries_mended]

-- The segments after a crash that cut the last but one of them. The last one has no records.
theorem Sealed.chain_orphan {ss : List Segment} {s : Segment} {qs : List Bytes} {lost : Nat} {next : Int}
    (hsealed : Sealed ss pss) (hs : s.Holds qs) (hbase : s.baseOffset = pss.flatten.length)
    (hnext : next = pss.flatten.length + qs.length + lost) (hpos : 0 < qs.length + lost) (hlt : next < 2 ^ 63) :
    Chain 0 (ss ++ [s] ++ [createSegment [] next]) (pss.map (·, 0) ++ [(qs, lost), ([], 0)]) := by
  have hnew : (createSegment [] next).Holds [] := Segment.createSegment_holds (by omega) hlt
  rw [List.append_assoc]
  refine hsealed.append_chain hbase (.cons hs rfl (fun _ => hpos) (.cons hnew ?_ (by simp) .nil))
  rw [hbase]
  exact hnext

theorem Sealed.shows_orphan {ss : List Segment} {s : Segment} {qs : List Bytes} {lost : Nat} {next : Int}
    (hsealed : Sealed ss pss) (hs : s.Holds qs) (hbase : s.baseOffset = pss.flatten.length)
    (hnext : next = pss.flatten.length + qs.length + lost) (hpos : 0 < qs.length + lost) (hlt : next < 2 ^ 63) :
    Shows ⟨ss ++ [s], createSegment [] next, [], next⟩ (pss.flatten ++ qs) := by
  have hunbroken : Chain.Unbroken (pss.map (·, 0) ++ [(qs, lost), ([], 0)]) := by
    refine List.pairwise_append.mpr ⟨List.pairwise_map.mpr (List.pairwise_of_forall fun _ _ _ => rfl), by simp, ?_⟩
    intro d hd _ _ _
    obtain ⟨_, -, rfl⟩ := List.mem_map.mp hd
    rfl
  have hnew : (createSegment [] next).Holds [] := Segment.createSegment_holds (by omega) hlt
  refine Chain.shows (Sealed.chain_orphan hsealed hs hbase hnext hpos hlt) hunbroken ?_ ?_ ?_
  · rw [records, segments, List.flatMap_append, List.flatMap_append, List.flatMap_singleton, List.flatMap_singleton,
      hsealed.records, hs.records, hnew.records, hbase, recordsFrom_append, Int.zero_add]
    exact List.append_nil _
  · rw [List.length_append]
    omega
  · rw [List.length_append, Nat.cast_add]
    change _ ≤ next
    omega

-- A crash cuts the active segment. Behind the cut there is at most the orphan.
theorem Survives.openFiles_crash (h : l.Survives pss ps) (n : Nat) {m : Nat}
    (hm : l.active.indexFile = encodeIndex l.active.index ∨ l.active.indexFile.length ≤ m) :
    ∃ l', openFiles (l.crash n m) = .ok l' ∧ l'.Shows (pss.flatten ++ intact n ps) := by
  obtain ⟨ss, hss, hsealed⟩ := h.holds.sealed.mapM_mended fun s hs => h.mendable s (List.mem_append_left _ hs)
  obtain ⟨s, hs, hbase, hholds⟩ :=
    (h.mendable l.active (by simp [segments])).openSegment_take h.holds.active n hm
  have hbase : s.baseOffset = (pss.flatten.length : Int) := hbase.trans h.holds.base
  obtain hnil | ⟨hne, hone⟩ := h.orphans
  case inl =>
    obtain ⟨l', hopen, h'⟩ := openFiles_snoc hss hs hsealed hholds hbase
    exact ⟨l', by rwa [crash, hnil], Stores.shows ⟨_, _, h', rfl⟩⟩
  case inr =>
    have hlen : (intact n ps).length ≤ ps.length := (intact_isPrefix n ps).length_le
    have hpos := List.length_pos_iff.mpr hne
    have hnext : l.nextOffset = pss.flatten.length + (intact n ps).length +
        (ps.length - (intact n ps).length : Nat) := by
      have : l.nextOffset = pss.flatten.length + ps.length := h.holds.nextOffset
      omega
    have hchain := Sealed.chain_orphan hsealed hholds hbase hnext (by omega) h.holds.nextOffset_lt
    refine ⟨_, ?_, Sealed.shows_orphan hsealed hholds hbase hnext (by omega) h.holds.nextOffset_lt⟩
    rw [crash, hone, List.append_cons]
    refine hchain.openFiles ?_ (openSegment_orphan l.nextOffset)
    simp [hss, hs, bind, Except.bind, pure, Except.pure]

end Reopen

-- The log holds the records `rs` and would do so after a restart.
def Keeps (l : Log) (rs : List Record) : Prop :=
  ∃ pss ps, l.Survives pss ps ∧ rs = recordsFrom 0 (pss.flatten ++ ps)

section Keeps

variable {rs : List Record}

theorem Keeps.payloads (h : l.Keeps rs) :
    ∃ pss ps, l.Survives pss ps ∧ pss.flatten ++ ps = rs.map (·.payload) ∧ rs = recordsFrom 0 (rs.map (·.payload)) := by
  obtain ⟨pss, ps, h, rfl⟩ := h
  rw [map_payload_recordsFrom]
  exact ⟨pss, ps, h, rfl, rfl⟩

theorem Keeps.stores (h : l.Keeps rs) : l.mended.Stores (rs.map (·.payload)) := by
  obtain ⟨pss, ps, h, hflat, -⟩ := h.payloads
  exact ⟨pss, ps, h.holds, hflat⟩

theorem Keeps.mendable (h : l.Keeps rs) : l.active.Mendable := by
  obtain ⟨pss, ps, h, -⟩ := h
  exact h.mendable l.active (by simp [segments])

theorem Keeps.endOffset (h : l.Keeps rs) : l.endOffset = rs.length := by
  have := h.stores.endOffset
  rwa [List.length_map] at this

theorem Keeps.read (h : l.Keeps rs) (o m : Int) (ho : 0 ≤ o) :
    ∃ rs', l.read o m = .ok rs' ∧ l.ReadsAs (rs.map (·.payload)) o m rs' := by
  obtain ⟨rs', hread, hrs'⟩ := h.stores.read ho m
  rw [read_mended] at hread
  have hb := boundaries_mended l
  exact ⟨rs', hread, hrs'.consecutive, hrs'.empty_iff, hb ▸ hrs'.within, hb ▸ hrs'.stops, hrs'.first⟩

theorem Keeps.read_eq (h : l.Keeps rs) (h' : l'.Keeps rs) (hb : ∀ b, b ∈ l'.boundaries ↔ b ∈ l.boundaries) (o m : Int) :
    l'.read o m = l.read o m := by
  by_cases ho : 0 ≤ o
  case pos =>
    obtain ⟨rs₁, hread, hrs₁⟩ := h.read o m ho
    obtain ⟨rs₂, hread', hrs₂⟩ := h'.read o m ho
    rw [hread, hread', hrs₂.unique hrs₁ hb]
  case neg =>
    have hneg := h.stores.read_neg (not_le.mp ho) m
    have hneg' := h'.stores.read_neg (not_le.mp ho) m
    rw [← read_mended, hneg', ← read_mended, hneg]

-- An append adds its record, or it fails and changes nothing that a reader sees.
theorem Keeps.appendWithOffset (h : l.Keeps rs) {p : Bytes} (stamp : Stamp) {fault : Option Fault}
    (hp : p.length < 2 ^ 32) (hend : l.nextOffset + 1 < 2 ^ 63) (hf : l.Bears (entryHeaderSize + p.length) fault) :
    (∃ l', l.appendWithOffset p stamp fault = (l', .ok l.nextOffset) ∧
        l'.Keeps (rs ++ [⟨l.nextOffset, stamp.run l.nextOffset p⟩])) ∨
      fault ≠ none ∧ ∃ l', l.appendWithOffset p stamp fault = (l', .error .failed) ∧ l'.Keeps rs ∧
        ∀ o m, l'.read o m = l.read o m := by
  obtain ⟨pss, ps, hsurvives, rfl⟩ := h
  have hnext : l.nextOffset = 0 + ((pss.flatten ++ ps).length : Int) := by
    rw [List.length_append, Nat.cast_add, Int.zero_add]
    exact hsurvives.holds.nextOffset
  obtain ⟨l', pss', ps', happend, h', hflat⟩ | ⟨hfault, l', happend, hmended, h'⟩ :=
    hsurvives.appendWithOffset stamp hp hend hf
  case inl =>
    refine .inl ⟨l', happend, pss', ps', h', ?_⟩
    rw [hflat, recordsFrom_append 0 (pss.flatten ++ ps), ← hnext]
    rfl
  case inr =>
    refine .inr ⟨hfault, l', happend, ⟨pss, ps, h', rfl⟩, fun o m => ?_⟩
    rw [← read_mended l', hmended, read_mended]

theorem Keeps.openFiles_close (h : l.Keeps rs) :
    ∃ l', openFiles l.close = .ok l' ∧ l'.Stores (rs.map (·.payload)) ∧ l'.Keeps rs ∧
      ∀ o m, l'.read o m = l.read o m := by
  obtain ⟨pss, ps, hsurvives, hflat, hrs⟩ := h.payloads
  obtain ⟨l', pss', ps', hopen, h', hflat', hb⟩ := hsurvives.openFiles_close
  have hkeeps : l'.Keeps rs := ⟨pss', ps', h'.survives, by rw [hflat', hflat, ← hrs]⟩
  exact ⟨l', hopen, ⟨pss', ps', h', hflat'.trans hflat⟩, hkeeps, h.read_eq hkeeps hb⟩

-- What is left after a crash shows when it is read from the start.
theorem Keeps.openFiles_crash (h : l.Keeps rs) (n : Nat) {m : Nat}
    (hm : l.active.indexFile = encodeIndex l.active.index ∨ l.active.indexFile.length ≤ m) :
    ∃ l', openFiles (l.crash n m) = .ok l' ∧ l'.Shows (survivors (rs.map (·.payload)) l.active.baseOffset.toNat n) := by
  obtain ⟨pss, ps, h, hflat, -⟩ := h.payloads
  obtain ⟨l', hopen, hshows⟩ := h.openFiles_crash n hm
  have hbase : l.active.baseOffset = pss.flatten.length := h.holds.base
  refine ⟨l', hopen, ?_⟩
  rwa [← hflat, hbase, Int.toNat_natCast, survivors_eq]

theorem Keeps.intact {loc : Location} (hloc : Ordinary loc.dir) (h : l.Keeps rs) : l.Intact loc rs where
  numbered := h.payloads.choose_spec.choose_spec.right.right
  endOffset := h.endOffset
  read := h.read
  reopens := by
    obtain ⟨l', hopen, hstores, -⟩ := h.openFiles_close
    exact ⟨l', (hloc.openLog_eq _).trans hopen, hstores.refines⟩

end Keeps

end Log

namespace Attempt

variable {loc : Location} {l l' : Log} {rs : List Record} {a : Attempt} {as bs : List Attempt}

theorem step_keeps (hloc : Ordinary loc.dir) (h : l.Keeps rs) (hc : Harmless l a) :
    ∃ l' o, (machine loc).step l a = some (l', o) ∧ l'.Keeps (rs ++ stored o) ∧
      (stored o = [] → ∀ o m, l'.read o m = l.read o m) := by
  cases a
  case append p stamp fault =>
    obtain ⟨hp, hend, hf⟩ := hc
    obtain ⟨l', happend, h'⟩ | ⟨-, l', happend, h', hread⟩ := h.appendWithOffset stamp hp hend hf
    case inl =>
      refine ⟨l', [.appended (stamp.run l.nextOffset p) (.ok l.nextOffset)], by simp only [machine, happend], h', ?_⟩
      intro hnil
      contradiction
    case inr =>
      refine ⟨l', [.appended (stamp.run l.nextOffset p) (.error .failed)], by simp only [machine, happend], ?_,
        fun _ => hread⟩
      rwa [show stored _ = [] from rfl, List.append_nil]
  case read o m => exact ⟨l, _, rfl, by rwa [show stored _ = [] from rfl, List.append_nil], fun _ _ _ => rfl⟩
  case reopen =>
    obtain ⟨l', hopen, -, h', hread⟩ := h.openFiles_close
    refine ⟨l', [.opened], ?_, by rwa [show stored _ = [] from rfl, List.append_nil], fun _ => hread⟩
    simp only [machine, hloc.openLog_eq, hopen]

theorem run_keeps (hloc : Ordinary loc.dir) (h : l.Keeps rs) (hc : (machine loc).Along Harmless l as) :
    ∃ l' os, (machine loc).run l as = some (l', os) ∧ l'.Keeps (rs ++ stored os) ∧
      (stored os = [] → ∀ o m, l'.read o m = l.read o m) := by
  induction as generalizing l rs
  case nil => exact ⟨l, [], rfl, by rwa [show stored [] = [] from rfl, List.append_nil], fun _ _ _ => rfl⟩
  case cons a as hi =>
    obtain ⟨l₁, o, hs, h₁, hread₁⟩ := step_keeps hloc h hc.left
    obtain ⟨l', os, hr, h', hread'⟩ := hi h₁ (hc.right l₁ o hs)
    have hstored : stored (o ++ os) = stored o ++ stored os := List.filterMap_append
    refine ⟨l', o ++ os, Machine.run_cons_of_some hs hr, ?_, fun hnil o m => ?_⟩
    · rwa [hstored, ← List.append_assoc]
    · obtain ⟨hnil₁, hnil'⟩ := List.append_eq_nil_iff.mp (hstored ▸ hnil)
      rw [hread' hnil' o m, hread₁ hnil₁ o m]

theorem empty_keeps : Log.empty.Keeps [] :=
  ⟨[], [], Log.empty_holds.survives, rfl⟩

-- As long as failures are harmless, the log is at any time the records of the appends that succeeded, and nothing that
-- is done between two of them shows in a read.
theorem run_intact (hloc : Ordinary loc.dir) (as bs : List Attempt)
    (hc : (machine loc).Along Harmless .empty (as ++ bs)) :
    ∃ l os l' os', (machine loc).run .empty as = some (l, os) ∧ (machine loc).run l bs = some (l', os') ∧
      l.Intact loc (stored os) ∧ l'.Intact loc (stored os ++ stored os') ∧
      (stored os' = [] → l'.endOffset = l.endOffset ∧ ∀ o m, l'.read o m = l.read o m) := by
  obtain ⟨l, os, hr, h, -⟩ := run_keeps hloc empty_keeps hc.of_append
  obtain ⟨l', os', hr', h', hread⟩ := run_keeps hloc h (hc.append hr).right
  rw [List.nil_append] at h h'
  refine ⟨l, os, l', os', hr, hr', h.intact hloc, h'.intact hloc, fun hnil => ⟨?_, hread hnil⟩⟩
  rw [h'.endOffset, hnil, List.append_nil, h.endOffset]

-- An index write fails half way.
theorem run_intact_torn_index :
    let as : List Attempt := [.append (List.replicate 4096 0) .none none]
    let bs : List Attempt := [.append [7] .none (some (.writeIndex 3)), .read 0 0]
    ∃ l os l' os', (machine sampleLocation).run .empty as = some (l, os) ∧
      (machine sampleLocation).run l bs = some (l', os') ∧ l.Intact sampleLocation (stored os) ∧
      l'.Intact sampleLocation (stored os ++ stored os') ∧ l'.endOffset = l.endOffset ∧
      ∀ o m, l'.read o m = l.read o m := by
  intro as bs
  have hloc : Ordinary sampleLocation.dir := by decide +kernel
  have hc : (machine sampleLocation).Along Harmless .empty (as ++ bs) := by decide +kernel
  have hnone : (((machine sampleLocation).run .empty as).bind fun r =>
      (machine sampleLocation).run r.fst bs).map (fun r => stored r.snd) = some [] := by
    decide +kernel
  obtain ⟨l, os, l', os', hr, hr', hl, hl', hsame⟩ := run_intact hloc as bs hc
  rw [hr, Option.bind_some, hr', Option.map_some, Option.some.injEq] at hnone
  obtain ⟨hend, hread⟩ := hsame hnone
  exact ⟨l, os, l', os', hr, hr', hl, hl', hend, hread⟩

section Shadowed

-- A log with one record, and what is left of it and its directory after a roll that could not open the index file.
def single : Log :=
  (Log.empty.append [7]).fst

def halfRolled : Log :=
  { single with orphans := [⟨1, [], none⟩] }

def shadowed : Log :=
  (halfRolled.append [8]).fst

def reopened : Log where
  sealed     := [shadowed.active]
  active     := createSegment [] 1
  orphans    := []
  nextOffset := 1

theorem append_halfRolled {p : Bytes} (hp : p.length = maxSegmentBytes) :
    single.appendWithOffset p .none (some .openIndex) = (halfRolled, .error .failed) := by
  have hfull : 0 < single.active.logSize ∧ maxSegmentBytes < single.active.logSize + (entryHeaderSize + p.length) := by
    rw [hp]
    decide
  rw [Log.appendWithOffset, Log.roll, if_pos hfull]
  rfl

-- The append that follows is small enough for the old segment. Its record lies behind the empty segment when the log
-- is opened.
theorem run_shadowed {p : Bytes} (hp : p.length = maxSegmentBytes) :
    (machine sampleLocation).run .empty [.append [7] .none none, .append p .none (some .openIndex),
      .append [8] .none none] =
      some (shadowed, [.appended [7] (.ok 0), .appended p (.error .failed), .appended [8] (.ok 1)]) := by
  have hfirst : (machine sampleLocation).step .empty (.append [7] .none none) =
      some (single, [.appended [7] (.ok 0)]) := rfl
  have hsecond : (machine sampleLocation).step single (.append p .none (some .openIndex)) =
      some (halfRolled, [.appended p (.error .failed)]) := by
    simp only [machine, append_halfRolled hp]
    rfl
  have hthird : (machine sampleLocation).step halfRolled (.append [8] .none none) =
      some (shadowed, [.appended [8] (.ok 1)]) := rfl
  exact Machine.run_cons_of_some hfirst (Machine.run_cons_of_some hsecond
    (Machine.run_cons_of_some hthird Machine.run_nil))

theorem openLog_shadowed : sampleLocation.openLog shadowed.close = .ok reopened := by decide +kernel

theorem shadowed_not_intact :
    ∃ l os l', (machine sampleLocation).run .empty [.append [7] .none none,
        .append (List.replicate maxSegmentBytes 0) .none (some .openIndex), .append [8] .none none] = some (l, os) ∧
      stored os = [⟨0, [7]⟩, ⟨1, [8]⟩] ∧ sampleLocation.openLog l.close = .ok l' ∧ l'.endOffset = 1 ∧
      l'.read 1 0 = .ok [] ∧ ¬l.Intact sampleLocation (stored os) := by
  have hr := run_shadowed (List.length_replicate (n := maxSegmentBytes) (a := 0))
  generalize List.replicate maxSegmentBytes 0 = p at hr ⊢
  refine ⟨shadowed, _, reopened, hr, rfl, openLog_shadowed, rfl, by decide +kernel, fun h => ?_⟩
  obtain ⟨l', hopen, href⟩ := h.reopens
  have hend : reopened.endOffset = 2 := by
    rw [Except.ok.inj (openLog_shadowed.symm.trans hopen)]
    exact href.endOffset
  exact absurd hend (by decide)

end Shadowed

end Attempt
end Storage
