import Gokaf.Storage.Theorems.Index

open Go

namespace Storage

variable {ps qs : List Bytes} {p : Bytes}

theorem entryPos_length_append (ps qs : List Bytes) : entryPos (ps ++ qs) ps.length = entriesSize ps := by
  rw [entryPos_append_of_le le_rfl, entryPos_length]

-- An entry may be added to a segment that is empty or has room for it.
def Room (ps : List Bytes) (p : Bytes) : Prop :=
  ps = [] ∨ entriesSize ps + (entryHeaderSize + p.length) ≤ maxSegmentBytes

theorem Room.entriesSize_le (h : Room ps p) : entriesSize ps ≤ maxSegmentBytes := by
  rcases h with rfl | h
  case inl => exact Nat.zero_le _
  case inr => exact (Nat.le_add_right ..).trans h

theorem Fits.snoc (h : Fits ps) (hp : p.length < 2 ^ 32) (hr : Room ps p) : Fits (ps ++ [p]) where
  payload q hq := by
    rcases List.mem_append.mp hq with hq | hq
    · exact h.payload q hq
    · rwa [List.mem_singleton.mp hq]
  size := by
    rcases hr with rfl | hr
    case inl => exact .inl le_rfl
    case inr => exact .inr (by simpa using hr)

theorem Indexes.snoc {index : List IndexEntry} {ks : List Nat} (h : Indexes ps index ks) :
    Indexes (ps ++ [p]) (index ++ [⟨ps.length, entriesSize ps⟩]) (ks ++ [ps.length]) where
  sorted := by
    rw [List.pairwise_append]
    refine ⟨h.sorted, List.pairwise_singleton .., fun k hk k' hk' => ?_⟩
    rw [List.mem_singleton.mp hk']
    exact h.lt k hk
  lt k hk := by
    rcases List.mem_append.mp hk with hk | hk
    · exact (h.append [p]).lt k hk
    · simp [List.mem_singleton.mp hk]
  eq := by
    rw [(h.append [p]).eq]
    simp only [indexAt, List.map_append, List.map_cons, List.map_nil, entryPos_length_append]

namespace Segment

variable {s : Segment}

-- Between the two writes of an append the index may list the entry that is written next.
structure Indexed (s s' : Segment) (ps : List Bytes) (p : Bytes) : Prop where
  baseOffset   : s'.baseOffset = s.baseOffset
  logFile      : s'.logFile = s.logFile
  healthy      : s'.writeFailed = s.writeFailed
  logSize      : s'.logSize = s.logSize
  indexes      : ∃ ks, Indexes (ps ++ [p]) s'.index ks
  indexFile    : s'.indexFile = encodeIndex s'.index
  lastIndexPos : s'.lastIndexPos = lastIndexedPosition s'.index

theorem Holds.maybeWriteIndex (h : s.Holds ps) (hr : Room ps p) :
    ∃ s', s.maybeWriteIndex (s.baseOffset + ps.length) s.logSize none = (s', .ok ()) ∧
      s.Indexed s' ps p := by
  obtain ⟨ks, hks⟩ := h.indexes
  unfold Segment.maybeWriteIndex
  split
  case isTrue =>
    exact ⟨s, rfl, rfl, rfl, rfl, rfl, ⟨ks, hks.append [p]⟩, h.indexFile, h.lastIndexPos⟩
  case isFalse =>
    have hrel : int32 (s.baseOffset + ps.length - s.baseOffset) = ps.length := by
      rw [add_sub_cancel_left, int32_of_le h.fits.length_le]
    have hpos : int32 s.logSize = entriesSize ps := by
      rw [h.logSize, int32_of_le hr.entriesSize_le]
    simp only [hrel, hpos]
    refine ⟨_, rfl, rfl, rfl, rfl, rfl, ⟨_, hks.snoc⟩, ?_, ?_⟩
    · simp only [h.indexFile, encodeIndex_append, encodeIndex_singleton]
    · simp [lastIndexedPosition, h.logSize]

-- The entry at the end of the segment, written.
theorem Holds.snoc (h : s.Holds ps) (hp : p.length < 2 ^ 32) (hr : Room ps p)
    (hend : s.baseOffset + ps.length + 1 < 2 ^ 63) {s' : Segment} (hi : s.Indexed s' ps p) :
    Holds { s' with
        logFile := s'.logFile ++ (encodeHeader (s.baseOffset + ps.length) p.length ++ p)
        logSize := s'.logSize + (entryHeaderSize + p.length) } (ps ++ [p]) where
  log := by
    simp only [hi.logFile, h.log, hi.baseOffset, encodeEntries_append]
    simp [encodeEntries, encodeEntry]
  healthy := by rw [hi.healthy, h.healthy]
  logSize := by simp [hi.logSize, h.logSize]
  fits := h.fits.snoc hp hr
  indexes := hi.indexes
  indexFile := hi.indexFile
  lastIndexPos := hi.lastIndexPos
  base_nonneg := by simpa only [hi.baseOffset] using h.base_nonneg
  end_lt := by
    rw [hi.baseOffset, List.length_append, List.length_singleton]
    push_cast
    omega

-- A new segment behind a log that ends at `baseOffset`.
theorem createSegment_holds {baseOffset : Int} (hl : 0 ≤ baseOffset) (hu : baseOffset < 2 ^ 63) :
    (createSegment [] baseOffset).Holds [] where
  log          := rfl
  healthy      := rfl
  logSize      := rfl
  fits         := .nil
  indexes      := ⟨[], .nil []⟩
  indexFile    := rfl
  lastIndexPos := rfl
  base_nonneg  := hl
  end_lt       := by simpa [createSegment] using hu

end Segment

namespace Log

variable {l : Log} {pss : List (List Bytes)}

theorem Holds.nextOffset_nonneg (h : l.Holds pss ps) : 0 ≤ l.nextOffset := by
  rw [h.nextOffset]
  omega

theorem Holds.nextOffset_lt (h : l.Holds pss ps) : l.nextOffset < 2 ^ 63 := by
  rw [h.nextOffset, ← h.base]
  exact h.active.end_lt

-- After the first part of an append there is room for the entry, and nothing moved.
theorem Holds.roll (h : l.Holds pss ps) (p : Bytes) :
    ∃ l' pss' ps', l.roll (entryHeaderSize + p.length) none = (l', .ok ()) ∧ l'.Holds pss' ps' ∧
      Room ps' p ∧ pss'.flatten ++ ps' = pss.flatten ++ ps ∧ l'.nextOffset = l.nextOffset ∧
      ∀ q : Bytes, q.length = p.length → place pss ps q = (pss', ps' ++ [q]) := by
  unfold Log.roll
  rw [h.active.logSize]
  split
  case isFalse hc =>
    refine ⟨l, pss, ps, rfl, h, ?_, rfl, rfl, fun q hq => by rw [place, hq, if_neg hc]⟩
    by_cases hps : ps = []
    case pos => exact .inl hps
    case neg =>
      refine .inr (not_lt.mp fun hlt => hc ⟨?_, hlt⟩)
      exact Nat.pos_of_ne_zero fun h0 => hps (entriesSize_eq_zero.mp h0)
  case isTrue hc =>
    have hne : ps ≠ [] := by
      rintro rfl
      simp at hc
    have hnil : l.orphans.filter (·.baseOffset ≠ l.nextOffset) = [] := by
      rw [h.orphans]
      rfl
    let l' : Log := { l with
      sealed := l.segments
      active := createSegment l.orphans l.nextOffset
      orphans := l.orphans.filter (·.baseOffset ≠ l.nextOffset) }
    refine ⟨l', pss ++ [ps], [], ?_, ⟨h.sealed.snoc h.active h.base hne, ?_, ?_, ?_, hnil⟩, .inl rfl,
      by simp, rfl, fun q hq => by rw [place, hq, if_pos hc]; rfl⟩
    · simp [h.active.healthy, l']
    · simp only [l']
      rw [h.orphans]
      exact Segment.createSegment_holds h.nextOffset_nonneg h.nextOffset_lt
    · simp [l', createSegment, h.nextOffset]
    · simp [l', h.nextOffset]

-- A successful append returns the end of the log and adds the stamped payload there.
theorem Holds.appendWithOffset (h : l.Holds pss ps) (stamp : Stamp) (hp : p.length < 2 ^ 32)
    (hend : l.nextOffset + 1 < 2 ^ 63) :
    ∃ l' pss' ps', l.appendWithOffset p stamp none = (l', .ok l.nextOffset) ∧ l'.Holds pss' ps' ∧
      pss'.flatten ++ ps' = pss.flatten ++ ps ++ [stamp.run l.nextOffset p] ∧
      place pss ps (stamp.run l.nextOffset p) = (pss', ps') := by
  obtain ⟨l₁, pss₁, ps₁, hroll, h₁, hroom, hflat, hnext, hplace⟩ := h.roll p
  have hoff : l.nextOffset = l₁.active.baseOffset + ps₁.length := by
    rw [← hnext, h₁.nextOffset, h₁.base]
  set q := stamp.run l.nextOffset p with hq
  have hlen : q.length = p.length := stamp.length_run ..
  have hroom' : Room ps₁ q := by rwa [Room, hlen]
  obtain ⟨s, hwrite, hs⟩ := h₁.active.maybeWriteIndex hroom'
  have hsnoc := h₁.active.snoc (hlen ▸ hp) hroom' (by rwa [← hoff]) hs
  let l' : Log := { l₁ with
    active := { s with
      logFile := s.logFile ++ (encodeHeader (l₁.active.baseOffset + ps₁.length) q.length ++ q)
      logSize := s.logSize + (entryHeaderSize + q.length) }
    nextOffset := int64 (l.nextOffset + 1) }
  refine ⟨l', pss₁, ps₁ ++ [q], ?_, ⟨h₁.sealed, hsnoc, ?_, ?_, h₁.orphans⟩, ?_, hplace q hlen⟩
  · rw [Log.appendWithOffset, hroll]
    simp only [← hq]
    rw [hoff, hwrite]
    simp [Segment.writeEntry, hs.healthy, h₁.active.healthy, hlen, hoff, l']
  · simpa only [l', hs.baseOffset] using h₁.base
  · simp only [l']
    rw [show int64 (l.nextOffset + 1) = l.nextOffset + 1 from
      wrap_of_nonneg (by decide) (by have := h.nextOffset_nonneg; omega) (by omega), ← hnext, h₁.nextOffset]
    simp
    omega
  · rw [← List.append_assoc, hflat]

-- Without a fault only a writer that has failed before makes an append fail.
theorem append_of_healthy {l : Log} (h : l.active.writeFailed = false) (p : Bytes) :
    ∃ l' offset, l.append p = (l', .ok offset) ∧ l'.active.writeFailed = false := by
  have hroll : ∃ l₁, l.roll (entryHeaderSize + p.length) none = (l₁, .ok ()) ∧ l₁.active.writeFailed = false := by
    unfold roll
    split
    case isTrue =>
      rw [if_neg (by simp [h]), if_neg nofun, if_neg nofun]
      exact ⟨_, rfl, rfl⟩
    case isFalse => exact ⟨l, rfl, h⟩
  obtain ⟨l₁, hroll, h₁⟩ := hroll
  have hwrite : ∃ s, l₁.active.maybeWriteIndex l.nextOffset l₁.active.logSize none = (s, .ok ()) ∧
      s.writeFailed = false := by
    unfold Segment.maybeWriteIndex
    split
    case isTrue  => exact ⟨_, rfl, h₁⟩
    case isFalse => exact ⟨_, rfl, h₁⟩
  obtain ⟨s, hwrite, hs⟩ := hwrite
  simp [append, appendWithOffset, hroll, Stamp.none, hwrite, Segment.writeEntry, hs]

end Log
end Storage
