import Gokaf.Storage.Theorems.Index

open Go

namespace Storage

namespace Segment

def volume (s : Segment) : Nat :=
  s.logFile.length + s.indexFile.length

-- An index entry is written if one is due.
theorem maybeWriteIndex_none (s : Segment) (offset : Int) (pos : Nat) :
    ∃ s', s.maybeWriteIndex offset pos none = (s', .ok ()) ∧ s'.writeFailed = s.writeFailed ∧
      s'.logFile = s.logFile ∧ s.indexFile.length ≤ s'.indexFile.length ∧
      (¬s.logSize - s.lastIndexPos < indexIntervalBytes → s.indexFile.length < s'.indexFile.length) := by
  unfold maybeWriteIndex
  split
  case isTrue h => exact ⟨s, rfl, rfl, rfl, le_refl _, fun hdue => absurd h hdue⟩
  case isFalse =>
    refine ⟨_, rfl, rfl, rfl, ?_, fun _ => ?_⟩
    · simp
    · simp [indexEntrySize]

end Segment

namespace Log

-- All that the segments have in their files.
def volume (l : Log) : Nat :=
  (l.segments.map Segment.volume).sum

-- The writer of the active segment reports an earlier failure before an append of so many bytes puts anything into a
-- file. An index entry that is due is written ahead of the failing write.
def Stuck (l : Log) (entrySize : Nat) : Prop :=
  l.active.writeFailed ∧
    (0 < l.active.logSize ∧ maxSegmentBytes < l.active.logSize + entrySize ∨
      l.active.logSize - l.active.lastIndexPos < indexIntervalBytes)

instance (l : Log) (entrySize : Nat) : Decidable (l.Stuck entrySize) :=
  inferInstanceAs (Decidable (_ ∧ _))

variable {l : Log} {payload : Bytes}

theorem appendWithOffset_of_stuck (stamp : Stamp) (h : l.Stuck (entryHeaderSize + payload.length)) :
    l.appendWithOffset payload stamp = (l, .error .failed) := by
  obtain ⟨hfailed, hcase⟩ := h
  by_cases hroll : 0 < l.active.logSize ∧ maxSegmentBytes < l.active.logSize + (entryHeaderSize + payload.length)
  case pos => simp [appendWithOffset, roll, hroll, hfailed]
  case neg =>
    have hindex := hcase.resolve_left hroll
    simp [appendWithOffset, roll, hroll, Segment.maybeWriteIndex, hindex, Segment.writeEntry, hfailed]

theorem volume_eq (l : Log) : l.volume = (l.sealed.map Segment.volume).sum + l.active.volume := by
  simp [volume, segments]

theorem roll_none {entrySize : Nat}
    (h : ¬(l.active.writeFailed ∧ 0 < l.active.logSize ∧ maxSegmentBytes < l.active.logSize + entrySize)) :
    ∃ l', l.roll entrySize none = (l', .ok ()) ∧ l.volume ≤ l'.volume ∧ (l' = l ∨ l'.active.writeFailed = false) := by
  unfold roll
  split
  case isFalse => exact ⟨l, rfl, le_refl _, .inl rfl⟩
  case isTrue hroll =>
    have hfailed : ¬(l.active.writeFailed = true) := fun hfailed => h ⟨hfailed, hroll⟩
    simp only [hfailed, reduceCtorEq, or_self, if_false]
    refine ⟨_, rfl, ?_, .inr rfl⟩
    rw [volume_eq ⟨l.segments, _, _, _⟩]
    exact Nat.le_add_right l.volume _

theorem nextOffset_roll (l : Log) (entrySize : Nat) (fault : Option Fault) :
    (l.roll entrySize fault).fst.nextOffset = l.nextOffset := by
  unfold roll
  split
  case isFalse => rfl
  case isTrue =>
    split
    case isTrue => rfl
    case isFalse =>
      split
      case isTrue => rfl
      case isFalse => split <;> rfl

-- Whatever fails, the end of the log moves on by one record or stays.
theorem nextOffset_appendWithOffset (l : Log) (payload : Bytes) (stamp : Stamp) (fault : Option Fault) :
    (l.appendWithOffset payload stamp fault).fst.nextOffset = l.nextOffset ∨
      (l.appendWithOffset payload stamp fault).fst.nextOffset = int64 (l.nextOffset + 1) := by
  have hnext := l.nextOffset_roll (entryHeaderSize + payload.length) fault
  simp only [appendWithOffset]
  rcases hroll : l.roll (entryHeaderSize + payload.length) fault with ⟨l', e | ⟨⟩⟩
  all_goals rw [hroll] at hnext
  case error => exact .inl hnext
  case ok =>
    dsimp only
    split
    case h_1 => exact .inl hnext
    case h_2 =>
      split
      case h_1 => exact .inl hnext
      case h_2 => exact .inr rfl

theorem volume_lt_append (stamp : Stamp) (h : ¬l.Stuck (entryHeaderSize + payload.length)) :
    l.volume < (l.appendWithOffset payload stamp).fst.volume := by
  have hfits : ¬(l.active.writeFailed ∧ 0 < l.active.logSize ∧
      maxSegmentBytes < l.active.logSize + (entryHeaderSize + payload.length)) :=
    fun hroll => h ⟨hroll.left, .inl hroll.right⟩
  obtain ⟨l', hroll, hle, hcase⟩ := roll_none hfits
  obtain ⟨active, hindex, hfailed, hlog, hindexed, hdue⟩ :=
    l'.active.maybeWriteIndex_none l.nextOffset l'.active.logSize
  refine Nat.lt_of_le_of_lt hle ?_
  simp only [appendWithOffset, hroll, hindex, Segment.writeEntry]
  by_cases hwrite : active.writeFailed
  case pos =>
    -- The segment is the old one, and only the index entry has been written.
    have hold : l' = l := hcase.resolve_right (by rw [← hfailed, hwrite]; decide)
    subst hold
    have hlt := hdue fun hinterval => h ⟨hfailed ▸ hwrite, .inr hinterval⟩
    simp only [hwrite, if_true, volume_eq, Segment.volume, hlog]
    omega
  case neg =>
    have hentry : 0 < (encodeHeader l.nextOffset (stamp.run l.nextOffset payload).length ++
        stamp.run l.nextOffset payload).length := by
      rw [List.length_append, length_encodeHeader]
      exact Nat.add_pos_left (by decide) _
    simp only [hwrite, Bool.false_eq_true, if_false, volume_eq, Segment.volume, hlog, List.length_append] at hentry ⊢
    omega

end Log
end Storage
