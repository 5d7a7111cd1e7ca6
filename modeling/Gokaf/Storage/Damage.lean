import Gokaf.Storage.Execution

open Go

namespace Storage

-- All records that the log file has.
def SegmentFiles.records (f : SegmentFiles) : List Record :=
  match readRecords f.log 0 f.baseOffset 0 with
  | .ok rs   => rs
  | .error _ => []

namespace Segment

def records (s : Segment) : List Record :=
  s.files.records

-- The first record of the segment is within the first `n` bytes of its log file.
def StartsWithin (s : Segment) (n : Nat) : Prop :=
  s.logFile ≠ [] ∧ entryHeaderSize + entryLength s.logFile ≤ n

instance (s : Segment) (n : Nat) : Decidable (s.StartsWithin n) :=
  inferInstanceAs (Decidable (_ ∧ _))

-- The files of a segment after a crash that cut them. What is left of them is given by the base offset.
def cut (logBytes indexBytes : Int → Nat) (s : Segment) : SegmentFiles where
  baseOffset := s.baseOffset
  log := s.logFile.take (logBytes s.baseOffset)
  index := some (s.indexFile.take (indexBytes s.baseOffset))

end Segment

namespace Log

def records (l : Log) : List Record :=
  l.segments.flatMap Segment.records

-- The records of all files in the directory, whether a segment refers to them or not.
def stored (l : Log) : List Record :=
  l.records ++ l.orphans.flatMap SegmentFiles.records

-- The directory after a crash that cut the files of any of the segments.
def truncated (l : Log) (logBytes indexBytes : Int → Nat) : Dir :=
  l.segments.map (Segment.cut logBytes indexBytes)

-- A read gets something as long as there is a record at its offset or behind it, and a reader that goes on behind the
-- last record it got sees them all.
structure ShowsAll (l : Log) : Prop where
  read    : ∀ o m, 0 ≤ o → (∃ r ∈ l.stored, o ≤ r.offset) → ∃ rs, l.read o m = .ok rs ∧ rs ≠ []
  readAll : ∀ maxBytes fuel, l.stored.length < fuel → l.readAll maxBytes fuel 0 = .ok l.stored

-- In front of a segment that has a record left, nothing is cut off.
def CutFromEnd (l : Log) (logBytes : Int → Nat) : Prop :=
  l.segments.Pairwise fun t s =>
    s.StartsWithin (logBytes s.baseOffset) → t.logFile.length ≤ logBytes t.baseOffset

end Log
end Storage
