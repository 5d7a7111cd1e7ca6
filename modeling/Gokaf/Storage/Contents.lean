import Gokaf.Storage.Log

open Go

namespace Storage

-- The bytes of the entry that holds `payload` at `offset`.
def encodeEntry (offset : Int) (payload : Bytes) : Bytes :=
  encodeHeader offset payload.length ++ payload

-- The bytes of consecutive entries, the first of them at `offset`.
def encodeEntries : Int → List Bytes → Bytes
  | _, [] => []
  | offset, p :: ps => encodeEntry offset p ++ encodeEntries (offset + 1) ps

def entriesSize (ps : List Bytes) : Nat :=
  (ps.map (entryHeaderSize + ·.length)).sum

-- The byte position of the `k`-th of the entries `ps`.
def entryPos (ps : List Bytes) (k : Nat) : Nat :=
  entriesSize (ps.take k)

def encodeIndex (index : List IndexEntry) : Bytes :=
  index.flatMap encodeIndexEntry

-- The sparse index over `ps` that lists the entries `ks`.
def indexAt (ps : List Bytes) (ks : List Nat) : List IndexEntry :=
  ks.map fun (k : Nat) => ⟨k, entryPos ps k⟩

-- Which entries an index lists is not fixed: a crash may leave any number of them behind.
structure Indexes (ps : List Bytes) (index : List IndexEntry) (ks : List Nat) : Prop where
  sorted : ks.Pairwise (· < ·)
  lt     : ∀ k ∈ ks, k < ps.length
  eq     : index = indexAt ps ks

-- What an append must respect for the entries `ps` of one segment: a payload's length fits its
-- header field, and a segment with more than one entry stays within `maxSegmentBytes`.
structure Fits (ps : List Bytes) : Prop where
  payload : ∀ p ∈ ps, p.length < 2 ^ 32
  size    : ps.length ≤ 1 ∨ entriesSize ps ≤ maxSegmentBytes

-- Where an append puts the entry that holds `p`: the segment that was the last one so far is full, or not.
def place (pss : List (List Bytes)) (ps : List Bytes) (p : Bytes) : List (List Bytes) × List Bytes :=
  if 0 < entriesSize ps ∧ maxSegmentBytes < entriesSize ps + (entryHeaderSize + p.length) then
    (pss ++ [ps], [p])
  else
    (pss, ps ++ [p])

namespace Segment

-- The segment stores exactly the payloads `ps`, at consecutive offsets from its base offset on.
structure Holds (s : Segment) (ps : List Bytes) : Prop where
  log          : s.logFile = encodeEntries s.baseOffset ps
  healthy      : s.writeFailed = false
  logSize      : s.logSize = entriesSize ps
  fits         : Fits ps
  indexes      : ∃ ks, Indexes ps s.index ks
  indexFile    : s.indexFile = encodeIndex s.index
  lastIndexPos : s.lastIndexPos = lastIndexedPosition s.index
  base_nonneg  : 0 ≤ s.baseOffset
  end_lt       : s.baseOffset + ps.length < 2 ^ 63

end Segment

-- Closed segments follow one another without a gap and none of them is empty.
inductive Sealed : List Segment → List (List Bytes) → Prop
  | nil  : Sealed [] []
  | snoc {s : Segment} {ps : List Bytes} :
    Sealed ss pss → s.Holds ps → s.baseOffset = (pss.flatten.length : Int) → ps ≠ [] →
    Sealed (ss ++ [s]) (pss ++ [ps])

namespace Log

-- The log stores the payloads `pss.flatten ++ ps`, of which `ps` are in the active segment.
structure Holds (l : Log) (pss : List (List Bytes)) (ps : List Bytes) : Prop where
  sealed     : Sealed l.sealed pss
  active     : l.active.Holds ps
  base       : l.active.baseOffset = pss.flatten.length
  nextOffset : l.nextOffset = pss.flatten.length + ps.length
  orphans    : l.orphans = []

-- The offsets at which a segment ends: the base offsets of the segments after it and the end of the
-- log.
def boundaries (l : Log) : List Int :=
  l.segments.map (·.baseOffset) ++ [l.nextOffset]

end Log

-- The records with the given payloads at consecutive offsets.
def recordsFrom : Int → List Bytes → List Record
  | _, [] => []
  | offset, p :: ps => ⟨offset, p⟩ :: recordsFrom (offset + 1) ps

-- The shortest non-empty prefix whose payloads, `read` bytes before them included, reach `maxBytes`.
def window (maxBytes : Int) : Nat → List Bytes → List Bytes
  | _, [] => []
  | read, p :: ps =>
    if 0 < maxBytes ∧ maxBytes ≤ read + p.length then
      [p]
    else
      p :: window maxBytes (read + p.length) ps

def payloadSize (ps : List Bytes) : Nat :=
  (ps.map List.length).sum

namespace Log

-- What a read of the contents `L` may return: consecutive records from `o` on, up to the end of a
-- segment or to the record that makes them reach `m` bytes.
structure ReadsAs (l : Log) (L : List Bytes) (o m : Int) (rs : List Record) : Prop where
  consecutive : rs = recordsFrom o ((L.drop o.toNat).take rs.length)
  empty_iff   : rs = [] ↔ (L.length : Int) ≤ o
  within      : ∀ b ∈ l.boundaries, b ≤ o ∨ o + rs.length ≤ b
  stops       : rs ≠ [] → o + rs.length ∈ l.boundaries ∨
    (0 < m ∧ m ≤ (payloadSize (rs.map (·.payload)) : Int))
  first       : ∀ n < rs.length, 0 < m → (payloadSize ((rs.take n).map (·.payload)) : Int) < m

end Log
end Storage
