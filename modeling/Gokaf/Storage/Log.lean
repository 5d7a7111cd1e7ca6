import Gokaf.Go.File
import Gokaf.Go.Glob
import Gokaf.Go.Search
import Mathlib.Data.List.Dedup
import Mathlib.Data.List.Sort
import Mathlib.Logic.Function.Basic

open Go

namespace Storage

def entryHeaderSize : Nat := 12

def indexEntrySize : Nat := 8

def maxSegmentBytes : Nat := 1 <<< 20

def indexIntervalBytes : Nat := 4 <<< 10

structure Record where
  offset  : Int
  payload : Bytes
  deriving DecidableEq, Repr

structure IndexEntry where
  relOffset : Int
  position  : Int
  deriving DecidableEq, Repr

-- An open segment with the contents of its two files. `writeFailed` is the sticky error of the
-- `bufio.Writer` on the log file: once set, every later `Write` and `Flush` reports it. Its buffer
-- is flushed at the end of each append, so it holds nothing between two operations.
structure Segment where
  baseOffset   : Int
  logFile      : Bytes
  writeFailed  : Bool
  indexFile    : Bytes
  logSize      : Nat
  lastIndexPos : Int
  index        : List IndexEntry
  deriving DecidableEq, Repr

-- The files of one segment as they lie in the log directory, under the base offset their names are
-- printed from and parsed back to. An index file may be missing.
structure SegmentFiles where
  baseOffset : Int
  log        : Bytes
  index      : Option Bytes
  deriving DecidableEq, Repr

abbrev Dir := List SegmentFiles

-- `segments` is never empty while a log is open, so its last element is kept as a field of its own.
-- `orphans` are files in the directory that no open segment refers to.
structure Log where
  sealed     : List Segment
  active     : Segment
  orphans    : Dir
  nextOffset : Int
  deriving DecidableEq, Repr

-- The callback of `AppendWithOffset`. It writes into the payload's own slice, so it cannot change
-- its length.
structure Stamp where
  run        : Int → Bytes → Bytes
  length_run : ∀ o p, (run o p).length = p.length

-- A nil callback.
def Stamp.none : Stamp where
  run _ p := p
  length_run _ _ := rfl

-- The file operation of an append that fails, if it is reached. A failed write has put some number
-- of its bytes into the file.
inductive Fault
  | sync
  | openLog
  | openIndex
  | writeIndex (written : Nat)
  | writeLog (written : Nat)
  deriving DecidableEq, Repr

namespace Segment

def files (s : Segment) : SegmentFiles where
  baseOffset := s.baseOffset
  log := s.logFile
  index := some s.indexFile

end Segment

namespace Log

def segments (l : Log) : List Segment :=
  l.sealed ++ [l.active]

def endOffset (l : Log) : Int :=
  l.nextOffset

def startOffset (l : Log) : Int :=
  (l.segments.head (by simp [segments])).baseOffset

-- The contents of the log directory.
def dir (l : Log) : Dir :=
  l.segments.map Segment.files ++ l.orphans

-- `close` flushes and closes the files and leaves the directory as it is.
def close (l : Log) : Dir :=
  l.dir

def segmentForOffset (l : Log) (offset : Int) : Option Segment :=
  if offset < 0 then
    none
  else
    match search l.segments.length fun i => l.segments[i]?.elim true (offset < ·.baseOffset) with
    | 0     => none
    | i + 1 => l.segments[i]?

end Log

-- `os.O_CREATE` opens the files that are already there and makes empty ones otherwise.
def createSegment (orphans : Dir) (baseOffset : Int) : Segment where
  baseOffset   := baseOffset
  logFile      := (orphans.find? (·.baseOffset = baseOffset)).elim [] (·.log)
  writeFailed  := false
  indexFile    := (orphans.find? (·.baseOffset = baseOffset)).elim [] (·.index.getD [])
  logSize      := 0
  lastIndexPos := 0
  index        := []

def encodeIndexEntry (e : IndexEntry) : Bytes :=
  putInt 32 e.relOffset ++ putInt 32 e.position

def encodeHeader (offset : Int) (length : Nat) : Bytes :=
  putInt 64 offset ++ putInt 32 length

namespace Segment

-- `maybeWriteIndex`, with the index write failing after some bytes if `fault` says so.
def maybeWriteIndex (s : Segment) (offset : Int) (entryStartPos : Nat) (fault : Option Fault) :
    Segment × Except IOError Unit :=
  if s.logSize - s.lastIndexPos < indexIntervalBytes then
    (s, .ok ())
  else
    let entry : IndexEntry := {
      relOffset := int32 (offset - s.baseOffset)
      position  := int32 entryStartPos
    }
    match fault with
    | some (.writeIndex n) =>
      ({ s with indexFile := s.indexFile ++ (encodeIndexEntry entry).take n }, .error .failed)
    | _ =>
      ({ s with
          indexFile := s.indexFile ++ encodeIndexEntry entry
          index := s.index ++ [entry]
          lastIndexPos := s.logSize }, .ok ())

-- The header, the payload and the flush of one entry, all through the `bufio.Writer`.
def writeEntry (s : Segment) (bytes : Bytes) (fault : Option Fault) : Segment × Except IOError Unit :=
  if s.writeFailed then
    (s, .error .failed)
  else
    match fault with
    | some (.writeLog n) =>
      ({ s with logFile := s.logFile ++ bytes.take n, writeFailed := true }, .error .failed)
    | _ =>
      ({ s with logFile := s.logFile ++ bytes }, .ok ())

def startPosition (s : Segment) (offset : Int) : Int :=
  let rel := int32 (offset - s.baseOffset)
  match search s.index.length fun j => s.index[j]?.elim true (rel < ·.relOffset) with
  | 0     => 0
  | j + 1 => s.index[j]?.elim 0 (·.position)

end Segment

namespace Log

-- The first part of an append: a full active segment is flushed and a new one is opened behind it.
def roll (l : Log) (entrySize : Nat) (fault : Option Fault) : Log × Except IOError Unit :=
  if 0 < l.active.logSize ∧ maxSegmentBytes < l.active.logSize + entrySize then
    if l.active.writeFailed ∨ fault = some .sync then
      (l, .error .failed)
    else if fault = some .openLog then
      (l, .error .failed)
    else if fault = some .openIndex then
      let log := (createSegment l.orphans l.nextOffset).logFile
      let orphans := l.orphans.filter (·.baseOffset ≠ l.nextOffset)
      ({ l with orphans := ⟨l.nextOffset, log, none⟩ :: orphans }, .error .failed)
    else
      ({ l with
          sealed := l.segments
          active := createSegment l.orphans l.nextOffset
          orphans := l.orphans.filter (·.baseOffset ≠ l.nextOffset) }, .ok ())
  else
    (l, .ok ())

def appendWithOffset (l : Log) (payload : Bytes) (stamp : Stamp) (fault : Option Fault := none) :
    Log × Except IOError Int :=
  let offset := l.nextOffset
  let entrySize := entryHeaderSize + payload.length
  match l.roll entrySize fault with
  | (l, .error e) => (l, .error e)
  | (l, .ok ()) =>
    let payload := stamp.run offset payload
    let entryStartPos := l.active.logSize
    match l.active.maybeWriteIndex offset entryStartPos fault with
    | (active, .error e) => ({ l with active }, .error e)
    | (active, .ok ()) =>
      match active.writeEntry (encodeHeader offset payload.length ++ payload) fault with
      | (active, .error e) => ({ l with active }, .error e)
      | (active, .ok ()) =>
        ({ l with
            active := { active with logSize := active.logSize + entrySize }
            nextOffset := int64 (offset + 1) }, .ok offset)

def append (l : Log) (payload : Bytes) (fault : Option Fault := none) : Log × Except IOError Int :=
  l.appendWithOffset payload .none fault

end Log

-- The two fields of an entry header.
def entryOffset (header : Bytes) : Int :=
  sint 64 (header.take 8)

def entryLength (header : Bytes) : Nat :=
  BigEndian.uint ((header.drop 8).take 4)

-- Each round of the loop moves `pos` on by at least the size of a header, so the length of the file
-- bounds the number of rounds.
def readRecords (file : Bytes) (startPos offset maxBytes : Int) : Except IOError (List Record) :=
  if startPos < 0 then .error .negativeOffset else go (file.length + 1) startPos.toNat 0 []
where
  go : Nat → Nat → Nat → List Record → Except IOError (List Record)
    | 0, _, _, _ => .error .failed
    | fuel + 1, pos, payloadBytes, records =>
      match readAt file pos entryHeaderSize with
      | .error .eof => .ok records
      | .error e    => .error e
      | .ok header =>
        let payloadPos := pos + entryHeaderSize
        let nextPos := payloadPos + entryLength header
        if entryOffset header < offset then
          go fuel nextPos payloadBytes records
        else
          match readAt file payloadPos (entryLength header) with
          | .error .eof => .ok records
          | .error e    => .error e
          | .ok payload =>
            let records := records ++ [⟨entryOffset header, payload⟩]
            let payloadBytes := payloadBytes + payload.length
            if 0 < maxBytes ∧ maxBytes ≤ payloadBytes then
              .ok records
            else
              go fuel nextPos payloadBytes records

namespace Log

def read (l : Log) (offset maxBytes : Int) : Except IOError (List Record) :=
  if l.active.writeFailed then
    .error .failed
  else
    match l.segmentForOffset offset with
    | none   => .ok []
    | some s => readRecords s.logFile (s.startPosition offset) offset maxBytes

end Log

-- Scans the entry headers and returns the offset to assign next and the size of all intact entries.
-- A torn tail ends the scan.
def recoverLog (file : Bytes) : Except IOError (Int × Nat) :=
  go (file.length + 1) 0 0
where
  go : Nat → Nat → Int → Except IOError (Int × Nat)
    | 0, _, _ => .error .failed
    | fuel + 1, pos, nextOffset =>
      if pos + entryHeaderSize ≤ file.length then
        match readAt file pos entryHeaderSize with
        | .error e => .error e
        | .ok header =>
          if file.length < pos + entryHeaderSize + entryLength header then
            .ok (nextOffset, pos)
          else
            go fuel (pos + entryHeaderSize + entryLength header) (int64 (entryOffset header + 1))
      else
        .ok (nextOffset, pos)

def recoverNextOffset (s : Segment) : Int :=
  if s.logSize = 0 then
    s.baseOffset
  else
    match recoverLog s.logFile with
    | .error _     => s.baseOffset
    | .ok (next, _) => next

def decodeIndexEntry (bs : Bytes) : IndexEntry where
  relOffset := sint 32 (bs.take 4)
  position  := sint 32 ((bs.drop 4).take 4)

-- `none` asks for the index to be rebuilt.
def loadIndex (file : Bytes) (logSize : Nat) : Except IOError (Option (List IndexEntry)) :=
  if file.length = 0 then
    if 0 < logSize then .ok none else .ok (some [])
  else if file.length % indexEntrySize ≠ 0 then
    .ok none
  else
    go (file.length + 1) 0 []
where
  go : Nat → Nat → List IndexEntry → Except IOError (Option (List IndexEntry))
    | 0, _, _ => .error .failed
    | fuel + 1, pos, index =>
      if pos < file.length then
        match readAt file pos indexEntrySize with
        | .error e => .error e
        | .ok buf =>
          if logSize ≤ (decodeIndexEntry buf).position then
            .ok none
          else
            go fuel (pos + indexEntrySize) (index ++ [decodeIndexEntry buf])
      else
        .ok (some index)

-- The index file is truncated first, so it ends up as the encoding of the rebuilt index.
def rebuildIndex (logFile : Bytes) (baseOffset : Int) (logSize : Nat) :
    Except IOError (List IndexEntry × Bytes) :=
  go (logFile.length + 1) 0 0 [] []
where
  go : Nat → Nat → Nat → List IndexEntry → Bytes → Except IOError (List IndexEntry × Bytes)
    | 0, _, _, _, _ => .error .failed
    | fuel + 1, pos, lastIndexPos, index, indexFile =>
      if pos + entryHeaderSize ≤ logSize then
        match readAt logFile pos entryHeaderSize with
        | .error e => .error e
        | .ok header =>
          let nextPos := pos + entryHeaderSize + entryLength header
          if logSize < nextPos then
            .ok (index, indexFile)
          else if (indexIntervalBytes : Int) ≤ (pos : Int) - lastIndexPos then
            let entry : IndexEntry := {
              relOffset := int32 (entryOffset header - baseOffset)
              position  := int32 pos
            }
            go fuel nextPos pos (index ++ [entry]) (indexFile ++ encodeIndexEntry entry)
          else
            go fuel nextPos lastIndexPos index indexFile
      else
        .ok (index, indexFile)

def lastIndexedPosition (index : List IndexEntry) : Int :=
  index.getLast?.elim 0 (·.position)

def openSegment (files : SegmentFiles) : Except IOError Segment := do
  let (_, validSize) ← recoverLog files.log
  let logFile := files.log.take validSize
  let (index, indexFile) ←
    match ← loadIndex (files.index.getD []) validSize with
    | some index => pure (index, files.index.getD [])
    | none       => rebuildIndex logFile files.baseOffset validSize
  return {
    baseOffset   := files.baseOffset
    logFile      := logFile
    writeFailed  := false
    indexFile    := indexFile
    logSize      := validSize
    lastIndexPos := lastIndexedPosition index
    index        := index
  }

-- The log file is opened without `os.O_CREATE`.
def openBase (files : Dir) (base : Int) : Except IOError Segment :=
  match files.find? (·.baseOffset = base) with
  | none   => .error .failed
  | some f => openSegment f

-- `Open` behind the listing of the directory. A base offset that is listed twice is opened twice, on the same files,
-- and only the last of its segments is ever read or written, so it is opened once here. What is not listed stays as it
-- is, unless the first segment is created on top of it.
def openListed (files : Dir) (bases : List Int) : Except IOError Log := do
  let segments ← bases.dedup.mapM (openBase files)
  let orphans := files.filter (·.baseOffset ∉ bases)
  match segments.getLast? with
  | none =>
    let active := createSegment orphans 0
    return { sealed := [], active, orphans := orphans.filter (·.baseOffset ≠ 0), nextOffset := 0 }
  | some active =>
    return { sealed := segments.dropLast, active, orphans, nextOffset := recoverNextOffset active }

-- `Open` in a directory whose files are listed as they are.
def openFiles (files : Dir) : Except IOError Log :=
  openListed files ((files.map (·.baseOffset)).insertionSort (· ≤ ·))

-- The directories of a file system with the segment files in each of them.
structure Disk where
  dirs  : List Path
  files : Path → Dir

instance : CoeFun Disk fun _ => Path → Dir :=
  ⟨Disk.files⟩

namespace Disk

def empty : Disk where
  dirs    := []
  files _ := []

def write (disk : Disk) (dir : Path) (files : Dir) : Disk :=
  { disk with files := Function.update disk.files dir files }

-- `os.MkdirAll`. What can be made of the path is made.
def mkdirAll (disk : Disk) (dir : Path) : Disk × Except IOError Unit :=
  ({ disk with dirs := disk.dirs ++ dir.ancestors.filter fun d => d.Creatable ∧ d ∉ disk.dirs },
    if dir.Creatable then .ok () else .error .failed)

end Disk

-- `*.log`
def logPattern : Bytes :=
  [42, 46, 108, 111, 103]

-- The bytes of a slash and of the name of an index file.
def segmentNameSize : Nat := 27

-- `Glob` takes the path of the directory for a part of its pattern. All log files of a directory match the rest of it.
def segmentBaseOffsets (disk : Disk) (dir : Path) : Except IOError (List Int) :=
  match Path.globDirs disk.dirs dir logPattern with
  | none      => .error .failed
  | some dirs => .ok ((dirs.flatMap fun d => (disk d).map (·.baseOffset)).insertionSort (· ≤ ·))

-- `Open`. The directory is there afterwards, even if something behind `MkdirAll` fails.
def openLog (disk : Disk) (dir : Path) : Disk × Except IOError Log :=
  match disk.mkdirAll dir with
  | (disk, .error e) => (disk, .error e)
  | (disk, .ok ())   =>
    match segmentBaseOffsets disk dir with
    | .error e  => (disk, .error e)
    | .ok bases =>
      -- The paths of the segment files are too long.
      if pathMax ≤ dir.toBytes.length + segmentNameSize then
        (disk, .error .failed)
      else
        match openListed (disk dir) bases with
        | .error e => (disk, .error e)
        | .ok log  => (disk.write dir log.dir, .ok log)

-- Where the directory of a log is, with all other directories around it.
structure Location where
  disk : Disk
  dir  : Path

-- `Open`, with the given files in the directory.
def Location.openLog (loc : Location) (files : Dir) : Except IOError Log :=
  (Storage.openLog (loc.disk.write loc.dir files) loc.dir).snd

-- A path that `Glob` takes for what it is, and that files can have.
structure Ordinary (dir : Path) : Prop where
  literal   : dir.Literal
  creatable : dir.Creatable
  room      : dir.toBytes.length + segmentNameSize < pathMax

instance : DecidablePred Ordinary := fun dir =>
  decidable_of_iff (dir.Literal ∧ dir.Creatable ∧ dir.toBytes.length + segmentNameSize < pathMax)
    ⟨fun h => ⟨h.left, h.right.left, h.right.right⟩, fun h => ⟨h.literal, h.creatable, h.room⟩⟩

-- The log of an empty directory.
def Log.empty : Log where
  sealed     := []
  active     := createSegment [] 0
  orphans    := []
  nextOffset := 0

theorem openFiles_nil : openFiles [] = .ok .empty :=
  rfl

variable {disk : Disk} {dir dir' : Path} {files : Dir}

namespace Disk

@[simp]
theorem write_self (disk : Disk) (dir : Path) (files : Dir) : disk.write dir files dir = files :=
  Function.update_self ..

@[simp]
theorem dirs_write (disk : Disk) (dir : Path) (files : Dir) : (disk.write dir files).dirs = disk.dirs :=
  rfl

theorem write_of_ne (h : dir' ≠ dir) (disk : Disk) (files : Dir) : disk.write dir files dir' = disk dir' :=
  Function.update_of_ne h ..

@[simp]
theorem files_mkdirAll (disk : Disk) (dir : Path) : (disk.mkdirAll dir).fst.files = disk.files :=
  rfl

theorem mkdirAll_of_creatable (h : dir.Creatable) (disk : Disk) :
    disk.mkdirAll dir = ((disk.mkdirAll dir).fst, .ok ()) := by
  rw [mkdirAll, if_pos h]

theorem mem_mkdirAll (h : dir.Creatable) (disk : Disk) : dir ∈ (disk.mkdirAll dir).fst.dirs := by
  by_cases hmem : dir ∈ disk.dirs
  case pos => exact List.mem_append_left _ hmem
  case neg =>
    refine List.mem_append_right _ (List.mem_filter.mpr ⟨dir.mem_ancestors, ?_⟩)
    simpa using ⟨h, hmem⟩

end Disk

theorem isPlain_logPattern : Pattern.IsPlain logPattern :=
  rfl

-- The listing of a literal path depends on nothing but the directory itself.
theorem segmentBaseOffsets_of_literal (h : dir.Literal) (hmem : dir ∈ disk.dirs) :
    segmentBaseOffsets disk dir = .ok (((disk dir).map (·.baseOffset)).insertionSort (· ≤ ·)) := by
  rw [segmentBaseOffsets, h.globDirs isPlain_logPattern hmem]
  simp

-- What `Open` returns in a directory with a literal path.
theorem openLog_of_literal (h : dir.Literal) (disk : Disk) :
    (openLog disk dir).snd =
      if dir.Creatable ∧ dir.toBytes.length + segmentNameSize < pathMax then
        openFiles (disk dir)
      else
        .error .failed := by
  by_cases hcreatable : dir.Creatable
  case neg => simp [openLog, Disk.mkdirAll, hcreatable]
  case pos =>
    rw [openLog, Disk.mkdirAll_of_creatable hcreatable]
    simp only [segmentBaseOffsets_of_literal h (Disk.mem_mkdirAll hcreatable disk), Disk.files_mkdirAll]
    by_cases hroom : dir.toBytes.length + segmentNameSize < pathMax
    case neg => rw [if_pos (not_lt.mp hroom), if_neg fun hif => hroom hif.right]
    case pos =>
      rw [if_neg (not_le.mpr hroom), if_pos ⟨hcreatable, hroom⟩, openFiles]
      cases openListed (disk dir) (((disk dir).map (·.baseOffset)).insertionSort (· ≤ ·)) <;> rfl

theorem Ordinary.snd_openLog (h : Ordinary dir) (disk : Disk) : (openLog disk dir).snd = openFiles (disk dir) := by
  rw [openLog_of_literal h.literal, if_pos ⟨h.creatable, h.room⟩]

theorem Ordinary.openLog_of_ok {log : Log} (h : Ordinary dir) (hopen : openFiles (disk dir) = .ok log) :
    openLog disk dir = ((disk.mkdirAll dir).fst.write dir log.dir, .ok log) := by
  rw [openLog, Disk.mkdirAll_of_creatable h.creatable]
  simp only [segmentBaseOffsets_of_literal h.literal (Disk.mem_mkdirAll h.creatable disk), Disk.files_mkdirAll]
  rw [openFiles] at hopen
  rw [if_neg (not_le.mpr h.room), hopen]

-- `Open` writes to no other directory.
theorem openLog_of_ne (h : dir' ≠ dir) (disk : Disk) : (openLog disk dir).fst dir' = disk dir' := by
  have hfiles := disk.files_mkdirAll dir
  rw [openLog]
  generalize disk.mkdirAll dir = made at hfiles
  obtain ⟨disk', r⟩ := made
  rw [← hfiles]
  cases r
  case error e => rfl
  case ok      =>
    simp only
    split
    case h_1 => rfl
    case h_2 =>
      split
      case isTrue  => rfl
      case isFalse =>
        split
        case h_1 => rfl
        case h_2 => exact Disk.write_of_ne h ..

-- It writes nothing if it fails.
theorem files_of_openLog_eq_error {disk' : Disk} {e : IOError} (h : openLog disk dir = (disk', .error e)) :
    disk'.files = disk.files := by
  have hfiles := disk.files_mkdirAll dir
  rw [openLog] at h
  generalize disk.mkdirAll dir = made at h hfiles
  obtain ⟨disk'', r⟩ := made
  cases r
  case error e => exact (Prod.mk.inj h).left ▸ hfiles
  case ok      =>
    simp only at h
    split at h
    case h_1 => exact (Prod.mk.inj h).left ▸ hfiles
    case h_2 =>
      split at h
      case isTrue  => exact (Prod.mk.inj h).left ▸ hfiles
      case isFalse =>
        split at h
        case h_1 => exact (Prod.mk.inj h).left ▸ hfiles
        case h_2 => cases (Prod.mk.inj h).right

theorem Ordinary.openLog_eq {loc : Location} (h : Ordinary loc.dir) (files : Dir) :
    loc.openLog files = openFiles files := by
  rw [Location.openLog, h.snd_openLog, Disk.write_self]

end Storage
