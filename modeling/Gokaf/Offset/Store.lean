import Gokaf.Protocol.Types
import Gokaf.Storage.Attempts
import Mathlib.Data.Finmap

open Go Protocol

namespace Offset

structure Key where
  group     : Bytes
  topic     : Bytes
  partition : Int
  deriving DecidableEq, Repr

abbrev Offsets := Finmap fun _ : Key => Int

structure Store where
  log     : Storage.Log
  offsets : Offsets

-- `now` is the time in milliseconds.
def encodeEntry (key : Key) (offset now : Int) : Bytes :=
  writeString key.group ++ writeString key.topic ++ writeInt32 key.partition ++ writeInt64 offset ++ writeInt64 now

def readEntry : Decoder (Key × Int) := do
  let group ← readString
  let topic ← readString
  let partition ← readInt32
  let offset ← readInt64
  let _ ← readInt64
  return ({ group, topic, partition }, offset)

-- Bytes behind the entry are ignored.
def decodeEntry (payload : Bytes) : Except Fault (Key × Int) :=
  (readEntry.run payload).map (·.fst)

-- The inner loop of `replay`, with the offset to read from next.
def replayRecord (r : Offsets × Int) (record : Storage.Record) : Except Fault (Offsets × Int) := do
  let (key, offset) ← decodeEntry record.payload
  return (r.fst.insert key offset, int64 (record.offset + 1))

-- The loop reads at least one record a round.
def replay (log : Storage.Log) : Except Fault Offsets :=
  go (log.endOffset.toNat + 1) 0 ∅
where
  go : Nat → Int → Offsets → Except Fault Offsets
    | 0, _, _ => .error (.error (.io .failed))
    | fuel + 1, next, offsets =>
      match log.read next (-1) with
      | .error e => .error (.error (.io e))
      | .ok []   => .ok offsets
      | .ok (record :: records) => do
        let (offsets, next) ← (record :: records).foldlM replayRecord (offsets, next)
        go fuel next offsets

def newStore (log : Storage.Log) : Except Fault Store := do
  let offsets ← replay log
  return { log, offsets }

namespace Store

def empty : Store where
  log     := .empty
  offsets := ∅

def commit (s : Store) (now : Int) (key : Key) (offset : Int) (fault : Option Storage.Fault := none) :
    Store × Except IOError Unit :=
  match s.log.append (encodeEntry key offset now) fault with
  | (log, .error e) => ({ s with log }, .error e)
  | (log, .ok _)    => ({ log, offsets := s.offsets.insert key offset }, .ok ())

def fetch (s : Store) (key : Key) : Int :=
  (s.offsets.lookup key).getD (-1)

end Store

-- The store that a broker opens on the directory of the log, with the files that are in there.
def openStore (loc : Storage.Location) (files : Storage.Dir) : Except Fault Store :=
  match loc.openLog files with
  | .error e => .error (.error (.io e))
  | .ok log  => newStore log

structure Commit where
  key    : Key
  offset : Int
  now    : Int
  deriving DecidableEq, Repr

namespace Commit

def payload (c : Commit) : Bytes :=
  encodeEntry c.key c.offset c.now

-- The names fit the length fields. The numbers are of the types `int32` and `int64`.
structure Valid (c : Commit) : Prop where
  group     : c.key.group.length ≤ 32767
  topic     : c.key.topic.length ≤ 32767
  partition : IsInt32 c.key.partition
  offset    : -2 ^ 63 ≤ c.offset ∧ c.offset < 2 ^ 63

instance : DecidablePred Valid := fun c =>
  decidable_of_iff (c.key.group.length ≤ 32767 ∧ c.key.topic.length ≤ 32767 ∧ IsInt32 c.key.partition ∧
      -2 ^ 63 ≤ c.offset ∧ c.offset < 2 ^ 63)
    ⟨fun h => ⟨h.left, h.right.left, h.right.right.left, h.right.right.right⟩,
      fun h => ⟨h.group, h.topic, h.partition, h.offset⟩⟩

end Commit

-- What is done with a store: a commit, of which a file operation may fail, or a restart of the broker.
inductive Op
  | commit (c : Commit) (fault : Option Storage.Fault)
  | restart

namespace Op

def commit? : Op → Option Commit
  | commit c _ => some c
  | restart    => none

def fault? : Op → Option Storage.Fault
  | commit _ fault => fault
  | restart        => none

-- A commit that fails leaves no trace, or one that does not matter.
def Harmless (s : Store) : Op → Prop
  | commit c fault => c.Valid ∧ s.log.Bears (Storage.entryHeaderSize + c.payload.length) fault
  | restart        => True

instance (s : Store) : (op : Op) → Decidable (op.Harmless s)
  | commit .. => inferInstanceAs (Decidable (_ ∧ _))
  | restart   => inferInstanceAs (Decidable True)

end Op

-- The outputs are the commits that succeed. After one that fails the store goes on.
def machine (loc : Storage.Location) : Machine Store Op Commit where
  step s
    | .commit c fault =>
      match s.commit c.now c.key c.offset fault with
      | (s', .ok ())   => some (s', [c])
      | (s', .error _) => some (s', [])
    | .restart =>
      match openStore loc s.log.close with
      | .ok s'   => some (s', [])
      | .error _ => none

-- The offset of the last commit for a key, and what `Fetch` returns without one.
def lastOffset (commits : List Commit) (key : Key) : Int :=
  (commits.reverse.find? (·.key = key)).elim (-1) (·.offset)

end Offset
