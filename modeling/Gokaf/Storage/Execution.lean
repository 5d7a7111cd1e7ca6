import Gokaf.Storage.Contents
import Mathlib.Data.Nat.Find

open Go

namespace Storage

-- A partition log at the level of its payloads: the offset of an entry is its place in the list. An
-- append that fails leaves nothing behind.
def listAppend (fails : Bool) (L : List Bytes) (payload : Bytes) (stamp : Stamp) :
    List Bytes × Except IOError Int :=
  if fails then (L, .error .failed) else (L ++ [stamp.run L.length payload], .ok L.length)

-- What a caller does with a log.
inductive Op
  | append (payload : Bytes) (stamp : Stamp)
  | read (offset maxBytes : Int)
  | reopen

inductive Answer
  | offset (o : Int)
  | records (rs : List Record)
  | opened
  deriving DecidableEq, Repr

namespace Answer

def offset? : Answer → Option Int
  | offset o => some o
  | _        => none

end Answer

namespace Op

def exec (loc : Location) (l : Log) : Op → Except IOError (Log × Answer)
  | append payload stamp =>
    match l.appendWithOffset payload stamp with
    | (l', .ok o)   => .ok (l', .offset o)
    | (_, .error e) => .error e
  | read offset maxBytes =>
    match l.read offset maxBytes with
    | .ok rs   => .ok (l, .records rs)
    | .error e => .error e
  | reopen =>
    match loc.openLog l.close with
    | .ok l'   => .ok (l', .opened)
    | .error e => .error e

-- The same operation on an append-only list.
def apply (L : List Bytes) : Op → List Bytes
  | append payload stamp => (listAppend false L payload stamp).fst
  | read ..              => L
  | reopen               => L

-- The length field of an entry header has 32 bits.
def Valid : Op → Prop
  | append payload _ => payload.length < 2 ^ 32
  | read ..          => True
  | reopen           => True

def isAppend : Op → Bool
  | append .. => true
  | read ..   => false
  | reopen    => false

end Op

def exec (loc : Location) (l : Log) : List Op → Except IOError (Log × List Answer)
  | [] => .ok (l, [])
  | op :: ops =>
    match op.exec loc l with
    | .error e => .error e
    | .ok (l', a) =>
      match exec loc l' ops with
      | .error e      => .error e
      | .ok (l'', as) => .ok (l'', a :: as)

def appended (L : List Bytes) (ops : List Op) : List Bytes :=
  ops.foldl Op.apply L

namespace Log

-- A reader that repeats `read` behind the last record it got until it gets nothing.
def readAll (l : Log) (maxBytes : Int → Int) : Nat → Int → Except IOError (List Record)
  | 0, _ => .error .failed
  | fuel + 1, offset =>
    match l.read offset (maxBytes offset) with
    | .error e => .error e
    | .ok rs =>
      match rs.getLast? with
      | none => .ok []
      | some r =>
        match l.readAll maxBytes fuel (r.offset + 1) with
        | .error e => .error e
        | .ok rs'  => .ok (rs ++ rs')

def entries (l : Log) : Except IOError (List Bytes) :=
  (l.readAll (fun _ => 0) (l.endOffset.toNat + 1) 0).map (List.map (·.payload))

-- To its callers the log is the append-only list `L`.
structure Refines (l : Log) (L : List Bytes) : Prop where
  endOffset   : l.endOffset = L.length
  startOffset : l.startOffset = 0
  read        : ∀ o m, 0 ≤ o → o < 2 ^ 63 → ∃ rs, l.read o m = .ok rs ∧ l.ReadsAs L o m rs
  readAll     : ∀ maxBytes fuel, L.length < fuel → l.readAll maxBytes fuel 0 = .ok (recordsFrom 0 L)

-- The directory after a crash that left `n` bytes of the last segment's log file and `m` bytes of its
-- index file.
def crash (l : Log) (n m : Nat) : Dir :=
  l.sealed.map Segment.files ++
    ⟨l.active.baseOffset, l.active.logFile.take n, some (l.active.indexFile.take m)⟩ :: l.orphans

end Log

-- The longest part of the records `L` whose bytes are wholly on disk, when the last segment starts
-- with record `base` and `n` bytes of its log file are left.
def survivors (L : List Bytes) (base n : Nat) : List Bytes :=
  L.take (Nat.findGreatest (fun k => entriesSize ((L.take k).drop base) ≤ n) L.length)

inductive Event
  | op (op : Op)
  | crash (logBytes indexBytes : Nat)

namespace Event

def Valid : Event → Prop
  | op o     => o.Valid
  | crash .. => True

def isAppend : Event → Bool
  | op o     => o.isAppend
  | crash .. => false

end Event

-- A history of a log with the records it ought to hold at its end.
def replay (loc : Location) (l : Log) (L : List Bytes) : List Event → Except IOError (Log × List Bytes)
  | [] => .ok (l, L)
  | .op o :: es =>
    match o.exec loc l with
    | .error e    => .error e
    | .ok (l', _) => replay loc l' (o.apply L) es
  | .crash n m :: es =>
    match loc.openLog (l.crash n m) with
    | .error e => .error e
    | .ok l'   => replay loc l' (survivors L l.active.baseOffset.toNat n) es

end Storage
