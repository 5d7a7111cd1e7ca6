import Gokaf.Machine
import Gokaf.Storage.Execution

open Go

namespace Storage

-- What a caller does with a log while the file operations of an append may fail.
inductive Attempt
  | append (payload : Bytes) (stamp : Stamp) (fault : Option Fault)
  | read (offset maxBytes : Int)
  | reopen

-- The payload of an append is the one its callback has stamped.
inductive Outcome
  | appended (payload : Bytes) (result : Except IOError Int)
  | records (result : Except IOError (List Record))
  | opened

namespace Outcome

-- The record of a successful append, at the offset that was returned for it.
def stored? : Outcome → Option Record
  | appended payload (.ok offset) => some ⟨offset, payload⟩
  | _                             => none

end Outcome

def stored (os : List Outcome) : List Record :=
  os.filterMap Outcome.stored?

namespace Log

-- An entry of this size goes into a new segment.
def Full (l : Log) (entrySize : Nat) : Prop :=
  0 < l.active.logSize ∧ maxSegmentBytes < l.active.logSize + entrySize

instance (l : Log) (entrySize : Nat) : Decidable (l.Full entrySize) :=
  inferInstanceAs (Decidable (_ ∧ _))

-- The next entry of the active segment is listed in its index.
def IndexDue (l : Log) : Prop :=
  ¬l.active.logSize - l.active.lastIndexPos < indexIntervalBytes

instance (l : Log) : Decidable l.IndexDue :=
  inferInstanceAs (Decidable ¬_)

-- The appends that go through or leave no trace. A log file that a failed roll left behind is empty and is taken up
-- by the next roll, so nothing may be written before that; a torn index is rebuilt as long as its length gives it away.
def Bears (l : Log) (entrySize : Nat) : Option Fault → Prop
  | some (.writeLog _)   => False
  | some (.writeIndex n) =>
    l.Full entrySize ∨
      if l.IndexDue then
        n < indexEntrySize ∧ (n = 0 ∨ (l.active.indexFile.length + n) % indexEntrySize ≠ 0)
      else
        l.orphans = []
  | _                    => l.Full entrySize ∨ l.orphans = []

instance (l : Log) (entrySize : Nat) : (fault : Option Fault) → Decidable (l.Bears entrySize fault)
  | some (.writeLog _)   => inferInstanceAs (Decidable False)
  | some (.writeIndex _) => inferInstanceAs (Decidable (_ ∨ _))
  | some .sync           => inferInstanceAs (Decidable (_ ∨ _))
  | some .openLog        => inferInstanceAs (Decidable (_ ∨ _))
  | some .openIndex      => inferInstanceAs (Decidable (_ ∨ _))
  | none                 => inferInstanceAs (Decidable (_ ∨ _))

-- The log is what its successful appends have made of it, and stays that when it is closed and opened.
structure Intact (loc : Location) (l : Log) (rs : List Record) : Prop where
  numbered  : rs = recordsFrom 0 (rs.map (·.payload))
  endOffset : l.endOffset = rs.length
  read      : ∀ o m, 0 ≤ o → ∃ rs', l.read o m = .ok rs' ∧ l.ReadsAs (rs.map (·.payload)) o m rs'
  reopens   : ∃ l', loc.openLog l.close = .ok l' ∧ l'.Refines (rs.map (·.payload))

end Log

namespace Attempt

def machine (loc : Location) : Machine Log Attempt Outcome where
  step l
    | .append payload stamp fault =>
      let (l', result) := l.appendWithOffset payload stamp fault
      some (l', [.appended (stamp.run l.nextOffset payload) result])
    | .read offset maxBytes => some (l, [.records (l.read offset maxBytes)])
    | .reopen =>
      match loc.openLog l.close with
      | .error _ => none
      | .ok l'   => some (l', [.opened])

def Harmless (l : Log) : Attempt → Prop
  | append payload _ fault =>
    payload.length < 2 ^ 32 ∧ l.nextOffset + 1 < 2 ^ 63 ∧ l.Bears (entryHeaderSize + payload.length) fault
  | read ..                => True
  | reopen                 => True

instance (l : Log) : (a : Attempt) → Decidable (Harmless l a)
  | append ..  => inferInstanceAs (Decidable (_ ∧ _))
  | read ..    => inferInstanceAs (Decidable True)
  | reopen     => inferInstanceAs (Decidable True)

end Attempt
end Storage
