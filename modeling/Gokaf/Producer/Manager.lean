import Gokaf.Go.File
import Mathlib.Logic.Function.Basic

open Go

namespace Producer

inductive Decision
  | append
  | duplicate
  | outOfOrder
  deriving DecidableEq, Repr

structure Check where
  decision     : Decision
  cachedOffset : Int := 0
  deriving DecidableEq, Repr

structure SeqKey where
  pid       : Int
  topic     : Bytes
  partition : Int
  deriving DecidableEq, Repr

structure SeqState where
  lastSequence    : Int
  lastBaseOffset  : Int
  lastRecordCount : Int
  deriving DecidableEq, Repr

structure Manager where
  nextPID : Int
  seqs    : SeqKey → Option SeqState

namespace Manager

def new : Manager where
  nextPID := 0
  seqs _  := none

def initProducerID (m : Manager) : Manager × Int × Int :=
  let pid := int64 (m.nextPID + 1)
  ({ m with nextPID := pid }, pid, 0)

def checkSequenceLocked (m : Manager) (key : SeqKey) (baseSeq : Int) : Check :=
  match m.seqs key with
  | none => if baseSeq = 0 then { decision := .append } else { decision := .outOfOrder }
  | some state =>
    let lastBaseSeq := int32 (state.lastSequence - state.lastRecordCount + 1)
    if baseSeq = lastBaseSeq then
      { decision := .duplicate, cachedOffset := state.lastBaseOffset }
    else if baseSeq = int32 (state.lastSequence + 1) then
      { decision := .append }
    else if baseSeq ≤ state.lastSequence then
      { decision := .duplicate, cachedOffset := state.lastBaseOffset }
    else
      { decision := .outOfOrder }

def committedLocked (m : Manager) (key : SeqKey) (baseSeq recordCount baseOffset : Int) : Manager :=
  let state : SeqState := {
    lastSequence    := int32 (baseSeq + recordCount - 1)
    lastBaseOffset  := baseOffset
    lastRecordCount := recordCount
  }
  { m with seqs := Function.update m.seqs key (some state) }

def checkSequence (m : Manager) (key : SeqKey) (baseSeq _recordCount : Int) : Check :=
  m.checkSequenceLocked key baseSeq

-- The callback `appendBatch` works on the log `log`.
def appendBatch {σ : Type*} (m : Manager) (key : SeqKey) (baseSeq recordCount : Int)
    (append : σ → σ × Except IOError Int) (log : σ) : Manager × σ × Except IOError Check :=
  let check := m.checkSequenceLocked key baseSeq
  if check.decision ≠ .append then
    (m, log, .ok check)
  else
    match append log with
    | (log', .error e) => (m, log', .error e)
    | (log', .ok baseOffset) =>
      (m.committedLocked key baseSeq recordCount baseOffset, log',
        .ok { decision := .append, cachedOffset := baseOffset })

end Manager
end Producer
