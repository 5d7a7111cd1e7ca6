import Gokaf.Machine
import Gokaf.Producer.Manager

open Go

namespace Producer

structure Batch where
  key         : SeqKey
  baseSeq     : Int
  recordCount : Int
  deriving DecidableEq, Repr

-- A call of `AppendBatch` and what its callback returns. A callback that fails stores nothing.
structure Call where
  batch   : Batch
  outcome : Except IOError Int

def Call.append (call : Call) (log : List Batch) : List Batch × Except IOError Int :=
  match call.outcome with
  | .error e   => (log, .error e)
  | .ok offset => (log ++ [call.batch], .ok offset)

def Manager.appendCall (m : Manager) (call : Call) (log : List Batch) : Manager × List Batch × Except IOError Check :=
  m.appendBatch call.batch.key call.batch.baseSeq call.batch.recordCount call.append log

structure State where
  manager : Manager
  log     : List Batch

def State.init : State where
  manager := .new
  log     := []

-- The batches of a producer in a partition, in the order of the log.
def State.stored (s : State) (key : SeqKey) : List Batch :=
  s.log.filter (·.key = key)

-- The manager holds its lock for the whole of a call.
def machine : Machine State Call (Except IOError Check) where
  step s call :=
    let (manager, log, result) := s.manager.appendCall call s.log
    some (⟨manager, log⟩, [result])

end Producer
