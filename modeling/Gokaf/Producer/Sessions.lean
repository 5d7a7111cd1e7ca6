import Gokaf.Producer.Execution

open Go

namespace Producer.Sessions

-- The brokers with a manager each, and the producer ids that they have returned so far. A session is
-- known by its place among them.
structure State where
  managers : Int → Manager
  sessions : List Int

-- A broker is asked for a producer id, starts afresh, or gets a batch of a session as the leader of the
-- partition, with what the append to the log returns.
inductive Step
  | initProducerID (broker : Int)
  | restart (broker : Int)
  | produce (session : Nat) (leader : Int) (topic : Bytes) (partition baseSeq recordCount : Int)
      (outcome : Except IOError Int)

inductive Output
  | initialized (session : Nat) (pid : Int)
  | answered (session : Nat) (result : Except IOError Check)
  deriving DecidableEq

def State.init : State where
  managers _ := .new
  sessions   := []

def State.initProducerID (s : State) (broker : Int) : State × Int :=
  let (manager, pid, _) := (s.managers broker).initProducerID
  (⟨Function.update s.managers broker manager, s.sessions ++ [pid]⟩, pid)

def State.restart (s : State) (broker : Int) : State :=
  { s with managers := Function.update s.managers broker .new }

-- A batch with a negative producer id is none of the manager's.
def State.produce (s : State) (leader : Int) (call : Call) : State × Except IOError Check :=
  if 0 ≤ call.batch.key.pid then
    let (manager, _, result) := (s.managers leader).appendCall call []
    ({ s with managers := Function.update s.managers leader manager }, result)
  else
    (s, call.outcome.map fun offset => { decision := .append, cachedOffset := offset })

def machine : Machine State Step Output where
  step s
    | .initProducerID broker =>
      let (s', pid) := s.initProducerID broker
      some (s', [.initialized s.sessions.length pid])
    | .restart broker => some (s.restart broker, [])
    | .produce session leader topic partition baseSeq recordCount outcome =>
      s.sessions[session]?.map fun pid =>
        let (s', result) := s.produce leader ⟨⟨⟨pid, topic, partition⟩, baseSeq, recordCount⟩, outcome⟩
        (s', [.answered session result])

end Producer.Sessions
