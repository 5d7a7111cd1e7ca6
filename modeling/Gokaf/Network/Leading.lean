import Gokaf.Network.Fetch
import Gokaf.Network.Produce
import Gokaf.Storage.Execution

open Go Protocol Replication

namespace Network

-- Where a call of `producePartition` is: in front of `WaitForHighWatermark`, parked in its select until
-- the deadline, woken up there, or about to return.
inductive Call.Phase
  | appended (timeoutMS : Int)
  | waiting (deadline : Int)
  | released (deadline : Int)
  | answering
  deriving DecidableEq, Repr

structure Call where
  id       : Nat
  batch    : Bytes
  acks     : Int
  response : ProducePartitionResponse
  phase    : Call.Phase
  deriving DecidableEq, Repr

namespace Call

-- Nothing keeps the call from answering any more.
def isPast (c : Call) : Bool :=
  match c.phase with
  | .released _ | .answering => true
  | .appended _ | .waiting _ => false

-- A call that answers for the replicas as well.
def isAcksAll (c : Call) : Bool :=
  c.acks = -1 ∧ c.response.errorCode = .none

-- A parked call wakes up if its channel is closed.
def wake (ws : List Waiter) (c : Call) : Call :=
  match c.phase with
  | .waiting deadline => if ws.any (·.id = c.id) then { c with phase := .released deadline } else c
  | _ => c

end Call

-- The state of one partition on the broker that leads it. A broker without a `PartitionState` has
-- `led = none`.
structure Leading where
  log       : Storage.Log
  producers : Producer.Manager
  led       : Option PartitionState
  calls     : List Call
  nextID    : Nat

def defaultTimeout : Int := 30 * 1000000000

namespace Leading

def new (led : Option PartitionState) : Leading where
  log       := .empty
  producers := .new
  led       := led
  calls     := []
  nextID    := 0

def setPhase (l : Leading) (id : Nat) (phase : Call.Phase) : Leading :=
  { l with calls := l.calls.map fun c => if c.id = id then { c with phase } else c }

def release (l : Leading) (ws : List Waiter) : Leading :=
  { l with calls := l.calls.map (Call.wake ws) }

-- `producePartition` up to the wait in `waitForAllAcks`.
def produce (l : Leading) (nodeID : Int) (leader : Option Int) (topicName : Bytes) (partitionIndex : Int)
    (batch : Bytes) (acks timeoutMS : Int) : Leading :=
  match producePartition Storage.Log.appendWithOffset nodeID leader topicName partitionIndex batch l.producers
      (.ok l.log) with
  | (producers, log, produced) =>
    let phase :=
      match produced with
      | .answer _         => .answering
      | .waitForAllAcks r => if acks ≠ -1 ∨ r.errorCode ≠ .none then .answering else .appended timeoutMS
    { l with
      producers
      log    := match log with | .ok log => log | .error _ => l.log
      calls  := l.calls ++ [⟨l.nextID, batch, acks, produced.response, phase⟩]
      nextID := l.nextID + 1 }

-- The offset that is cached for a batch if the broker takes it for one it has already.
def cachedOffset? (l : Leading) (topicName : Bytes) (partitionIndex : Int) (batch : Bytes) : Option Int :=
  let check := l.producers.checkSequence ⟨Batch.pid batch, topicName, partitionIndex⟩ (Batch.baseSeq batch)
    (Batch.recordCount batch)
  if 0 ≤ Batch.pid batch ∧ check.decision = .duplicate then some check.cachedOffset else none

-- The first part of `WaitForHighWatermark`, which ends with a return or in the select.
def await (l : Leading) (id : Nat) (now : Int) : Option Leading :=
  match l.calls.find? (·.id = id) with
  | none   => none
  | some c =>
    match c.phase with
    | .appended timeoutMS =>
      match l.led with
      | none    => some (l.setPhase id .answering)
      | some st =>
        let timeout := timeoutMS * 1000000
        let timeout := if timeout ≤ 0 then defaultTimeout else timeout
        match st.waitForHighWatermark id (c.response.baseOffset + 1) now with
        | (st, ws, true)  => some (({ l with led := some st }.release ws).setPhase id .answering)
        | (st, ws, false) => some (({ l with led := some st }.release ws).setPhase id (.waiting (now + timeout)))
    | _ => none

-- The timer of a parked call fires. It may win against a channel that is closed already.
def expire (l : Leading) (id : Nat) (now : Int) : Option Leading :=
  match l.calls.find? (·.id = id) with
  | none   => none
  | some c =>
    match c.phase with
    | .waiting deadline | .released deadline =>
      if deadline ≤ now then
        some { l with
          led   := l.led.map (·.removeWaiter id)
          calls := l.calls.map fun c =>
            if c.id = id then
              { c with phase := .answering, response := { c.response with errorCode := .requestTimedOut } }
            else
              c }
      else
        none
    | _ => none

-- The call returns.
def finish (l : Leading) (id : Nat) : Option (Leading × Call) :=
  match l.calls.find? (·.id = id) with
  | none   => none
  | some c => if c.isPast then some ({ l with calls := l.calls.filter (·.id ≠ id) }, c) else none

-- The state after a fetch was recorded, with the waiters it released.
def recorded (l : Leading) (led : Option PartitionState) (ws : List Waiter) : Leading :=
  { l with led }.release ws

end Leading
end Network
