import Gokaf.Machine
import Gokaf.Replication.PartitionState

open Go

namespace Replication

-- `ISR`, with what it does to the state.
def PartitionState.recomputedISR (s : PartitionState) (now : Int) : PartitionState × List Int :=
  ((s.recompute now).fst, (s.recompute now).fst.isr now)

-- A partition state with the clock. The calls that have been parked are numbered.
structure Tracking where
  now    : Int
  state  : PartitionState
  nextID : Nat

namespace Tracking

inductive Step
  | recordFollowerFetch (brokerID fetchOffset leaderEndOffset : Int)
  | waitForHighWatermark (target : Int)
  | highWatermark (leaderEndOffset : Int)
  | isr
  | timeout (id : Nat)
  | tick (d : Nat)
  deriving DecidableEq, Repr

-- A call of `WaitForHighWatermark` returns nil at once, or its channel is closed.
inductive Output
  | returned (target : Int)
  | closed (w : Waiter)
  deriving DecidableEq, Repr

namespace Output

def target : Output → Int
  | returned target => target
  | closed w        => w.target

def closedID? : Output → Option Nat
  | returned _ => none
  | closed w   => some w.id

end Output

def new (replicas : List Int) (leaderID lagTimeout now : Int) : Tracking where
  now    := now
  state  := .new replicas leaderID lagTimeout now
  nextID := 0

-- The timer of a call may fire at any time, also when its channel has been closed.
def machine : Machine Tracking Step Output where
  step s
    | .recordFollowerFetch brokerID fetchOffset leaderEndOffset =>
      let (state, released) := s.state.recordFollowerFetch brokerID fetchOffset leaderEndOffset s.now
      some ({ s with state }, released.map .closed)
    | .waitForHighWatermark target =>
      let (state, released, returns) := s.state.waitForHighWatermark s.nextID target s.now
      some ({ s with state, nextID := s.nextID + 1 },
        released.map .closed ++ if returns then [.returned target] else [])
    | .highWatermark leaderEndOffset =>
      let (state, released) := s.state.updateHighWatermark leaderEndOffset s.now
      some ({ s with state }, released.map .closed)
    | .isr        => some ({ s with state := (s.state.recomputedISR s.now).fst }, [])
    | .timeout id => some ({ s with state := s.state.removeWaiter id }, [])
    | .tick d     => some ({ s with now := s.now + d }, [])

def Step.recomputes : Step → Bool
  | recordFollowerFetch .. | waitForHighWatermark _ | highWatermark _ | isr => true
  | timeout _ | tick _ => false

-- The offset that a broker has asked for last, from the one before.
def Step.fetchOffset (b offset : Int) : Step → Int
  | recordFollowerFetch brokerID fetchOffset _ => if brokerID = b then fetchOffset else offset
  | _ => offset

-- Zero if it has not asked yet.
def lastFetch (as : List Step) (b : Int) : Int :=
  as.foldl (fun offset a => a.fetchOffset b offset) 0

end Tracking
end Replication
