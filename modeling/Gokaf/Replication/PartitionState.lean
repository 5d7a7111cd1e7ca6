import Gokaf.Go.Int
import Mathlib.Logic.Function.Basic

open Go

namespace Replication

-- A parked produce request. Its channel is closed when it is taken off the list with the watermark at
-- or above its target.
structure Waiter where
  id     : Nat
  target : Int
  deriving DecidableEq, Repr

-- Times and durations are in nanoseconds.
structure PartitionState where
  replicas        : List Int
  leaderID        : Int
  followerOffset  : Int → Option Int
  followerSeen    : Int → Option Int
  leaderEndOffset : Int
  highWatermark   : Int
  lagTimeout      : Int
  waiters         : List Waiter

namespace PartitionState

def followerInISR (s : PartitionState) (brokerID now : Int) : Bool :=
  match s.followerSeen brokerID with
  | none      => false
  | some seen => now - seen ≤ s.lagTimeout

def isr (s : PartitionState) (now : Int) : List Int :=
  s.leaderID :: s.replicas.filter fun brokerID => brokerID ≠ s.leaderID ∧ s.followerInISR brokerID now

-- The value that `recompute` stores: a missing key of the offset map reads as zero.
def watermark (s : PartitionState) (now : Int) : Int :=
  s.replicas.foldl (fun next brokerID =>
    if brokerID = s.leaderID then
      next
    else if ¬s.followerInISR brokerID now then
      next
    else if (s.followerOffset brokerID).getD 0 < next then
      (s.followerOffset brokerID).getD 0
    else
      next) s.leaderEndOffset

def recompute (s : PartitionState) (now : Int) : PartitionState × Bool :=
  ({ s with highWatermark := s.watermark now }, s.watermark now ≠ s.highWatermark)

-- The second component lists the waiters whose channel is closed.
def releaseWaiters (s : PartitionState) : PartitionState × List Waiter :=
  ({ s with waiters := s.waiters.filter (¬·.target ≤ s.highWatermark) },
    s.waiters.filter (·.target ≤ s.highWatermark))

def recomputeAndRelease (s : PartitionState) (now : Int) : PartitionState × List Waiter :=
  match s.recompute now with
  | (s, true)  => s.releaseWaiters
  | (s, false) => (s, [])

def removeWaiter (s : PartitionState) (id : Nat) : PartitionState :=
  { s with waiters := s.waiters.filter (·.id ≠ id) }

def new (replicas : List Int) (leaderID lagTimeout now : Int) : PartitionState :=
  let isFollower brokerID := brokerID ∈ replicas ∧ brokerID ≠ leaderID
  let state : PartitionState := {
    replicas, leaderID, lagTimeout
    followerOffset brokerID := if isFollower brokerID then some 0 else none
    followerSeen brokerID   := if isFollower brokerID then some now else none
    leaderEndOffset := 0
    highWatermark   := 0
    waiters         := []
  }
  (state.recompute now).fst

def recordFollowerFetch (s : PartitionState) (brokerID fetchOffset leaderEndOffset now : Int) :
    PartitionState × List Waiter :=
  recomputeAndRelease { s with
    followerOffset := Function.update s.followerOffset brokerID (some fetchOffset)
    followerSeen := Function.update s.followerSeen brokerID (some now)
    leaderEndOffset } now

-- The first part of `WaitForHighWatermark`, under the lock. It ends with the target reached, or with
-- a new waiter under `id`.
def waitForHighWatermark (s : PartitionState) (id : Nat) (target now : Int) :
    PartitionState × List Waiter × Bool :=
  let s := if s.leaderEndOffset < target then { s with leaderEndOffset := target } else s
  match s.recomputeAndRelease now with
  | (s, released) =>
    if target ≤ s.highWatermark then
      (s, released, true)
    else
      ({ s with waiters := s.waiters ++ [⟨id, target⟩] }, released, false)

-- `HighWatermark` with the end offset it is given; the result is the new `highWatermark`.
def updateHighWatermark (s : PartitionState) (leaderEndOffset now : Int) : PartitionState × List Waiter :=
  recomputeAndRelease { s with leaderEndOffset } now

end PartitionState
end Replication
