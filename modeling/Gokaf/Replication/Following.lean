import Gokaf.Machine
import Gokaf.Network.Consumer
import Gokaf.Replication.Fetcher

open Go Protocol

namespace Replication

-- A partition with one leader, seen from one of its followers.
structure Partition where
  topicName  : Bytes
  index      : Int
  followerID : Int
  -- The name came in with a 16-bit length.
  short      : topicName.length < 2 ^ 15

namespace Following

-- Where a fetcher is in its loop: in the select of `run`, behind the request of `fetchOnce`, in its
-- loop over the batches, or gone.
inductive Phase
  | waiting
  | fetching (offset : Int)
  | appending (batches : List Bytes)
  | exited
  deriving DecidableEq, Repr

namespace Phase

def ofBatches : List Bytes → Phase
  | []      => waiting
  | batches => appending batches

def inFlight : Phase → Bool
  | fetching _ | appending _ => true
  | waiting | exited         => false

end Phase

structure Fetcher where
  cancelled : Bool
  phase     : Phase

-- `fetchers` has all fetchers ever started, `current` is the one that the manager's map knows.
structure State where
  leader   : Storage.Log
  led      : Option PartitionState
  follower : Storage.Log
  fetchers : List Fetcher
  current  : Option Nat

namespace State

def init (led : Option PartitionState) : State where
  leader   := .empty
  led      := led
  follower := .empty
  fetchers := []
  current  := none

def phase? (s : State) (i : Nat) : Option Phase :=
  s.fetchers[i]?.map (·.phase)

def setPhase (s : State) (i : Nat) (phase : Phase) : State :=
  { s with fetchers := s.fetchers.modify i fun f => { f with phase } }

def stopFollowing (s : State) : State :=
  match s.current with
  | none   => s
  | some i => { s with
      current := none
      fetchers := s.fetchers.modify i fun f => { f with cancelled := true } }

def startFollowing (s : State) : State :=
  match s.current with
  | some _ => s
  | none   => { s with
      current := some s.fetchers.length
      fetchers := s.fetchers ++ [⟨false, .waiting⟩] }

end State

inductive Step
  | leaderAppend (batch : Bytes)
  | stopFollowing
  | startFollowing
  -- A fetcher reads the end of its log and sends its request. It may be a cancelled one whose ticker
  -- fired in time.
  | fetch (i : Nat)
  | answer (i : Nat) (now : Int)
  | append (i : Nat)
  -- The round ends with an error.
  | abandon (i : Nat)
  | exit (i : Nat)

-- The leader's log takes only framed batches, of the size that a request can carry.
def machine (p : Partition) : Machine State Step Unit where
  step s
    | .leaderAppend batch =>
      if Framed batch ∧ batch.length < 2 ^ 31 then
        some ({ s with leader := (s.leader.appendWithOffset batch Network.Batch.stamp).fst }, [])
      else
        none
    | .stopFollowing => some (s.stopFollowing, [])
    | .startFollowing => some (s.startFollowing, [])
    | .fetch i =>
      match s.phase? i with
      | some .waiting => some (s.setPhase i (.fetching s.follower.endOffset), [])
      | _ => none
    | .answer i now =>
      match s.phase? i with
      | some (.fetching offset) =>
        match Network.fetchPartition Network.storageLog true (.ok s.leader) s.led p.followerID p.index offset
            fetchMaxBytes now with
        | (led, _, response) =>
          let batches := batchesOf (Network.writeFetchResponse [⟨p.topicName, [response]⟩])
          some ({ s with led }.setPhase i (.ofBatches batches), [])
      | _ => none
    | .append i =>
      match s.phase? i with
      | some (.appending (batch :: batches)) =>
        match s.follower.append batch with
        | (follower, .ok _)    => some ({ s with follower }.setPhase i (.ofBatches batches), [])
        | (follower, .error _) => some ({ s with follower }.setPhase i .waiting, [])
      | _ => none
    | .abandon i =>
      match s.phase? i with
      | some (.fetching _) | some (.appending _) => some (s.setPhase i .waiting, [])
      | _ => none
    | .exit i =>
      match s.fetchers[i]? with
      | some ⟨true, .waiting⟩ => some (s.setPhase i .exited, [])
      | _ => none

-- The follower's log is a prefix of the leader's, entry by entry.
def State.InSync (s : State) : Prop :=
  ∃ L F, s.leader.Refines L ∧ s.follower.Refines F ∧ F <+: L

-- No round starts while another one is under way.
def OneRound (s : State) : Step → Prop
  | .fetch _ => ∀ f ∈ s.fetchers, f.phase.inFlight = false
  | _        => True

instance (s : State) : DecidablePred (OneRound s) := fun _ => by
  unfold OneRound
  split <;> infer_instance

end Following
end Replication
