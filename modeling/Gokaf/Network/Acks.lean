import Gokaf.Machine
import Gokaf.Network.Consumer
import Gokaf.Network.Leading
import Gokaf.Replication.Fetcher
import Gokaf.Replication.Manager

open Go Protocol Replication

namespace Network

-- One leader of a partition with its followers.
namespace Acking

structure Setup where
  nodeID         : Int
  topicName      : Bytes
  partitionIndex : Int
  replicas       : List Int

-- A fetch request on the leader. `recorded` says whether it is behind `RecordFollowerFetch`.
structure Fetch where
  replicaID   : Int
  fetchOffset : Int
  endOffset   : Int
  recorded    : Bool

structure State where
  now       : Int
  leader    : Leading
  followers : Int → Storage.Log
  fetches   : List Fetch

-- Every step is one critical section of a call, or the clock.
inductive Step
  | produce (batch : Bytes) (acks timeoutMS : Int)
  | await (id : Nat)
  | expire (id : Nat)
  | finish (id : Nat)
  | fetch (replicaID : Int)
  | consume (offset : Int)
  | recordFollowerFetch (i : Nat)
  | highWatermark (i : Nat)
  | tick (d : Nat)

-- A call that returned, with the leader's state at that moment.
structure Answer where
  call : Call
  led  : Option PartitionState
  now  : Int

def State.init (p : Setup) (now : Int) : State where
  now         := now
  leader      := .new (some (.new p.replicas p.nodeID lagTimeout now))
  followers _ := .empty
  fetches     := []

def machine (p : Setup) : Machine State Step Answer where
  step s
    | .produce batch acks timeoutMS =>
      some ({ s with
        leader := s.leader.produce p.nodeID (some p.nodeID) p.topicName p.partitionIndex batch acks timeoutMS }, [])
    | .await id => (s.leader.await id s.now).map fun leader => ({ s with leader }, [])
    | .expire id => (s.leader.expire id s.now).map fun leader => ({ s with leader }, [])
    | .finish id =>
      (s.leader.finish id).map fun (leader, call) => ({ s with leader }, [⟨call, leader.led, s.now⟩])
    | .fetch replicaID =>
      let fetch : Fetch := {
        replicaID
        fetchOffset := (s.followers replicaID).endOffset
        endOffset   := s.leader.log.endOffset
        recorded    := replicaID < 0
      }
      some ({ s with fetches := s.fetches ++ [fetch] }, [])
    | .consume offset =>
      let fetch : Fetch := {
        replicaID   := -1
        fetchOffset := offset
        endOffset   := s.leader.log.endOffset
        recorded    := true
      }
      some ({ s with fetches := s.fetches ++ [fetch] }, [])
    | .recordFollowerFetch i =>
      match s.fetches[i]?, s.leader.led with
      | some fetch, some st =>
        if fetch.recorded then
          none
        else
          match st.recordFollowerFetch fetch.replicaID fetch.fetchOffset fetch.endOffset s.now with
          | (st, ws) =>
            some ({ s with
              leader  := s.leader.recorded (some st) ws
              fetches := s.fetches.set i { fetch with recorded := true } }, [])
      | _, _ => none
    | .highWatermark i =>
      match s.fetches[i]?, s.leader.led with
      | some fetch, some st =>
        if ¬fetch.recorded then
          none
        else
          match st.updateHighWatermark fetch.endOffset s.now with
          | (st, ws) =>
            let response := answerFetch storageLog s.leader.log p.partitionIndex fetch.endOffset
              st.highWatermark fetch.fetchOffset fetchMaxBytes
            let batches := batchesOf (writeFetchResponse [⟨p.topicName, [response]⟩])
            some ({ s with
              leader    := s.leader.recorded (some st) ws
              followers :=
                if 0 ≤ fetch.replicaID then
                  Function.update s.followers fetch.replicaID (appendAll (s.followers fetch.replicaID) batches)
                else
                  s.followers
              fetches   := s.fetches.eraseIdx i }, [])
      | _, _ => none
    | .tick d => some ({ s with now := s.now + d }, [])

-- An acknowledgement for all replicas comes with the watermark above it, so every follower in the ISR
-- has asked for what is behind it.
def Answer.IsReplicated (a : Answer) : Prop :=
  a.call.acks = -1 → a.call.response.errorCode = .none →
    ∃ st, a.led = some st ∧ a.call.response.baseOffset < st.highWatermark ∧
      ∀ b ∈ st.isr a.now, b ≠ st.leaderID → a.call.response.baseOffset + 1 ≤ (st.followerOffset b).getD 0

-- All calls that may answer for the replicas at any time are about offsets below `bound`.
def State.Settled (s : State) (bound : Int) : Prop :=
  ∀ c ∈ s.leader.calls, c.isAcksAll → c.isPast → c.response.baseOffset < bound

-- A copy of a batch comes in only when the batch is below the watermark, and no fetch from behind is
-- recorded between the release of a call and its return.
def Orderly (p : Setup) (s : State) : Step → Prop
  | .produce batch acks _ =>
    acks = -1 → ∀ o ∈ s.leader.cachedOffset? p.topicName p.partitionIndex batch,
      ∀ st ∈ s.leader.led, o < st.highWatermark
  | .recordFollowerFetch i =>
    ∀ fetch ∈ s.fetches[i]?, s.Settled fetch.fetchOffset ∧ s.Settled fetch.endOffset
  | .highWatermark i => ∀ fetch ∈ s.fetches[i]?, s.Settled fetch.endOffset
  | _ => True

instance (s : State) (bound : Int) : Decidable (s.Settled bound) :=
  inferInstanceAs (Decidable (∀ c ∈ s.leader.calls, c.isAcksAll → c.isPast → c.response.baseOffset < bound))

instance (p : Setup) (s : State) : DecidablePred (Orderly p s) := fun _ => by
  unfold Orderly
  split <;> infer_instance

end Acking
end Network
