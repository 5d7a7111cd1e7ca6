import Gokaf.Network.Failover
import Gokaf.Network.Leading
import Gokaf.Replication.Following
import Gokaf.Replication.Manager

open Go Protocol Replication

namespace Network

-- The brokers of a cluster as far as one partition is concerned.
namespace Cluster

-- A partition as `CreateTopics` makes it, and where each broker keeps its log.
structure Setup where
  topicName  : Bytes
  partition  : Topic.Partition
  location   : Int → Storage.Location
  short      : topicName.length < 2 ^ 15
  leader_mem : partition.leader ∈ partition.isr
  isr_subset : partition.isr ⊆ partition.replicas
  ordinary   : ∀ b, Storage.Ordinary (location b).dir

-- A fetcher and the broker that it asks.
structure Fetcher where
  source    : Int
  cancelled : Bool
  phase     : Following.Phase

-- `view` is the entry of the broker's own registry, `source` that of the replication manager's fetchers.
-- `fetchers` has all that were ever started in this process.
structure Node where
  alive    : Bool
  view     : Topic.Partition
  leading  : Leading
  source   : Option Int
  fetchers : List Fetcher

-- `registry` is the entry of the controller's registry, which all others learn from.
structure State where
  now      : Int
  registry : Topic.Partition
  nodes    : Int → Node

inductive Step
  | produce (b : Int) (batch : Bytes) (acks timeoutMS : Int)
  | await (b : Int) (id : Nat)
  | expire (b : Int) (id : Nat)
  | finish (b : Int) (id : Nat)
  -- A fetcher starts a round. It may be a cancelled one whose ticker fired in time.
  | fetch (b : Int) (i : Nat)
  -- The broker that it asks answers.
  | answer (b : Int) (i : Nat)
  -- It appends the next of the batches that it got.
  | append (b : Int) (i : Nat)
  -- The round ends early.
  | abandon (b : Int) (i : Nat)
  -- A cancelled fetcher returns.
  | exit (b : Int) (i : Nat)
  | consume (b offset : Int)
  | tick (d : Nat)
  | crash (b : Int)
  -- The controller's `OnPeerDown`, with the brokers it believes to be alive.
  | peerDown (deadID : Int) (live : List Int)
  -- The two parts of `applyTopic` on a broker that learns of the controller's decision.
  | upsert (b : Int)
  | startFollowing (b : Int)
  -- A crashed broker starts again with what is left of its files. It is not the leader any more.
  | restart (b : Int) (logBytes indexBytes : Nat)

-- What can be seen from outside: answers to produce requests, and answers to fetches of followers with
-- the two logs at that moment.
inductive Output
  | produced (call : Call)
  | fetched (byLeader : Bool) (fetchOffset : Int) (errorCode : ErrorCode) (leader follower : Storage.Log)

namespace Node

def replica (n : Node) : Replica where
  led    := n.leading.led
  source := n.source

def setReplica (n : Node) (r : Replica) : Node :=
  { n with leading := { n.leading with led := r.led }, source := r.source }

-- As in `applyTopic`: the old fetcher is cancelled, but nobody waits for its round.
def startFollowing (n : Node) (selfID now : Int) : Node :=
  let r := n.replica.stopFollowing.startFollowing selfID now n.view
  { n.setReplica r with
    fetchers := n.fetchers.map (fun f => { f with cancelled := true }) ++
      r.source.toList.map (fun source => ⟨source, false, .waiting⟩) }

def setPhase (n : Node) (i : Nat) (phase : Following.Phase) : Node :=
  { n with fetchers := n.fetchers.modify i fun f => { f with phase } }

-- A new process on the given log.
def boot (selfID now : Int) (view : Topic.Partition) (log : Storage.Log) : Node :=
  startFollowing {
    alive    := true
    view     := view
    leading  := { Leading.new none with log }
    source   := none
    fetchers := []
  } selfID now

-- Only the files survive.
def crash (n : Node) : Node :=
  { n with
    alive    := false
    leading  := { Leading.new none with log := n.leading.log }
    source   := none
    fetchers := [] }

end Node

namespace State

def init (p : Setup) (now : Int) : State where
  now      := now
  registry := p.partition
  nodes b  := .boot b now p.partition .empty

def setNode (s : State) (b : Int) (n : Node) : State :=
  { s with nodes := Function.update s.nodes b n }

def log (s : State) (b : Int) : Storage.Log :=
  (s.nodes b).leading.log

end State

def machine (p : Setup) : Machine State Step Output where
  step s
    | .produce b batch acks timeoutMS =>
      let n := s.nodes b
      -- The batch came in with a 32-bit length.
      if n.alive ∧ batch.length < 2 ^ 31 then
        let leading :=
          n.leading.produce b (some n.view.leader) p.topicName p.partition.id batch acks timeoutMS
        some (s.setNode b { n with leading }, [])
      else
        none
    | .await b id => ((s.nodes b).leading.await id s.now).map fun leading =>
        (s.setNode b { s.nodes b with leading }, [])
    | .expire b id => ((s.nodes b).leading.expire id s.now).map fun leading =>
        (s.setNode b { s.nodes b with leading }, [])
    | .finish b id => ((s.nodes b).leading.finish id).map fun (leading, call) =>
        (s.setNode b { s.nodes b with leading }, [.produced call])
    | .fetch b i =>
      match (s.nodes b).fetchers[i]? with
      | some ⟨_, _, .waiting⟩ =>
        some (s.setNode b ((s.nodes b).setPhase i (.fetching (s.log b).endOffset)), [])
      | _ => none
    | .answer b i =>
      match (s.nodes b).fetchers[i]? with
      | some ⟨source, _, .fetching fetchOffset⟩ =>
        let leader := s.nodes source
        if leader.alive then
          match fetchPartition storageLog true (.ok leader.leading.log) leader.leading.led b p.partition.id
              fetchOffset fetchMaxBytes s.now with
          | (led, ws, response) =>
            let batches := batchesOf (writeFetchResponse [⟨p.topicName, [response]⟩])
            let s' := s.setNode source { leader with leading := leader.leading.recorded led ws }
            some (s'.setNode b ((s'.nodes b).setPhase i (.ofBatches batches)),
              [.fetched (source = s.registry.leader) fetchOffset response.errorCode (s.log source) (s.log b)])
        else
          none
      | _ => none
    | .append b i =>
      match (s.nodes b).fetchers[i]? with
      | some ⟨_, _, .appending (batch :: batches)⟩ =>
        let n := s.nodes b
        match n.leading.log.append batch with
        | (log, .ok _) =>
          some (s.setNode b (Node.setPhase { n with leading := { n.leading with log } } i (.ofBatches batches)), [])
        | (log, .error _) =>
          some (s.setNode b (Node.setPhase { n with leading := { n.leading with log } } i .waiting), [])
      | _ => none
    | .abandon b i =>
      match (s.nodes b).fetchers[i]? with
      | some ⟨_, _, .fetching _⟩ | some ⟨_, _, .appending _⟩ =>
        some (s.setNode b ((s.nodes b).setPhase i .waiting), [])
      | _ => none
    | .exit b i =>
      match (s.nodes b).fetchers[i]? with
      | some ⟨_, true, .waiting⟩ => some (s.setNode b ((s.nodes b).setPhase i .exited), [])
      | _ => none
    | .consume b offset =>
      let n := s.nodes b
      if n.alive then
        match fetchPartition storageLog true (.ok n.leading.log) n.leading.led (-1) p.partition.id offset
            fetchMaxBytes s.now with
        | (led, ws, _) => some (s.setNode b { n with leading := n.leading.recorded led ws }, [])
      else
        none
    | .tick d => some ({ s with now := s.now + d }, [])
    | .crash b => some (s.setNode b (s.nodes b).crash, [])
    | .peerDown deadID live =>
      if (s.nodes deadID).alive then
        none
      else
        some ({ s with registry := (reassign (· ∈ live) deadID s.registry).getD s.registry }, [])
    | .upsert b =>
      if (s.nodes b).alive then some (s.setNode b { s.nodes b with view := s.registry }, []) else none
    | .startFollowing b =>
      if (s.nodes b).alive then some (s.setNode b ((s.nodes b).startFollowing b s.now), []) else none
    | .restart b logBytes indexBytes =>
      if (s.nodes b).alive ∨ s.registry.leader = b then
        none
      else
        match (p.location b).openLog ((s.log b).crash logBytes indexBytes) with
        | .error _ => none
        | .ok log  => some (s.setNode b (.boot b s.now s.registry log), [])

end Cluster
end Network
