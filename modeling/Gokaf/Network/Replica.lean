import Gokaf.Network.Handlers
import Gokaf.Replication.Fetcher
import Gokaf.Storage.Layout

open Go Protocol Replication

namespace Network

-- What a fetcher is started with, its leader and its log apart.
structure Fetcher where
  topic     : Bytes
  partition : Int
  selfID    : Int
  maxBytes  : Int

-- An entry that has its own length in the field of a batch for it.
structure Delimited (p : Bytes) : Prop where
  le_length   : 12 ≤ p.length
  length_lt   : p.length < 2 ^ 31
  batchLength : BigEndian.uint (slice p 8 12) = p.length - 12

instance : DecidablePred Delimited := fun p =>
  decidable_of_iff (12 ≤ p.length ∧ p.length < 2 ^ 31 ∧ BigEndian.uint (slice p 8 12) = p.length - 12)
    ⟨fun h => ⟨h.left, h.right.left, h.right.right⟩, fun h => ⟨h.le_length, h.length_lt, h.batchLength⟩⟩

namespace Fetcher

-- What becomes of the leader's answer, with the leader after it.
def receive (localLog : Storage.Log) : Except Fault (Bytes × Bytes) × Handling → Broker × Storage.Log
  | (.error _, s)      => (s.broker, localLog)
  | (.ok (resp, _), s) => (s.broker, appendAll localLog (batchesOf resp))

-- One round of a fetcher that is neither paused nor slowed down, with the leader's answer arriving as it was sent.
def fetchOnce (f : Fetcher) (env : Env) (leader : Broker) (localLog : Storage.Log) : Broker × Storage.Log :=
  receive localLog ((handleFetch fun _ => env).exec
    (buildFetchRequest f.selfID f.topic f.partition localLog.endOffset f.maxBytes) ⟨leader, 0⟩)

-- Rounds one after the other, each in an environment of its own.
def fetchAll (f : Fetcher) (leader : Broker) (localLog : Storage.Log) (envs : List Env) : Broker × Storage.Log :=
  envs.foldl (fun s env => f.fetchOnce env s.fst s.snd) (leader, localLog)

-- The broker has the partition, and `l` is its log.
structure Leads (f : Fetcher) (leader : Broker) (l : Storage.Log) : Prop where
  known : (leader.partition? f.topic f.partition).isSome
  log   : (leader.logs.log f.topic f.partition).snd = .ok l

end Fetcher
end Network
