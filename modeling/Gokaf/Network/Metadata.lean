import Gokaf.Machine
import Gokaf.Network.Topics

open Go Protocol Cluster

namespace Network.Metadata

-- A broker as far as its metadata is concerned, with the operations on topics that it has been asked for.
structure Broker where
  log    : Storage.Log
  topics : Topic.Registry
  tasks  : List Task

inductive Step
  | call (operation : Operation)
  | step (task : Nat) (view : View)

inductive Output
  | logged (record : Record)
  | returned (operation : Operation) (code : ErrorCode)
  deriving DecidableEq, Repr

namespace Broker

def empty : Broker where
  log    := .empty
  topics := ∅
  tasks  := []

-- The registry that a broker gets from its log when it starts.
def replay (log : Storage.Log) : Except Fault Topic.Registry :=
  (MetadataLog.replayAll log).map (·.foldl applyMetadataRecord ∅)

end Broker

-- What can be seen of a step: the record it has appended and the answer it has given.
def outputs (task task' : Task) : List Output :=
  match task.progress, task'.progress with
  | .append record _, .apply .. => [.logged record]
  | _, .done code               => [.returned task.operation code]
  | _, _                        => []

def Broker.exec (config : Config) (b : Broker) : Step → Option (Broker × List Output)
  | .call operation => some ({ b with tasks := b.tasks ++ [⟨operation, .start⟩] }, [])
  | .step i view =>
    match b.tasks[i]? with
    | none      => none
    | some task =>
      match task.step config view b.log b.topics with
      | none                      => none
      | some (log, topics, task') => some (⟨log, topics, b.tasks.set i task'⟩, outputs task task')

-- Requests are handled concurrently.
def machine (config : Config) : Machine Broker Step Output where
  step := Broker.exec config

end Network.Metadata
