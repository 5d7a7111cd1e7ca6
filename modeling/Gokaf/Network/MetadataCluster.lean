import Gokaf.Cluster.MetadataFollower
import Gokaf.Network.Metadata

open Go Protocol Cluster

-- The brokers of a cluster as far as their metadata is concerned.
namespace Network.MetadataCluster

-- A broker with its metadata follower. Of a broker that does not run only the log is left.
structure Process extends Metadata.Broker where
  round   : Round
  running : Bool

structure State where
  processes : Int → Process

inductive Step
  | topics (broker : Int) (step : Metadata.Step)
  -- The follower takes the given broker for the controller.
  | fetch (follower controller : Int)
  | serve (follower : Int)
  | lose (follower : Int)
  | receive (follower : Int)
  | apply (follower : Int)
  | stop (broker : Int)
  | start (broker : Int)

namespace Process

def new (running : Bool) : Process :=
  { Metadata.Broker.empty with round := .idle, running }

def stop (p : Process) : Process :=
  { log := p.log, topics := ∅, tasks := [], round := .idle, running := false }

-- A broker that cannot open or read its log ends at once.
def start (dir : Storage.Location) (p : Process) : Process :=
  match dir.openLog p.log.close with
  | .error _ => p
  | .ok log  =>
    match Metadata.Broker.replay log with
    | .error _   => { p with log }
    | .ok topics => { log, topics, tasks := [], round := .idle, running := true }

-- A call that waits for an answer of a broker that has stopped fails.
def disconnect (p : Process) (broker : Int) : Process :=
  match p.round with
  | .asking controller _ _ => if controller = broker then { p with round := .idle } else p
  | _                      => p

end Process

namespace State

def init (cluster : Membership) : State where
  processes b := .new (b ∈ cluster.ids)

def set (s : State) (b : Int) (p : Process) : State where
  processes := Function.update s.processes b p

def stop (s : State) (b : Int) : State where
  processes := Function.update (fun b' => (s.processes b').disconnect b) b (s.processes b).stop

end State

-- The brokers have their metadata logs in the directories `dirs`.
def machine (cluster : Membership) (dirs : Int → Storage.Location) : Machine State Step Unit where
  step s
    | .topics b step =>
      let p := s.processes b
      if p.running then
        (p.exec ⟨b, cluster⟩ step).map fun (broker, _) => (s.set b { p with toBroker := broker }, [])
      else
        none
    | .fetch b controller =>
      let p := s.processes b
      if p.running ∧ p.round = .idle ∧ controller ≠ b ∧ (s.processes controller).running then
        some (s.set b { p with round := .asking controller p.log.endOffset [] }, [])
      else
        none
    | .serve b =>
      let p := s.processes b
      match p.round with
      | .asking controller next payloads =>
        let round := Round.serve (s.processes controller).log controller next payloads
        some (s.set b { p with round }, [])
      | _ => none
    | .lose b =>
      let p := s.processes b
      match p.round with
      | .asking .. => some (s.set b { p with round := .idle }, [])
      | _          => none
    | .receive b =>
      let p := s.processes b
      match p.round with
      | .reading count rest =>
        let (log, round) := Round.receive p.log count rest
        some (s.set b { p with log, round }, [])
      | _ => none
    | .apply b =>
      let p := s.processes b
      match p.round with
      | .applying payload count rest =>
        match decodeMetadataRecord (payload.getD []) with
        | .ok record =>
          let topics := applyMetadataRecord p.topics record
          some (s.set b { p with topics, round := .reading count rest }, [])
        -- A panic takes the whole broker down.
        | .error (.panic _) => some (s.stop b, [])
        | .error _          => some (s.set b { p with round := .idle }, [])
      | _ => none
    | .stop b => if (s.processes b).running then some (s.stop b, []) else none
    | .start b =>
      if b ∈ cluster.ids ∧ ¬(s.processes b).running then
        some (s.set b ((s.processes b).start (dirs b)), [])
      else
        none

end Network.MetadataCluster
