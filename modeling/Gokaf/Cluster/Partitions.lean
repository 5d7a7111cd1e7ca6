import Gokaf.Cluster.Election

-- The election of a controller on a network that may split, with brokers that come back and brokers that are told to
-- drop pings.
namespace Cluster.Partitions

open Election (Output)

-- `links b id` says whether broker `b` can connect to `id`, `dropPings` is the switch of each broker's `faults.Config`.
structure State where
  election  : Election.State
  links     : Int → Int → Bool
  dropPings : Int → Bool

inductive Step
  | crash (b : Int)
  | restart (b : Int)
  | setLink (b id : Int) (up : Bool)
  | setDropPings (b : Int) (v : Bool)
  | ping (b id : Int)
  | record (b : Int)
  deriving DecidableEq, Repr

namespace Step

-- A step of a monitor.
def IsMonitor : Step → Prop
  | ping .. | record _                                 => True
  | crash _ | restart _ | setLink .. | setDropPings .. => False

instance : DecidablePred IsMonitor := fun _ => by
  unfold IsMonitor
  split <;> infer_instance

end Step

namespace State

def init (cluster : Membership) (failAfter : Int → Int) : State where
  election    := .init cluster failAfter
  links _ _   := true
  dropPings _ := false

def node (s : State) (b : Int) : Election.Node :=
  s.election.nodes b

def setNode (s : State) (b : Int) (node : Election.Node) : State :=
  { s with election := s.election.set b node }

-- What a ping of `b` to `id` comes to: no connection without a link or a process at the other end, and a ping that
-- is dropped ends the connection without a response.
def answers (s : State) (b id : Int) : Bool :=
  s.links b id ∧ ¬(s.node id).crashed ∧ ¬s.dropPings id

end State

-- A broker that starts again has a new monitor and no faults.
def machine (cluster : Membership) (failAfter : Int → Int) : Machine State Step Output where
  step s
    | .crash b =>
      ((Election.machine cluster).step s.election (.crash b)).map fun r => ({ s with election := r.fst }, r.snd)
    | .restart b =>
      if (s.node b).crashed then
        let s' := s.setNode b ((Election.State.init cluster failAfter).nodes b)
        some ({ s' with dropPings := Function.update s.dropPings b false }, [])
      else
        none
    | .setLink b id up =>
      some ({ s with links := Function.update s.links b (Function.update (s.links b) id up) }, [])
    | .setDropPings b v =>
      if (s.node b).crashed then none else some ({ s with dropPings := Function.update s.dropPings b v }, [])
    | .ping b id =>
      let node := s.node b
      if b ∈ cluster.ids ∧ id ∈ cluster.ids ∧ id ≠ b ∧ ¬node.crashed ∧ node.pinged = none then
        some (s.setNode b { node with pinged := some (id, s.answers b id) }, [])
      else
        none
    | .record b =>
      ((Election.machine cluster).step s.election (.record b)).map fun r => ({ s with election := r.fst }, r.snd)

end Cluster.Partitions
