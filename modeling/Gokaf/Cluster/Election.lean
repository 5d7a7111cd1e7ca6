import Gokaf.Cluster.Liveness
import Gokaf.Machine

-- The brokers of a cluster that ping each other and take the highest one that answers for the controller.
namespace Cluster.Election

-- `pinged` is the outcome of a ping that the monitor has not recorded yet.
structure Node where
  monitor : LivenessMonitor
  pinged  : Option (Int × Bool)
  crashed : Bool

structure State where
  nodes : Int → Node

inductive Step
  | crash (broker : Int)
  | ping (broker id : Int)
  | record (broker : Int)
  deriving DecidableEq, Repr

inductive Output
  | recorded (broker id : Int) (ok : Bool)
  | called (broker : Int) (callback : Callback)
  deriving DecidableEq, Repr

namespace State

def init (cluster : Membership) (failAfter : Int → Int) : State where
  nodes b := { monitor := .new cluster b (failAfter b), pinged := none, crashed := false }

def set (s : State) (b : Int) (node : Node) : State where
  nodes := Function.update s.nodes b node

end State

-- A ping fails if and only if its target has crashed.
def machine (cluster : Membership) : Machine State Step Output where
  step s
    | .crash b =>
      let node := s.nodes b
      if b ∈ cluster.ids ∧ ¬node.crashed then
        some (s.set b { node with crashed := true }, [])
      else
        none
    | .ping b id =>
      let node := s.nodes b
      if b ∈ cluster.ids ∧ id ∈ cluster.ids ∧ id ≠ b ∧ ¬node.crashed ∧ node.pinged = none then
        some (s.set b { node with pinged := some (id, !(s.nodes id).crashed) }, [])
      else
        none
    | .record b =>
      let node := s.nodes b
      match node.pinged with
      | none          => none
      | some (id, ok) =>
        if node.crashed then
          none
        else
          let (monitor, callback) := node.monitor.record id ok
          some (s.set b { node with monitor, pinged := none }, .recorded b id ok :: callback.toList.map (.called b))

end Cluster.Election
