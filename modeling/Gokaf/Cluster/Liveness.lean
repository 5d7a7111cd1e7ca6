import Gokaf.Cluster.Membership
import Mathlib.Logic.Function.Basic

open Go

namespace Cluster

-- `alive` and `misses` are maps; an id that is not in them reads as `false` and as `0`.
structure LivenessMonitor where
  self       : Int
  membership : Membership
  failAfter  : Int
  alive      : Int → Bool
  misses     : Int → Int

-- The calls that a monitor makes when it has changed its mind about a peer.
inductive Callback
  | onDown (id : Int)
  | onUp (id : Int)
  deriving DecidableEq, Repr

namespace LivenessMonitor

def new (m : Membership) (self failAfter : Int) : LivenessMonitor where
  self       := self
  membership := m
  failAfter  := if failAfter ≤ 0 then 1 else failAfter
  alive id   := id = self ∨ id ∈ m.ids
  misses _   := 0

def isAlive (lm : LivenessMonitor) (id : Int) : Bool :=
  id = lm.self ∨ lm.alive id

def controllerID (lm : LivenessMonitor) : Int :=
  lm.membership.ids.foldl (fun controllerID id => if lm.alive id ∧ controllerID < id then id else controllerID) (-1)

def recordMiss (lm : LivenessMonitor) (id : Int) : LivenessMonitor × Option Callback :=
  let lm := { lm with misses := Function.update lm.misses id (int64 (lm.misses id + 1)) }
  if lm.failAfter ≤ lm.misses id ∧ lm.alive id then
    ({ lm with alive := Function.update lm.alive id false }, some (.onDown id))
  else
    (lm, none)

def recordSuccess (lm : LivenessMonitor) (id : Int) : LivenessMonitor × Option Callback :=
  let wasAlive := lm.alive id
  let lm := { lm with misses := Function.update lm.misses id 0, alive := Function.update lm.alive id true }
  (lm, if wasAlive then none else some (.onUp id))

-- What `checkPeers` does with the outcome of a ping.
def record (lm : LivenessMonitor) (id : Int) (ok : Bool) : LivenessMonitor × Option Callback :=
  if ok then lm.recordSuccess id else lm.recordMiss id

end LivenessMonitor
end Cluster
