import Gokaf.Assignor.Codec
import Gokaf.Group.Execution

open Go Protocol
open Assignor (Subscription PartitionCounts)

-- The coordinator with clients of the kind of `cmd/testclient`.
namespace ConsumerGroup.Clients

def encodeSubscription (topics : List Bytes) : Bytes :=
  writeInt16 0 ++ writeArrayLen topics.length ++ topics.flatMap writeString ++ writeInt32 (-1)

def readSubscription : Decoder (List Bytes) := do
  let _ ← readInt16
  let topicCount ← readArrayLen
  makeSlice topicCount
  let topics ← forRange topicCount readString
  let _ ← readBytes
  return topics

-- `none` if the client gives up.
def decodeSubscription (b : Bytes) : Option (List Bytes) :=
  match readSubscription.run b with
  | .ok (topics, _) => some topics
  | .error _        => none

-- The first loop of `buildAssignments`.
def subscriptions : List JoinMember → Option (List Subscription)
  | []                => some []
  | member :: members => do
    let topics ← decodeSubscription member.metadata
    let subs ← subscriptions members
    return { memberID := member.id, topics } :: subs

-- The protocols are "range" and "roundrobin".
def assign (protocolName : Bytes) (subs : List Subscription) (partitionCounts : PartitionCounts) :
    Option Assignor.Assignments :=
  if protocolName = [114, 97, 110, 103, 101] then
    (Assignor.range subs partitionCounts).toOption
  else if protocolName = [114, 111, 117, 110, 100, 114, 111, 98, 105, 110] then
    some (Assignor.roundRobin subs partitionCounts)
  else
    none

def buildAssignments (members : List JoinMember) (protocolName : Bytes) (partitionCounts : PartitionCounts) :
    Option Assignments := do
  let subs ← subscriptions members
  let assigned ← assign protocolName subs partitionCounts
  return members.foldl (fun assignments member =>
    assignments.insert member.id (Assignor.encodeAssignment (assigned.get member.id))) ∅

-- `joined` is what the clients have got as answers to their `Join` calls.
structure State where
  group  : ConsumerGroup.State
  joined : List (JoinCall × JoinResult)

def State.init (rebalanceDelay now : Int) : State where
  group  := .init rebalanceDelay now
  joined := []

-- A client that has been answered may sync, once or more often, or do nothing any more. All other calls, the timers
-- and the scheduler do what they like.
inductive Step
  | join (groupID clientID memberID : Bytes) (sessionTimeoutMS : Int) (topics protocols : List Bytes)
  | sync (i : Nat)
  | serve (a : ConsumerGroup.Step)

def answers (o : List Output) : List (JoinCall × JoinResult) :=
  o.flatMap fun
    | .joined call result => [(call, result)]
    | _                   => []

def State.advance (s : State) (a : ConsumerGroup.Step) : Option (State × List Output) :=
  (ConsumerGroup.machine.step s.group a).map fun (group, o) => ({ group, joined := s.joined ++ answers o }, o)

-- Only the leader knows the other members, and only it sends assignments.
def assignmentsFor (partitionCounts : Bytes → PartitionCounts) (call : JoinCall) (result : JoinResult) :
    Option Assignments :=
  if result.memberID = result.leaderID then
    buildAssignments result.members result.protocol (partitionCounts call.groupID)
  else
    some ∅

-- What a step of the clients asks of the coordinator, if it is one they can take.
def State.request (partitionCounts : Bytes → PartitionCounts) (s : State) : Step → Option ConsumerGroup.Step
  | .join groupID clientID memberID sessionTimeoutMS topics protocols =>
    some <| .join {
      groupID, clientID, sessionTimeoutMS, memberID
      protocols := protocols.map fun name => { name, metadata := encodeSubscription topics } }
  | .sync i => do
    let (call, result) ← s.joined[i]?
    let assignments ← assignmentsFor partitionCounts call result
    return .sync {
      groupID := call.groupID, generationID := result.generationID, memberID := result.memberID, assignments }
  | .serve (.join _) | .serve (.sync _) => none
  | .serve a => some a

-- `partitionCounts` is what the clients of a group know of the topics.
def machine (partitionCounts : Bytes → PartitionCounts) : Machine State Step Output where
  step s a := (s.request partitionCounts a).bind s.advance

end ConsumerGroup.Clients
