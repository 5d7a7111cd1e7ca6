import Gokaf.Go.Bytes
import Gokaf.Go.Chan
import Gokaf.Go.Map
import Gokaf.Go.Timer
import Gokaf.Protocol.Errors

open Go Protocol

namespace ConsumerGroup

inductive GroupState
  | empty
  | preparingRebalance
  | completingRebalance
  | stable
  deriving DecidableEq, Repr

structure Protocol where
  name     : Bytes
  metadata : Bytes
  deriving DecidableEq, Repr

structure JoinRequest where
  groupID          : Bytes
  clientID         : Bytes
  sessionTimeoutMS : Int
  memberID         : Bytes
  protocols        : List Protocol
  deriving DecidableEq, Repr

structure JoinMember where
  id       : Bytes
  metadata : Bytes
  deriving DecidableEq, Repr

structure JoinResult where
  generationID : Int
  protocol     : Bytes
  leaderID     : Bytes
  memberID     : Bytes
  members      : List JoinMember := []
  errorCode    : ErrorCode
  deriving DecidableEq, Repr

abbrev Assignments := Map Bytes Bytes

structure SyncRequest where
  groupID      : Bytes
  generationID : Int
  memberID     : Bytes
  assignments  : Assignments

structure SyncResult where
  assignment : Bytes := []
  errorCode  : ErrorCode
  deriving DecidableEq, Repr

structure HeartbeatRequest where
  groupID      : Bytes
  generationID : Int
  memberID     : Bytes
  deriving DecidableEq, Repr

structure LeaveRequest where
  groupID  : Bytes
  memberID : Bytes
  deriving DecidableEq, Repr

-- A call of `Join` that is past its critical section. Every call has a channel of its own. `since` is
-- how many generations the group had completed when the call was made.
structure JoinCall where
  channel  : Nat
  groupID  : Bytes
  memberID : Bytes
  since    : Nat
  deriving DecidableEq, Repr

-- A call of `Sync`. `epoch` is the generation that it asked for, counted from the first one.
structure SyncCall where
  groupID  : Bytes
  memberID : Bytes
  epoch    : Nat
  deriving DecidableEq, Repr

structure Member where
  id               : Bytes
  protocol         : Bytes := []
  metadata         : Bytes := []
  assignment       : Bytes := []
  sessionTimeoutMS : Int := 0
  awaitJoin        : Nat := 0
  awaitSync        : Nat := 0
  sessionTimer     : Option Nat := none
  deriving DecidableEq, Repr

structure Group where
  id           : Bytes
  state        : GroupState := .empty
  generationID : Int := 0
  leaderID     : Bytes := []
  protocol     : Bytes := []
  members      : Map Bytes Member := ∅
  joinOrder    : List Bytes := []
  joinTimer    : Option Nat := none

-- The channels and timers that the coordinator has made. The join timers call `completeJoin` with a
-- group, the session timers `expireMember` with a group and a member.
structure Runtime where
  joinTimers    : Timers Bytes
  sessionTimers : Timers (Bytes × Bytes)
  joins         : Nat → Chan JoinResult JoinCall
  syncs         : Nat → Chan SyncResult SyncCall
  nextChannel   : Nat

structure Coordinator where
  groups         : Map Bytes Group
  rebalanceDelay : Int
  nextMemberSeq  : Int
  runtime        : Runtime

def firstProtocolMetadata : List Protocol → Bytes
  | []     => []
  | p :: _ => p.metadata

def firstProtocolName : List Protocol → Bytes
  | []     => []
  | p :: _ => p.name

namespace Runtime

def new : Runtime where
  joinTimers    := .none
  sessionTimers := .none
  joins _       := .make
  syncs _       := .make
  nextChannel   := 0

def touch (rt : Runtime) (now : Int) (groupID : Bytes) (member : Member) : Runtime × Member :=
  let timeout := if member.sessionTimeoutMS < 100 then 100 else member.sessionTimeoutMS
  let d := timeout * 1000000
  match member.sessionTimer with
  | none =>
    let (sessionTimers, t) := rt.sessionTimers.afterFunc now d (groupID, member.id)
    ({ rt with sessionTimers }, { member with sessionTimer := some t })
  | some t => ({ rt with sessionTimers := rt.sessionTimers.reset t now d }, member)

def stopSessionTimer (rt : Runtime) (member : Member) : Runtime × Member :=
  match member.sessionTimer with
  | none   => (rt, member)
  | some t => ({ rt with sessionTimers := rt.sessionTimers.stop t }, { member with sessionTimer := none })

-- The results of a leader's `Sync` for the other members, with the calls that were parked for them.
def distribute (rt : Runtime) (memberID : Bytes) : List Member → Runtime × List (SyncCall × SyncResult)
  | []                 => (rt, [])
  | waiting :: members =>
    if waiting.id = memberID then
      rt.distribute memberID members
    else
      let result : SyncResult := { assignment := waiting.assignment, errorCode := .none }
      let (ch, receiver) := (rt.syncs waiting.awaitSync).send result
      let (rt, delivered) :=
        { rt with syncs := Function.update rt.syncs waiting.awaitSync ch }.distribute memberID members
      (rt, receiver.toList.map (·, result) ++ delivered)

end Runtime

namespace Group

def removeMember (group : Group) (memberID : Bytes) : Group :=
  { group with
    members   := group.members.erase memberID
    joinOrder := group.joinOrder.filter (· ≠ memberID)
    leaderID  := if group.leaderID = memberID then [] else group.leaderID }

def assignOne (members : Map Bytes Member) (memberID assignment : Bytes) : Map Bytes Member :=
  match members.lookup memberID with
  | some target => members.insert memberID { target with assignment }
  | none        => members

-- The first loop of a leader's `Sync`.
def assign (members : Map Bytes Member) (assignments : Assignments) : Map Bytes Member :=
  assignments.entries.foldl (fun members e => assignOne members e.fst e.snd) members

-- The first loop of `completeJoin`, `none` if it finds a member missing.
def touchAll (groupID : Bytes) (now : Int) (rt : Runtime) (members : Map Bytes Member) :
    List Bytes → Option (Runtime × Map Bytes Member × List JoinMember)
  | []            => some (rt, members, [])
  | memberID :: ids => do
    let member ← members.lookup memberID
    let (rt, member) := rt.touch now groupID member
    let (rt, members, leaderMembers) ← touchAll groupID now rt (members.insert memberID member) ids
    return (rt, members, ⟨member.id, member.metadata⟩ :: leaderMembers)

-- What `completeJoin` sends to a member.
def joinResult (group : Group) (leaderMembers : List JoinMember) (member : Member) : JoinResult where
  generationID := group.generationID
  protocol     := group.protocol
  leaderID     := group.leaderID
  memberID     := member.id
  members      := if member.id = group.leaderID then leaderMembers else []
  errorCode    := .none

-- The second loop of `completeJoin`, with the calls that were parked for the results.
def answerAll (group : Group) (leaderMembers : List JoinMember) (rt : Runtime) :
    List Bytes → Option (Runtime × List (JoinCall × JoinResult))
  | []            => some (rt, [])
  | memberID :: ids => do
    let member ← group.members.lookup memberID
    let result := group.joinResult leaderMembers member
    let (ch, receiver) := (rt.joins member.awaitJoin).send result
    let (rt, delivered) ←
      answerAll group leaderMembers { rt with joins := Function.update rt.joins member.awaitJoin ch } ids
    return (rt, receiver.toList.map (·, result) ++ delivered)

end Group

-- How the critical section of `Sync` ends: with an answer, with the answers to all members of the
-- group, or with a channel to receive from.
inductive Synced
  | answer (result : SyncResult)
  | distributed (result : SyncResult) (delivered : List (SyncCall × SyncResult))
  | receive (channel : Nat)

namespace Coordinator

def new (rebalanceDelay : Int) : Coordinator where
  groups         := ∅
  rebalanceDelay := rebalanceDelay
  nextMemberSeq  := 0
  runtime        := .new

def getOrCreateGroup (c : Coordinator) (groupID : Bytes) : Group :=
  (c.groups.lookup groupID).getD { id := groupID }

def nextMemberID (c : Coordinator) (clientID : Bytes) : Coordinator × Bytes :=
  let seq := int64 (c.nextMemberSeq + 1)
  -- "member" if the client has no name
  let clientID := if clientID = [] then [109, 101, 109, 98, 101, 114] else clientID
  ({ c with nextMemberSeq := seq }, clientID ++ 45 :: decimal seq)

def setGroup (c : Coordinator) (groupID : Bytes) (r : Runtime × Group) : Coordinator :=
  { c with groups := c.groups.insert groupID r.snd, runtime := r.fst }

def armJoinTimer (c : Coordinator) (now : Int) (groupID : Bytes) (rt : Runtime) (group : Group) : Runtime × Group :=
  let (joinTimers, t) := rt.joinTimers.afterFunc now c.rebalanceDelay groupID
  ({ rt with joinTimers }, { group with state := .preparingRebalance, joinTimer := some t })

-- The critical section of `Join`, which ends with a member id and a channel to receive from.
def join (c : Coordinator) (now : Int) (req : JoinRequest) : Coordinator × Bytes × Nat :=
  let group := c.getOrCreateGroup req.groupID
  let (c, memberID) := if req.memberID = [] then c.nextMemberID req.clientID else (c, req.memberID)
  let channel := c.runtime.nextChannel
  let joinOrder := if memberID ∈ group.members then group.joinOrder else group.joinOrder ++ [memberID]
  let member := { (group.members.lookup memberID).getD { id := memberID } with
    sessionTimeoutMS := req.sessionTimeoutMS
    protocol         := firstProtocolName req.protocols
    metadata         := firstProtocolMetadata req.protocols
    awaitJoin        := channel
    awaitSync        := channel }
  let (rt, member) := { c.runtime with nextChannel := channel + 1 }.stopSessionTimer member
  let group := { group with members := group.members.insert memberID member, joinOrder }
  let r := if group.state ≠ .preparingRebalance then c.armJoinTimer now req.groupID rt group else (rt, group)
  (c.setGroup req.groupID r, memberID, channel)

def sync (c : Coordinator) (now : Int) (req : SyncRequest) : Coordinator × Synced :=
  match c.groups.lookup req.groupID with
  | none => (c, .answer { errorCode := .unknownMemberID })
  | some group =>
    match group.members.lookup req.memberID with
    | none => (c, .answer { errorCode := .unknownMemberID })
    | some member =>
      if req.generationID ≠ group.generationID then
        (c, .answer { errorCode := .illegalGeneration })
      else if req.memberID = group.leaderID then
        let members := Group.assign group.members req.assignments
        let (rt, members) := members.forEach (fun rt active => rt.touch now group.id active) c.runtime
        let (rt, delivered) := rt.distribute member.id (members.entries.map (·.snd))
        let assignment := (members.lookup req.memberID).elim [] (·.assignment)
        (c.setGroup req.groupID (rt, { group with state := .stable, members }),
          .distributed { assignment, errorCode := .none } delivered)
      else
        let (rt, touched) := c.runtime.touch now group.id member
        let group' := { group with members := group.members.insert req.memberID touched }
        if group.state = .stable then
          (c.setGroup req.groupID (rt, group'), .answer { assignment := member.assignment, errorCode := .none })
        else
          (c.setGroup req.groupID (rt, group'), .receive member.awaitSync)

def heartbeat (c : Coordinator) (now : Int) (req : HeartbeatRequest) : Coordinator × ErrorCode :=
  match c.groups.lookup req.groupID with
  | none => (c, .unknownMemberID)
  | some group =>
    match group.members.lookup req.memberID with
    | none => (c, .unknownMemberID)
    | some member =>
      if group.state = .preparingRebalance then
        (c, .rebalanceInProgress)
      else if req.generationID ≠ group.generationID then
        (c, .illegalGeneration)
      else
        let (rt, member) := c.runtime.touch now req.groupID member
        (c.setGroup req.groupID (rt, { group with members := group.members.insert req.memberID member }), .none)

def maybeRebalance (c : Coordinator) (now : Int) (rt : Runtime) (group : Group) : Runtime × Group :=
  if group.members.entries.length = 0 then
    (rt, { group with state := .empty, leaderID := [], protocol := [] })
  else if group.state ≠ .stable ∧ group.state ≠ .completingRebalance then
    (rt, group)
  else
    let joinTimers := group.joinTimer.elim rt.joinTimers rt.joinTimers.stop
    c.armJoinTimer now group.id { rt with joinTimers } group

-- What `Leave` and `expireMember` do with a member that is there; `none` if it is not.
def evict (c : Coordinator) (now : Int) (groupID memberID : Bytes) : Option Coordinator := do
  let group ← c.groups.lookup groupID
  let member ← group.members.lookup memberID
  let (rt, _) := c.runtime.stopSessionTimer member
  return c.setGroup groupID (c.maybeRebalance now rt (group.removeMember memberID))

def leave (c : Coordinator) (now : Int) (req : LeaveRequest) : Coordinator × ErrorCode :=
  match c.evict now req.groupID req.memberID with
  | none   => (c, .unknownMemberID)
  | some c => (c, .none)

def expireMember (c : Coordinator) (now : Int) (groupID memberID : Bytes) : Coordinator :=
  (c.evict now groupID memberID).getD c

-- `none` if it dereferences a member that is missing.
def completeJoin (c : Coordinator) (now : Int) (groupID : Bytes) :
    Option (Coordinator × List (JoinCall × JoinResult)) :=
  match c.groups.lookup groupID with
  | none       => some (c, [])
  | some group =>
    match group.joinOrder with
    | []            => some (c, [])
    | leaderID :: _ => do
      let leader ← group.members.lookup leaderID
      let group := { group with
        leaderID
        protocol     := leader.protocol
        generationID := int32 (group.generationID + 1)
        state        := .completingRebalance }
      let (rt, members, leaderMembers) ← Group.touchAll group.id now c.runtime group.members group.joinOrder
      let group := { group with members }
      let (rt, delivered) ← group.answerAll leaderMembers rt group.joinOrder
      return (c.setGroup groupID (rt, group), delivered)

def state (c : Coordinator) (groupID : Bytes) : GroupState :=
  (c.groups.lookup groupID).elim .empty (·.state)

def generationID? (c : Coordinator) (groupID : Bytes) : Option Int :=
  (c.groups.lookup groupID).map (·.generationID)

end Coordinator
end ConsumerGroup
