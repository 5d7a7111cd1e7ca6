import Gokaf.Group.Coordinator
import Gokaf.Machine

open Go Protocol

namespace ConsumerGroup

-- What is observed of a group beside its state: how many generations it has completed, and the
-- assignments of the first leader `Sync` of the current one.
structure Round where
  epoch       : Nat
  distributed : Option Assignments

-- The coordinator with all that is in flight: calls in front of a receive from their channel, and
-- callbacks of timers that have fired. The parked calls are in the channels.
structure State where
  now           : Int
  coordinator   : Coordinator
  readyJoins    : List JoinCall
  readySyncs    : List (SyncCall × Nat)
  completeJoins : List Bytes
  expirations   : List (Bytes × Bytes)
  rounds        : Bytes → Round

inductive Step
  | join (req : JoinRequest)
  | sync (req : SyncRequest)
  | heartbeat (req : HeartbeatRequest)
  | leave (req : LeaveRequest)
  | receiveJoin (i : Nat)
  | receiveSync (i : Nat)
  | tick (d : Nat)
  | fireJoinTimer (t : Nat)
  | fireSessionTimer (t : Nat)
  | completeJoin (i : Nat)
  | expireMember (i : Nat)

-- `joining` is the start of a `Join` call, `distributed` the effect of a leader's `Sync`. The others
-- are what calls return.
inductive Output
  | joining (call : JoinCall) (metadata : Bytes)
  | joined (call : JoinCall) (result : JoinResult)
  | distributed (groupID : Bytes) (epoch : Nat) (assignments : Assignments)
  | synced (call : SyncCall) (result : SyncResult)
  | heartbeat (req : HeartbeatRequest) (errorCode : ErrorCode)
  | left (req : LeaveRequest) (errorCode : ErrorCode)
  | panicked

namespace State

def init (rebalanceDelay now : Int) : State where
  now           := now
  coordinator   := .new rebalanceDelay
  readyJoins    := []
  readySyncs    := []
  completeJoins := []
  expirations   := []
  rounds _      := ⟨0, none⟩

def setRound (s : State) (groupID : Bytes) (r : Round) : State :=
  { s with rounds := Function.update s.rounds groupID r }

def setJoin (s : State) (channel : Nat) (ch : Chan JoinResult JoinCall) : State :=
  let rt := s.coordinator.runtime
  { s with coordinator.runtime.joins := Function.update rt.joins channel ch }

def setSync (s : State) (channel : Nat) (ch : Chan SyncResult SyncCall) : State :=
  let rt := s.coordinator.runtime
  { s with coordinator.runtime.syncs := Function.update rt.syncs channel ch }

-- The round of a group after a step. A new generation begins when the id changes.
def nextRound (s : State) (coordinator : Coordinator) (groupID : Bytes) : Round :=
  if coordinator.generationID? groupID = s.coordinator.generationID? groupID then
    s.rounds groupID
  else
    ⟨(s.rounds groupID).epoch + 1, none⟩

end State

def machine : Machine State Step Output where
  step s
    | .join req =>
      let (coordinator, memberID, channel) := s.coordinator.join s.now req
      let call : JoinCall := ⟨channel, req.groupID, memberID, (s.rounds req.groupID).epoch⟩
      some ({ s with coordinator, readyJoins := s.readyJoins ++ [call] },
        [.joining call (firstProtocolMetadata req.protocols)])
    | .sync req =>
      let round := s.rounds req.groupID
      let call : SyncCall := ⟨req.groupID, req.memberID, round.epoch⟩
      match s.coordinator.sync s.now req with
      | (coordinator, .answer result) => some ({ s with coordinator }, [.synced call result])
      | (coordinator, .distributed result delivered) =>
        let s' := { s with coordinator }
        some (s'.setRound req.groupID { round with distributed := round.distributed.or (some req.assignments) },
          .distributed req.groupID round.epoch req.assignments :: .synced call result ::
            delivered.map fun (call, result) => .synced call result)
      | (coordinator, .receive channel) =>
        some ({ s with coordinator, readySyncs := s.readySyncs ++ [(call, channel)] }, [])
    | .heartbeat req =>
      let (coordinator, errorCode) := s.coordinator.heartbeat s.now req
      some ({ s with coordinator }, [.heartbeat req errorCode])
    | .leave req =>
      let (coordinator, errorCode) := s.coordinator.leave s.now req
      some ({ s with coordinator }, [.left req errorCode])
    | .receiveJoin i =>
      s.readyJoins[i]?.map fun call =>
        let (ch, result) := (s.coordinator.runtime.joins call.channel).receive call
        ({ s with readyJoins := s.readyJoins.eraseIdx i }.setJoin call.channel ch,
          result.toList.map (.joined call))
    | .receiveSync i =>
      s.readySyncs[i]?.map fun (call, channel) =>
        let (ch, result) := (s.coordinator.runtime.syncs channel).receive call
        ({ s with readySyncs := s.readySyncs.eraseIdx i }.setSync channel ch, result.toList.map (.synced call))
    | .tick d => some ({ s with now := s.now + d }, [])
    | .fireJoinTimer t =>
      (s.coordinator.runtime.joinTimers.fire t s.now).map fun (joinTimers, groupID) =>
        ({ s with
          coordinator.runtime.joinTimers := joinTimers
          completeJoins := s.completeJoins ++ [groupID] }, [])
    | .fireSessionTimer t =>
      (s.coordinator.runtime.sessionTimers.fire t s.now).map fun (sessionTimers, id) =>
        ({ s with
          coordinator.runtime.sessionTimers := sessionTimers
          expirations := s.expirations ++ [id] }, [])
    | .completeJoin i =>
      s.completeJoins[i]?.map fun groupID =>
        let s' := { s with completeJoins := s.completeJoins.eraseIdx i }
        match s.coordinator.completeJoin s.now groupID with
        | none => (s', [.panicked])
        | some (coordinator, delivered) =>
          ({ s' with coordinator }.setRound groupID (s.nextRound coordinator groupID),
            delivered.map fun (call, result) => .joined call result)
    | .expireMember i =>
      s.expirations[i]?.map fun (groupID, memberID) =>
        ({ s with
          coordinator := s.coordinator.expireMember s.now groupID memberID
          expirations := s.expirations.eraseIdx i }, [])

-- The coordinator of a broker that may restart, with a new coordinator and nothing in flight.
namespace Restarts

inductive Step
  | serve (a : ConsumerGroup.Step)
  | restart

def machine : Machine State Step Output where
  step s
    | .serve a => ConsumerGroup.machine.step s a
    | .restart => some (.init s.coordinator.rebalanceDelay s.now, [])

end Restarts
end ConsumerGroup
