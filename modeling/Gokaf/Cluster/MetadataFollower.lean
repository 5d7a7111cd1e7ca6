import Gokaf.Cluster.MetadataLog
import Gokaf.Protocol.Framing
import Gokaf.Protocol.Header

open Go Protocol

namespace Cluster

-- The body of the answer to a follower that asked for the payloads.
def writePayloads (payloads : List Bytes) : Bytes :=
  writeArrayLen payloads.length ++ payloads.flatMap (writeBytes <| some ·)

-- What `Send` returns for an answer with the given body.
def received (correlationID : Int) (body : Bytes) : Except Fault Bytes :=
  match readFrame.run (writeFrame (writeResponseHeader correlationID ++ body)) with
  | .error e         => .error e
  | .ok (payload, _) =>
    match (readInt32 : Decoder Int).run payload with
    | .error e => .error e
    | .ok (correlationID', _) =>
      if correlationID' = correlationID then .ok (payload.drop 4) else .error (.error (.correlationID correlationID'))

-- A call of `fetchOnce`. The controller is asked for the payloads from the end of the follower's log on,
-- which it reads round by round. The follower then takes one payload at a time off the answer, appends
-- it and applies the record.
inductive Round
  | idle
  | asking (controller next : Int) (payloads : List Bytes)
  | reading (count : Int) (rest : Bytes)
  | applying (payload : Option Bytes) (count : Int) (rest : Bytes)
  deriving DecidableEq, Repr

namespace Round

-- The follower gets its answer. Every failure ends the call.
def answered (payloads : List Bytes) : Round :=
  match received 1 (writePayloads payloads) with
  | .error _ => idle
  | .ok body =>
    match (readArrayLen : Decoder Int).run body with
    | .error _           => idle
    | .ok (count, rest) => reading count rest

-- The controller goes once through its loop.
def serve (log : Storage.Log) (controller next : Int) (payloads : List Bytes) : Round :=
  match MetadataLog.readRound log next with
  | .error _                 => idle
  | .ok none                 => answered payloads
  | .ok (some (more, next)) => asking controller next (payloads ++ more)

-- The follower goes once through its loop, up to the append.
def receive (log : Storage.Log) (count : Int) (rest : Bytes) : Storage.Log × Round :=
  if count ≤ 0 then
    (log, idle)
  else
    match (readBytes : Decoder (Option Bytes)).run rest with
    | .error _             => (log, idle)
    | .ok (payload, rest) =>
      match MetadataLog.appendRaw log (payload.getD []) with
      | (log, .ok _)    => (log, applying payload (count - 1) rest)
      | (log, .error _) => (log, idle)

end Round
end Cluster
