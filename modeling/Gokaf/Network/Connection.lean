import Gokaf.Network.Stepwise
import Gokaf.Protocol.Framing

open Go Protocol Network.Stepwise

-- The connections of a broker, each with a goroutine of its own in `handleConnection`.
namespace Network.Connection

-- A call of `Dispatch` on its way to `WriteFrame`.
structure Call where
  routine : Routine Surroundings Serving (Except Fault (Bytes × Bytes))
  count   : Nat

namespace Call

def start (payload : Bytes) : Call where
  routine := respond payload
  count   := 0

-- The next step of the handler, if it does not block.
def act (call : Call) (w : Surroundings) (server : Server) : Option (Call × Server) :=
  (call.routine.resume w ⟨server, call.count⟩).map fun r => (⟨r.fst, r.snd.count⟩, r.snd.server)

-- What the handler has returned.
def result (call : Call) : Option (Except Fault Bytes) :=
  match call.routine with
  | .done r  => some (r.map (·.fst))
  | .step .. => none

-- The number of steps to where the handler is done or blocks, if it is left alone.
def length (call : Call) (w : Surroundings) (server : Server) : Nat :=
  call.routine.length w ⟨server, call.count⟩

end Call

inductive Phase
  | reading
  | handling (call : Call)
  | closed

-- `input` is what has come in and is still to be read, `output` all that has been written. Nothing more comes in once
-- the client has ended its side.
structure Conn where
  input  : Bytes
  output : Bytes
  ended  : Bool
  phase  : Phase

def Conn.new : Conn where
  input  := []
  output := []
  ended  := false
  phase  := .reading

-- A panic in one goroutine takes the process down with all of its connections.
structure State where
  server : Server
  conns  : Nat → Conn
  down   : Bool

namespace State

def init (server : Server) : State where
  server  := server
  conns _ := .new
  down    := false

def setConn (s : State) (c : Nat) (conn : Conn) : State :=
  { s with conns := Function.update s.conns c conn }

end State

-- The steps of all connections come in any order. `written` is how many bytes of the response get out if writing it
-- fails. Timers, replication and the HTTP API are the background, and may do anything to the server.
inductive Step
  | receive (c : Nat) (bs : Bytes)
  | hangUp (c : Nat)
  | read (c : Nat)
  | act (c : Nat) (w : Surroundings)
  | respond (c : Nat) (written : Option Nat)
  | background (server : Server)

inductive Output
  | received (c : Nat) (bs : Bytes)
  | request (c : Nat) (payload : Bytes)
  | acted (c : Nat) (w : Surroundings) (before after : Server)
  | response (c : Nat) (payload : Bytes)
  | changed (server : Server)

-- The process goes down with the goroutine.
def isPanic : Except Fault Bytes → Bool
  | .error (.panic _) => true
  | _                 => false

-- The end of `Dispatch` and of a round of `handleConnection`. A goroutine that is parked for good does not come here.
def Conn.finish (conn : Conn) (c : Nat) (written : Option Nat) : Except Fault Bytes → Option (Conn × List Output)
  | .ok response =>
    match written with
    | none   =>
      some ({ conn with output := conn.output ++ writeFrame response, phase := .reading }, [.response c response])
    | some n => some ({ conn with output := conn.output ++ (writeFrame response).take n, phase := .closed }, [])
  | .error .parked => none
  | .error _       => some ({ conn with phase := .closed }, [])

-- What the goroutine of a connection does, as long as the process is up. It waits until a whole frame has come in or
-- the client has ended its side.
def serve (s : State) : Step → Option (State × List Output)
  | .read c =>
    match (s.conns c).phase, readFrame.run (s.conns c).input with
    | .reading, .ok (payload, rest) =>
      some (s.setConn c { s.conns c with input := rest, phase := .handling (.start payload) }, [.request c payload])
    | .reading, .error _ =>
      if (s.conns c).ended then some (s.setConn c { s.conns c with phase := .closed }, []) else none
    | _, _ => none
  | .act c w =>
    match (s.conns c).phase with
    | .handling call =>
      (call.act w s.server).map fun r =>
        ({ s.setConn c { s.conns c with phase := .handling r.fst } with server := r.snd },
          [.acted c w s.server r.snd])
    | _ => none
  | .respond c written =>
    match (s.conns c).phase with
    | .handling call =>
      call.result.bind fun result =>
        ((s.conns c).finish c written result).map fun r =>
          ({ s.setConn c r.fst with down := isPanic result }, r.snd)
    | _ => none
  | .background server => some ({ s with server }, [.changed server])
  | _ => none

def machine : Machine State Step Output where
  step s
    | .receive c bs =>
      if (s.conns c).ended then
        none
      else
        some (s.setConn c { s.conns c with input := (s.conns c).input ++ bs }, [.received c bs])
    | .hangUp c =>
      if (s.conns c).ended then none else some (s.setConn c { s.conns c with ended := true }, [])
    | a => if s.down then none else serve s a

-- `Send` behind the request: the response is the first frame that comes back.
def readResponse (correlationID : Int) (stream : Bytes) : Except Fault Bytes :=
  match readFrame.run stream with
  | .error e         => .error e
  | .ok (payload, _) =>
    match (readInt32 : Decoder Int).run payload with
    | .error e => .error e
    | .ok (correlationID', _) =>
      if correlationID' = correlationID then .ok (payload.drop 4) else .error (.error (.correlationID correlationID'))

-- `BrokerClient.Send` over a connection of its own that does not break, to a broker that does nothing else. The client
-- waits as long as the handler does.
def send (w : Surroundings) (server : Server) (header : RequestHeader) (body : Bytes) : Except Fault Bytes × Server :=
  let payload := writeRequestHeader header ++ body
  let acts := List.replicate ((Call.start payload).length w server) (.act 0 w)
  match machine.run (.init server) (.receive 0 (writeFrame payload) :: .read 0 :: acts) with
  | none        => (.error .parked, server)
  | some (s, _) =>
    match machine.step s (.respond 0 none) with
    | none         => (.error .parked, s.server)
    | some (s', _) => (readResponse header.correlationID (s'.conns 0).output, s'.server)

end Network.Connection
