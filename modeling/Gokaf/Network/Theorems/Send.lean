import Gokaf.Network.Theorems.Connection
import Gokaf.Network.Theorems.Stepwise

open Go Protocol Network.Stepwise

namespace Network.Connection

variable {s : State} {c : Nat} {w : Surroundings} {server : Server} {payload body : Bytes} {header : RequestHeader}
  {call : Call}

theorem State.setConn_self (s : State) (c : Nat) (conn : Conn) : (s.setConn c conn).conns c = conn := by
  simp only [State.setConn, Function.update_self]

-- Where a handler comes that is left alone.
def Call.alone (call : Call) (w : Surroundings) (server : Server) : Call × Server :=
  let (routine, serving) := call.routine.alone w ⟨server, call.count⟩
  (⟨routine, serving.count⟩, serving.server)

theorem dispatch_eq_alone (w : Surroundings) (server : Server) (payload : Bytes) :
    server.dispatch w payload =
      (((Call.start payload).alone w server).fst.result.getD (.error .parked),
        ((Call.start payload).alone w server).snd) := by
  have hperforms := performs_respond w payload server
  rw [Effect.exec, Goroutine.effect] at hperforms
  rw [Server.dispatch]
  rcases hrespond : (Server.respond w).exec payload server with ⟨r, server'⟩
  rw [hrespond] at hperforms
  rw [Call.alone, Call.start]
  generalize (respond payload).alone w ⟨server, 0⟩ = reached at hperforms ⊢
  rcases reached with ⟨r' | _, serving⟩
  case done =>
    obtain ⟨rfl, rfl⟩ := hperforms
    rcases r' with fault | ⟨response, rest⟩
    case error => rfl
    case ok    => rfl
  case step =>
    obtain ⟨rfl, rfl⟩ := hperforms
    rfl

theorem dispatch_request (hheader : header.Valid) (server : Server) (body : Bytes) :
    server.dispatch w (writeRequestHeader header ++ body) =
      match (Server.handle w header).exec body server with
      | (.ok (responseBody, _), server') => (.ok (writeResponseHeader header.correlationID ++ responseBody), server')
      | (.error fault, server')          => (.error fault, server') := by
  have hread : (readRequestHeader : Effect Server RequestHeader).exec (writeRequestHeader header ++ body) server =
      (.ok (header, body), server) := by
    rw [Server.stateless_readRequestHeader.exec, reads_readRequestHeader hheader]
  rw [Server.dispatch, Server.respond, Effect.exec_bind_of_ok hread, Effect.exec_bind]
  rcases (Server.handle w header).exec body server with ⟨fault | ⟨responseBody, rest⟩, server'⟩
  case error => rfl
  case ok    => rfl

-- The steps of a handler, as long as no other connection takes one.
theorem run_acts (hdown : s.down = false) (hphase : (s.conns c).phase = .handling call) :
    ∃ s' os, machine.run s (List.replicate (call.length w s.server) (.act c w)) = some (s', os) ∧ s'.down = false ∧
      s'.server = (call.alone w s.server).snd ∧
      s'.conns c = { s.conns c with phase := .handling (call.alone w s.server).fst } := by
  obtain ⟨routine, count⟩ := call
  induction routine generalizing s count
  case done r =>
    refine ⟨s, [], rfl, hdown, rfl, ?_⟩
    rw [Call.alone, Routine.alone, ← hphase]
  case step act next hi =>
    rw [Call.length, Call.alone, Routine.length, Routine.alone]
    dsimp only
    cases hact : act w ⟨s.server, count⟩
    case none =>
      refine ⟨s, [], rfl, hdown, rfl, ?_⟩
      rw [← hphase]
    case some r =>
      obtain ⟨b, server, count'⟩ := r
      have hcall : Call.act ⟨.step act next, count⟩ w s.server = some (⟨next b, count'⟩, server) := by
        simp [Call.act, Routine.resume, hact]
      let s₁ : State := { s.setConn c { s.conns c with phase := .handling ⟨next b, count'⟩ } with server }
      have hconn₁ : s₁.conns c = { s.conns c with phase := .handling ⟨next b, count'⟩ } := s.setConn_self c _
      obtain ⟨s', os, hr, hdown', hserver, hconn⟩ := hi b (s := s₁) hdown count' (by rw [hconn₁])
      refine ⟨s', _, Machine.run_cons_of_some (step_of_moves (.acts hdown hphase hcall)) hr, hdown', hserver, ?_⟩
      rw [hconn, hconn₁]
      rfl

-- A request on a connection of its own, up to its response.
theorem run_request (server : Server) (w : Surroundings) (hpayload : payload.length < 2 ^ 32) :
    ∃ s os, machine.run (.init server) (.receive 0 (writeFrame payload) :: .read 0 ::
        List.replicate ((Call.start payload).length w server) (.act 0 w)) = some (s, os) ∧ s.down = false ∧
      s.server = ((Call.start payload).alone w server).snd ∧
      s.conns 0 = { Conn.new with phase := .handling ((Call.start payload).alone w server).fst } := by
  let s : State := (State.init server).setConn 0 { Conn.new with input := writeFrame payload }
  have hconn : s.conns 0 = { Conn.new with input := writeFrame payload } := State.setConn_self _ 0 _
  have hframe : readFrame.run (s.conns 0).input = .ok (payload, []) := by
    have hframe := Cluster.reads_readFrame hpayload []
    rw [List.append_nil] at hframe
    rwa [hconn]
  have hreceive : machine.step (.init server) (.receive 0 (writeFrame payload)) =
      some (s, [.received 0 (writeFrame payload)]) :=
    step_of_moves (.receives rfl)
  have hread := step_of_moves (.reads (s := s) rfl (by rw [hconn]; rfl) hframe)
  let s₁ : State := s.setConn 0 { s.conns 0 with input := [], phase := .handling (.start payload) }
  have hconn₁ : s₁.conns 0 = { s.conns 0 with input := [], phase := .handling (.start payload) } :=
    s.setConn_self 0 _
  obtain ⟨s', os, hr, hdown, hserver, hconn'⟩ := run_acts (w := w) (s := s₁) rfl (congrArg Conn.phase hconn₁)
  refine ⟨s', _, Machine.run_cons_of_some hreceive (Machine.run_cons_of_some hread hr), hdown, hserver, ?_⟩
  rw [hconn', hconn₁, hconn]
  rfl

theorem Conn.finish_of_error (conn : Conn) (c : Nat) (written : Option Nat) {fault : Fault} (h : fault ≠ .parked) :
    conn.finish c written (.error fault) = some ({ conn with phase := .closed }, []) := by
  cases fault
  case parked => contradiction
  all_goals rfl

-- What the client gets for the request.
theorem send_eq_dispatch (hrequest : (writeRequestHeader header ++ body).length < 2 ^ 32) :
    send w server header body =
      (match (server.dispatch w (writeRequestHeader header ++ body)).fst with
        | .ok response   => readResponse header.correlationID (writeFrame response)
        | .error .parked => .error .parked
        | .error _       => .error (.error .eof),
      (server.dispatch w (writeRequestHeader header ++ body)).snd) := by
  obtain ⟨s, os, hrun, hdown, hserver, hconn⟩ := run_request server w hrequest
  have hphase : (s.conns 0).phase =
      .handling ((Call.start (writeRequestHeader header ++ body)).alone w server).fst := by
    rw [hconn]
  rw [send, dispatch_eq_alone]
  simp only [hrun]
  cases hresult : ((Call.start (writeRequestHeader header ++ body)).alone w server).fst.result
  case none =>
    have hblocked : machine.step s (.respond 0 none) = none := by simp [machine, serve, hdown, hphase, hresult]
    rw [hblocked, ← hserver]
    rfl
  case some result =>
    rcases result with fault | response
    case ok =>
      rw [step_of_moves (.answers hdown hphase hresult), ← hserver]
      simp [State.setConn, hconn, Conn.new]
    case error =>
      by_cases hparked : fault = .parked
      case pos =>
        subst hparked
        have hblocked : machine.step s (.respond 0 none) = none := by
          simp [machine, serve, hdown, hphase, hresult, Conn.finish]
        rw [hblocked, ← hserver]
        rfl
      case neg =>
        have hfinish : (s.conns 0).finish 0 none (.error fault) =
            some ({ s.conns 0 with output := (s.conns 0).output ++ [], phase := .closed }, []) := by
          rw [List.append_nil]
          exact Conn.finish_of_error (s.conns 0) 0 none hparked
        rw [step_of_moves (.fails hdown hphase hresult hfinish), ← hserver]
        simp only [State.setConn_self, hconn, Conn.new]
        clear hresult hfinish
        cases fault
        case parked => contradiction
        all_goals rfl

-- A call over the network is a call of the handler. The client cannot tell its errors apart.
theorem send_eq_handle (hheader : header.Valid) (hrequest : (writeRequestHeader header ++ body).length < 2 ^ 32)
    (hresponse : ∀ responseBody rest, ((Server.handle w header).exec body server).fst = .ok (responseBody, rest) →
      responseBody.length + 4 < 2 ^ 32) :
    send w server header body =
      (match ((Server.handle w header).exec body server).fst with
        | .ok (responseBody, _) => .ok responseBody
        | .error .parked        => .error .parked
        | .error _              => .error (.error .eof),
      ((Server.handle w header).exec body server).snd) := by
  rw [send_eq_dispatch hrequest, dispatch_request hheader]
  rcases hhandle : (Server.handle w header).exec body server with ⟨fault | ⟨responseBody, rest⟩, server'⟩
  case ok =>
    rw [hhandle] at hresponse
    have hread : readResponse header.correlationID
        (writeFrame (writeResponseHeader header.correlationID ++ responseBody)) =
        .ok responseBody :=
      Cluster.received_eq hheader.correlationID (hresponse _ _ rfl)
    simp only [hread]
  case error =>
    cases fault
    all_goals rfl

section Example

theorem send_eq_handle_createTopics :
    (send sampleSurroundings sampleServer ⟨19, 0, 1, none⟩ (Client.createTopic [116] 1 1)).fst =
      .ok (writeTopicResults [([116], .none)]) := by
  have hheader : RequestHeader.Valid ⟨19, 0, 1, none⟩ := ⟨by decide, by decide, by decide, by simp⟩
  have hhandle : ((Server.handle sampleSurroundings ⟨19, 0, 1, none⟩).exec (Client.createTopic [116] 1 1)
      sampleServer).fst = .ok (writeTopicResults [([116], .none)], []) := by
    decide +kernel
  rw [send_eq_handle hheader (by decide), hhandle]
  rw [hhandle]
  rintro responseBody rest ⟨⟩
  decide

end Example

end Network.Connection
