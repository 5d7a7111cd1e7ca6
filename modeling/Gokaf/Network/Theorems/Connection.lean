import Gokaf.Cluster.Theorems.MetadataFollower
import Gokaf.Network.Client
import Gokaf.Network.Connection
import Gokaf.Network.Theorems.Survival
import Gokaf.Protocol.Theorems.Framing

open Go Protocol Network.Stepwise

namespace Network.Connection

variable {s s' : State} {a : Step} {as bs : List Step} {o os : List Output} {c : Nat} {w : Surroundings}
  {server server' : Server} {payload response rest : Bytes} {call call' : Call}

-- What a step does to the connections.
inductive Moves (s : State) : Step → State → List Output → Prop
  | receives {c : Nat} {bs : Bytes} : (s.conns c).ended = false →
    Moves s (.receive c bs) (s.setConn c { s.conns c with input := (s.conns c).input ++ bs }) [.received c bs]
  | hangsUp {c : Nat} : (s.conns c).ended = false →
    Moves s (.hangUp c) (s.setConn c { s.conns c with ended := true }) []
  | closes {c : Nat} {e : Fault} : s.down = false → (s.conns c).phase = .reading →
    readFrame.run (s.conns c).input = .error e → (s.conns c).ended = true →
    Moves s (.read c) (s.setConn c { s.conns c with phase := .closed }) []
  | reads {c : Nat} {payload rest : Bytes} : s.down = false → (s.conns c).phase = .reading →
    readFrame.run (s.conns c).input = .ok (payload, rest) →
    Moves s (.read c) (s.setConn c { s.conns c with input := rest, phase := .handling (.start payload) })
      [.request c payload]
  | acts {c : Nat} {w : Surroundings} {call call' : Call} {server : Server} : s.down = false →
    (s.conns c).phase = .handling call → call.act w s.server = some (call', server) →
    Moves s (.act c w) { s.setConn c { s.conns c with phase := .handling call' } with server }
      [.acted c w s.server server]
  | answers {c : Nat} {call : Call} {response : Bytes} : s.down = false → (s.conns c).phase = .handling call →
    call.result = some (.ok response) →
    Moves s (.respond c none)
      { s.setConn c { s.conns c with
          output := (s.conns c).output ++ writeFrame response, phase := .reading } with down := false }
      [.response c response]
  | fails {c : Nat} {written : Option Nat} {call : Call} {result : Except Fault Bytes} {part : Bytes} : s.down = false →
    (s.conns c).phase = .handling call → call.result = some result →
    (s.conns c).finish c written result =
      some ({ s.conns c with output := (s.conns c).output ++ part, phase := .closed }, []) →
    Moves s (.respond c written)
      { s.setConn c { s.conns c with
          output := (s.conns c).output ++ part, phase := .closed } with down := isPanic result } []
  | changes {server : Server} : s.down = false → Moves s (.background server) { s with server } [.changed server]

-- Either the whole response is written, or the connection is closed.
theorem Conn.finish_cases {conn conn' : Conn} {written : Option Nat} {result : Except Fault Bytes}
    (h : conn.finish c written result = some (conn', o)) :
    (∃ response, result = .ok response ∧ written = none ∧
      conn' = { conn with output := conn.output ++ writeFrame response, phase := .reading } ∧
      o = [.response c response]) ∨
    ∃ part, conn' = { conn with output := conn.output ++ part, phase := .closed } ∧ o = [] := by
  cases result
  case ok response =>
    cases written
    case none =>
      cases h
      exact .inl ⟨response, rfl, rfl, rfl, rfl⟩
    case some n =>
      cases h
      exact .inr ⟨(writeFrame response).take n, rfl, rfl⟩
  case error fault =>
    cases fault
    case parked => contradiction
    all_goals
      cases h
      exact .inr ⟨[], by rw [List.append_nil], rfl⟩

theorem moves_of_serve (hdown : s.down = false) (hs : serve s a = some (s', o)) : Moves s a s' o := by
  cases a
  case receive => contradiction
  case hangUp  => contradiction
  case read c =>
    simp only [serve] at hs
    split at hs
    case h_1 payload rest hphase hframe =>
      cases hs
      exact .reads hdown hphase hframe
    case h_2 e hphase hframe =>
      split at hs
      case isFalse => contradiction
      case isTrue hended =>
        cases hs
        exact .closes hdown hphase hframe hended
    case h_3 => contradiction
  case act c w =>
    simp only [serve] at hs
    split at hs
    case h_2 => contradiction
    case h_1 call hphase =>
      obtain ⟨⟨call', server⟩, hact, heq⟩ := Option.map_eq_some_iff.mp hs
      cases heq
      exact .acts hdown hphase hact
  case respond c written =>
    simp only [serve] at hs
    split at hs
    case h_2 => contradiction
    case h_1 call hphase =>
      obtain ⟨result, hresult, hmap⟩ := Option.bind_eq_some_iff.mp hs
      obtain ⟨⟨conn, o'⟩, hfinish, heq⟩ := Option.map_eq_some_iff.mp hmap
      cases heq
      cases Conn.finish_cases hfinish
      case inl hanswer =>
        obtain ⟨response, rfl, rfl, rfl, rfl⟩ := hanswer
        exact .answers hdown hphase hresult
      case inr hfail =>
        obtain ⟨part, rfl, rfl⟩ := hfail
        exact .fails hdown hphase hresult hfinish
  case background server =>
    cases hs
    exact .changes hdown

theorem moves (hs : machine.step s a = some (s', o)) : Moves s a s' o := by
  have hserve : (if s.down then none else serve s a) = some (s', o) → Moves s a s' o := by
    intro hs
    split at hs
    case isTrue        => contradiction
    case isFalse hdown => exact moves_of_serve (by simpa using hdown) hs
  cases a
  case receive c bs =>
    simp only [machine] at hs
    split at hs
    case isTrue => contradiction
    case isFalse hended =>
      cases hs
      exact .receives (by simpa using hended)
  case hangUp c =>
    simp only [machine] at hs
    split at hs
    case isTrue => contradiction
    case isFalse hended =>
      cases hs
      exact .hangsUp (by simpa using hended)
  all_goals exact hserve hs

theorem step_of_moves (h : Moves s a s' o) : machine.step s a = some (s', o) := by
  cases h
  case receives hended => simp [machine, hended]
  case hangsUp hended  => simp [machine, hended]
  case closes hdown hphase hframe hended  => simp [machine, serve, hdown, hphase, hframe, hended]
  case reads hdown hphase hframe          => simp [machine, serve, hdown, hphase, hframe]
  case acts hdown hphase hact             => simp [machine, serve, hdown, hphase, hact]
  case answers hdown hphase hresult       => simp [machine, serve, hdown, hphase, hresult, Conn.finish, isPanic]
  case fails hdown hphase hresult hfinish => simp [machine, serve, hdown, hphase, hresult, hfinish]
  case changes hdown                      => simp [machine, serve, hdown]

-- What has come in on a connection, the requests that were read off it, and the responses that were written to it.
def received (c : Nat) (os : List Output) : Bytes :=
  os.flatMap fun
    | .received c' bs => if c' = c then bs else []
    | _               => []

def requests (c : Nat) (os : List Output) : List Bytes :=
  os.filterMap fun
    | .request c' payload => if c' = c then some payload else none
    | _                   => none

def responses (c : Nat) (os : List Output) : List Bytes :=
  os.filterMap fun
    | .response c' payload => if c' = c then some payload else none
    | _                    => none

-- A step of a handler, with the server as it found and left it.
structure Act where
  w      : Surroundings
  before : Server
  after  : Server

-- A request with the steps that were taken for it and its response.
structure Exchange where
  request  : Bytes
  acts     : List Act
  response : Bytes

-- The requests of a connection that have been answered, and the one that has not.
structure History where
  answered : List Exchange
  current  : Option (Bytes × List Act)

def History.note (c : Nat) (h : History) : Output → History
  | .request c' payload => if c' = c then { h with current := some (payload, []) } else h
  | .acted c' w before after =>
    if c' = c then { h with current := h.current.map fun x => (x.fst, x.snd ++ [⟨w, before, after⟩]) } else h
  | .response c' response =>
    if c' = c then
      { answered := h.answered ++ h.current.toList.map fun x => ⟨x.fst, x.snd, response⟩, current := none }
    else
      h
  | _ => h

def history (c : Nat) (os : List Output) : History :=
  os.foldl (.note c) ⟨[], none⟩

-- The steps have taken the call of `Dispatch` for the request to where it is now, one after another.
inductive Performs (payload : Bytes) : List Act → Call → Prop
  | start : Performs payload [] (.start payload)
  | act {acts : List Act} {call call' : Call} {w : Surroundings} {before after : Server} : Performs payload acts call →
    call.act w before = some (call', after) → Performs payload (acts ++ [⟨w, before, after⟩]) call'

-- The response is what the handler has returned after its steps, and it has the correlation id of the request.
structure Exchange.Answers (x : Exchange) : Prop where
  performed     : ∃ call, Performs x.request x.acts call ∧ call.result = some (.ok x.response)
  correlationID : x.response.take 4 = slice x.request 4 8

-- What a connection is doing for the request that it has not answered. If it has given it up, there is no other one.
inductive UnderWay : Phase → Option (Bytes × List Act) → Prop
  | reading : UnderWay .reading none
  | handling {payload : Bytes} {acts : List Act} {call : Call} : Performs payload acts call →
    UnderWay (.handling call) (some (payload, acts))
  | ended : UnderWay .closed none
  | failed {payload : Bytes} {acts : List Act} {call : Call} {result : Except Fault Bytes} :
    Performs payload acts call → call.result = some result → UnderWay .closed (some (payload, acts))

-- The requests of a connection are read off what has come in, frame by frame, and handled one at a time. The responses
-- follow in their order.
structure InOrder (s : State) (os : List Output) (c : Nat) : Prop where
  input     : received c os = (requests c os).flatMap writeFrame ++ (s.conns c).input
  output    : ∃ part, (s.conns c).output = (responses c os).flatMap writeFrame ++ part ∧
    ((s.conns c).phase ≠ .closed → part = [])
  requests  : requests c os = (history c os).answered.map (·.request) ++ (history c os).current.toList.map (·.fst)
  responses : responses c os = (history c os).answered.map (·.response)
  answered  : ∀ x ∈ (history c os).answered, x.Answers
  current   : UnderWay (s.conns c).phase (history c os).current

-- The server has been changed by the steps of the handlers, each on what it found, and by the background.
def Evolves (server : Server) : List Output → Server → Prop
  | [], server'                            => server' = server
  | .acted _ _ before after :: os, server' => before = server ∧ Evolves after os server'
  | .changed after :: os, server'          => Evolves after os server'
  | _ :: os, server'                       => Evolves server os server'

theorem received_append (c : Nat) (os o : List Output) : received c (os ++ o) = received c os ++ received c o :=
  List.flatMap_append

theorem requests_append (c : Nat) (os o : List Output) : requests c (os ++ o) = requests c os ++ requests c o :=
  List.filterMap_append

theorem responses_append (c : Nat) (os o : List Output) : responses c (os ++ o) = responses c os ++ responses c o :=
  List.filterMap_append

theorem history_append (c : Nat) (os o : List Output) : history c (os ++ o) = o.foldl (.note c) (history c os) :=
  List.foldl_append

theorem Evolves.append {server'' : Server} (h : Evolves server os server') (h' : Evolves server' o server'') :
    Evolves server (os ++ o) server'' := by
  induction os generalizing server
  case nil =>
    cases h
    exact h'
  case cons x os hi =>
    cases x
    case acted    => exact ⟨h.left, hi h.right⟩
    case received => exact hi h
    case request  => exact hi h
    case response => exact hi h
    case changed  => exact hi h

theorem Evolves.step (h : Evolves server os s.server) (hs : machine.step s a = some (s', o)) :
    Evolves server (os ++ o) s'.server := by
  refine h.append ?_
  cases moves hs
  case acts => exact ⟨rfl, rfl⟩
  all_goals rfl

section Correlation

-- Whatever happens in between, a response begins with the correlation id of its request.
theorem always_respond (payload : Bytes) :
    (respond payload).Always fun r => ∀ response rest, r = .ok (response, rest) →
      response.take 4 = slice payload 4 8 := by
  have hheader : Routine.Always (· = (readRequestHeader : Decoder RequestHeader).run payload)
      ((readRequestHeader : Goroutine Surroundings Serving RequestHeader) payload) := by
    rw [Server.stateless_readRequestHeader payload]
    rfl
  refine Goroutine.always_bind hheader (fun header body heq => ?_) fun fault _ => ?_
  · refine Goroutine.always_bind (Routine.always_true _) (fun responseBody rest _ => ?_) fun fault _ => ?_
    · rintro _ _ ⟨⟩
      rw [← correlationID_of_readRequestHeader heq.symm, writeResponseHeader]
      exact List.take_left' (length_putInt 32 _)
    · rintro _ _ ⟨⟩
  · rintro _ _ ⟨⟩

theorem Performs.always {P : Except Fault (Bytes × Bytes) → Prop} {acts : List Act} (h : Performs payload acts call)
    (hP : (respond payload).Always P) : call.routine.Always P := by
  induction h
  case start => exact hP
  case act call call' w before after hperforms hact hi =>
    obtain ⟨⟨routine, serving⟩, hresume, heq⟩ := Option.map_eq_some_iff.mp hact
    cases heq
    exact hi.resume hresume

theorem Performs.correlationID {acts : List Act} (h : Performs payload acts call)
    (hresult : call.result = some (.ok response)) : response.take 4 = slice payload 4 8 := by
  have halways := h.always (always_respond payload)
  obtain ⟨routine, count⟩ := call
  cases routine
  case step => contradiction
  case done r =>
    rcases r with fault | ⟨response', rest⟩
    case error =>
      cases hresult
    case ok =>
      cases hresult
      exact halways _ rest rfl

end Correlation

namespace InOrder

theorem init (server : Server) (c : Nat) : InOrder (.init server) [] c where
  input     := rfl
  output    := ⟨[], rfl, fun _ => rfl⟩
  requests  := rfl
  responses := rfl
  answered  := by simp [history]
  current   := .reading

-- Nothing is read off the connection or written to it, and its handler does nothing.
theorem keep (h : InOrder s os c) (hreceived : (s'.conns c).input = (s.conns c).input ++ received c o)
    (hrequests : Connection.requests c o = []) (hresponses : Connection.responses c o = [])
    (hhistory : history c (os ++ o) = history c os) (houtput : (s'.conns c).output = (s.conns c).output)
    (hclosed : (s'.conns c).phase ≠ .closed → (s.conns c).phase ≠ .closed)
    (hphase : UnderWay (s'.conns c).phase (history c os).current) : InOrder s' (os ++ o) c where
  input := by rw [received_append, requests_append, h.input, hrequests, hreceived, List.append_nil, List.append_assoc]
  output := by
    obtain ⟨part, heq, hpart⟩ := h.output
    exact ⟨part, by rw [houtput, responses_append, hresponses, List.append_nil, heq], fun hne => hpart (hclosed hne)⟩
  requests  := by rw [requests_append, hrequests, List.append_nil, hhistory, h.requests]
  responses := by rw [responses_append, hresponses, List.append_nil, hhistory, h.responses]
  answered  := by rw [hhistory]; exact h.answered
  current   := by rwa [hhistory]

theorem other (h : InOrder s os c) (hreceived : received c o = []) (hrequests : Connection.requests c o = [])
    (hresponses : Connection.responses c o = []) (hhistory : history c (os ++ o) = history c os)
    (hsame : s'.conns c = s.conns c) : InOrder s' (os ++ o) c := by
  refine h.keep ?_ hrequests hresponses hhistory (by rw [hsame]) (by rw [hsame]; exact id)
    (by rw [hsame]; exact h.current)
  rw [hsame, hreceived, List.append_nil]

theorem current_of_reading (h : InOrder s os c) (hphase : (s.conns c).phase = .reading) :
    (history c os).current = none := by
  have hcurrent := h.current
  rw [hphase] at hcurrent
  generalize (history c os).current = current at hcurrent
  cases hcurrent
  rfl

theorem current_of_handling (h : InOrder s os c) (hphase : (s.conns c).phase = .handling call) :
    ∃ payload acts, (history c os).current = some (payload, acts) ∧ Performs payload acts call := by
  have hcurrent := h.current
  rw [hphase] at hcurrent
  generalize (history c os).current = current at hcurrent
  cases hcurrent
  case handling payload acts hperforms => exact ⟨payload, acts, rfl, hperforms⟩

theorem output_of_open (h : InOrder s os c) (hphase : (s.conns c).phase ≠ .closed) :
    (s.conns c).output = (Connection.responses c os).flatMap writeFrame := by
  obtain ⟨part, heq, hpart⟩ := h.output
  rw [heq, hpart hphase, List.append_nil]

-- The next request is read.
theorem reads (h : InOrder s os c) (hphase : (s.conns c).phase = .reading)
    (hframe : readFrame.run (s.conns c).input = .ok (payload, rest))
    (hconn : s'.conns c = { s.conns c with input := rest, phase := .handling (.start payload) }) :
    InOrder s' (os ++ [.request c payload]) c := by
  have hrequests : Connection.requests c [.request c payload] = [payload] := by simp [Connection.requests]
  have hhistory : history c (os ++ [.request c payload]) = { history c os with current := some (payload, []) } := by
    simp [history_append, History.note]
  have houtput := h.output_of_open (by simp [hphase])
  refine ⟨?_, ⟨[], ?_, fun _ => rfl⟩, ?_, ?_, ?_, ?_⟩
  · rw [received_append, requests_append, hrequests, h.input, (eq_of_run_readFrame hframe).left, hconn]
    simp [received]
  · rw [hconn, responses_append, houtput]
    simp [Connection.responses]
  · rw [requests_append, hrequests, h.requests, h.current_of_reading hphase, hhistory]
    simp
  · rw [responses_append, h.responses, hhistory]
    simp [Connection.responses]
  · rw [hhistory]
    exact h.answered
  · rw [hhistory, hconn]
    exact .handling .start

-- The handler takes a step.
theorem acts (h : InOrder s os c) (hphase : (s.conns c).phase = .handling call)
    (hact : call.act w s.server = some (call', server))
    (hconn : s'.conns c = { s.conns c with phase := .handling call' }) :
    InOrder s' (os ++ [.acted c w s.server server]) c := by
  obtain ⟨payload, acts, hcurrent, hperforms⟩ := h.current_of_handling hphase
  have hhistory : history c (os ++ [.acted c w s.server server]) =
      { history c os with current := some (payload, acts ++ [⟨w, s.server, server⟩]) } := by
    simp [history_append, History.note, hcurrent]
  have houtput := h.output_of_open (by simp [hphase])
  refine ⟨?_, ⟨[], ?_, fun _ => rfl⟩, ?_, ?_, ?_, ?_⟩
  · rw [received_append, requests_append, h.input, hconn]
    simp [received, Connection.requests]
  · rw [hconn, responses_append, houtput]
    simp [Connection.responses]
  · rw [requests_append, h.requests, hcurrent, hhistory]
    simp [Connection.requests]
  · rw [responses_append, h.responses, hhistory]
    simp [Connection.responses]
  · rw [hhistory]
    exact h.answered
  · rw [hhistory, hconn]
    exact .handling (hperforms.act hact)

-- The whole response is written.
theorem answers (h : InOrder s os c) (hphase : (s.conns c).phase = .handling call)
    (hresult : call.result = some (.ok response))
    (hconn : s'.conns c = { s.conns c with
      output := (s.conns c).output ++ writeFrame response, phase := .reading }) :
    InOrder s' (os ++ [.response c response]) c := by
  obtain ⟨payload, acts, hcurrent, hperforms⟩ := h.current_of_handling hphase
  have hresponses : Connection.responses c [.response c response] = [response] := by simp [Connection.responses]
  have hhistory : history c (os ++ [.response c response]) =
      { answered := (history c os).answered ++ [⟨payload, acts, response⟩], current := none } := by
    simp [history_append, History.note, hcurrent]
  have houtput := h.output_of_open (by simp [hphase])
  refine ⟨?_, ⟨[], ?_, fun _ => rfl⟩, ?_, ?_, ?_, ?_⟩
  · rw [received_append, requests_append, h.input, hconn]
    simp [received, Connection.requests]
  · rw [hconn, responses_append, hresponses, houtput]
    simp
  · rw [requests_append, h.requests, hcurrent, hhistory]
    simp [Connection.requests]
  · rw [responses_append, hresponses, h.responses, hhistory]
    simp
  · rw [hhistory]
    intro x hx
    cases List.mem_append.mp hx
    case inl hx => exact h.answered x hx
    case inr hx =>
      cases List.mem_singleton.mp hx
      exact ⟨⟨call, hperforms, hresult⟩, hperforms.correlationID hresult⟩
  · rw [hhistory, hconn]
    exact .reading

-- The response is not written, or only a part of it.
theorem fails {part : Bytes} {result : Except Fault Bytes} (h : InOrder s os c)
    (hphase : (s.conns c).phase = .handling call) (hresult : call.result = some result)
    (hconn : s'.conns c = { s.conns c with output := (s.conns c).output ++ part, phase := .closed }) :
    InOrder s' (os ++ []) c := by
  obtain ⟨payload, acts, hcurrent, hperforms⟩ := h.current_of_handling hphase
  rw [List.append_nil]
  refine ⟨?_, ⟨part, ?_, fun hne => absurd (by rw [hconn]) hne⟩, h.requests, h.responses, h.answered, ?_⟩
  · rw [h.input, hconn]
  · rw [hconn, h.output_of_open (by simp [hphase])]
  · rw [hconn, hcurrent]
    exact .failed hperforms hresult

theorem step (h : ∀ c, InOrder s os c) (hs : machine.step s a = some (s', o)) (c : Nat) : InOrder s' (os ++ o) c := by
  -- The connection that the step is about, and the others.
  have hne : ∀ {c' conn}, s'.conns = Function.update s.conns c' conn → c ≠ c' → s'.conns c = s.conns c := by
    intro c' conn hconns hc
    rw [hconns, Function.update_of_ne hc]
  cases moves hs
  case receives c' bs hended =>
    by_cases hc : c = c'
    case pos =>
      subst hc
      refine (h c).keep ?_ rfl rfl (by simp [history_append, History.note]) ?_ ?_ ?_
      · simp [State.setConn, received]
      · simp [State.setConn]
      · simp [State.setConn]
      · simpa [State.setConn] using (h c).current
    case neg =>
      exact (h c).other (by simp [received, Ne.symm hc]) rfl rfl (by simp [history_append, History.note]) (hne rfl hc)
  case hangsUp c' hended =>
    by_cases hc : c = c'
    case pos =>
      subst hc
      refine (h c).keep ?_ rfl rfl (by rw [List.append_nil]) ?_ ?_ ?_
      · simp [State.setConn, received]
      · simp [State.setConn]
      · simp [State.setConn]
      · simpa [State.setConn] using (h c).current
    case neg => exact (h c).other rfl rfl rfl (by rw [List.append_nil]) (hne rfl hc)
  case closes c' e hdown hphase hframe hended =>
    by_cases hc : c = c'
    case pos =>
      subst hc
      refine (h c).keep ?_ rfl rfl (by rw [List.append_nil]) ?_ ?_ ?_
      · simp [State.setConn, received]
      · simp [State.setConn]
      · simp [State.setConn]
      · rw [(h c).current_of_reading hphase]
        simpa [State.setConn] using UnderWay.ended
    case neg => exact (h c).other rfl rfl rfl (by rw [List.append_nil]) (hne rfl hc)
  case reads c' payload rest hdown hphase hframe =>
    by_cases hc : c = c'
    case pos =>
      subst hc
      exact (h c).reads hphase hframe (Function.update_self ..)
    case neg =>
      exact (h c).other rfl (by simp [Connection.requests, Ne.symm hc]) rfl
        (by simp [history_append, History.note, Ne.symm hc]) (hne rfl hc)
  case acts c' w call call' server hdown hphase hact =>
    by_cases hc : c = c'
    case pos =>
      subst hc
      exact (h c).acts hphase hact (Function.update_self ..)
    case neg =>
      exact (h c).other rfl rfl rfl (by simp [history_append, History.note, Ne.symm hc]) (hne rfl hc)
  case answers c' call response hdown hphase hresult =>
    by_cases hc : c = c'
    case pos =>
      subst hc
      exact (h c).answers hphase hresult (Function.update_self ..)
    case neg =>
      exact (h c).other rfl rfl (by simp [Connection.responses, Ne.symm hc])
        (by simp [history_append, History.note, Ne.symm hc]) (hne rfl hc)
  case fails c' written call result part hdown hphase hresult hfinish =>
    by_cases hc : c = c'
    case pos =>
      subst hc
      exact (h c).fails hphase hresult (Function.update_self ..)
    case neg => exact (h c).other rfl rfl rfl (by rw [List.append_nil]) (hne rfl hc)
  case changes server hdown =>
    exact (h c).other rfl rfl rfl (by simp [history_append, History.note]) rfl

end InOrder

theorem evolves_nil (server : Server) : Evolves server [] server :=
  rfl

theorem inductive_inOrder (server : Server) :
    machine.Inductive (fun _ _ => True) fun s os => Evolves server os s.server ∧ ∀ c, InOrder s os c where
  step h _ hs := ⟨h.left.step hs, InOrder.step h.right hs⟩

-- On every connection the requests that have come in as a whole are handled in their order, each once and one at a
-- time, however the steps of the handlers interleave, and the client reads the responses in the same order.
theorem responses_inOrder (hr : machine.run (.init server) as = some (s, os)) :
    Evolves server os s.server ∧ ∀ c, InOrder s os c ∧
      ((s.conns c).phase ≠ .closed → (∀ r ∈ responses c os, r.length < 2 ^ 32) →
        readFrames (s.conns c).output = responses c os) := by
  obtain ⟨hevolves, h⟩ := (inductive_inOrder server).run_nil ⟨evolves_nil server, InOrder.init server⟩
    (Machine.along_true _ _) hr
  refine ⟨hevolves, fun c => ⟨h c, fun hopen hlength => ?_⟩⟩
  rw [(h c).output_of_open hopen]
  exact readFrames_flatMap fun r hr => Cluster.reads_readFrame (hlength r hr)

section Example

-- Two clients that create the same topic. Both find that there is none before either of them has logged it.
def duellingClients (w : Surroundings) : List Step := [
  .receive 0 (writeFrame (writeRequestHeader ⟨19, 0, 7, none⟩ ++ Client.createTopic [116] 1 1)),
  .receive 1 (writeFrame (writeRequestHeader ⟨19, 0, 8, none⟩ ++ Client.createTopic [116] 1 1)),
  .read 0, .read 1, .act 0 w, .act 1 w, .act 0 w, .act 1 w, .act 1 w, .act 0 w, .act 0 w, .act 1 w,
  .respond 1 none, .respond 0 none]

theorem responses_inOrder_duelling :
    ∃ s os, machine.run (.init sampleServer) (duellingClients sampleSurroundings) = some (s, os) ∧
      responses 0 os = [writeInt32 7 ++ writeTopicResults [([116], .none)]] ∧
      responses 1 os = [writeInt32 8 ++ writeTopicResults [([116], .none)]] ∧
      Evolves sampleServer os s.server ∧ InOrder s os 0 ∧ InOrder s os 1 := by
  have hrun : (machine.run (.init sampleServer) (duellingClients sampleSurroundings)).map
      (fun r => (responses 0 r.snd, responses 1 r.snd)) =
      some ([writeInt32 7 ++ writeTopicResults [([116], .none)]],
        [writeInt32 8 ++ writeTopicResults [([116], .none)]]) := by
    decide +kernel
  obtain ⟨⟨s, os⟩, hr, hresponses⟩ := Option.map_eq_some_iff.mp hrun
  obtain ⟨hfirst, hsecond⟩ := Prod.mk.inj hresponses
  obtain ⟨hevolves, hinOrder⟩ := responses_inOrder hr
  exact ⟨s, os, hr, hfirst, hsecond, hevolves, (hinOrder 0).left, (hinOrder 1).left⟩

end Example

-- The state with more to read on the connections.
def State.feed (s : State) (more : Nat → Bytes) : State :=
  { s with conns := fun c => { s.conns c with input := (s.conns c).input ++ more c } }

def Step.isReceive : Step → Bool
  | .receive .. => true
  | _           => false

def Output.isReceived : Output → Bool
  | .received .. => true
  | _            => false

-- All that comes in on a connection in the course of the steps.
def sent (as : List Step) (c : Nat) : Bytes :=
  as.flatMap fun
    | .receive c' bs => if c' = c then bs else []
    | _              => []

theorem sent_cons (a : Step) (as : List Step) (c : Nat) : sent (a :: as) c = sent [a] c ++ sent as c := by
  simp [sent]

-- Nothing comes in once the client has ended its side.
theorem ended_of_step (h : (s.conns c).ended = true) (hs : machine.step s a = some (s', o)) :
    (s'.conns c).ended = true ∧ sent [a] c = [] := by
  have hset : ∀ c' conn, s'.conns = Function.update s.conns c' conn →
      ((s.conns c').ended = true → conn.ended = true) → (s'.conns c).ended = true := by
    intro c' conn hconns hended
    rw [hconns]
    by_cases hc : c = c'
    case pos =>
      subst hc
      rw [Function.update_self]
      exact hended h
    case neg => rwa [Function.update_of_ne hc]
  cases moves hs
  case receives c' bs hended =>
    refine ⟨hset c' _ rfl id, ?_⟩
    have hc : c' ≠ c := by
      rintro rfl
      rw [h] at hended
      contradiction
    simp [sent, hc]
  case hangsUp => exact ⟨hset _ _ rfl fun _ => rfl, rfl⟩
  case closes  => exact ⟨hset _ _ rfl id, rfl⟩
  case reads   => exact ⟨hset _ _ rfl id, rfl⟩
  case acts    => exact ⟨hset _ _ rfl id, rfl⟩
  case answers => exact ⟨hset _ _ rfl id, rfl⟩
  case fails   => exact ⟨hset _ _ rfl id, rfl⟩
  case changes => exact ⟨h, rfl⟩

theorem sent_eq_nil (h : (s.conns c).ended = true) (hr : machine.run s as = some (s', os)) : sent as c = [] := by
  induction as generalizing s os
  case nil => rfl
  case cons a as hi =>
    obtain ⟨s₁, o, o', hs, hr, -⟩ := Machine.run_cons_eq_some.mp hr
    obtain ⟨hended, hnil⟩ := ended_of_step h hs
    rw [sent_cons, hnil, hi hended hr]
    rfl

theorem Conn.finish_input (conn : Conn) (bs : Bytes) (c : Nat) (written : Option Nat) (result : Except Fault Bytes) :
    { conn with input := bs }.finish c written result =
      (conn.finish c written result).map fun r => ({ r.fst with input := bs }, r.snd) := by
  rcases result with fault | response
  case error => cases fault <;> rfl
  case ok    => cases written <;> rfl

theorem feed_setConn (s : State) (more : Nat → Bytes) (c : Nat) (conn : Conn) (server : Server) (down : Bool) :
    State.feed { s.setConn c conn with server, down } more =
      { (s.feed more).setConn c { conn with input := conn.input ++ more c } with server, down } := by
  have hconns : (State.feed { s.setConn c conn with server, down } more).conns =
      Function.update (s.feed more).conns c { conn with input := conn.input ++ more c } := by
    funext c'
    by_cases hc : c' = c
    case pos => simp [State.feed, State.setConn, hc]
    case neg => simp [State.feed, State.setConn, hc]
  exact congrArg (State.mk server · down) hconns

-- Only reading takes something off the input, and it takes a whole frame, so what comes in behind makes no difference.
theorem step_feed {more : Nat → Bytes} (hmore : ∀ c, (s.conns c).ended = true → more c = [])
    (ha : a.isReceive = false) (hs : machine.step s a = some (s', o)) :
    machine.step (s.feed more) a = some (s'.feed more, o) := by
  apply step_of_moves
  cases moves hs
  case receives => contradiction
  case hangsUp c hended => exact feed_setConn s more c _ s.server s.down ▸ .hangsUp hended
  case closes c e hdown hphase hframe hended =>
    have hinput : (s.feed more).conns c = s.conns c := by simp [State.feed, hmore c hended]
    exact feed_setConn s more c _ s.server s.down ▸ .closes hdown hphase (by rw [hinput]; exact hframe) hended
  case reads c payload rest hdown hphase hframe =>
    have hframe' : readFrame.run ((s.feed more).conns c).input = .ok (payload, rest ++ more c) :=
      stable_readFrame _ _ _ (more c) hframe
    exact feed_setConn s more c _ s.server s.down ▸ .reads hdown hphase hframe'
  case acts c w call call' server hdown hphase hact =>
    exact feed_setConn s more c _ server s.down ▸ .acts hdown hphase hact
  case answers c call response hdown hphase hresult =>
    exact feed_setConn s more c _ s.server false ▸ .answers hdown hphase hresult
  case fails c written call result part hdown hphase hresult hfinish =>
    have hinput := Conn.finish_input (s.conns c) ((s.conns c).input ++ more c) c written result
    rw [hfinish] at hinput
    exact feed_setConn s more c _ s.server (isPanic result) ▸ .fails hdown hphase hresult hinput
  case changes server hdown => exact .changes hdown

theorem feed_feed (s : State) (more more' : Nat → Bytes) :
    (s.feed more).feed more' = s.feed fun c => more c ++ more' c := by
  simp [State.feed]

theorem feed_receive (s : State) (c : Nat) (bs : Bytes) :
    s.setConn c { s.conns c with input := (s.conns c).input ++ bs } = s.feed (sent [.receive c bs]) := by
  have hconns : (s.setConn c { s.conns c with input := (s.conns c).input ++ bs }).conns =
      (s.feed (sent [.receive c bs])).conns := by
    funext c'
    by_cases hc : c' = c
    case pos => simp [State.feed, State.setConn, sent, hc]
    case neg => simp [State.feed, State.setConn, sent, hc, Ne.symm hc]
  exact congrArg (State.mk s.server · s.down) hconns

theorem isReceived_of_step (ha : a.isReceive = false) (hs : machine.step s a = some (s', o)) :
    o.filter (!·.isReceived) = o := by
  cases moves hs
  case receives => contradiction
  all_goals rfl

-- Whether the bytes are there from the start or come in on the way makes no difference.
theorem run_feed (hr : machine.run s as = some (s', os)) :
    machine.run (s.feed (sent as)) (as.filter (!·.isReceive)) = some (s', os.filter (!·.isReceived)) := by
  induction as generalizing s os
  case nil =>
    cases hr
    simp [sent, State.feed]
  case cons a as hi =>
    obtain ⟨s₁, o, o', hs, hr', rfl⟩ := Machine.run_cons_eq_some.mp hr
    have hfeed : s.feed (sent (a :: as)) = (s.feed (sent [a])).feed (sent as) := by
      rw [feed_feed]
      exact congrArg s.feed (funext (sent_cons a as))
    cases ha : a.isReceive
    case true =>
      cases moves hs <;> cases ha
      case receives c bs hended =>
        rw [feed_receive] at hr'
        rw [hfeed, List.filter_cons_of_neg (by simp [Step.isReceive]), List.filter_append]
        exact hi hr'
    case false =>
      have hnil : s.feed (sent [a]) = s := by
        cases a <;> cases ha <;> simp [sent, State.feed]
      have hmore : ∀ c, (s.conns c).ended = true → sent as c = [] := by
        intro c hended
        have := sent_eq_nil hended hr
        rw [sent_cons] at this
        exact (List.append_eq_nil_iff.mp this).right
      rw [hfeed, hnil, List.filter_cons_of_pos (by simp [ha]), List.filter_append, isReceived_of_step ha hs]
      exact Machine.run_cons_of_some (step_feed hmore ha hs) (hi hr')

-- How the network cuts the bytes of a connection into pieces, and when the pieces come in, cannot be seen.
theorem run_eq_of_sent {s₁ s₂ : State} {os₁ os₂ : List Output} (hr₁ : machine.run s as = some (s₁, os₁))
    (hr₂ : machine.run s bs = some (s₂, os₂)) (hsteps : as.filter (!·.isReceive) = bs.filter (!·.isReceive))
    (hsent : ∀ c, sent as c = sent bs c) :
    s₁ = s₂ ∧ os₁.filter (!·.isReceived) = os₂.filter (!·.isReceived) := by
  have h₁ := run_feed hr₁
  have h₂ := run_feed hr₂
  rw [hsteps, funext hsent, h₂, Option.some.injEq, Prod.mk.injEq] at h₁
  exact ⟨h₁.left.symm, h₁.right.symm⟩

section Example

def pingRequest (correlationID : Int) : Bytes :=
  writeFrame (writeRequestHeader ⟨1001, 0, correlationID, none⟩)

-- Two requests in three pieces, of which the second one belongs to both.
def pipelined (w : Surroundings) : List Step := [
  .receive 0 ((pingRequest 7).take 3),
  .receive 0 ((pingRequest 7).drop 3 ++ (pingRequest 8).take 5),
  .read 0, .act 0 w, .respond 0 none,
  .receive 0 ((pingRequest 8).drop 5),
  .read 0, .act 0 w, .respond 0 none]

-- The requests at once.
def batched (w : Surroundings) : List Step := [
  .receive 0 (pingRequest 7 ++ pingRequest 8),
  .read 0, .act 0 w, .respond 0 none,
  .read 0, .act 0 w, .respond 0 none]

theorem run_eq_of_sent_pipelined :
    ∃ s os os', machine.run (.init sampleServer) (pipelined sampleSurroundings) = some (s, os) ∧
      machine.run (.init sampleServer) (batched sampleSurroundings) = some (s, os') ∧
      os.filter (!·.isReceived) = os'.filter (!·.isReceived) := by
  have hsome : (machine.run (.init sampleServer) (pipelined sampleSurroundings)).isSome ∧
      (machine.run (.init sampleServer) (batched sampleSurroundings)).isSome := by
    decide +kernel
  obtain ⟨⟨s, os⟩, hr⟩ := Option.isSome_iff_exists.mp hsome.left
  obtain ⟨⟨s', os'⟩, hr'⟩ := Option.isSome_iff_exists.mp hsome.right
  have hsent : ∀ c, sent (pipelined sampleSurroundings) c = sent (batched sampleSurroundings) c := by
    intro c
    by_cases hc : 0 = c
    case pos =>
      subst hc
      decide +kernel
    case neg => simp [sent, pipelined, batched, hc]
  obtain ⟨rfl, hos⟩ := run_eq_of_sent hr hr' rfl hsent
  exact ⟨s, os, os', hr, hr', hos⟩

end Example

end Network.Connection
