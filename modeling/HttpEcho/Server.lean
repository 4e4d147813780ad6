import HttpEcho.Connection.Answer
import HttpEcho.Connection.Reader

/-!
# The server

Clients connect, send and close at any time. The server accepts one connection after the other and
answers it before it looks for the next. Between two connections it looks whether it is to stop, and
while it waits for bytes as well.
-/

namespace HttpEcho

/-- A connection: what the client sent and the server has not read yet, and whether more can come. -/
structure Visit where
  arrival : Arrival
  unread : Bytes
  closed : Bool
  deriving DecidableEq, Repr

inductive Phase
  /-- At the head of the accept loop. -/
  | idle
  /-- The server is not to stop and looks for a connection. -/
  | accepting
  | serving (visit : Nat) (reader : Reader)
  | stopped
  deriving DecidableEq, Repr

structure Server where
  address : Text
  /-- In the order in which they connected, which is that in which they are accepted. -/
  visits : List Visit
  accepted : Nat
  stopping : Bool
  phase : Phase
  /-- The responses so far with the visits they went to. -/
  responses : List (Nat × Response)
  log : List Log.Event
  deriving DecidableEq, Repr

namespace Server

/-- The moves of the clients, of whoever stops the server, and of the server. -/
inductive Step
  | connect (arrival : Arrival)
  | send (visit : Nat) (bytes : Bytes)
  | close (visit : Nat)
  | trigger
  | interrupt
  | check
  | accept
  | read (count : Nat)
  | timeOut
  | answer
  deriving DecidableEq, Repr

def listening (bound address : Text) : Server where
  address
  visits := []
  accepted := 0
  stopping := false
  phase := .idle
  responses := []
  log := [Connection.listening bound]

def record (s : Server) (e : Log.Event) : Server := { s with log := s.log ++ [e] }

def stop (s : Server) : Server := { s with stopping := true }

def setVisit (s : Server) (i : Nat) (v : Visit) : Server := { s with visits := s.visits.set i v }

def check? (s : Server) : Option Server :=
  match s.phase with
  | .idle =>
    if s.stopping then
      some (({ s with phase := .stopped }).record (Connection.listenerClosed s.address))
    else some { s with phase := .accepting }
  | _ => none

/-- Without a connection to accept, the server is back at the head of the loop. -/
def accept? (s : Server) : Option Server :=
  match s.phase with
  | .accepting =>
    match s.visits[s.accepted]? with
    | none => some { s with phase := .idle }
    | some v =>
      some (({ s with phase := .serving s.accepted .start, accepted := s.accepted + 1 }).record
        (Connection.opened v.arrival.peer))
  | _ => none

/-- A read returns bytes that are there, and the end of the stream when there are none and none come. -/
def read? (s : Server) (count : Nat) : Option Server :=
  match s.phase with
  | .serving i (.reading buffer wanted) =>
    match s.visits[i]? with
    | none => none
    | some v =>
      let reader := Reader.reading buffer wanted
      if v.unread = [] then
        if v.closed then some { s with phase := .serving i (reader.step .closed) } else none
      else if 0 < count ∧ count ≤ readChunk then
        some (({ s with phase := .serving i (reader.step (.piece (v.unread.take count))) }).setVisit i
          { v with unread := v.unread.drop count })
      else none
  | _ => none

/-- A read times out, and the server looks at once whether it is to stop: one step for both. The
time-out alone changes nothing that the others see. So a stop between the two could as well have come
before them, and what a client does between them could as well come after them. -/
def timeOut? (s : Server) : Option Server :=
  match s.phase with
  | .serving i (.reading buffer wanted) =>
    match s.visits[i]? with
    | some ⟨_, [], false⟩ =>
      some { s with phase := .serving i ((Reader.reading buffer wanted).step (.timedOut s.stopping)) }
    | _ => none
  | _ => none

def answer? (s : Server) : Option Server :=
  match s.phase with
  | .serving i reader =>
    match s.visits[i]?, reader with
    | none, _ | _, .reading _ _ => none
    | some v, .abandoned =>
      some (({ s with phase := .idle }).record (Connection.abandoned v.arrival.peer))
    | some v, .finished [] =>
      some (({ s with phase := .idle }).record (Connection.silent v.arrival.peer))
    | some v, .finished raw =>
      let reply := Connection.answer v.arrival raw
      some { s with
        phase := .idle
        responses := s.responses ++ [(i, reply.response)]
        log := s.log ++ reply.log }
  | _ => none

def step? (s : Server) : Step → Option Server
  | .connect arrival => some { s with visits := s.visits ++ [⟨arrival, [], false⟩] }
  | .send i bytes =>
    match s.visits[i]? with
    | some ⟨arrival, unread, false⟩ => some (s.setVisit i ⟨arrival, unread ++ bytes, false⟩)
    | _ => none
  | .close i => s.visits[i]?.map fun v => s.setVisit i { v with closed := true }
  | .trigger => some s.stop
  | .interrupt => some (s.stop.record Connection.interrupted)
  | .check => s.check?
  | .accept => s.accept?
  | .read count => s.read? count
  | .timeOut => s.timeOut?
  | .answer => s.answer?

def run? (s : Server) (steps : List Step) : Option Server := steps.foldlM step? s

/-- The server's next move, if it has one without another move of a client. -/
def next? (s : Server) : Option Step :=
  match s.phase with
  | .idle => some .check
  | .accepting => if s.accepted < s.visits.length ∨ s.stopping then some .accept else none
  | .serving i (.reading _ _) =>
    match s.visits[i]? with
    | none => none
    | some v =>
      if v.unread ≠ [] ∨ v.closed then some (.read readChunk)
      else if s.stopping then some .timeOut
      else none
  | .serving _ _ => some .answer
  | .stopped => none

def advance (s : Server) : Nat → Server
  | 0 => s
  | n + 1 =>
    match s.next?.bind s.step? with
    | none => s
    | some s => s.advance n

/-- A bound on the moves that the server can make by itself. -/
def work (s : Server) : Nat := s.visits.foldl (fun n v => n + v.unread.length + 6) 6

/-- Lets the server do what it can by itself. -/
def settle (s : Server) : Server := s.advance s.work

/-- A step of a client or of the trigger, and what the server makes of it. -/
def after (s : Server) (steps : List Step) : Server := ((s.run? steps).getD s).settle

def received (s : Server) (visit : Nat) : Bytes :=
  (s.responses.lookup visit).elim [] Response.toBytes

end Server

end HttpEcho
