import HttpEcho.Session
import Std.Async.DNS
import Std.Async.Signal
import Std.Async.TCP
import Std.Async.Timer
import Std.Time.DateTime.Timestamp

/-!
# The program

Sockets, the clock, the interrupt and the standard streams. What is read, answered and printed is
decided by the modules below this one.
-/

namespace HttpEcho.Main

open Std.Async
open Std.Net (IPAddr SocketAddress)

abbrev Stream := TCP.Socket.Client

abbrev Listener := TCP.Socket.Server

/-- How long the server sleeps when there is nothing to accept. -/
def acceptPause : Std.Time.Millisecond.Offset := 50

/-- How long a read waits before the server looks whether it is to stop, and how long the bytes that a
client sends after its answer are taken. -/
def readPause : Std.Time.Millisecond.Offset := 100

def backlog : UInt32 := 128

def now : IO Instant := do
  let t ← Std.Time.Timestamp.now
  return ⟨t.val.second.val, t.val.nano.val.toNat⟩

def print (stream : IO.FS.Stream) (t : Text) : IO Unit := do
  stream.putStr (String.ofList t)
  stream.flush

def logEvents (filter : Log.Filter) (events : List Log.Event) : IO Unit := do
  let time := (← now).logTime
  print (← IO.getStdout) (events.flatMap (Session.logText filter time))

def environment : IO Environment := do
  let values ← Session.variableNames.mapM fun name => return (name, ← IO.getEnv (String.ofList name))
  return values.filterMap fun (name, value) => value.map fun v => (name, v.toList)

def bytesOf (a : ByteArray) : Bytes := a.data.toList

def endpointOf : SocketAddress → Endpoint
  | .v4 a =>
    let o := a.addr.octets
    ⟨.v4 o[0] o[1] o[2] o[3], a.port, 0⟩
  | .v6 a => ⟨.v6 a.addr.segments, a.port, 0⟩

def socketAddress (ip : IPAddr) (port : UInt16) : SocketAddress :=
  match ip with
  | .v4 addr => .v4 ⟨addr, port⟩
  | .v6 addr => .v6 ⟨addr, port⟩

def systemText (e : IO.Error) : Text := (toString e).toList

structure Context where
  filter : Log.Filter
  stopping : IO.Ref Bool

namespace Context

def log (c : Context) (event : Log.Event) : IO Unit := logEvents c.filter [event]

/-- What comes next from a client within `readPause`. -/
def receive (c : Context) (client : Stream) : Async ReadEvent := do
  Selectable.one #[
    .case (client.recvSelector readChunk.toUInt64) fun
      | some bytes => return .piece (bytesOf bytes)
      | none => return .closed,
    .case (← Selector.sleep readPause) fun () => return .timedOut (← c.stopping.get)]

def readRequest (c : Context) (client : Stream) : Async Reader := do
  let mut reader := Reader.start
  repeat
    match reader with
    | .reading .. => reader := reader.step (← c.receive client)
    | _ => break
  return reader

/-- Takes what the client still sends, so that the answer is not lost with it. A client that is gone
already is no error. -/
def drain (c : Context) (client : Stream) : Async Unit := do
  try
    client.shutdown
    repeat
      match ← c.receive client with
      | .piece _ => continue
      | _ => break
  catch _ => return

def handle (c : Context) (client : Stream) (peer : Endpoint) : Async Unit := do
  match ← c.readRequest client with
  | .reading .. | .abandoned => c.log (Connection.abandoned peer.text)
  | .finished [] => c.log (Connection.silent peer.text)
  | .finished raw =>
    let received ← now
    let reply := Connection.answer (.of received received peer) raw
    client.send ⟨reply.response.toBytes.toArray⟩
    logEvents c.filter reply.log
    c.drain client

/-- Serves one connection after the other. An error ends only the connection it came from. -/
def serve (c : Context) (listener : Listener) : Async Unit := do
  repeat
    if ← c.stopping.get then break
    match ← (listener.tryAccept).toBaseIO with
    | .ok (some client) =>
      let peer := endpointOf (← client.getPeerName)
      c.log (Connection.opened peer.text)
      try c.handle client peer
      catch e => c.log (Connection.failed peer.text (systemText e))
    | .ok none => sleep acceptPause
    | .error e =>
      c.log (Connection.acceptFailed (systemText e))
      sleep acceptPause

end Context

def listen (c : Config) : Async Listener := do
  let host := String.ofList (c.host.filter fun x => x ≠ '[' ∧ x ≠ ']')
  match (← DNS.getAddrInfo host "").toList with
  | [] => throw (IO.userError "no address")
  | ip :: _ =>
    let listener ← TCP.Socket.Server.mk
    listener.bind (socketAddress ip c.port)
    listener.listen backlog
    return listener

def bindError (c : Config) : IO.Error → ServerError
  | .resourceBusy .. => .addressInUse c.address
  | e => .bind c.address (systemText e)

def watchInterrupt (c : Context) : IO Unit := do
  let waiter ← Signal.Waiter.mk .sigint false
  let task ← waiter.wait
  let _ ← IO.mapTask (fun _ => do c.log Connection.interrupted; c.stopping.set true) task

def serveOn (listener : Listener) (c : Config) (filter : Log.Filter) : Async Outcome := do
  let bound := endpointOf (← listener.getSockName)
  let c := { c with port := bound.port }
  let context : Context := ⟨filter, ← IO.mkRef false⟩
  context.log (Connection.listening bound.text)
  watchInterrupt context
  print (← IO.getStdout) (Session.bannerText c c.portText)
  context.serve listener
  context.log (Connection.listenerClosed c.address)
  return ⟨0, Session.farewell, []⟩

def run (c : Config) (filter : Log.Filter) : IO Outcome := do
  match ← (listen c).block.toBaseIO with
  | .ok listener => (serveOn listener c filter).block
  | .error e => return .ofError (bindError c e)

end HttpEcho.Main

open HttpEcho in
def main (args : List String) : IO UInt32 := do
  let outcome ← match Session.start (args.map String.toList) (← Main.environment) with
    | .error outcome => pure outcome
    | .ok (c, filter) => Main.run c filter
  Main.print (← IO.getStdout) outcome.stdout
  Main.print (← IO.getStderr) outcome.stderr
  return outcome.exitCode.toUInt32
