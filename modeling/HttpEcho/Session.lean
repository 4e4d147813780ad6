import HttpEcho.CommandLine
import HttpEcho.Log.Filter
import HttpEcho.Server
import HttpEcho.ServerError

/-!
# A run of the program
-/

namespace HttpEcho

/-- What a client does: it connects, sends bytes and closes its side or not. -/
structure Client where
  arrival : Arrival
  bytes : Bytes
  closes : Bool
  deriving DecidableEq, Repr

/-- A client comes after those before it. -/
def Server.visit (s : Server) (c : Client) : Server :=
  let i := s.visits.length
  s.after ([.connect c.arrival, .send i c.bytes] ++ if c.closes then [.close i] else [])

def Server.visitAll (s : Server) (clients : List Client) : Server := clients.foldl visit s

structure Outcome where
  exitCode : Nat
  stdout : Text
  stderr : Text
  deriving DecidableEq, Repr

/-- Help and version go to standard output, faults to standard error. -/
def Outcome.ofStop (env : Environment) (stop : CommandLine.Stop) : Outcome :=
  let message := stop.message (CommandLine.helpText env)
  if stop.exitCode = 0 then ⟨0, message, []⟩ else ⟨stop.exitCode, [], message⟩

def Outcome.ofError (e : ServerError) : Outcome := ⟨1, [], e.fatalLine ++ ['\n']⟩

namespace Session

def filterVariable : Text := "RUST_LOG".toList

def variableNames : List Text := filterVariable :: CommandLine.Opt.all.map CommandLine.Opt.variableName

def prepare (c : Config) (env : Environment) : Except ServerError (Config × Log.Filter) := do
  c.validate.mapError fun e => ServerError.configuration e.message
  let filter ← (Log.Filter.choose (env.lookup filterVariable) c.logLevel).mapError fun e =>
    ServerError.logging e.message
  return (c, filter)

def start (args : List Text) (env : Environment) : Except Outcome (Config × Log.Filter) := do
  let c ← (CommandLine.parse args env).mapError (Outcome.ofStop env)
  (prepare c env).mapError Outcome.ofError

def logText (filter : Log.Filter) (time : Text) (e : Log.Event) : Text :=
  if filter.passes e then e.line time ++ ['\n'] else []

def bannerText (c : Config) (port : Text) : Text := (c.banner port).flatMap (· ++ ['\n'])

def farewell : Text := "\nServer stopped\n".toList

/-- The host as a bound socket shows it: `localhost` is the loopback address, and an IPv6 address has
brackets. -/
def boundHost (host : Text) : Text :=
  if host = "localhost".toList then "127.0.0.1".toList
  else if ':' ∈ host ∧ host.head? ≠ some '[' then '[' :: host ++ [']']
  else host

/-- All that a run prints in which the clients come one after the other and then the key for stopping is
pressed, where `time` and `port` are shown for the times of the log lines and for the port. With it the
server at the end. -/
def transcript (c : Config) (filter : Log.Filter) (time port : Text) (clients : List Client) :
    Outcome × Server :=
  let listening := Server.listening (boundHost c.host ++ ':' :: port) (c.addressAt port)
  let stopped := (listening.visitAll clients).settle.after [.interrupt]
  let early := listening.log
  let late := stopped.log.drop early.length
  (⟨0, early.flatMap (logText filter time) ++ bannerText c port ++ late.flatMap (logText filter time) ++
    farewell, []⟩, stopped)

end Session

end HttpEcho
