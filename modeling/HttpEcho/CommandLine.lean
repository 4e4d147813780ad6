import HttpEcho.Config

/-!
# The command line

Arguments are read from left to right, and the first fault or request for help counts. A value given as
an argument of its own is checked only when the next known option begins or at the end, so that an
unknown argument after it is reported first.
-/

namespace HttpEcho

abbrev Environment := List (Text × Text)

namespace CommandLine

inductive Opt
  | port
  | host
  | logLevel
  deriving DecidableEq, Repr

namespace Opt

def all : List Opt := [port, host, logLevel]

def longName : Opt → Text
  | port => "port".toList
  | host => "host".toList
  | logLevel => "log-level".toList

def valueName : Opt → Text
  | port => "PORT".toList
  | host => "HOST".toList
  | logLevel => "LOG_LEVEL".toList

def variableName : Opt → Text
  | port => "ECHO_PORT".toList
  | host => "ECHO_HOST".toList
  | logLevel => "ECHO_LOG".toList

def shown (o : Opt) : Text := "--".toList ++ o.longName ++ " <".toList ++ o.valueName ++ ['>']

end Opt

inductive Flag
  | help
  | version
  deriving DecidableEq, Repr

def Flag.longName : Flag → Text
  | help => "help".toList
  | version => "version".toList

inductive PortError
  | numeral (reason : Text.NumeralError)
  | outOfRange (n : Int)
  deriving DecidableEq, Repr

def PortError.message : PortError → Text
  | numeral reason => reason.message
  | outOfRange n => Text.ofInt n ++ " is not in 0..=65535".toList

/-- A port is a 64-bit number that lies in the range of ports. -/
def readPort (t : Text) : Except PortError UInt16 :=
  match Text.readInt 9223372036854775807 t with
  | .error e => .error (.numeral e)
  | .ok n => if 0 ≤ n ∧ n ≤ 65535 then .ok n.toNat.toUInt16 else .error (.outOfRange n)

inductive Stop
  | help
  | version
  | unknownArgument (arg : Text)
  | missingValue (o : Opt)
  | invalidPort (value : Text) (reason : PortError)
  | repeated (o : Opt)
  | unneededValue (flag : Flag) (value : Text)
  deriving DecidableEq, Repr

structure Given where
  port : Option UInt16
  host : Option Text
  logLevel : Option Text
  deriving DecidableEq, Repr

namespace Given

def none : Given := ⟨.none, .none, .none⟩

def has (g : Given) : Opt → Bool
  | .port => g.port.isSome
  | .host => g.host.isSome
  | .logLevel => g.logLevel.isSome

def checkedPort (value : Text) : Except Stop UInt16 := (readPort value).mapError (.invalidPort value)

def set (g : Given) (value : Text) : Opt → Except Stop Given
  | .port => (checkedPort value).map fun p => { g with port := some p }
  | .host => .ok { g with host := some value }
  | .logLevel => .ok { g with logLevel := some value }

/-- Takes an option with its value, if it has one. A missing value counts before a repetition, and that
before a wrong value. -/
def take (g : Given) (o : Opt) : Option Text → Except Stop Given
  | .none => .error (.missingValue o)
  | some value => if g.has o then .error (.repeated o) else g.set value o

end Given

/-- The options that are settled and the one that is not yet, with its value if that came. -/
structure State where
  given : Given
  pending : Option (Opt × Option Text)
  deriving DecidableEq, Repr

namespace State

def start : State := ⟨.none, none⟩

def settle (s : State) : Except Stop Given :=
  match s.pending with
  | none => .ok s.given
  | some (o, value) => s.given.take o value

/-- An option whose value is part of its argument. -/
def attached (s : State) (o : Opt) (value : Text) : Except Stop State := do
  let given ← s.settle
  return ⟨← given.take o (some value), none⟩

/-- An option whose value is the next argument. -/
def awaiting (s : State) (o : Opt) : Except Stop State := do
  return ⟨← s.settle, some (o, none)⟩

def flag (s : State) (f : Flag) : Except Stop State := do
  let _ ← s.settle
  throw (match f with | .help => .help | .version => .version)

def long (s : State) (arg : Text) : Except Stop State :=
  let name := arg.takeWhile (· ≠ '=')
  let value := match arg.dropWhile (· ≠ '=') with
    | [] => none
    | _ :: value => some value
  match Opt.all.find? fun o => decide (o.longName = name), value with
  | some o, some value => s.attached o value
  | some o, none => s.awaiting o
  | none, value =>
    match [Flag.help, Flag.version].find? fun f => decide (f.longName = name), value with
    | some f, some value => .error (.unneededValue f value)
    | some f, none => s.flag f
    | none, _ => .error (.unknownArgument ('-' :: '-' :: name))

/-- What follows one hyphen: a letter, and after `p` the value. -/
def short (s : State) (letter : Char) (rest : Text) : Except Stop State :=
  if letter = 'p' then
    match rest with
    | [] => s.awaiting .port
    | '=' :: value => s.attached .port value
    | value => s.attached .port value
  else if letter = 'h' then s.flag .help
  else if letter = 'V' then s.flag .version
  else .error (.unknownArgument ['-', letter])

/-- An argument that is no option is the value that is waited for. -/
def plain (s : State) (arg : Text) : Except Stop State :=
  match s.pending with
  | some (o, none) => .ok ⟨s.given, some (o, some arg)⟩
  | _ => .error (.unknownArgument arg)

end State

/-- After an argument of two hyphens no more are allowed. -/
def readArgs (s : State) : List Text → Except Stop Given
  | [] => s.settle
  | arg :: args =>
    match arg with
    | ['-', '-'] =>
      match args with
      | [] => s.settle
      | arg :: _ => .error (.unknownArgument arg)
    | '-' :: '-' :: rest => do readArgs (← s.long rest) args
    | '-' :: letter :: rest => do readArgs (← s.short letter rest) args
    | arg => do readArgs (← s.plain arg) args

def Environment.get? (env : Environment) (o : Opt) : Option Text := env.lookup o.variableName

/-- An option that is not given has the value of its variable, and else the default. A variable that is
not needed is not checked. -/
def resolve (g : Given) (env : Environment) : Except Stop Config := do
  let port ←
    match g.port, Environment.get? env .port with
    | some p, _ => pure p
    | none, some value => Given.checkedPort value
    | none, none => pure Config.default.port
  return {
    port
    host := g.host <|> Environment.get? env .host |>.getD Config.default.host
    logLevel := g.logLevel <|> Environment.get? env .logLevel |>.getD Config.default.logLevel }

def parse (args : List Text) (env : Environment) : Except Stop Config := do
  resolve (← readArgs .start args) env

def programName : Text := "echo_server".toList

def versionLine : Text := programName ++ " 0.1.0".toList

/-- The description of an option shows the value of its variable. -/
def helpText (env : Environment) : Text :=
  let hint (o : Opt) (fallback : Text) : Text :=
    " [env: ".toList ++ o.variableName ++ '=' :: (Environment.get? env o).getD [] ++ "] [default: ".toList ++
      fallback ++ "]\n".toList
  "Servidor HTTP de eco para tests de integración\n\nUsage: echo_server [OPTIONS]\n\nOptions:\n".toList ++
    "  -p, --port <PORT>            Puerto en el que escucha el servidor".toList ++
    hint .port Config.default.portText ++
    "      --host <HOST>            Host/IP en el que escucha (por defecto todas las interfaces)".toList ++
    hint .host Config.default.host ++
    "      --log-level <LOG_LEVEL>  Filtro de logs (`info`, `debug`, `echo_server=trace`...); RUST_LOG tiene prioridad".toList ++
    hint .logLevel Config.default.logLevel ++
    "  -h, --help                   Print help\n  -V, --version                Print version\n".toList

namespace Stop

def errorText : Stop → Text
  | help | version => []
  | unknownArgument arg => "unexpected argument '".toList ++ arg ++ "' found".toList
  | missingValue o => "a value is required for '".toList ++ o.shown ++ "' but none was supplied".toList
  | invalidPort value reason =>
    "invalid value '".toList ++ value ++ "' for '".toList ++ Opt.port.shown ++ "': ".toList ++ reason.message
  | repeated o => "the argument '".toList ++ o.shown ++ "' cannot be used multiple times".toList
  | unneededValue flag value =>
    "unexpected value '".toList ++ value ++ "' for '--".toList ++ flag.longName ++
      "' found; no more were expected".toList

def message (help : Text) : Stop → Text
  | .help => help
  | .version => versionLine ++ ['\n']
  | stop => "error: ".toList ++ stop.errorText ++ ['\n']

def exitCode : Stop → Nat
  | help | version => 0
  | _ => 2

end Stop

end CommandLine

end HttpEcho
