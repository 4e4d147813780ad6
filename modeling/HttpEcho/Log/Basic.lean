import HttpEcho.Status

/-!
# Log events
-/

namespace HttpEcho.Log

inductive Level
  | error
  | warn
  | info
  | debug
  | trace
  deriving DecidableEq, Repr

namespace Level

/-- How much a level lets through: the most detailed one lets through all. -/
def detail : Level → Nat
  | error => 1
  | warn => 2
  | info => 3
  | debug => 4
  | trace => 5

def text : Level → Text
  | error => "ERROR".toList
  | warn => "WARN".toList
  | info => "INFO".toList
  | debug => "DEBUG".toList
  | trace => "TRACE".toList

end Level

inductive Source
  | connections
  | interrupt
  | handlers
  deriving DecidableEq, Repr

def Source.path : Source → Text
  | connections => "echo_server::server::tcp".toList
  | interrupt => "echo_server::server::shutdown".toList
  | handlers => "echo_server::echo::handlers".toList

structure Event where
  level : Level
  source : Source
  message : Text
  deriving DecidableEq, Repr

namespace Event

/-- Characters that could steer a terminal are written as escapes. -/
def printed (c : Char) : Text :=
  let digits := Nat.toDigits 16 c.toNat
  if c = '\x1b' ∨ c = '\x7f' then "\\x".toList ++ digits
  else if c = '\x07' ∨ c = '\x08' ∨ c = '\x0c' then "\\x0".toList ++ digits
  else if 0x80 ≤ c.toNat ∧ c.toNat ≤ 0x9F then "\\u\x7b".toList ++ digits ++ ['\x7d']
  else [c]

/-- The level is set flush right in five columns. -/
def line (time : Text) (e : Event) : Text :=
  let level := e.level.text
  time ++ ' ' :: List.replicate (5 - level.length) ' ' ++ level ++ ' ' :: e.message.flatMap printed

end Event

def accessLine (requestLine : Text) (status : Status) : Text :=
  '"' :: requestLine ++ '"' :: ' ' :: Text.ofNat status.code ++ [' ', '-']

end HttpEcho.Log
