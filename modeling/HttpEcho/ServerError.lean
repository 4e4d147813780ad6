import HttpEcho.Text.Basic

/-!
# What ends the program
-/

namespace HttpEcho

inductive InterruptError
  | system
  | alreadyInstalled
  deriving DecidableEq, Repr

def InterruptError.message : InterruptError → Text
  | system => "Ctrl-C error: Unexpected system error".toList
  | alreadyInstalled => "Ctrl-C error: Ctrl-C signal handler already registered".toList

/-- The texts of errors of the system are given by the system. -/
inductive ServerError
  | bind (address reason : Text)
  | configuration (reason : Text)
  | interrupt (reason : InterruptError)
  | logging (reason : Text)
  | io (reason : Text)
  deriving DecidableEq, Repr

namespace ServerError

def message : ServerError → Text
  | bind address reason => "Failed to bind ".toList ++ address ++ ": ".toList ++ reason
  | configuration reason => "Invalid configuration: ".toList ++ reason
  | interrupt reason => "Failed to install Ctrl+C handler: ".toList ++ reason.message
  | logging reason => "Failed to initialise logging: ".toList ++ reason
  | io reason => "IO error: ".toList ++ reason

def addressInUse (address : Text) : ServerError :=
  bind address "Address already in use (os error 98)".toList

def cause? : ServerError → Option Text
  | bind _ reason => some reason
  | configuration _ => none
  | interrupt reason => some reason.message
  | logging _ => none
  | io reason => some reason

def fatalLine (e : ServerError) : Text := "💥 Error fatal: ".toList ++ e.message

end ServerError

end HttpEcho
