import HttpEcho.Text.Numeral

/-!
# Configuration
-/

namespace HttpEcho

structure Config where
  host : Text
  port : UInt16
  logLevel : Text
  deriving DecidableEq, Repr

inductive ConfigError
  | emptyHost
  | emptyLogLevel
  deriving DecidableEq, Repr

def ConfigError.message : ConfigError → Text
  | emptyHost => "Host must not be empty".toList
  | emptyLogLevel => "Log level must not be empty".toList

namespace Config

def default : Config := ⟨"0.0.0.0".toList, 8888, "info".toList⟩

def portText (c : Config) : Text := Text.ofNat c.port.toNat

def addressAt (c : Config) (port : Text) : Text := c.host ++ ':' :: port

def address (c : Config) : Text := c.addressAt c.portText

def anyHosts : List Text := ["0.0.0.0".toList, "::".toList, []]

def urlAt (c : Config) (port : Text) : Text :=
  "http://".toList ++ (if c.host ∈ anyHosts then "localhost".toList else c.host) ++ ':' :: port

/-- The address for a browser. A server on all interfaces is announced as `localhost`. -/
def url (c : Config) : Text := c.urlAt c.portText

def validate (c : Config) : Except ConfigError Unit :=
  if Text.isBlankText c.host then .error .emptyHost
  else if Text.isBlankText c.logLevel then .error .emptyLogLevel
  else .ok ()

def banner (c : Config) (port : Text) : List Text :=
  ["Echo server starting on ".toList ++ c.urlAt port, "Press Ctrl+C to stop".toList, List.replicate 50 '-']

end Config

end HttpEcho
