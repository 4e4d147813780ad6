import HttpEcho.Arrival
import HttpEcho.Json.Reader
import HttpEcho.Request.Basic

/-!
# The record of a request
-/

namespace HttpEcho

inductive EchoError
  | invalidUtf8 (offset : Nat)
  deriving DecidableEq, Repr

def EchoError.message : EchoError → Text
  | invalidUtf8 offset =>
    "Request body is not valid UTF-8 (invalid byte at offset ".toList ++ Text.ofNat offset ++ [')']

/-- The value of a body: what it says as JSON, or its text if it is no JSON, and null if there is none. -/
def decodeBody : Option Bytes → Except EchoError Json
  | none => .ok .null
  | some bytes =>
    match Text.ofUtf8 bytes with
    | .error offset => .error (.invalidUtf8 offset)
    | .ok t => .ok ((Json.ofText? t).getD (.str t))

structure EchoRecord where
  timestamp : Text
  method : Method
  path : Text
  query : QueryParams
  headers : Headers
  body : Json
  clientAddress : Text

namespace EchoRecord

def hiddenNames : List Text := ["Host".toList, contentLengthName]

def isHidden (name : Text) : Bool := hiddenNames.any fun h => decide (Text.SameName h name)

/-- Here two spellings of a name are two names. -/
def visibleHeaders (headers : Headers) : Headers :=
  Entries.ofList (headers.filter fun field => !isHidden field.1)

def ofRequest (arrival : Arrival) (r : Request) : Except EchoError EchoRecord := do
  let body ← decodeBody r.body
  return {
    timestamp := arrival.timestamp
    method := r.method
    path := r.path
    query := r.query
    headers := visibleHeaders r.headers
    body
    clientAddress := arrival.client }

def toJson (record : EchoRecord) : Json :=
  .obj [
    ("timestamp".toList, .str record.timestamp),
    ("method".toList, .str record.method.text),
    ("path".toList, .str record.path),
    ("query_params".toList, .obj (record.query.map fun (k, vs) => (k, .arr (vs.map .str)))),
    ("headers".toList, .obj (record.headers.map fun (k, v) => (k, .str v))),
    ("body".toList, record.body),
    ("client_address".toList, .str record.clientAddress)]

end EchoRecord

end HttpEcho
