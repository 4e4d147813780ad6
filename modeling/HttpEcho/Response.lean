import HttpEcho.Headers
import HttpEcho.Json.Printer
import HttpEcho.Status

/-!
# Responses
-/

namespace HttpEcho

structure Response where
  status : Status
  headers : Headers
  body : Bytes
  deriving DecidableEq, Repr

namespace Response

def new (status : Status) : Response := ⟨status, [], []⟩

def setHeader (r : Response) (name value : Text) : Response :=
  { r with headers := r.headers.set name value }

def withBody (r : Response) (body : Text) : Response := { r with body := Text.utf8 body }

def header (r : Response) (name : Text) : Option Text := r.headers.first? name

def withJson (r : Response) (body : Text) : Response :=
  (r.setHeader "Content-Type".toList "application/json".toList).withBody body

def json (body : Text) : Response := (new .ok).withJson body

def prettyJson (v : Json) : Response := json v.pretty

def errorBody (message : Text) : Json := .obj [("error".toList, .str message)]

def error (status : Status) (message : Text) : Response :=
  (new status).withJson (errorBody message).compact

def crlf : Text := ['\r', '\n']

def fieldLine (field : Text × Text) : Text := field.1 ++ ':' :: ' ' :: field.2 ++ crlf

/-- Status line, headers and blank line. A length among the headers gives way to that of the body, which
is the last header. -/
def headText (r : Response) : Text :=
  let headers := r.headers.filter fun field => !decide (Text.SameName field.1 contentLengthName)
  "HTTP/1.0 ".toList ++ r.status.text ++ crlf ++ headers.flatMap fieldLine ++
    fieldLine (contentLengthName, Text.ofNat r.body.length) ++ crlf

def toBytes (r : Response) : Bytes := Text.utf8 r.headText ++ r.body

end Response

end HttpEcho
