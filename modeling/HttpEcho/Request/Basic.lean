import HttpEcho.Method
import HttpEcho.Request.Fields
import HttpEcho.Request.Target

/-!
# Requests
-/

namespace HttpEcho

structure Request where
  method : Method
  /-- As it came in the request line. -/
  target : Text
  version : HttpVersion
  headers : Headers
  /-- There is none without a `Content-Length`. -/
  body : Option Bytes
  deriving DecidableEq, Repr

namespace Request

def path (r : Request) : Text := (Target.ofText r.target).path

def query (r : Request) : QueryParams := (Target.ofText r.target).query

def queryValues (r : Request) (name : Text) : Option (List Text) := r.query.get? name

def queryParam (r : Request) (name : Text) : Option Text := (r.queryValues name).bind List.head?

def header (r : Request) (name : Text) : Option Text := r.headers.last? name

def line (r : Request) : Text := r.method.text ++ ' ' :: r.target ++ ' ' :: r.version.text

end Request

end HttpEcho
