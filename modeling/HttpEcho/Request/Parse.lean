import HttpEcho.Request.Basic
import HttpEcho.Request.Head
import HttpEcho.Text.Latin1
import HttpEcho.Text.Numeral

/-!
# Reading requests
-/

namespace HttpEcho

namespace Request

/-- The head and what follows it. Without a blank line all bytes are the head, if they are not too
many. -/
def splitHead (raw : Bytes) : Except RequestError (Bytes × Bytes) :=
  match findHeadEnd raw with
  | some e => .ok (raw.take e.headLength, raw.drop e.bodyStart)
  | none => if maxHeadBytes ≤ raw.length then .error (.headTooLarge maxHeadBytes) else .ok (raw, [])

/-- A line ends at a line feed, and carriage returns before it do not count. -/
def headLines (head : Text) : List Text :=
  (head.splitOn '\n').map (Text.dropEndWhile (· = '\r'))

/-- A fault in the version counts before one in the method. -/
def readLine (line : Text) : Except RequestError (Method × Text × HttpVersion) :=
  match Text.words line with
  | [method, target, version] =>
    match HttpVersion.ofText? version, Method.ofText? method with
    | none, _ => .error (.invalidHttpVersion version)
    | some _, none => .error (.unsupportedMethod method)
    | some v, some m => .ok (m, target, v)
  | _ => .error .invalidRequestLine

def readBody (headers : Headers) (rest : Bytes) : Except RequestError (Option Bytes) :=
  match headers.last? contentLengthName with
  | none => .ok none
  | some value =>
    match Text.readSize? value with
    | none => .error (.invalidContentLength value)
    | some n => if rest.length < n then .error (.incompleteBody n rest.length) else .ok (some (rest.take n))

def readHead (head : Bytes) : Except RequestError ((Method × Text × HttpVersion) × Headers) := do
  let head := Text.ofLatin1 head
  if Text.isBlankText head then throw .emptyRequest
  match headLines head with
  | [] => throw .emptyRequest
  | first :: lines => return (← readLine first, ← readFields lines)

def parse (raw : Bytes) : Except RequestError Request := do
  let (head, rest) ← splitHead raw
  let ((method, target, version), headers) ← readHead head
  let body ← readBody headers rest
  return { method, target, version, headers, body }

end Request

end HttpEcho
