import HttpEcho.Headers
import HttpEcho.Request.Error
import HttpEcho.Text.Split

/-!
# The header lines of a request
-/

namespace HttpEcho

def readField? (line : Text) : Option (Text × Text) :=
  match Text.cut? ':' line with
  | none => none
  | some (name, value) =>
    if Text.isBlankText name then none else some (Text.trim name, Text.trim value)

/-- A line that starts with a space or a tab continues the field before it. -/
def isContinuation (line : Text) : Bool := line.head? = some ' ' || line.head? = some '\t'

/-- A field with the pieces of its value, of which the last one comes first. -/
abbrev OpenField := Text × List Text

def OpenField.close (field : OpenField) : Text × Text := (field.1, [' '].intercalate field.2.reverse)

/-- Reads lines up to a blank one onto the fields so far, of which the last one comes first. -/
def readFieldsOnto (done : List OpenField) : List Text → Except RequestError Headers
  | [] => .ok (done.reverse.map OpenField.close)
  | line :: lines =>
    if Text.isBlankText line then .ok (done.reverse.map OpenField.close)
    else if isContinuation line then
      match done with
      | [] => .error (.invalidHeader line)
      | (name, pieces) :: done => readFieldsOnto ((name, Text.trim line :: pieces) :: done) lines
    else
      match readField? line with
      | none => .error (.invalidHeader line)
      | some (name, value) => readFieldsOnto ((name, [value]) :: done) lines

def readFields (lines : List Text) : Except RequestError Headers := readFieldsOnto [] lines

end HttpEcho
