import HttpEcho.Headers
import HttpEcho.Text.Numeral
import HttpEcho.Text.Split
import HttpEcho.Text.Utf8

/-!
# The announced length of a body

What a connection waits for is read off the bytes of the head before they are parsed.
-/

namespace HttpEcho

/-- The number in the last `Content-Length` line after the first line, if that is one. -/
def contentLengthHint (head : Bytes) : Option Nat :=
  let fields := ((Text.lines (Text.ofUtf8Lossy head)).drop 1).filterMap (Text.cut? ':')
  let lengths := fields.filter fun field => decide (Text.SameName (Text.trim field.1) contentLengthName)
  lengths.getLast?.bind fun field => Text.readSize? (Text.trim field.2)

end HttpEcho
