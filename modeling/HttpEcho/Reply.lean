import HttpEcho.Log.Basic
import HttpEcho.Response

/-!
# Replies
-/

namespace HttpEcho

/-- A response and what is logged on the way to it. -/
structure Reply where
  response : Response
  log : List Log.Event
  deriving DecidableEq, Repr

def Reply.quiet (response : Response) : Reply := ⟨response, []⟩

end HttpEcho
