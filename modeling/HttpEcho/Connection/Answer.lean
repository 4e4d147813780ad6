import HttpEcho.Connection.Event
import HttpEcho.Echo.Handlers
import HttpEcho.Request.Parse

/-!
# Answering what was read
-/

namespace HttpEcho.Connection

/-- The first line as it came, for the log. -/
def firstLine (raw : Bytes) : Text := Text.trimEnd (Text.ofUtf8Lossy (raw.takeWhile (· ≠ 0x0A)))

def refusal (date : Text) (e : RequestError) : Response :=
  (Response.error e.status e.message).withCommonHeaders date

def answer (arrival : Arrival) (raw : Bytes) : Reply :=
  match Request.parse raw with
  | .ok r =>
    let reply := Router.echo.route arrival r
    { reply with log := reply.log ++ [access r.line reply.response.status] }
  | .error e =>
    let response := refusal arrival.date e
    { response
      log := [invalidRequest arrival.peer e.message, access (firstLine raw) response.status] }

end HttpEcho.Connection
