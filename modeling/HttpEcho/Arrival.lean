import HttpEcho.Address
import HttpEcho.Calendar

/-!
# When and from whom a request came
-/

namespace HttpEcho

/-- What an answer and the logs need to know beside the bytes of a request, in the forms they show. -/
structure Arrival where
  timestamp : Text
  /-- The client as the record has it. -/
  client : Text
  /-- The client as the logs have it. -/
  peer : Text
  date : Text
  deriving DecidableEq, Repr

namespace Arrival

def of (received answered : Instant) (peer : Option Endpoint) : Arrival where
  timestamp := received.timestamp
  client := peer.elim unknownClient Endpoint.clientText
  peer := peer.elim unknownClient Endpoint.text
  date := answered.httpDate

end Arrival

end HttpEcho
