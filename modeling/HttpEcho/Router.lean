import HttpEcho.Arrival
import HttpEcho.Reply
import HttpEcho.Request.Basic

/-!
# Dispatch by method

The method alone decides which handler answers, whatever the path.
-/

namespace HttpEcho

abbrev Handler := Arrival → Request → Reply

namespace Response

def serverName : Text := "EchoServer/0.1.0".toList

def allowedMethods : Text := "GET, POST, PUT, DELETE, OPTIONS".toList

def withCrossOrigin (r : Response) : Response :=
  ((r.setHeader "Access-Control-Allow-Origin".toList ['*']).setHeader
    "Access-Control-Allow-Methods".toList allowedMethods).setHeader
      "Access-Control-Allow-Headers".toList ['*']

def withCommonHeaders (date : Text) (r : Response) : Response :=
  ((r.setHeader "Server".toList serverName).setHeader "Date".toList date).withCrossOrigin.setHeader
    "Connection".toList "close".toList

/-- The answer for a method that is known and has no handler. -/
def unsupported (m : Method) : Response :=
  error .notImplemented (RequestError.unsupportedMethodMessage m.text)

end Response

structure Router where
  routes : Entries Method Handler

namespace Router

def empty : Router := ⟨[]⟩

/-- A later handler for a method replaces the earlier one. -/
def register (router : Router) (m : Method) (handler : Handler) : Router :=
  ⟨router.routes.insert m handler⟩

def handler? (router : Router) (m : Method) : Option Handler := router.routes.get? m

def route (router : Router) (arrival : Arrival) (r : Request) : Reply :=
  let reply :=
    match router.handler? r.method with
    | some handler => handler arrival r
    | none => .quiet (.unsupported r.method)
  { reply with response := reply.response.withCommonHeaders arrival.date }

end Router

end HttpEcho
