import HttpEcho.Log.Basic

/-!
# What is logged about connections
-/

namespace HttpEcho.Connection

def event (level : Log.Level) (message : Text) : Log.Event := ⟨level, .connections, message⟩

def listening (bound : Text) : Log.Event := event .info ("Listening on ".toList ++ bound)

def opened (peer : Text) : Log.Event := event .debug ("Connection from ".toList ++ peer)

def silent (peer : Text) : Log.Event :=
  event .debug ("Connection from ".toList ++ peer ++ " closed without data".toList)

def invalidRequest (peer reason : Text) : Log.Event :=
  event .warn ("Invalid request from ".toList ++ peer ++ ": ".toList ++ reason)

def access (requestLine : Text) (status : Status) : Log.Event :=
  event (if status.isSuccess then .info else .warn) (Log.accessLine requestLine status)

def failed (peer reason : Text) : Log.Event :=
  event .warn ("Connection error with ".toList ++ peer ++ ": ".toList ++ reason)

/-- The server stops while the request is still coming. -/
def abandoned (peer : Text) : Log.Event := failed peer "server shutting down, request abandoned".toList

def acceptFailed (reason : Text) : Log.Event :=
  event .warn ("Error accepting connection: ".toList ++ reason)

def listenerClosed (address : Text) : Log.Event :=
  event .info ("Listener on ".toList ++ address ++ " closed".toList)

def interrupted : Log.Event := ⟨.info, .interrupt, "Interrupt received, stopping".toList⟩

end HttpEcho.Connection
