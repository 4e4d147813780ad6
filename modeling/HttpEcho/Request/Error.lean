import HttpEcho.Status

/-!
# Why a request is refused
-/

namespace HttpEcho

inductive RequestError
  | emptyRequest
  | invalidRequestLine
  | unsupportedMethod (token : Text)
  | invalidHttpVersion (token : Text)
  | invalidHeader (line : Text)
  | invalidContentLength (value : Text)
  | incompleteBody (expected received : Nat)
  | headTooLarge (limit : Nat)
  deriving DecidableEq, Repr

namespace RequestError

def unsupportedMethodMessage (token : Text) : Text :=
  "Unsupported method ('".toList ++ token ++ "')".toList

def message : RequestError → Text
  | emptyRequest => "Empty request".toList
  | invalidRequestLine => "Invalid request line format".toList
  | unsupportedMethod token => unsupportedMethodMessage token
  | invalidHttpVersion token => "Invalid HTTP version: ".toList ++ token
  | invalidHeader line => "Invalid header: ".toList ++ line
  | invalidContentLength value => "Invalid Content-Length: ".toList ++ value
  | incompleteBody expected received =>
    "Incomplete body: expected ".toList ++ Text.ofNat expected ++ " bytes, received ".toList ++
      Text.ofNat received
  | headTooLarge limit => "Request head exceeds ".toList ++ Text.ofNat limit ++ " bytes".toList

def status : RequestError → Status
  | unsupportedMethod _ => .notImplemented
  | invalidHttpVersion _ => .httpVersionNotSupported
  | headTooLarge _ => .requestHeaderFieldsTooLarge
  | _ => .badRequest

end RequestError

end HttpEcho
