import HttpEcho.Text.Numeral

/-!
# Status codes
-/

namespace HttpEcho

inductive Status
  | ok
  | badRequest
  | requestHeaderFieldsTooLarge
  | internalServerError
  | notImplemented
  | httpVersionNotSupported
  deriving DecidableEq, Repr

namespace Status

def code : Status → Nat
  | ok => 200
  | badRequest => 400
  | requestHeaderFieldsTooLarge => 431
  | internalServerError => 500
  | notImplemented => 501
  | httpVersionNotSupported => 505

def reason : Status → Text
  | ok => "OK".toList
  | badRequest => "Bad Request".toList
  | requestHeaderFieldsTooLarge => "Request Header Fields Too Large".toList
  | internalServerError => "Internal Server Error".toList
  | notImplemented => "Not Implemented".toList
  | httpVersionNotSupported => "HTTP Version Not Supported".toList

def text (s : Status) : Text := Text.ofNat s.code ++ ' ' :: s.reason

def isSuccess (s : Status) : Bool := 200 ≤ s.code && s.code < 300

end Status

end HttpEcho
