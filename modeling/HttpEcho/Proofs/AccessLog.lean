import HttpEcho.Proofs.AnswerHead
import HttpEcho.Proofs.ServerMoves
import HttpEcho.Proofs.WriteBack

/-!
# The access log

Each answer puts one line into the access log, whatever the request holds. The line of an accepted request
is put together from what was parsed, and parsing it again gives the same; that of another request is the
first line as it came.
-/

namespace HttpEcho

variable {raw : Bytes} {r : Request} {line text : Text}

/-! ### What a logged line says -/

example : Server.Exchange.requestLine ⟨0, ⟨[], [], [], []⟩,
    Text.toLatin1 "GET\u0085 /a%0Ab\u00A0HTTP/1.1\t\n\n".toList⟩ = "GET /a%0Ab HTTP/1.1".toList := by
  decide

end HttpEcho
