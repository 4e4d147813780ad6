import HttpEcho.Echo.Record
import HttpEcho.Router

/-!
# The handlers of the echo service
-/

namespace HttpEcho

namespace Handler

def echo : Handler := fun arrival r =>
  match EchoRecord.ofRequest arrival r with
  | .ok record => .quiet (.prettyJson record.toJson)
  | .error e =>
    { response := .error .badRequest e.message
      log := [{
        level := .warn
        source := .handlers
        message := r.method.text ++ ' ' :: r.path ++ ": ".toList ++ e.message }] }

def options : Handler := fun _ _ => .quiet (.new .ok)

end Handler

def Router.echo : Router :=
  ((((Router.empty.register .get .echo).register .post .echo).register .put .echo).register
    .delete .echo).register .options .options

theorem Router.handler?_echo (m : Method) :
    Router.echo.handler? m =
      if m ∈ [.head, .patch, .trace, .connect] then none
      else if m = .options then some .options
      else some .echo := by
  cases m <;> rfl

end HttpEcho
