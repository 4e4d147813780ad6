import HttpEcho.Connection.Answer

/-!
# How the echo service answers

An accepted request is answered in one of four ways: its method has no handler, it asks for the options,
it is sent back as a record, or its body is not UTF-8.
-/

namespace HttpEcho

variable {arrival : Arrival} {r : Request}

def isUtf8 (bytes : Bytes) : Bool :=
  match Text.ofUtf8 bytes with
  | .ok _ => true
  | .error _ => false

/-- The replies to a request before the common headers are set. -/
inductive EchoReply (arrival : Arrival) (r : Request) : Reply → Prop
  | unsupported (hmethod : r.method ∈ [.head, .patch, .trace, .connect]) :
    EchoReply arrival r (.quiet (.unsupported r.method))
  | options (hmethod : r.method = .options) : EchoReply arrival r (.quiet (.new .ok))
  | record (hmethod : r.method ∈ [.get, .post, .put, .delete]) {record : EchoRecord}
    (hrecord : EchoRecord.ofRequest arrival r = .ok record) :
    EchoReply arrival r (.quiet (.prettyJson record.toJson))
  | noText (hmethod : r.method ∈ [.get, .post, .put, .delete]) {e : EchoError} {event : Log.Event}
    (herror : EchoRecord.ofRequest arrival r = .error e) (hsource : event.source = .handlers) :
    EchoReply arrival r ⟨.error .badRequest e.message, [event]⟩

theorem exists_echoReply (arrival : Arrival) (r : Request) :
    ∃ reply, EchoReply arrival r reply ∧
      Router.echo.route arrival r =
        { reply with response := reply.response.withCommonHeaders arrival.date } := by
  rw [Router.route, Router.handler?_echo]
  by_cases hunsupported : r.method ∈ [.head, .patch, .trace, .connect]
  · rw [if_pos hunsupported]
    exact ⟨_, .unsupported hunsupported, rfl⟩
  rw [if_neg hunsupported]
  by_cases hoptions : r.method = .options
  · rw [if_pos hoptions]
    exact ⟨_, .options hoptions, rfl⟩
  rw [if_neg hoptions]
  have hmethod : r.method ∈ [.get, .post, .put, .delete] := by
    revert hunsupported hoptions
    cases r.method <;> decide
  cases hrecord : EchoRecord.ofRequest arrival r with
  | ok record =>
    have hecho : Handler.echo arrival r = .quiet (.prettyJson record.toJson) := by
      rw [Handler.echo, hrecord]
    simp only [hecho]
    exact ⟨_, .record hmethod hrecord, rfl⟩
  | error e =>
    obtain ⟨event, hecho, hsource⟩ : ∃ event : Log.Event,
        Handler.echo arrival r = ⟨.error .badRequest e.message, [event]⟩ ∧
          event.source = .handlers := by
      rw [Handler.echo, hrecord]
      exact ⟨_, rfl, rfl⟩
    simp only [hecho]
    exact ⟨_, .noText hmethod hrecord hsource, rfl⟩

theorem isUtf8_iff_ofRequest :
    isUtf8 (r.body.getD []) ↔ ∃ record, EchoRecord.ofRequest arrival r = .ok record := by
  unfold EchoRecord.ofRequest decodeBody isUtf8
  cases r.body with
  | none => exact ⟨fun _ => ⟨_, rfl⟩, fun _ => rfl⟩
  | some bytes =>
    rw [Option.getD_some]
    cases hutf8 : Text.ofUtf8 bytes with
    | ok t =>
      simp only [hutf8]
      exact ⟨fun _ => ⟨_, rfl⟩, fun _ => trivial⟩
    | error offset =>
      simp only [hutf8]
      refine ⟨fun h => absurd h Bool.false_ne_true, fun ⟨record, hrecord⟩ => ?_⟩
      cases hrecord

end HttpEcho
