import HttpEcho.Proofs.EchoReadBack
import HttpEcho.Proofs.Routing

/-!
# Answers that report an error

An error quotes what the client sent. Whatever that is, the answer is a document from which the message is
read back as it was, for a request that is refused as for a body that is no text.
-/

namespace HttpEcho

open Json

/-- The answer has the status and says nothing but the message. -/
structure ReportsError (response : Response) (status : Status) (message : Text) : Prop where
  status_eq : response.status = status
  contentType_eq : response.header "Content-Type".toList = some "application/json".toList
  body_eq : decodeBody (some response.body) = .ok (.obj [("error".toList, .str message)])

theorem exact_errorBody (message : Text) : Exact maxDepth (Response.errorBody message) := by
  refine .obj (List.nodup_singleton _) ?_
  rw [List.forall_mem_singleton]
  exact .str _ message

/-- The common headers touch neither the type nor the body. -/
theorem reportsError_withCommonHeaders (status : Status) (message date : Text) :
    ReportsError ((Response.error status message).withCommonHeaders date) status message where
  status_eq := rfl
  contentType_eq := rfl
  body_eq := decodeBody_utf8_render (exact_errorBody message) .compact

theorem ofRequest_of_decodeBody_error {r : Request} {e : EchoError} (h : decodeBody r.body = .error e)
    (arrival : Arrival) : EchoRecord.ofRequest arrival r = .error e := by
  rw [EchoRecord.ofRequest, h]
  rfl

theorem response_route_of_decodeBody_error {arrival : Arrival} {r : Request} {e : EchoError}
    (hmethod : r.method ∈ [.get, .post, .put, .delete]) (he : decodeBody r.body = .error e) :
    (Router.echo.route arrival r).response =
      (Response.error .badRequest e.message).withCommonHeaders arrival.date := by
  have hrecord := ofRequest_of_decodeBody_error he arrival
  obtain ⟨reply, hreply, hroute⟩ := exists_echoReply arrival r
  rw [hroute]
  cases hreply with
  | unsupported hother =>
    exfalso
    revert hmethod hother
    cases r.method <;> decide
  | options hother =>
    rw [hother] at hmethod
    exact absurd hmethod (by decide)
  | record _ hsome =>
    rw [hrecord] at hsome
    cases hsome
  | noText _ herror _ =>
    rw [hrecord] at herror
    rw [Except.error.inj herror]

/-- A request that is refused, and one to be sent back whose body is no text, are answered with the error
as it reads, whatever of the request it quotes. -/
theorem reportsError_answer (arrival : Arrival) (raw : Bytes) :
    (∀ e, Request.parse raw = .error e →
        ReportsError (Connection.answer arrival raw).response e.status e.message) ∧
      ∀ r e, Request.parse raw = .ok r → r.method ∈ [.get, .post, .put, .delete] →
        decodeBody r.body = .error e →
          ReportsError (Connection.answer arrival raw).response .badRequest e.message := by
  constructor
  · intro e he
    simp only [Connection.answer, he]
    exact reportsError_withCommonHeaders e.status e.message arrival.date
  · intro r e hr hmethod he
    simp only [Connection.answer, hr]
    rw [response_route_of_decodeBody_error hmethod he]
    exact reportsError_withCommonHeaders .badRequest e.message arrival.date

theorem reportsError_answer_quotes :
    ReportsError
        (Connection.answer ⟨"now".toList, "client".toList, [], []⟩
          (Text.toLatin1 "G\"\\\u0001\u00FF / HTTP/1.1\r\n\r\n".toList)).response
        .notImplemented "Unsupported method ('G\"\\\u0001\u00FF')".toList ∧
      ReportsError
        (Connection.answer ⟨"now".toList, "client".toList, [], []⟩
          (Text.toLatin1 "PUT / HTTP/1.1\nContent-Length: 2\n\na\u00C3".toList)).response
        .badRequest (EchoError.invalidUtf8 1).message := by
  refine ⟨(reportsError_answer _ _).1 (.unsupportedMethod "G\"\\\u0001\u00FF".toList) (by decide), ?_⟩
  exact (reportsError_answer _ _).2
    ⟨.put, ['/'], .http11, [("Content-Length".toList, ['2'])], some [0x61, 0xC3]⟩ (.invalidUtf8 1)
    (by decide) (by decide) rfl

end HttpEcho
