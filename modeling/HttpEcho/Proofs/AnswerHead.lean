import HttpEcho.Proofs.HeaderMap
import HttpEcho.Proofs.ResponseReading
import HttpEcho.Proofs.Routing

/-!
# The head of an answer

What the head of an answer says depends on the status, on the length of the body and on the date, and on
nothing else that a client sends: no header has a value that comes from the request.
-/

namespace HttpEcho

namespace Response

/-- The headers that every answer has once. -/
def commonFields (length : Nat) (date : Text) : Headers :=
  [("Server".toList, serverName),
    ("Date".toList, date),
    ("Access-Control-Allow-Origin".toList, ['*']),
    ("Access-Control-Allow-Methods".toList, allowedMethods),
    ("Access-Control-Allow-Headers".toList, ['*']),
    ("Connection".toList, "close".toList),
    (contentLengthName, Text.ofNat length)]

/-- Only an accepted request without a body to send back gets no type. -/
def typeFields (s : Status) (length : Nat) : Headers :=
  if s = .ok ∧ length = 0 then [] else [("Content-Type".toList, "application/json".toList)]

def answerFields (s : Status) (length : Nat) (date : Text) : Headers :=
  typeFields s length ++ commonFields length date

def answerHead (s : Status) (length : Nat) (date : Text) : Bytes :=
  Text.utf8 (joinHead s (answerFields s length date))

end Response

/-! ### Dates -/

@[simp]
theorem oneLine_ofNatPadded (width n : Nat) : OneLine (Text.ofNatPadded width n) :=
  .of_isDigit (Text.isNumeral_ofNatPadded width n).isDigit

theorem oneLine_yearText (year : Int) : OneLine (Date.yearText year) := by
  unfold Date.yearText
  split
  · exact oneLine_ofNatPadded _ _
  · split <;> simp

theorem oneLine_timeText (t : Instant) : OneLine t.timeText := by simp [Instant.timeText]

theorem oneLine_getD {names : List Text} (hnames : ∀ name ∈ names, OneLine name) (i : Nat) :
    OneLine (names[i]?.getD []) := by
  cases hname : names[i]? with
  | none => exact .nil
  | some name => exact hnames name (List.mem_of_getElem? hname)

theorem oneLine_httpDate (t : Instant) : OneLine t.httpDate := by
  have hweekday : ∀ name ∈ Instant.weekdays, OneLine name := by decide
  have hmonth : ∀ name ∈ Instant.months, OneLine name := by decide
  simp [Instant.httpDate, oneLine_getD hweekday, oneLine_getD hmonth, oneLine_yearText,
    oneLine_timeText]

/-! ### Headers of answers -/

theorem Json.pretty_obj_ne_nil (members : List (Text × Json)) : (obj members).pretty ≠ [] := by
  cases members with
  | nil => exact List.cons_ne_nil _ _
  | cons member members => exact List.cons_ne_nil _ _

namespace Response

variable {s : Status} {date : Text}

theorem headers_error (hs : s ≠ .ok) (message : Text) :
    (error s message).headers = typeFields s (error s message).body.length := by
  rw [typeFields, if_neg fun h => hs h.1]
  rfl

theorem headers_prettyJson (record : EchoRecord) :
    (prettyJson record.toJson).headers = typeFields .ok (prettyJson record.toJson).body.length := by
  have hne : (prettyJson record.toJson).body ≠ [] := by
    intro hnil
    exact Json.pretty_obj_ne_nil _ (Text.utf8_eq_nil_iff.mp hnil)
  rw [typeFields, if_neg fun h => hne (List.eq_nil_of_length_eq_zero h.2)]
  rfl

theorem sentFields_withCommonHeaders {r : Response}
    (hr : r.headers = typeFields r.status r.body.length) :
    (r.withCommonHeaders date).sentFields = answerFields r.status r.body.length date := by
  obtain ⟨status, headers, body⟩ := r
  obtain rfl : headers = typeFields status body.length := hr
  unfold answerFields typeFields
  split <;> rfl

theorem nodup_answerFields (s : Status) (length : Nat) (date : Text) :
    ((answerFields s length date).map fun field => Text.lowerAscii field.1).Nodup := by
  unfold answerFields typeFields commonFields
  split <;> simp only [List.map_append, List.map_cons, List.map_nil] <;> decide

theorem isSendable_answerFields (s : Status) (length : Nat) {date : Text} (hdate : OneLine date) :
    ∀ field ∈ answerFields s length date, IsSendable field := by
  rw [answerFields, List.forall_mem_append]
  constructor
  · unfold typeFields
    split
    · exact List.forall_mem_nil _
    · rw [List.forall_mem_singleton]
      exact isSendable_of_name (by decide) (by decide)
  · simp only [commonFields, List.forall_mem_cons]
    refine ⟨isSendable_of_name (by decide) (by decide), isSendable_of_name (by decide) hdate,
      isSendable_of_name (by decide) (by decide), isSendable_of_name (by decide) (by decide),
      isSendable_of_name (by decide) (by decide), isSendable_of_name (by decide) (by decide),
      isSendable_of_name (by decide) (.ofNat length), List.forall_mem_nil _⟩

end Response

theorem RequestError.status_ne_ok (e : RequestError) : e.status ≠ .ok := by
  intro h
  cases e <;> cases h

theorem exists_answer_eq (arrival : Arrival) (raw : Bytes) :
    ∃ r : Response, (Connection.answer arrival raw).response = r.withCommonHeaders arrival.date ∧
      r.headers = Response.typeFields r.status r.body.length := by
  unfold Connection.answer
  split
  · next r hparse =>
    obtain ⟨reply, hreply, hroute⟩ := exists_echoReply arrival r
    rw [hroute]
    refine ⟨_, rfl, ?_⟩
    cases hreply with
    | unsupported => exact Response.headers_error (by decide) _
    | options => rfl
    | record hmethod hrecord => exact Response.headers_prettyJson _
    | noText => exact Response.headers_error (by decide) _
  · next e hparse =>
    exact ⟨_, rfl, Response.headers_error e.status_ne_ok _⟩

theorem sentFields_answer (arrival : Arrival) (raw : Bytes) :
    let r := (Connection.answer arrival raw).response
    r.sentFields = Response.answerFields r.status r.body.length arrival.date := by
  obtain ⟨r, hanswer, hr⟩ := exists_answer_eq arrival raw
  simp only [hanswer]
  exact Response.sentFields_withCommonHeaders hr

/-- An answer is the head that belongs to its status, the length of its body and the date, a blank line
and the body, and a reader of the head finds each of the common headers once. -/
theorem cutBlankLine?_answer (received answered : Instant) (peer : Option Endpoint) (raw : Bytes) :
    let r := (Connection.answer (.of received answered peer) raw).response
    let head := Response.answerHead r.status r.body.length answered.httpDate
    cutBlankLine? r.toBytes = some (head, r.body) ∧
      ∃ fields, readResponseHead? head = some (Response.statusLine r.status, fields) ∧
        ∀ field ∈ Response.commonFields r.body.length answered.httpDate,
          fields.filter (fun other => Text.SameName other.1 field.1) = [field] := by
  intro r head
  have hsent : r.sentFields = Response.answerFields r.status r.body.length answered.httpDate :=
    sentFields_answer _ raw
  have hsendable : ∀ field ∈ r.sentFields, IsSendable field := by
    rw [hsent]
    exact Response.isSendable_answerFields _ _ (oneLine_httpDate answered)
  have hcut := Response.cutBlankLine?_toBytes hsendable
  have hread := Response.readResponseHead?_joinHead (s := r.status) hsendable
  rw [hsent] at hcut hread
  refine ⟨hcut, _, hread, fun field hfield => ?_⟩
  apply filter_sameName_eq_singleton (Response.nodup_answerFields _ _ _)
  exact List.mem_append_right _ hfield

end HttpEcho
