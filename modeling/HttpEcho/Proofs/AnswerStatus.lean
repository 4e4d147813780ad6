import HttpEcho.Proofs.AnnouncedLength
import HttpEcho.Proofs.Routing

/-!
# The status of an answer

The bytes of a request settle the status of the answer. Of several faults the one that is looked for
first counts: the size of the head, the form of the request line, the version, the method, the header
lines and the length of the body. What is left depends on the method and, for the echo, on whether the
body is UTF-8.
-/

namespace HttpEcho

variable {line : Text} {lines : List Text} {done : List OpenField} {headers : Headers}

/-! ### Faults -/

/-- There is no colon, or nothing but white space in front of the first one. -/
def lacksName (line : Text) : Bool :=
  !line.contains ':' || Text.isBlankText (line.takeWhile (· ≠ ':'))

/-- Up to the first blank line, one continues a header although there is none before it, which is then
the first, or one is neither a continuation nor has a name. -/
def hasFaultyLine (lines : List Text) : Bool :=
  let shown := lines.takeWhile fun line => !Text.isBlankText line
  shown.head?.any isContinuation || shown.any fun line => !isContinuation line && lacksName line

/-- The last `Content-Length` of a request, with `none` inside for one that is no size. -/
def lastLength? (raw : Bytes) : Option (Option Nat) :=
  (keptLengths (headerLines (Request.headBytes raw))).getLast?

def hasFaultyLength (raw : Bytes) : Bool :=
  match lastLength? raw with
  | none => false
  | some none => true
  | some (some n) => (Request.bytesAfterHead raw).length < n

def announcedBody (raw : Bytes) : Bytes :=
  (Request.bytesAfterHead raw).take ((lastLength? raw).join.getD 0)

/-- The status that is due for some bytes. -/
def dueStatus (raw : Bytes) : Status :=
  let head := Request.headBytes raw
  let tokens := Text.words (Request.firstLine head)
  let method := tokens.getD 0 []
  let version := tokens.getD 2 []
  if findHeadEnd raw = none ∧ maxHeadBytes ≤ raw.length then .requestHeaderFieldsTooLarge
  else if Text.isBlankText (Text.ofLatin1 head) || tokens.length != 3 then .badRequest
  else if version ≠ "HTTP/1.0".toList ∧ version ≠ "HTTP/1.1".toList then .httpVersionNotSupported
  else if Method.all.all fun m => method ≠ m.text then .notImplemented
  else if hasFaultyLine (headerLines head) || hasFaultyLength raw then .badRequest
  else if ["HEAD", "PATCH", "TRACE", "CONNECT"].any fun name => method = name.toList then
    .notImplemented
  else if method = "OPTIONS".toList then .ok
  else if isUtf8 (announcedBody raw) then .ok
  else .badRequest

/-! ### Header lines -/

theorem readField?_eq_none_iff : readField? line = none ↔ lacksName line := by
  unfold readField? lacksName
  split
  · next hcut =>
    have hcolon := Text.cut?_eq_none_iff.mp hcut
    simp [hcolon]
  · next name value hcut =>
    obtain ⟨rfl, hcolon⟩ := Text.cut?_eq_some hcut
    have hname : (name ++ ':' :: value).takeWhile (· ≠ ':') = name := by
      rw [List.takeWhile_append_of_pos fun c hc => decide_eq_true (ne_of_mem_of_not_mem hc hcolon)]
      simp
    have hcontains : (name ++ ':' :: value).contains ':' := by simp
    rw [hname, hcontains]
    split <;> simp_all

theorem exists_readFieldsOnto_iff : (∃ headers, readFieldsOnto done lines = .ok headers) ↔
    ¬(done = [] ∧ (lines.takeWhile fun line => !Text.isBlankText line).head?.any isContinuation) ∧
      ∀ line ∈ lines.takeWhile (fun line => !Text.isBlankText line),
        ¬isContinuation line → readField? line ≠ none := by
  induction lines generalizing done with
  | nil => simp [readFieldsOnto]
  | cons line lines ih =>
    rw [readFieldsOnto.eq_def]
    by_cases hblank : Text.isBlankText line
    · simp [hblank]
    · simp only [hblank]
      by_cases hcontinuation : isContinuation line
      · cases done with
        | nil => simp [hblank, hcontinuation]
        | cons field done =>
          obtain ⟨name, pieces⟩ := field
          simp [hblank, hcontinuation, ih]
      · cases hread : readField? line with
        | none => simp [hblank, hcontinuation, hread]
        | some field => simp [hblank, hcontinuation, hread, ih]

theorem exists_readFields_iff :
    (∃ headers, readFields lines = .ok headers) ↔ ¬hasFaultyLine lines := by
  simp only [readFields, exists_readFieldsOnto_iff, ne_eq, readField?_eq_none_iff, hasFaultyLine,
    Bool.or_eq_true, not_or, true_and, List.any_eq_true, Bool.and_eq_true, Bool.not_eq_true', not_exists,
    not_and, Bool.not_eq_true]

theorem status_of_readFieldsOnto_error {e : RequestError}
    (h : readFieldsOnto done lines = .error e) : e.status = .badRequest := by
  induction lines generalizing done with
  | nil => cases h
  | cons line lines ih =>
    unfold readFieldsOnto at h
    split at h
    · cases h
    split at h
    · split at h
      · obtain rfl := Except.error.inj h
        rfl
      · exact ih h
    · split at h
      · obtain rfl := Except.error.inj h
        rfl
      · exact ih h

/-! ### The length -/

theorem last?_eq_none_iff_of_readFieldsOnto (h : readFieldsOnto done lines = .ok headers) :
    headers.last? contentLengthName = none ↔
      (∀ field ∈ done, ¬Text.SameName field.1 contentLengthName) ∧ keptLengths lines = [] := by
  have hclosed : ∀ fields : List OpenField,
      Headers.last? (fields.reverse.map OpenField.close) contentLengthName = none ↔
        ∀ field ∈ fields, ¬Text.SameName field.1 contentLengthName := by
    intro fields
    simp only [Headers.last?_eq_none_iff, List.forall_mem_map, List.mem_reverse]
    exact Iff.rfl
  induction h using readFieldsOnto_induction with
  | nil done h hheaders =>
    rw [hheaders, hclosed, keptLengths]
    simp
  | blank done line lines h hblank hheaders =>
    rw [hheaders, hclosed, keptLengths, if_pos hblank]
    simp
  | continuation name pieces done line lines h hrest hblank hcontinuation ih =>
    rw [keptLengths, if_neg hblank, if_pos hcontinuation]
    refine ih.trans ?_
    rw [List.forall_mem_cons, List.forall_mem_cons]
  | field done line lines name value h hrest hblank hcontinuation hread ih =>
    rw [keptLengths, if_neg hblank, if_neg hcontinuation]
    refine ih.trans ?_
    rw [List.forall_mem_cons, lengthValue?_of_readField? hread]
    by_cases hname : Text.SameName name contentLengthName
    · simp [hname]
    · simp [hname]

theorem last?_map_readSize? {raw : Bytes} {request : Method × Text × HttpVersion}
    (h : Request.readHead (Request.headBytes raw) = .ok (request, headers)) :
    (headers.last? contentLengthName).map Text.readSize? = lastLength? raw := by
  have hfields := readFields_of_readHead h
  have hnone := last?_eq_none_iff_of_readFieldsOnto hfields
  have hlength := contentLength?_eq h
  rw [Headers.contentLength?] at hlength
  rw [lastLength?]
  cases hlast : headers.last? contentLengthName with
  | none =>
    rw [(hnone.mp hlast).2]
    rfl
  | some value =>
    have hkept : keptLengths (headerLines (Request.headBytes raw)) ≠ [] := by
      intro hnil
      have hnot := hnone.mpr ⟨by simp, hnil⟩
      rw [hlast] at hnot
      cases hnot
    rw [List.getLast?_eq_some_getLast hkept] at hlength ⊢
    rw [hlast, Option.bind_some, Option.join_some] at hlength
    rw [Option.map_some, hlength]

theorem readBody_cases {raw : Bytes} {request : Method × Text × HttpVersion}
    (h : Request.readHead (Request.headBytes raw) = .ok (request, headers)) :
    (hasFaultyLength raw ∧ ∃ e, Request.readBody headers (Request.bytesAfterHead raw) = .error e ∧
        e.status = .badRequest) ∨
      (¬hasFaultyLength raw ∧ ∃ body, Request.readBody headers (Request.bytesAfterHead raw) = .ok body ∧
        body.getD [] = announcedBody raw) := by
  have hlast := last?_map_readSize? h
  unfold hasFaultyLength announcedBody Request.readBody
  rw [← hlast]
  cases headers.last? contentLengthName with
  | none => simp
  | some value =>
    cases hsize : Text.readSize? value with
    | none => simp [hsize, RequestError.status]
    | some n =>
      by_cases hshort : (Request.bytesAfterHead raw).length < n
      · simp [hsize, hshort, RequestError.status]
      · simp [hsize, hshort]

/-! ### Requests that are accepted -/

theorem status_route_echo (arrival : Arrival) (r : Request) :
    (Router.echo.route arrival r).response.status =
      if r.method ∈ [.head, .patch, .trace, .connect] then .notImplemented
      else if r.method = .options then .ok
      else if isUtf8 (r.body.getD []) then .ok
      else .badRequest := by
  obtain ⟨reply, hreply, hroute⟩ := exists_echoReply arrival r
  rw [hroute]
  have hother : r.method ∈ [.get, .post, .put, .delete] →
      r.method ∉ [.head, .patch, .trace, .connect] ∧ r.method ≠ .options := by
    cases r.method <;> decide
  cases hreply with
  | unsupported hmethod =>
    rw [if_pos hmethod]
    rfl
  | options hmethod =>
    rw [hmethod]
    rfl
  | record hmethod hrecord =>
    rw [if_neg (hother hmethod).1, if_neg (hother hmethod).2,
      if_pos (isUtf8_iff_ofRequest.mpr ⟨_, hrecord⟩)]
    rfl
  | noText hmethod herror =>
    rw [if_neg (hother hmethod).1, if_neg (hother hmethod).2, if_neg]
    · rfl
    · intro hutf8
      obtain ⟨record, hrecord⟩ := isUtf8_iff_ofRequest.mp hutf8
      rw [herror] at hrecord
      cases hrecord

/-! ### Tokens -/

theorem HttpVersion.ne_and_ne_iff_ofText? {t : Text} :
    t ≠ "HTTP/1.0".toList ∧ t ≠ "HTTP/1.1".toList ↔ ofText? t = none := by
  rw [ofText?_eq_none_iff, List.map_cons, List.map_singleton, List.mem_cons, List.mem_singleton, not_or]
  rfl

theorem Method.all_ne_text_iff_ofText? {t : Text} :
    (all.all fun m => t ≠ m.text) ↔ ofText? t = none := by
  simp only [ofText?_eq_none_iff, List.all_eq_true, decide_eq_true_eq, List.mem_map, not_exists,
    not_and, ne_eq, eq_comm (a := t)]

theorem Method.any_text_eq_iff (m : Method) :
    (["HEAD", "PATCH", "TRACE", "CONNECT"].any fun name => m.text = name.toList) ↔
      m ∈ [.head, .patch, .trace, .connect] := by
  cases m <;> decide

theorem Method.text_eq_options_iff (m : Method) : m.text = "OPTIONS".toList ↔ m = .options :=
  text_injective.eq_iff (b := .options)

/-! ### All requests -/

theorem status_answer_of_error {arrival : Arrival} {raw : Bytes} {e : RequestError}
    (h : Request.parse raw = .error e) :
    (Connection.answer arrival raw).response.status = e.status := by
  rw [Connection.answer, h]
  rfl

theorem status_answer_of_ok {arrival : Arrival} {raw : Bytes} {r : Request}
    (h : Request.parse raw = .ok r) :
    (Connection.answer arrival raw).response.status =
      (Router.echo.route arrival r).response.status := by
  rw [Connection.answer, h]

section Line

variable {arrival : Arrival} {raw : Bytes}
  (hlarge : ¬(findHeadEnd raw = none ∧ maxHeadBytes ≤ raw.length))
  (hblank : ¬Text.isBlankText (Text.ofLatin1 (Request.headBytes raw)))

include hlarge hblank

theorem status_answer_of_readLine_error {e : RequestError}
    (h : Request.readLine (Request.firstLine (Request.headBytes raw)) = .error e) :
    (Connection.answer arrival raw).response.status = e.status := by
  apply status_answer_of_error
  apply Request.parse_of_readHead_error hlarge
  rw [Request.readHead_eq, if_neg hblank, h]
  rfl

/-- With a request line in order, the header lines, the length and the method are left to look at. -/
theorem status_answer_of_readLine {m : Method} {target : Text} {v : HttpVersion}
    (h : Request.readLine (Request.firstLine (Request.headBytes raw)) = .ok (m, target, v)) :
    (Connection.answer arrival raw).response.status =
      if hasFaultyLine (headerLines (Request.headBytes raw)) || hasFaultyLength raw then .badRequest
      else if m ∈ [.head, .patch, .trace, .connect] then .notImplemented
      else if m = .options then .ok
      else if isUtf8 (announcedBody raw) then .ok
      else .badRequest := by
  cases hfields : readFields (headerLines (Request.headBytes raw)) with
  | error e =>
    have hfaulty : hasFaultyLine (headerLines (Request.headBytes raw)) := by
      by_contra hnot
      obtain ⟨headers, hok⟩ := exists_readFields_iff.mpr hnot
      rw [hfields] at hok
      cases hok
    have hparse : Request.parse raw = .error e := by
      apply Request.parse_of_readHead_error hlarge
      rw [Request.readHead_eq, if_neg hblank, h, ← headerLines, hfields]
      rfl
    rw [status_answer_of_error hparse, status_of_readFieldsOnto_error hfields, hfaulty]
    rfl
  | ok headers =>
    have hfaulty : ¬hasFaultyLine (headerLines (Request.headBytes raw)) :=
      exists_readFields_iff.mp ⟨headers, hfields⟩
    have hhead : Request.readHead (Request.headBytes raw) = .ok ((m, target, v), headers) :=
      Request.readHead_eq_ok_iff.mpr ⟨hblank, h, hfields⟩
    rw [Bool.eq_false_iff.mpr hfaulty, Bool.false_or]
    rcases readBody_cases hhead with ⟨hlength, e, hbody, hstatus⟩ | ⟨hlength, body, hbody, hbytes⟩
    · rw [status_answer_of_error (Request.parse_of_readBody_error hlarge hhead hbody), hstatus,
        if_pos hlength]
    · have hparse : Request.parse raw = .ok ⟨m, target, v, headers, body⟩ :=
        Request.parse_eq_ok_iff.mpr ⟨_, _, Request.splitHead_eq_ok_iff.mpr ⟨hlarge, rfl, rfl⟩, hhead,
          hbody⟩
      rw [status_answer_of_ok hparse, status_route_echo, if_neg hlength, ← hbytes]

end Line

/-- The status of the answer is the one that is due for the bytes of the request. -/
theorem status_answer (arrival : Arrival) (raw : Bytes) :
    (Connection.answer arrival raw).response.status = dueStatus raw := by
  unfold dueStatus
  by_cases hlarge : findHeadEnd raw = none ∧ maxHeadBytes ≤ raw.length
  · rw [if_pos hlarge]
    exact status_answer_of_error
      (Request.parse_of_splitHead_error (Request.splitHead_of_tooLarge hlarge.1 hlarge.2))
  rw [if_neg hlarge]
  by_cases hblank : Text.isBlankText (Text.ofLatin1 (Request.headBytes raw))
  · rw [hblank, Bool.true_or, if_pos rfl]
    apply status_answer_of_error (e := .emptyRequest)
    apply Request.parse_of_readHead_error hlarge
    rw [Request.readHead_eq, if_pos hblank]
  rw [Bool.eq_false_iff.mpr hblank, Bool.false_or]
  by_cases hthree : (Text.words (Request.firstLine (Request.headBytes raw))).length = 3
  · obtain ⟨method, target, version, hwords⟩ := List.length_eq_three.mp hthree
    rw [hwords]
    simp only [List.length_cons, List.length_nil, List.getD_cons_zero, List.getD_cons_succ,
      HttpVersion.ne_and_ne_iff_ofText?, Method.all_ne_text_iff_ofText?]
    cases hversion : HttpVersion.ofText? version with
    | none =>
      apply status_answer_of_readLine_error hlarge hblank (e := .invalidHttpVersion version)
      simp only [Request.readLine, hwords, hversion]
    | some v =>
      cases hmethod : Method.ofText? method with
      | none =>
        apply status_answer_of_readLine_error hlarge hblank (e := .unsupportedMethod method)
        simp only [Request.readLine, hwords, hversion, hmethod]
      | some m =>
        have hline : Request.readLine (Request.firstLine (Request.headBytes raw)) =
            .ok (m, target, v) := by
          simp only [Request.readLine, hwords, hversion, hmethod]
        obtain rfl := Method.ofText?_eq_some_iff.mp hmethod
        rw [status_answer_of_readLine hlarge hblank hline]
        simp only [Method.any_text_eq_iff, Method.text_eq_options_iff, reduceCtorEq, if_false]
        rfl
  · rw [if_pos (by simpa using hthree)]
    refine status_answer_of_readLine_error hlarge hblank (e := .invalidRequestLine) ?_
    unfold Request.readLine
    split
    · next method target version hwords => exact absurd (by rw [hwords]; rfl) hthree
    · rfl

end HttpEcho
