import HttpEcho.Proofs.AnnouncedLength
import HttpEcho.Proofs.EchoReadBack
import HttpEcho.Proofs.Rendering
import HttpEcho.Proofs.Routing

/-!
# Requests with another method

The first word of a request can be exchanged for any other word: the head still ends where it did, the
other words and the header lines are read as before, and the new word is the method, if it is one. A word
that is none is refused while parsing and a method without a handler after it. Nothing in the response
tells one from the other.
-/

namespace HttpEcho

variable {w line target : Text} {tail head : Bytes} {m : Method} {v : HttpVersion} {headers : Headers}

/-! ### A word and what stands behind it -/

theorem splitOn_append_of_notMem {α : Type} [BEq α] [LawfulBEq α] {a : α} {front : List α}
    (hfront : a ∉ front) (xs : List α) :
    (front ++ xs).splitOn a = (xs.splitOn a).modifyHead (front ++ ·) := by
  induction front with
  | nil => exact (congrFun List.modifyHead_id _).symm
  | cons x front ih =>
    rw [List.mem_cons, not_or] at hfront
    have hx : ¬(x == a) = true := fun h => hfront.1 (eq_of_beq h).symm
    rw [List.cons_append, List.splitOn_cons_eq_if_modifyHead, if_neg hx, ih hfront.2,
      List.modifyHead_modifyHead]
    rfl

theorem Text.dropEndWhile_append {p : Char → Bool} {front : Text} (hfront : ∀ c ∈ front, ¬p c)
    (t : Text) : Text.dropEndWhile p (front ++ t) = front ++ Text.dropEndWhile p t := by
  have hself : front.reverse.dropWhile p = front.reverse := by
    rw [List.dropWhile_eq_self_iff]
    exact fun h => hfront _ (List.mem_reverse.mp (List.getElem_mem h))
  rw [Text.dropEndWhile, Text.dropEndWhile, List.reverse_append, List.dropWhile_append, hself]
  split
  · next hnil =>
    rw [List.isEmpty_iff.mp hnil, List.reverse_reverse, List.reverse_nil, List.append_nil]
  · rw [List.reverse_append, List.reverse_reverse]

theorem findHeadEnd_append_left {front : Bytes} (hfront : ∀ b ∈ front, b ≠ 0x0D ∧ b ≠ 0x0A)
    (rest : Bytes) : findHeadEnd (front ++ rest) =
      (findHeadEnd rest).map fun e => ⟨front.length + e.headLength, front.length + e.bodyStart⟩ := by
  induction front with
  | nil => simp
  | cons b front ih =>
    rw [List.forall_mem_cons] at hfront
    have hblank : blankLineLength? (b :: (front ++ rest)) = none := by
      by_contra hsome
      obtain ⟨n, hn⟩ := Option.ne_none_iff_exists'.mp hsome
      rcases blankLineLength?_eq_some_iff.mp hn with ⟨⟨after, hafter⟩, -⟩ | ⟨⟨after, hafter⟩, -⟩
      · exact hfront.1.1 (List.cons.inj hafter).1.symm
      · exact hfront.1.2 (List.cons.inj hafter).1.symm
    rw [List.cons_append, findHeadEnd_cons_of_not_blank hblank, ih hfront.2, Option.map_map]
    refine congrFun (congrArg Option.map (funext fun e => ?_)) _
    simp only [Function.comp_apply, List.length_cons, HeadEnd.mk.injEq]
    omega

section Word

variable (hw : IsTarget w)

include hw

theorem IsTarget.notMem {c : Char} (hc : Text.isBlank c) : c ∉ w := fun hmem => hw.not_isBlank c hmem hc

theorem IsTarget.forall_mem_toLatin1 : ∀ b ∈ Text.toLatin1 w, b ≠ 0x0D ∧ b ≠ 0x0A := by
  intro b hb
  obtain ⟨c, hc, rfl⟩ := List.mem_map.mp hb
  have hne : ∀ x : Char, Text.isBlank x → x.toNat ≤ 0xFF → c.toUInt8 ≠ x.toUInt8 := by
    intro x hx hff hbyte
    have hnat := congrArg UInt8.toNat hbyte
    rw [Text.toNat_toUInt8 (hw.le_ff c hc), Text.toNat_toUInt8 hff, Char.toNat_inj] at hnat
    exact hw.notMem hx (hnat ▸ hc)
  exact ⟨hne '\r' (by decide) (by decide), hne '\n' (by decide) (by decide)⟩

theorem ofLatin1_toLatin1_append (head : Bytes) :
    Text.ofLatin1 (Text.toLatin1 w ++ head) = w ++ Text.ofLatin1 head := by
  rw [Text.ofLatin1, List.map_append]
  exact congrArg (· ++ _) (Text.ofLatin1_toLatin1 hw.le_ff)

theorem words_word_append (line : Text) :
    Text.words (w ++ line) = (w ++ line.takeWhile fun c => !Text.isBlank c) ::
      Text.words (line.dropWhile fun c => !Text.isBlank c) := by
  have hfirst : ∀ c ∈ w ++ line.takeWhile (fun c => !Text.isBlank c), ¬Text.isBlank c := by
    rw [List.forall_mem_append]
    exact ⟨hw.not_isBlank, fun c hc => by simpa using List.mem_takeWhile_imp hc⟩
  have hne : w ++ line.takeWhile (fun c => !Text.isBlank c) ≠ [] :=
    List.append_ne_nil_of_left_ne_nil hw.ne_nil _
  conv_lhs => rw [← List.takeWhile_append_dropWhile (p := fun c => !Text.isBlank c) (l := line)]
  rw [← List.append_assoc]
  cases hrest : line.dropWhile fun c => !Text.isBlank c with
  | nil =>
    rw [List.append_nil, words_of_word hne hfirst]
    rfl
  | cons c rest =>
    have hc : Text.isBlank c := by
      have hnot := List.head?_dropWhile_not (fun c => !Text.isBlank c) line
      rw [hrest] at hnot
      simpa using hnot
    have hrest : Text.words (c :: rest) = Text.words rest := words_append_cons hc [] rest
    rw [words_append_cons hc, words_of_word hne hfirst, hrest]
    rfl

theorem headLines_word_append (t : Text) :
    Request.headLines (w ++ t) = (Request.headLines t).modifyHead (w ++ ·) := by
  obtain ⟨first, lines, hparts⟩ := List.exists_cons_of_ne_nil (List.splitOn_ne_nil '\n' t)
  have hreturn : ∀ c ∈ w, ¬decide (c = '\r') = true := by
    intro c hc
    simpa using ne_of_mem_of_not_mem hc (hw.notMem (c := '\r') (by decide))
  rw [Request.headLines, Request.headLines, splitOn_append_of_notMem (hw.notMem (by decide)), hparts,
    List.modifyHead_cons, List.map_cons, List.map_cons, Text.dropEndWhile_append hreturn,
    List.modifyHead_cons]

theorem firstLine_word_append (head : Bytes) :
    Request.firstLine (Text.toLatin1 w ++ head) = w ++ Request.firstLine head := by
  rw [Request.firstLine, ofLatin1_toLatin1_append hw, headLines_word_append hw,
    Request.headLines_eq_cons, List.modifyHead_cons]
  rfl

theorem headerLines_word_append (head : Bytes) :
    headerLines (Text.toLatin1 w ++ head) = headerLines head := by
  rw [headerLines, ofLatin1_toLatin1_append hw, headLines_word_append hw, headerLines,
    Request.headLines_eq_cons, List.modifyHead_cons]
  rfl

theorem readHead_word_append (head : Bytes) :
    Request.readHead (Text.toLatin1 w ++ head) =
      (Request.readLine (w ++ Request.firstLine head)).bind fun line =>
        (readFields (headerLines head)).map fun headers => (line, headers) := by
  have hblank : ¬Text.isBlankText (Text.ofLatin1 (Text.toLatin1 w ++ head)) := by
    rw [ofLatin1_toLatin1_append hw, Text.isBlankText_iff]
    obtain ⟨c, rest, rfl⟩ := List.exists_cons_of_ne_nil hw.ne_nil
    exact fun h => hw.not_isBlank c List.mem_cons_self (h c (List.mem_append_left _ List.mem_cons_self))
  rw [Request.readHead_eq, if_neg hblank, firstLine_word_append hw, ← headerLines,
    headerLines_word_append hw]

end Word

/-! ### Another first word -/

theorem Method.eq_get_of_isPrefix (h : Method.get.text <+: m.text) : m = .get := by
  revert h
  cases m <;> decide

/-- What stands behind a method is read alike behind any other word. -/
theorem readLine_word_append (hw : IsTarget w)
    (h : Request.readLine (Method.get.text ++ line) = .ok (m, target, v)) :
    m = .get ∧ Request.readLine (w ++ line) =
      match Method.ofText? w with
      | some m => .ok (m, target, v)
      | none => .error (.unsupportedMethod w) := by
  rw [Request.readLine_eq_ok_iff, words_word_append (isTarget_method .get), List.cons.injEq] at h
  obtain ⟨hm, hrest⟩ := h
  obtain rfl := Method.eq_get_of_isPrefix ⟨_, hm⟩
  have hnil := List.append_cancel_left (hm.trans (List.append_nil _).symm)
  refine ⟨rfl, ?_⟩
  rw [Request.readLine, words_word_append hw, hrest, hnil, List.append_nil]
  simp only [HttpVersion.ofText?_text]
  cases Method.ofText? w <;> rfl

theorem splitHead_word_append (hw : IsTarget w) {e : HeadEnd} (hend : findHeadEnd tail = some e) :
    Request.splitHead (Text.toLatin1 w ++ tail) =
      .ok (Text.toLatin1 w ++ tail.take e.headLength, tail.drop e.bodyStart) := by
  have hlong := findHeadEnd_append_left hw.forall_mem_toLatin1 tail
  rw [hend, Option.map_some] at hlong
  rw [Request.splitHead_of_findHeadEnd hlong, List.take_length_add_append, List.drop_length_add_append]

/-- An accepted request is parsed with another first word as with its own, but for the method. -/
theorem parse_word_append (hw : IsTarget w) {e : HeadEnd} {r : Request}
    (hend : findHeadEnd (Text.toLatin1 Method.get.text ++ tail) = some e)
    (hparse : Request.parse (Text.toLatin1 Method.get.text ++ tail) = .ok r) :
    Request.parse (Text.toLatin1 w ++ tail) =
      match Method.ofText? w with
      | some m => .ok { r with method := m }
      | none => .error (.unsupportedMethod w) := by
  have hget := isTarget_method .get
  obtain ⟨e, htail⟩ : ∃ e, findHeadEnd tail = some e := by
    rw [findHeadEnd_append_left hget.forall_mem_toLatin1, Option.map_eq_some_iff] at hend
    exact hend.imp fun _ h => h.1
  obtain ⟨head, rest, hsplit, hhead, hbody⟩ := Request.parse_eq_ok_iff.mp hparse
  rw [splitHead_word_append hget htail, Except.ok.injEq, Prod.mk.injEq] at hsplit
  obtain ⟨rfl, rfl⟩ := hsplit
  rw [readHead_word_append hget, bind_eq_ok_iff] at hhead
  obtain ⟨first, hline, hfields⟩ := hhead
  obtain ⟨headers, hfields, hparts⟩ := map_eq_ok_iff.mp hfields
  obtain ⟨rfl, rfl⟩ := Prod.mk.inj hparts
  obtain ⟨-, hword⟩ := readLine_word_append hw hline
  rw [Request.parse, splitHead_word_append hw htail]
  simp only [readHead_word_append hw, hword, hfields, bind, Except.bind, pure, Except.pure]
  cases Method.ofText? w with
  | none => rfl
  | some m => simp only [Except.map, hbody]

/-! ### The answer -/

/-- The response to a request without a handler does not show why there is none. -/
theorem response_answer_word_append (arrival : Arrival) (hw : IsTarget w)
    (hhandler : ∀ m ∈ [Method.get, .post, .put, .delete, .options], w ≠ m.text) {e : HeadEnd} {r : Request}
    (hend : findHeadEnd (Text.toLatin1 Method.get.text ++ tail) = some e)
    (hparse : Request.parse (Text.toLatin1 Method.get.text ++ tail) = .ok r) :
    (Connection.answer arrival (Text.toLatin1 w ++ tail)).response =
      (Response.error .notImplemented (RequestError.unsupportedMethodMessage w)).withCommonHeaders
        arrival.date := by
  have hword := parse_word_append hw hend hparse
  rw [Connection.answer, hword]
  cases hmethod : Method.ofText? w with
  | none => rfl
  | some m =>
    obtain rfl := Method.ofText?_eq_some_iff.mp hmethod
    have hm : m ∈ [.head, .patch, .trace, .connect] := by
      revert hhandler
      cases m <;> decide
    simp only [Router.route, Router.handler?_echo, if_pos hm]
    rfl

/-- A request that would be accepted with `GET` in front gets the same answer with any word instead for
which there is no handler: the status, the headers in order and the message, which names the word and is
read back as it was. -/
theorem answer_of_no_handler (arrival : Arrival) (hw : IsTarget w)
    (hhandler : w ∉ ["GET", "POST", "PUT", "DELETE", "OPTIONS"].map String.toList) {e : HeadEnd}
    {r : Request} (hend : findHeadEnd (Text.toLatin1 "GET".toList ++ tail) = some e)
    (hparse : Request.parse (Text.toLatin1 "GET".toList ++ tail) = .ok r) :
    let response := (Connection.answer arrival (Text.toLatin1 w ++ tail)).response
    let message := "Unsupported method ('".toList ++ w ++ "')".toList
    response.status = .notImplemented ∧
      response.body = Text.utf8 ("\x7b\"error\":".toList ++ Json.quote message ++ ['\x7d']) ∧
      decodeBody (some response.body) = .ok (.obj [("error".toList, .str message)]) ∧
      response.headers =
        [("Content-Type".toList, "application/json".toList),
          ("Server".toList, "EchoServer/0.1.0".toList),
          ("Date".toList, arrival.date),
          ("Access-Control-Allow-Origin".toList, ['*']),
          ("Access-Control-Allow-Methods".toList, "GET, POST, PUT, DELETE, OPTIONS".toList),
          ("Access-Control-Allow-Headers".toList, ['*']),
          ("Connection".toList, "close".toList)] := by
  intro response message
  have hresponse : response = (Response.error .notImplemented
      (RequestError.unsupportedMethodMessage w)).withCommonHeaders arrival.date := by
    refine response_answer_word_append arrival hw ?_ hend hparse
    intro m hm hmethod
    apply hhandler
    rw [hmethod]
    revert hm
    cases m <;> decide
  have hexact : Json.Exact Json.maxDepth (.obj [("error".toList, .str message)]) :=
    .obj (List.pairwise_singleton _ _) (List.forall_mem_singleton.mpr (.str _ message))
  rw [hresponse]
  refine ⟨rfl, rfl, ?_, rfl⟩
  exact decodeBody_utf8_render hexact .compact

/-- The first word is none of the methods and has a quote and a character beyond ASCII, the second one is
a method. -/
theorem answer_of_no_handler_quoted_word :
    let arrival : Arrival := ⟨"now".toList, "client".toList, "peer".toList, "date".toList⟩
    let response := fun word : Text => (Connection.answer arrival (Text.toLatin1 word ++
      Text.toLatin1 " /pot?x HTTP/1.1\r\nContent-Length: 1\r\n\r\n??".toList)).response
    decodeBody (some (response "br\"\u00C9w".toList).body) =
        .ok (.obj [("error".toList, .str "Unsupported method ('br\"\u00C9w')".toList)]) ∧
      decodeBody (some (response "TRACE".toList).body) =
        .ok (.obj [("error".toList, .str "Unsupported method ('TRACE')".toList)]) ∧
      (response "br\"\u00C9w".toList).status = (response "TRACE".toList).status ∧
      (response "br\"\u00C9w".toList).headers = (response "TRACE".toList).headers := by
  intro arrival response
  have hend : findHeadEnd (Text.toLatin1 "GET".toList ++
      Text.toLatin1 " /pot?x HTTP/1.1\r\nContent-Length: 1\r\n\r\n??".toList) = some ⟨38, 42⟩ := by
    decide
  have hparse : Request.parse (Text.toLatin1 "GET".toList ++
      Text.toLatin1 " /pot?x HTTP/1.1\r\nContent-Length: 1\r\n\r\n??".toList) =
        .ok ⟨.get, "/pot?x".toList, .http11, [(contentLengthName, ['1'])], some [0x3F]⟩ := by
    decide
  have hunknown : IsTarget "br\"\u00C9w".toList := by decide
  obtain ⟨hstatus, -, hbody, hheaders⟩ :=
    answer_of_no_handler arrival hunknown (by decide) hend hparse
  obtain ⟨hstatus', -, hbody', hheaders'⟩ :=
    answer_of_no_handler arrival (isTarget_method .trace) (by decide) hend hparse
  exact ⟨hbody, hbody', hstatus.trans hstatus'.symm, hheaders.trans hheaders'.symm⟩

end HttpEcho
