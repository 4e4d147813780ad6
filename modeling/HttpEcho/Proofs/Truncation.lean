import HttpEcho.Proofs.CutHead

/-!
# Requests that are cut off

The client may close its side before its request is complete. If the bytes end in the body, parsing
says how many are missing, and if they end in the blank line behind the head, it reads the same request
or none. If they end in the head, all of them are taken for it: the request line is read as it was or not
at all, but headers at the end are lost without an error, and so is the end of the last value.
-/

namespace HttpEcho

/-! ### The blank line behind the head -/

theorem readFieldsOnto_append_nil (done : List OpenField) (lines : List Text) :
    readFieldsOnto done (lines ++ [[]]) = readFieldsOnto done lines := by
  induction lines generalizing done with
  | nil => rfl
  | cons line lines ih =>
    rw [List.cons_append, readFieldsOnto.eq_def, readFieldsOnto.eq_def]
    simp only [ih]

section Returns

variable (head : Bytes) {returns : Bytes} (h : ∀ b ∈ returns, b = 0x0D)

include h

theorem mem_ofLatin1_returns : ∀ c ∈ Text.ofLatin1 returns, c = '\r' := by
  intro c hc
  obtain ⟨b, hb, rfl⟩ := List.mem_map.mp hc
  rw [h b hb]
  rfl

theorem isBlankText_ofLatin1_returns : Text.isBlankText (Text.ofLatin1 returns) :=
  Text.isBlankText_iff.mpr fun c hc => mem_ofLatin1_returns h c hc ▸ rfl

theorem readHead_append_returns : Request.readHead (head ++ returns) = Request.readHead head := by
  have htext : Text.ofLatin1 (head ++ returns) = Text.ofLatin1 head ++ Text.ofLatin1 returns :=
    List.map_append
  have hblank : Text.isBlankText (Text.ofLatin1 (head ++ returns)) =
      Text.isBlankText (Text.ofLatin1 head) := by
    rw [htext, Text.isBlankText, List.all_append, ← Text.isBlankText, ← Text.isBlankText,
      isBlankText_ofLatin1_returns h, Bool.and_true]
  rw [Request.readHead_eq, Request.readHead_eq, hblank, Request.firstLine, htext,
    headLines_append_returns _ (mem_ofLatin1_returns h)]
  rfl

theorem readHead_append_newline :
    Request.readHead (head ++ 0x0A :: returns) = Request.readHead head := by
  have htext : Text.ofLatin1 (head ++ 0x0A :: returns) =
      Text.ofLatin1 head ++ '\n' :: Text.ofLatin1 returns :=
    List.map_append
  have hblank : Text.isBlankText (Text.ofLatin1 (head ++ 0x0A :: returns)) =
      Text.isBlankText (Text.ofLatin1 head) := by
    rw [htext, Text.isBlankText, List.all_append, List.all_cons, ← Text.isBlankText,
      ← Text.isBlankText, isBlankText_ofLatin1_returns h]
    exact Bool.and_true _
  have hlines : Request.headLines (Text.ofLatin1 (head ++ 0x0A :: returns)) =
      Request.firstLine head :: ((Request.headLines (Text.ofLatin1 head)).drop 1 ++ [[]]) := by
    rw [htext, headLines_append_newline _ (mem_ofLatin1_returns h), Request.headLines_eq_cons,
      List.cons_append]
    rfl
  rw [Request.readHead_eq, Request.readHead_eq, hblank, Request.firstLine, hlines, List.headD_cons,
    List.drop_one, List.tail_cons, readFields, readFieldsOnto_append_nil]
  rfl

end Returns

theorem readHead_append_ending (head : Bytes) {ending : Bytes} (hending : ending = [0x0D] ∨ ending = [])
    {j : Nat} (hj : j < (ending ++ 0x0A :: (ending ++ [0x0A])).length) :
    Request.readHead (head ++ (ending ++ 0x0A :: (ending ++ [0x0A])).take j) =
      Request.readHead head := by
  have hends : ∀ b ∈ ending, b = 0x0D := by
    rcases hending with rfl | rfl <;> simp
  have hnewline : ∀ {returns : Bytes}, (∀ b ∈ returns, b = 0x0D) →
      Request.readHead (head ++ (ending ++ 0x0A :: returns)) = Request.readHead head := by
    intro returns hreturns
    rw [← List.append_assoc, readHead_append_newline _ hreturns, readHead_append_returns head hends]
  have htake : ∀ i, ∀ b ∈ ending.take i, b = 0x0D := fun i b hb => hends b (List.mem_of_mem_take hb)
  rw [List.take_append]
  cases hrest : j - ending.length with
  | zero =>
    rw [List.take_zero, List.append_nil]
    exact readHead_append_returns head (htake j)
  | succ i =>
    rw [List.take_of_length_le (by omega), List.take_succ_cons]
    rw [List.length_append, List.length_cons, List.length_append, List.length_singleton] at hj
    rw [List.take_append_of_le_length (by omega)]
    exact hnewline (htake i)

/-- A part of the blank line behind the head does not change how it is read. -/
theorem readHead_take {raw : Bytes} {e : HeadEnd} {k : Nat} (hend : findHeadEnd raw = some e)
    (hle : e.headLength ≤ k) (hlt : k < e.bodyStart) :
    Request.readHead (raw.take k) = Request.readHead (raw.take e.headLength) := by
  obtain ⟨ending, hending, htake⟩ := take_bodyStart hend
  have hbounds := findHeadEnd_bounds hend
  have hlength : (raw.take e.headLength).length = e.headLength := List.length_take_of_le (by omega)
  have hcut : raw.take k =
      raw.take e.headLength ++ (ending ++ 0x0A :: (ending ++ [0x0A])).take (k - e.headLength) := by
    have hshort := congrArg (List.take k) htake
    rw [List.take_take, Nat.min_eq_left (Nat.le_of_lt hlt)] at hshort
    rw [hshort, List.take_append, hlength, List.take_of_length_le (by omega)]
  rw [hcut]
  apply readHead_append_ending _ hending
  have hbytes := congrArg List.length htake
  rw [List.length_append, hlength, List.length_take_of_le hbounds.2] at hbytes
  omega

/-! ### The body -/

section Body

variable {headers : Headers} {rest : Bytes} {body : Option Bytes}

/-- A body that was read from some bytes is read from others as far as they are enough. -/
theorem readBody_of_readBody (h : Request.readBody headers rest = .ok body) (short : Bytes) :
    Request.readBody headers short =
      if short.length < (body.getD []).length then
        .error (.incompleteBody (body.getD []).length short.length)
      else .ok (body.map fun body => short.take body.length) := by
  unfold Request.readBody at h ⊢
  split at h
  · obtain rfl := Except.ok.inj h
    rfl
  split at h
  · cases h
  split at h
  · cases h
  · next n _ henough =>
    obtain rfl := Except.ok.inj h
    have hlength : (rest.take n).length = n := List.length_take_of_le (Nat.not_lt.mp henough)
    simp only [Option.getD_some, Option.map_some, hlength]

theorem length_body_le (h : Request.readBody headers rest = .ok body) : (body.getD []).length ≤ rest.length := by
  have hself := readBody_of_readBody h rest
  rw [h] at hself
  split at hself
  · cases hself
  · next henough => exact Nat.not_lt.mp henough

/-- Without any bytes there is a body only if it is empty. -/
theorem body_eq_of_readBody_nil {left : Option Bytes}
    (h : Request.readBody headers rest = .ok body) (hleft : Request.readBody headers [] = .ok left) :
    left = body := by
  rw [readBody_of_readBody h] at hleft
  split at hleft
  · cases hleft
  · next hnil =>
    rw [← Except.ok.inj hleft]
    cases body with
    | none => rfl
    | some body =>
      have hbody : body = [] := List.length_eq_zero_iff.mp (Nat.eq_zero_of_not_pos hnil)
      rw [hbody]
      rfl

end Body

/-! ### The whole request -/

/-- A request with the request line of another one, some of its headers and no byte of a body. -/
structure IsCutOf (cut r : Request) : Prop where
  line_eq : (cut.method, cut.target, cut.version) = (r.method, r.target, r.version)
  cutShort : CutShort IsFrontOf cut.headers r.headers
  body_eq_nil : cut.body.getD [] = []

namespace Request

variable {raw : Bytes} {r cut : Request} {e : HeadEnd} {k : Nat}

theorem parse_eq_ok_iff_of_findHeadEnd (hend : findHeadEnd raw = some e) : parse raw = .ok r ↔
    readHead (raw.take e.headLength) = .ok ((r.method, r.target, r.version), r.headers) ∧
      readBody r.headers (raw.drop e.bodyStart) = .ok r.body := by
  simp [parse_eq_ok_iff, splitHead_of_findHeadEnd hend]

theorem parse_eq_ok_iff_of_findHeadEnd_eq_none (hnone : findHeadEnd raw = none) : parse raw = .ok r ↔
    raw.length < maxHeadBytes ∧
      readHead raw = .ok ((r.method, r.target, r.version), r.headers) ∧
        readBody r.headers [] = .ok r.body := by
  rw [parse_eq_ok_iff, splitHead, hnone]
  by_cases hlarge : maxHeadBytes ≤ raw.length
  · simp [hlarge, Nat.not_lt.mpr hlarge]
  · simp [hlarge, Nat.not_le.mp hlarge]

section Accepted

variable (hparse : parse raw = .ok r) (hend : findHeadEnd raw = some e)

include hparse hend

/-- If the bytes end in the body, parsing says how many are missing. -/
theorem parse_take_of_bodyStart_le (hle : e.bodyStart ≤ k)
    (hlt : k < e.bodyStart + (r.body.getD []).length) :
    parse (raw.take k) = .error (.incompleteBody (r.body.getD []).length (k - e.bodyStart)) := by
  obtain ⟨hhead, hbody⟩ := (parse_eq_ok_iff_of_findHeadEnd hend).mp hparse
  have hbounds := findHeadEnd_bounds hend
  have hshort : findHeadEnd (raw.take k) = some e := findHeadEnd_take_of_le hend hle
  have hfront : headBytes (raw.take k) = raw.take e.headLength := by
    rw [headBytes, hshort, Option.elim_some, List.take_take, Nat.min_eq_left (by omega)]
  have hafter : bytesAfterHead (raw.take k) = (raw.drop e.bodyStart).take (k - e.bodyStart) := by
    rw [bytesAfterHead, hshort, Option.elim_some, List.drop_take]
  have hlength : ((raw.drop e.bodyStart).take (k - e.bodyStart)).length = k - e.bodyStart := by
    apply List.length_take_of_le
    have := length_body_le hbody
    omega
  have hread : readBody r.headers (bytesAfterHead (raw.take k)) =
      .error (.incompleteBody (r.body.getD []).length (k - e.bodyStart)) := by
    rw [hafter, readBody_of_readBody hbody, hlength, if_pos (by omega)]
  exact parse_of_readBody_error (by simp [hshort]) (hfront ▸ hhead) hread

theorem findHeadEnd_take_eq_none_of_parse (hlt : k < e.bodyStart + (r.body.getD []).length)
    (hcut : parse (raw.take k) = .ok cut) : k < e.bodyStart ∧ findHeadEnd (raw.take k) = none := by
  have hbefore : k < e.bodyStart := by
    by_contra hle
    rw [parse_take_of_bodyStart_le hparse hend (Nat.not_lt.mp hle) hlt] at hcut
    cases hcut
  have hbounds := findHeadEnd_bounds hend
  refine ⟨hbefore, (findHeadEnd_take_eq_none_iff (by omega)).mpr fun e' he' => ?_⟩
  rw [hend, Option.some.injEq] at he'
  exact he' ▸ hbefore

theorem isCutOf_of_parse_take (hlt : k < e.bodyStart + (r.body.getD []).length)
    (hcut : parse (raw.take k) = .ok cut) :
    IsCutOf cut r ∧ (cut.headers = r.headers → cut = r) ∧ (e.headLength ≤ k → cut = r) := by
  obtain ⟨hbefore, hnone⟩ := findHeadEnd_take_eq_none_of_parse hparse hend hlt hcut
  obtain ⟨hhead, hbody⟩ := (parse_eq_ok_iff_of_findHeadEnd hend).mp hparse
  obtain ⟨-, hcutHead, hcutBody⟩ := (parse_eq_ok_iff_of_findHeadEnd_eq_none hnone).mp hcut
  have hnil : cut.body.getD [] = [] :=
    List.length_eq_zero_iff.mp (Nat.le_zero.mp (length_body_le hcutBody))
  have hfrom : (cut.method, cut.target, cut.version) = (r.method, r.target, r.version) →
      cut.headers = r.headers → cut = r := by
    intro hline hheaders
    have hsame := body_eq_of_readBody_nil hbody (hheaders ▸ hcutBody)
    obtain ⟨method, target, version, headers, body⟩ := cut
    simp_all
  by_cases hle : e.headLength ≤ k
  · rw [readHead_take hend hle hbefore, hhead, Except.ok.injEq, Prod.mk.injEq] at hcutHead
    have hsame := hfrom hcutHead.1.symm hcutHead.2.symm
    exact ⟨⟨hcutHead.1.symm, hcutHead.2 ▸ .refl _, hnil⟩, hfrom hcutHead.1.symm, fun _ => hsame⟩
  · have hpre : raw.take k <+: raw.take e.headLength :=
      List.take_prefix_take_left (Nat.le_of_lt (Nat.not_le.mp hle))
    obtain ⟨hline, hheaders⟩ := readHead_of_isPrefix hpre hcutHead hhead
    exact ⟨⟨hline, hheaders, hnil⟩, hfrom hline, fun h => absurd h hle⟩

end Accepted

/-! ### Where the request line is complete -/

theorem firstLine_isPrefix (head : Bytes) : firstLine head <+: Text.ofLatin1 head := by
  rw [firstLine]
  by_cases hmem : '\n' ∈ Text.ofLatin1 head
  · obtain ⟨before, after, htext, hbefore⟩ := List.eq_append_cons_of_mem hmem
    rw [headLines, htext, List.splitOn_append_cons_self_of_not_mem hbefore, List.map_cons, List.headD_cons]
    exact (List.rdropWhile_prefix _ before).trans (List.prefix_append before _)
  · rw [headLines_of_notMem hmem, List.headD_cons]
    exact List.rdropWhile_prefix _ _

theorem newline_notMem_firstLine (head : Bytes) : '\n' ∉ firstLine head := by
  have hmem : firstLine head ∈ headLines (Text.ofLatin1 head) := by
    rw [headLines_eq_cons]
    exact List.mem_cons_self
  exact (Text.of_mem_headLines hmem).1

/-- The length of the first line of the head up to the white space at its end. -/
def lineLength (raw : Bytes) : Nat := (Text.trimEnd (firstLine (headBytes raw))).length

theorem headBytes_of_findHeadEnd (hend : findHeadEnd raw = some e) :
    headBytes raw = raw.take e.headLength := by
  rw [headBytes, hend, Option.elim_some]

theorem length_firstLine_le (hend : findHeadEnd raw = some e) :
    (firstLine (headBytes raw)).length ≤ e.headLength := by
  have hle := (firstLine_isPrefix (headBytes raw)).length_le
  rw [Text.length_ofLatin1, headBytes_of_findHeadEnd hend] at hle
  rw [headBytes_of_findHeadEnd hend]
  exact hle.trans (List.length_take_le _ _)

theorem lineLength_le (raw : Bytes) : lineLength raw ≤ (firstLine (headBytes raw)).length :=
  (List.rdropWhile_prefix Text.isBlank _).length_le

theorem firstLine_isPrefix_ofLatin1 (hend : findHeadEnd raw = some e) :
    firstLine (headBytes raw) <+: Text.ofLatin1 raw := by
  refine (firstLine_isPrefix (headBytes raw)).trans ?_
  rw [headBytes_of_findHeadEnd hend]
  exact (List.take_prefix e.headLength raw).map Char.ofUInt8

section Accepted

variable (hparse : parse raw = .ok r) (hend : findHeadEnd raw = some e)

include hparse hend

theorem words_firstLine : Text.words (firstLine (headBytes raw)) = [r.method.text, r.target, r.version.text] := by
  obtain ⟨hhead, -⟩ := (parse_eq_ok_iff_of_findHeadEnd hend).mp hparse
  rw [headBytes_of_findHeadEnd hend]
  exact readLine_eq_ok_iff.mp (readHead_eq_ok_iff.mp hhead).2.1

/-- A request that is cut off in its request line is refused. -/
theorem lineLength_le_of_parse_take (hlt : k < e.bodyStart + (r.body.getD []).length)
    (hcut : parse (raw.take k) = .ok cut) : lineLength raw ≤ k := by
  have hbounds := findHeadEnd_bounds hend
  obtain ⟨hbefore, hnone⟩ := findHeadEnd_take_eq_none_of_parse hparse hend hlt hcut
  by_cases hlong : (firstLine (headBytes raw)).length ≤ k
  · exact (lineLength_le raw).trans hlong
  have hlength : (Text.ofLatin1 (raw.take k)).length = k := by
    rw [Text.length_ofLatin1, List.length_take_of_le (by omega)]
  have hpre : Text.ofLatin1 (raw.take k) <+: firstLine (headBytes raw) := by
    apply List.prefix_of_prefix_length_le ((List.take_prefix k raw).map _)
      (firstLine_isPrefix_ofLatin1 hend)
    exact (Nat.le_of_eq hlength).trans (Nat.le_of_lt (Nat.not_le.mp hlong))
  have hfree : '\n' ∉ Text.ofLatin1 (raw.take k) := fun hmem =>
    newline_notMem_firstLine (headBytes raw) (hpre.subset hmem)
  have hcutHead := ((parse_eq_ok_iff_of_findHeadEnd_eq_none hnone).mp hcut).2.1
  have hcutLine := (readHead_eq_ok_iff.mp hcutHead).2.1
  rw [(isCutOf_of_parse_take hparse hend hlt hcut).1.line_eq, readLine_eq_ok_iff, firstLine,
    headLines_of_notMem hfree, List.headD_cons, words_dropReturns] at hcutLine
  have hwords := hcutLine.trans (words_firstLine hparse hend).symm
  exact (trimEnd_isPrefix_of_words_eq hpre hwords).length_le.trans (Nat.le_of_eq hlength)

/-- A request line alone is a request without headers. -/
theorem parse_take_lineLength (hshort : lineLength raw < maxHeadBytes) :
    parse (raw.take (lineLength raw)) = .ok ⟨r.method, r.target, r.version, [], none⟩ := by
  have hbounds := findHeadEnd_bounds hend
  have hle := (lineLength_le raw).trans (length_firstLine_le hend)
  have htrim : Text.trimEnd (firstLine (headBytes raw)) <+: firstLine (headBytes raw) :=
    List.rdropWhile_prefix _ _
  have htext : Text.ofLatin1 (raw.take (lineLength raw)) = Text.trimEnd (firstLine (headBytes raw)) := by
    have hpre := htrim.trans (firstLine_isPrefix_ofLatin1 hend)
    rw [List.prefix_iff_eq_take.mp hpre, ← lineLength, Text.ofLatin1, List.map_take]
    rfl
  have hnone : findHeadEnd (raw.take (lineLength raw)) = none := by
    rw [findHeadEnd_take_eq_none_iff (by omega)]
    intro e' he'
    obtain rfl := Option.some.inj (hend.symm.trans he')
    omega
  have hlines : headLines (Text.ofLatin1 (raw.take (lineLength raw))) =
      [Text.dropEndWhile (· = '\r') (Text.trimEnd (firstLine (headBytes raw)))] := by
    rw [htext, headLines_of_notMem fun hmem => newline_notMem_firstLine _ (htrim.subset hmem)]
  have hwords : Text.words (firstLine (raw.take (lineLength raw))) =
      [r.method.text, r.target, r.version.text] := by
    rw [firstLine, hlines, List.headD_cons, words_dropReturns, Text.trimEnd,
      words_dropEndWhile fun _ => id, words_firstLine hparse hend]
  rw [parse_eq_ok_iff_of_findHeadEnd_eq_none hnone, readHead_eq_ok_iff, readLine_eq_ok_iff]
  refine ⟨(List.length_take_le _ _).trans_lt hshort, ⟨?_, hwords, ?_⟩, rfl⟩
  · rw [Text.isBlankText_iff]
    intro hblank
    have hnil := words_of_blank fun c hc => hblank c ((firstLine_isPrefix _).subset hc)
    rw [hwords] at hnil
    cases hnil
  · rw [hlines]
    rfl

/-- A request that is cut off anywhere is refused or the same, unless it has headers and its request line
leaves room for the bytes to be a head. -/
theorem parse_take_all_iff : (∀ k < e.bodyStart + (r.body.getD []).length,
      (∃ error, parse (raw.take k) = .error error) ∨ parse (raw.take k) = .ok r) ↔
    r.headers = [] ∨ maxHeadBytes ≤ lineLength raw := by
  have hbounds := findHeadEnd_bounds hend
  constructor
  · intro hall
    by_contra hnot
    obtain ⟨hheaders, hshort⟩ := not_or.mp hnot
    have hcut := parse_take_lineLength hparse hend (Nat.not_le.mp hshort)
    have hle := (lineLength_le raw).trans (length_firstLine_le hend)
    rcases hall (lineLength raw) (by omega) with ⟨error, herror⟩ | hsame
    · rw [hcut] at herror
      cases herror
    · rw [hcut, Except.ok.injEq] at hsame
      exact hheaders (congrArg Request.headers hsame).symm
  · intro hnone k hlt
    cases hcut : parse (raw.take k) with
    | error error => exact Or.inl ⟨error, rfl⟩
    | ok cut =>
      obtain ⟨hfrom, heq, -⟩ := isCutOf_of_parse_take hparse hend hlt hcut
      rcases hnone with hheaders | hlarge
      · have hleft := hfrom.cutShort
        rw [hheaders] at hleft
        exact Or.inr (congrArg _ (heq (hleft.eq_nil.trans hheaders.symm)))
      · -- what is left has the whole request line, and so it is too large
        obtain ⟨hbefore, hnoEnd⟩ := findHeadEnd_take_eq_none_of_parse hparse hend hlt hcut
        have hroom := ((parse_eq_ok_iff_of_findHeadEnd_eq_none hnoEnd).mp hcut).1
        have hreach := lineLength_le_of_parse_take hparse hend hlt hcut
        rw [List.length_take_of_le (by omega)] at hroom
        omega

end Accepted

/-- What an accepted request becomes when the client closes before its end. Cut off in the body it is
refused with the number of bytes that came, and cut off behind the head it is refused or read as before.
Cut off in the head it may be accepted as another request, which has the same request line, no body and
some of the headers, the last of them with a part of its value. It never is if there are no headers, or if
the request line alone reaches the limit on heads, and in no other case. -/
theorem parse_take_of_parse (hparse : parse raw = .ok r) (hend : findHeadEnd raw = some e) :
    (∀ k < e.bodyStart + (r.body.getD []).length,
      (e.bodyStart ≤ k → parse (raw.take k) =
        .error (.incompleteBody (r.body.getD []).length (k - e.bodyStart))) ∧
      (e.headLength ≤ k → (∃ error, parse (raw.take k) = .error error) ∨ parse (raw.take k) = .ok r) ∧
      ∀ cut, parse (raw.take k) = .ok cut →
        IsCutOf cut r ∧ lineLength raw ≤ k ∧ (cut.headers = r.headers → cut = r)) ∧
    ((∀ k < e.bodyStart + (r.body.getD []).length,
        (∃ error, parse (raw.take k) = .error error) ∨ parse (raw.take k) = .ok r) ↔
      r.headers = [] ∨ maxHeadBytes ≤ lineLength raw) := by
  refine ⟨fun k hlt => ⟨?_, ?_, ?_⟩, parse_take_all_iff hparse hend⟩
  · exact fun hle => parse_take_of_bodyStart_le hparse hend hle hlt
  · intro hle
    cases hcut : parse (raw.take k) with
    | error error => exact Or.inl ⟨error, rfl⟩
    | ok cut => exact Or.inr (congrArg _ ((isCutOf_of_parse_take hparse hend hlt hcut).2.2 hle))
  · intro cut hcut
    obtain ⟨hfrom, heq, -⟩ := isCutOf_of_parse_take hparse hend hlt hcut
    exact ⟨hfrom, lineLength_le_of_parse_take hparse hend hlt hcut, heq⟩

def examplePost : Bytes :=
  Text.toLatin1 "POST / HTTP/1.1\r\nHost: ab\r\nContent-Length: 2\r\n\r\nhi".toList

theorem parse_examplePost : parse examplePost = .ok
    { method := .post, target := ['/'], version := .http11
      headers := [("Host".toList, "ab".toList), (contentLengthName, ['2'])]
      body := some [0x68, 0x69] } := by
  decide

theorem findHeadEnd_examplePost : findHeadEnd examplePost = some ⟨44, 48⟩ := by decide

/-- Without its last byte the body is incomplete, and some other part is taken for another request. -/
theorem parse_take_of_parse_examplePost :
    parse (examplePost.take 49) = .error (.incompleteBody 2 1) ∧
      ¬∀ k < 50, (∃ error, parse (examplePost.take k) = .error error) ∨
        parse (examplePost.take k) = parse examplePost := by
  obtain ⟨hcut, hall⟩ := parse_take_of_parse parse_examplePost findHeadEnd_examplePost
  refine ⟨(hcut 49 (by decide)).1 (by decide), ?_⟩
  rw [parse_examplePost]
  exact hall.not.mpr (by decide)

/-- The first header is left with a part of its value, and the second one is lost with the body. -/
theorem parse_take_examplePost_ne :
    findHeadEnd examplePost = some ⟨44, 48⟩ ∧ examplePost.length = 50 ∧
      parse (examplePost.take 24) = .ok
        { method := .post, target := ['/'], version := .http11
          headers := [("Host".toList, ['a'])], body := none } ∧
      parse (examplePost.take 24) ≠ parse examplePost := by
  decide

end Request

end HttpEcho
