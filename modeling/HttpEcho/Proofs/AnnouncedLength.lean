import HttpEcho.Proofs.Lines
import HttpEcho.Proofs.Numeral
import HttpEcho.Proofs.Parsing
import HttpEcho.Request.Length

/-!
# The announced length, read twice

What a connection waits for comes from the lines of the head as they stand, each decoded as UTF-8.
Parsing decodes them as ISO-8859-1, stops at a blank one and joins a value with the lines that continue
it. The two agree exactly when the last lengths that they come upon agree, so on plain lines they do,
and a value that goes on in the next line is where they part.
-/

namespace HttpEcho

variable {line value : Text} {lines : List Text} {name : Text}

/-! ### One line -/

/-- The value of a `Content-Length` line. -/
def lengthValue? (line : Text) : Option Text :=
  (Text.cut? ':' line).bind fun field =>
    if Text.SameName (Text.trim field.1) contentLengthName then some (Text.trim field.2) else none

@[simp]
theorem lengthValue?_nil : lengthValue? [] = none := rfl

theorem lengthValue?_append_blank {blank : Text} (hblank : ∀ c ∈ blank, Text.isBlank c)
    (line : Text) : lengthValue? (line ++ blank) = lengthValue? line := by
  cases hcut : Text.cut? ':' line with
  | none =>
    have hcolon : ':' ∉ line ++ blank := by
      rw [List.mem_append]
      rintro (hmem | hmem)
      · exact Text.cut?_eq_none_iff.mp hcut hmem
      · exact absurd (hblank ':' hmem) (by decide)
    rw [lengthValue?, lengthValue?, hcut, Text.cut?_eq_none_iff.mpr hcolon]
  | some parts =>
    obtain ⟨name, value⟩ := parts
    obtain ⟨hline, hname⟩ := Text.cut?_eq_some hcut
    have hlong : Text.cut? ':' (line ++ blank) = some (name, value ++ blank) := by
      rw [hline, List.append_assoc, List.cons_append]
      exact Text.cut?_append hname (value ++ blank)
    rw [lengthValue?, lengthValue?, hcut, hlong]
    simp only [Option.bind_some, Text.trim_append_blank value hblank]

theorem lengthValue?_of_readField? (h : readField? line = some (name, value)) :
    lengthValue? line = if Text.SameName name contentLengthName then some value else none := by
  unfold readField? at h
  split at h
  · cases h
  · next before after hcut =>
    split at h
    · cases h
    · obtain ⟨rfl, rfl⟩ := Prod.mk.inj (Option.some.inj h)
      rw [lengthValue?, hcut]
      rfl

/-! ### What the connection takes from the lines -/

/-- A line whose bytes are taken as UTF-8 instead of ISO-8859-1. -/
def asUtf8 (line : Text) : Text := Text.ofUtf8Lossy (Text.toLatin1 line)

/-- The lengths in the lines as they stand, with `none` for a value that is no number. -/
def seenLengths (lines : List Text) : List (Option Nat) :=
  (lines.filterMap fun line => lengthValue? (asUtf8 line)).map Text.readSize?

def headerLines (head : Bytes) : List Text := (Request.headLines (Text.ofLatin1 head)).drop 1

theorem lengthValue?_asUtf8_headLine (part : Bytes) :
    lengthValue? (asUtf8 (Text.dropEndWhile (· = '\r') (Text.ofLatin1 part))) =
      lengthValue? (Text.ofUtf8Lossy part) := by
  obtain ⟨dropped, hdropped, hpart⟩ :=
    Text.exists_eq_dropEndWhile_append (· = '\r') (Text.ofLatin1 part)
  have hbytes : part = Text.toLatin1 (Text.dropEndWhile (· = '\r') (Text.ofLatin1 part)) ++
      Text.toLatin1 dropped := by
    conv => lhs; rw [← Text.toLatin1_ofLatin1 part, hpart]
    exact List.map_append
  have hascii : ∀ b ∈ Text.toLatin1 dropped, b = 0x0D := by
    intro b hb
    obtain ⟨c, hc, rfl⟩ := List.mem_map.mp hb
    rw [of_decide_eq_true (hdropped c hc)]
    rfl
  have hblank : ∀ c ∈ Text.ofLatin1 (Text.toLatin1 dropped), Text.isBlank c := by
    intro c hc
    obtain ⟨b, hb, rfl⟩ := List.mem_map.mp hc
    rw [hascii b hb]
    decide
  conv => rhs; rw [hbytes]
  rw [Text.ofUtf8Lossy_append_of_ascii fun b hb => by rw [hascii b hb]; decide]
  rw [lengthValue?_append_blank hblank, asUtf8]

theorem headLines_ofLatin1 (head : Bytes) : Request.headLines (Text.ofLatin1 head) =
    (head.splitOn 0x0A).map fun part => Text.dropEndWhile (· = '\r') (Text.ofLatin1 part) := by
  rw [Request.headLines, Text.splitOn_ofLatin1, List.map_map]
  rfl

theorem filterMap_headerLines (head : Bytes) :
    ((headerLines head).filterMap fun line => lengthValue? (asUtf8 line)) =
      ((head.splitOn 0x0A).drop 1).filterMap fun part => lengthValue? (Text.ofUtf8Lossy part) := by
  rw [headerLines, headLines_ofLatin1, ← List.map_drop, List.filterMap_map]
  exact List.filterMap_congr fun part _ => lengthValue?_asUtf8_headLine part

/-- The line ending and the blank line after the head add nothing that is read. -/
theorem filterMap_blankLine {γ : Type} {raw : Bytes} {e : HeadEnd}
    (hend : findHeadEnd raw = some e) (read : Bytes → Option γ) (hnil : read [] = none)
    (hreturn : ∀ part, read (part ++ [0x0D]) = read part) :
    (((raw.take e.bodyStart).splitOn 0x0A).drop 1).filterMap read =
      (((raw.take e.headLength).splitOn 0x0A).drop 1).filterMap read := by
  obtain ⟨ending, hending, htake⟩ := take_bodyStart hend
  have hfree : 0x0A ∉ ending := by
    rcases hending with rfl | rfl <;> decide
  have hread : ∀ part, read (part ++ ending) = read part := by
    intro part
    rcases hending with rfl | rfl
    · exact hreturn part
    · rw [List.append_nil]
  obtain ⟨init, last, hhead, hlong⟩ := exists_splitOn_append hfree (raw.take e.headLength)
  have hparts : (raw.take e.bodyStart).splitOn 0x0A =
      init ++ [last ++ ending] ++ [ending, []] := by
    rw [htake, ← List.append_assoc, List.splitOn_append_cons_self, hlong,
      List.splitOn_append_cons_self_of_not_mem hfree, List.splitOn_nil]
  have hextra : [ending, []].filterMap read = [] := by
    have hnone : read ending = none := by
      rw [← List.nil_append ending, hread, hnil]
    rw [List.filterMap_cons_none hnone, List.filterMap_cons_none hnil, List.filterMap_nil]
  have hlast : [last ++ ending].filterMap read = [last].filterMap read := by
    simp only [List.filterMap_cons, hread]
  rw [hparts, hhead]
  cases init with
  | nil => exact hextra
  | cons first init =>
    rw [List.cons_append, List.cons_append, List.cons_append, List.drop_one, List.drop_one,
      List.tail_cons, List.tail_cons, List.filterMap_append, List.filterMap_append,
      List.filterMap_append, hextra, hlast, List.append_nil]

/-- Cutting lines into fields and choosing among these is the reading of one line after the other. -/
theorem filterMap_lengthValue? (lines : List Text) :
    lines.filterMap lengthValue? =
      ((lines.filterMap (Text.cut? ':')).filter fun field =>
        decide (Text.SameName (Text.trim field.1) contentLengthName)).map
          fun field => Text.trim field.2 := by
  induction lines with
  | nil => rfl
  | cons line lines ih =>
    cases hcut : Text.cut? ':' line with
    | none =>
      have hline : lengthValue? line = none := by rw [lengthValue?, hcut, Option.bind_none]
      rw [List.filterMap_cons_none hline, List.filterMap_cons_none hcut, ih]
    | some field =>
      rw [List.filterMap_cons_some hcut]
      by_cases hname : Text.SameName (Text.trim field.1) contentLengthName
      · have hline : lengthValue? line = some (Text.trim field.2) := by
          rw [lengthValue?, hcut, Option.bind_some, if_pos hname]
        rw [List.filterMap_cons_some hline, List.filter_cons_of_pos (by simpa using hname),
          List.map_cons, ih]
      · have hline : lengthValue? line = none := by
          rw [lengthValue?, hcut, Option.bind_some, if_neg hname]
        rw [List.filterMap_cons_none hline, List.filter_cons_of_neg (by simpa using hname), ih]

theorem contentLengthHint_eq_of_lines (head : Bytes) :
    contentLengthHint head =
      ((((Text.lines (Text.ofUtf8Lossy head)).drop 1).filterMap lengthValue?).map
        Text.readSize?).getLast?.join := by
  rw [filterMap_lengthValue?, List.getLast?_map, List.getLast?_map, Option.map_map,
    ← Option.bind_id_eq_join, Option.bind_map]
  rfl

theorem contentLengthHint_eq {raw : Bytes} {e : HeadEnd} (hend : findHeadEnd raw = some e) :
    contentLengthHint (raw.take e.bodyStart) =
      (seenLengths (headerLines (raw.take e.headLength))).getLast?.join := by
  have hreturn : ∀ line, lengthValue? (line ++ ['\r']) = lengthValue? line :=
    lengthValue?_append_blank (List.forall_mem_singleton.mpr rfl)
  have hbytes : ∀ part : Bytes, lengthValue? (Text.ofUtf8Lossy (part ++ [0x0D])) =
      lengthValue? (Text.ofUtf8Lossy part) := by
    intro part
    rw [Text.ofUtf8Lossy_append_of_ascii (List.forall_mem_singleton.mpr (by decide))]
    exact hreturn _
  rw [contentLengthHint_eq_of_lines, Text.filterMap_lines lengthValue?_nil hreturn,
    Text.splitOn_ofUtf8Lossy, ← List.map_drop, List.filterMap_map, seenLengths, filterMap_headerLines]
  exact congrArg (fun values => (values.map Text.readSize?).getLast?.join)
    (filterMap_blankLine hend (fun part => lengthValue? (Text.ofUtf8Lossy part)) lengthValue?_nil hbytes)

/-! ### What parsing takes from the lines -/

def isContinuedBy : List Text → Bool
  | [] => false
  | line :: _ => !Text.isBlankText line && isContinuation line

theorem isContinuedBy_cons (line : Text) (lines : List Text) :
    isContinuedBy (line :: lines) = (!Text.isBlankText line && isContinuation line) := rfl

/-- The lengths in the lines up to a blank one, with `none` for a value that is no number. A line that
continues another one is no field, and a value that is continued is no number. -/
def keptLengths : List Text → List (Option Nat)
  | [] => []
  | line :: lines =>
    if Text.isBlankText line then []
    else if isContinuation line then keptLengths lines
    else
      match lengthValue? line with
      | none => keptLengths lines
      | some value => (if isContinuedBy lines then none else Text.readSize? value) :: keptLengths lines

def openLength? (done : List OpenField) : Option Nat :=
  Headers.contentLength? (done.reverse.map OpenField.close)

def endsWithLength : List OpenField → Bool
  | [] => false
  | field :: _ => decide (Text.SameName field.1 contentLengthName)

theorem openLength?_cons (field : OpenField) (done : List OpenField) :
    openLength? (field :: done) =
      if Text.SameName field.1 contentLengthName then Text.readSize? field.close.2
      else openLength? done := by
  have hreverse : ∀ fields : List OpenField,
      (fields.reverse.map OpenField.close).reverse = fields.map OpenField.close := by
    intro fields
    rw [List.map_reverse, List.reverse_reverse]
  simp only [openLength?, Headers.contentLength?, Headers.last?, Headers.first?, Entries.find?,
    hreverse, List.map_cons, List.find?_cons]
  by_cases hname : Text.SameName field.1 contentLengthName
  · have hclose : decide (Text.SameName field.close.1 contentLengthName) = true := by
      exact decide_eq_true hname
    rw [hclose, if_pos hname]
    rfl
  · have hclose : decide (Text.SameName field.close.1 contentLengthName) = false := by
      exact decide_eq_false hname
    rw [hclose, if_neg hname]

/-- The space between two pieces is not part of a number. -/
theorem readSize?_close_eq_none {name piece next : Text} {pieces : List Text} :
    Text.readSize? (OpenField.close (name, next :: piece :: pieces)).2 = none := by
  have hspace : ∀ parts : List Text, 2 ≤ parts.length → ' ' ∈ [' '].intercalate parts := by
    intro parts hparts
    match parts with
    | first :: second :: rest =>
      rw [List.intercalate_cons_cons]
      simp
  have hmem : ' ' ∈ (OpenField.close (name, next :: piece :: pieces)).2 :=
    hspace _ (by simp)
  cases hsize : Text.readSize? (OpenField.close (name, next :: piece :: pieces)).2 with
  | none => rfl
  | some n =>
    exact absurd (Text.isDigit_or_eq_plus_of_readSize? hsize ' ' hmem) (by decide)

/-- The fields so far count only if the lines bring no length, and the last one of them only if the
lines do not continue it. -/
theorem contentLength?_of_readFieldsOnto {done : List OpenField} {lines : List Text}
    {headers : Headers} (hpieces : ∀ field ∈ done, field.2 ≠ [])
    (h : readFieldsOnto done lines = .ok headers) :
    headers.contentLength? = (keptLengths lines).getLast?.getD
      (if isContinuedBy lines && endsWithLength done then none else openLength? done) := by
  induction h using readFieldsOnto_induction with
  | nil done h hheaders =>
    rw [hheaders]
    rfl
  | blank done line lines h hblank hheaders =>
    simp only [keptLengths, isContinuedBy_cons, hblank, ↓reduceIte, Bool.not_true, Bool.false_and,
      List.getLast?_nil, Option.getD_none, Bool.false_eq_true]
    rw [hheaders]
    rfl
  | continuation name pieces done line lines h hrest hblank hcontinuation ih =>
    -- the line goes to the last field, whose value is a number no longer
    rw [List.forall_mem_cons] at hpieces
    obtain ⟨piece, rest, rfl⟩ := List.exists_cons_of_ne_nil hpieces.1
    have hopen := ih (List.forall_mem_cons.mpr ⟨List.cons_ne_nil _ _, hpieces.2⟩)
    simp only [endsWithLength, openLength?_cons, readSize?_close_eq_none] at hopen ⊢
    simp only [keptLengths, isContinuedBy_cons, hblank, hcontinuation, Bool.false_eq_true,
      ↓reduceIte]
    rw [hopen]
    by_cases hname : Text.SameName name contentLengthName <;> simp [hname]
  | field done line lines name value h hrest hblank hcontinuation hfield ih =>
    have hopen := ih (List.forall_mem_cons.mpr ⟨List.cons_ne_nil _ _, hpieces⟩)
    simp only [endsWithLength, openLength?_cons] at hopen
    simp only [keptLengths, isContinuedBy_cons, hblank, hcontinuation,
      lengthValue?_of_readField? hfield, Bool.false_eq_true, ↓reduceIte]
    rw [hopen]
    by_cases hname : Text.SameName name contentLengthName
    · simp [hname, OpenField.close, List.getLast?_cons]
    · simp [hname]

theorem readFields_of_readHead {head : Bytes} {request : Method × Text × HttpVersion}
    {headers : Headers} (h : Request.readHead head = .ok (request, headers)) :
    readFields (headerLines head) = .ok headers :=
  (Request.readHead_eq_ok_iff.mp h).2.2

theorem contentLength?_eq {head : Bytes} {request : Method × Text × HttpVersion} {headers : Headers}
    (h : Request.readHead head = .ok (request, headers)) :
    headers.contentLength? = (keptLengths (headerLines head)).getLast?.join := by
  have hread := readFields_of_readHead h
  rw [readFields] at hread
  rw [contentLength?_of_readFieldsOnto (by simp) hread]
  have hopen : openLength? [] = none := rfl
  simp only [endsWithLength, Bool.and_false, Bool.false_eq_true, ↓reduceIte, hopen]
  cases (keptLengths (headerLines head)).getLast? <;> rfl

/-! ### Where the two agree -/

/-- The number taken from the bytes of the head is the one that parsing finds in the headers. -/
def LengthsAgree (head : Bytes) (headers : Headers) : Prop :=
  ∀ n, contentLengthHint head = some n ↔
    ∃ value, headers.last? contentLengthName = some value ∧ Text.readSize? value = some n

/-- A line of ASCII characters that is a field of its own. -/
def IsPlainLine (line : Text) : Prop :=
  ¬Text.isBlankText line ∧ ¬isContinuation line ∧ ∀ c ∈ line, c.toNat < 0x80

instance (line : Text) : Decidable (IsPlainLine line) :=
  decidable_of_iff
    (¬Text.isBlankText line ∧ ¬isContinuation line ∧ line.all fun c => c.toNat < 0x80)
    (by simp [IsPlainLine])

theorem lengthsAgree_iff {head : Bytes} {headers : Headers} :
    LengthsAgree head headers ↔ contentLengthHint head = headers.contentLength? := by
  have hvalue : ∀ n, headers.contentLength? = some n ↔
      ∃ value, headers.last? contentLengthName = some value ∧ Text.readSize? value = some n := by
    intro n
    rw [Headers.contentLength?, Option.bind_eq_some_iff]
  constructor
  · intro h
    apply Option.ext
    intro n
    rw [h n, hvalue n]
  · intro h n
    rw [h, hvalue n]

theorem asUtf8_of_ascii (h : ∀ c ∈ line, c.toNat < 0x80) : asUtf8 line = line := by
  have hbytes : ∀ b ∈ Text.toLatin1 line, b.toNat < 0x80 := by
    intro b hb
    obtain ⟨c, hc, rfl⟩ := List.mem_map.mp hb
    rw [Text.toNat_toUInt8 (Nat.le_trans (Nat.le_of_lt (h c hc)) (by decide))]
    exact h c hc
  rw [asUtf8, Text.ofUtf8Lossy_of_ascii hbytes]
  exact Text.ofLatin1_toLatin1 fun c hc => Nat.le_trans (Nat.le_of_lt (h c hc)) (by decide)

theorem seenLengths_of_plain (h : ∀ line ∈ lines, IsPlainLine line) :
    seenLengths lines = keptLengths lines := by
  induction lines with
  | nil => rfl
  | cons line lines ih =>
    rw [List.forall_mem_cons] at h
    obtain ⟨⟨hblank, hcontinuation, hascii⟩, hlines⟩ := h
    have hnext : isContinuedBy lines = false := by
      cases lines with
      | nil => rfl
      | cons next rest =>
        have hplain := (hlines next List.mem_cons_self).2.1
        simp [isContinuedBy_cons, hplain]
    have hseen := ih hlines
    rw [seenLengths] at hseen ⊢
    cases hvalue : lengthValue? line with
    | none => simp [keptLengths, hblank, hcontinuation, asUtf8_of_ascii hascii, hvalue, hseen]
    | some value =>
      simp [keptLengths, hblank, hcontinuation, asUtf8_of_ascii hascii, hvalue, hseen, hnext]

/-- What the connection waits for and what parsing finds agree exactly when the last length seen in the
lines as they stand is the last one kept from them. On plain lines that is so. -/
theorem lengthsAgree_iff_seen_eq_kept {raw : Bytes} {e : HeadEnd}
    {request : Method × Text × HttpVersion} {headers : Headers} (hend : findHeadEnd raw = some e)
    (hread : Request.readHead (raw.take e.headLength) = .ok (request, headers)) :
    (LengthsAgree (raw.take e.bodyStart) headers ↔
      (seenLengths (headerLines (raw.take e.headLength))).getLast?.join =
        (keptLengths (headerLines (raw.take e.headLength))).getLast?.join) ∧
      ((∀ line ∈ headerLines (raw.take e.headLength), IsPlainLine line) →
        LengthsAgree (raw.take e.bodyStart) headers) := by
  have hagree : LengthsAgree (raw.take e.bodyStart) headers ↔
      (seenLengths (headerLines (raw.take e.headLength))).getLast?.join =
        (keptLengths (headerLines (raw.take e.headLength))).getLast?.join := by
    rw [lengthsAgree_iff, contentLengthHint_eq hend, contentLength?_eq hread]
  refine ⟨hagree, fun hplain => ?_⟩
  rw [hagree, seenLengths_of_plain hplain]

theorem lengthsAgree_of_one_plain_field :
    LengthsAgree (Text.toLatin1 "POST / HTTP/1.1\r\nContent-Length: 3\r\n\r\n".toList)
      [(contentLengthName, "3".toList)] := by
  have hend : findHeadEnd
      (Text.toLatin1 "POST / HTTP/1.1\r\nContent-Length: 3\r\n\r\nabc".toList) = some ⟨34, 38⟩ := by
    decide
  have hread : Request.readHead (Text.toLatin1 "POST / HTTP/1.1\r\nContent-Length: 3".toList) =
      .ok ((.post, ['/'], .http11), [(contentLengthName, "3".toList)]) := by decide
  exact (lengthsAgree_iff_seen_eq_kept hend hread).2 (by decide)

/-- The connection waits for five bytes, and parsing refuses the value `5 6`. -/
theorem not_lengthsAgree_of_continued_value :
    ∃ raw e request headers,
      raw = Text.toLatin1 "GET / HTTP/1.1\r\nContent-Length: 5\r\n 6\r\n\r\n".toList ∧
      findHeadEnd raw = some e ∧ Request.readHead (raw.take e.headLength) = .ok (request, headers) ∧
      contentLengthHint (raw.take e.bodyStart) = some 5 ∧
      headers.last? contentLengthName = some "5 6".toList ∧ Text.readSize? "5 6".toList = none ∧
      ¬LengthsAgree (raw.take e.bodyStart) headers := by
  refine ⟨_, ⟨37, 41⟩, (.get, ['/'], .http11), [(contentLengthName, "5 6".toList)], rfl, by decide,
    by decide, by decide, by decide, by decide, fun h => ?_⟩
  obtain ⟨value, hvalue, hsize⟩ := (h 5).mp (by decide)
  have hlast : Headers.last? [(contentLengthName, "5 6".toList)] contentLengthName =
      some "5 6".toList := by decide
  rw [hlast] at hvalue
  obtain rfl := Option.some.inj hvalue
  exact absurd hsize (by decide)

end HttpEcho
