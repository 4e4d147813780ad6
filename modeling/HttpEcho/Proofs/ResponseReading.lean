import HttpEcho.Proofs.Rendering
import HttpEcho.Response

/-!
# Responses read back

A client cuts a response at its first blank line, the head at its line endings and each header line at
its first colon and space. It finds the status line, the headers and the body that were sent, if no name
holds a colon and no header a line ending.
-/

namespace HttpEcho

/-! ### What a client does -/

/-- What stands before and after the first blank line, where only CR LF ends a line. -/
def cutBlankLine? : Bytes → Option (Bytes × Bytes)
  | 0x0D :: 0x0A :: 0x0D :: 0x0A :: rest => some ([], rest)
  | [] => none
  | b :: rest => (cutBlankLine? rest).map fun parts => (b :: parts.1, parts.2)

/-- The parts between two CR LF, before the first and after the last. -/
def splitCrlf : Text → List Text
  | '\r' :: '\n' :: rest => [] :: splitCrlf rest
  | [] => [[]]
  | c :: rest => (splitCrlf rest).modifyHead (c :: ·)

/-- The status line and the headers of a head. -/
def readResponseHead? (head : Bytes) : Option (Text × Headers) :=
  (Text.ofUtf8 head).toOption.bind fun t =>
    ((splitCrlf t).drop 1).mapM (Text.cutAt? [':', ' ']) |>.map fun fields =>
      ((splitCrlf t).headD [], fields)

/-- Status line, headers and body of a response. -/
def readResponse? (bytes : Bytes) : Option (Text × Headers × Bytes) :=
  (cutBlankLine? bytes).bind fun parts =>
    (readResponseHead? parts.1).map fun head => (head.1, head.2, parts.2)

/-! ### What is sent -/

namespace Response

def statusLine (s : Status) : Text := "HTTP/1.0 ".toList ++ s.text

def fieldText (field : Text × Text) : Text := field.1 ++ ':' :: ' ' :: field.2

/-- A head without its blank line. -/
def joinHead (s : Status) (fields : Headers) : Text := joinLines (statusLine s) (fields.map fieldText)

def sentFields (r : Response) : Headers :=
  (r.headers.filter fun field => !decide (Text.SameName field.1 contentLengthName)) ++
    [(contentLengthName, Text.ofNat r.body.length)]

theorem flatMap_fieldLine (first : Text) (fields : Headers) :
    first ++ crlf ++ fields.flatMap fieldLine = joinLines first (fields.map fieldText) ++ crlf := by
  have hline : ∀ field, fieldLine field = fieldText field ++ crlf := by
    intro field
    simp [fieldLine, fieldText]
  have hlines := flatMap_lines first (fields.map fieldText)
  rw [List.flatMap_cons, List.flatMap_map] at hlines
  rw [funext hline]
  exact hlines

theorem headText_eq (r : Response) :
    r.headText = joinHead r.status r.sentFields ++ crlf ++ crlf := by
  calc r.headText = statusLine r.status ++ crlf ++ r.sentFields.flatMap fieldLine ++ crlf := by
        unfold headText sentFields statusLine
        rw [List.flatMap_append, List.flatMap_singleton]
        simp only [List.append_assoc]
    _ = joinHead r.status r.sentFields ++ crlf ++ crlf := by
        rw [flatMap_fieldLine, joinHead]

theorem toBytes_eq (r : Response) :
    r.toBytes = Text.utf8 (joinHead r.status r.sentFields) ++ 0x0D :: 0x0A :: 0x0D :: 0x0A :: r.body := by
  rw [toBytes, headText_eq, Text.utf8_append, Text.utf8_append, List.append_assoc, List.append_assoc]
  rfl

end Response

/-! ### Text on one line -/

/-- Neither a carriage return nor a line feed. -/
def OneLine (t : Text) : Prop := ∀ c ∈ t, c ≠ '\r' ∧ c ≠ '\n'

instance (t : Text) : Decidable (OneLine t) :=
  decidable_of_iff (t.all fun c => c ≠ '\r' ∧ c ≠ '\n') (by simp [OneLine])

namespace OneLine

variable {a b : Text}

@[simp]
theorem nil : OneLine [] := List.forall_mem_nil _

@[simp]
theorem append_iff : OneLine (a ++ b) ↔ OneLine a ∧ OneLine b := List.forall_mem_append

@[simp]
theorem cons_iff {c : Char} : OneLine (c :: a) ↔ (c ≠ '\r' ∧ c ≠ '\n') ∧ OneLine a :=
  List.forall_mem_cons

theorem of_isDigit (h : ∀ c ∈ a, c.isDigit) : OneLine a := by
  intro c hc
  constructor
  · rintro rfl
    exact absurd (h _ hc) (by decide)
  · rintro rfl
    exact absurd (h _ hc) (by decide)

theorem ofNat (n : Nat) : OneLine (Text.ofNat n) := of_isDigit fun _ => Text.isDigit_of_mem_ofNat

theorem return_notMem_utf8 (h : OneLine a) : 0x0D ∉ Text.utf8 a := fun hmem =>
  (h _ (Text.mem_of_mem_utf8 (by decide) hmem)).1 rfl

theorem newline_notMem_utf8 (h : OneLine a) : 0x0A ∉ Text.utf8 a := fun hmem =>
  (h _ (Text.mem_of_mem_utf8 (by decide) hmem)).2 rfl

end OneLine

/-- A name without a colon, and with its value on one line. -/
structure IsSendable (field : Text × Text) : Prop where
  colon_notMem : ':' ∉ field.1
  oneLine_name : OneLine field.1
  oneLine_value : OneLine field.2

instance (field : Text × Text) : Decidable (IsSendable field) :=
  decidable_of_iff (':' ∉ field.1 ∧ OneLine field.1 ∧ OneLine field.2)
    ⟨fun h => ⟨h.1, h.2.1, h.2.2⟩, fun h => ⟨h.1, h.2, h.3⟩⟩

theorem isSendable_of_name {name value : Text} (hname : ':' ∉ name ∧ OneLine name)
    (hvalue : OneLine value) : IsSendable (name, value) :=
  ⟨hname.1, hname.2, hvalue⟩

/-! ### Reading back -/

theorem cutBlankLine?_of_unbroken {head : Bytes} (hhead : Unbroken head) (rest : Bytes) :
    cutBlankLine? (head ++ 0x0D :: 0x0A :: 0x0D :: 0x0A :: rest) = some (head, rest) := by
  induction head with
  | nil => rfl
  | cons b head ih =>
    obtain ⟨-, hrest⟩ := hhead
    rw [List.cons_append, cutBlankLine?, ih hrest, Option.map_some]
    -- a blank line at `b` would have a line feed behind it that belongs to the head
    intro tail hb htail
    cases head with
    | nil => cases htail
    | cons x head =>
      obtain ⟨hx, hafter⟩ := List.cons.inj htail
      obtain ⟨c, line, rfl, hreturn, -⟩ := hrest.1 hx
      exact hreturn (List.cons.inj hafter).1

theorem splitCrlf_append {line : Text} (hline : OneLine line) (rest : Text) :
    splitCrlf (line ++ '\r' :: '\n' :: rest) = line :: splitCrlf rest := by
  induction line with
  | nil => rfl
  | cons c line ih =>
    obtain ⟨hc, hline⟩ := List.forall_mem_cons.mp hline
    rw [List.cons_append, splitCrlf, ih hline, List.modifyHead_cons]
    exact fun _ hreturn _ => hc.1 hreturn

theorem splitCrlf_of_oneLine {line : Text} (hline : OneLine line) : splitCrlf line = [line] := by
  induction line with
  | nil => rfl
  | cons c line ih =>
    obtain ⟨hc, hline⟩ := List.forall_mem_cons.mp hline
    rw [splitCrlf, ih hline, List.modifyHead_cons]
    exact fun _ hreturn _ => hc.1 hreturn

theorem splitCrlf_joinLines {first : Text} {lines : List Text}
    (hlines : ∀ line ∈ first :: lines, OneLine line) :
    splitCrlf (joinLines first lines) = first :: lines := by
  induction lines generalizing first with
  | nil =>
    rw [joinLines, List.flatMap_nil, List.append_nil]
    exact splitCrlf_of_oneLine (hlines first List.mem_cons_self)
  | cons line lines ih =>
    rw [List.forall_mem_cons] at hlines
    have hcut : joinLines first (line :: lines) = first ++ '\r' :: '\n' :: joinLines line lines := by
      simp [joinLines]
    rw [hcut, splitCrlf_append hlines.1, ih hlines.2]

theorem cutAt?_fieldText {field : Text × Text} (hcolon : ':' ∉ field.1) :
    Text.cutAt? [':', ' '] (Response.fieldText field) = some field := by
  have hline : Response.fieldText field = field.1 ++ [':', ' '] ++ field.2 := by
    simp [Response.fieldText]
  rw [hline]
  exact Text.cutAt?_append_of_notMem hcolon field.2

namespace Response

variable {s : Status} {fields : Headers}

theorem oneLine_statusLine (s : Status) : OneLine (statusLine s) := by cases s <;> decide

theorem oneLine_fieldText {field : Text × Text} (h : IsSendable field) :
    OneLine (fieldText field) := by
  simp [fieldText, h.oneLine_name, h.oneLine_value]

theorem oneLine_of_mem_lines (hfields : ∀ field ∈ fields, IsSendable field) :
    ∀ line ∈ statusLine s :: fields.map fieldText, OneLine line := by
  rw [List.forall_mem_cons, List.forall_mem_map]
  exact ⟨oneLine_statusLine s, fun field hfield => oneLine_fieldText (hfields field hfield)⟩

theorem utf8_joinLines (first : Text) (lines : List Text) :
    Text.utf8 (joinLines first lines) =
      Text.utf8 first ++ (lines.map Text.utf8).flatMap fun line => 0x0D :: 0x0A :: line := by
  rw [joinLines, Text.utf8_append, List.flatMap_map, Text.utf8, Text.utf8, List.flatMap_assoc]
  rfl

theorem unbroken_joinHead (hfields : ∀ field ∈ fields, IsSendable field) :
    Unbroken (Text.utf8 (joinHead s fields)) := by
  rw [joinHead, utf8_joinLines]
  apply unbroken_lines (oneLine_statusLine s).newline_notMem_utf8
  intro bytes hbytes
  obtain ⟨line, hline, rfl⟩ := List.mem_map.mp hbytes
  obtain ⟨field, hfield, rfl⟩ := List.mem_map.mp hline
  have honeLine := oneLine_fieldText (hfields field hfield)
  refine ⟨honeLine.newline_notMem_utf8, ?_⟩
  obtain ⟨b, tail, hcons⟩ : ∃ b tail, Text.utf8 (fieldText field) = b :: tail := by
    apply List.exists_cons_of_ne_nil
    rw [ne_eq, Text.utf8_eq_nil_iff]
    exact List.append_ne_nil_of_right_ne_nil _ (List.cons_ne_nil _ _)
  refine ⟨b, tail, hcons, ?_⟩
  rintro rfl
  exact honeLine.return_notMem_utf8 (hcons ▸ List.mem_cons_self)

/-- A response falls apart into its head and its body. -/
theorem cutBlankLine?_toBytes {r : Response} (hfields : ∀ field ∈ r.sentFields, IsSendable field) :
    cutBlankLine? r.toBytes = some (Text.utf8 (joinHead r.status r.sentFields), r.body) := by
  rw [toBytes_eq]
  exact cutBlankLine?_of_unbroken (unbroken_joinHead hfields) r.body

/-- The head falls apart into the status line and the headers. -/
theorem readResponseHead?_joinHead (hfields : ∀ field ∈ fields, IsSendable field) :
    readResponseHead? (Text.utf8 (joinHead s fields)) = some (statusLine s, fields) := by
  have hcut : (fields.map fieldText).mapM (Text.cutAt? [':', ' ']) = some fields := by
    induction fields with
    | nil => rfl
    | cons field fields ih =>
      rw [List.forall_mem_cons] at hfields
      rw [List.map_cons, List.mapM_cons, cutAt?_fieldText hfields.1.colon_notMem, ih hfields.2]
      rfl
  rw [readResponseHead?, Text.ofUtf8_utf8]
  simp only [Except.toOption, Option.bind_some]
  rw [joinHead, splitCrlf_joinLines (oneLine_of_mem_lines hfields), List.drop_one, List.tail_cons, hcut]
  rfl

theorem isSendable_of_mem_sentFields {r : Response} (hfields : ∀ field ∈ r.headers, IsSendable field) :
    ∀ field ∈ r.sentFields, IsSendable field := by
  rw [sentFields, List.forall_mem_append, List.forall_mem_singleton]
  constructor
  · exact fun field hfield => hfields field (List.mem_filter.mp hfield).1
  · exact isSendable_of_name (by decide) (.ofNat r.body.length)

theorem filter_contentLength_sentFields (r : Response) :
    r.sentFields.filter (fun field => Text.SameName field.1 contentLengthName) =
      [(contentLengthName, Text.ofNat r.body.length)] := by
  have hothers : (r.headers.filter fun field => !decide (Text.SameName field.1 contentLengthName)).filter
      (fun field => Text.SameName field.1 contentLengthName) = [] := by
    rw [List.filter_eq_nil_iff]
    intro field hfield hlength
    simpa [of_decide_eq_true hlength] using (List.mem_filter.mp hfield).2
  rw [sentFields, List.filter_append, hothers, List.nil_append]
  exact List.filter_cons_of_pos (decide_eq_true (Text.SameName.refl _))

end Response

/-- A client reads the status line, the headers in order but for any length that was set by hand, the length
of the body as the last header and only there, and the body. -/
theorem readResponse?_toBytes {r : Response} (hfields : ∀ field ∈ r.headers, IsSendable field) :
    let fields := (r.headers.filter fun field => !decide (Text.SameName field.1 contentLengthName)) ++
      [(contentLengthName, Text.ofNat r.body.length)]
    readResponse? r.toBytes = some (Response.statusLine r.status, fields, r.body) ∧
      fields.filter (fun field => Text.SameName field.1 contentLengthName) =
        [(contentLengthName, Text.ofNat r.body.length)] := by
  intro fields
  have hsent := Response.isSendable_of_mem_sentFields hfields
  have hread : readResponse? r.toBytes =
      some (Response.statusLine r.status, r.sentFields, r.body) := by
    rw [readResponse?, Response.cutBlankLine?_toBytes hsent, Option.bind_some,
      Response.readResponseHead?_joinHead hsent, Option.map_some]
  exact ⟨hread, r.filter_contentLength_sentFields⟩

/-- A name and a value may be empty, a value may look like another header, and a body like a blank line. -/
def oddResponse : Response where
  status := .notImplemented
  headers := [("content-LENGTH".toList, "999".toList), ([], "a: b".toList), ("É".toList, [])]
  body := Text.utf8 "é\r\n\r\n".toList

theorem readResponse?_oddResponse :
    (∀ field ∈ oddResponse.headers, IsSendable field) ∧
      readResponse? oddResponse.toBytes =
        some ("HTTP/1.0 501 Not Implemented".toList,
          [([], "a: b".toList), ("É".toList, []), (contentLengthName, ['6'])], oddResponse.body) := by
  have hfields : ∀ field ∈ oddResponse.headers, IsSendable field := by decide
  exact ⟨hfields, (readResponse?_toBytes hfields).1⟩

end HttpEcho
