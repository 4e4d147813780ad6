import HttpEcho.Proofs.AnnouncedLength
import HttpEcho.Proofs.Rendering

/-!
# Writing a parsed request back

A parsed request that is written with each header on one line and parsed again is the same request, but
for white space around a value, which is lost. A name never has any. A value has some exactly if its
own line leaves it empty and the next line continues it: the space that joins the pieces comes first.
-/

namespace HttpEcho

variable {name value line : Text} {lines : List Text} {done : List OpenField} {headers : Headers}

/-! ### What is written back -/

def headerLine (header : Text × Text) : Text := header.1 ++ ':' :: ' ' :: header.2

def Request.render (r : Request) : Bytes :=
  Text.toLatin1 ((r.line :: r.headers.map headerLine).flatMap (fun line => line ++ ['\r', '\n']) ++
    ['\r', '\n']) ++ r.body.getD []

def Headers.trimValues (headers : Headers) : Headers :=
  headers.map fun header => (header.1, Text.trim header.2)

/-- Before the first blank line, a field without a value is continued by the line after it. -/
def ContinuesEmptyValue (lines : List Text) : Prop :=
  ∃ line next, [line, next] <:+: lines.takeWhile (fun line => !Text.isBlankText line) ∧
    ¬isContinuation line ∧ (readField? line).map Prod.snd = some [] ∧ isContinuation next

/-! ### The headers that parsing gives -/

@[simp]
theorem close_singleton (name value : Text) : OpenField.close (name, [value]) = (name, value) := by
  rw [OpenField.close, List.reverse_singleton, List.intercalate_singleton]

theorem close_cons {piece : Text} {pieces : List Text} (hpieces : pieces ≠ []) :
    OpenField.close (name, piece :: pieces) =
      (name, (OpenField.close (name, pieces)).2 ++ ' ' :: piece) := by
  have hjoin : ∀ parts : List Text, parts ≠ [] →
      [' '].intercalate (parts ++ [piece]) = [' '].intercalate parts ++ ' ' :: piece := by
    intro parts hparts
    induction parts with
    | nil => exact absurd rfl hparts
    | cons first parts ih =>
      by_cases hnil : parts = []
      · rw [hnil, List.singleton_append, List.intercalate_cons_cons, List.intercalate_singleton,
          List.intercalate_singleton, List.append_assoc, List.singleton_append]
      · rw [List.cons_append, List.intercalate_cons_of_ne_nil (by simp), ih hnil,
          List.intercalate_cons_of_ne_nil hnil, List.append_assoc, List.append_assoc,
          List.append_assoc]
  rw [OpenField.close, OpenField.close, List.reverse_cons,
    hjoin pieces.reverse (List.reverse_ne_nil_iff.mpr hpieces)]

/-- What holds of each field as its own line gives it, and is kept when another line continues it, holds
of all headers. -/
theorem forall_of_readFieldsOnto {P : Text × Text → Prop}
    (hfield : ∀ line ∈ lines, ∀ field, readField? line = some field → P field)
    (hcontinue : ∀ line ∈ lines, ¬Text.isBlankText line → ∀ name value, P (name, value) →
      P (name, value ++ ' ' :: Text.trim line))
    (hdone : ∀ field ∈ done, field.2 ≠ [] ∧ P field.close)
    (h : readFieldsOnto done lines = .ok headers) : ∀ header ∈ headers, P header := by
  have hclosed : ∀ fields : List OpenField, (∀ field ∈ fields, field.2 ≠ [] ∧ P field.close) →
      ∀ header ∈ fields.reverse.map OpenField.close, P header := by
    intro fields hfields header hheader
    obtain ⟨field, hmem, rfl⟩ := List.mem_map.mp hheader
    exact (hfields field (List.mem_reverse.mp hmem)).2
  induction h using readFieldsOnto_induction with
  | nil done h hheaders => exact hheaders ▸ hclosed done hdone
  | blank done line lines h hblank hheaders => exact hheaders ▸ hclosed done hdone
  | continuation name pieces done line lines h hrest hblank hcontinuation ih =>
    rw [List.forall_mem_cons] at hfield hcontinue hdone
    obtain ⟨⟨hpieces, hopen⟩, hdone⟩ := hdone
    refine ih hfield.2 hcontinue.2 (List.forall_mem_cons.mpr ⟨⟨List.cons_ne_nil _ _, ?_⟩, hdone⟩)
    rw [close_cons hpieces]
    exact hcontinue.1 hblank _ _ hopen
  | field done line lines name value h hrest hblank hcontinuation hread ih =>
    rw [List.forall_mem_cons] at hfield hcontinue
    refine ih hfield.2 hcontinue.2 (List.forall_mem_cons.mpr ⟨⟨List.cons_ne_nil _ _, ?_⟩, hdone⟩)
    rw [close_singleton]
    exact hfield.1 (name, value) hread

/-- The form of the headers that parsing gives. Nothing is said of how a value begins. -/
structure IsHeader (header : Text × Text) : Prop where
  isName : IsName header.1
  newline_notMem : '\n' ∉ header.2
  le_ff : ∀ c ∈ header.2, c.toNat ≤ 0xFF
  not_isBlank_getLast? : ∀ c, header.2.getLast? = some c → ¬Text.isBlank c

theorem readField?_eq_some {field : Text × Text} (h : readField? line = some field) :
    ∃ before after, line = before ++ ':' :: after ∧ ':' ∉ before ∧ ¬Text.isBlankText before ∧
      field = (Text.trim before, Text.trim after) := by
  unfold readField? at h
  split at h
  · cases h
  · next before after hcut =>
    split at h
    · cases h
    · next hblank =>
      obtain ⟨hline, hcolon⟩ := Text.cut?_eq_some hcut
      exact ⟨before, after, hline, hcolon, hblank, (Option.some.inj h).symm⟩

theorem isHeader_of_readField? {field : Text × Text} (hnewline : '\n' ∉ line)
    (hff : ∀ c ∈ line, c.toNat ≤ 0xFF) (h : readField? line = some field) : IsHeader field := by
  obtain ⟨before, after, rfl, hcolon, hblank, rfl⟩ := readField?_eq_some h
  have hbefore : ∀ c ∈ Text.trim before, c ∈ before ++ ':' :: after := fun c hc =>
    List.mem_append_left _ (Text.mem_of_mem_trim hc)
  have hafter : ∀ c ∈ Text.trim after, c ∈ before ++ ':' :: after := fun c hc =>
    List.mem_append_right _ (List.mem_cons_of_mem _ (Text.mem_of_mem_trim hc))
  refine ⟨⟨⟨Text.trim_trim before, ?_, ?_⟩, ?_, ?_⟩, ?_, ?_, ?_⟩
  · exact fun hc => hnewline (hbefore _ hc)
  · exact fun c hc => hff c (hbefore c hc)
  · exact fun hnil => hblank (Text.trim_eq_nil_iff.mp hnil)
  · exact fun hc => hcolon (Text.mem_of_mem_trim hc)
  · exact fun hc => hnewline (hafter _ hc)
  · exact fun c hc => hff c (hafter c hc)
  · exact fun c hc => Text.not_isBlank_of_getLast?_trim hc

theorem trim_ne_nil (hblank : ¬Text.isBlankText line) : Text.trim line ≠ [] := by
  rwa [ne_eq, Text.trim_eq_nil_iff]

theorem getLast?_append_piece (hblank : ¬Text.isBlankText line) (value : Text) :
    (value ++ ' ' :: Text.trim line).getLast? = (Text.trim line).getLast? := by
  rw [List.append_cons, List.getLast?_append_of_ne_nil _ (trim_ne_nil hblank)]

theorem IsHeader.append_piece (h : IsHeader (name, value)) (hnewline : '\n' ∉ line)
    (hff : ∀ c ∈ line, c.toNat ≤ 0xFF) (hblank : ¬Text.isBlankText line) :
    IsHeader (name, value ++ ' ' :: Text.trim line) := by
  refine ⟨h.isName, ?_, ?_, ?_⟩
  · simp only [List.mem_append, List.mem_cons, not_or]
    exact ⟨h.newline_notMem, by decide, fun hc => hnewline (Text.mem_of_mem_trim hc)⟩
  · intro c hc
    simp only [List.mem_append, List.mem_cons] at hc
    rcases hc with hc | rfl | hc
    · exact h.le_ff c hc
    · decide
    · exact hff c (Text.mem_of_mem_trim hc)
  · intro c hc
    rw [getLast?_append_piece hblank] at hc
    exact Text.not_isBlank_of_getLast?_trim hc

theorem isHeader_of_readFields
    (hlines : ∀ line ∈ lines, '\n' ∉ line ∧ ∀ c ∈ line, c.toNat ≤ 0xFF)
    (h : readFields lines = .ok headers) : ∀ header ∈ headers, IsHeader header := by
  refine forall_of_readFieldsOnto ?_ ?_ (by simp) h
  · intro line hline field hread
    exact isHeader_of_readField? (hlines line hline).1 (hlines line hline).2 hread
  · intro line hline hblank name value hheader
    exact hheader.append_piece (hlines line hline).1 (hlines line hline).2 hblank

/-! ### Which values are trimmed -/

/-- A continued value is trimmed if it was before and had a character to begin with. -/
theorem trim_append_piece_iff (hlast : ∀ c, value.getLast? = some c → ¬Text.isBlank c)
    (hblank : ¬Text.isBlankText line) :
    Text.trim (value ++ ' ' :: Text.trim line) = value ++ ' ' :: Text.trim line ↔
      Text.trim value = value ∧ value ≠ [] := by
  rw [Text.trim_eq_self_iff, Text.trim_eq_self_iff, getLast?_append_piece hblank]
  have hpiece : ∀ c, (Text.trim line).getLast? = some c → ¬Text.isBlank c := fun c =>
    Text.not_isBlank_of_getLast?_trim
  cases value with
  | nil =>
    constructor
    · exact fun h => absurd (by decide) (h.1 ' ' rfl)
    · exact fun h => absurd rfl h.2
  | cons c rest =>
    simp only [List.cons_append, List.head?_cons, ne_eq, reduceCtorEq, not_false_eq_true, and_true]
    exact ⟨fun h => ⟨h.1, hlast⟩, fun h => ⟨h.1, hpiece⟩⟩

theorem isContinuedBy_iff : isContinuedBy lines ↔
    ∃ next, [next] <+: lines.takeWhile (fun line => !Text.isBlankText line) ∧
      isContinuation next := by
  cases lines with
  | nil => simp [isContinuedBy]
  | cons line lines => by_cases hblank : Text.isBlankText line <;> simp [isContinuedBy_cons, hblank]

theorem not_continuesEmptyValue_nil : ¬ContinuesEmptyValue [] := by
  simp [ContinuesEmptyValue]

theorem not_continuesEmptyValue_of_blank (hblank : Text.isBlankText line) :
    ¬ContinuesEmptyValue (line :: lines) := by
  simp [ContinuesEmptyValue, hblank]

theorem continuesEmptyValue_cons (hblank : ¬Text.isBlankText line) :
    ContinuesEmptyValue (line :: lines) ↔
      (¬isContinuation line ∧ (readField? line).map Prod.snd = some [] ∧ isContinuedBy lines) ∨
        ContinuesEmptyValue lines := by
  have hshown : (line :: lines).takeWhile (fun line => !Text.isBlankText line) =
      line :: lines.takeWhile (fun line => !Text.isBlankText line) :=
    List.takeWhile_cons_of_pos (by simpa using hblank)
  simp only [ContinuesEmptyValue, hshown, isContinuedBy_iff, List.infix_cons_iff,
    List.cons_prefix_cons]
  constructor
  · rintro ⟨first, next, ⟨rfl, hnext⟩ | hinfix, hfirst, hvalue, hcontinuation⟩
    · exact Or.inl ⟨hfirst, hvalue, next, hnext, hcontinuation⟩
    · exact Or.inr ⟨first, next, hinfix, hfirst, hvalue, hcontinuation⟩
  · rintro (⟨hfirst, hvalue, next, hnext, hcontinuation⟩ | ⟨first, next, hinfix, hrest⟩)
    · exact ⟨line, next, Or.inl ⟨rfl, hnext⟩, hfirst, hvalue, hcontinuation⟩
    · exact ⟨first, next, Or.inr hinfix, hrest⟩

/-- A field so far: it has a piece, and its value does not end with white space. -/
structure IsClosable (field : OpenField) : Prop where
  ne_nil : field.2 ≠ []
  not_isBlank_getLast? : ∀ c, field.close.2.getLast? = some c → ¬Text.isBlank c

theorem IsClosable.continue {pieces : List Text} (h : IsClosable (name, pieces))
    (hblank : ¬Text.isBlankText line) : IsClosable (name, Text.trim line :: pieces) := by
  refine ⟨List.cons_ne_nil _ _, ?_⟩
  intro c hc
  rw [close_cons h.ne_nil, getLast?_append_piece hblank] at hc
  exact Text.not_isBlank_of_getLast?_trim hc

theorem isClosable_of_readField? (hread : readField? line = some (name, value)) :
    IsClosable (name, [value]) := by
  obtain ⟨before, after, -, -, -, hfield⟩ := readField?_eq_some hread
  obtain ⟨rfl, rfl⟩ := Prod.mk.inj hfield
  refine ⟨List.cons_ne_nil _ _, ?_⟩
  intro c hc
  rw [close_singleton] at hc
  exact Text.not_isBlank_of_getLast?_trim hc

theorem trim_of_readField? (hread : readField? line = some (name, value)) :
    Text.trim value = value := by
  obtain ⟨before, after, -, -, -, hfield⟩ := readField?_eq_some hread
  rw [(Prod.mk.inj hfield).2, Text.trim_trim]

/-- The last field so far has no value yet. -/
def endsEmpty : List OpenField → Bool
  | [] => false
  | field :: _ => field.close.2 = []

theorem endsEmpty_cons (field : OpenField) (done : List OpenField) :
    endsEmpty (field :: done) ↔ field.close.2 = [] :=
  decide_eq_true_iff

theorem forall_trimmed_iff_of_readFieldsOnto (hdone : ∀ field ∈ done, IsClosable field)
    (h : readFieldsOnto done lines = .ok headers) :
    (∀ header ∈ headers, Text.trim header.2 = header.2) ↔
      (∀ field ∈ done, Text.trim field.close.2 = field.close.2) ∧
        ¬(endsEmpty done ∧ isContinuedBy lines) ∧ ¬ContinuesEmptyValue lines := by
  have hclosed : ∀ fields : List OpenField,
      (∀ header ∈ fields.reverse.map OpenField.close, Text.trim header.2 = header.2) ↔
        ∀ field ∈ fields, Text.trim field.close.2 = field.close.2 := by
    intro fields
    simp only [List.forall_mem_map, List.mem_reverse]
  induction h using readFieldsOnto_induction with
  | nil done h hheaders =>
    rw [hheaders, hclosed]
    simp [isContinuedBy, not_continuesEmptyValue_nil]
  | blank done line lines h hblank hheaders =>
    rw [hheaders, hclosed]
    simp [isContinuedBy_cons, hblank, not_continuesEmptyValue_of_blank]
  | continuation name pieces done line lines h hrest hblank hcontinuation ih =>
    -- the line is added to the last field, whose value has to be there already
    rw [List.forall_mem_cons] at hdone
    obtain ⟨hopen, hdone⟩ := hdone
    have hvalue := trim_append_piece_iff hopen.not_isBlank_getLast? hblank
    have hlong : ¬endsEmpty ((name, Text.trim line :: pieces) :: done) := by
      simp [endsEmpty_cons, close_cons hopen.ne_nil]
    have hcontinued : isContinuedBy (line :: lines) := by
      simp [isContinuedBy_cons, hblank, hcontinuation]
    have hlines : ContinuesEmptyValue (line :: lines) ↔ ContinuesEmptyValue lines := by
      simp [continuesEmptyValue_cons hblank, hcontinuation]
    refine (ih (List.forall_mem_cons.mpr ⟨hopen.continue hblank, hdone⟩)).trans ?_
    rw [List.forall_mem_cons, List.forall_mem_cons, close_cons hopen.ne_nil, hvalue, hlines,
      endsEmpty_cons (name, pieces)]
    grind
  | field done line lines name value h hrest hblank hcontinuation hread ih =>
    have hcontinued : ¬isContinuedBy (line :: lines) := by
      simp [isContinuedBy_cons, hcontinuation]
    have hlines : ContinuesEmptyValue (line :: lines) ↔
        (value = [] ∧ isContinuedBy lines) ∨ ContinuesEmptyValue lines := by
      simp [continuesEmptyValue_cons hblank, hcontinuation, hread]
    have hvalue := trim_of_readField? hread
    refine (ih (List.forall_mem_cons.mpr ⟨isClosable_of_readField? hread, hdone⟩)).trans ?_
    rw [List.forall_mem_cons, close_singleton, hlines, endsEmpty_cons, close_singleton]
    grind

/-! ### Parsing what was written back -/

theorem line_eq_requestLine (r : Request) : r.line = requestLine r.method r.target r.version := by
  rw [Request.line, requestLine, List.append_assoc, List.cons_append]

theorem isTarget_of_readLine {m : Method} {target : Text} {v : HttpVersion}
    (hff : ∀ c ∈ line, c.toNat ≤ 0xFF) (h : Request.readLine line = .ok (m, target, v)) :
    IsTarget target := by
  have hword : target ∈ Text.words line := by
    rw [Request.readLine_eq_ok_iff.mp h]
    exact List.mem_cons_of_mem _ List.mem_cons_self
  obtain ⟨hpart, hne⟩ := List.mem_filter.mp hword
  refine ⟨of_decide_eq_true hne, ?_, ?_⟩
  · intro c hc
    rw [(mem_of_mem_splitOnP hpart hc).2]
    exact Bool.false_ne_true
  · exact fun c hc => hff c (mem_of_mem_splitOnP hpart hc).1

theorem isTarget_of_parse {raw : Bytes} {r : Request} (h : Request.parse raw = .ok r) :
    IsTarget r.target := by
  obtain ⟨head, rest, -, hhead, -⟩ := Request.parse_eq_ok_iff.mp h
  have hfirst : Request.firstLine head ∈ Request.headLines (Text.ofLatin1 head) := by
    rw [Request.headLines_eq_cons]
    exact List.mem_cons_self
  exact isTarget_of_readLine (Text.of_mem_headLines hfirst).2 (Request.readHead_eq_ok_iff.mp hhead).2.1

theorem readFieldsOnto_headerLines (hheaders : ∀ header ∈ headers, IsHeader header)
    (done : List OpenField) :
    readFieldsOnto done (headers.map headerLine) =
      .ok (done.reverse.map OpenField.close ++ headers.trimValues) := by
  induction headers generalizing done with
  | nil => rw [List.map_nil, readFieldsOnto, Headers.trimValues, List.map_nil, List.append_nil]
  | cons header headers ih =>
    rw [List.forall_mem_cons] at hheaders
    rw [List.map_cons, headerLine, readFieldsOnto_header hheaders.1.isName, ih hheaders.2,
      List.reverse_cons, List.map_append, List.map_singleton, close_singleton, List.append_assoc]
    rfl

theorem isHeadLine_headerLine {header : Text × Text} (h : IsHeader header) :
    IsHeadLine (headerLine header) := by
  apply h.isName.isHeadLine_append h.newline_notMem h.le_ff
  intro hreturn
  exact h.not_isBlank_getLast? _ hreturn (by decide)

theorem last?_trimValues (headers : Headers) (name : Text) :
    headers.trimValues.last? name = (headers.last? name).map Text.trim := by
  rw [Headers.last?, Headers.last?, Headers.first?, Headers.first?, Entries.find?, Entries.find?,
    Headers.trimValues, ← List.map_reverse, List.find?_map, Option.map_map, Option.map_map]
  rfl

theorem trim_of_readSize? {n : Nat} (h : Text.readSize? value = some n) :
    Text.trim value = value := by
  have hmark : ∀ c ∈ value, ¬Text.isBlank c := by
    intro c hc hblank
    rcases Text.isDigit_or_eq_plus_of_readSize? h c hc with hdigit | rfl
    · exact Text.not_isBlank_of_isDigit hdigit hblank
    · exact absurd hblank (by decide)
  rw [Text.trim_eq_self_iff]
  exact ⟨fun c hc => hmark c (List.mem_of_mem_head? hc), fun c hc => hmark c (List.mem_of_getLast? hc)⟩

/-- A length is a number and has no white space, so it stays what it was. -/
theorem readBody_trimValues {rest : Bytes} {body : Option Bytes}
    (h : Request.readBody headers rest = .ok body) :
    Request.readBody headers.trimValues (body.getD []) = .ok body := by
  unfold Request.readBody at h ⊢
  rw [last?_trimValues]
  cases hlast : headers.last? contentLengthName with
  | none =>
    rw [hlast] at h
    exact h
  | some value =>
    cases hsize : Text.readSize? value with
    | none => simp only [hlast, hsize] at h; cases h
    | some n =>
      simp only [hlast, hsize] at h
      split at h
      · cases h
      · next henough =>
        obtain rfl := Except.ok.inj h
        have hlength : (rest.take n).length = n := List.length_take_of_le (Nat.not_lt.mp henough)
        simp only [Option.map_some, trim_of_readSize? hsize, hsize, Option.getD_some, hlength,
          lt_irrefl, ↓reduceIte]
        rw [List.take_take, Nat.min_self]

theorem trimValues_eq_self_iff :
    headers.trimValues = headers ↔ ∀ header ∈ headers, Text.trim header.2 = header.2 := by
  conv_lhs => rhs; rw [← List.map_id headers]
  rw [Headers.trimValues, List.map_inj_left]
  refine forall₂_congr fun header _ => ?_
  rw [Prod.ext_iff]
  exact and_iff_right rfl

theorem splitHead_render {r : Request}
    (hlines : ∀ line ∈ r.line :: r.headers.map headerLine, IsHeadLine line) :
    Request.splitHead r.render =
      .ok (Text.toLatin1 (joinLines r.line (r.headers.map headerLine)), r.body.getD []) :=
  splitHead_renderLines hlines

/-- Parsing what was written back gives the request with its values trimmed. That is the same request
exactly if no line continues a field without a value. -/
theorem parse_render {raw : Bytes} {r : Request} (h : Request.parse raw = .ok r) :
    Request.parse r.render = .ok { r with headers := r.headers.trimValues } ∧
      (∀ header ∈ r.headers, Text.trim header.1 = header.1) ∧
      ((∀ header ∈ r.headers, Text.trim header.2 = header.2) ↔
        ¬ContinuesEmptyValue (headerLines (Request.headBytes raw))) ∧
      (Request.parse r.render = .ok r ↔
        ¬ContinuesEmptyValue (headerLines (Request.headBytes raw))) := by
  obtain ⟨head, rest, hsplit, hhead, hbody⟩ := Request.parse_eq_ok_iff.mp h
  obtain ⟨-, rfl, rfl⟩ := Request.splitHead_eq_ok_iff.mp hsplit
  obtain ⟨-, -, hfields⟩ := Request.readHead_eq_ok_iff.mp hhead
  have hheaders : ∀ header ∈ r.headers, IsHeader header :=
    isHeader_of_readFields (fun _ hmem => Text.of_mem_headLines (List.mem_of_mem_drop hmem)) hfields
  have htarget : IsTarget r.target := isTarget_of_parse h
  have hlines : ∀ line ∈ r.line :: r.headers.map headerLine, IsHeadLine line := by
    rw [List.forall_mem_cons, List.forall_mem_map, line_eq_requestLine]
    exact ⟨isHeadLine_requestLine r.method htarget r.version,
      fun header hheader => isHeadLine_headerLine (hheaders header hheader)⟩
  have hrender : Request.parse r.render = .ok { r with headers := r.headers.trimValues } := by
    rw [Request.parse_eq_ok_iff]
    refine ⟨_, _, splitHead_render hlines, ?_, readBody_trimValues hbody⟩
    rw [line_eq_requestLine] at hlines ⊢
    exact readHead_of_readFields htarget hlines (readFieldsOnto_headerLines hheaders [])
  have htrimmed : (∀ header ∈ r.headers, Text.trim header.2 = header.2) ↔
      ¬ContinuesEmptyValue (headerLines (Request.headBytes raw)) := by
    rw [forall_trimmed_iff_of_readFieldsOnto (by simp) hfields]
    simp [endsEmpty, headerLines]
  refine ⟨hrender, fun header hheader => (hheaders header hheader).isName.isPiece.trim_eq, htrimmed, ?_⟩
  rw [hrender, ← htrimmed, ← trimValues_eq_self_iff, Except.ok.injEq]
  exact ⟨congrArg Request.headers, fun hsame => by rw [hsame]⟩

def foldedRequest : Request where
  method := .get
  target := "/a?b".toList
  version := .http11
  headers := [("X Y".toList, "1 2".toList), (contentLengthName, "+0".toList)]
  body := some []

/-- Line feeds alone, no blank line at the end, a folded value, a name with a blank inside and a length
with a sign. -/
theorem parse_render_foldedRequest :
    Request.parse (Text.toLatin1 " GET  /a?b HTTP/1.1\nX Y :1\n\t2 \nContent-Length: +0".toList) =
        .ok foldedRequest ∧
      Request.parse foldedRequest.render = .ok foldedRequest := by
  have hparse : Request.parse
      (Text.toLatin1 " GET  /a?b HTTP/1.1\nX Y :1\n\t2 \nContent-Length: +0".toList) =
        .ok foldedRequest := by decide
  exact ⟨hparse, (parse_render hparse).1⟩

/-- The value of the header is a space and the text of the second line. -/
theorem parse_render_ne_of_empty_first_line :
    ∃ raw r, raw = Text.toLatin1 "GET / HTTP/1.1\r\nX:\r\n a\r\n\r\n".toList ∧
      Request.parse raw = .ok r ∧ r.headers = [(['X'], " a".toList)] ∧
      ¬(∀ header ∈ r.headers, Text.trim header.2 = header.2) ∧ Request.parse r.render ≠ .ok r := by
  refine ⟨_, ⟨.get, ['/'], .http11, [(['X'], " a".toList)], none⟩, rfl, ?_⟩
  decide

end HttpEcho
