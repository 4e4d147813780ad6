import HttpEcho.Proofs.Lines
import HttpEcho.Proofs.Numeral
import HttpEcho.Proofs.Parsing
import HttpEcho.Proofs.Words

/-!
# Parsing undoes rendering

A request that is written line by line is read back as it was, with any body and any bytes behind it.
No line of the head is empty, so the head does not end early, and each header line is taken for what it
was written as: a field or the continuation of one.
-/

namespace HttpEcho

/-! ### What is written -/

/-- A part of a line: ISO-8859-1 text without white space around it. -/
structure IsPiece (t : Text) : Prop where
  trim_eq : Text.trim t = t
  newline_notMem : '\n' ∉ t
  le_ff : ∀ c ∈ t, c.toNat ≤ 0xFF

instance (t : Text) : Decidable (IsPiece t) :=
  decidable_of_iff (Text.trim t = t ∧ '\n' ∉ t ∧ t.all fun c => c.toNat ≤ 0xFF)
    ⟨fun h => ⟨h.1, h.2.1, by simpa using h.2.2⟩, fun h => ⟨h.1, h.2, by simpa using h.3⟩⟩

/-- A further line of a value, which some spaces or tabs mark as such. -/
structure Continuation where
  indent : Text
  piece : Text
  indent_ne_nil : indent ≠ []
  mem_indent : ∀ c ∈ indent, c = ' ' ∨ c = '\t'
  piece_ne_nil : piece ≠ []
  isPiece : IsPiece piece

/-- A header with the first piece of its value, which may be empty, and the lines that continue it. -/
structure WrittenField where
  name : Text
  value : Text
  continuations : List Continuation
  name_ne_nil : name ≠ []
  colon_notMem : ':' ∉ name
  isPiece_name : IsPiece name
  isPiece_value : IsPiece value

def Continuation.line (c : Continuation) : Text := c.indent ++ c.piece

namespace WrittenField

def firstLine (f : WrittenField) : Text := f.name ++ ':' :: ' ' :: f.value

def lines (f : WrittenField) : List Text := f.firstLine :: f.continuations.map Continuation.line

def header (f : WrittenField) : Text × Text :=
  (f.name, [' '].intercalate (f.value :: f.continuations.map Continuation.piece))

end WrittenField

def requestLine (m : Method) (target : Text) (v : HttpVersion) : Text :=
  m.text ++ ' ' :: (target ++ ' ' :: v.text)

/-- Every line ends with CR LF, and the blank line is one more ending. -/
def renderHead (m : Method) (target : Text) (v : HttpVersion) (fields : List WrittenField) : Bytes :=
  Text.toLatin1 ((requestLine m target v :: fields.flatMap WrittenField.lines).flatMap
    (fun line => line ++ ['\r', '\n']) ++ ['\r', '\n'])

structure IsTarget (t : Text) : Prop where
  ne_nil : t ≠ []
  not_isBlank : ∀ c ∈ t, ¬Text.isBlank c
  le_ff : ∀ c ∈ t, c.toNat ≤ 0xFF

instance (t : Text) : Decidable (IsTarget t) :=
  decidable_of_iff
    (t ≠ [] ∧ (t.all fun c => !Text.isBlank c) ∧ t.all fun c => c.toNat ≤ 0xFF)
    ⟨fun h => ⟨h.1, by simpa using h.2.1, by simpa using h.2.2⟩,
      fun h => ⟨h.1, by simpa using h.2, by simpa using h.3⟩⟩

/-- The headers announce the body, if there is one. -/
def Announces (headers : Headers) : Option Bytes → Prop
  | none => ∀ header ∈ headers, ¬Text.SameName header.1 contentLengthName
  | some body =>
    body.length < 2 ^ 63 ∧ headers.last? contentLengthName = some (Text.ofNat body.length)

/-! ### The lines of a head -/

/-- A line that can be told from a blank one and from its own ending. -/
structure IsHeadLine (line : Text) : Prop where
  newline_notMem : '\n' ∉ line
  le_ff : ∀ c ∈ line, c.toNat ≤ 0xFF
  ne_nil : line ≠ []
  head?_ne : line.head? ≠ some '\r'
  getLast?_ne : line.getLast? ≠ some '\r'

def joinLines (first : Text) (lines : List Text) : Text :=
  first ++ lines.flatMap fun line => '\r' :: '\n' :: line

theorem flatMap_lines (first : Text) (lines : List Text) :
    (first :: lines).flatMap (fun line => line ++ ['\r', '\n']) =
      joinLines first lines ++ ['\r', '\n'] := by
  induction lines generalizing first with
  | nil => simp [joinLines]
  | cons line lines ih =>
    rw [List.flatMap_cons, ih line]
    simp [joinLines]

theorem toLatin1_joinLines (first : Text) (lines : List Text) :
    Text.toLatin1 (joinLines first lines) =
      Text.toLatin1 first ++ (lines.map Text.toLatin1).flatMap fun line => 0x0D :: 0x0A :: line := by
  rw [joinLines, Text.toLatin1, List.map_append, List.map_flatMap, List.flatMap_map]
  rfl

theorem headLines_joinLines {first : Text} {lines : List Text}
    (hlines : ∀ line ∈ first :: lines, IsHeadLine line) :
    Request.headLines (joinLines first lines) = first :: lines := by
  have hkept : ∀ line, IsHeadLine line → Text.dropEndWhile (· = '\r') line = line := by
    intro line hline
    apply Text.dropEndWhile_of_getLast?
    intro c hc hreturn
    apply hline.getLast?_ne
    rw [hc, of_decide_eq_true hreturn]
  induction lines generalizing first with
  | nil =>
    rw [List.forall_mem_singleton] at hlines
    rw [joinLines, List.flatMap_nil, List.append_nil, headLines_of_notMem hlines.newline_notMem,
      hkept first hlines]
  | cons line lines ih =>
    rw [List.forall_mem_cons] at hlines
    obtain ⟨hfirst, hlines⟩ := hlines
    have hcut : joinLines first (line :: lines) =
        (first ++ ['\r']) ++ '\n' :: joinLines line lines := by
      simp [joinLines]
    have hfree : '\n' ∉ first ++ ['\r'] := by
      rw [List.mem_append, not_or]
      exact ⟨hfirst.newline_notMem, by decide⟩
    have hrest := ih hlines
    rw [Request.headLines] at hrest ⊢
    rw [hcut, List.splitOn_append_cons_self_of_not_mem hfree, List.map_cons, hrest,
      Text.dropEndWhile_append_of_forall first (by simp), hkept first hfirst]

theorem unbroken_joinLines {first : Text} {lines : List Text}
    (hlines : ∀ line ∈ first :: lines, IsHeadLine line) :
    Unbroken (Text.toLatin1 (joinLines first lines)) := by
  have hfree : ∀ line, IsHeadLine line → 0x0A ∉ Text.toLatin1 line := by
    intro line hline hmem
    obtain ⟨c, hc, hbyte⟩ := List.mem_map.mp hmem
    have hchar : c = '\n' := by
      apply Char.toNat_inj.mp
      rw [← Text.toNat_toUInt8 (hline.le_ff c hc), hbyte]
      rfl
    exact hline.newline_notMem (hchar ▸ hc)
  rw [List.forall_mem_cons] at hlines
  obtain ⟨hfirst, hlines⟩ := hlines
  rw [toLatin1_joinLines]
  apply unbroken_lines (hfree first hfirst)
  intro bytes hbytes
  obtain ⟨line, hmem, rfl⟩ := List.mem_map.mp hbytes
  have hline := hlines line hmem
  refine ⟨hfree line hline, ?_⟩
  obtain ⟨c, rest, rfl⟩ := List.exists_cons_of_ne_nil hline.ne_nil
  refine ⟨c.toUInt8, Text.toLatin1 rest, rfl, ?_⟩
  intro hbyte
  apply hline.head?_ne
  have hchar : c = '\r' := by
    apply Char.toNat_inj.mp
    rw [← Text.toNat_toUInt8 (hline.le_ff c List.mem_cons_self), hbyte]
    rfl
  rw [List.head?_cons, hchar]

theorem ofLatin1_toLatin1_joinLines {first : Text} {lines : List Text}
    (hlines : ∀ line ∈ first :: lines, IsHeadLine line) :
    Text.ofLatin1 (Text.toLatin1 (joinLines first lines)) = joinLines first lines := by
  rw [List.forall_mem_cons] at hlines
  apply Text.ofLatin1_toLatin1
  intro c hc
  rcases List.mem_append.mp hc with hc | hc
  · exact hlines.1.le_ff c hc
  · obtain ⟨line, hline, hc⟩ := List.mem_flatMap.mp hc
    rcases List.mem_cons.mp hc with rfl | hc
    · decide
    rcases List.mem_cons.mp hc with rfl | hc
    · decide
    exact (hlines.2 line hline).le_ff c hc

theorem toLatin1_renderLines (first : Text) (lines : List Text) (rest : Bytes) :
    Text.toLatin1 ((first :: lines).flatMap (fun line => line ++ ['\r', '\n']) ++ ['\r', '\n']) ++
        rest =
      Text.toLatin1 (joinLines first lines) ++ 0x0D :: 0x0A :: 0x0D :: 0x0A :: rest := by
  rw [flatMap_lines, Text.toLatin1, Text.toLatin1, List.map_append, List.map_append,
    List.append_assoc, List.append_assoc]
  rfl

theorem splitHead_renderLines {first : Text} {lines : List Text} {rest : Bytes}
    (hlines : ∀ line ∈ first :: lines, IsHeadLine line) :
    Request.splitHead (Text.toLatin1 ((first :: lines).flatMap (fun line => line ++ ['\r', '\n']) ++
      ['\r', '\n']) ++ rest) = .ok (Text.toLatin1 (joinLines first lines), rest) := by
  have hend := findHeadEnd_of_unbroken (unbroken_joinLines hlines) rest
  rw [toLatin1_renderLines, Request.splitHead_of_findHeadEnd hend]
  have hdrop : (Text.toLatin1 (joinLines first lines) ++ 0x0D :: 0x0A :: 0x0D :: 0x0A :: rest).drop
      ((Text.toLatin1 (joinLines first lines)).length + 4) = rest := by
    rw [← List.drop_drop, List.drop_left]
    rfl
  rw [hdrop, List.take_left]

/-! ### The request line -/

theorem isTarget_method (m : Method) : IsTarget m.text := by
  cases m <;> decide

theorem isTarget_version (v : HttpVersion) : IsTarget v.text := by
  cases v <;> decide

theorem readLine_requestLine (m : Method) {target : Text} (htarget : IsTarget target)
    (v : HttpVersion) : Request.readLine (requestLine m target v) = .ok (m, target, v) := by
  have hm := isTarget_method m
  have hv := isTarget_version v
  have hwords : Text.words (requestLine m target v) = [m.text, target, v.text] := by
    rw [requestLine, words_append_cons (by decide), words_append_cons (by decide),
      words_of_word hm.ne_nil hm.not_isBlank, words_of_word htarget.ne_nil htarget.not_isBlank,
      words_of_word hv.ne_nil hv.not_isBlank]
    rfl
  simp only [Request.readLine, hwords, HttpVersion.ofText?_text, Method.ofText?_text]

theorem isHeadLine_requestLine (m : Method) {target : Text} (htarget : IsTarget target)
    (v : HttpVersion) : IsHeadLine (requestLine m target v) := by
  have hm := isTarget_method m
  have hv := isTarget_version v
  have hnewline : ∀ word, IsTarget word → '\n' ∉ word := by
    intro word hword hmem
    exact hword.not_isBlank '\n' hmem (by decide)
  obtain ⟨c, rest, hfirst⟩ := List.exists_cons_of_ne_nil hm.ne_nil
  have hc : ¬Text.isBlank c := hm.not_isBlank c (hfirst ▸ List.mem_cons_self)
  refine ⟨?_, ?_, ?_, ?_, ?_⟩
  · simp [requestLine, hnewline _ hm, hnewline _ htarget, hnewline _ hv]
  · intro c hc
    simp only [requestLine, List.mem_append, List.mem_cons] at hc
    rcases hc with hc | rfl | hc | rfl | hc
    · exact hm.le_ff c hc
    · decide
    · exact htarget.le_ff c hc
    · decide
    · exact hv.le_ff c hc
  · simp [requestLine]
  · rw [requestLine, hfirst, List.cons_append, List.head?_cons]
    rintro ⟨rfl⟩
    exact hc (by decide)
  · have hline : requestLine m target v = (m.text ++ ' ' :: (target ++ [' '])) ++ v.text := by
      simp [requestLine]
    rw [hline, List.getLast?_append_of_ne_nil _ hv.ne_nil]
    intro hreturn
    exact hv.not_isBlank '\r' (List.mem_of_getLast? hreturn) (by decide)

/-! ### Header lines -/

/-- What stands in front of the first colon of a header line. -/
structure IsName (name : Text) : Prop where
  isPiece : IsPiece name
  ne_nil : name ≠ []
  colon_notMem : ':' ∉ name

namespace IsName

variable {name : Text}

theorem readField?_append (h : IsName name) (rest : Text) :
    readField? (name ++ ':' :: rest) = some (name, Text.trim rest) := by
  have hblank : ¬Text.isBlankText name := by
    apply Text.not_isBlankText_of_trim_ne_nil
    rw [h.isPiece.trim_eq]
    exact h.ne_nil
  simp only [readField?, Text.cut?_append h.colon_notMem, if_neg hblank, h.isPiece.trim_eq]

theorem not_isBlank_head (h : IsName name) {rest : Text} {c : Char}
    (hc : (name ++ ':' :: rest).head? = some c) : ¬Text.isBlank c := by
  obtain ⟨x, tail, hname⟩ := List.exists_cons_of_ne_nil h.ne_nil
  rw [hname, List.cons_append, List.head?_cons] at hc
  apply Text.not_isBlank_of_head? h.isPiece.trim_eq
  rw [hname, List.head?_cons, hc]

theorem not_isContinuation_append (h : IsName name) (rest : Text) :
    ¬isContinuation (name ++ ':' :: rest) := by
  intro hline
  simp only [isContinuation, Bool.or_eq_true, decide_eq_true_eq] at hline
  rcases hline with hc | hc
  · exact h.not_isBlank_head hc (by decide)
  · exact h.not_isBlank_head hc (by decide)

theorem isHeadLine_append (h : IsName name) {value : Text} (hnewline : '\n' ∉ value)
    (hff : ∀ c ∈ value, c.toNat ≤ 0xFF) (hlast : value.getLast? ≠ some '\r') :
    IsHeadLine (name ++ ':' :: ' ' :: value) := by
  refine ⟨?_, ?_, ?_, ?_, ?_⟩
  · simp [h.isPiece.newline_notMem, hnewline]
  · intro c hc
    simp only [List.mem_append, List.mem_cons] at hc
    rcases hc with hc | rfl | rfl | hc
    · exact h.isPiece.le_ff c hc
    · decide
    · decide
    · exact hff c hc
  · simp
  · intro hreturn
    exact h.not_isBlank_head hreturn (by decide)
  · intro hreturn
    apply hlast
    rw [List.getLast?_append, List.getLast?_cons, List.getLast?_cons] at hreturn
    cases hvalue : value.getLast? with
    | none => rw [hvalue] at hreturn; cases hreturn
    | some c => rw [hvalue] at hreturn; exact hreturn

end IsName

theorem not_isBlankText_of_colon (name rest : Text) : ¬Text.isBlankText (name ++ ':' :: rest) := by
  rw [Text.isBlankText_iff]
  intro h
  have hcolon : ':' ∈ name ++ ':' :: rest := List.mem_append_right name List.mem_cons_self
  exact absurd (h ':' hcolon) (by decide)

/-- A header on a line of its own becomes a field with one piece. -/
theorem readFieldsOnto_header {name : Text} (hname : IsName name) (value : Text)
    (done : List OpenField) (lines : List Text) :
    readFieldsOnto done ((name ++ ':' :: ' ' :: value) :: lines) =
      readFieldsOnto ((name, [Text.trim value]) :: done) lines := by
  have hvalue : Text.trim (' ' :: value) = Text.trim value := by
    rw [← List.singleton_append, Text.trim_blank_append (List.forall_mem_singleton.mpr rfl)]
  rw [readFieldsOnto.eq_def]
  simp only [not_isBlankText_of_colon, hname.not_isContinuation_append, hname.readField?_append,
    hvalue, Bool.false_eq_true, ↓reduceIte]

theorem Continuation.trim_line (c : Continuation) : Text.trim c.line = c.piece := by
  have hindent : ∀ x ∈ c.indent, Text.isBlank x := by
    intro x hx
    rcases c.mem_indent x hx with rfl | rfl <;> decide
  rw [Continuation.line, Text.trim_blank_append hindent, c.isPiece.trim_eq]

theorem Continuation.isContinuation_line (c : Continuation) : isContinuation c.line := by
  obtain ⟨x, rest, hindent⟩ := List.exists_cons_of_ne_nil c.indent_ne_nil
  have hx := c.mem_indent x (hindent ▸ List.mem_cons_self)
  rw [isContinuation, Continuation.line, hindent, List.cons_append, List.head?_cons]
  rcases hx with rfl | rfl <;> decide

theorem Continuation.not_isBlankText_line (c : Continuation) : ¬Text.isBlankText c.line := by
  apply Text.not_isBlankText_of_trim_ne_nil
  rw [c.trim_line]
  exact c.piece_ne_nil

theorem readFieldsOnto_continuation (c : Continuation) (name : Text) (pieces : List Text)
    (done : List OpenField) (lines : List Text) :
    readFieldsOnto ((name, pieces) :: done) (c.line :: lines) =
      readFieldsOnto ((name, c.piece :: pieces) :: done) lines := by
  rw [readFieldsOnto, if_neg c.not_isBlankText_line, if_pos c.isContinuation_line, c.trim_line]

theorem readFieldsOnto_continuations (continuations : List Continuation) (name : Text)
    (pieces : List Text) (done : List OpenField) (lines : List Text) :
    readFieldsOnto ((name, pieces) :: done) (continuations.map Continuation.line ++ lines) =
      readFieldsOnto ((name, (continuations.map Continuation.piece).reverse ++ pieces) :: done)
        lines := by
  induction continuations generalizing pieces with
  | nil => rfl
  | cons c continuations ih =>
    rw [List.map_cons, List.cons_append, readFieldsOnto_continuation, ih, List.map_cons,
      List.reverse_cons, List.append_assoc]
    rfl

namespace WrittenField

theorem isName (f : WrittenField) : IsName f.name :=
  ⟨f.isPiece_name, f.name_ne_nil, f.colon_notMem⟩

def opened (f : WrittenField) : OpenField :=
  (f.name, (f.continuations.map Continuation.piece).reverse ++ [f.value])

theorem close_opened (f : WrittenField) : f.opened.close = f.header := by
  rw [OpenField.close, opened, header, List.reverse_append, List.reverse_reverse]
  rfl

theorem readFieldsOnto_lines (f : WrittenField) (done : List OpenField) (lines : List Text) :
    readFieldsOnto done (f.lines ++ lines) = readFieldsOnto (f.opened :: done) lines := by
  rw [WrittenField.lines, List.cons_append, firstLine, readFieldsOnto_header f.isName,
    f.isPiece_value.trim_eq]
  exact readFieldsOnto_continuations f.continuations f.name [f.value] done lines

theorem readFieldsOnto_flatMap_lines (fields : List WrittenField) (done : List OpenField) :
    readFieldsOnto done (fields.flatMap WrittenField.lines) =
      .ok (done.reverse.map OpenField.close ++ fields.map header) := by
  induction fields generalizing done with
  | nil => rw [List.flatMap_nil, readFieldsOnto, List.map_nil, List.append_nil]
  | cons f fields ih =>
    rw [List.flatMap_cons, f.readFieldsOnto_lines, ih, List.reverse_cons, List.map_append,
      List.map_singleton, f.close_opened, List.append_assoc, List.map_cons, List.singleton_append]

theorem isHeadLine_firstLine (f : WrittenField) : IsHeadLine f.firstLine := by
  apply f.isName.isHeadLine_append f.isPiece_value.newline_notMem f.isPiece_value.le_ff
  intro hreturn
  exact Text.not_isBlank_of_getLast? f.isPiece_value.trim_eq hreturn (by decide)

end WrittenField

theorem Continuation.isHeadLine_line (c : Continuation) : IsHeadLine c.line := by
  obtain ⟨x, rest, hindent⟩ := List.exists_cons_of_ne_nil c.indent_ne_nil
  refine ⟨?_, ?_, ?_, ?_, ?_⟩
  · rw [Continuation.line, List.mem_append, not_or]
    refine ⟨?_, c.isPiece.newline_notMem⟩
    intro hmem
    rcases c.mem_indent '\n' hmem with h | h <;> exact absurd h (by decide)
  · intro x hx
    rcases List.mem_append.mp hx with hx | hx
    · rcases c.mem_indent x hx with rfl | rfl <;> decide
    · exact c.isPiece.le_ff x hx
  · exact List.append_ne_nil_of_left_ne_nil c.indent_ne_nil c.piece
  · rw [Continuation.line, hindent, List.cons_append, List.head?_cons]
    rcases c.mem_indent x (hindent ▸ List.mem_cons_self) with rfl | rfl <;> decide
  · rw [Continuation.line, List.getLast?_append_of_ne_nil c.indent c.piece_ne_nil]
    intro hreturn
    exact Text.not_isBlank_of_getLast? c.isPiece.trim_eq hreturn (by decide)

theorem isHeadLine_of_mem (m : Method) {target : Text} (htarget : IsTarget target) (v : HttpVersion)
    (fields : List WrittenField) :
    ∀ line ∈ requestLine m target v :: fields.flatMap WrittenField.lines, IsHeadLine line := by
  rw [List.forall_mem_cons]
  refine ⟨isHeadLine_requestLine m htarget v, ?_⟩
  intro line hline
  obtain ⟨f, -, hmem⟩ := List.mem_flatMap.mp hline
  rcases List.mem_cons.mp hmem with rfl | hmem
  · exact f.isHeadLine_firstLine
  · obtain ⟨c, -, rfl⟩ := List.mem_map.mp hmem
    exact c.isHeadLine_line

/-! ### The whole request -/

/-- The head made of a request line and lines that are read as headers is read as these. -/
theorem readHead_of_readFields {m : Method} {target : Text} {v : HttpVersion} {lines : List Text}
    {headers : Headers} (htarget : IsTarget target)
    (hlines : ∀ line ∈ requestLine m target v :: lines, IsHeadLine line)
    (hfields : readFields lines = .ok headers) :
    Request.readHead (Text.toLatin1 (joinLines (requestLine m target v) lines)) =
      .ok ((m, target, v), headers) := by
  have hhead := headLines_joinLines hlines
  rw [Request.readHead_eq_ok_iff, Request.firstLine, ofLatin1_toLatin1_joinLines hlines, hhead]
  refine ⟨?_, readLine_requestLine m htarget v, hfields⟩
  rw [Text.isBlankText_iff]
  intro h
  obtain ⟨c, rest, htext⟩ := List.exists_cons_of_ne_nil htarget.ne_nil
  have hmem : c ∈ joinLines (requestLine m target v) lines := by
    simp [joinLines, requestLine, htext]
  exact htarget.not_isBlank c (htext ▸ List.mem_cons_self) (h c hmem)

theorem readHead_joinLines (m : Method) {target : Text} (htarget : IsTarget target) (v : HttpVersion)
    (fields : List WrittenField) :
    Request.readHead (Text.toLatin1
        (joinLines (requestLine m target v) (fields.flatMap WrittenField.lines))) =
      .ok ((m, target, v), fields.map WrittenField.header) :=
  readHead_of_readFields htarget (isHeadLine_of_mem m htarget v fields)
    (WrittenField.readFieldsOnto_flatMap_lines fields [])

theorem readBody_append {headers : Headers} {body : Option Bytes} (h : Announces headers body)
    (rest : Bytes) : Request.readBody headers (body.getD [] ++ rest) = .ok body := by
  cases body with
  | none => simp only [Request.readBody, Headers.last?_eq_none_iff.mpr h]
  | some body =>
    obtain ⟨hlength, hlast⟩ := h
    have hsize : Text.readSize? (Text.ofNat body.length) = some body.length := by
      apply Text.readSize?_ofNat
      rw [Text.maxSize]
      omega
    have henough : ¬((body ++ rest).length < body.length) := by
      rw [List.length_append]
      omega
    simp only [Request.readBody, hlast, hsize, Option.getD_some, if_neg henough, List.take_left]

/-- The head is all that was written, its blank line included. -/
theorem findHeadEnd_renderHead (m : Method) {target : Text} (htarget : IsTarget target)
    (v : HttpVersion) (fields : List WrittenField) :
    ∃ e, findHeadEnd (renderHead m target v fields) = some e ∧
      e.bodyStart = (renderHead m target v fields).length := by
  have hend := findHeadEnd_of_unbroken (unbroken_joinLines (isHeadLine_of_mem m htarget v fields)) []
  rw [← toLatin1_renderLines, List.append_nil, ← renderHead] at hend
  refine ⟨_, hend, ?_⟩
  have hbytes := congrArg List.length (toLatin1_renderLines (requestLine m target v)
    (fields.flatMap WrittenField.lines) [])
  rw [List.append_nil, ← renderHead, List.length_append] at hbytes
  exact hbytes.symm

/-- A head that announces no body is a whole request. -/
theorem parse_head {m : Method} {target : Text} {v : HttpVersion} {fields : List WrittenField}
    (htarget : IsTarget target) (hbody : Announces (fields.map WrittenField.header) none) :
    Request.parse (renderHead m target v fields) =
      .ok ⟨m, target, v, fields.map WrittenField.header, none⟩ := by
  have hsplit : Request.splitHead (renderHead m target v fields ++ []) = _ :=
    splitHead_renderLines (isHeadLine_of_mem m htarget v fields)
  rw [List.append_nil] at hsplit
  exact Request.parse_eq_ok_iff.mpr
    ⟨_, _, hsplit, readHead_joinLines m htarget v fields, readBody_append hbody []⟩

/-- Reading gives back what was rendered, and nothing behind the body counts. -/
theorem parse_renderHead (m : Method) {target : Text} (htarget : IsTarget target) (v : HttpVersion)
    (fields : List WrittenField) {body : Option Bytes}
    (hbody : Announces (fields.map WrittenField.header) body) (trailing : Bytes) :
    Request.parse (renderHead m target v fields ++ (body.getD [] ++ trailing)) =
      .ok { method := m, target := target, version := v, headers := fields.map WrittenField.header,
            body := body } := by
  rw [Request.parse_eq_ok_iff]
  have hlines := isHeadLine_of_mem m htarget v fields
  refine ⟨_, body.getD [] ++ trailing, splitHead_renderLines hlines, ?_, ?_⟩
  · exact readHead_joinLines m htarget v fields
  · exact readBody_append hbody trailing

/-- The header of a body that holds a blank line, with a second piece in a line of its own. -/
def exampleFields : List WrittenField :=
  [{ name := "X-Words".toList
     value := "one".toList
     continuations :=
      [{ indent := " \t".toList
         piece := "two: three".toList
         indent_ne_nil := by decide
         mem_indent := by simp
         piece_ne_nil := by decide
         isPiece := by decide }]
     name_ne_nil := by decide
     colon_notMem := by decide
     isPiece_name := by decide
     isPiece_value := by decide },
   { name := "content-length".toList
     value := "4".toList
     continuations := []
     name_ne_nil := by decide
     colon_notMem := by decide
     isPiece_name := by decide
     isPiece_value := by decide }]

theorem parse_renderHead_body_with_blank_line :
    Request.parse (Text.toLatin1 ("PUT /a?b=\u00FF HTTP/1.0\r\nX-Words: one\r\n \ttwo: three\r\n" ++
      "content-length: 4\r\n\r\n\r\n\r\nrest").toList) =
        .ok { method := .put, target := "/a?b=\u00FF".toList, version := .http10
              headers := [("X-Words".toList, "one two: three".toList), ("content-length".toList, ['4'])]
              body := some [0x0D, 0x0A, 0x0D, 0x0A] } := by
  have htarget : IsTarget "/a?b=\u00FF".toList := by decide
  have hbody : Announces (exampleFields.map WrittenField.header) (some [0x0D, 0x0A, 0x0D, 0x0A]) :=
    ⟨by decide, by decide⟩
  exact parse_renderHead .put htarget .http10 exampleFields hbody (Text.toLatin1 "rest".toList)

end HttpEcho
