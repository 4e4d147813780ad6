import HttpEcho.Proofs.AnnouncedLength

/-!
# Where the header lines end

The end of a head is found among its bytes, where two line endings of the same kind follow each other. Its
lines are read up to one with nothing but white space, which may come before: two line endings of different
kinds, or some blanks between them, make such a line. The lines from there on are not looked at. So the
headers account for all lines of a head exactly if none of them is blank.
-/

namespace HttpEcho

/-- A line and the lines that continue it. -/
structure LineGroup where
  first : Text
  continuations : List Text
  not_isContinuation_first : ¬isContinuation first
  isContinuation_of_mem : ∀ line ∈ continuations, isContinuation line

namespace LineGroup

def lines (g : LineGroup) : List Text := g.first :: g.continuations

/-- The header of the first line, with the texts of the others behind its value. -/
def header? (g : LineGroup) : Option (Text × Text) :=
  (readField? g.first).map fun field =>
    (field.1, [' '].intercalate (field.2 :: g.continuations.map Text.trim))

end LineGroup

/-- Each line is that of a header or continues the header before it, for all headers in order. -/
def AccountFor (headers : Headers) (lines : List Text) : Prop :=
  ∃ groups : List LineGroup,
    lines = groups.flatMap LineGroup.lines ∧ groups.map LineGroup.header? = headers.map some

variable {headers : Headers} {lines : List Text} {done : List OpenField}

/-! ### The lines that are read -/

namespace LineGroup

/-- A group as it is kept while its lines are read. -/
def openField? (g : LineGroup) : Option OpenField :=
  (readField? g.first).map fun field => (field.1, (field.2 :: g.continuations.map Text.trim).reverse)

theorem header?_eq (g : LineGroup) : g.header? = g.openField?.map OpenField.close := by
  unfold header? openField?
  cases readField? g.first with
  | none => rfl
  | some field => simp [OpenField.close]

def extend (g : LineGroup) (line : Text) (hline : isContinuation line) : LineGroup where
  first := g.first
  continuations := g.continuations ++ [line]
  not_isContinuation_first := g.not_isContinuation_first
  isContinuation_of_mem := by
    rw [List.forall_mem_append, List.forall_mem_singleton]
    exact ⟨g.isContinuation_of_mem, hline⟩

theorem lines_extend (g : LineGroup) {line : Text} (hline : isContinuation line) :
    (g.extend line hline).lines = g.lines ++ [line] := rfl

theorem openField?_extend {g : LineGroup} {name line : Text} {pieces : List Text}
    (h : g.openField? = some (name, pieces)) (hline : isContinuation line) :
    (g.extend line hline).openField? = some (name, Text.trim line :: pieces) := by
  obtain ⟨field, hfirst, hfield⟩ := Option.map_eq_some_iff.mp h
  obtain ⟨rfl, rfl⟩ := Prod.mk.inj hfield
  rw [openField?, extend, hfirst]
  simp

theorem map_header?_reverse {opened : List LineGroup}
    (hopened : opened.map openField? = done.map some) :
    opened.reverse.map header? = (done.reverse.map OpenField.close).map some := by
  calc opened.reverse.map header?
      = (opened.map openField?).reverse.map (Option.map OpenField.close) := by
        rw [← List.map_reverse, List.map_map]
        exact List.map_congr_left fun g _ => g.header?_eq
    _ = (done.reverse.map OpenField.close).map some := by
        rw [hopened, ← List.map_reverse, List.map_map, List.map_map]
        rfl

end LineGroup

/-- The groups that are open when the lines begin grow by the lines up to a blank one. -/
theorem exists_groups_of_readFieldsOnto {opened : List LineGroup}
    (hopened : opened.map LineGroup.openField? = done.map some)
    (h : readFieldsOnto done lines = .ok headers) :
    ∃ groups : List LineGroup, groups.map LineGroup.header? = headers.map some ∧
      groups.flatMap LineGroup.lines = opened.reverse.flatMap LineGroup.lines ++
        lines.takeWhile fun line => !Text.isBlankText line := by
  induction h using readFieldsOnto_induction generalizing opened with
  | nil done h hheaders =>
    refine ⟨opened.reverse, ?_, ?_⟩
    · rw [hheaders, LineGroup.map_header?_reverse hopened]
    · rw [List.takeWhile_nil, List.append_nil]
  | blank done line lines h hblank hheaders =>
    refine ⟨opened.reverse, ?_, ?_⟩
    · rw [hheaders, LineGroup.map_header?_reverse hopened]
    · rw [List.takeWhile_cons_of_neg (by simpa using hblank), List.append_nil]
  | continuation name pieces done line lines h hrest hblank hcontinuation ih =>
    obtain ⟨g, opened, rfl, hg, hopened⟩ := List.map_eq_cons_iff.mp hopened
    have hlonger : (g.extend line hcontinuation :: opened).map LineGroup.openField? =
        ((name, Text.trim line :: pieces) :: done).map some := by
      rw [List.map_cons, LineGroup.openField?_extend hg, hopened, List.map_cons]
    obtain ⟨groups, hgroups, hlines⟩ := ih hlonger
    refine ⟨groups, hgroups, ?_⟩
    rw [hlines, List.takeWhile_cons_of_pos (by simpa using hblank)]
    simp [LineGroup.lines_extend]
  | field done line lines name value h hrest hblank hcontinuation hread ih =>
    let g : LineGroup := ⟨line, [], hcontinuation, List.forall_mem_nil _⟩
    have hg : g.openField? = some (name, [value]) := by
      rw [LineGroup.openField?, hread]
      rfl
    have hmore : (g :: opened).map LineGroup.openField? = ((name, [value]) :: done).map some := by
      rw [List.map_cons, hg, hopened, List.map_cons]
    obtain ⟨groups, hgroups, hlines⟩ := ih hmore
    refine ⟨groups, hgroups, ?_⟩
    rw [hlines, List.takeWhile_cons_of_pos (by simpa using hblank)]
    simp [LineGroup.lines, g]

theorem accountFor_takeWhile (h : readFields lines = .ok headers) :
    AccountFor headers (lines.takeWhile fun line => !Text.isBlankText line) := by
  have hnone : ([] : List LineGroup).map LineGroup.openField? = List.map some [] := rfl
  obtain ⟨groups, hgroups, hlines⟩ := exists_groups_of_readFieldsOnto hnone h
  exact ⟨groups, hlines.symm, hgroups⟩

/-! ### No other lines -/

/-- What a line adds to the value of a header. -/
def addedText (line : Text) : Text :=
  if isContinuation line then Text.trim line else (readField? line).elim [] Prod.snd

/-- Each text counts with one more character, which stands for what joins it to the others. -/
def lengthSum : List Text → Nat
  | [] => 0
  | t :: texts => t.length + 1 + lengthSum texts

theorem lengthSum_append (a b : List Text) : lengthSum (a ++ b) = lengthSum a + lengthSum b := by
  induction a with
  | nil => rw [List.nil_append, lengthSum, Nat.zero_add]
  | cons t a ih =>
    rw [List.cons_append, lengthSum, lengthSum, ih]
    exact (Nat.add_assoc _ _ _).symm

theorem lengthSum_intercalate {parts : List Text} (hparts : parts ≠ []) :
    ([' '].intercalate parts).length + 1 = lengthSum parts := by
  induction parts with
  | nil => exact absurd rfl hparts
  | cons first parts ih =>
    by_cases hnil : parts = []
    · rw [hnil, List.intercalate_singleton]
      rfl
    · rw [List.intercalate_cons_of_ne_nil hnil, lengthSum, ← ih hnil]
      simp only [List.length_append, List.length_singleton]
      omega

theorem LineGroup.lengthSum_addedText {g : LineGroup} {header : Text × Text}
    (h : g.header? = some header) :
    lengthSum (g.lines.map addedText) = header.2.length + 1 := by
  obtain ⟨field, hfirst, rfl⟩ := Option.map_eq_some_iff.mp h
  have hadded : g.lines.map addedText = field.2 :: g.continuations.map Text.trim := by
    rw [lines, List.map_cons, addedText, if_neg g.not_isContinuation_first, hfirst]
    refine congrArg (field.2 :: ·) (List.map_congr_left fun line hline => ?_)
    rw [addedText, if_pos (g.isContinuation_of_mem line hline)]
  rw [hadded, lengthSum_intercalate (List.cons_ne_nil _ _)]

/-- The lines that headers account for make up the lengths of their values. -/
theorem AccountFor.lengthSum_eq (h : AccountFor headers lines) :
    lengthSum (lines.map addedText) = lengthSum (headers.map Prod.snd) := by
  obtain ⟨groups, rfl, hgroups⟩ := h
  induction groups generalizing headers with
  | nil =>
    rw [List.map_nil, eq_comm, List.map_eq_nil_iff] at hgroups
    rw [hgroups]
    rfl
  | cons g groups ih =>
    obtain ⟨header, headers, rfl, hg, hgroups⟩ := List.map_eq_cons_iff.mp hgroups.symm
    rw [List.flatMap_cons, List.map_append, lengthSum_append, ih hgroups.symm,
      LineGroup.lengthSum_addedText hg.symm]
    rfl

/-- Headers that account for some lines do not account for more. -/
theorem AccountFor.eq_of_isPrefix {front : List Text} (hfront : AccountFor headers front)
    (hlines : AccountFor headers lines) (hpre : front <+: lines) : lines = front := by
  obtain ⟨rest, rfl⟩ := hpre
  have hsum := hlines.lengthSum_eq.trans hfront.lengthSum_eq.symm
  rw [List.map_append, lengthSum_append, Nat.add_eq_left] at hsum
  cases rest with
  | nil => exact List.append_nil front
  | cons line rest => simp [lengthSum] at hsum

/-- The headers of a request account for the lines before the first blank one, and so for all lines of the
head exactly if none of them is blank. -/
theorem accountFor_iff_not_blank {raw : Bytes} {e : HeadEnd} {r : Request}
    (hend : findHeadEnd raw = some e) (hparse : Request.parse raw = .ok r) :
    let lines := headerLines (raw.take e.headLength)
    AccountFor r.headers (lines.takeWhile fun line => !Text.isBlankText line) ∧
      (AccountFor r.headers lines ↔ ∀ line ∈ lines, ¬Text.isBlankText line) := by
  intro lines
  obtain ⟨head, rest, hsplit, hhead, -⟩ := Request.parse_eq_ok_iff.mp hparse
  rw [Request.splitHead_of_findHeadEnd hend, Except.ok.injEq, Prod.mk.injEq] at hsplit
  obtain ⟨rfl, -⟩ := hsplit
  have hread : AccountFor r.headers (lines.takeWhile fun line => !Text.isBlankText line) :=
    accountFor_takeWhile (readFields_of_readHead hhead)
  refine ⟨hread, fun hall => ?_, fun hnone => ?_⟩
  · have hkept := hread.eq_of_isPrefix hall (List.takeWhile_prefix _)
    rw [eq_comm, List.takeWhile_eq_self_iff] at hkept
    simpa using hkept
  · have hkept : lines.takeWhile (fun line => !Text.isBlankText line) = lines := by
      rw [List.takeWhile_eq_self_iff]
      simpa using hnone
    exact hkept ▸ hread

/-- Line feeds with and without a carriage return, a continued value and an empty one. -/
theorem accountFor_mixedEndings :
    let raw := Text.toLatin1 "GET / HTTP/1.1\nA: 1\r\n\t2\nB:\n\n".toList
    let headers := [(['A'], "1 2".toList), (['B'], [])]
    findHeadEnd raw = some ⟨26, 28⟩ ∧ Request.parse raw = .ok ⟨.get, ['/'], .http11, headers, none⟩ ∧
      AccountFor headers (headerLines (raw.take 26)) := by
  intro raw headers
  have hend : findHeadEnd raw = some ⟨26, 28⟩ := by decide
  have hparse : Request.parse raw = .ok ⟨.get, ['/'], .http11, headers, none⟩ := by decide
  have hlines : ∀ line ∈ headerLines (raw.take 26), ¬Text.isBlankText line := by decide
  exact ⟨hend, hparse, (accountFor_iff_not_blank hend hparse).2.mpr hlines⟩

/-- A line with a single space ends the headers, and the length behind it is lost together with the body,
although the connection has waited for it. -/
theorem not_accountFor_of_blank_line :
    ∃ raw e r, raw = Text.toLatin1 "POST / HTTP/1.1\r\nA: 1\r\n \r\nContent-Length: 2\r\n\r\nhi".toList ∧
      findHeadEnd raw = some e ∧ Request.parse raw = .ok r ∧
      headerLines (raw.take e.headLength) = ["A: 1".toList, [' '], "Content-Length: 2".toList] ∧
      contentLengthHint (raw.take e.bodyStart) = some 2 ∧ r.headers = [(['A'], ['1'])] ∧ r.body = none ∧
      ¬AccountFor r.headers (headerLines (raw.take e.headLength)) := by
  refine ⟨_, ⟨43, 47⟩, ⟨.post, ['/'], .http11, [(['A'], ['1'])], none⟩, rfl, by decide, by decide,
    by decide, by decide, rfl, rfl, fun h => ?_⟩
  exact absurd h.lengthSum_eq (by decide)

end HttpEcho
