import HttpEcho.Proofs.Lines
import HttpEcho.Proofs.Parsing

/-!
# Line endings

A head whose lines end in CR LF is read like one with the same lines ended by LF alone. It stops behind its
last line, since a line neither is empty nor has a line feed, and a line ending leaves nothing in the line
before it.
-/

namespace HttpEcho

/-- Bytes that are one line of a head whichever of the two endings follows. -/
structure IsRawLine (line : Bytes) : Prop where
  ne_nil : line ≠ []
  feed_notMem : 0x0A ∉ line
  last_ne_return : line.getLast? ≠ some 0x0D

instance : DecidablePred IsRawLine := fun line =>
  decidable_of_iff (line ≠ [] ∧ 0x0A ∉ line ∧ line.getLast? ≠ some 0x0D)
    ⟨fun h => ⟨h.1, h.2.1, h.2.2⟩, fun h => ⟨h.ne_nil, h.feed_notMem, h.last_ne_return⟩⟩

def IsLineEnding (ending : Bytes) : Prop := ending = [0x0D, 0x0A] ∨ ending = [0x0A]

/-- The lines with an ending after each, and an empty line. -/
def endedHead (ending : Bytes) (lines : List Bytes) : Bytes := lines.flatMap (· ++ ending) ++ ending

/-! ### Where the head stops -/

variable {ending line : Bytes} {lines : List Bytes} {tail : Bytes} {e : HeadEnd}

def HeadEnd.shift (n : Nat) (e : HeadEnd) : HeadEnd := ⟨n + e.headLength, n + e.bodyStart⟩

theorem HeadEnd.shift_shift (m n : Nat) (e : HeadEnd) : (e.shift m).shift n = e.shift (n + m) := by
  rw [shift, shift, shift, Nat.add_assoc, Nat.add_assoc]

theorem findHeadEnd_cons {b : UInt8} (hfeed : b = 0x0A → tail.head? ≠ some 0x0A)
    (hreturn : b = 0x0D → ¬[0x0A, 0x0D, 0x0A] <+: tail) (h : findHeadEnd tail = some e) :
    findHeadEnd (b :: tail) = some (e.shift 1) := by
  have hblank : blankLineLength? (b :: tail) = none := by
    by_contra hsome
    obtain ⟨n, hn⟩ := Option.ne_none_iff_exists'.mp hsome
    rcases blankLineLength?_eq_some_iff.mp hn with ⟨hpre, -⟩ | ⟨hpre, -⟩
    · obtain ⟨hb, hpre⟩ := List.cons_prefix_cons.mp hpre
      exact hreturn hb.symm hpre
    · obtain ⟨hb, rest, rfl⟩ := List.cons_prefix_cons.mp hpre
      exact hfeed hb.symm rfl
  rw [findHeadEnd_cons_of_not_blank hblank, h, Option.map_some, HeadEnd.shift, Nat.add_comm 1,
    Nat.add_comm 1]

/-- No blank line begins within a line. -/
theorem findHeadEnd_line_append (hfeed : 0x0A ∉ line) (hlast : line.getLast? ≠ some 0x0D)
    (h : findHeadEnd tail = some e) : findHeadEnd (line ++ tail) = some (e.shift line.length) := by
  induction line with
  | nil => rw [List.nil_append, h, List.length_nil, HeadEnd.shift, Nat.zero_add, Nat.zero_add]
  | cons b line ih =>
    rw [List.mem_cons, not_or] at hfeed
    have hrest : findHeadEnd (line ++ tail) = some (e.shift line.length) := by
      refine ih hfeed.2 fun hreturn => hlast ?_
      rw [List.getLast?_cons, hreturn]
      rfl
    rw [List.cons_append, findHeadEnd_cons (fun hb => absurd hb.symm hfeed.1) ?_ hrest]
    · rw [HeadEnd.shift_shift, List.length_cons, Nat.add_comm]
    · -- the line feed of a blank line would belong to the line, or the return before it would end the line
      rintro rfl ⟨rest, hpre⟩
      cases line with
      | nil => exact hlast rfl
      | cons c line =>
        rw [List.cons_append, List.cons_append] at hpre
        exact hfeed.2 (List.mem_cons.mpr (Or.inl (List.cons.inj hpre).1))

/-- An ending between two lines does not begin a blank line. -/
theorem findHeadEnd_ending_append (hending : IsLineEnding ending) (hline : IsRawLine line)
    (h : findHeadEnd (line ++ tail) = some e) :
    findHeadEnd (ending ++ (line ++ tail)) = some (e.shift ending.length) := by
  obtain ⟨b, line, rfl⟩ := List.exists_cons_of_ne_nil hline.ne_nil
  have hfeed := hline.feed_notMem
  rw [List.mem_cons, not_or] at hfeed
  have hnewline : findHeadEnd (0x0A :: (b :: line ++ tail)) = some (e.shift 1) :=
    findHeadEnd_cons (fun _ hb => hfeed.1 (Option.some.inj hb).symm) (fun hb => absurd hb (by decide)) h
  rcases hending with rfl | rfl
  · refine (findHeadEnd_cons (fun hb => absurd hb (by decide)) (fun _ => ?_) hnewline).trans ?_
    · rintro ⟨rest, hpre⟩
      obtain ⟨rfl, hafter⟩ := List.cons.inj (List.cons.inj hpre).2
      cases line with
      | nil => exact hline.last_ne_return rfl
      | cons c line =>
        obtain ⟨hc, -⟩ := List.cons.inj hafter
        exact hfeed.2 (List.mem_cons.mpr (Or.inl hc))
    · rw [HeadEnd.shift_shift]
      rfl
  · exact hnewline

theorem endedHead_eq (hne : lines ≠ []) :
    endedHead ending lines = ending.intercalate lines ++ (ending ++ ending) := by
  induction lines with
  | nil => exact absurd rfl hne
  | cons line lines ih =>
    rw [endedHead, List.flatMap_cons]
    by_cases hnil : lines = []
    · rw [hnil, List.intercalate_singleton, List.flatMap_nil, List.append_nil, List.append_assoc]
    · have hrest := ih hnil
      rw [endedHead] at hrest
      rw [List.intercalate_cons_of_ne_nil hnil, List.append_assoc, hrest]
      simp only [List.append_assoc]

theorem findHeadEnd_intercalate (hending : IsLineEnding ending) (hne : lines ≠ [])
    (hlines : ∀ line ∈ lines, IsRawLine line) (rest : Bytes) :
    findHeadEnd (ending.intercalate lines ++ (ending ++ ending ++ rest)) =
      some ⟨(ending.intercalate lines).length,
        (ending.intercalate lines ++ (ending ++ ending)).length⟩ := by
  induction lines with
  | nil => exact absurd rfl hne
  | cons line lines ih =>
    rw [List.forall_mem_cons] at hlines
    obtain ⟨hline, hlines⟩ := hlines
    by_cases hnil : lines = []
    · have hblank : findHeadEnd (ending ++ ending ++ rest) = some ⟨0, (ending ++ ending).length⟩ := by
        rcases hending with rfl | rfl <;> rfl
      rw [hnil, List.intercalate_singleton,
        findHeadEnd_line_append hline.feed_notMem hline.last_ne_return hblank, HeadEnd.shift,
        List.length_append, List.length_append, Nat.add_zero, List.length_append]
    · obtain ⟨next, others, rfl⟩ := List.exists_cons_of_ne_nil hnil
      obtain ⟨more, hmore⟩ : ∃ more, ending.intercalate (next :: others) = next ++ more := by
        by_cases hothers : others = []
        · exact ⟨[], by rw [hothers, List.intercalate_singleton, List.append_nil]⟩
        · exact ⟨_, (List.intercalate_cons_of_ne_nil hothers).trans (List.append_assoc _ _ _)⟩
      have hrest := ih hnil hlines
      rw [List.intercalate_cons_of_ne_nil hnil]
      rw [hmore] at hrest ⊢
      rw [List.append_assoc] at hrest
      have hafter := findHeadEnd_ending_append hending (hlines next List.mem_cons_self) hrest
      have hall := findHeadEnd_line_append hline.feed_notMem hline.last_ne_return hafter
      simp only [List.append_assoc] at hall ⊢
      rw [hall]
      simp only [HeadEnd.shift, List.length_append]

theorem splitHead_endedHead (hending : IsLineEnding ending) (hne : lines ≠ [])
    (hlines : ∀ line ∈ lines, IsRawLine line) (rest : Bytes) :
    Request.splitHead (endedHead ending lines ++ rest) = .ok (ending.intercalate lines, rest) := by
  have hend := findHeadEnd_intercalate hending hne hlines rest
  rw [← List.append_assoc, ← endedHead_eq hne] at hend
  rw [Request.splitHead_of_findHeadEnd hend, endedHead_eq hne, List.drop_left, List.append_assoc,
    List.take_left]

/-! ### The lines of the head -/

theorem dropEndWhile_ofLatin1 (hlast : line.getLast? ≠ some 0x0D) :
    Text.dropEndWhile (· = '\r') (Text.ofLatin1 line) = Text.ofLatin1 line := by
  refine Text.dropEndWhile_of_getLast? fun c hc hreturn => hlast ?_
  rw [Text.ofLatin1, List.getLast?_map, Option.map_eq_some_iff] at hc
  obtain ⟨b, hb, rfl⟩ := hc
  have hbyte : b = 0x0D := by
    rw [← UInt8.toUInt8_toUInt32 b]
    exact congrArg Char.toUInt8 (of_decide_eq_true hreturn)
  rw [hb, hbyte]

theorem headLines_intercalate (hending : IsLineEnding ending) (hne : lines ≠ [])
    (hlines : ∀ line ∈ lines, IsRawLine line) :
    Request.headLines (Text.ofLatin1 (ending.intercalate lines)) = lines.map Text.ofLatin1 := by
  rw [Request.headLines, Text.splitOn_ofLatin1]
  induction lines with
  | nil => exact absurd rfl hne
  | cons line lines ih =>
    rw [List.forall_mem_cons] at hlines
    obtain ⟨hline, hlines⟩ := hlines
    by_cases hnil : lines = []
    · rw [hnil, List.intercalate_singleton, List.splitOn_eq_singleton hline.feed_notMem]
      simp only [List.map_cons, List.map_nil, dropEndWhile_ofLatin1 hline.last_ne_return]
    · obtain ⟨returns, hreturns, rfl⟩ : ∃ returns : Bytes, (∀ b ∈ returns, b = 0x0D) ∧
          ending = returns ++ [0x0A] := by
        rcases hending with rfl | rfl
        · exact ⟨[0x0D], by simp, rfl⟩
        · exact ⟨[], by simp, rfl⟩
      have hfeed : 0x0A ∉ line ++ returns := by
        rw [List.mem_append]
        exact not_or.mpr ⟨hline.feed_notMem, fun h => absurd (hreturns _ h) (by decide)⟩
      have hcut : (returns ++ [0x0A]).intercalate (line :: lines) =
          (line ++ returns) ++ 0x0A :: (returns ++ [0x0A]).intercalate lines := by
        rw [List.intercalate_cons_of_ne_nil hnil]
        simp only [List.append_assoc, List.singleton_append]
      have hdropped : Text.dropEndWhile (· = '\r') (Text.ofLatin1 (line ++ returns)) =
          Text.ofLatin1 line := by
        rw [Text.ofLatin1, List.map_append, ← Text.ofLatin1, Text.dropEndWhile_append_of_forall,
          dropEndWhile_ofLatin1 hline.last_ne_return]
        intro c hc
        obtain ⟨b, hb, rfl⟩ := List.mem_map.mp hc
        rw [hreturns b hb]
        rfl
      rw [hcut, List.splitOn_append_cons_self_of_not_mem hfeed, List.map_cons, List.map_cons, hdropped,
        ih hnil hlines, List.map_cons]

theorem isBlankText_intercalate (hending : IsLineEnding ending) (lines : List Bytes) :
    Text.isBlankText (Text.ofLatin1 (ending.intercalate lines)) =
      lines.all fun line => Text.isBlankText (Text.ofLatin1 line) := by
  have hblank : Text.isBlankText (Text.ofLatin1 ending) := by
    rcases hending with rfl | rfl <;> decide
  induction lines with
  | nil => rfl
  | cons line lines ih =>
    by_cases hnil : lines = []
    · rw [hnil, List.intercalate_singleton, List.all_cons, List.all_nil, Bool.and_true]
    · rw [List.intercalate_cons_of_ne_nil hnil, List.all_cons, ← ih]
      unfold Text.isBlankText Text.ofLatin1 at hblank ⊢
      rw [List.map_append, List.map_append, List.all_append, List.all_append, hblank, Bool.and_true]

/-- Reading a head gives what its lines are, and nothing of their endings. -/
theorem readHead_intercalate (hending : IsLineEnding ending) (hne : lines ≠ [])
    (hlines : ∀ line ∈ lines, IsRawLine line) :
    Request.readHead (ending.intercalate lines) =
      if lines.all fun line => Text.isBlankText (Text.ofLatin1 line) then .error .emptyRequest else
        (Request.readLine ((lines.map Text.ofLatin1).headD [])).bind fun line =>
          (readFields ((lines.map Text.ofLatin1).drop 1)).map fun headers => (line, headers) := by
  rw [Request.readHead_eq, Request.firstLine, headLines_intercalate hending hne hlines,
    isBlankText_intercalate hending]

/-- The two kinds of line endings give the same request, or the same error. -/
theorem parse_endedHead_eq (hne : lines ≠ []) (hlines : ∀ line ∈ lines, IsRawLine line) (rest : Bytes) :
    Request.parse (endedHead [0x0D, 0x0A] lines ++ rest) =
      Request.parse (endedHead [0x0A] lines ++ rest) := by
  have hhead : Request.readHead (List.intercalate [0x0D, 0x0A] lines) =
      Request.readHead (List.intercalate [0x0A] lines) := by
    rw [readHead_intercalate (Or.inl rfl) hne hlines, readHead_intercalate (Or.inr rfl) hne hlines]
  unfold Request.parse
  rw [splitHead_endedHead (Or.inl rfl) hne hlines, splitHead_endedHead (Or.inr rfl) hne hlines]
  simp only [bind, Except.bind, hhead]

/-- Lines with returns inside and in front, a folded one, and more blank lines in the body. -/
theorem parse_endedHead_eq_returns_in_lines :
    ∃ lines r, lines = ["POST /a HTTP/1.1", "A: x\ry", " z", "\rB: 1", "Content-Length: 5"].map
        (fun line => Text.toLatin1 line.toList) ∧
      Request.parse (endedHead [0x0A] lines ++ Text.toLatin1 "\n\n\r\n\r\n".toList) = .ok r ∧
      Request.parse (endedHead [0x0D, 0x0A] lines ++ Text.toLatin1 "\n\n\r\n\r\n".toList) = .ok r := by
  refine ⟨_, ⟨.post, "/a".toList, .http11,
    [(['A'], "x\ry z".toList), (['B'], ['1']), ("Content-Length".toList, ['5'])],
    some [0x0A, 0x0A, 0x0D, 0x0A, 0x0D]⟩, rfl, by decide, ?_⟩
  rw [parse_endedHead_eq (by decide) (by decide)]
  decide

end HttpEcho
