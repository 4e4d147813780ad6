import HttpEcho.Proofs.WriteBack

/-!
# Heads that are cut off

What is read from the front of a head is what is left of the whole reading. Lines and words are cut in the
same way as the head: up to some element they are the same, and of that one a part is left, or nothing.
The request line is then read as it was or not at all, and of the headers the last one may have lost the
end of its value.
-/

namespace HttpEcho

/-! ### Lists that are cut off -/

/-- The elements of a list up to one that is left in part or not at all. -/
inductive CutShort {α : Type} (R : α → α → Prop) : List α → List α → Prop
  | nil (xs : List α) : CutShort R [] xs
  | last {x y : α} (h : R x y) (ys : List α) : CutShort R [x] (y :: ys)
  | cons (z : α) {xs ys : List α} (h : CutShort R xs ys) : CutShort R (z :: xs) (z :: ys)

namespace CutShort

variable {α : Type} {R : α → α → Prop} {xs ys zs : List α}

theorem refl (xs : List α) : CutShort R xs xs := by
  induction xs with
  | nil => exact .nil []
  | cons x xs ih => exact .cons x ih

theorem of_cons_cons {x y : α} (h : CutShort R (x :: xs) (y :: ys)) :
    xs = [] ∧ R x y ∨ x = y ∧ CutShort R xs ys := by
  cases h with
  | last h ys => exact Or.inl ⟨rfl, h⟩
  | cons z h => exact Or.inr ⟨rfl, h⟩

theorem eq_nil (h : CutShort R xs []) : xs = [] := by
  cases h
  rfl

theorem append (init : List α) (h : CutShort R xs ys) : CutShort R (init ++ xs) (init ++ ys) := by
  induction init with
  | nil => exact h
  | cons x init ih => exact .cons x ih

theorem trans (hR : ∀ x y z, R x y → R y z → R x z) (hxy : CutShort R xs ys)
    (hyz : CutShort R ys zs) : CutShort R xs zs := by
  induction hxy generalizing zs with
  | nil ys => exact .nil zs
  | last h ys =>
    cases hyz with
    | last h' zs => exact .last (hR _ _ _ h h') zs
    | cons _ h' => exact .last h _
  | cons z h ih =>
    cases hyz with
    | last h' zs =>
      cases h
      exact .last h' zs
    | cons _ h' => exact .cons z (ih h')

theorem map {β : Type} {S : β → β → Prop} {f : α → β} (hf : ∀ x y, R x y → S (f x) (f y))
    (h : CutShort R xs ys) : CutShort S (xs.map f) (ys.map f) := by
  induction h with
  | nil ys => exact .nil _
  | last h ys => exact .last (hf _ _ h) _
  | cons z h ih => exact .cons (f z) ih

theorem filter {p : α → Bool} (hp : ∀ x y, R x y → p x → p y) (h : CutShort R xs ys) :
    CutShort R (xs.filter p) (ys.filter p) := by
  induction h with
  | nil ys => exact .nil _
  | @last x y h ys =>
    by_cases hx : p x
    · rw [List.filter_cons_of_pos hx, List.filter_cons_of_pos (hp x y h hx)]
      exact .last h _
    · rw [List.filter_cons_of_neg hx]
      exact .nil _
  | cons z h ih =>
    by_cases hz : p z
    · rw [List.filter_cons_of_pos hz, List.filter_cons_of_pos hz]
      exact .cons z ih
    · rw [List.filter_cons_of_neg hz, List.filter_cons_of_neg hz]
      exact ih

/-- The parts of a list that is cut off are those of the whole one, the last of them cut off. -/
theorem splitOnP {p : α → Bool} (h : xs <+: ys) :
    CutShort (· <+: ·) (xs.splitOnP p) (ys.splitOnP p) := by
  induction xs generalizing ys with
  | nil =>
    obtain ⟨part, parts, hparts⟩ := List.exists_cons_of_ne_nil (List.splitOnP_ne_nil p ys)
    rw [List.splitOnP_nil, hparts]
    exact .last List.nil_prefix parts
  | cons x xs ih =>
    obtain ⟨rest, rfl⟩ := h
    have hparts := ih (List.prefix_append xs rest)
    rw [List.cons_append, List.splitOnP_cons_eq_if_modifyHead, List.splitOnP_cons_eq_if_modifyHead]
    generalize xs.splitOnP p = left, (xs ++ rest).splitOnP p = right at hparts ⊢
    split
    · exact .cons [] hparts
    · cases hparts with
      | nil parts => exact .nil _
      | last hpart parts => exact .last ((List.prefix_cons_inj x).mpr hpart) parts
      | cons part hparts => exact .cons (x :: part) hparts

end CutShort

/-! ### The request line -/

variable {front line : Text}

theorem cutShort_words (h : front <+: line) :
    CutShort (· <+: ·) (Text.words front) (Text.words line) := by
  refine (CutShort.splitOnP h).filter fun word whole hword hne => ?_
  have hne : word ≠ [] := by simpa using hne
  obtain ⟨c, rest, rfl⟩ := List.exists_cons_of_ne_nil hne
  obtain ⟨more, rfl⟩ := hword
  rfl

theorem HttpVersion.eq_of_isPrefix {v w : HttpVersion} (h : v.text <+: w.text) : v = w := by
  revert h
  cases v <;> cases w <;> decide

/-- A request line that is cut off is not read, unless it is cut behind the version, since no version
begins like another one. -/
theorem readLine_eq_of_isPrefix {cut whole : Method × Text × HttpVersion} (h : front <+: line)
    (hfront : Request.readLine front = .ok cut) (hline : Request.readLine line = .ok whole) :
    cut = whole := by
  obtain ⟨m, target, v⟩ := cut
  obtain ⟨m', target', v'⟩ := whole
  rw [Request.readLine_eq_ok_iff] at hfront hline
  have hwords := cutShort_words h
  rw [hfront, hline] at hwords
  obtain ⟨hnil, -⟩ | ⟨hm, hwords⟩ := hwords.of_cons_cons
  · cases hnil
  obtain ⟨hnil, -⟩ | ⟨htarget, hwords⟩ := hwords.of_cons_cons
  · cases hnil
  have hv : v = v' := by
    obtain ⟨-, hv⟩ | ⟨hv, -⟩ := hwords.of_cons_cons
    · exact HttpVersion.eq_of_isPrefix hv
    · exact HttpVersion.eq_of_isPrefix (hv ▸ List.prefix_rfl)
  rw [Method.text_injective hm, htarget, hv]

/-! ### The headers -/

/-- A header whose value may end before it is complete. -/
def IsFrontOf (cut header : Text × Text) : Prop := cut.1 = header.1 ∧ cut.2 <+: header.2

theorem IsFrontOf.trans {a b c : Text × Text} (hab : IsFrontOf a b) (hbc : IsFrontOf b c) :
    IsFrontOf a c :=
  ⟨hab.1.trans hbc.1, hab.2.trans hbc.2⟩

theorem not_isBlankText_of_isPrefix (h : front <+: line) (hblank : ¬Text.isBlankText front) :
    ¬Text.isBlankText line := by
  rw [Text.isBlankText_iff] at hblank ⊢
  exact fun hline => hblank fun c hc => hline c (h.subset hc)

theorem isContinuation_of_isPrefix (h : front <+: line) (hblank : ¬Text.isBlankText front) :
    isContinuation line = isContinuation front := by
  cases front with
  | nil => exact absurd rfl hblank
  | cons c rest =>
    obtain ⟨more, rfl⟩ := h
    rfl

theorem readField?_of_isPrefix {cut : Text × Text} (h : front <+: line)
    (hread : readField? front = some cut) : ∃ field, readField? line = some field ∧ IsFrontOf cut field := by
  obtain ⟨before, after, rfl, hcolon, hblank, rfl⟩ := readField?_eq_some hread
  obtain ⟨rest, rfl⟩ := h
  refine ⟨(Text.trim before, Text.trim (after ++ rest)), ?_, rfl,
    Text.trim_isPrefix (List.prefix_append after rest)⟩
  rw [List.append_assoc, List.cons_append]
  simp only [readField?, Text.cut?_append hcolon, if_neg hblank]

/-- The fields so far and the one that a line begins or continues. -/
def openNext? (done : List OpenField) (line : Text) : Option (List OpenField) :=
  if isContinuation line then
    match done with
    | [] => none
    | (name, pieces) :: done => some ((name, Text.trim line :: pieces) :: done)
  else (readField? line).map fun field => (field.1, [field.2]) :: done

variable {done : List OpenField} {lines : List Text} {headers : Headers}

theorem readFieldsOnto_cons_eq_ok_iff : readFieldsOnto done (line :: lines) = .ok headers ↔
    if Text.isBlankText line then headers = done.reverse.map OpenField.close
    else ∃ next, openNext? done line = some next ∧ readFieldsOnto next lines = .ok headers := by
  rw [readFieldsOnto.eq_def, openNext?.eq_def]
  by_cases hblank : Text.isBlankText line
  · simp [hblank, eq_comm]
  by_cases hcontinuation : isContinuation line
  · cases done with
    | nil => simp [hblank, hcontinuation]
    | cons field done => simp [hblank, hcontinuation]
  · cases hread : readField? line with
    | none => simp [hblank, hcontinuation, hread]
    | some field => simp [hblank, hcontinuation, hread]

theorem isFrontOf_close_cons (name piece : Text) (pieces : List Text) :
    IsFrontOf (OpenField.close (name, pieces)) (OpenField.close (name, piece :: pieces)) := by
  by_cases hpieces : pieces = []
  · rw [hpieces]
    exact ⟨rfl, List.nil_prefix⟩
  · rw [close_cons hpieces]
    exact ⟨rfl, List.prefix_append _ _⟩

theorem isFrontOf_close_of_isPrefix (name : Text) (pieces : List Text) (h : front <+: line) :
    IsFrontOf (OpenField.close (name, front :: pieces)) (OpenField.close (name, line :: pieces)) := by
  by_cases hpieces : pieces = []
  · rw [hpieces, close_singleton, close_singleton]
    exact ⟨rfl, h⟩
  · rw [close_cons hpieces, close_cons hpieces]
    exact ⟨rfl, (List.prefix_append_right_inj _).mpr ((List.prefix_cons_inj _).mpr h)⟩

theorem cutShort_closed {field more : OpenField} (done : List OpenField)
    (h : IsFrontOf field.close more.close) :
    CutShort IsFrontOf ((field :: done).reverse.map OpenField.close)
      ((more :: done).reverse.map OpenField.close) := by
  rw [List.reverse_cons, List.reverse_cons, List.map_append, List.map_append]
  exact (CutShort.last h []).append _

theorem cutShort_closed_cons (field : OpenField) (done : List OpenField) :
    CutShort IsFrontOf (done.reverse.map OpenField.close)
      ((field :: done).reverse.map OpenField.close) := by
  have hdone := (CutShort.nil (R := IsFrontOf) [field.close]).append (done.reverse.map OpenField.close)
  rw [List.append_nil] at hdone
  rw [List.reverse_cons, List.map_append]
  exact hdone

theorem cutShort_of_openNext? {next : List OpenField} (h : openNext? done line = some next) :
    CutShort IsFrontOf (done.reverse.map OpenField.close) (next.reverse.map OpenField.close) := by
  unfold openNext? at h
  split at h
  · cases done with
    | nil => cases h
    | cons field done =>
      obtain rfl := Option.some.inj h
      exact cutShort_closed done (isFrontOf_close_cons field.1 _ field.2)
  · obtain ⟨field, -, rfl⟩ := Option.map_eq_some_iff.mp h
    exact cutShort_closed_cons _ done

theorem openNext?_of_isPrefix {cut : List OpenField} (h : front <+: line)
    (hblank : ¬Text.isBlankText front) (hcut : openNext? done front = some cut) :
    ∃ next, openNext? done line = some next ∧
      CutShort IsFrontOf (cut.reverse.map OpenField.close) (next.reverse.map OpenField.close) := by
  unfold openNext? at hcut ⊢
  rw [isContinuation_of_isPrefix h hblank]
  split at hcut
  · next hcontinuation =>
    rw [if_pos hcontinuation]
    cases done with
    | nil => cases hcut
    | cons field done =>
      obtain rfl := Option.some.inj hcut
      exact ⟨_, rfl, cutShort_closed done
        (isFrontOf_close_of_isPrefix field.1 field.2 (Text.trim_isPrefix h))⟩
  · next hcontinuation =>
    rw [if_neg hcontinuation]
    obtain ⟨short, hshort, rfl⟩ := Option.map_eq_some_iff.mp hcut
    obtain ⟨field, hfield, hfront⟩ := readField?_of_isPrefix h hshort
    rw [hfield]
    refine ⟨_, rfl, cutShort_closed done ?_⟩
    rw [close_singleton, close_singleton]
    exact hfront

/-- The fields so far are what is left of all headers if the lines end there. -/
theorem cutShort_of_readFieldsOnto (h : readFieldsOnto done lines = .ok headers) :
    CutShort IsFrontOf (done.reverse.map OpenField.close) headers := by
  induction lines generalizing done with
  | nil => exact Except.ok.inj h ▸ .refl _
  | cons line lines ih =>
    rw [readFieldsOnto_cons_eq_ok_iff] at h
    split at h
    · exact h ▸ .refl _
    · obtain ⟨next, hnext, hrest⟩ := h
      exact (cutShort_of_openNext? hnext).trans (fun _ _ _ => .trans) (ih hrest)

/-- Reading lines that are cut off gives what is left of the headers, if it gives any. -/
theorem cutShort_of_cutShort_lines {cutLines : List Text} {cut : Headers}
    (h : CutShort (· <+: ·) cutLines lines) (hcut : readFieldsOnto done cutLines = .ok cut)
    (hwhole : readFieldsOnto done lines = .ok headers) : CutShort IsFrontOf cut headers := by
  induction h generalizing done with
  | nil lines => exact Except.ok.inj hcut ▸ cutShort_of_readFieldsOnto hwhole
  | @last front line h lines =>
    have hall := hwhole
    rw [readFieldsOnto_cons_eq_ok_iff] at hcut hwhole
    split at hcut
    · exact hcut ▸ cutShort_of_readFieldsOnto hall
    · next hblank =>
      obtain ⟨next, hnext, hend⟩ := hcut
      obtain ⟨next', hnext', hfront⟩ := openNext?_of_isPrefix h hblank hnext
      rw [if_neg (not_isBlankText_of_isPrefix h hblank)] at hwhole
      obtain ⟨next'', hnext'', hrest⟩ := hwhole
      obtain rfl := Option.some.inj (hnext'.symm.trans hnext'')
      rw [← Except.ok.inj hend]
      exact hfront.trans (fun _ _ _ => .trans) (cutShort_of_readFieldsOnto hrest)
  | cons line h ih =>
    rw [readFieldsOnto_cons_eq_ok_iff] at hcut hwhole
    split at hcut
    · next hblank =>
      rw [if_pos hblank] at hwhole
      rw [hcut, hwhole]
      exact .refl _
    · next hblank =>
      rw [if_neg hblank] at hwhole
      obtain ⟨next, hnext, hcut⟩ := hcut
      obtain ⟨next', hnext', hwhole⟩ := hwhole
      obtain rfl := Option.some.inj (hnext.symm.trans hnext')
      exact ih hcut hwhole

/-! ### The head -/

theorem cutShort_headLines (h : front <+: line) :
    CutShort (· <+: ·) (Request.headLines front) (Request.headLines line) := by
  rw [Request.headLines, Request.headLines, List.splitOn_eq_splitOnP, List.splitOn_eq_splitOnP]
  exact (CutShort.splitOnP h).map fun _ _ => Text.dropEndWhile_isPrefix

theorem readHead_of_isPrefix {short head : Bytes} {cut whole : Method × Text × HttpVersion}
    {left : Headers} (h : short <+: head) (hcut : Request.readHead short = .ok (cut, left))
    (hwhole : Request.readHead head = .ok (whole, headers)) :
    cut = whole ∧ CutShort IsFrontOf left headers := by
  obtain ⟨-, hcutLine, hcutFields⟩ := Request.readHead_eq_ok_iff.mp hcut
  obtain ⟨-, hwholeLine, hwholeFields⟩ := Request.readHead_eq_ok_iff.mp hwhole
  have hlines := cutShort_headLines (h.map Char.ofUInt8)
  rw [← Text.ofLatin1, ← Text.ofLatin1, Request.headLines_eq_cons short,
    Request.headLines_eq_cons head] at hlines
  rcases hlines.of_cons_cons with ⟨hnil, hfirst⟩ | ⟨hfirst, hlines⟩
  · rw [hnil] at hcutFields
    rw [← Except.ok.inj hcutFields]
    exact ⟨readLine_eq_of_isPrefix hfirst hcutLine hwholeLine, .nil _⟩
  · rw [hfirst, hwholeLine] at hcutLine
    exact ⟨(Except.ok.inj hcutLine).symm, cutShort_of_cutShort_lines hlines hcutFields hwholeFields⟩

end HttpEcho
