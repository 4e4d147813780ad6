import HttpEcho.Text.Basic
import Mathlib.Data.List.DropRight
import Mathlib.Data.List.TakeWhile

/-!
# White space around a text

Trimming takes no notice of white space that is added at either end, and leaves nothing exactly where
there is nothing but white space.
-/

namespace HttpEcho.Text

variable {t blank : Text} {p : Char → Bool}

theorem not_isBlank_of_isDigit {c : Char} (hc : c.isDigit) : ¬isBlank c := by
  have hrange : 0x30 ≤ c.toNat ∧ c.toNat ≤ 0x39 := by
    simpa [Char.isDigit, UInt32.le_iff_toNat_le] using hc
  simp only [isBlank, Bool.or_eq_true, Bool.and_eq_true, decide_eq_true_eq]
  omega

theorem isBlankText_iff : isBlankText t ↔ ∀ c ∈ t, isBlank c := by
  simp [isBlankText]

theorem dropEndWhile_eq_rdropWhile (p : Char → Bool) (t : Text) :
    dropEndWhile p t = t.rdropWhile p := rfl

theorem dropEndWhile_append_of_forall (t : Text) (h : ∀ c ∈ blank, p c) :
    dropEndWhile p (t ++ blank) = dropEndWhile p t := by
  rw [dropEndWhile, List.reverse_append, List.dropWhile_append_of_pos (by simpa using h)]
  rfl

/-- What is dropped at the end satisfies the predicate. -/
theorem exists_eq_dropEndWhile_append (p : Char → Bool) (t : Text) :
    ∃ dropped, (∀ c ∈ dropped, p c) ∧ t = dropEndWhile p t ++ dropped := by
  refine ⟨t.rtakeWhile p, fun c hc => List.mem_rtakeWhile_imp hc, ?_⟩
  rw [dropEndWhile_eq_rdropWhile, List.rdropWhile_append_rtakeWhile]

theorem dropEndWhile_of_getLast? (h : ∀ c, t.getLast? = some c → ¬p c) : dropEndWhile p t = t := by
  rw [dropEndWhile_eq_rdropWhile, List.rdropWhile_eq_self_iff]
  intro hne
  exact h _ (List.getLast?_eq_some_getLast hne)

theorem trimStart_eq_nil_iff : trimStart t = [] ↔ ∀ c ∈ t, isBlank c := by
  simp [trimStart]

theorem trimEnd_eq_nil_iff : trimEnd t = [] ↔ ∀ c ∈ t, isBlank c := by
  rw [trimEnd, dropEndWhile_eq_rdropWhile, List.rdropWhile_eq_nil_iff]

/-- The first character that is left is not white space. -/
theorem not_isBlank_of_head?_trimStart {c : Char} (h : (trimStart t).head? = some c) :
    ¬isBlank c := by
  have hnot := List.head?_dropWhile_not isBlank t
  rw [trimStart] at h
  rw [h] at hnot
  simpa using hnot

theorem trim_eq_nil_iff : trim t = [] ↔ isBlankText t := by
  rw [trim, trimEnd_eq_nil_iff, isBlankText_iff]
  constructor
  · intro h
    rw [← trimStart_eq_nil_iff]
    by_contra hne
    obtain ⟨c, rest, hstart⟩ := List.exists_cons_of_ne_nil hne
    rw [hstart] at h
    exact not_isBlank_of_head?_trimStart (by rw [hstart, List.head?_cons]) (h c List.mem_cons_self)
  · exact fun h c hc => h c ((List.dropWhile_suffix isBlank).subset hc)

theorem trim_blank_append (h : ∀ c ∈ blank, isBlank c) (t : Text) : trim (blank ++ t) = trim t := by
  rw [trim, trimStart, List.dropWhile_append_of_pos h]
  rfl

theorem trim_append_blank (t : Text) (h : ∀ c ∈ blank, isBlank c) : trim (t ++ blank) = trim t := by
  by_cases hall : ∀ c ∈ t, isBlank c
  · have hboth : ∀ c ∈ t ++ blank, isBlank c := by
      simpa only [List.forall_mem_append] using ⟨hall, h⟩
    rw [trim_eq_nil_iff.mpr (isBlankText_iff.mpr hall),
      trim_eq_nil_iff.mpr (isBlankText_iff.mpr hboth)]
  · have hne : ¬(t.dropWhile isBlank).isEmpty := by
      simpa [List.isEmpty_iff, List.dropWhile_eq_nil_iff] using hall
    rw [trim, trimStart, List.dropWhile_append, if_neg hne, trimEnd, dropEndWhile_append_of_forall _ h]
    rfl

theorem dropEndWhile_isPrefix {front : Text} (h : front <+: t) :
    dropEndWhile p front <+: dropEndWhile p t := by
  obtain ⟨rest, rfl⟩ := h
  by_cases hall : ∀ c ∈ rest, p c
  · exact (dropEndWhile_append_of_forall (p := p) front hall).symm ▸ List.prefix_rfl
  · have hne : ¬(rest.reverse.dropWhile p).isEmpty := by
      simpa [List.isEmpty_iff, List.dropWhile_eq_nil_iff] using hall
    have hlong : dropEndWhile p (front ++ rest) = front ++ dropEndWhile p rest := by
      rw [dropEndWhile, List.reverse_append, List.dropWhile_append, if_neg hne, List.reverse_append,
        List.reverse_reverse]
      rfl
    rw [hlong]
    exact (List.rdropWhile_prefix p front).trans (List.prefix_append front _)

theorem trim_isPrefix {front : Text} (h : front <+: t) : trim front <+: trim t := by
  obtain ⟨rest, rfl⟩ := h
  by_cases hblank : ∀ c ∈ front, isBlank c
  · rw [trim_eq_nil_iff.mpr (isBlankText_iff.mpr hblank)]
    exact List.nil_prefix
  · have hne : ¬(front.dropWhile isBlank).isEmpty := by
      simpa [List.isEmpty_iff, List.dropWhile_eq_nil_iff] using hblank
    apply dropEndWhile_isPrefix
    rw [trimStart, trimStart, List.dropWhile_append, if_neg hne]
    exact List.prefix_append _ rest

theorem isInfix_trim (t : Text) : trim t <:+: t :=
  (List.rdropWhile_prefix _ _).isInfix.trans (List.dropWhile_suffix isBlank).isInfix

theorem mem_of_mem_trim {c : Char} (h : c ∈ trim t) : c ∈ t :=
  (isInfix_trim t).subset h

/-- Trimmed text does not begin with white space. -/
theorem not_isBlank_of_head?_trim {c : Char} (h : (trim t).head? = some c) : ¬isBlank c := by
  obtain ⟨rest, hstart⟩ : trim t <+: trimStart t := List.rdropWhile_prefix _ _
  apply not_isBlank_of_head?_trimStart (t := t)
  rw [← hstart, List.head?_append, h, Option.some_or]

/-- Nor does it end with white space. -/
theorem not_isBlank_of_getLast?_trim {c : Char} (h : (trim t).getLast? = some c) : ¬isBlank c := by
  have hne : (trimStart t).rdropWhile isBlank ≠ [] := by
    intro hnil
    rw [trim, trimEnd, dropEndWhile_eq_rdropWhile, hnil] at h
    cases h
  have hlast := List.rdropWhile_last_not isBlank (trimStart t) hne
  rw [trim, trimEnd, dropEndWhile_eq_rdropWhile, List.getLast?_eq_some_getLast hne] at h
  rwa [Option.some.inj h] at hlast

/-- A text that trimming leaves alone does not begin with white space. -/
theorem not_isBlank_of_head? {c : Char} (htrim : trim t = t) (h : t.head? = some c) :
    ¬isBlank c := by
  rw [← htrim] at h
  exact not_isBlank_of_head?_trim h

/-- Nor does it end with white space. -/
theorem not_isBlank_of_getLast? {c : Char} (htrim : trim t = t) (h : t.getLast? = some c) :
    ¬isBlank c := by
  rw [← htrim] at h
  exact not_isBlank_of_getLast?_trim h

theorem trim_eq_self_iff :
    trim t = t ↔ (∀ c, t.head? = some c → ¬isBlank c) ∧ ∀ c, t.getLast? = some c → ¬isBlank c := by
  constructor
  · exact fun h => ⟨fun _ => not_isBlank_of_head? h, fun _ => not_isBlank_of_getLast? h⟩
  · rintro ⟨hhead, hlast⟩
    have hstart : trimStart t = t := by
      cases t with
      | nil => rfl
      | cons c rest => exact List.dropWhile_cons_of_neg (hhead c rfl)
    rw [trim, hstart]
    exact dropEndWhile_of_getLast? hlast

@[simp]
theorem trim_trim (t : Text) : trim (trim t) = trim t :=
  trim_eq_self_iff.mpr ⟨fun _ => not_isBlank_of_head?_trim, fun _ => not_isBlank_of_getLast?_trim⟩

/-- Text that trimming leaves alone is not blank unless it is empty. -/
theorem not_isBlankText_of_trim_ne_nil (h : trim t ≠ []) : ¬isBlankText t := by
  rwa [← trim_eq_nil_iff]

end HttpEcho.Text
