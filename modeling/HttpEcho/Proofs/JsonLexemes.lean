import HttpEcho.Proofs.JsonNumber
import HttpEcho.Proofs.JsonString

/-!
# The lexemes of a text

White space is passed over, a mark and what stands between quotes are lexemes wherever they stand, and a word
is one up to the next of these.
-/

namespace HttpEcho.Json

theorem isSpace_iff {c : Char} : isSpace c ↔ c ∈ [' ', '\t', '\n', '\r'] := by
  simp [isSpace, or_assoc]

theorem lexemes?_space {c : Char} (hc : isSpace c) (rest : Text) :
    lexemes? (c :: rest) = lexemes? rest := by
  rw [lexemes?, if_pos hc]

theorem lexemes?_spacing {space : Text} (hspace : IsSpacing space) (rest : Text) :
    lexemes? (space ++ rest) = lexemes? rest := by
  induction space with
  | nil => rfl
  | cons c space ih =>
    rw [IsSpacing, List.forall_mem_cons] at hspace
    rw [List.cons_append, lexemes?_space (isSpace_iff.mpr hspace.1), ih hspace.2]

theorem lexemes?_mark {c : Char} (hc : isMark c) (rest : Text) :
    lexemes? (c :: rest) = (lexemes? rest).map (.mark c :: ·) := by
  have hspace : ¬isSpace c := by
    simp only [isMark, Bool.or_eq_true, decide_eq_true_eq] at hc
    rcases hc with ((((rfl | rfl) | rfl) | rfl) | rfl) | rfl <;> decide
  rw [lexemes?, if_neg hspace, if_pos hc]

theorem lexemes?_quoted {t raw rest : Text} (h : quotedPart? t = some (raw, rest)) :
    lexemes? ('"' :: t) = (lexemes? rest).map (.quoted raw :: ·) := by
  rw [lexemes?, if_neg (by decide), if_neg (by decide), if_pos rfl]
  split
  · next hnone => rw [h] at hnone; cases hnone
  · next raw' rest' hsome =>
    rw [h] at hsome
    obtain ⟨rfl, rfl⟩ := Prod.mk.inj (Option.some.inj hsome)
    rfl

theorem lexemes?_of_quotedPart?_eq_none {t : Text} (h : quotedPart? t = none) :
    lexemes? ('"' :: t) = none := by
  rw [lexemes?, if_neg (by decide), if_neg (by decide), if_pos rfl]
  split
  · rfl
  · next hsome => rw [h] at hsome; cases hsome

/-! ### Words -/

def Delimited (rest : Text) : Prop := ∀ c, rest.head? = some c → ¬isWordChar c

theorem delimited_nil : Delimited [] := fun c hc => by cases hc

theorem delimited_cons {c : Char} (hc : ¬isWordChar c) (rest : Text) : Delimited (c :: rest) := by
  intro x hx
  rwa [← Option.some.inj hx]

theorem delimited_spacing_append {space rest : Text} (hspace : IsSpacing space) (hrest : Delimited rest) :
    Delimited (space ++ rest) := by
  cases space with
  | nil => exact hrest
  | cons c space =>
    have hc : isSpace c := isSpace_iff.mpr (hspace c List.mem_cons_self)
    exact delimited_cons (by simp [isWordChar, hc]) _

theorem lexemes?_word {word rest : Text} (hne : word ≠ []) (hword : ∀ c ∈ word, isWordChar c)
    (hrest : Delimited rest) :
    lexemes? (word ++ rest) = (lexemes? rest).map (.word word :: ·) := by
  obtain ⟨c, tail, rfl⟩ := List.exists_cons_of_ne_nil hne
  rw [List.forall_mem_cons] at hword
  obtain ⟨hc, htail⟩ := hword
  have htake : (tail ++ rest).takeWhile isWordChar = tail := by
    rw [List.takeWhile_append_of_pos htail]
    cases rest with
    | nil => rw [List.takeWhile_nil, List.append_nil]
    | cons x rest =>
      rw [List.takeWhile_cons_of_neg (hrest x List.head?_cons), List.append_nil]
  have hdrop : (tail ++ rest).dropWhile isWordChar = rest := by
    rw [List.dropWhile_append_of_pos htail]
    cases rest with
    | nil => rfl
    | cons x rest => rw [List.dropWhile_cons_of_neg (hrest x List.head?_cons)]
  simp only [isWordChar, Bool.and_eq_true, Bool.not_eq_true', decide_eq_true_eq] at hc
  obtain ⟨⟨hspace, hmark⟩, hquote⟩ := hc
  rw [List.cons_append, lexemes?, if_neg (by simp [hspace]), if_neg (by simp [hmark]), if_neg hquote,
    htake, hdrop]

theorem isWordChar_of_mem_digitText {ds : List Nat} (hds : ∀ d ∈ ds, d < 10) :
    ∀ c ∈ digitText ds, isWordChar c := by
  intro c hc
  obtain ⟨d, hd, rfl⟩ := List.mem_map.mp hc
  have hdigit : ∀ n : Nat, n < 10 → isWordChar n.digitChar := by decide
  exact hdigit d (hds d hd)

theorem isWordChar_of_mem_exponent {t : Text} {e : Option (Bool × List Nat)} (h : WrittenExponent t e) :
    ∀ c ∈ t, isWordChar c := by
  cases h with
  | none => exact fun c hc => by cases hc
  | power hmark hsign hne hds =>
    rw [List.cons_append, List.forall_mem_cons, List.forall_mem_append]
    refine ⟨?_, ?_, isWordChar_of_mem_digitText hds⟩
    · rcases hmark with rfl | rfl <;> decide
    · simp only [List.mem_cons, Prod.mk.injEq, List.not_mem_nil, or_false] at hsign
      rcases hsign with ⟨rfl, -⟩ | ⟨rfl, -⟩ | ⟨rfl, -⟩ <;> exact List.all_eq_true.mp rfl

theorem isWordChar_of_mem_number {t : Text} {n : Numeral} (h : WrittenNumber t n) :
    ∀ c ∈ t, isWordChar c := by
  obtain ⟨-, -, hwhole, hfraction, exponent, hexponent, rfl⟩ := h
  rw [List.forall_mem_append, List.forall_mem_append, List.forall_mem_append]
  refine ⟨⟨⟨?_, isWordChar_of_mem_digitText hwhole⟩, ?_⟩, isWordChar_of_mem_exponent hexponent⟩
  · cases n.negative <;> exact List.all_eq_true.mp rfl
  · split
    · exact fun c hc => by cases hc
    · exact List.forall_mem_cons.mpr ⟨by decide, isWordChar_of_mem_digitText hfraction⟩

/-- A word of the grammar is one lexeme. -/
theorem WrittenWord.lexemes?_append {t : Text} {v : Json} (h : WrittenWord t v) {rest : Text}
    (hrest : Delimited rest) : lexemes? (t ++ rest) = (lexemes? rest).map (.word t :: ·) := by
  cases h with
  | null => exact lexemes?_word (List.cons_ne_nil _ _) (List.all_eq_true.mp rfl) hrest
  | true => exact lexemes?_word (List.cons_ne_nil _ _) (List.all_eq_true.mp rfl) hrest
  | false => exact lexemes?_word (List.cons_ne_nil _ _) (List.all_eq_true.mp rfl) hrest
  | number h hv =>
    obtain ⟨c, hc, -⟩ := head?_of_writtenNumber h
    refine lexemes?_word ?_ (isWordChar_of_mem_number h) hrest
    rintro rfl
    cases hc

end HttpEcho.Json
