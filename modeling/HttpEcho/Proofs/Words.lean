import HttpEcho.Proofs.Trim
import HttpEcho.Text.Split

/-!
# The words of a text

White space separates words and is nothing else to them: how much of it stands between two of them or at
either end does not matter.
-/

namespace HttpEcho

/-- A blank separates what stands before it from what follows. -/
theorem words_append_cons {c : Char} (hc : Text.isBlank c) (t rest : Text) :
    Text.words (t ++ c :: rest) = Text.words t ++ Text.words rest := by
  rw [Text.words, List.splitOnP_append_cons t rest hc, List.filter_append]
  rfl

theorem words_of_word {word : Text} (hne : word ≠ []) (hword : ∀ c ∈ word, ¬Text.isBlank c) :
    Text.words word = [word] := by
  rw [Text.words, List.splitOnP_eq_singleton (by simpa using hword),
    List.filter_cons_of_pos (by simpa using hne), List.filter_nil]

theorem words_of_blank {t : Text} (h : ∀ c ∈ t, Text.isBlank c) : Text.words t = [] := by
  induction t with
  | nil => rfl
  | cons c t ih =>
    rw [List.forall_mem_cons] at h
    exact (words_append_cons h.1 [] t).trans (ih h.2)

theorem words_dropEndWhile {p : Char → Bool} (hp : ∀ c, p c → Text.isBlank c) (t : Text) :
    Text.words (Text.dropEndWhile p t) = Text.words t := by
  obtain ⟨dropped, hdropped, ht⟩ := Text.exists_eq_dropEndWhile_append p t
  conv_rhs => rw [ht]
  cases dropped with
  | nil => rw [List.append_nil]
  | cons c rest =>
    rw [List.forall_mem_cons] at hdropped
    rw [words_append_cons (hp c hdropped.1), words_of_blank fun x hx => hp x (hdropped.2 x hx),
      List.append_nil]

theorem flatten_words (t : Text) : (Text.words t).flatten = t.filter fun c => !Text.isBlank c := by
  rw [Text.words, List.flatten_filter_ne_nil]
  induction t with
  | nil => rfl
  | cons c t ih =>
    rw [List.splitOnP_cons_eq_if_modifyHead]
    by_cases hc : Text.isBlank c
    · rw [if_pos hc, List.flatten_cons, ih, List.filter_cons_of_neg (by simp [hc])]
      rfl
    · obtain ⟨part, parts, hparts⟩ := List.exists_cons_of_ne_nil (List.splitOnP_ne_nil Text.isBlank t)
      rw [hparts] at ih ⊢
      rw [if_neg hc, List.modifyHead_cons, List.flatten_cons, List.cons_append, ← List.flatten_cons, ih,
        List.filter_cons_of_pos (by simp [hc])]

/-- What follows the last word of a text is lost with the white space at its end. -/
theorem trimEnd_isPrefix_of_words_eq {front line : Text} (h : front <+: line)
    (hwords : Text.words front = Text.words line) :
    Text.trimEnd line <+: front := by
  obtain ⟨rest, rfl⟩ := h
  have hchars := congrArg List.flatten hwords
  rw [flatten_words, flatten_words, List.filter_append, List.self_eq_append_right,
    List.filter_eq_nil_iff] at hchars
  have hrest : ∀ c ∈ rest, Text.isBlank c := fun c hc => by simpa using hchars c hc
  rw [Text.trimEnd, Text.dropEndWhile_append_of_forall front hrest]
  exact List.rdropWhile_prefix Text.isBlank front

theorem words_dropReturns (t : Text) : Text.words (Text.dropEndWhile (· = '\r') t) = Text.words t := by
  apply words_dropEndWhile
  intro c hc
  rw [of_decide_eq_true hc]
  decide

end HttpEcho
