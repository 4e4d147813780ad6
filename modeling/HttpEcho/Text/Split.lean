import HttpEcho.Text.Basic

/-!
# Cutting text into parts
-/

namespace HttpEcho.Text

/-- The parts before and after the first `sep`, which belongs to neither. -/
def cut? (sep : Char) : Text → Option (Text × Text)
  | [] => none
  | c :: rest =>
    if c = sep then some ([], rest) else (cut? sep rest).map fun (before, after) => (c :: before, after)

def cutAt? (pattern : Text) : Text → Option (Text × Text)
  | [] => if pattern = [] then some ([], []) else none
  | c :: rest =>
    if pattern.isPrefixOf (c :: rest) then
      some ([], (c :: rest).drop pattern.length)
    else
      (cutAt? pattern rest).map fun (before, after) => (c :: before, after)

/-- The maximal runs of characters that are not white space. -/
def words (t : Text) : List Text := (t.splitOnP isBlank).filter (· ≠ [])

/-- Lines end at a line feed, and one carriage return before it belongs to the ending. What follows
the last line feed is a line unless it is empty. -/
def lines (t : Text) : List Text :=
  let parts := t.splitOn '\n'
  let ended := parts.dropLast.map fun line => if line.getLast? = some '\r' then line.dropLast else line
  match parts.getLast? with
  | none | some [] => ended
  | some rest => ended ++ [rest]

def firstLine (t : Text) : Text := t.takeWhile (· ≠ '\n')

theorem cut?_append {sep : Char} {before : Text} (hbefore : sep ∉ before) (after : Text) :
    cut? sep (before ++ sep :: after) = some (before, after) := by
  induction before with
  | nil => simp [cut?]
  | cons c before ih =>
    simp only [List.mem_cons, not_or] at hbefore
    simp [cut?, Ne.symm hbefore.1, ih hbefore.2]

theorem cut?_eq_none_iff {sep : Char} {t : Text} : cut? sep t = none ↔ sep ∉ t := by
  induction t with
  | nil => simp [cut?]
  | cons c rest ih =>
    by_cases h : c = sep
    · simp [cut?, h]
    · simp [cut?, h, ih, Ne.symm h]

theorem cut?_eq_some {sep : Char} {t before after : Text} (h : cut? sep t = some (before, after)) :
    t = before ++ sep :: after ∧ sep ∉ before := by
  induction t generalizing before with
  | nil => simp [cut?] at h
  | cons c rest ih =>
    by_cases hc : c = sep
    · simp only [cut?, hc, ↓reduceIte, Option.some.injEq, Prod.mk.injEq] at h
      obtain ⟨rfl, rfl⟩ := h
      simp [hc]
    · simp only [cut?, hc, ↓reduceIte, Option.map_eq_some_iff, Prod.mk.injEq, Prod.exists] at h
      obtain ⟨b, a, hcut, rfl, rfl⟩ := h
      obtain ⟨rfl, hmem⟩ := ih hcut
      simp [hmem, Ne.symm hc]

/-- A pattern is cut out where it first occurs. -/
theorem cutAt?_append {pattern before after : Text}
    (hfirst : ∀ front back, before ++ pattern ++ after = front ++ pattern ++ back →
      before.length ≤ front.length) :
    cutAt? pattern (before ++ pattern ++ after) = some (before, after) := by
  induction before with
  | nil =>
    rw [List.nil_append]
    cases hall : pattern ++ after with
    | nil =>
      obtain ⟨rfl, rfl⟩ := List.append_eq_nil_iff.mp hall
      rfl
    | cons c rest =>
      have hprefix : pattern.isPrefixOf (c :: rest) := by
        rw [List.isPrefixOf_iff_prefix, ← hall]
        exact List.prefix_append pattern after
      rw [cutAt?, if_pos hprefix, ← hall, List.drop_left]
  | cons c before ih =>
    have hprefix : ¬pattern.isPrefixOf (c :: (before ++ pattern ++ after)) := by
      rw [List.isPrefixOf_iff_prefix]
      rintro ⟨back, hback⟩
      exact absurd (hfirst [] back hback.symm) (Nat.not_succ_le_zero _)
    have hrest : cutAt? pattern (before ++ pattern ++ after) = some (before, after) := by
      refine ih fun front back h => ?_
      exact Nat.le_of_succ_le_succ (hfirst (c :: front) back (congrArg (c :: ·) h))
    rw [List.cons_append, List.cons_append, cutAt?, if_neg hprefix, hrest]
    rfl

theorem length_le_of_notMem {c : Char} {pattern before after front back : Text} (hbefore : c ∉ before)
    (h : before ++ c :: pattern ++ after = front ++ c :: pattern ++ back) :
    before.length ≤ front.length := by
  rw [List.append_assoc, List.append_assoc] at h
  rcases List.append_eq_append_iff.mp h with ⟨rest, hfront, -⟩ | ⟨rest, hbefore', hrest⟩
  · rw [hfront, List.length_append]
    exact Nat.le_add_right _ _
  · cases rest with
    | nil => exact Nat.le_of_eq (by rw [hbefore', List.append_nil])
    | cons x rest =>
      rw [List.cons_append] at hrest
      rw [hbefore', (List.cons.inj hrest).1] at hbefore
      simp at hbefore

theorem cutAt?_append_of_notMem {c : Char} {pattern before : Text} (hbefore : c ∉ before) (after : Text) :
    cutAt? (c :: pattern) (before ++ c :: pattern ++ after) = some (before, after) :=
  cutAt?_append fun _ _ => length_le_of_notMem hbefore

theorem cutAt?_eq_none_of_not_isInfix {pattern t : Text} (h : ¬pattern <:+: t) : cutAt? pattern t = none := by
  induction t with
  | nil =>
    rw [cutAt?, if_neg]
    rintro rfl
    exact h (List.nil_infix)
  | cons c rest ih =>
    have hprefix : ¬pattern.isPrefixOf (c :: rest) := fun hpre =>
      h (List.isPrefixOf_iff_prefix.mp hpre).isInfix
    have hrest : ¬pattern <:+: rest := fun hin => h (hin.trans (List.suffix_cons c rest).isInfix)
    rw [cutAt?, if_neg hprefix, ih hrest]
    rfl

end HttpEcho.Text
