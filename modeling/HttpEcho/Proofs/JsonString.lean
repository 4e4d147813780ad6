import HttpEcho.Json.Lexeme
import HttpEcho.Json.Printer
import HttpEcho.Proofs.JsonGrammar

/-!
# Reading strings

What stands between two quotes is read as the characters that are written there, and as nothing if it is not
written in characters. A string that was escaped is read back: each character is written as itself or as one
escape.
-/

namespace HttpEcho.Json

/-! ### One character -/

theorem shortEscape?_eq_some_iff {l c : Char} : shortEscape? l = some c ↔ (l, c) ∈ escapeLetters := by
  constructor
  · intro h
    unfold shortEscape? at h
    split at h <;> cases h <;> decide
  · intro h
    have hall : ∀ pair ∈ escapeLetters, shortEscape? pair.1 = some pair.2 := by decide
    exact hall _ h

theorem hexDigits_of_unit? {a b c d : Char} {n : Nat} (h : unit? a b c d = some n) :
    ∀ x ∈ [a, b, c, d], x ≠ '"' ∧ x ≠ '\\' := by
  simp only [unit?, bind, Option.bind_eq_some_iff] at h
  obtain ⟨_, ha, _, hb, _, hc, _, hd, -⟩ := h
  have hne : ∀ {x : Char} {m : Nat}, Text.hexDigit? x = some m → x ≠ '"' ∧ x ≠ '\\' := by
    intro x m hx
    constructor
    · rintro rfl
      cases hx
    · rintro rfl
      cases hx
  simp only [List.forall_mem_cons, List.not_mem_nil, false_implies, implies_true, and_true]
  exact ⟨hne ha, hne hb, hne hc, hne hd⟩

theorem quotedPart?_cons {c : Char} (hquote : c ≠ '"') (hslash : c ≠ '\\') (t : Text) :
    quotedPart? (c :: t) = (quotedPart? t).map fun (raw, rest) => (c :: raw, rest) := by
  rw [quotedPart?]
  · exact hquote
  · exact fun _ _ h _ => hslash h

theorem quotedPart?_unit {a b c d : Char} {n : Nat} (h : unit? a b c d = some n) (t : Text) :
    quotedPart? ('\\' :: 'u' :: a :: b :: c :: d :: t) =
      (quotedPart? t).map fun (raw, rest) => ('\\' :: 'u' :: a :: b :: c :: d :: raw, rest) := by
  have hne := hexDigits_of_unit? h
  simp only [List.forall_mem_cons] at hne
  rw [quotedPart?, quotedPart?_cons hne.1.1 hne.1.2, quotedPart?_cons hne.2.1.1 hne.2.1.2,
    quotedPart?_cons hne.2.2.1.1 hne.2.2.1.2, quotedPart?_cons hne.2.2.2.1.1 hne.2.2.2.1.2]
  simp only [Option.map_map, Function.comp_def]

/-- No character is written with a quote that would close the string. -/
theorem WrittenChar.quotedPart?_append {part : Text} {c : Char} (h : WrittenChar part c) (t : Text) :
    quotedPart? (part ++ t) = (quotedPart? t).map fun (raw, rest) => (part ++ raw, rest) := by
  cases h with
  | plain hlow hquote hslash => exact quotedPart?_cons hquote hslash t
  | letter h => exact quotedPart?.eq_3 _ t
  | number h hn => exact quotedPart?_unit h t
  | pair h hhigh h' hlow =>
    simp only [List.cons_append, List.nil_append]
    rw [quotedPart?_unit h, quotedPart?_unit h', Option.map_map]
    rfl

theorem unescape?_cons {c : Char} (hlow : 0x20 ≤ c.toNat) (hquote : c ≠ '"') (hslash : c ≠ '\\')
    (t : Text) : unescape? (c :: t) = (unescape? t).map (c :: ·) := by
  have hplain : ¬(c.toNat < 0x20 ∨ c = '"') := by
    rintro (h | h)
    · omega
    · exact hquote h
  rw [unescape?, if_neg hplain]
  · exact fun _ _ _ _ _ h _ => hslash h
  · exact fun _ _ h _ => hslash h
  · exact fun h _ => hslash h

theorem WrittenChar.unescape?_append {part : Text} {c : Char} (h : WrittenChar part c) (t : Text) :
    unescape? (part ++ t) = (unescape? t).map (c :: ·) := by
  cases h with
  | plain hlow hquote hslash => exact unescape?_cons hlow hquote hslash t
  | letter h =>
    have hletter := shortEscape?_eq_some_iff.mpr h
    simp only [List.cons_append, List.nil_append]
    rw [unescape?, hletter]
    rintro _ _ _ _ _ rfl -
    cases hletter
  | number h hn =>
    simp only [List.cons_append, List.nil_append]
    rw [unescape?.eq_def]
    simp only [h, if_pos hn]
  | pair h hhigh h' hlow =>
    simp only [List.cons_append, List.nil_append]
    rw [unescape?.eq_def]
    simp only [h, h', if_pos hlow]
    rw [if_neg (by omega), if_neg (by omega)]

/-! ### All characters -/

theorem WrittenString.quotedPart?_append {raw s : Text} (h : WrittenString raw s) (rest : Text) :
    quotedPart? (raw ++ '"' :: rest) = some (raw, rest) := by
  induction h with
  | nil => rfl
  | cons hpart h ih =>
    rw [List.append_assoc, hpart.quotedPart?_append, ih]
    rfl

theorem eq_append_of_quotedPart? {t raw rest : Text} (h : quotedPart? t = some (raw, rest)) :
    t = raw ++ '"' :: rest := by
  fun_induction quotedPart? t generalizing raw rest with
  | case1 => cases h
  | case2 t =>
    obtain ⟨rfl, rfl⟩ := Prod.mk.inj (Option.some.inj h)
    rfl
  | case3 c t ih =>
    obtain ⟨⟨part, more⟩, hcut, heq⟩ := Option.map_eq_some_iff.mp h
    obtain ⟨rfl, rfl⟩ := Prod.mk.inj heq
    rw [ih hcut]
    rfl
  | case4 c t _ _ ih =>
    obtain ⟨⟨part, more⟩, hcut, heq⟩ := Option.map_eq_some_iff.mp h
    obtain ⟨rfl, rfl⟩ := Prod.mk.inj heq
    rw [ih hcut]
    rfl

theorem writtenString_of_unescape? {raw s : Text} (h : unescape? raw = some s) : WrittenString raw s := by
  fun_induction unescape? raw generalizing s with
  | case1 =>
    obtain rfl := Option.some.inj h
    exact .nil
  | case2 => cases h
  | case3 a b c d rest high hunit hplain ih =>
    obtain ⟨t, ht, rfl⟩ := Option.map_eq_some_iff.mp h
    exact .cons (.number hunit hplain) (ih ht)
  | case6 a b c d high hunit hplain hlow a' b' c' d' rest' low hunit' hlow' ih =>
    obtain ⟨t, ht, rfl⟩ := Option.map_eq_some_iff.mp h
    exact .cons (.pair hunit (by omega) hunit' hlow') (ih ht)
  | case10 l rest hnumber c hletter ih =>
    obtain ⟨t, ht, rfl⟩ := Option.map_eq_some_iff.mp h
    exact .cons (.letter (shortEscape?_eq_some_iff.mp hletter)) (ih ht)
  | case13 c rest hnumber hletter hend hplain ih =>
    obtain ⟨t, ht, rfl⟩ := Option.map_eq_some_iff.mp h
    have hslash : c ≠ '\\' := by
      rintro rfl
      cases rest with
      | nil => exact hend rfl rfl
      | cons x rest => exact hletter x rest rfl rfl
    rw [not_or] at hplain
    exact .cons (.plain (Nat.le_of_not_lt hplain.1) hplain.2 hslash) (ih ht)
  | _ => cases h

theorem unescape?_eq_some_iff {raw s : Text} : unescape? raw = some s ↔ WrittenString raw s := by
  constructor
  · exact writtenString_of_unescape?
  · intro h
    induction h with
    | nil => rfl
    | cons hpart h ih => rw [hpart.unescape?_append, ih, Option.map_some]

/-! ### Escaped strings -/

/-- Control characters without a letter of their own are written as numbers. -/
theorem writtenChar_control {c : Char} (hc : c.toNat < 0x20) :
    WrittenChar ['\\', 'u', '0', '0', hexDigit (c.toNat / 16), hexDigit (c.toNat % 16)] c := by
  have hunit : ∀ n : Nat, n < 0x20 → unit? '0' '0' (hexDigit (n / 16)) (hexDigit (n % 16)) = some n := by decide
  have hnumber := WrittenChar.number (hunit c.toNat hc) (Or.inl (by omega))
  rwa [Char.ofNat_toNat] at hnumber

theorem writtenChar_escapeChar (c : Char) : WrittenChar (escapeChar c) c := by
  unfold escapeChar
  split
  · next h => rw [h]; exact .letter (by decide)
  next hquote =>
  split
  · next h => rw [h]; exact .letter (by decide)
  next hslash =>
  iterate 5
    split
    · next h => rw [h]; exact .letter (by decide)
  split
  · next h => exact writtenChar_control h
  · next h => exact .plain (Nat.le_of_not_lt h) hquote hslash

theorem writtenString_escape (t : Text) : WrittenString (escape t) t := by
  induction t with
  | nil => exact .nil
  | cons c t ih => exact .cons (writtenChar_escapeChar c) ih

end HttpEcho.Json
