import HttpEcho.Text.Numeral
import Mathlib.Data.Nat.Init

/-!
# Reading decimal numbers

A run of digits is read as its value exactly when that is within the limit, so a size that was written
is read back.
-/

namespace HttpEcho.Text

variable {limit m n : Nat} {overflow : NumeralError} {t : Text}

theorem digit?_eq_some_iff {c : Char} {d : Nat} :
    digit? c = some d ↔ c.isDigit ∧ d = c.toNat - '0'.toNat := by
  unfold digit?
  split
  · next h => simp [h, eq_comm]
  · next h => simp [h]

theorem le_ofDigitChars (t : Text) (n : Nat) : n ≤ Nat.ofDigitChars 10 t n := by
  induction t generalizing n with
  | nil => exact Nat.le_refl n
  | cons c rest ih =>
    rw [Nat.ofDigitChars_cons]
    have := ih (10 * n + (c.toNat - '0'.toNat))
    omega

theorem readDigits_eq_ok_iff (hn : n ≤ limit) :
    readDigits limit overflow n t = .ok m ↔
      (∀ c ∈ t, c.isDigit) ∧ Nat.ofDigitChars 10 t n = m ∧ m ≤ limit := by
  induction t generalizing n with
  | nil =>
    simp only [readDigits, Except.ok.injEq, List.not_mem_nil, false_implies, implies_true, true_and,
      Nat.ofDigitChars_nil]
    constructor
    · rintro rfl
      exact ⟨rfl, hn⟩
    · exact fun h => h.1
  | cons c rest ih =>
    rw [List.forall_mem_cons, Nat.ofDigitChars_cons]
    by_cases hc : c.isDigit
    · have hdigit : digit? c = some (c.toNat - '0'.toNat) := digit?_eq_some_iff.mpr ⟨hc, rfl⟩
      simp only [readDigits, hdigit]
      split
      · next hle => rw [ih hle]; simp [hc]
      · next hlarge =>
        have hgrow := le_ofDigitChars rest (10 * n + (c.toNat - '0'.toNat))
        constructor
        · intro h; cases h
        · rintro ⟨-, rfl, hle⟩
          exact absurd (Nat.le_trans hgrow hle) hlarge
    · have hdigit : digit? c = none := by rw [digit?, if_neg hc]
      simp [readDigits, hdigit, hc]

theorem ofNat_ne_nil (n : Nat) : ofNat n ≠ [] := Nat.toDigits_ne_nil

theorem isDigit_of_mem_ofNat {c : Char} (hc : c ∈ ofNat n) : c.isDigit :=
  Nat.isDigit_of_mem_toDigits (by decide) (by decide) hc

theorem readUnsigned_of_ne_nil (ht : t ≠ []) :
    readUnsigned limit overflow t = readDigits limit overflow 0 t := by
  cases t with
  | nil => exact absurd rfl ht
  | cons c rest => rfl

/-- Digits with the value `n`. There may be zeros in front. -/
structure IsNumeral (t : Text) (n : Nat) : Prop where
  ne_nil : t ≠ []
  isDigit : ∀ c ∈ t, c.isDigit
  value_eq : Nat.ofDigitChars 10 t 0 = n

theorem readUnsigned_eq_ok_iff :
    readUnsigned limit overflow t = .ok n ↔ IsNumeral t n ∧ n ≤ limit := by
  by_cases ht : t = []
  · rw [ht, readUnsigned]
    constructor
    · intro h
      cases h
    · exact fun h => absurd rfl h.1.ne_nil
  · rw [readUnsigned_of_ne_nil ht, readDigits_eq_ok_iff (Nat.zero_le limit)]
    exact ⟨fun ⟨hdigit, hvalue, hle⟩ => ⟨⟨ht, hdigit, hvalue⟩, hle⟩,
      fun ⟨⟨_, hdigit, hvalue⟩, hle⟩ => ⟨hdigit, hvalue, hle⟩⟩

theorem IsNumeral.notMem {c : Char} (h : IsNumeral t n) (hc : ¬c.isDigit) : c ∉ t :=
  fun hmem => hc (h.isDigit c hmem)

theorem IsNumeral.head?_ne {c : Char} (h : IsNumeral t n) (hc : ¬c.isDigit) : t.head? ≠ some c :=
  fun hhead => h.notMem hc (List.mem_of_mem_head? hhead)

theorem isDigit_of_readUnsigned (h : readUnsigned limit overflow t = .ok n) :
    ∀ c ∈ t, c.isDigit :=
  (readUnsigned_eq_ok_iff.mp h).1.isDigit

theorem readNat_plus_eq_ok_iff : readNat limit ('+' :: t) = .ok n ↔ IsNumeral t n ∧ n ≤ limit :=
  readUnsigned_eq_ok_iff

theorem readNat_eq_ok_iff (hplus : t.head? ≠ some '+') :
    readNat limit t = .ok n ↔ IsNumeral t n ∧ n ≤ limit := by
  by_cases hnil : t = []
  · rw [hnil, readNat]
    constructor
    · intro h
      cases h
    · exact fun h => absurd rfl h.1.ne_nil
  · rw [readNat, readUnsigned_eq_ok_iff]
    · exact hnil
    · rintro digits rfl
      exact hplus rfl

theorem isNumeral_ofNat (n : Nat) : IsNumeral (ofNat n) n :=
  ⟨ofNat_ne_nil n, fun _ => isDigit_of_mem_ofNat, Nat.ofDigitChars_ten_toDigits⟩

theorem isNumeral_ofNatPadded (width n : Nat) : IsNumeral (ofNatPadded width n) n where
  ne_nil := List.append_ne_nil_of_right_ne_nil _ (ofNat_ne_nil n)
  isDigit := by
    intro c hc
    rcases List.mem_append.mp hc with hc | hc
    · rw [List.eq_of_mem_replicate hc]
      decide
    · exact isDigit_of_mem_ofNat hc
  value_eq := by
    rw [ofNatPadded, Nat.ofDigitChars_append, Nat.ofDigitChars_replicate_zero, Nat.mul_zero]
    exact Nat.ofDigitChars_ten_toDigits

theorem toOption_readNat_ofNat (hn : n ≤ limit) : (readNat limit (ofNat n)).toOption = some n := by
  have hnumeral := isNumeral_ofNat n
  rw [(readNat_eq_ok_iff (hnumeral.head?_ne (by decide))).mpr ⟨hnumeral, hn⟩]
  rfl

theorem readSize?_ofNat (hn : n ≤ maxSize) : readSize? (ofNat n) = some n :=
  toOption_readNat_ofNat hn

/-- A size is written with digits and at most a plus sign. -/
theorem isDigit_or_eq_plus_of_readSize? (h : readSize? t = some n) :
    ∀ c ∈ t, c.isDigit ∨ c = '+' := by
  have hnat : readNat maxSize t = .ok n := by
    unfold readSize? at h
    cases hread : readNat maxSize t with
    | error e => rw [hread] at h; cases h
    | ok k => rw [hread] at h; exact congrArg _ (Option.some.inj h)
  intro c hc
  unfold readNat at hnat
  split at hnat
  · cases hnat
  · rcases List.mem_cons.mp hc with rfl | hc
    · exact Or.inr rfl
    · exact Or.inl (isDigit_of_readUnsigned hnat c hc)
  · exact Or.inl (isDigit_of_readUnsigned hnat c hc)

end HttpEcho.Text
