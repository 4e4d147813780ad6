import HttpEcho.Proofs.Numeral
import Mathlib.Algebra.Group.Nat.Defs
import Mathlib.Data.List.Lex

/-!
# Numbers of a fixed width

Numbers written with the same count of digits are in the order of their texts, and each can be taken off
the front of a longer text.
-/

namespace HttpEcho.Text

variable {width m n : Nat} {s t x y : Text}

theorem length_ofNatPadded (hwidth : 0 < width) (hn : n < 10 ^ width) :
    (ofNatPadded width n).length = width := by
  have hle : (ofNat n).length ≤ width := (Nat.length_toDigits_le_iff (by decide) hwidth).mpr hn
  rw [ofNatPadded, List.length_append, List.length_replicate]
  exact Nat.sub_add_cancel hle

/-! ### Order -/

theorem append_lt_append_iff (hlength : s.length = t.length) :
    s ++ x < t ++ y ↔ s < t ∨ s = t ∧ x < y := by
  induction s generalizing t with
  | nil =>
    rw [List.length_eq_zero_iff.mp hlength.symm]
    simp
  | cons c s ih =>
    cases t with
    | nil => cases hlength
    | cons d t =>
      have hiff := ih (Nat.succ.inj hlength)
      simp only [List.cons_append, List.cons_lt_cons_iff, List.cons.injEq, hiff, and_or_left, or_assoc,
        and_assoc]

theorem ofDigitChars_cons_zero (c : Char) (t : Text) : Nat.ofDigitChars 10 (c :: t) 0 =
    10 ^ t.length * (c.toNat - '0'.toNat) + Nat.ofDigitChars 10 t 0 := by
  rw [Nat.ofDigitChars_cons, Nat.mul_zero, Nat.zero_add, Nat.ofDigitChars_eq_ofDigitChars_zero]

theorem ofDigitChars_lt (ht : ∀ c ∈ t, c.isDigit) : Nat.ofDigitChars 10 t 0 < 10 ^ t.length := by
  induction t with
  | nil => decide
  | cons c t ih =>
    rw [List.forall_mem_cons] at ht
    have htail := ih ht.2
    have hdigit : c.toNat - '0'.toNat ≤ 9 := Nat.sub_le_of_le_add (Char.isDigit_iff_toNat.mp ht.1).2
    have hhead : 10 ^ t.length * (c.toNat - '0'.toNat) ≤ 10 ^ t.length * 9 :=
      Nat.mul_le_mul_left _ hdigit
    rw [ofDigitChars_cons_zero, List.length_cons, Nat.pow_succ]
    omega

theorem mul_add_lt_mul_add_iff {size q r q' r' : Nat} (hr : r < size) (hr' : r' < size) :
    size * q + r < size * q' + r' ↔ q < q' ∨ q = q' ∧ r < r' := by
  rcases Nat.lt_trichotomy q q' with hlt | rfl | hgt
  · have hle := Nat.mul_le_mul_left size (Nat.succ_le_of_lt hlt)
    rw [Nat.mul_succ] at hle
    omega
  · omega
  · have hle := Nat.mul_le_mul_left size (Nat.succ_le_of_lt hgt)
    rw [Nat.mul_succ] at hle
    omega

theorem digits_lt_iff (hs : ∀ c ∈ s, c.isDigit) (ht : ∀ c ∈ t, c.isDigit)
    (hlength : s.length = t.length) :
    s < t ↔ Nat.ofDigitChars 10 s 0 < Nat.ofDigitChars 10 t 0 := by
  induction s generalizing t with
  | nil =>
    rw [List.length_eq_zero_iff.mp hlength.symm]
    simp
  | cons c s ih =>
    cases t with
    | nil => cases hlength
    | cons d t =>
      rw [List.forall_mem_cons] at hs ht
      have hlength : s.length = t.length := Nat.succ.inj hlength
      have hc := (Char.isDigit_iff_toNat.mp hs.1).1
      have hd := (Char.isDigit_iff_toNat.mp ht.1).1
      have hlt : c < d ↔ c.toNat - '0'.toNat < d.toNat - '0'.toNat :=
        (Nat.sub_lt_sub_iff_right hc).symm
      have heq : c = d ↔ c.toNat - '0'.toNat = d.toNat - '0'.toNat := by
        rw [← Char.toNat_inj]
        omega
      have hsmall := ofDigitChars_lt hs.2
      have hsmall' := ofDigitChars_lt ht.2
      rw [hlength] at hsmall
      rw [List.cons_lt_cons_iff, hlt, heq, ih hs.2 ht.2 hlength, ofDigitChars_cons_zero,
        ofDigitChars_cons_zero, hlength, mul_add_lt_mul_add_iff hsmall hsmall']

theorem IsNumeral.lt_iff (hs : IsNumeral s m) (ht : IsNumeral t n) (hlength : s.length = t.length) :
    s < t ↔ m < n := by
  rw [digits_lt_iff hs.isDigit ht.isDigit hlength, hs.value_eq, ht.value_eq]

theorem ofNatPadded_lt_iff (hwidth : 0 < width) (hm : m < 10 ^ width) (hn : n < 10 ^ width) :
    ofNatPadded width m < ofNatPadded width n ↔ m < n := by
  have hlength : (ofNatPadded width m).length = (ofNatPadded width n).length := by
    rw [length_ofNatPadded hwidth hm, length_ofNatPadded hwidth hn]
  exact (isNumeral_ofNatPadded width m).lt_iff (isNumeral_ofNatPadded width n) hlength

theorem ofNatPadded_inj : ofNatPadded width m = ofNatPadded width n ↔ m = n := by
  refine ⟨fun h => ?_, congrArg _⟩
  rw [← (isNumeral_ofNatPadded width m).value_eq, h, (isNumeral_ofNatPadded width n).value_eq]

theorem ofNatPadded_append_lt_iff (hwidth : 0 < width) (hm : m < 10 ^ width) (hn : n < 10 ^ width) :
    ofNatPadded width m ++ x < ofNatPadded width n ++ y ↔ m < n ∨ m = n ∧ x < y := by
  have hlength : (ofNatPadded width m).length = (ofNatPadded width n).length := by
    rw [length_ofNatPadded hwidth hm, length_ofNatPadded hwidth hn]
  rw [append_lt_append_iff hlength, ofNatPadded_lt_iff hwidth hm hn, ofNatPadded_inj]

/-! ### Reading -/

/-- A number of `width` digits, and what comes after it. -/
def takeNumber? (width : Nat) (t : Text) : Option (Nat × Text) :=
  if width ≤ t.length ∧ (t.take width).all Char.isDigit then
    some (Nat.ofDigitChars 10 (t.take width) 0, t.drop width)
  else none

/-- What comes after a `c`. -/
def skip? (c : Char) : Text → Option Text
  | [] => none
  | d :: rest => if d = c then some rest else none

@[simp]
theorem skip?_cons (c : Char) (rest : Text) : skip? c (c :: rest) = some rest := if_pos rfl

theorem takeNumber?_ofNatPadded (hwidth : 0 < width) (hn : n < 10 ^ width) (rest : Text) :
    takeNumber? width (ofNatPadded width n ++ rest) = some (n, rest) := by
  have hlength := length_ofNatPadded hwidth hn
  have hnumeral := isNumeral_ofNatPadded width n
  have hle : width ≤ (ofNatPadded width n ++ rest).length := by
    rw [List.length_append, hlength]
    exact Nat.le_add_right _ _
  rw [takeNumber?, List.take_left' hlength, List.drop_left' hlength,
    if_pos ⟨hle, List.all_eq_true.mpr hnumeral.isDigit⟩, hnumeral.value_eq]

end HttpEcho.Text
