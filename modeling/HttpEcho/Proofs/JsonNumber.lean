import HttpEcho.Json.Lexeme
import HttpEcho.Proofs.JsonGrammar
import HttpEcho.Proofs.Numeral
import Mathlib.Data.Option.Basic

/-!
# Reading numbers

A word is read if and only if it is written as a number or is one of three names, and a number is read as
its parts. A whole number is written without leading zero, fraction and exponent, so it is read back, and
what is read as a whole number lies within the range.
-/

namespace HttpEcho.Json

open Numeral

/-! ### Digits -/

theorem digit?_eq_some_iff_digitChar {c : Char} {d : Nat} :
    Text.digit? c = some d ↔ d < 10 ∧ c = d.digitChar := by
  have hdigits : ∀ n : Nat, n < 10 → n.digitChar.toNat = 48 + n ∧ Text.digit? n.digitChar = some n := by decide
  constructor
  · intro h
    obtain ⟨hdigit, rfl⟩ := Text.digit?_eq_some_iff.mp h
    rw [Char.isDigit, Bool.and_eq_true, decide_eq_true_eq, decide_eq_true_eq] at hdigit
    have hlow : 48 ≤ c.toNat := hdigit.1
    have hhigh : c.toNat ≤ 57 := hdigit.2
    have hlt : c.toNat - '0'.toNat < 10 := by
      have : '0'.toNat = 48 := rfl
      omega
    refine ⟨hlt, Char.toNat_inj.mp ?_⟩
    rw [(hdigits _ hlt).1]
    exact (Nat.add_sub_cancel' hlow).symm
  · rintro ⟨hd, rfl⟩
    exact (hdigits d hd).2

theorem eq_digitText_append (t : Text) :
    t = digitText (digits t).1 ++ (digits t).2 ∧ ∀ d ∈ (digits t).1, d < 10 := by
  induction t with
  | nil => exact ⟨rfl, fun d hd => by cases hd⟩
  | cons c t ih =>
    rw [digits]
    cases hdigit : Text.digit? c with
    | none => exact ⟨rfl, fun d hd => by cases hd⟩
    | some d =>
      obtain ⟨hd, rfl⟩ := digit?_eq_some_iff_digitChar.mp hdigit
      exact ⟨congrArg _ ih.1, List.forall_mem_cons.mpr ⟨hd, ih.2⟩⟩

/-- Digits are read up to something else. -/
theorem digits_digitText_append {ds : List Nat} (hds : ∀ d ∈ ds, d < 10) {rest : Text}
    (hrest : ∀ c, rest.head? = some c → Text.digit? c = none) :
    digits (digitText ds ++ rest) = (ds, rest) := by
  induction ds with
  | nil =>
    cases rest with
    | nil => rfl
    | cons c rest =>
      have hc := hrest c rfl
      simp only [digitText, List.map_nil, List.nil_append, digits, hc]
  | cons d ds ih =>
    rw [List.forall_mem_cons] at hds
    have hdigit := digit?_eq_some_iff_digitChar.mpr ⟨hds.1, rfl⟩
    rw [digitText, List.map_cons, List.cons_append, ← digitText, digits, hdigit]
    simp only [ih hds.2]

theorem digits_digitText {ds : List Nat} (hds : ∀ d ∈ ds, d < 10) : digits (digitText ds) = (ds, []) := by
  rw [← List.append_nil (digitText ds)]
  exact digits_digitText_append hds fun c hc => by cases hc

/-! ### The exponent -/

/-- Whether a number is negative, and what is left without its sign. -/
def cutSign : Text → Bool × Text
  | '+' :: rest => (false, rest)
  | '-' :: rest => (true, rest)
  | rest => (false, rest)

theorem exists_sign (t : Text) : ∃ sign, t = sign ++ (cutSign t).2 ∧
    (sign, (cutSign t).1) ∈ [([], false), (['+'], false), (['-'], true)] := by
  unfold cutSign
  split
  · exact ⟨['+'], rfl, by simp⟩
  · exact ⟨['-'], rfl, by simp⟩
  · exact ⟨[], rfl, by simp⟩

theorem cutSign_append_digitText {sign : Text} {negative : Bool} {ds : List Nat}
    (hsign : (sign, negative) ∈ [([], false), (['+'], false), (['-'], true)]) (hne : ds ≠ [])
    (hds : ∀ d ∈ ds, d < 10) : cutSign (sign ++ digitText ds) = (negative, digitText ds) := by
  obtain ⟨d, ds, rfl⟩ := List.exists_cons_of_ne_nil hne
  have hchar : ∀ n : Nat, n < 10 → n.digitChar ≠ '+' ∧ n.digitChar ≠ '-' := by decide
  obtain ⟨hplus, hminus⟩ := hchar d (hds d List.mem_cons_self)
  simp only [List.mem_cons, Prod.mk.injEq, List.not_mem_nil, or_false] at hsign
  rcases hsign with ⟨rfl, rfl⟩ | ⟨rfl, rfl⟩ | ⟨rfl, rfl⟩
  · rw [List.nil_append, digitText, List.map_cons, cutSign.eq_3]
    · exact fun rest h => hplus (List.cons.inj h).1
    · exact fun rest h => hminus (List.cons.inj h).1
  · rfl
  · rfl

theorem readExponent?_cons (mark : Char) (rest : Text) :
    readExponent? (mark :: rest) =
      if mark = 'e' ∨ mark = 'E' then
        match digits (cutSign rest).2 with
        | ([], _) => none
        | (power, []) => some (some ((cutSign rest).1, power))
        | (_, _ :: _) => none
      else none := rfl

theorem readExponent?_eq_some_iff {t : Text} {e : Option (Bool × List Nat)} :
    readExponent? t = some e ↔ WrittenExponent t e := by
  constructor
  · intro h
    cases t with
    | nil =>
      obtain rfl := Option.some.inj h
      exact .none
    | cons mark rest =>
      rw [readExponent?_cons] at h
      split at h
      · next hmark =>
        obtain ⟨sign, hrest, hsign⟩ := exists_sign rest
        obtain ⟨hdigits, hlt⟩ := eq_digitText_append (cutSign rest).2
        split at h
        · cases h
        · next power hne hpower =>
          obtain rfl := Option.some.inj h
          rw [hpower] at hdigits hlt
          rw [List.append_nil] at hdigits
          have htext : mark :: rest = mark :: sign ++ digitText power := by
            rw [List.cons_append, ← hdigits, ← hrest]
          rw [htext]
          exact .power hmark hsign hne hlt
        · cases h
      · cases h
  · intro h
    cases h with
    | none => rfl
    | @power mark sign negative ds hmark hsign hne hds =>
      rw [List.cons_append, readExponent?_cons, if_pos hmark, cutSign_append_digitText hsign hne hds,
        digits_digitText hds]
      obtain ⟨d, ds, rfl⟩ := List.exists_cons_of_ne_nil hne
      rfl

/-- Where an exponent may begin, a fraction has ended. -/
theorem head?_of_writtenExponent {t : Text} {e : Option (Bool × List Nat)} (h : WrittenExponent t e) :
    ∀ c, t.head? = some c → Text.digit? c = none ∧ c ≠ '.' := by
  cases h with
  | none => exact fun c hc => by cases hc
  | power hmark =>
    intro c hc
    rw [← Option.some.inj hc]
    rcases hmark with rfl | rfl <;> decide

/-! ### The fraction -/

def fractionText (fraction : List Nat) : Text := if fraction = [] then [] else '.' :: digitText fraction

/-- The digits behind a point, and what follows them. -/
def cutFraction? : Text → Option (List Nat × Text)
  | '.' :: rest =>
    match digits rest with
    | ([], _) => none
    | (fraction, rest) => some (fraction, rest)
  | rest => some ([], rest)

theorem eq_of_cutFraction? {t rest : Text} {fraction : List Nat}
    (h : cutFraction? t = some (fraction, rest)) :
    t = fractionText fraction ++ rest ∧ ∀ d ∈ fraction, d < 10 := by
  unfold cutFraction? at h
  split at h
  · next more =>
    obtain ⟨hdigits, hlt⟩ := eq_digitText_append more
    split at h
    · cases h
    · next ds after hne hcut =>
      obtain ⟨rfl, rfl⟩ := Prod.mk.inj (Option.some.inj h)
      rw [hcut] at hdigits hlt
      rw [fractionText, if_neg hne, hdigits]
      exact ⟨rfl, hlt⟩
  · obtain ⟨rfl, rfl⟩ := Prod.mk.inj (Option.some.inj h)
    exact ⟨rfl, fun d hd => by cases hd⟩

theorem cutFraction?_of_no_point {t : Text} (h : ∀ rest, t ≠ '.' :: rest) : cutFraction? t = some ([], t) := by
  unfold cutFraction?
  split
  · next rest => exact absurd rfl (h rest)
  · rfl

theorem cutFraction?_append {fraction : List Nat} (hlt : ∀ d ∈ fraction, d < 10) {rest : Text}
    (hrest : ∀ c, rest.head? = some c → Text.digit? c = none ∧ c ≠ '.') :
    cutFraction? (fractionText fraction ++ rest) = some (fraction, rest) := by
  by_cases hne : fraction = []
  · rw [hne, fractionText, if_pos rfl, List.nil_append, cutFraction?_of_no_point]
    rintro more rfl
    exact (hrest '.' rfl).2 rfl
  · rw [fractionText, if_neg hne, List.cons_append, cutFraction?,
      digits_digitText_append hlt fun c hc => (hrest c hc).1]
    obtain ⟨d, ds, rfl⟩ := List.exists_cons_of_ne_nil hne
    rfl

theorem head?_fractionText_append (fraction : List Nat) {rest : Text}
    (hrest : ∀ c, rest.head? = some c → Text.digit? c = none) :
    ∀ c, (fractionText fraction ++ rest).head? = some c → Text.digit? c = none := by
  intro c hc
  by_cases hnil : fraction = []
  · rw [hnil, fractionText, if_pos rfl, List.nil_append] at hc
    exact hrest c hc
  · rw [fractionText, if_neg hnil] at hc
    rw [← Option.some.inj hc]
    decide

/-! ### All parts -/

def cutMinus : Text → Bool × Text
  | '-' :: rest => (true, rest)
  | t => (false, t)

theorem eq_cutMinus (t : Text) : t = (if (cutMinus t).1 then ['-'] else []) ++ (cutMinus t).2 := by
  unfold cutMinus
  split <;> rfl

theorem cutMinus_append_digitText (negative : Bool) {ds : List Nat} (hne : ds ≠ []) (hds : ∀ d ∈ ds, d < 10)
    (rest : Text) :
    cutMinus ((if negative then ['-'] else []) ++ (digitText ds ++ rest)) =
      (negative, digitText ds ++ rest) := by
  obtain ⟨d, ds, rfl⟩ := List.exists_cons_of_ne_nil hne
  cases negative with
  | true => rfl
  | false =>
    have hchar : ∀ n : Nat, n < 10 → n.digitChar ≠ '-' := by decide
    exact cutMinus.eq_2 _ fun rest h => hchar d (hds d List.mem_cons_self) (List.cons.inj h).1

theorem Numeral.ofText?_eq (t : Text) : Numeral.ofText? t = do
    let unsigned := digits (cutMinus t).2
    guard (unsigned.1 ≠ [] ∧ (unsigned.1.head? = some 0 → unsigned.1 = [0]))
    let cut ← cutFraction? unsigned.2
    let exponent ← readExponent? cut.2
    return ⟨(cutMinus t).1, unsigned.1, cut.1, exponent⟩ := by
  unfold Numeral.ofText? cutMinus
  dsimp only
  generalize digits _ = unsigned
  congr 1
  funext _
  split
  · next rest hpoint =>
    rw [hpoint, cutFraction?]
    obtain ⟨fraction, more⟩ := digits rest
    cases fraction <;> rfl
  · next hpoint =>
    exact (congrArg (· >>= _) (cutFraction?_of_no_point hpoint)).symm

theorem writtenNumber_of_ofText? {t : Text} {n : Numeral} (h : Numeral.ofText? t = some n) :
    WrittenNumber t n := by
  rw [Numeral.ofText?_eq] at h
  simp only [bind, Option.bind_eq_some_iff, Option.guard_eq_some', pure, Option.some.injEq] at h
  obtain ⟨-, ⟨hne, hzero⟩, ⟨fraction, rest⟩, hcut, exponent, hexponent, rfl⟩ := h
  obtain ⟨hdigits, hwhole⟩ := eq_digitText_append (cutMinus t).2
  obtain ⟨hrest, hfraction⟩ := eq_of_cutFraction? hcut
  refine ⟨hne, hzero, hwhole, hfraction, rest, readExponent?_eq_some_iff.mp hexponent, ?_⟩
  rw [List.append_assoc, List.append_assoc, ← fractionText, ← hrest, ← hdigits]
  exact eq_cutMinus t

theorem Numeral.ofText?_eq_some_iff {t : Text} {n : Numeral} :
    Numeral.ofText? t = some n ↔ WrittenNumber t n := by
  refine ⟨writtenNumber_of_ofText?, fun h => ?_⟩
  obtain ⟨hne, hzero, hwhole, hfraction, exponent, hexponent, rfl⟩ := h
  obtain ⟨negative, whole, fraction, power⟩ := n
  dsimp only at *
  have hend := head?_of_writtenExponent hexponent
  have hafter := head?_fractionText_append fraction fun c hc => (hend c hc).1
  rw [Numeral.ofText?_eq, List.append_assoc, List.append_assoc, ← fractionText,
    cutMinus_append_digitText negative hne hwhole]
  dsimp only
  rw [digits_digitText_append hwhole hafter]
  dsimp only
  rw [cutFraction?_append hfraction hend]
  simp only [bind, pure, Option.bind_some, readExponent?_eq_some_iff.mpr hexponent]
  rw [(Option.guard_eq_some' ()).mpr ⟨hne, hzero⟩]
  rfl

/-! ### Words -/

theorem head?_of_writtenNumber {t : Text} {n : Numeral} (h : WrittenNumber t n) :
    ∃ c, t.head? = some c ∧ (c.isDigit ∨ c = '-') := by
  obtain ⟨hne, -, hwhole, -, exponent, -, rfl⟩ := h
  obtain ⟨negative, whole, fraction, power⟩ := n
  obtain ⟨d, ds, rfl⟩ := List.exists_cons_of_ne_nil hne
  cases negative with
  | true => exact ⟨'-', rfl, Or.inr rfl⟩
  | false =>
    have hdigit : ∀ n : Nat, n < 10 → n.digitChar.isDigit := by decide
    exact ⟨d.digitChar, rfl, Or.inl (hdigit d (hwhole d List.mem_cons_self))⟩

/-- The three words that are no numbers are not written with digits. -/
theorem ofWord?_of_writtenNumber {t : Text} {n : Numeral} (h : WrittenNumber t n) :
    ofWord? t = n.value? := by
  obtain ⟨c, hhead, hc⟩ := head?_of_writtenNumber h
  have hword : ∀ word : Text, ∀ x, word.head? = some x → ¬(x.isDigit ∨ x = '-') → t ≠ word := by
    rintro word x hx hnone rfl
    rw [hhead] at hx
    exact hnone (Option.some.inj hx ▸ hc)
  have hnull := hword "null".toList 'n' rfl (by decide)
  have htrue := hword "true".toList 't' rfl (by decide)
  have hfalse := hword "false".toList 'f' rfl (by decide)
  rw [ofWord?, if_neg hnull, if_neg htrue, if_neg hfalse,
    Numeral.ofText?_eq_some_iff.mpr h, Option.bind_some]

theorem ofWord?_eq_some_iff {t : Text} {v : Json} : ofWord? t = some v ↔ WrittenWord t v := by
  constructor
  · intro h
    unfold ofWord? at h
    split at h
    · next hword => rw [hword, ← Option.some.inj h]; exact .null
    split at h
    · next hword => rw [hword, ← Option.some.inj h]; exact .true
    split at h
    · next hword => rw [hword, ← Option.some.inj h]; exact .false
    · obtain ⟨n, hn, hv⟩ := Option.bind_eq_some_iff.mp h
      exact .number (Numeral.ofText?_eq_some_iff.mp hn) hv
  · intro h
    cases h with
    | null => rfl
    | true => rfl
    | false => rfl
    | number h hv => rw [ofWord?_of_writtenNumber h, hv]

/-! ### Whole numbers -/

def digitValues (t : Text) : List Nat := t.map fun c => c.toNat - '0'.toNat

theorem digitValue_spec {c : Char} (hc : c.isDigit) :
    c.toNat - '0'.toNat < 10 ∧ c = (c.toNat - '0'.toNat).digitChar :=
  digit?_eq_some_iff_digitChar.mp (Text.digit?_eq_some_iff.mpr ⟨hc, rfl⟩)

theorem digitText_digitValues {t : Text} (ht : ∀ c ∈ t, c.isDigit) : digitText (digitValues t) = t := by
  rw [digitText, digitValues, List.map_map]
  conv => rhs; rw [← List.map_id t]
  exact List.map_congr_left fun c hc => (digitValue_spec (ht c hc)).2.symm

theorem exponentValue_digitValues (t : Text) :
    exponentValue (digitValues t) = Nat.ofDigitChars 10 t 0 := by
  rw [exponentValue, digitValues, List.foldl_map, Nat.ofDigitChars_eq_foldl]

theorem exists_ofNat_eq_cons {n : Nat} (hn : n ≠ 0) :
    ∃ c rest, Text.ofNat n = c :: rest ∧ c ≠ '0' := by
  induction n using Nat.strong_induction_on with
  | h n ih =>
    rcases Nat.lt_or_ge n 10 with hlow | hhigh
    · have hdigit : ∀ d : Nat, d < 10 → d ≠ 0 → d.digitChar ≠ '0' := by decide
      exact ⟨n.digitChar, [], Nat.toDigits_of_lt_base hlow, hdigit n hlow hn⟩
    · obtain ⟨c, rest, hdigits, hc⟩ := ih (n / 10) (by omega) (by omega)
      refine ⟨c, rest ++ [(n % 10).digitChar], ?_, hc⟩
      rw [Text.ofNat] at hdigits ⊢
      rw [Nat.toDigits_of_base_le (by decide) hhigh, hdigits, List.cons_append]

theorem digitValues_ofNat_of_head? {n : Nat} (h : (digitValues (Text.ofNat n)).head? = some 0) :
    digitValues (Text.ofNat n) = [0] := by
  by_cases hn : n = 0
  · subst hn
    decide
  · obtain ⟨c, rest, hdigits, hc⟩ := exists_ofNat_eq_cons hn
    have hdigit : c.isDigit := Text.isDigit_of_mem_ofNat (hdigits ▸ List.mem_cons_self)
    rw [hdigits, digitValues, List.map_cons, List.head?_cons, Option.some.injEq] at h
    exfalso
    apply hc
    rw [(digitValue_spec hdigit).2, h]
    rfl

theorem writtenNumber_ofNat (negative : Bool) (n : Nat) :
    WrittenNumber ((if negative then ['-'] else []) ++ Text.ofNat n)
      ⟨negative, digitValues (Text.ofNat n), [], none⟩ where
  whole_ne_nil := by
    rw [digitValues, ne_eq, List.map_eq_nil_iff]
    exact Text.ofNat_ne_nil n
  no_leading_zero := digitValues_ofNat_of_head?
  whole_lt := by
    intro d hd
    obtain ⟨c, hc, rfl⟩ := List.mem_map.mp hd
    exact (digitValue_spec (Text.isDigit_of_mem_ofNat hc)).1
  fraction_lt := fun d hd => by cases hd
  text_eq := by
    refine ⟨[], .none, ?_⟩
    dsimp only
    rw [if_pos rfl, digitText_digitValues fun c hc => Text.isDigit_of_mem_ofNat hc, List.append_nil,
      List.append_nil]

theorem writtenWord_ofInt {n : Int} (hn : IntInRange n) : WrittenWord (Text.ofInt n) (.int n) := by
  obtain ⟨hlow, hhigh⟩ := hn
  have hvalue : ∀ m : Nat, exponentValue (digitValues (Text.ofNat m)) = m := by
    intro m
    rw [exponentValue_digitValues]
    exact Nat.ofDigitChars_ten_toDigits
  cases n with
  | ofNat m =>
    refine .number (writtenNumber_ofNat false m) ?_
    have hint : int? ⟨false, digitValues (Text.ofNat m), [], none⟩ = some (Int.ofNat m) := by
      have hmax : ¬maxSignificand < m := by
        have hm : (m : Int) ≤ 18446744073709551615 := hhigh
        rw [maxSignificand]
        omega
      simp [int?, hvalue, hmax]
    rw [value?, hint]
  | negSucc m =>
    refine .number (writtenNumber_ofNat true (m + 1)) ?_
    have hint : int? ⟨true, digitValues (Text.ofNat (m + 1)), [], none⟩ = some (Int.negSucc m) := by
      have hmin : ¬9223372036854775808 < m + 1 := by omega
      simp [int?, hvalue, hmin, Int.negSucc_eq]
    rw [value?, hint]

theorem intInRange_of_int? {numeral : Numeral} {n : Int} (h : numeral.int? = some n) :
    IntInRange n := by
  unfold int? at h
  split at h
  · cases h
  dsimp only at h
  split at h
  · split at h
    · cases h
    · next hsmall =>
      rw [not_or] at hsmall
      rw [← Option.some.inj h, IntInRange]
      omega
  · split at h
    · cases h
    · next hlarge =>
      rw [maxSignificand] at hlarge
      rw [← Option.some.inj h, IntInRange]
      omega

end HttpEcho.Json
