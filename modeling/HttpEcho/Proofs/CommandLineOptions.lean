import HttpEcho.CommandLine
import HttpEcho.Proofs.Numeral
import HttpEcho.Proofs.Parsing
import Mathlib.Data.List.Induction
import Mathlib.Data.List.Nodup

/-!
# Options on the command line

The options that are given may come in any order, each in any of its spellings. What an argument of its
own holds as a value is checked late, but the outcome is as if each option were taken in its turn. A field
of the configuration is then settled by the option, else by its variable, else by the default.
-/

namespace HttpEcho.CommandLine

variable {o : Opt} {value : Text} {front args : List Text} {options : List (Opt × Text)}

/-! ### Spellings -/

/-- Digits whose value is `port`, with at most one sign in front. -/
inductive WritesPort : Text → UInt16 → Prop
  | plain {digits : Text} {port : UInt16} (h : Text.IsNumeral digits port.toNat) : WritesPort digits port
  | plus {digits : Text} {port : UInt16} (h : Text.IsNumeral digits port.toNat) :
    WritesPort ('+' :: digits) port
  | minus {digits : Text} (h : Text.IsNumeral digits 0) : WritesPort ('-' :: digits) 0

variable {port : UInt16}

theorem readPort_eq_ok_iff_readInt :
    readPort value = .ok port ↔ Text.readInt 9223372036854775807 value = .ok (port.toNat : Int) := by
  have hlt : port.toNat < 65536 := port.toNat_lt
  unfold readPort
  cases Text.readInt 9223372036854775807 value with
  | error e => simp
  | ok n =>
    simp only [Except.ok.injEq]
    split
    · next hrange =>
      rw [Except.ok.injEq, ← UInt16.toNat_inj, Nat.toUInt16_eq, UInt16.toNat_ofNat']
      omega
    · next hrange =>
      simp only [reduceCtorEq, false_iff]
      omega

theorem readInt_minus_eq_ok_iff {limit : Nat} {digits : Text} {z : Int} :
    Text.readInt limit ('-' :: digits) = .ok z ↔
      ∃ n, Text.readUnsigned (limit + 1) .tooSmall digits = .ok n ∧ -(n : Int) = z := by
  rw [Text.readInt]
  cases Text.readUnsigned (limit + 1) .tooSmall digits with
  | error e => simp [bind, Except.bind, Except.map]
  | ok m => simp [bind, Except.bind, Except.map, pure, Except.pure]

theorem readInt_eq_ok_iff_readNat {limit n : Nat} (hsign : value.head? ≠ some '-') :
    Text.readInt limit value = .ok (n : Int) ↔ Text.readNat limit value = .ok n := by
  have hread : Text.readInt limit value = (Text.readNat limit value).map Int.ofNat := by
    rw [Text.readInt]
    rintro digits rfl
    exact hsign rfl
  rw [hread, map_eq_ok_iff]
  constructor
  · rintro ⟨m, hm, hcast⟩
    rw [hm, Int.ofNat.inj hcast]
  · exact fun h => ⟨n, h, rfl⟩

theorem writesPort_minus_iff {digits : Text} :
    WritesPort ('-' :: digits) port ↔ Text.IsNumeral digits 0 ∧ port = 0 := by
  constructor
  · intro h
    cases h with
    | plain h => exact absurd rfl (h.head?_ne (by decide))
    | minus h => exact ⟨h, rfl⟩
  · rintro ⟨h, rfl⟩
    exact .minus h

theorem writesPort_plus_iff {digits : Text} :
    WritesPort ('+' :: digits) port ↔ Text.IsNumeral digits port.toNat := by
  constructor
  · intro h
    cases h with
    | plain h => exact absurd rfl (h.head?_ne (by decide))
    | plus h => exact h
  · exact .plus

theorem writesPort_iff (hminus : value.head? ≠ some '-') (hplus : value.head? ≠ some '+') :
    WritesPort value port ↔ Text.IsNumeral value port.toNat := by
  constructor
  · intro h
    cases h with
    | plain h => exact h
    | plus h => exact absurd rfl hplus
    | minus h => exact absurd rfl hminus
  · exact .plain

/-- What is read as a port is exactly what writes one. -/
theorem readPort_eq_ok_iff : readPort value = .ok port ↔ WritesPort value port := by
  have hlt : port.toNat < 65536 := port.toNat_lt
  have hbound : port.toNat ≤ 9223372036854775807 := by omega
  rw [readPort_eq_ok_iff_readInt]
  by_cases hminus : value.head? = some '-'
  · obtain ⟨digits, rfl⟩ := List.head?_eq_some_iff.mp hminus
    rw [readInt_minus_eq_ok_iff, writesPort_minus_iff]
    simp only [Text.readUnsigned_eq_ok_iff]
    constructor
    · rintro ⟨n, ⟨hn, -⟩, hneg⟩
      obtain ⟨rfl, hport⟩ : n = 0 ∧ port.toNat = 0 := by omega
      exact ⟨hn, UInt16.toNat_inj.mp hport⟩
    · rintro ⟨hzero, rfl⟩
      exact ⟨0, ⟨hzero, Nat.zero_le _⟩, rfl⟩
  rw [readInt_eq_ok_iff_readNat hminus]
  by_cases hplus : value.head? = some '+'
  · obtain ⟨digits, rfl⟩ := List.head?_eq_some_iff.mp hplus
    rw [Text.readNat_plus_eq_ok_iff, writesPort_plus_iff, and_iff_left hbound]
  · rw [Text.readNat_eq_ok_iff hplus, writesPort_iff hminus hplus, and_iff_left hbound]

/-! ### The options taken in turn -/

/-- What was taken for an option, if it was. -/
def Shows (g : Given) : Opt → Option Text → Prop
  | .port, none => g.port = none
  | .port, some value => ∃ port, g.port = some port ∧ WritesPort value port
  | .host, value => g.host = value
  | .logLevel, value => g.logLevel = value

/-- Of these options, each was taken with its value, and no other was. -/
def Holds (g : Given) (options : List (Opt × Text)) : Prop := ∀ o, Shows g o (options.lookup o)

variable {g : Given}

theorem has_eq_false (h : Shows g o none) : g.has o = false := by
  cases o with
  | port => rw [Given.has, show g.port = none from h, Option.isSome_none]
  | host => rw [Given.has, show g.host = none from h, Option.isSome_none]
  | logLevel => rw [Given.has, show g.logLevel = none from h, Option.isSome_none]

/-- Setting an option leaves the other ones alone. -/
theorem exists_set (g : Given) (hport : o = .port → ∃ port, WritesPort value port) :
    ∃ g', g.set value o = .ok g' ∧ Shows g' o (some value) ∧
      ∀ other, other ≠ o → ∀ shown, Shows g other shown → Shows g' other shown := by
  cases o with
  | port =>
    obtain ⟨port, hwrites⟩ := hport rfl
    have hset : g.set value .port = .ok { g with port := some port } := by
      rw [Given.set, Given.checkedPort, readPort_eq_ok_iff.mpr hwrites]
      rfl
    refine ⟨_, hset, ⟨port, rfl, hwrites⟩, fun other hne shown h => ?_⟩
    cases other with
    | port => exact absurd rfl hne
    | host => exact h
    | logLevel => exact h
  | host =>
    refine ⟨_, rfl, rfl, fun other hne shown h => ?_⟩
    cases other with
    | port => cases shown <;> exact h
    | host => exact absurd rfl hne
    | logLevel => exact h
  | logLevel =>
    refine ⟨_, rfl, rfl, fun other hne shown h => ?_⟩
    cases other with
    | port => cases shown <;> exact h
    | host => exact h
    | logLevel => exact absurd rfl hne

theorem lookup_concat_self (hnew : options.lookup o = none) (value : Text) :
    (options ++ [(o, value)]).lookup o = some value := by
  rw [List.lookup_append, hnew, List.lookup_cons_self, Option.none_or]

theorem lookup_concat_of_ne {other : Opt} (hne : other ≠ o) (options : List (Opt × Text)) (value : Text) :
    (options ++ [(o, value)]).lookup other = options.lookup other := by
  have hnone : List.lookup other [(o, value)] = none := by
    rw [List.lookup_cons, beq_eq_false_iff_ne.mpr hne]
    rfl
  rw [List.lookup_append, hnone, Option.or_none]

theorem lookup_eq_none (h : o ∉ options.map Prod.fst) : options.lookup o = none := by
  rw [List.lookup_eq_none_iff]
  intro option hmem
  rw [bne_iff_ne]
  rintro rfl
  exact h (List.mem_map_of_mem hmem)

theorem Holds.take (h : Holds g options) (hnew : o ∉ options.map Prod.fst)
    (hport : o = .port → ∃ port, WritesPort value port) :
    ∃ g', g.take o (some value) = .ok g' ∧ Holds g' (options ++ [(o, value)]) := by
  have hnone := lookup_eq_none hnew
  obtain ⟨g', hset, hself, hother⟩ := exists_set g hport
  refine ⟨g', ?_, fun other => ?_⟩
  · have hhas : g.has o = false := has_eq_false (hnone ▸ h o)
    simp only [Given.take, hhas, Bool.false_eq_true, ↓reduceIte, hset]
  · by_cases hsame : other = o
    · rw [hsame, lookup_concat_self hnone]
      exact hself
    · rw [lookup_concat_of_ne hsame]
      exact hother other hsame _ (h other)

end HttpEcho.CommandLine
