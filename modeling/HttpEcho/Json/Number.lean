import HttpEcho.Json.Value
import HttpEcho.Text.Numeral

/-!
# Numbers

A number without fraction and exponent that fits a 64-bit word is a whole number. Any other is a
float: its digits are gathered in a 64-bit significand, as many as fit, and the significand is scaled
once by a power of ten.
-/

namespace HttpEcho.Json

/-- The parts of a number as written. The digits are values below ten. -/
structure Numeral where
  negative : Bool
  whole : List Nat
  fraction : List Nat
  /-- Whether the exponent is negative, and its digits. -/
  exponent : Option (Bool × List Nat)
  deriving DecidableEq, Repr

namespace Numeral

def digits : Text → List Nat × Text
  | [] => ([], [])
  | c :: rest =>
    match Text.digit? c with
    | none => ([], c :: rest)
    | some d => ((d :: (digits rest).1), (digits rest).2)

def readExponent? : Text → Option (Option (Bool × List Nat))
  | [] => some none
  | e :: rest =>
    if e = 'e' ∨ e = 'E' then
      let (negative, rest) := match rest with
        | '+' :: rest => (false, rest)
        | '-' :: rest => (true, rest)
        | rest => (false, rest)
      match digits rest with
      | ([], _) => none
      | (power, []) => some (some (negative, power))
      | (_, _ :: _) => none
    else
      none

/-- No leading zero, and at least one digit on either side of the point. -/
def ofText? (t : Text) : Option Numeral := do
  let (negative, t) := match t with
    | '-' :: rest => (true, rest)
    | t => (false, t)
  let (whole, rest) := digits t
  guard (whole ≠ [] ∧ (whole.head? = some 0 → whole = [0]))
  let (fraction, rest) ← match rest with
    | '.' :: rest =>
      match digits rest with
      | ([], _) => none
      | (fraction, rest) => some (fraction, rest)
    | rest => some ([], rest)
  let exponent ← readExponent? rest
  return ⟨negative, whole, fraction, exponent⟩

def maxSignificand : Nat := 18446744073709551615

/-- Gathers digits onto `m` as long as they fit. The second part counts the digits left over. -/
def gather (m : Nat) : List Nat → Nat × Nat
  | [] => (m, 0)
  | d :: rest =>
    if 10 * m + d ≤ maxSignificand then gather (10 * m + d) rest else (m, rest.length + 1)

/-- The significand and the power of ten, the written exponent left out. -/
def significand (n : Numeral) : Nat × Int :=
  let (m, dropped) := gather 0 n.whole
  let (m, unused) := gather m n.fraction
  (m, (dropped : Int) - (n.fraction.length - unused : Nat))

def powerOfTen (k : Nat) : Float := Float.ofScientific 1 false k

/-- The greatest power of ten below infinity. -/
def maxPower : Nat := 308

/-- Divides by `10 ^ k` in steps of at most `10 ^ 308`, until nothing is left. -/
def scaleDown (x : Float) (k : Nat) : Float :=
  if k ≤ maxPower then x / powerOfTen k
  else if x == 0 then x
  else scaleDown (x / powerOfTen maxPower) (k - maxPower)
termination_by k
decreasing_by simp only [maxPower] at *; omega

/-- Multiplies by `10 ^ k`, unless that is infinite. -/
def scaleUp? (x : Float) (k : Nat) : Option Float :=
  if k ≤ maxPower then
    let y := x * powerOfTen k
    if y.isInf then none else some y
  else if x == 0 then some x
  else none

def scale? (m : Nat) (power : Int) : Option Float :=
  match power with
  | .ofNat k => scaleUp? m.toUInt64.toFloat k
  | .negSucc k => some (scaleDown m.toUInt64.toFloat (k + 1))

/-- Exponents above this are not computed: they give infinity or zero. -/
def maxExponent : Nat := 2147483647

def exponentValue (power : List Nat) : Nat := power.foldl (fun n d => 10 * n + d) 0

def magnitude? (n : Numeral) : Option Float :=
  let (m, power) := n.significand
  match n.exponent with
  | none => scale? m power
  | some (negative, digits) =>
    let e := exponentValue digits
    if maxExponent < e then
      if m ≠ 0 ∧ ¬negative then none else some 0
    else scale? m (if negative then power - e else power + e)

def float? (n : Numeral) : Option Json :=
  n.magnitude?.map fun x => .float (if n.negative then -x else x)

/-- The value as a whole number, if it is written as one and fits. Minus zero does not. -/
def int? (n : Numeral) : Option Int :=
  let m := exponentValue n.whole
  if n.fraction ≠ [] ∨ n.exponent.isSome then none
  else if n.negative then if m = 0 ∨ 9223372036854775808 < m then none else some (-(m : Int))
  else if maxSignificand < m then none
  else some m

def value? (n : Numeral) : Option Json :=
  match n.int? with
  | some i => some (.int i)
  | none => n.float?

end Numeral

end HttpEcho.Json
