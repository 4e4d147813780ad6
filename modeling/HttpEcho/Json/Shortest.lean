import HttpEcho.Text.Numeral

/-!
# The shortest decimal of a float

A float stands for all reals that round to it. Its text is a decimal with the fewest digits among
them, and of those the nearest one.
-/

namespace HttpEcho.Json

/-- The number `coefficient * 10 ^ power`. -/
structure Decimal where
  coefficient : Nat
  power : Int
  deriving DecidableEq, Repr

/-- A positive binary number with the reals that round to it: `value`, `low` and `high` count units of
`2 ^ exponent`, and the ends belong to the interval if `closed`. -/
structure Binary where
  value : Nat
  low : Nat
  high : Nat
  exponent : Int
  closed : Bool
  deriving DecidableEq, Repr

namespace Binary

/-- The double with these bits, its sign left out. There are 52 bits of fraction, and a one in front of
them unless the exponent field is zero. Units are a quarter of the last place: the gap below a power of
two is half the gap above it. -/
def ofBits (bits : UInt64) : Binary :=
  let field := (bits >>> 52 &&& 0x7FF).toNat
  let fraction := (bits &&& 0xFFFFFFFFFFFFF).toNat
  let m := if field = 0 then fraction else fraction + 0x10000000000000
  let below := if fraction = 0 ∧ 1 < field then 1 else 2
  ⟨4 * m, 4 * m - below, 4 * m + 2, (max field 1 : Nat) - 1077, m % 2 = 0⟩

/-- `n` units against multiples of `10 ^ power`, both as whole numbers. -/
def scaled (b : Binary) (power : Int) (n : Nat) : Nat :=
  n * Nat.pow 2 b.exponent.toNat * Nat.pow 10 (-power).toNat

def unit (b : Binary) (power : Int) : Nat := Nat.pow 2 (-b.exponent).toNat * Nat.pow 10 power.toNat

/-- The power of ten of the first digit. -/
def leading (b : Binary) : Int :=
  let n := b.scaled 0 b.value
  let d := b.unit 0
  if d ≤ n then ((Text.ofNat (n / d)).length : Int) - 1 else -((Text.ofNat (d / n)).length : Int)

def contains (b : Binary) (power : Int) (c : Nat) : Bool :=
  let x := c * b.unit power
  let low := b.scaled power b.low
  let high := b.scaled power b.high
  if b.closed then low ≤ x && x ≤ high else low < x && x < high

/-- The multiple of `10 ^ power` in the interval that is nearest to the value, if there is one. Only
the two neighbours of the value can be. An even one wins a tie. -/
def nearest? (b : Binary) (power : Int) : Option Nat :=
  let x := b.scaled power b.value
  let u := b.unit power
  let c := x / u
  match b.contains power c, b.contains power (c + 1) with
  | false, false => none
  | true, false => some c
  | false, true => some (c + 1)
  | true, true =>
    let rest := x % u
    some (if 2 * rest < u ∨ (2 * rest = u ∧ c % 2 = 0) then c else c + 1)

/-- Seventeen digits always suffice. -/
def shortest (b : Binary) : Decimal :=
  let leading := b.leading
  let found := (List.range 17).findSome? fun (i : Nat) =>
    (b.nearest? (leading - i)).map fun c => ⟨c, leading - i⟩
  found.getD ⟨0, 0⟩

end Binary

/-- Where a float is written without exponent: first digits from `10 ^ plainFrom` up to below
`10 ^ plainBelow`. -/
structure FloatLayout where
  plainFrom : Int
  plainBelow : Int

def floatLayout : FloatLayout := ⟨-5, 16⟩

namespace FloatLayout

/-- Digits with a first digit of weight `10 ^ k`, written with a point and at least one digit on
either side of it. -/
def plain (digits : Text) (k : Int) : Text :=
  if k < 0 then
    "0.".toList ++ List.replicate (-k - 1).toNat '0' ++ digits
  else
    let split := k.toNat + 1
    let fraction := digits.drop split
    digits.take split ++ List.replicate (split - digits.length) '0' ++ '.' ::
      (if fraction = [] then ['0'] else fraction)

/-- One digit in front of the point. The exponent always has a sign. -/
def scientific (digits : Text) (k : Int) : Text :=
  let fraction := digits.drop 1
  digits.take 1 ++ (if fraction = [] then [] else '.' :: fraction) ++ 'e' ::
    (if k < 0 then [] else ['+']) ++ Text.ofInt k

def write (layout : FloatLayout) (d : Decimal) : Text :=
  let written := Text.ofNat d.coefficient
  let k := d.power + written.length - 1
  let digits := Text.dropEndWhile (· = '0') written
  if layout.plainFrom ≤ k ∧ k < layout.plainBelow then plain digits k else scientific digits k

end FloatLayout

def floatText (x : Float) : Text :=
  let bits := x.toBits
  let magnitude := bits &&& 0x7FFFFFFFFFFFFFFF
  (if bits = magnitude then [] else ['-']) ++
    (if magnitude = 0 then "0.0".toList else floatLayout.write (Binary.ofBits magnitude).shortest)

end HttpEcho.Json
