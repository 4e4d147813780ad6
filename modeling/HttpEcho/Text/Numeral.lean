import HttpEcho.Text.Basic

/-!
# Whole numbers in decimal
-/

namespace HttpEcho.Text

def ofNat (n : Nat) : Text := Nat.toDigits 10 n

def ofInt : Int → Text
  | .ofNat n => ofNat n
  | .negSucc n => '-' :: ofNat (n + 1)

/-- At least `width` digits, filled up with zeros in front. -/
def ofNatPadded (width n : Nat) : Text :=
  let digits := ofNat n
  List.replicate (width - digits.length) '0' ++ digits

inductive NumeralError
  | empty
  | invalidDigit
  | tooLarge
  | tooSmall
  deriving DecidableEq, Repr

def digit? (c : Char) : Option Nat := if c.isDigit then some (c.toNat - '0'.toNat) else none

/-- Reads digits onto `n`. Of a wrong digit and a value above `limit` the first one counts. -/
def readDigits (limit : Nat) (overflow : NumeralError) (n : Nat) : Text → Except NumeralError Nat
  | [] => .ok n
  | c :: rest =>
    match digit? c with
    | none => .error .invalidDigit
    | some d => if 10 * n + d ≤ limit then readDigits limit overflow (10 * n + d) rest else .error overflow

def readUnsigned (limit : Nat) (overflow : NumeralError) : Text → Except NumeralError Nat
  | [] => .error .invalidDigit
  | digits => readDigits limit overflow 0 digits

/-- One plus sign may stand in front. -/
def readNat (limit : Nat) : Text → Except NumeralError Nat
  | [] => .error .empty
  | '+' :: digits => readUnsigned limit .tooLarge digits
  | digits => readUnsigned limit .tooLarge digits

/-- A number from `-limit - 1` to `limit` with at most one sign. -/
def readInt (limit : Nat) : Text → Except NumeralError Int
  | '-' :: digits => (readUnsigned (limit + 1) .tooSmall digits).map fun n => -(n : Int)
  | t => (readNat limit t).map Int.ofNat

/-- Sizes are at most `2 ^ 64 - 1`. -/
def maxSize : Nat := 18446744073709551615

def readSize? (t : Text) : Option Nat := (readNat maxSize t).toOption

namespace NumeralError

def message : NumeralError → Text
  | empty => "cannot parse integer from empty string".toList
  | invalidDigit => "invalid digit found in string".toList
  | tooLarge => "number too large to fit in target type".toList
  | tooSmall => "number too small to fit in target type".toList

end NumeralError

end HttpEcho.Text
