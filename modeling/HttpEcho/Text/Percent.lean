import HttpEcho.Text.Utf8

/-!
# Percent encoding

A percent sign and two hexadecimal digits stand for a byte. Any other percent sign is kept.
-/

namespace HttpEcho.Text

def hexDigit? (c : Char) : Option Nat :=
  if '0' ≤ c ∧ c ≤ '9' then some (c.toNat - '0'.toNat)
  else if 'a' ≤ c ∧ c ≤ 'f' then some (c.toNat - 'a'.toNat + 10)
  else if 'A' ≤ c ∧ c ≤ 'F' then some (c.toNat - 'A'.toNat + 10)
  else none

def hexByte? (high low : Char) : Option UInt8 := do
  return UInt8.ofNat (16 * (← hexDigit? high) + (← hexDigit? low))

/-- Characters that stand for themselves give their UTF-8 bytes. -/
def percentBytes : Text → Bytes
  | [] => []
  | '%' :: high :: low :: rest =>
    match hexByte? high low with
    | some b => b :: percentBytes rest
    | none => String.utf8EncodeChar '%' ++ percentBytes (high :: low :: rest)
  | c :: rest => String.utf8EncodeChar c ++ percentBytes rest

def percentDecode (t : Text) : Text := ofUtf8Lossy (percentBytes t)

/-- In a form a plus sign stands for a space. -/
def formDecode (t : Text) : Text := percentDecode (t.map fun c => if c = '+' then ' ' else c)

end HttpEcho.Text
