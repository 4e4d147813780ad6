import HttpEcho.Text.Basic

/-!
# UTF-8

One scanner splits any byte string into characters and maximal ill-formed parts. Strict decoding
refuses the first ill-formed part, lossy decoding shows each as U+FFFD.
-/

namespace HttpEcho.Text

def utf8 (t : Text) : Bytes := t.flatMap String.utf8EncodeChar

@[simp] theorem utf8_nil : utf8 [] = [] := rfl

@[simp] theorem utf8_append (a b : Text) : utf8 (a ++ b) = utf8 a ++ utf8 b := by simp [utf8]

namespace Utf8

/-- A character of which some bytes are still to come. The next one has to lie between `low` and
`high`, which keeps out overlong forms, surrogates and values above U+10FFFF. -/
structure Pending where
  value : Nat
  missing : Nat
  low : UInt8
  high : UInt8

/-- What one byte completes (`none` is an ill-formed part) and what is pending after it. -/
abbrev Step := List (Option Char) × Option Pending

def start (b : UInt8) : Step :=
  if b < 0x80 then ([some (Char.ofUInt8 b)], none)
  else if b < 0xC2 then ([none], none)
  else if b < 0xE0 then ([], some ⟨b.toNat - 0xC0, 1, 0x80, 0xBF⟩)
  else if b = 0xE0 then ([], some ⟨0, 2, 0xA0, 0xBF⟩)
  else if b = 0xED then ([], some ⟨0xD, 2, 0x80, 0x9F⟩)
  else if b < 0xF0 then ([], some ⟨b.toNat - 0xE0, 2, 0x80, 0xBF⟩)
  else if b = 0xF0 then ([], some ⟨0, 3, 0x90, 0xBF⟩)
  else if b < 0xF4 then ([], some ⟨b.toNat - 0xF0, 3, 0x80, 0xBF⟩)
  else if b = 0xF4 then ([], some ⟨4, 3, 0x80, 0x8F⟩)
  else ([none], none)

/-- A byte while `p` is pending. One that cannot continue it ends an ill-formed part and starts
afresh. -/
def Pending.continue (p : Pending) (b : UInt8) : Step :=
  if p.low ≤ b ∧ b ≤ p.high then
    let value := p.value * 64 + (b.toNat - 0x80)
    if p.missing ≤ 1 then ([some (Char.ofNat value)], none)
    else ([], some ⟨value, p.missing - 1, 0x80, 0xBF⟩)
  else
    let (items, pending) := start b
    (none :: items, pending)

def step : Option Pending → UInt8 → Step
  | none, b => start b
  | some p, b => p.continue b

def scanFrom (pending : Option Pending) : Bytes → List (Option Char)
  | [] => if pending.isSome then [none] else []
  | b :: rest =>
    let (items, pending) := step pending b
    items ++ scanFrom pending rest

/-- The characters of a byte string in order, with `none` for each maximal ill-formed part. -/
def scan (bytes : Bytes) : List (Option Char) := scanFrom none bytes

end Utf8

/-- Each maximal ill-formed part becomes one U+FFFD. -/
def ofUtf8Lossy (bytes : Bytes) : Text := (Utf8.scan bytes).map fun c => c.getD '\uFFFD'

/-- The text that `bytes` encodes, or the number of bytes in front of the first ill-formed part. -/
def ofUtf8 (bytes : Bytes) : Except Nat Text :=
  let items := Utf8.scan bytes
  let valid := (items.takeWhile Option.isSome).filterMap id
  if valid.length = items.length then .ok valid else .error (utf8 valid).length

end HttpEcho.Text
