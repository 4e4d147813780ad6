import HttpEcho.Text.Basic

/-!
# ISO-8859-1

Each byte is the character of the same number, so every byte string is text.
-/

namespace HttpEcho.Text

def ofLatin1 (bytes : Bytes) : Text := bytes.map Char.ofUInt8

/-- Characters above U+00FF have no byte and are written modulo 256. -/
def toLatin1 (t : Text) : Bytes := t.map Char.toUInt8

@[simp] theorem toLatin1_ofLatin1 (bytes : Bytes) : toLatin1 (ofLatin1 bytes) = bytes := by
  simp only [toLatin1, ofLatin1, List.map_map]
  conv => rhs; rw [← List.map_id bytes]
  exact List.map_congr_left fun b _ => UInt8.toUInt8_toUInt32 b

@[simp] theorem length_ofLatin1 (bytes : Bytes) : (ofLatin1 bytes).length = bytes.length := by
  simp [ofLatin1]

end HttpEcho.Text
