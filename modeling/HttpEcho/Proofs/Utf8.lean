import HttpEcho.Text.Latin1
import HttpEcho.Text.Utf8
import Mathlib.Data.List.TakeWhile

/-!
# Reading UTF-8

The scanner reads back every text that was encoded. The other way round, a character is read only
where its bytes are, so ASCII characters come from ASCII bytes: a line feed or a colon cuts the bytes
where it cuts the text, however ill-formed the rest is.
-/

namespace HttpEcho.Text

namespace Utf8

/-! ### The bytes of a character

Each byte carries a digit of the character's number in base 64. -/

theorem val_ofNat {v : Nat} (hv : v.isValidChar) : (Char.ofNat v).val.toNat = v := by
  rw [Char.ofNat, dif_pos hv]
  rfl

theorem encode_one {v : Nat} (hv : v < 0x80) :
    String.utf8EncodeChar (Char.ofNat v) = [UInt8.ofNat v] := by
  simp only [String.utf8EncodeChar, val_ofNat (Or.inl (by omega) : v.isValidChar)]
  rw [if_pos (by omega)]

theorem encode_two {x y : Nat} (hx : x < 0x20) (hy : y < 0x40) (hlow : 2 ≤ x) :
    String.utf8EncodeChar (Char.ofNat (x * 64 + y)) =
      [UInt8.ofNat (0xC0 + x), UInt8.ofNat (0x80 + y)] := by
  have hvalid : (x * 64 + y).isValidChar := Or.inl (by omega)
  have h0 : (x * 64 + y) / 64 % 0x20 + 0xC0 = 0xC0 + x := by omega
  have h1 : (x * 64 + y) % 0x40 + 0x80 = 0x80 + y := by omega
  simp only [String.utf8EncodeChar, val_ofNat hvalid, h0, h1]
  rw [if_neg (by omega), if_pos (by omega)]

theorem encode_three {x y z : Nat} (hx : x < 0x10) (hy : y < 0x40) (hz : z < 0x40)
    (hlow : x = 0 → 0x20 ≤ y) (hsurrogate : x = 0xD → y < 0x20) :
    String.utf8EncodeChar (Char.ofNat ((x * 64 + y) * 64 + z)) =
      [UInt8.ofNat (0xE0 + x), UInt8.ofNat (0x80 + y), UInt8.ofNat (0x80 + z)] := by
  have hvalid : ((x * 64 + y) * 64 + z).isValidChar := by
    unfold Nat.isValidChar
    omega
  have h0 : ((x * 64 + y) * 64 + z) / 4096 % 0x10 + 0xE0 = 0xE0 + x := by omega
  have h1 : ((x * 64 + y) * 64 + z) / 64 % 0x40 + 0x80 = 0x80 + y := by omega
  have h2 : ((x * 64 + y) * 64 + z) % 0x40 + 0x80 = 0x80 + z := by omega
  simp only [String.utf8EncodeChar, val_ofNat hvalid, h0, h1, h2]
  rw [if_neg (by omega), if_neg (by omega), if_pos (by omega)]

theorem encode_four {w x y z : Nat} (hw : w ≤ 4) (hx : x < 0x40) (hy : y < 0x40) (hz : z < 0x40)
    (hlow : w = 0 → 0x10 ≤ x) (hhigh : w = 4 → x < 0x10) :
    String.utf8EncodeChar (Char.ofNat (((w * 64 + x) * 64 + y) * 64 + z)) =
      [UInt8.ofNat (0xF0 + w), UInt8.ofNat (0x80 + x), UInt8.ofNat (0x80 + y),
        UInt8.ofNat (0x80 + z)] := by
  have hvalid : (((w * 64 + x) * 64 + y) * 64 + z).isValidChar := by
    unfold Nat.isValidChar
    omega
  have h0 : (((w * 64 + x) * 64 + y) * 64 + z) / 262144 % 0x08 + 0xF0 = 0xF0 + w := by omega
  have h1 : (((w * 64 + x) * 64 + y) * 64 + z) / 4096 % 0x40 + 0x80 = 0x80 + x := by omega
  have h2 : (((w * 64 + x) * 64 + y) * 64 + z) / 64 % 0x40 + 0x80 = 0x80 + y := by omega
  have h3 : (((w * 64 + x) * 64 + y) * 64 + z) % 0x40 + 0x80 = 0x80 + z := by omega
  simp only [String.utf8EncodeChar, val_ofNat hvalid, h0, h1, h2, h3]
  rw [if_neg (by omega), if_neg (by omega), if_neg (by omega)]

/-! ### The first byte -/

theorem start_one {b : UInt8} (hb : b.toNat < 0x80) : start b = ([some (Char.ofUInt8 b)], none) := by
  rw [start, if_pos (UInt8.lt_iff_toNat_lt.mpr hb)]

theorem start_two {b : UInt8} (hlow : 0xC2 ≤ b.toNat) (hhigh : b.toNat < 0xE0) :
    start b = ([], some ⟨b.toNat - 0xC0, 1, 0x80, 0xBF⟩) := by
  simp only [start, UInt8.lt_iff_toNat_lt, UInt8.toNat_ofNat]
  rw [if_neg (by omega), if_neg (by omega), if_pos (by omega)]

theorem start_three {b : UInt8} (hlow : 0xE0 ≤ b.toNat) (hhigh : b.toNat < 0xF0) :
    start b = ([], some ⟨b.toNat - 0xE0, 2, if b.toNat = 0xE0 then 0xA0 else 0x80,
      if b.toNat = 0xED then 0x9F else 0xBF⟩) := by
  simp only [start, UInt8.lt_iff_toNat_lt, ← UInt8.toNat_inj, UInt8.toNat_ofNat]
  rw [if_neg (by omega), if_neg (by omega), if_neg (by omega)]
  split
  next h => simp [h]
  split
  next h => simp [h]
  rfl

theorem start_four {b : UInt8} (hlow : 0xF0 ≤ b.toNat) (hhigh : b.toNat ≤ 0xF4) :
    start b = ([], some ⟨b.toNat - 0xF0, 3, if b.toNat = 0xF0 then 0x90 else 0x80,
      if b.toNat = 0xF4 then 0x8F else 0xBF⟩) := by
  simp only [start, UInt8.lt_iff_toNat_lt, ← UInt8.toNat_inj, UInt8.toNat_ofNat]
  rw [if_neg (by omega), if_neg (by omega), if_neg (by omega), if_neg (by omega), if_neg (by omega),
    if_neg (by omega)]
  split
  next h => simp [h]
  split
  next h => simp; omega
  rw [if_pos (by omega)]
  simp; omega

theorem start_invalid {b : UInt8} (h : 0x80 ≤ b.toNat ∧ b.toNat < 0xC2 ∨ 0xF4 < b.toNat) :
    start b = ([none], none) := by
  simp only [start, UInt8.lt_iff_toNat_lt, ← UInt8.toNat_inj, UInt8.toNat_ofNat]
  rcases h with h | h
  · rw [if_neg (by omega), if_pos (by omega)]
  · rw [if_neg (by omega), if_neg (by omega), if_neg (by omega), if_neg (by omega), if_neg (by omega),
      if_neg (by omega), if_neg (by omega), if_neg (by omega), if_neg (by omega)]

/-- A first byte is a character or an ill-formed part, or more bytes are needed. -/
theorem start_cases (b : UInt8) :
    (∃ item, start b = ([item], none)) ∨ ∃ p, start b = ([], some p) := by
  rcases Nat.lt_or_ge b.toNat 0x80 with hone | hone
  · exact Or.inl ⟨_, start_one hone⟩
  rcases Nat.lt_or_ge b.toNat 0xC2 with hinvalid | hlow
  · exact Or.inl ⟨_, start_invalid (Or.inl ⟨hone, hinvalid⟩)⟩
  rcases Nat.lt_or_ge b.toNat 0xE0 with htwo | htwo
  · exact Or.inr ⟨_, start_two hlow htwo⟩
  rcases Nat.lt_or_ge b.toNat 0xF0 with hthree | hthree
  · exact Or.inr ⟨_, start_three htwo hthree⟩
  rcases Nat.lt_or_ge 0xF4 b.toNat with hinvalid | hfour
  · exact Or.inl ⟨_, start_invalid (Or.inr hinvalid)⟩
  · exact Or.inr ⟨_, start_four hthree hfour⟩

/-! ### Reading back what was encoded -/

theorem scanFrom_cons (pending : Option Pending) (b : UInt8) (rest : Bytes) :
    scanFrom pending (b :: rest) = (step pending b).1 ++ scanFrom (step pending b).2 rest := rfl

theorem continue_last {value : Nat} {low high b : UInt8} (hlow : low ≤ b) (hhigh : b ≤ high) :
    Pending.continue ⟨value, 1, low, high⟩ b =
      ([some (Char.ofNat (value * 64 + (b.toNat - 0x80)))], none) := by
  simp [Pending.continue, hlow, hhigh]

theorem continue_more {value missing : Nat} {low high b : UInt8} (hlow : low ≤ b)
    (hhigh : b ≤ high) :
    Pending.continue ⟨value, missing + 2, low, high⟩ b =
      ([], some ⟨value * 64 + (b.toNat - 0x80), missing + 1, 0x80, 0xBF⟩) := by
  simp [Pending.continue, hlow, hhigh]

theorem continue_of_not_mem {p : Pending} {b : UInt8} (h : ¬(p.low ≤ b ∧ b ≤ p.high)) :
    p.continue b = (none :: (start b).1, (start b).2) := by
  simp only [Pending.continue, h, ↓reduceIte]

theorem toNat_tail {y : Nat} (hy : y < 0x40) : (UInt8.ofNat (0x80 + y)).toNat = 0x80 + y := by
  rw [UInt8.toNat_ofNat']
  omega

theorem scanFrom_tail_last {value y : Nat} {low high : UInt8} (hy : y < 0x40)
    (hlow : low.toNat ≤ 0x80 + y) (hhigh : 0x80 + y ≤ high.toNat) (rest : Bytes) :
    scanFrom (some ⟨value, 1, low, high⟩) (UInt8.ofNat (0x80 + y) :: rest) =
      some (Char.ofNat (value * 64 + y)) :: scanFrom none rest := by
  rw [← toNat_tail hy] at hlow hhigh
  rw [scanFrom, step, continue_last hlow hhigh, toNat_tail hy, Nat.add_sub_cancel_left]
  rfl

theorem scanFrom_tail_more {value missing y : Nat} {low high : UInt8} (hy : y < 0x40)
    (hlow : low.toNat ≤ 0x80 + y) (hhigh : 0x80 + y ≤ high.toNat) (rest : Bytes) :
    scanFrom (some ⟨value, missing + 2, low, high⟩) (UInt8.ofNat (0x80 + y) :: rest) =
      scanFrom (some ⟨value * 64 + y, missing + 1, 0x80, 0xBF⟩) rest := by
  rw [← toNat_tail hy] at hlow hhigh
  rw [scanFrom, step, continue_more hlow hhigh, toNat_tail hy, Nat.add_sub_cancel_left]
  rfl

theorem scanFrom_one {v : Nat} (hv : v < 0x80) (rest : Bytes) :
    scanFrom none (UInt8.ofNat v :: rest) = some (Char.ofNat v) :: scanFrom none rest := by
  have hb : (UInt8.ofNat v).toNat = v := by
    rw [UInt8.toNat_ofNat']
    omega
  have hchar : Char.ofUInt8 (UInt8.ofNat v) = Char.ofNat v := by
    rw [← Char.toNat_inj]
    exact hb.trans (val_ofNat (Or.inl (by omega))).symm
  rw [scanFrom, step, start_one (by omega), hchar]
  rfl

theorem scanFrom_two {x y : Nat} (hx : x < 0x20) (hy : y < 0x40) (hlow : 2 ≤ x) (rest : Bytes) :
    scanFrom none (UInt8.ofNat (0xC0 + x) :: UInt8.ofNat (0x80 + y) :: rest) =
      some (Char.ofNat (x * 64 + y)) :: scanFrom none rest := by
  have hb : (UInt8.ofNat (0xC0 + x)).toNat = 0xC0 + x := by
    rw [UInt8.toNat_ofNat']
    omega
  rw [scanFrom, step, start_two (by omega) (by omega), hb, Nat.add_sub_cancel_left]
  exact scanFrom_tail_last hy (by simp) (by simp; omega) rest

theorem scanFrom_three {x y z : Nat} (hx : x < 0x10) (hy : y < 0x40) (hz : z < 0x40)
    (hlow : x = 0 → 0x20 ≤ y) (hsurrogate : x = 0xD → y < 0x20) (rest : Bytes) :
    scanFrom none
        (UInt8.ofNat (0xE0 + x) :: UInt8.ofNat (0x80 + y) :: UInt8.ofNat (0x80 + z) :: rest) =
      some (Char.ofNat ((x * 64 + y) * 64 + z)) :: scanFrom none rest := by
  have hb : (UInt8.ofNat (0xE0 + x)).toNat = 0xE0 + x := by
    rw [UInt8.toNat_ofNat']
    omega
  rw [scanFrom, step, start_three (by omega) (by omega), hb, Nat.add_sub_cancel_left]
  refine (scanFrom_tail_more hy ?_ ?_ _).trans ?_
  · split <;> simp
    omega
  · split <;> (simp; omega)
  · exact scanFrom_tail_last hz (by simp) (by simp; omega) rest

theorem scanFrom_four {w x y z : Nat} (hw : w ≤ 4) (hx : x < 0x40) (hy : y < 0x40) (hz : z < 0x40)
    (hlow : w = 0 → 0x10 ≤ x) (hhigh : w = 4 → x < 0x10) (rest : Bytes) :
    scanFrom none (UInt8.ofNat (0xF0 + w) :: UInt8.ofNat (0x80 + x) :: UInt8.ofNat (0x80 + y) ::
        UInt8.ofNat (0x80 + z) :: rest) =
      some (Char.ofNat (((w * 64 + x) * 64 + y) * 64 + z)) :: scanFrom none rest := by
  have hb : (UInt8.ofNat (0xF0 + w)).toNat = 0xF0 + w := by
    rw [UInt8.toNat_ofNat']
    omega
  rw [scanFrom, step, start_four (by omega) (by omega), hb, Nat.add_sub_cancel_left]
  refine (scanFrom_tail_more hx ?_ ?_ _).trans ?_
  · split <;> simp
    omega
  · split <;> (simp; omega)
  · refine (scanFrom_tail_more hy (by simp) (by simp; omega) _).trans ?_
    exact scanFrom_tail_last hz (by simp) (by simp; omega) rest

/-- The bytes of a character are read as that character, whatever follows. -/
theorem scanFrom_encode_append (c : Char) (rest : Bytes) :
    scanFrom none (String.utf8EncodeChar c ++ rest) = some c :: scanFrom none rest := by
  obtain ⟨v, hv, rfl⟩ : ∃ v, (v < 0xD800 ∨ 0xDFFF < v ∧ v < 0x110000) ∧ c = Char.ofNat v :=
    ⟨c.toNat, c.valid, (Char.ofNat_toNat c).symm⟩
  rcases Nat.lt_or_ge v 0x80 with hone | hone
  · rw [encode_one hone]
    exact scanFrom_one hone rest
  rcases Nat.lt_or_ge v 0x800 with htwo | htwo
  · obtain ⟨x, y, hy, rfl⟩ : ∃ x y, y < 0x40 ∧ v = x * 64 + y :=
      ⟨v / 64, v % 64, by omega, by omega⟩
    rw [encode_two (by omega) hy (by omega)]
    exact scanFrom_two (by omega) hy (by omega) rest
  rcases Nat.lt_or_ge v 0x10000 with hthree | hthree
  · obtain ⟨x, y, z, hy, hz, rfl⟩ : ∃ x y z, y < 0x40 ∧ z < 0x40 ∧ v = (x * 64 + y) * 64 + z :=
      ⟨v / 4096, v / 64 % 64, v % 64, by omega, by omega, by omega⟩
    rw [encode_three (by omega) hy hz (by omega) (by omega)]
    exact scanFrom_three (by omega) hy hz (by omega) (by omega) rest
  · obtain ⟨w, x, y, z, hx, hy, hz, rfl⟩ :
        ∃ w x y z, x < 0x40 ∧ y < 0x40 ∧ z < 0x40 ∧ v = ((w * 64 + x) * 64 + y) * 64 + z :=
      ⟨v / 262144, v / 4096 % 64, v / 64 % 64, v % 64, by omega, by omega, by omega, by omega⟩
    rw [encode_four (by omega) hx hy hz (by omega) (by omega)]
    exact scanFrom_four (by omega) hx hy hz (by omega) (by omega) rest

/-- Every character of a text is read back. -/
theorem scan_utf8 (t : Text) : scan (utf8 t) = t.map some := by
  induction t with
  | nil => rfl
  | cons c t ih =>
    rw [utf8, List.flatMap_cons, scan, scanFrom_encode_append, List.map_cons, ← ih]
    rfl

/-! ### Where a character is read

What is pending after some bytes is a character of which these are the first. -/

/-- With `missing` more bytes, the first of them between `low` and `high`, the bytes `taken` become the
encoding of the character that is read from them. -/
def Completes : Nat → Bytes → Nat → UInt8 → UInt8 → Prop
  | 0, _, _, _, _ => False
  | 1, taken, value, low, high => ∀ b, low ≤ b → b ≤ high →
    String.utf8EncodeChar (Char.ofNat (value * 64 + (b.toNat - 0x80))) = taken ++ [b]
  | missing + 2, taken, value, low, high => ∀ b, low ≤ b → b ≤ high →
    Completes (missing + 1) (taken ++ [b]) (value * 64 + (b.toNat - 0x80)) 0x80 0xBF

theorem ofNat_add_sub {k : Nat} {b : UInt8} (h : k ≤ b.toNat) :
    UInt8.ofNat (k + (b.toNat - k)) = b := by
  rw [Nat.add_sub_cancel' h, UInt8.ofNat_toNat]

/-- The first byte of a character pends on the bytes that complete it. -/
theorem completes_start {b : UInt8} {p : Pending} (h : (start b).2 = some p) :
    0x80 ≤ p.low ∧ Completes p.missing [b] p.value p.low p.high := by
  have hlt := b.toNat_lt
  rcases Nat.lt_or_ge b.toNat 0x80 with hone | hone
  · rw [start_one hone] at h
    cases h
  rcases Nat.lt_or_ge b.toNat 0xC2 with hinvalid | hlow
  · rw [start_invalid (Or.inl ⟨hone, hinvalid⟩)] at h
    cases h
  rcases Nat.lt_or_ge b.toNat 0xE0 with htwo | htwo
  · rw [start_two hlow htwo] at h
    obtain rfl := Option.some.inj h
    refine ⟨by dsimp only; decide, ?_⟩
    change Completes 1 [b] (b.toNat - 0xC0) _ _
    intro b1 hlow1 hhigh1
    rw [UInt8.le_iff_toNat_le] at hlow1 hhigh1
    simp only [UInt8.toNat_ofNat] at hlow1 hhigh1
    rw [encode_two (by omega) (by omega) (by omega), ofNat_add_sub (by omega),
      ofNat_add_sub (by omega)]
    rfl
  rcases Nat.lt_or_ge b.toNat 0xF0 with hthree | hthree
  · rw [start_three htwo hthree] at h
    obtain rfl := Option.some.inj h
    refine ⟨by dsimp only; split <;> decide, ?_⟩
    change Completes 2 [b] (b.toNat - 0xE0) _ _
    intro b1 hlow1 hhigh1 b2 hlow2 hhigh2
    rw [UInt8.le_iff_toNat_le] at hlow1 hhigh1 hlow2 hhigh2
    simp only [apply_ite UInt8.toNat, UInt8.toNat_ofNat] at hlow1 hhigh1 hlow2 hhigh2
    have hmin : 0x80 ≤ b1.toNat ∧ (b.toNat = 0xE0 → 0xA0 ≤ b1.toNat) := by split at hlow1 <;> omega
    have hmax : b1.toNat ≤ 0xBF ∧ (b.toNat = 0xED → b1.toNat ≤ 0x9F) := by split at hhigh1 <;> omega
    rw [encode_three (by omega) (by omega) (by omega) (by omega) (by omega), ofNat_add_sub (by omega),
      ofNat_add_sub (by omega), ofNat_add_sub (by omega)]
    rfl
  rcases Nat.lt_or_ge 0xF4 b.toNat with hinvalid | hfour
  · rw [start_invalid (Or.inr hinvalid)] at h
    cases h
  · rw [start_four hthree hfour] at h
    obtain rfl := Option.some.inj h
    refine ⟨by dsimp only; split <;> decide, ?_⟩
    change Completes 3 [b] (b.toNat - 0xF0) _ _
    intro b1 hlow1 hhigh1 b2 hlow2 hhigh2 b3 hlow3 hhigh3
    rw [UInt8.le_iff_toNat_le] at hlow1 hhigh1 hlow2 hhigh2 hlow3 hhigh3
    simp only [apply_ite UInt8.toNat, UInt8.toNat_ofNat] at hlow1 hhigh1 hlow2 hhigh2 hlow3 hhigh3
    have hmin : 0x80 ≤ b1.toNat ∧ (b.toNat = 0xF0 → 0x90 ≤ b1.toNat) := by split at hlow1 <;> omega
    have hmax : b1.toNat ≤ 0xBF ∧ (b.toNat = 0xF4 → b1.toNat ≤ 0x8F) := by split at hhigh1 <;> omega
    clear hlow1 hhigh1
    rw [encode_four (by omega) (by omega) (by omega) (by omega) (by omega) (by omega),
      ofNat_add_sub (by omega), ofNat_add_sub (by omega), ofNat_add_sub (by omega),
      ofNat_add_sub (by omega)]
    rfl

theorem encode_of_mem_start {b : UInt8} {c : Char} (h : some c ∈ (start b).1) :
    String.utf8EncodeChar c = [b] := by
  have hlt := b.toNat_lt
  rcases Nat.lt_or_ge b.toNat 0x80 with hone | hone
  · have hchar : Char.ofUInt8 b = Char.ofNat b.toNat := (Char.ofNat_toNat _).symm
    rw [start_one hone, List.mem_singleton, Option.some.injEq] at h
    rw [h, hchar, encode_one hone, UInt8.ofNat_toNat]
  exfalso
  rcases Nat.lt_or_ge b.toNat 0xC2 with hinvalid | hlow
  · simp [start_invalid (Or.inl ⟨hone, hinvalid⟩)] at h
  rcases Nat.lt_or_ge b.toNat 0xE0 with htwo | htwo
  · simp [start_two hlow htwo] at h
  rcases Nat.lt_or_ge b.toNat 0xF0 with hthree | hthree
  · simp [start_three htwo hthree] at h
  rcases Nat.lt_or_ge 0xF4 b.toNat with hinvalid | hfour
  · simp [start_invalid (Or.inr hinvalid)] at h
  · simp [start_four hthree hfour] at h

/-- What is pending after `bytes` began with the last of them. -/
def Follows (pending : Option Pending) (bytes : Bytes) : Prop :=
  ∀ p, pending = some p → 0x80 ≤ p.low ∧
    ∃ taken, taken <:+ bytes ∧ Completes p.missing taken p.value p.low p.high

theorem follows_none (bytes : Bytes) : Follows none bytes := by
  intro p hp
  cases hp

theorem follows_start (bytes : Bytes) (b : UInt8) : Follows (start b).2 (bytes ++ [b]) := by
  intro p hp
  obtain ⟨hlow, hcompletes⟩ := completes_start hp
  exact ⟨hlow, [b], List.suffix_append bytes [b], hcompletes⟩

/-- One byte more: the characters that it completes end with it, and so does what is pending. -/
theorem step_spec {pending : Option Pending} {bytes : Bytes} (h : Follows pending bytes) (b : UInt8) :
    (∀ c, some c ∈ (step pending b).1 → String.utf8EncodeChar c <:+ bytes ++ [b]) ∧
      Follows (step pending b).2 (bytes ++ [b]) := by
  have hstart : ∀ c, some c ∈ (start b).1 → String.utf8EncodeChar c <:+ bytes ++ [b] := by
    intro c hc
    rw [encode_of_mem_start hc]
    exact List.suffix_append bytes [b]
  cases pending with
  | none => exact ⟨hstart, follows_start bytes b⟩
  | some p =>
    obtain ⟨value, missing, low, high⟩ := p
    obtain ⟨-, taken, ⟨before, rfl⟩, hcompletes⟩ := h _ rfl
    have hsuffix : taken ++ [b] <:+ before ++ taken ++ [b] :=
      ⟨before, (List.append_assoc before taken [b]).symm⟩
    by_cases hmem : low ≤ b ∧ b ≤ high
    · match missing, hcompletes with
      | 1, hcompletes =>
        rw [step, continue_last hmem.1 hmem.2]
        refine ⟨fun c hc => ?_, follows_none _⟩
        rw [List.mem_singleton, Option.some.injEq] at hc
        rw [hc, hcompletes b hmem.1 hmem.2]
        exact hsuffix
      | missing + 2, hcompletes =>
        rw [step, continue_more hmem.1 hmem.2]
        refine ⟨fun c hc => absurd hc List.not_mem_nil, fun p hp => ?_⟩
        obtain rfl := Option.some.inj hp
        exact ⟨by dsimp only; decide, taken ++ [b], hsuffix, hcompletes b hmem.1 hmem.2⟩
    · rw [step, continue_of_not_mem hmem]
      refine ⟨fun c hc => hstart c ?_, follows_start _ b⟩
      simpa using hc

/-- A character is read only where its bytes are. -/
theorem encode_infix_of_mem_scanFrom {pending : Option Pending} {before bytes : Bytes} {c : Char}
    (hpending : Follows pending before) (hc : some c ∈ scanFrom pending bytes) :
    String.utf8EncodeChar c <:+: before ++ bytes := by
  induction bytes generalizing pending before with
  | nil => cases pending <;> simp [scanFrom] at hc
  | cons b rest ih =>
    obtain ⟨hitems, hnext⟩ := step_spec hpending b
    rw [scanFrom_cons, List.mem_append] at hc
    rw [← List.singleton_append, ← List.append_assoc]
    rcases hc with hc | hc
    · exact (hitems c hc).isInfix.trans (List.prefix_append _ rest).isInfix
    · exact ih hnext hc

/-- An ASCII byte stands for itself and ends whatever is pending in front of it. -/
theorem scanFrom_append_ascii {pending : Option Pending} {before : Bytes} {b : UInt8}
    (hb : b.toNat < 0x80) (hpending : Follows pending before) (bytes rest : Bytes) :
    scanFrom pending (bytes ++ b :: rest) =
      scanFrom pending bytes ++ some (Char.ofUInt8 b) :: scanFrom none rest := by
  induction bytes generalizing pending before with
  | nil =>
    cases pending with
    | none =>
      rw [List.nil_append, scanFrom_cons, step, start_one hb]
      rfl
    | some p =>
      have hnot : ¬(p.low ≤ b ∧ b ≤ p.high) := by
        rintro ⟨hlow, -⟩
        have hmin : (0x80 : Nat) ≤ p.low.toNat := (hpending p rfl).1
        rw [UInt8.le_iff_toNat_le] at hlow
        omega
      rw [List.nil_append, scanFrom_cons, step, continue_of_not_mem hnot, start_one hb]
      rfl
  | cons a bytes ih =>
    rw [List.cons_append, scanFrom_cons, scanFrom_cons, ih (step_spec hpending a).2, List.append_assoc]

/-! ### Nothing is read from nothing only -/

theorem start_ne_nil (b : UInt8) : (start b).1 ≠ [] ∨ (start b).2.isSome := by
  rcases start_cases b with ⟨item, hstart⟩ | ⟨p, hstart⟩
  · exact Or.inl (by rw [hstart]; exact List.cons_ne_nil _ _)
  · exact Or.inr (by rw [hstart]; rfl)

theorem step_ne_nil (pending : Option Pending) (b : UInt8) :
    (step pending b).1 ≠ [] ∨ (step pending b).2.isSome := by
  cases pending with
  | none => exact start_ne_nil b
  | some p =>
    rw [step, Pending.continue]
    split_ifs <;> simp

/-- Something is read from bytes that are there, and from a character of which only some are. -/
theorem scanFrom_ne_nil {pending : Option Pending} {bytes : Bytes}
    (h : pending.isSome ∨ bytes ≠ []) : scanFrom pending bytes ≠ [] := by
  induction bytes generalizing pending with
  | nil =>
    have hpending : pending.isSome := h.resolve_right fun hne => hne rfl
    rw [scanFrom, if_pos hpending]
    exact List.cons_ne_nil _ _
  | cons b rest ih =>
    rw [scanFrom_cons]
    rcases step_ne_nil pending b with hitems | hnext
    · exact List.append_ne_nil_of_left_ne_nil hitems _
    · exact List.append_ne_nil_of_right_ne_nil _ (ih (Or.inl hnext))

end Utf8

theorem ofUtf8Lossy_ne_nil {bytes : Bytes} (h : bytes ≠ []) : ofUtf8Lossy bytes ≠ [] := by
  rw [ofUtf8Lossy, ne_eq, List.map_eq_nil_iff]
  exact Utf8.scanFrom_ne_nil (Or.inr h)

theorem ofUtf8Lossy_append_ascii {b : UInt8} (hb : b.toNat < 0x80) (bytes rest : Bytes) :
    ofUtf8Lossy (bytes ++ b :: rest) = ofUtf8Lossy bytes ++ Char.ofUInt8 b :: ofUtf8Lossy rest := by
  rw [ofUtf8Lossy, Utf8.scan, Utf8.scanFrom_append_ascii hb (Utf8.follows_none []), List.map_append]
  rfl

/-- ASCII characters come from their bytes only. -/
theorem mem_of_mem_ofUtf8Lossy {c : Char} {bytes : Bytes} (hc : c.toNat < 0x80)
    (h : c ∈ ofUtf8Lossy bytes) : UInt8.ofNat c.toNat ∈ bytes := by
  obtain ⟨item, hitem, hget⟩ := List.mem_map.mp h
  cases item with
  | none =>
    rw [← hget] at hc
    exact absurd hc (by decide)
  | some c' =>
    obtain rfl : c' = c := hget
    have hinfix := Utf8.encode_infix_of_mem_scanFrom (Utf8.follows_none []) hitem
    have hencode := Utf8.encode_one hc
    rw [Char.ofNat_toNat] at hencode
    rw [hencode, List.nil_append] at hinfix
    exact hinfix.subset List.mem_cons_self

theorem ofUtf8Lossy_utf8 (t : Text) : ofUtf8Lossy (utf8 t) = t := by
  rw [ofUtf8Lossy, Utf8.scan_utf8, List.map_map]
  exact List.map_id t

theorem utf8_eq_nil_iff {t : Text} : utf8 t = [] ↔ t = [] := by
  constructor
  · intro h
    rw [← ofUtf8Lossy_utf8 t, h]
    rfl
  · rintro rfl
    rfl

/-- ASCII bytes come from their characters only. -/
theorem mem_of_mem_utf8 {b : UInt8} {t : Text} (hb : b.toNat < 0x80) (h : b ∈ utf8 t) :
    Char.ofUInt8 b ∈ t := by
  obtain ⟨before, after, hsplit⟩ := List.append_of_mem h
  rw [← ofUtf8Lossy_utf8 t, hsplit, ofUtf8Lossy_append_ascii hb]
  exact List.mem_append_right _ List.mem_cons_self

/-- Text in ASCII reads the same in both encodings. -/
theorem ofUtf8Lossy_of_ascii {bytes : Bytes} (h : ∀ b ∈ bytes, b.toNat < 0x80) :
    ofUtf8Lossy bytes = ofLatin1 bytes := by
  induction bytes with
  | nil => rfl
  | cons b rest ih =>
    rw [List.forall_mem_cons] at h
    rw [← List.nil_append (b :: rest), ofUtf8Lossy_append_ascii h.1, ih h.2]
    rfl

/-- Strict decoding undoes encoding. -/
theorem ofUtf8_utf8 (t : Text) : ofUtf8 (utf8 t) = .ok t := by
  have htake : (t.map some).takeWhile Option.isSome = t.map some := by
    rw [List.takeWhile_eq_self_iff]
    simp
  have hvalid : (t.map some).filterMap id = t := by
    rw [List.filterMap_map]
    exact List.filterMap_some
  simp only [ofUtf8, Utf8.scan_utf8, htake, hvalid, List.length_map, ↓reduceIte]

end HttpEcho.Text
