import HttpEcho.Proofs.Utf8
import Mathlib.Order.Bounds.Basic

/-!
# Where UTF-8 ends

Characters that the scanner reads from the front stand there with all their bytes, and those bytes are read
as these characters, so strict decoding refuses exactly what encodes no text. It then tells how many bytes
from the front encode some text: a longer part would be read with a character more.
-/

namespace HttpEcho.Text

namespace Utf8

/-- A character read from what is pending has the bytes taken so far and the next ones. -/
theorem exists_tail_of_scanFrom_some {p : Pending} {taken bytes : Bytes} {c : Char}
    {items : List (Option Char)} (hp : Completes p.missing taken p.value p.low p.high)
    (h : scanFrom (some p) bytes = some c :: items) :
    ∃ tail rest, bytes = tail ++ rest ∧ String.utf8EncodeChar c = taken ++ tail ∧
      scanFrom none rest = items := by
  induction bytes generalizing p taken with
  | nil => cases h
  | cons b bytes ih =>
    rw [scanFrom_cons, step] at h
    by_cases hmem : p.low ≤ b ∧ b ≤ p.high
    · obtain ⟨value, missing, low, high⟩ := p
      cases missing with
      | zero => exact hp.elim
      | succ missing =>
        cases missing with
        | zero =>
          rw [continue_last hmem.1 hmem.2] at h
          obtain ⟨hc, hitems⟩ := List.cons.inj h
          obtain rfl := Option.some.inj hc
          exact ⟨[b], bytes, rfl, hp b hmem.1 hmem.2, hitems⟩
        | succ missing =>
          rw [continue_more hmem.1 hmem.2] at h
          obtain ⟨tail, rest, rfl, hencode, hitems⟩ := ih (hp b hmem.1 hmem.2) h
          exact ⟨b :: tail, rest, rfl, hencode.trans (List.append_assoc taken [b] tail), hitems⟩
    · rw [continue_of_not_mem hmem] at h
      cases h

theorem exists_rest_of_scan_cons {bytes : Bytes} {c : Char} {items : List (Option Char)}
    (h : scan bytes = some c :: items) :
    ∃ rest, bytes = String.utf8EncodeChar c ++ rest ∧ scan rest = items := by
  cases bytes with
  | nil => cases h
  | cons b bytes =>
    rw [scan, scanFrom_cons, step] at h
    rcases start_cases b with ⟨item, hstart⟩ | ⟨p, hstart⟩
    · rw [hstart] at h
      obtain ⟨rfl, hitems⟩ := List.cons.inj h
      have hencode : String.utf8EncodeChar c = [b] :=
        encode_of_mem_start (by rw [hstart]; exact List.mem_cons_self)
      exact ⟨bytes, by rw [hencode]; rfl, hitems⟩
    · rw [hstart] at h
      have hp := (completes_start (congrArg Prod.snd hstart)).2
      obtain ⟨tail, rest, rfl, hencode, hitems⟩ := exists_tail_of_scanFrom_some hp h
      exact ⟨rest, by rw [hencode]; rfl, hitems⟩

theorem exists_rest_of_scan_append {t : Text} {bytes : Bytes} {items : List (Option Char)}
    (h : scan bytes = t.map some ++ items) : ∃ rest, bytes = utf8 t ++ rest ∧ scan rest = items := by
  induction t generalizing bytes with
  | nil => exact ⟨bytes, rfl, h⟩
  | cons c t ih =>
    obtain ⟨more, rfl, hmore⟩ := exists_rest_of_scan_cons h
    obtain ⟨rest, rfl, hrest⟩ := ih hmore
    exact ⟨rest, by rw [utf8, utf8, List.flatMap_cons, List.append_assoc], hrest⟩

theorem scan_utf8_append (t : Text) (rest : Bytes) :
    scan (utf8 t ++ rest) = t.map some ++ scan rest := by
  induction t with
  | nil => rfl
  | cons c t ih =>
    rw [utf8, List.flatMap_cons, List.append_assoc, scan, scanFrom_encode_append, ← scan, ← utf8, ih]
    rfl

theorem scan_eq_nil_iff {bytes : Bytes} : scan bytes = [] ↔ bytes = [] := by
  constructor
  · intro h
    by_contra hne
    exact scanFrom_ne_nil (Or.inr hne) h
  · rintro rfl
    rfl

end Utf8

theorem exists_map_some_append (items : List (Option Char)) :
    ∃ (t : Text) (rest : List (Option Char)), items = t.map some ++ rest ∧
      ∀ item ∈ rest.head?, item = none := by
  induction items with
  | nil => exact ⟨[], [], rfl, by simp⟩
  | cons item items ih =>
    cases item with
    | none => exact ⟨[], none :: items, rfl, by simp⟩
    | some c =>
      obtain ⟨t, rest, rfl, hrest⟩ := ih
      exact ⟨c :: t, rest, rfl, hrest⟩

theorem takeWhile_isSome_append (t : Text) {items : List (Option Char)}
    (h : ∀ item ∈ items.head?, item = none) :
    (t.map some ++ items).takeWhile Option.isSome = t.map some := by
  have hnone : items.takeWhile Option.isSome = [] := by
    cases items with
    | nil => rfl
    | cons item items =>
      rw [h item rfl]
      rfl
  rw [List.takeWhile_append_of_pos (by simp), hnone, List.append_nil]

/-- Strict decoding stops at the first ill-formed part. -/
theorem ofUtf8_cases (bytes : Bytes) :
    (∃ t, bytes = utf8 t ∧ ofUtf8 bytes = .ok t) ∨
      ∃ t rest items, bytes = utf8 t ++ rest ∧ Utf8.scan rest = none :: items ∧
        ofUtf8 bytes = .error (utf8 t).length := by
  obtain ⟨t, items, hscan, hitems⟩ := exists_map_some_append (Utf8.scan bytes)
  obtain ⟨rest, rfl, hrest⟩ := Utf8.exists_rest_of_scan_append hscan
  have hvalid : ((Utf8.scan (utf8 t ++ rest)).takeWhile Option.isSome).filterMap id = t := by
    rw [hscan, takeWhile_isSome_append t hitems, List.filterMap_map]
    exact List.filterMap_some
  have hlength : (Utf8.scan (utf8 t ++ rest)).length = t.length + items.length := by
    rw [hscan, List.length_append, List.length_map]
  unfold ofUtf8
  simp only [hvalid, hlength]
  cases items with
  | nil =>
    rw [Utf8.scan_eq_nil_iff.mp hrest, List.append_nil]
    exact Or.inl ⟨t, rfl, if_pos rfl⟩
  | cons item items =>
    rw [hitems item rfl] at hrest
    exact Or.inr ⟨t, rest, items, rfl, hrest, if_neg (by simp)⟩

theorem isPrefix_of_map_some_append {t u : Text} {left right : List (Option Char)}
    (h : t.map some ++ left = u.map some ++ none :: right) : t <+: u := by
  induction t generalizing u with
  | nil => exact List.nil_prefix
  | cons c t ih =>
    cases u with
    | nil => cases h
    | cons d u =>
      obtain ⟨hc, hrest⟩ := List.cons.inj h
      rw [Option.some.inj hc]
      exact (List.prefix_cons_inj d).mpr (ih hrest)

/-- Strict decoding accepts what encodes a text and nothing else. -/
theorem ofUtf8_eq_ok_iff {bytes : Bytes} {t : Text} : ofUtf8 bytes = .ok t ↔ bytes = utf8 t := by
  constructor
  · intro h
    rcases ofUtf8_cases bytes with ⟨u, hbytes, hok⟩ | ⟨u, rest, items, -, -, herror⟩
    · rw [hbytes, ← Except.ok.inj (hok.symm.trans h)]
    · cases herror.symm.trans h
  · rintro rfl
    exact ofUtf8_utf8 t

/-- The lengths of the parts from the front that encode some text. -/
def utf8PrefixLengths (bytes : Bytes) : Set Nat :=
  {n | ∃ t, utf8 t <+: bytes ∧ (utf8 t).length = n}

theorem exists_ofUtf8_eq_error {bytes : Bytes} (h : ∀ t, bytes ≠ utf8 t) :
    ∃ k, ofUtf8 bytes = .error k ∧ IsGreatest (utf8PrefixLengths bytes) k := by
  rcases ofUtf8_cases bytes with ⟨t, hbytes, -⟩ | ⟨t, rest, items, rfl, hrest, herror⟩
  · exact absurd hbytes (h t)
  refine ⟨_, herror, ⟨t, List.prefix_append _ _, rfl⟩, ?_⟩
  rintro n ⟨u, ⟨more, hmore⟩, rfl⟩
  have hscan := congrArg Utf8.scan hmore
  rw [Utf8.scan_utf8_append, Utf8.scan_utf8_append, hrest] at hscan
  obtain ⟨tail, rfl⟩ := isPrefix_of_map_some_append hscan
  rw [utf8_append, List.length_append]
  exact Nat.le_add_right _ _

end HttpEcho.Text
