import HttpEcho.Echo.Record
import HttpEcho.Proofs.JsonDocument
import HttpEcho.Proofs.Utf8Prefix

/-!
# Decoding a body

A body is refused if and only if it encodes no text, and the error tells how much of it from the front does.
A text is taken for the value that it is a document for, and if it is no document for itself.
-/

namespace HttpEcho

open Json.State (step? value firstItem after reads?_step reads?_of_lexemes?)

variable {t : Text} {v : Json}

theorem decodeBody_utf8 (t : Text) :
    decodeBody (some (Text.utf8 t)) = .ok ((Json.ofText? t).getD (.str t)) := by
  simp only [decodeBody, Text.ofUtf8_utf8]

theorem decodeBody_utf8_of_isDocument (h : Json.IsDocument Json.maxDepth t v) :
    decodeBody (some (Text.utf8 t)) = .ok v := by
  rw [decodeBody_utf8, Json.ofText?_eq_some_iff.mpr h, Option.getD_some]

theorem decodeBody_utf8_of_not_isDocument (h : ∀ v, ¬Json.IsDocument Json.maxDepth t v) :
    decodeBody (some (Text.utf8 t)) = .ok (.str t) := by
  have hnone : Json.ofText? t = none := by
    rw [Option.eq_none_iff_forall_ne_some]
    exact fun v hv => h v (Json.ofText?_eq_some_iff.mp hv)
  rw [decodeBody_utf8, hnone, Option.getD_none]

theorem ofText?_of_decodeBody_utf8 (h : decodeBody (some (Text.utf8 t)) = .ok v) (hv : v ≠ .str t) :
    Json.ofText? t = some v := by
  rw [decodeBody_utf8] at h
  obtain rfl := Except.ok.inj h
  cases hread : Json.ofText? t with
  | none =>
    rw [hread] at hv
    exact absurd rfl hv
  | some w => rfl

theorem exists_decodeBody_error {bytes : Bytes} (h : ∀ t, bytes ≠ Text.utf8 t) :
    ∃ k, decodeBody (some bytes) = .error (.invalidUtf8 k) ∧
      IsGreatest (Text.utf8PrefixLengths bytes) k := by
  obtain ⟨k, hk, hgreatest⟩ := Text.exists_ofUtf8_eq_error h
  refine ⟨k, ?_, hgreatest⟩
  simp only [decodeBody, hk]

/-- Bytes that encode no text are refused with the length of the longest part from the front that does. Text
is read as a document, and what is no document is kept as it is. -/
theorem decodeBody_some (bytes : Bytes) :
    ((∃ e, decodeBody (some bytes) = .error e) ↔ ∀ t, bytes ≠ Text.utf8 t) ∧
      (∀ e, decodeBody (some bytes) = .error e →
        ∃ k, e = .invalidUtf8 k ∧ IsGreatest (Text.utf8PrefixLengths bytes) k) ∧
      ∀ t, bytes = Text.utf8 t →
        (∀ v, Json.IsDocument Json.maxDepth t v → decodeBody (some bytes) = .ok v) ∧
        ((∀ v, ¬Json.IsDocument Json.maxDepth t v) → decodeBody (some bytes) = .ok (.str t)) ∧
        ∀ v, decodeBody (some bytes) = .ok v → v ≠ .str t → Json.ofText? t = some v := by
  have hrefused : ∀ e, decodeBody (some bytes) = .error e → ∀ t, bytes ≠ Text.utf8 t := by
    rintro e he t rfl
    rw [decodeBody_utf8] at he
    cases he
  refine ⟨⟨fun ⟨e, he⟩ => hrefused e he, fun h => ?_⟩, fun e he => ?_, ?_⟩
  · obtain ⟨k, hk, -⟩ := exists_decodeBody_error h
    exact ⟨_, hk⟩
  · obtain ⟨k, hk, hgreatest⟩ := exists_decodeBody_error (hrefused e he)
    rw [he] at hk
    exact ⟨k, Except.error.inj hk, hgreatest⟩
  · rintro t rfl
    exact ⟨fun v => decodeBody_utf8_of_isDocument, decodeBody_utf8_of_not_isDocument,
      fun v => ofText?_of_decodeBody_utf8⟩

/-- A sequence that is cut off, a document with white space around it, and an array with a comma too many. -/
theorem decodeBody_some_cut_sequence :
    decodeBody (some [0x61, 0xE2, 0x82]) = .error (.invalidUtf8 1) ∧
      IsGreatest (Text.utf8PrefixLengths [0x61, 0xE2, 0x82]) 1 ∧
      decodeBody (some (Text.utf8 " [true]\n".toList)) = .ok (.arr [.bool true]) ∧
      decodeBody (some (Text.utf8 "[true,]".toList)) = .ok (.str "[true,]".toList) := by
  have herror : decodeBody (some [0x61, 0xE2, 0x82]) = .error (.invalidUtf8 1) := rfl
  obtain ⟨k, hk, hgreatest⟩ := (decodeBody_some [0x61, 0xE2, 0x82]).2.1 _ herror
  obtain rfl := EchoError.invalidUtf8.inj hk
  have harray : Json.IsDocument 127 "[true]".toList (.arr [.bool true]) :=
    @Json.IsDocument.array 126 ("true".toList, .bool true) [] (.word 126 .true) (List.forall_mem_nil _)
  have hspaced : Json.IsDocument Json.maxDepth " [true]\n".toList (.arr [.bool true]) :=
    .spaced (Json.isSpacing_cons (by decide) Json.isSpacing_nil) harray
      (Json.isSpacing_cons (by decide) Json.isSpacing_nil)
  have hnone : Json.ofText? "[true,]".toList = none := by
    have hopen : step? (value []) (.mark '[') = some (firstItem []) := rfl
    have htrue : step? (firstItem []) (.word "true".toList) =
        some (after (.bool true) [.items []]) := rfl
    have hcomma : step? (after (.bool true) [.items []]) (.mark ',') =
        some (value [.items [.bool true]]) := rfl
    have hclose : step? (value [.items [.bool true]]) (.mark ']') = none := rfl
    have hreads : Json.ofText? "[true,]".toList =
        (value []).reads? ('[' :: ("true".toList ++ [',', ']'])) := rfl
    rw [hreads, reads?_step (Json.lexemes?_mark rfl _) hopen,
      reads?_step (Json.WrittenWord.true.lexemes?_append (Json.delimited_cons (by decide) _)) htrue,
      reads?_step (Json.lexemes?_mark rfl _) hcomma, reads?_of_lexemes? (Json.lexemes?_mark rfl _), hclose,
      Option.bind_none]
  refine ⟨herror, hgreatest, ((decodeBody_some _).2.2 _ rfl).1 _ hspaced,
    ((decodeBody_some _).2.2 _ rfl).2.1 fun v hv => ?_⟩
  cases hnone.symm.trans (Json.ofText?_eq_some_iff.mpr hv)

end HttpEcho
