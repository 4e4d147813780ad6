import HttpEcho.Proofs.Trim
import HttpEcho.Proofs.Utf8
import HttpEcho.Request.Parse

/-!
# Lines before and after decoding

Bytes fall into the same lines whether they are cut before or after they become text, in ISO-8859-1 as
in lossy UTF-8.
-/

namespace HttpEcho

variable {α β : Type} [BEq α] [LawfulBEq α] [BEq β] [LawfulBEq β]

/-- A translation that goes part by part commutes with the cut. -/
theorem splitOn_eq_map_splitOn {f : List α → List β} {a : α} {b : β}
    (hcut : ∀ before after, f (before ++ a :: after) = f before ++ b :: f after)
    (hfree : ∀ part, a ∉ part → b ∉ f part) (xs : List α) :
    (f xs).splitOn b = (xs.splitOn a).map f := by
  by_cases ha : a ∈ xs
  · obtain ⟨before, after, hxs, hbefore⟩ := List.eq_append_cons_of_mem ha
    have ih := splitOn_eq_map_splitOn hcut hfree after
    rw [hxs, hcut, List.splitOn_append_cons_self_of_not_mem (hfree before hbefore),
      List.splitOn_append_cons_self_of_not_mem hbefore, ih, List.map_cons]
  · rw [List.splitOn_eq_singleton ha, List.splitOn_eq_singleton (hfree xs ha), List.map_singleton]
termination_by xs.length
decreasing_by
  rw [hxs, List.length_append, List.length_cons]
  omega

/-- What is added without a separator belongs to the last part. -/
theorem exists_splitOn_append {a : α} {more : List α} (hmore : a ∉ more) (xs : List α) :
    ∃ init last, xs.splitOn a = init ++ [last] ∧ (xs ++ more).splitOn a = init ++ [last ++ more] := by
  by_cases ha : a ∈ xs
  · obtain ⟨before, after, hxs, hbefore⟩ := List.eq_append_cons_of_mem ha
    obtain ⟨init, last, hinit, happend⟩ := exists_splitOn_append hmore after
    rw [hxs]
    refine ⟨before :: init, last, ?_, ?_⟩
    · rw [List.splitOn_append_cons_self_of_not_mem hbefore, hinit, List.cons_append]
    · rw [List.append_assoc, List.cons_append, List.splitOn_append_cons_self_of_not_mem hbefore,
        happend, List.cons_append]
  · refine ⟨[], xs, List.splitOn_eq_singleton ha, List.splitOn_eq_singleton ?_⟩
    rw [List.mem_append]
    exact not_or.mpr ⟨ha, hmore⟩
termination_by xs.length
decreasing_by
  rw [hxs, List.length_append, List.length_cons]
  omega

/-- A part has no separator, and all of it was there before. -/
theorem mem_of_mem_splitOnP {γ : Type} {p : γ → Bool} {xs part : List γ} {x : γ}
    (hpart : part ∈ xs.splitOnP p) (hx : x ∈ part) : x ∈ xs ∧ p x = false := by
  induction xs generalizing part with
  | nil =>
    rw [List.splitOnP_nil, List.mem_singleton] at hpart
    rw [hpart] at hx
    cases hx
  | cons y ys ih =>
    rw [List.splitOnP_cons_eq_if_modifyHead] at hpart
    split at hpart
    · rcases List.mem_cons.mp hpart with rfl | hpart
      · cases hx
      · exact (ih hpart hx).imp_left (List.mem_cons_of_mem y)
    · next hy =>
      obtain ⟨first, rest, hsplit⟩ := List.exists_cons_of_ne_nil (List.splitOnP_ne_nil p ys)
      rw [hsplit, List.modifyHead_cons] at hpart
      rcases List.mem_cons.mp hpart with rfl | hpart
      · rcases List.mem_cons.mp hx with rfl | hx
        · exact ⟨List.mem_cons_self, Bool.eq_false_iff.mpr hy⟩
        · exact (ih (hsplit ▸ List.mem_cons_self) hx).imp_left (List.mem_cons_of_mem y)
      · exact (ih (hsplit ▸ List.mem_cons_of_mem first hpart) hx).imp_left (List.mem_cons_of_mem y)

/-! ### The lines of a head -/

theorem headLines_of_notMem {t : Text} (h : '\n' ∉ t) :
    Request.headLines t = [Text.dropEndWhile (· = '\r') t] := by
  rw [Request.headLines, List.splitOn_eq_singleton h, List.map_singleton]

theorem headLines_append_returns (t : Text) {returns : Text} (h : ∀ c ∈ returns, c = '\r') :
    Request.headLines (t ++ returns) = Request.headLines t := by
  have hfree : '\n' ∉ returns := fun hmem => absurd (h '\n' hmem) (by decide)
  obtain ⟨init, last, ht, happend⟩ := exists_splitOn_append hfree t
  rw [Request.headLines, Request.headLines, ht, happend, List.map_append, List.map_append,
    List.map_singleton, List.map_singleton,
    Text.dropEndWhile_append_of_forall last fun c hc => decide_eq_true (h c hc)]

theorem headLines_append_newline (t : Text) {returns : Text} (h : ∀ c ∈ returns, c = '\r') :
    Request.headLines (t ++ '\n' :: returns) = Request.headLines t ++ [[]] := by
  have hlast : Request.headLines returns = [[]] := headLines_append_returns [] h
  rw [← hlast, Request.headLines, Request.headLines, Request.headLines, List.splitOn_eq_splitOnP,
    List.splitOnP_append_cons t returns (by decide), List.map_append]
  rfl

namespace Text

theorem toNat_toUInt8 {c : Char} (hc : c.toNat ≤ 0xFF) : c.toUInt8.toNat = c.toNat := by
  have hmod : c.toUInt8.toNat = c.toNat % 256 := UInt32.toNat_toUInt8 c.val
  rw [hmod]
  omega

theorem ofLatin1_toLatin1 {t : Text} (ht : ∀ c ∈ t, c.toNat ≤ 0xFF) : ofLatin1 (toLatin1 t) = t := by
  rw [ofLatin1, toLatin1, List.map_map]
  conv => rhs; rw [← List.map_id t]
  refine List.map_congr_left fun c hc => ?_
  apply Char.toNat_inj.mp
  have hbyte : (Char.ofUInt8 c.toUInt8).toNat = c.toUInt8.toNat := UInt8.toNat_toUInt32 c.toUInt8
  rw [Function.comp_apply, hbyte, toNat_toUInt8 (ht c hc), id_eq]

theorem splitOn_ofLatin1 (bytes : Bytes) :
    (ofLatin1 bytes).splitOn '\n' = (bytes.splitOn 0x0A).map ofLatin1 := by
  refine splitOn_eq_map_splitOn (fun before after => ?_) (fun part hpart hmem => ?_) bytes
  · rw [ofLatin1, List.map_append, List.map_cons]
    rfl
  · obtain ⟨b, hb, hchar⟩ := List.mem_map.mp hmem
    have hbyte : b = 0x0A := by
      rw [← UInt8.toUInt8_toUInt32 b]
      exact congrArg Char.toUInt8 hchar
    exact hpart (hbyte ▸ hb)

theorem toNat_le_of_mem_ofLatin1 {c : Char} {bytes : Bytes} (hc : c ∈ ofLatin1 bytes) :
    c.toNat ≤ 0xFF := by
  obtain ⟨b, -, rfl⟩ := List.mem_map.mp hc
  have hbyte : (Char.ofUInt8 b).toNat = b.toNat := UInt8.toNat_toUInt32 b
  have := b.toNat_lt
  omega

theorem splitOn_ofUtf8Lossy (bytes : Bytes) :
    (ofUtf8Lossy bytes).splitOn '\n' = (bytes.splitOn 0x0A).map ofUtf8Lossy := by
  refine splitOn_eq_map_splitOn (fun before after => ?_) (fun part hpart hmem => ?_) bytes
  · exact ofUtf8Lossy_append_ascii (by decide) before after
  · exact hpart (mem_of_mem_ofUtf8Lossy (by decide) hmem)

/-- The lines of a head hold no line feed and no character beyond ISO-8859-1. -/
theorem of_mem_headLines {line : Text} {head : Bytes}
    (hline : line ∈ Request.headLines (ofLatin1 head)) :
    '\n' ∉ line ∧ ∀ c ∈ line, c.toNat ≤ 0xFF := by
  obtain ⟨part, hpart, rfl⟩ := List.mem_map.mp hline
  have hsub : dropEndWhile (· = '\r') part ⊆ part := (List.rdropWhile_prefix _ part).subset
  rw [List.splitOn_eq_splitOnP] at hpart
  constructor
  · intro hmem
    exact absurd (mem_of_mem_splitOnP hpart (hsub hmem)).2 (by decide)
  · intro c hc
    exact toNat_le_of_mem_ofLatin1 (mem_of_mem_splitOnP hpart (hsub hc)).1

theorem ofUtf8Lossy_append_of_ascii {tail : Bytes} (htail : ∀ b ∈ tail, b.toNat < 0x80)
    (bytes : Bytes) : ofUtf8Lossy (bytes ++ tail) = ofUtf8Lossy bytes ++ ofLatin1 tail := by
  cases tail with
  | nil => rw [List.append_nil, ofLatin1, List.map_nil, List.append_nil]
  | cons b rest =>
    rw [List.forall_mem_cons] at htail
    rw [ofUtf8Lossy_append_ascii htail.1, ofUtf8Lossy_of_ascii htail.2]
    rfl

/-! ### One carriage return at the end of a line -/

def dropReturn (line : Text) : Text := if line.getLast? = some '\r' then line.dropLast else line

theorem lines_eq {t last : Text} {init : List Text} (hparts : t.splitOn '\n' = init ++ [last]) :
    lines t = init.map dropReturn ++ if last = [] then [] else [last] := by
  rw [lines, hparts]
  simp only [List.dropLast_concat, List.getLast?_concat]
  cases last with
  | nil => rw [if_pos rfl, List.append_nil]; rfl
  | cons c rest => rw [if_neg (List.cons_ne_nil c rest)]; rfl

/-- For a reading of lines that skips an empty one and does not see a carriage return at the end, the
lines of a text are its parts between line feeds. -/
theorem filterMap_lines {γ : Type} {read : Text → Option γ} (hnil : read [] = none)
    (hreturn : ∀ line, read (line ++ ['\r']) = read line) (t : Text) :
    ((lines t).drop 1).filterMap read = ((t.splitOn '\n').drop 1).filterMap read := by
  have hdrop : ∀ line, read (dropReturn line) = read line := by
    intro line
    unfold dropReturn
    split
    · next hlast => rw [← hreturn line.dropLast, List.dropLast_append_getLast? '\r' hlast]
    · rfl
  have hinit : ∀ init : List Text, (init.map dropReturn).filterMap read = init.filterMap read := by
    intro init
    rw [List.filterMap_map]
    exact List.filterMap_congr fun line _ => hdrop line
  have hlast : ∀ last : Text,
      (if last = [] then [] else [last]).filterMap read = [last].filterMap read := by
    intro last
    split
    · next h => rw [h, List.filterMap_cons_none hnil]
    · rfl
  obtain ⟨init, last, hparts⟩ : ∃ init last, t.splitOn '\n' = init ++ [last] :=
    ⟨_, _, (List.dropLast_append_getLast (List.splitOn_ne_nil '\n' t)).symm⟩
  rw [lines_eq hparts, hparts]
  cases init with
  | nil => split <;> rfl
  | cons first init =>
    rw [List.map_cons, List.cons_append, List.cons_append, List.drop_one, List.drop_one,
      List.tail_cons, List.tail_cons, List.filterMap_append, List.filterMap_append, hinit, hlast]

end Text

end HttpEcho
