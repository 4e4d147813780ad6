import HttpEcho.Request.Head
import Mathlib.Data.List.Basic

/-!
# Where a head ends

The end of a head is settled as soon as its blank line is there: the bytes in front of it do not show
one, and the bytes after it are not looked at. What a connection has read so far therefore shows the
head's end of the whole stream or none at all.
-/

namespace HttpEcho

theorem blankLineLength?_eq_some_iff {raw : Bytes} {n : Nat} :
    blankLineLength? raw = some n ↔
      ([0x0D, 0x0A, 0x0D, 0x0A] <+: raw ∧ n = 4) ∨ ([0x0A, 0x0A] <+: raw ∧ n = 2) := by
  constructor
  · intro h
    unfold blankLineLength? at h
    split at h
    · exact Or.inl ⟨⟨_, rfl⟩, (Option.some.inj h).symm⟩
    · exact Or.inr ⟨⟨_, rfl⟩, (Option.some.inj h).symm⟩
    · cases h
  · rintro (⟨⟨rest, rfl⟩, rfl⟩ | ⟨⟨rest, rfl⟩, rfl⟩) <;> rfl

theorem blankLineLength?_le {raw : Bytes} {n : Nat} (h : blankLineLength? raw = some n) :
    0 < n ∧ n ≤ raw.length := by
  rcases blankLineLength?_eq_some_iff.mp h with ⟨hpre, rfl⟩ | ⟨hpre, rfl⟩
  · exact ⟨by decide, hpre.length_le⟩
  · exact ⟨by decide, hpre.length_le⟩

theorem blankLineLength?_append {raw : Bytes} {n : Nat} (h : blankLineLength? raw = some n)
    (rest : Bytes) : blankLineLength? (raw ++ rest) = some n := by
  rw [blankLineLength?_eq_some_iff] at h ⊢
  rcases h with ⟨hpre, hn⟩ | ⟨hpre, hn⟩
  · exact Or.inl ⟨hpre.trans (List.prefix_append raw rest), hn⟩
  · exact Or.inr ⟨hpre.trans (List.prefix_append raw rest), hn⟩

theorem blankLineLength?_take {raw : Bytes} {n : Nat} (h : blankLineLength? raw = some n) :
    blankLineLength? (raw.take n) = some n := by
  rw [blankLineLength?_eq_some_iff] at h ⊢
  rcases h with ⟨⟨rest, rfl⟩, rfl⟩ | ⟨⟨rest, rfl⟩, rfl⟩
  · exact Or.inl ⟨⟨[], rfl⟩, rfl⟩
  · exact Or.inr ⟨⟨[], rfl⟩, rfl⟩

theorem findHeadEnd_cons_of_blank {b : UInt8} {raw : Bytes} {n : Nat}
    (h : blankLineLength? (b :: raw) = some n) : findHeadEnd (b :: raw) = some ⟨0, n⟩ := by
  simp [findHeadEnd, h]

theorem findHeadEnd_cons_of_not_blank {b : UInt8} {raw : Bytes}
    (h : blankLineLength? (b :: raw) = none) :
    findHeadEnd (b :: raw) =
      (findHeadEnd raw).map fun e => ⟨e.headLength + 1, e.bodyStart + 1⟩ := by
  simp [findHeadEnd, h]

theorem findHeadEnd_cons_of_next {b : UInt8} {raw : Bytes} {e : HeadEnd}
    (hblank : blankLineLength? (b :: raw) = none) (h : findHeadEnd raw = some e) :
    findHeadEnd (b :: raw) = some ⟨e.headLength + 1, e.bodyStart + 1⟩ := by
  rw [findHeadEnd_cons_of_not_blank hblank, h]
  rfl

/-- The end of a head is found where a blank line starts, or behind a byte at which none does. -/
theorem findHeadEnd_induction
    {motive : (raw : Bytes) → (e : HeadEnd) → findHeadEnd raw = some e → Prop}
    (here : ∀ b raw n (hblank : blankLineLength? (b :: raw) = some n),
      motive (b :: raw) ⟨0, n⟩ (findHeadEnd_cons_of_blank hblank))
    (next : ∀ b raw e (hblank : blankLineLength? (b :: raw) = none) (h : findHeadEnd raw = some e),
      motive raw e h →
        motive (b :: raw) ⟨e.headLength + 1, e.bodyStart + 1⟩ (findHeadEnd_cons_of_next hblank h))
    (raw : Bytes) (e : HeadEnd) (h : findHeadEnd raw = some e) : motive raw e h := by
  induction raw generalizing e with
  | nil => cases h
  | cons b raw ih =>
    cases hblank : blankLineLength? (b :: raw) with
    | some n =>
      obtain rfl := Option.some.inj ((findHeadEnd_cons_of_blank hblank).symm.trans h)
      exact here b raw n hblank
    | none =>
      obtain ⟨e', he', rfl⟩ :=
        Option.map_eq_some_iff.mp ((findHeadEnd_cons_of_not_blank hblank).symm.trans h)
      exact next b raw e' hblank he' (ih e' he')

/-- A blank line that is still incomplete leaves no room for another one behind its first byte. -/
theorem findHeadEnd_eq_none_of_incomplete {b : UInt8} {raw rest : Bytes} {n : Nat}
    (hnone : blankLineLength? (b :: raw) = none)
    (hsome : blankLineLength? (b :: raw ++ rest) = some n) : findHeadEnd raw = none := by
  rcases blankLineLength?_eq_some_iff.mp hsome with ⟨⟨tail, htail⟩, -⟩ | ⟨⟨tail, htail⟩, -⟩
  · match raw with
    | [] => rfl
    | [x] => simp_all [findHeadEnd, blankLineLength?]
    | [x, y] =>
      obtain ⟨rfl, rfl, rfl, -⟩ : b = 0x0D ∧ x = 0x0A ∧ y = 0x0D ∧ _ := by simpa using htail.symm
      rfl
    | x :: y :: z :: raw =>
      obtain ⟨rfl, rfl, rfl, rfl, -⟩ : b = 0x0D ∧ x = 0x0A ∧ y = 0x0D ∧ z = 0x0A ∧ _ := by
        simpa using htail.symm
      cases hnone
  · match raw with
    | [] => rfl
    | x :: raw =>
      obtain ⟨rfl, rfl, -⟩ : b = 0x0A ∧ x = 0x0A ∧ _ := by simpa using htail.symm
      cases hnone

/-- More bytes do not move the end of a head. -/
theorem findHeadEnd_append {raw : Bytes} {e : HeadEnd} (h : findHeadEnd raw = some e)
    (rest : Bytes) : findHeadEnd (raw ++ rest) = some e := by
  induction raw, e, h using findHeadEnd_induction with
  | here b raw n hblank => exact findHeadEnd_cons_of_blank (blankLineLength?_append hblank rest)
  | next b raw e hblank h ih =>
    cases hlong : blankLineLength? (b :: raw ++ rest) with
    | some n => rw [findHeadEnd_eq_none_of_incomplete hblank hlong] at h; cases h
    | none => exact findHeadEnd_cons_of_next hlong ih

theorem findHeadEnd_bounds {raw : Bytes} {e : HeadEnd} (h : findHeadEnd raw = some e) :
    e.headLength < e.bodyStart ∧ e.bodyStart ≤ raw.length := by
  induction raw, e, h using findHeadEnd_induction with
  | here b raw n hblank => exact blankLineLength?_le hblank
  | next b raw e hblank h ih =>
    simp only [List.length_cons]
    omega

/-- Between the head and the body stand two line endings of the same kind. -/
theorem take_bodyStart {raw : Bytes} {e : HeadEnd} (h : findHeadEnd raw = some e) :
    ∃ ending : Bytes, (ending = [0x0D] ∨ ending = []) ∧
      raw.take e.bodyStart =
        raw.take e.headLength ++ (ending ++ 0x0A :: (ending ++ 0x0A :: [])) := by
  induction raw, e, h using findHeadEnd_induction with
  | here b raw n hblank =>
    rcases blankLineLength?_eq_some_iff.mp hblank with ⟨⟨rest, hrest⟩, rfl⟩ | ⟨⟨rest, hrest⟩, rfl⟩
    · exact ⟨[0x0D], Or.inl rfl, by rw [← hrest]; rfl⟩
    · exact ⟨[], Or.inr rfl, by rw [← hrest]; rfl⟩
  | next b raw e hblank h ih =>
    obtain ⟨ending, hending, htake⟩ := ih
    refine ⟨ending, hending, ?_⟩
    rw [List.take_succ_cons, List.take_succ_cons, htake, List.cons_append]

theorem findHeadEnd_take_bodyStart {raw : Bytes} {e : HeadEnd} (h : findHeadEnd raw = some e) :
    findHeadEnd (raw.take e.bodyStart) = some e := by
  induction raw, e, h using findHeadEnd_induction with
  | here b raw n hblank =>
    obtain ⟨m, rfl⟩ := Nat.exists_eq_add_one_of_ne_zero
      (Nat.pos_iff_ne_zero.mp (blankLineLength?_le hblank).1)
    exact findHeadEnd_cons_of_blank (blankLineLength?_take hblank)
  | next b raw e hblank h ih =>
    have hshort : blankLineLength? (b :: raw.take e.bodyStart) = none := by
      by_contra hsome
      obtain ⟨n, hn⟩ := Option.ne_none_iff_exists'.mp hsome
      have hlong := blankLineLength?_append hn (raw.drop e.bodyStart)
      rw [List.cons_append, List.take_append_drop, hblank] at hlong
      cases hlong
    exact findHeadEnd_cons_of_next hshort ih

theorem findHeadEnd_take_of_le {raw : Bytes} {e : HeadEnd} {n : Nat} (h : findHeadEnd raw = some e)
    (hle : e.bodyStart ≤ n) : findHeadEnd (raw.take n) = some e := by
  have htake : (raw.take n).take e.bodyStart = raw.take e.bodyStart := by
    rw [List.take_take, Nat.min_eq_left hle]
  rw [← List.take_append_drop e.bodyStart (raw.take n), htake]
  exact findHeadEnd_append (findHeadEnd_take_bodyStart h) _

theorem findHeadEnd_of_isPrefix {raw stream : Bytes} {e : HeadEnd} (hpre : raw <+: stream)
    (h : findHeadEnd stream = some e) (hle : e.bodyStart ≤ raw.length) : findHeadEnd raw = some e := by
  rw [List.prefix_iff_eq_take.mp hpre]
  exact findHeadEnd_take_of_le h hle

theorem findHeadEnd_eq_of_isPrefix {raw stream : Bytes} {e : HeadEnd} (hpre : raw <+: stream)
    (h : findHeadEnd raw = some e) : findHeadEnd stream = some e := by
  obtain ⟨rest, rfl⟩ := hpre
  exact findHeadEnd_append h rest

theorem findHeadEnd_eq_none_of_isPrefix {raw stream : Bytes} (hpre : raw <+: stream)
    (h : findHeadEnd stream = none) : findHeadEnd raw = none := by
  cases hraw : findHeadEnd raw with
  | none => rfl
  | some e => rw [findHeadEnd_eq_of_isPrefix hpre hraw] at h; cases h

theorem findHeadEnd_take_eq_none_iff {raw : Bytes} {n : Nat} (hlong : n ≤ raw.length) :
    findHeadEnd (raw.take n) = none ↔ ∀ e, findHeadEnd raw = some e → n < e.bodyStart := by
  constructor
  · intro hnone e he
    by_contra hle
    rw [findHeadEnd_take_of_le he (Nat.not_lt.mp hle)] at hnone
    cases hnone
  · intro h
    cases hshort : findHeadEnd (raw.take n) with
    | none => rfl
    | some e =>
      have hlt := h e (findHeadEnd_eq_of_isPrefix (List.take_prefix n raw) hshort)
      have hle := (findHeadEnd_bounds hshort).2
      rw [List.length_take_of_le hlong] at hle
      omega

/-! ### The first blank line -/

/-- A blank line starts at position `i`. -/
def HasBlankLineAt (raw : Bytes) (i : Nat) : Prop :=
  [0x0D, 0x0A, 0x0D, 0x0A] <+: raw.drop i ∨ [0x0A, 0x0A] <+: raw.drop i

theorem hasBlankLineAt_iff {raw : Bytes} {i : Nat} :
    HasBlankLineAt raw i ↔ ∃ n, blankLineLength? (raw.drop i) = some n := by
  simp only [blankLineLength?_eq_some_iff, HasBlankLineAt]
  constructor
  · rintro (h | h)
    · exact ⟨4, Or.inl ⟨h, rfl⟩⟩
    · exact ⟨2, Or.inr ⟨h, rfl⟩⟩
  · rintro ⟨n, ⟨h, -⟩ | ⟨h, -⟩⟩
    · exact Or.inl h
    · exact Or.inr h

theorem not_hasBlankLineAt_zero {raw : Bytes} (h : blankLineLength? raw = none) :
    ¬HasBlankLineAt raw 0 := by
  rw [hasBlankLineAt_iff, List.drop_zero, h]
  simp

theorem findHeadEnd_eq_none_iff {raw : Bytes} :
    findHeadEnd raw = none ↔ ∀ i, ¬HasBlankLineAt raw i := by
  induction raw with
  | nil => simp [findHeadEnd, HasBlankLineAt]
  | cons b raw ih =>
    cases hblank : blankLineLength? (b :: raw) with
    | some n =>
      have hstart : HasBlankLineAt (b :: raw) 0 := hasBlankLineAt_iff.mpr ⟨n, hblank⟩
      rw [findHeadEnd_cons_of_blank hblank]
      exact ⟨nofun, fun h => absurd hstart (h 0)⟩
    | none =>
      rw [findHeadEnd_cons_of_not_blank hblank, Option.map_eq_none_iff, ih]
      refine ⟨fun h i => ?_, fun h i => h (i + 1)⟩
      cases i with
      | zero => exact not_hasBlankLineAt_zero hblank
      | succ i => exact h i

theorem not_hasBlankLineAt_of_lt {raw : Bytes} {e : HeadEnd} {i : Nat} (h : findHeadEnd raw = some e)
    (hi : i < e.headLength) : ¬HasBlankLineAt raw i := by
  induction raw, e, h using findHeadEnd_induction generalizing i with
  | here b raw n hblank => exact absurd hi (Nat.not_lt_zero i)
  | next b raw e hblank h ih =>
    cases i with
    | zero => exact not_hasBlankLineAt_zero hblank
    | succ i => exact ih (Nat.lt_of_succ_lt_succ hi)

/-- Between the head and the body stands a blank line, and none starts before it. -/
structure IsFirstBlankLine (raw : Bytes) (e : HeadEnd) : Prop where
  bodyStart_le : e.bodyStart ≤ raw.length
  between_eq : (raw.take e.bodyStart).drop e.headLength = [0x0D, 0x0A, 0x0D, 0x0A] ∨
    (raw.take e.bodyStart).drop e.headLength = [0x0A, 0x0A]
  not_before : ∀ i < e.headLength, ¬HasBlankLineAt raw i

namespace IsFirstBlankLine

variable {raw : Bytes} {e e' : HeadEnd}

theorem blankLineLength?_eq (h : IsFirstBlankLine raw e) :
    blankLineLength? (raw.drop e.headLength) = some (e.bodyStart - e.headLength) := by
  have hlength : ((raw.take e.bodyStart).drop e.headLength).length = e.bodyStart - e.headLength := by
    rw [List.length_drop, List.length_take_of_le h.bodyStart_le]
  have hpre : (raw.take e.bodyStart).drop e.headLength <+: raw.drop e.headLength := by
    rw [List.drop_take]
    exact List.take_prefix _ _
  rw [blankLineLength?_eq_some_iff]
  rcases h.between_eq with hreturns | hfeeds
  · rw [hreturns] at hlength hpre
    exact Or.inl ⟨hpre, hlength.symm⟩
  · rw [hfeeds] at hlength hpre
    exact Or.inr ⟨hpre, hlength.symm⟩

theorem hasBlankLineAt (h : IsFirstBlankLine raw e) : HasBlankLineAt raw e.headLength :=
  hasBlankLineAt_iff.mpr ⟨_, h.blankLineLength?_eq⟩

theorem unique (h : IsFirstBlankLine raw e) (h' : IsFirstBlankLine raw e') : e = e' := by
  have hhead : e.headLength = e'.headLength := by
    rcases Nat.lt_trichotomy e.headLength e'.headLength with hlt | heq | hgt
    · exact absurd h.hasBlankLineAt (h'.not_before _ hlt)
    · exact heq
    · exact absurd h'.hasBlankLineAt (h.not_before _ hgt)
  have hblank := h.blankLineLength?_eq
  rw [hhead] at hblank
  have hpos := (blankLineLength?_le hblank).1
  have hlength := Option.some.inj (hblank.symm.trans h'.blankLineLength?_eq)
  have hbody : e.bodyStart = e'.bodyStart := by omega
  exact congrArg₂ HeadEnd.mk hhead hbody

end IsFirstBlankLine

theorem isFirstBlankLine_of_findHeadEnd {raw : Bytes} {e : HeadEnd} (h : findHeadEnd raw = some e) :
    IsFirstBlankLine raw e where
  bodyStart_le := (findHeadEnd_bounds h).2
  between_eq := by
    have hbounds := findHeadEnd_bounds h
    obtain ⟨ending, hending, htake⟩ := take_bodyStart h
    rw [htake, List.drop_left' (List.length_take_of_le (by omega))]
    rcases hending with rfl | rfl
    · exact Or.inl rfl
    · exact Or.inr rfl
  not_before := fun _ => not_hasBlankLineAt_of_lt h

theorem findHeadEnd_eq_some_iff {raw : Bytes} {e : HeadEnd} :
    findHeadEnd raw = some e ↔ IsFirstBlankLine raw e := by
  refine ⟨isFirstBlankLine_of_findHeadEnd, fun h => ?_⟩
  cases hfind : findHeadEnd raw with
  | none => exact absurd h.hasBlankLineAt (findHeadEnd_eq_none_iff.mp hfind _)
  | some e' => rw [h.unique (isFirstBlankLine_of_findHeadEnd hfind)]

/-- A head ends at the first blank line if there is one, and more bytes do not move its end, also where
they complete a blank line that began behind it. -/
theorem findHeadEnd_settled (raw : Bytes) :
    (∀ e, findHeadEnd raw = some e ↔ IsFirstBlankLine raw e) ∧
      (findHeadEnd raw = none ↔ ∀ i, ¬HasBlankLineAt raw i) ∧
      ∀ e rest, findHeadEnd raw = some e → findHeadEnd (raw ++ rest) = some e :=
  ⟨fun _ => findHeadEnd_eq_some_iff, findHeadEnd_eq_none_iff, fun _ rest h => findHeadEnd_append h rest⟩

theorem findHeadEnd_settled_incomplete_ending :
    findHeadEnd [0x61, 0x0D, 0x0A, 0x0A, 0x0D, 0x0A, 0x0D] = some ⟨2, 4⟩ ∧
      findHeadEnd [0x61, 0x0D, 0x0A, 0x0A, 0x0D, 0x0A, 0x0D, 0x0A] = some ⟨2, 4⟩ := by
  have hfound : findHeadEnd [0x61, 0x0D, 0x0A, 0x0A, 0x0D, 0x0A, 0x0D] = some ⟨2, 4⟩ := by decide
  exact ⟨hfound, (findHeadEnd_settled _).2.2 _ [0x0A] hfound⟩

/-! ### Heads made of lines -/

/-- After each line feed a line begins that is not empty. -/
def Unbroken : Bytes → Prop
  | [] => True
  | b :: rest => (b = 0x0A → ∃ c tail, rest = c :: tail ∧ c ≠ 0x0D ∧ c ≠ 0x0A) ∧ Unbroken rest

theorem findHeadEnd_of_unbroken {head : Bytes} (hhead : Unbroken head) (rest : Bytes) :
    findHeadEnd (head ++ 0x0D :: 0x0A :: 0x0D :: 0x0A :: rest) =
      some ⟨head.length, head.length + 4⟩ := by
  induction head with
  | nil => rfl
  | cons b head ih =>
    obtain ⟨hnext, hrest⟩ := hhead
    have hblank : blankLineLength? (b :: (head ++ 0x0D :: 0x0A :: 0x0D :: 0x0A :: rest)) = none := by
      by_contra hsome
      obtain ⟨n, hn⟩ := Option.ne_none_iff_exists'.mp hsome
      rcases blankLineLength?_eq_some_iff.mp hn with ⟨⟨tail, htail⟩, -⟩ | ⟨⟨tail, htail⟩, -⟩
      · -- the line feed after `b` belongs to the head, so the return behind it would begin a line
        obtain ⟨-, htail⟩ := List.cons.inj htail
        cases head with
        | nil => cases htail
        | cons x head =>
          obtain ⟨hx, hafter⟩ := List.cons.inj htail
          obtain ⟨c, line, rfl, hreturn, -⟩ := hrest.1 hx.symm
          exact hreturn (List.cons.inj hafter).1.symm
      · obtain ⟨hb, hafter⟩ := List.cons.inj htail
        obtain ⟨c, line, rfl, -, hfeed⟩ := hnext hb.symm
        exact hfeed (List.cons.inj hafter).1.symm
    rw [List.cons_append, findHeadEnd_cons_of_not_blank hblank, ih hrest]
    rfl

theorem unbroken_append {line rest : Bytes} (hline : 0x0A ∉ line) (hrest : Unbroken rest) :
    Unbroken (line ++ rest) := by
  induction line with
  | nil => exact hrest
  | cons b line ih =>
    rw [List.mem_cons, not_or] at hline
    exact ⟨fun hb => absurd hb.symm hline.1, ih hline.2⟩

theorem unbroken_lines {first : Bytes} {lines : List Bytes} (hfirst : 0x0A ∉ first)
    (hlines : ∀ line ∈ lines, 0x0A ∉ line ∧ ∃ c tail, line = c :: tail ∧ c ≠ 0x0D) :
    Unbroken (first ++ lines.flatMap fun line => 0x0D :: 0x0A :: line) := by
  induction lines generalizing first with
  | nil => exact unbroken_append hfirst trivial
  | cons line lines ih =>
    rw [List.forall_mem_cons] at hlines
    obtain ⟨⟨hline, c, tail, rfl, hreturn⟩, hlines⟩ := hlines
    rw [List.mem_cons, not_or] at hline
    apply unbroken_append hfirst
    refine ⟨fun h => absurd h (by decide), fun _ => ⟨c, _, rfl, hreturn, Ne.symm hline.1⟩, ?_⟩
    exact ih (List.mem_cons.not.mpr (not_or.mpr hline)) hlines

end HttpEcho
