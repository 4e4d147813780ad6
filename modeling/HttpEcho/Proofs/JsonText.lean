import HttpEcho.Proofs.Entries
import HttpEcho.Proofs.JsonDocument
import HttpEcho.Proofs.JsonShape

/-!
# A written value is read back

Both layouts write a document for the value: the white space of the layout goes around its parts. So the value
is read back, if nothing in it is lost.
-/

namespace HttpEcho.Json

variable {d : Nat} {layout : Layout}

theorem isSpacing_newline (layout : Layout) (level : Nat) : IsSpacing (layout.newline level) := by
  cases layout with
  | compact => exact isSpacing_nil
  | pretty =>
    refine isSpacing_cons (by decide) fun c hc => ?_
    rw [List.eq_of_mem_replicate hc]
    decide

theorem exists_colon (layout : Layout) : ∃ space, layout.colon = ':' :: space ∧ IsSpacing space := by
  cases layout with
  | compact => exact ⟨[], rfl, isSpacing_nil⟩
  | pretty => exact ⟨[' '], rfl, isSpacing_cons (by decide) isSpacing_nil⟩

/-- Whatever its level, the value is written as a document. -/
def WritesDocument (d : Nat) (layout : Layout) (v : Json) : Prop :=
  ∀ level, IsDocument d (render layout level v) v

/-- The items behind a first one, where the white space in front of the end belongs to the last of them. -/
theorem exists_items {vs : List Json} (hvs : ∀ v ∈ vs, WritesDocument d layout v) (level : Nat) {t : Text}
    {v : Json} (ht : IsDocument d t v) :
    ∃ (first : Text × Json) (more : List (Text × Json)),
      t ++ renderItems layout level vs = first.1 ++ more.flatMap (fun item => ',' :: item.1) ++ [']'] ∧
        first.2 :: more.map Prod.snd = v :: vs ∧ IsDocument d first.1 first.2 ∧
          ∀ item ∈ more, IsDocument d item.1 item.2 := by
  induction vs generalizing t v with
  | nil =>
    refine ⟨(t ++ layout.newline level, v), [], ?_, rfl,
      ht.append_spacing (isSpacing_newline layout level), List.forall_mem_nil _⟩
    rw [renderItems, List.flatMap_nil, List.append_nil, List.append_assoc]
  | cons w vs ih =>
    rw [List.forall_mem_cons] at hvs
    have hw := (hvs.1 (level + 1)).prepend_spacing (isSpacing_newline layout (level + 1))
    obtain ⟨first, more, htext, hvalues, hfirst, hmore⟩ := ih hvs.2 hw
    refine ⟨(t, v), first :: more, ?_, by rw [← hvalues]; rfl, ht,
      List.forall_mem_cons.mpr ⟨hfirst, hmore⟩⟩
    rw [renderItems, List.cons_append, List.cons_append, htext]
    simp

theorem writtenKey_quote (layout : Layout) (level : Nat) (k : Text) :
    WrittenKey (layout.newline level ++ quote k) k :=
  ⟨layout.newline level, escape k, [], (List.append_assoc _ _ _).symm,
    isSpacing_newline layout level, writtenString_escape k, isSpacing_nil⟩

theorem exists_members {ms : List (Text × Json)} (hms : ∀ m ∈ ms, WritesDocument d layout m.2)
    (level : Nat) {keyText k t : Text} {v : Json} (hkey : WrittenKey keyText k) (ht : IsDocument d t v) :
    ∃ (first : Member) (more : List Member),
      keyText ++ ':' :: t ++ renderMembers layout level ms =
          first.text ++ more.flatMap (fun m => ',' :: m.text) ++ ['\x7d'] ∧
        first.entry :: more.map Member.entry = (k, v) :: ms ∧
          (∀ m ∈ first :: more, WrittenKey m.keyText m.key) ∧
            ∀ m ∈ first :: more, IsDocument d m.valueText m.value := by
  induction ms generalizing keyText k t v with
  | nil =>
    refine ⟨⟨keyText, k, t ++ layout.newline level, v⟩, [], ?_, rfl, ?_, ?_⟩
    · rw [renderMembers, Member.text]
      simp
    · exact List.forall_mem_singleton.mpr hkey
    · exact List.forall_mem_singleton.mpr (ht.append_spacing (isSpacing_newline layout level))
  | cons m ms ih =>
    obtain ⟨k', w⟩ := m
    rw [List.forall_mem_cons] at hms
    obtain ⟨space, hcolon, hspace⟩ := exists_colon layout
    have hw := (hms.1 (level + 1)).prepend_spacing hspace
    obtain ⟨first, more, htext, hentries, hkeys, hvalues⟩ :=
      ih hms.2 (writtenKey_quote layout (level + 1) k') hw
    refine ⟨⟨keyText, k, t, v⟩, first :: more, ?_, ?_, List.forall_mem_cons.mpr ⟨hkey, hkeys⟩,
      List.forall_mem_cons.mpr ⟨ht, hvalues⟩⟩
    · rw [renderMembers, hcolon, Member.text, List.flatMap_cons]
      simp only [List.append_assoc, List.cons_append] at htext ⊢
      rw [htext]
    · rw [← hentries]
      rfl

theorem writesDocument_of_exact {v : Json} (h : Exact d v) (layout : Layout) :
    WritesDocument d layout v := by
  induction h with
  | null d => exact fun level => .word d .null
  | bool d b =>
    cases b with
    | true => exact fun level => .word d .true
    | false => exact fun level => .word d .false
  | int d hn => exact fun level => .word d (writtenWord_ofInt hn)
  | str d s => exact fun level => .string d (writtenString_escape s)
  | @arr d items hitems ih =>
    intro level
    cases items with
    | nil => exact .emptyArray d isSpacing_nil
    | cons v vs =>
      rw [List.forall_mem_cons] at ih
      have hv := (ih.1 (level + 1)).prepend_spacing (isSpacing_newline layout (level + 1))
      obtain ⟨first, more, htext, hvalues, hfirst, hmore⟩ := exists_items ih.2 level hv
      have harray := IsDocument.array hfirst hmore
      rw [hvalues, List.cons_append, List.cons_append, ← htext] at harray
      rwa [render, List.cons_append, List.cons_append]
  | @obj d members hkeys hmembers ih =>
    intro level
    cases members with
    | nil => exact .emptyObject d isSpacing_nil
    | cons m ms =>
      obtain ⟨k, v⟩ := m
      rw [List.forall_mem_cons] at ih
      obtain ⟨space, hcolon, hspace⟩ := exists_colon layout
      obtain ⟨first, more, htext, hentries, hkey, hvalue⟩ := exists_members ih.2 level
        (writtenKey_quote layout (level + 1) k) ((ih.1 (level + 1)).prepend_spacing hspace)
      rw [List.forall_mem_cons] at hkey hvalue
      have hobject := IsDocument.object hkey.1 hvalue.1 hkey.2 hvalue.2
      rw [hentries, Entries.ofList_of_nodup hkeys, List.cons_append, List.cons_append, ← htext] at hobject
      rw [render, hcolon]
      simpa using hobject

/-- What a layout writes is read as the value, if nothing in it is lost. -/
theorem ofText?_render {v : Json} (h : Exact maxDepth v) (layout : Layout) :
    ofText? (render layout 0 v) = some v :=
  ofText?_eq_some_iff.mpr (writesDocument_of_exact h layout 0)

end HttpEcho.Json
