import HttpEcho.Proofs.ReadLoop
import HttpEcho.Text.Latin1

/-!
# What the reader asks for

The reader asks for another read only while the bytes so far are too few, so a client that has sent what
its head announces is not waited for. All that was read is returned. Only the last read may bring more than
was needed, which bounds what is returned.
-/

namespace HttpEcho.Reader

variable {events before taken : List ReadEvent}

/-! ### Reads that are asked for -/

theorem run_append_of_finished {raw : Bytes} (h : run before = finished raw) (rest : List ReadEvent) :
    run (before ++ rest) = finished raw := by
  induction rest using List.reverseRecOn with
  | nil => rw [List.append_nil, h]
  | append_singleton rest event ih =>
    rw [← List.append_assoc, run_concat, ih]
    cases event <;> rfl

/-- After each part of the reads that is not all of them the client has not closed its side, and the reader
asks for one more and needs it. -/
def AsksFor (taken : List ReadEvent) : Prop :=
  ∀ before, before <+: taken → before ≠ taken → run before = waiting before ∧
    .closed ∉ before ∧ NeedsMore (before.flatMap ReadEvent.bytes)

theorem run_eq_waiting_of_isPrefix (hopen : ∀ event ∈ events, event.KeepsOpen)
    (hneeds : ∀ before, before <+: events → NeedsMore (before.flatMap ReadEvent.bytes))
    (hpre : before <+: events) : run before = waiting before ∧
      .closed ∉ before ∧ NeedsMore (before.flatMap ReadEvent.bytes) := by
  have hshort : ∀ event ∈ before, event.KeepsOpen := fun event hevent => hopen event (hpre.subset hevent)
  refine ⟨?_, fun hclosed => hshort _ hclosed, hneeds before hpre⟩
  rcases hasRead_run hshort with ⟨-, hrun⟩ | ⟨enough, hfirst, -⟩
  · exact hrun
  · exact absurd (hneeds enough (hfirst.isPrefix.trans hpre)) hfirst.enough

theorem FirstEnough.asksFor (h : FirstEnough taken events)
    (hopen : ∀ event ∈ events, event.KeepsOpen) : AsksFor taken := by
  intro before hbefore hne
  have hshort : ∀ event ∈ before, event.KeepsOpen := fun event hevent =>
    hopen event ((hbefore.trans h.isPrefix).subset hevent)
  refine run_eq_waiting_of_isPrefix hshort (fun first hfirst => ?_) List.prefix_rfl
  refine h.needsMore_of_shorter first (hfirst.trans hbefore) ?_
  rintro rfl
  exact hne (hbefore.eq_of_length_le hfirst.length_le)

theorem keepsOpen_of_ne {event : ReadEvent} (hstop : event ≠ .timedOut true) (hclosed : event ≠ .closed) :
    event.KeepsOpen := by
  cases event with
  | piece bytes => trivial
  | interrupted => trivial
  | timedOut stopping =>
    cases stopping with
    | false => rfl
    | true => exact absurd rfl hstop
  | closed => exact absurd rfl hclosed

/-- When the client closes its side, the reader has finished, then or before. -/
theorem exists_taken_closed (hopen : ∀ event ∈ before, event.KeepsOpen) (after : List ReadEvent) :
    ∃ taken, taken <+: before ++ .closed :: after ∧ AsksFor taken ∧
      run (before ++ .closed :: after) = finished (taken.flatMap ReadEvent.bytes) ∧
        (¬NeedsMore (taken.flatMap ReadEvent.bytes) ∨ taken.getLast? = some .closed) := by
  rw [← List.singleton_append, ← List.append_assoc]
  rcases run_closed_cases hopen with ⟨hneeds, hrun⟩ | ⟨enough, hfirst, hrun⟩
  -- the end of the stream is itself a read that was asked for, and it brings no bytes
  · have hbytes : (before ++ [ReadEvent.closed]).flatMap ReadEvent.bytes =
        before.flatMap ReadEvent.bytes := by
      rw [List.flatMap_append, List.flatMap_singleton]
      exact List.append_nil _
    refine ⟨before ++ [.closed], List.prefix_append _ _, fun first hfirst hne => ?_, ?_, Or.inr ?_⟩
    · exact run_eq_waiting_of_isPrefix hopen hneeds
        ((List.prefix_concat_iff.mp hfirst).resolve_left hne)
    · rw [hbytes]
      exact run_append_of_finished hrun after
    · exact List.getLast?_concat
  · refine ⟨enough, ?_, hfirst.asksFor hopen, run_append_of_finished hrun after, Or.inl hfirst.enough⟩
    rw [List.append_assoc]
    exact hfirst.isPrefix.trans (List.prefix_append _ _)

/-- Unless the server is to stop, the reader takes reads until the client has closed its side or nothing
more is needed. -/
theorem exists_taken (hstop : .timedOut true ∉ events) :
    ∃ taken, taken <+: events ∧ AsksFor taken ∧
      (run events = finished (taken.flatMap ReadEvent.bytes) ∧
          (¬NeedsMore (taken.flatMap ReadEvent.bytes) ∨ taken.getLast? = some .closed) ∨
        taken = events ∧ run events = waiting events ∧ .closed ∉ events ∧
          NeedsMore (events.flatMap ReadEvent.bytes)) := by
  by_cases hclosed : .closed ∈ events
  · obtain ⟨before, after, rfl, hbefore⟩ := List.eq_append_cons_of_mem hclosed
    have hopen : ∀ event ∈ before, event.KeepsOpen := fun event hevent =>
      keepsOpen_of_ne (ne_of_mem_of_not_mem (List.mem_append_left _ hevent) hstop)
        (ne_of_mem_of_not_mem hevent hbefore)
    obtain ⟨taken, hpre, hasks, hrun⟩ := exists_taken_closed hopen after
    exact ⟨taken, hpre, hasks, Or.inl hrun⟩
  · have hopen : ∀ event ∈ events, event.KeepsOpen := fun event hevent =>
      keepsOpen_of_ne (ne_of_mem_of_not_mem hevent hstop) (ne_of_mem_of_not_mem hevent hclosed)
    rcases hasRead_run hopen with ⟨hneeds, hrun⟩ | ⟨enough, hfirst, hrun⟩
    · refine ⟨events, List.prefix_rfl, fun before hbefore _ => ?_, Or.inr ⟨rfl, hrun, hclosed, ?_⟩⟩
      · exact run_eq_waiting_of_isPrefix hopen hneeds hbefore
      · exact hneeds events List.prefix_rfl
    · exact ⟨enough, hfirst.isPrefix, hfirst.asksFor hopen, Or.inl ⟨hrun, Or.inl hfirst.enough⟩⟩

/-! ### How much is read -/

theorem length_lt_of_needsMore {buffer : Bytes} (h : NeedsMore buffer) (rest : Bytes) :
    buffer.length < max maxHeadBytes ((wantedLength? (buffer ++ rest)).getD 0) := by
  cases hwanted : wantedLength? buffer with
  | some wanted =>
    rw [needsMore_iff_of_wantedLength? hwanted] at h
    rw [wantedLength?_append hwanted, Option.getD_some]
    exact Nat.lt_of_lt_of_le h (Nat.le_max_right _ _)
  | none =>
    rw [needsMore_iff_of_wantedLength?_eq_none hwanted] at h
    exact Nat.lt_of_lt_of_le h.2 (Nat.le_max_left _ _)

theorem not_needsMore_of_bodyEnd_le {buffer : Bytes} {e : HeadEnd} {n : Nat}
    (hend : findHeadEnd buffer = some e)
    (hhint : contentLengthHint (buffer.take e.bodyStart) = some n)
    (hle : e.bodyStart + n ≤ buffer.length) : ¬NeedsMore buffer := by
  have hwanted : wantedLength? buffer = some (min (e.bodyStart + n) Text.maxSize) := by
    rw [wantedLength?_of_findHeadEnd hend, hhint, Option.map_some]
  rw [needsMore_iff_of_wantedLength? hwanted, Nat.not_lt]
  exact Nat.le_trans (Nat.min_le_left _ _) hle

/-- Before the last read the bytes were too few, and it brings no more than one read can. -/
theorem AsksFor.length_lt (h : AsksFor taken) (hpieces : ∀ event ∈ taken, event.bytes.length ≤ readChunk)
    (hne : taken ≠ []) : (taken.flatMap ReadEvent.bytes).length <
      max maxHeadBytes ((wantedLength? (taken.flatMap ReadEvent.bytes)).getD 0) + readChunk := by
  obtain ⟨before, last, rfl⟩ := (List.eq_nil_or_concat' taken).resolve_left hne
  obtain ⟨-, -, hneeds⟩ := h before (List.prefix_append _ _) (by simp)
  have hlast := hpieces last (List.mem_append_right _ (List.mem_singleton_self last))
  have hbefore := length_lt_of_needsMore hneeds last.bytes
  rw [List.flatMap_append, List.flatMap_singleton, List.length_append]
  omega

/-- Whatever reads come while the server is not to stop, the reader asks for one more only if the client
has not closed its side and the bytes so far are too few: below the limit without an end of the head, or
below the length that the head announces. It returns all bytes of the reads that it asked for, at most one
read more than the limit or that length, and it returns as soon as the announced bytes are there. -/
theorem run_eq_finished_or_waiting (hstop : .timedOut true ∉ events)
    (hpieces : ∀ event ∈ events, event.bytes.length ≤ readChunk) :
    ∃ taken, taken <+: events ∧ AsksFor taken ∧
      (run events = finished (taken.flatMap ReadEvent.bytes) ∧
          (¬NeedsMore (taken.flatMap ReadEvent.bytes) ∨ taken.getLast? = some .closed) ∧
          (taken.flatMap ReadEvent.bytes).length <
            max maxHeadBytes ((wantedLength? (taken.flatMap ReadEvent.bytes)).getD 0) + readChunk ∨
        taken = events ∧ run events = waiting events ∧ .closed ∉ events ∧
          NeedsMore (events.flatMap ReadEvent.bytes)) ∧
      ∀ e n, findHeadEnd (events.flatMap ReadEvent.bytes) = some e →
        contentLengthHint ((events.flatMap ReadEvent.bytes).take e.bodyStart) = some n →
        e.bodyStart + n ≤ (events.flatMap ReadEvent.bytes).length →
        run events = finished (taken.flatMap ReadEvent.bytes) := by
  obtain ⟨taken, hpre, hasks, hrun⟩ := exists_taken hstop
  refine ⟨taken, hpre, hasks, ?_, fun e n hend hhint hle => ?_⟩
  · rcases hrun with ⟨hrun, hlast⟩ | hwaiting
    · have hne : taken ≠ [] := by
        rintro rfl
        rcases hlast with henough | hclosed
        · exact henough (by decide)
        · cases hclosed
      have hshort := hasks.length_lt (fun event hevent => hpieces event (hpre.subset hevent)) hne
      exact Or.inl ⟨hrun, hlast, hshort⟩
    · exact Or.inr hwaiting
  · rcases hrun with ⟨hrun, -⟩ | ⟨-, -, -, hneeds⟩
    · exact hrun
    · exact absurd hneeds (not_needsMore_of_bodyEnd_le hend hhint hle)

/-- The body is complete in the middle of a read, and the reads behind it are not asked for. -/
theorem run_eq_finished_or_waiting_open_connection :
    let events := [.piece (Text.toLatin1 "POST / HTTP/1.1\r\nContent-Length: 3\r\n\r".toList),
      .timedOut false, .piece (Text.toLatin1 "\nab".toList), .interrupted,
      .piece (Text.toLatin1 "c???".toList), .piece (Text.toLatin1 "more".toList)]
    ∃ taken, taken <+: events ∧ Reader.run events = .finished (taken.flatMap ReadEvent.bytes) := by
  intro events
  have hstop : .timedOut true ∉ events := by decide
  obtain ⟨taken, hpre, -, -, hfinished⟩ := run_eq_finished_or_waiting hstop (by decide)
  exact ⟨taken, hpre, hfinished ⟨34, 38⟩ 3 (by decide) (by decide) (by decide)⟩

end HttpEcho.Reader
