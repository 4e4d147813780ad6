import HttpEcho.Connection.Reader
import HttpEcho.Proofs.HeadEnd
import Mathlib.Data.List.Induction

/-!
# What the reader waits for

Whether more bytes are needed depends only on the bytes that have come, not on how they were cut into
pieces. The reader remembers the length it waits for, and the end of a head does not move when more
comes, so the remembered length is the one that the bytes so far give.
-/

namespace HttpEcho

namespace ReadEvent

def bytes : ReadEvent → Bytes
  | piece bytes => bytes
  | _ => []

/-- The client has not closed its side, and the server is not to stop. -/
def KeepsOpen : ReadEvent → Prop
  | closed => False
  | timedOut stopping => stopping = false
  | _ => True

instance : DecidablePred KeepsOpen
  | piece _ | interrupted => isTrue trivial
  | timedOut stopping => inferInstanceAs (Decidable (stopping = false))
  | closed => isFalse id

end ReadEvent

namespace Reader

/-- The length of the request, once its head is complete and announces one. -/
def wantedLength? (buffer : Bytes) : Option Nat :=
  (findHeadEnd buffer).bind fun e =>
    (contentLengthHint (buffer.take e.bodyStart)).map fun n => min (e.bodyStart + n) Text.maxSize

/-- Without a length to wait for, only a head that is neither complete nor too long needs more. -/
def NeedsMore (buffer : Bytes) : Prop :=
  match wantedLength? buffer with
  | some wanted => buffer.length < wanted
  | none => findHeadEnd buffer = none ∧ buffer.length < maxHeadBytes

instance : DecidablePred NeedsMore := fun buffer =>
  match h : wantedLength? buffer with
  | some wanted => decidable_of_iff (buffer.length < wanted) (by rw [NeedsMore, h])
  | none =>
    decidable_of_iff (findHeadEnd buffer = none ∧ buffer.length < maxHeadBytes) (by rw [NeedsMore, h])

theorem wantedLength?_of_findHeadEnd {buffer : Bytes} {e : HeadEnd}
    (h : findHeadEnd buffer = some e) :
    wantedLength? buffer = (contentLengthHint (buffer.take e.bodyStart)).map fun n =>
      min (e.bodyStart + n) Text.maxSize := by
  rw [wantedLength?, h, Option.bind_some]

theorem wantedLength?_of_findHeadEnd_eq_none {buffer : Bytes} (h : findHeadEnd buffer = none) :
    wantedLength? buffer = none := by
  rw [wantedLength?, h, Option.bind_none]

theorem wantedLength?_append {buffer : Bytes} {wanted : Nat} (h : wantedLength? buffer = some wanted)
    (rest : Bytes) : wantedLength? (buffer ++ rest) = some wanted := by
  cases hend : findHeadEnd buffer with
  | none => rw [wantedLength?_of_findHeadEnd_eq_none hend] at h; cases h
  | some e =>
    rw [wantedLength?_of_findHeadEnd hend] at h
    rw [wantedLength?_of_findHeadEnd (findHeadEnd_append hend rest),
      List.take_append_of_le_length (findHeadEnd_bounds hend).2, h]

theorem needsMore_iff_of_wantedLength? {buffer : Bytes} {wanted : Nat}
    (h : wantedLength? buffer = some wanted) : NeedsMore buffer ↔ buffer.length < wanted := by
  rw [NeedsMore, h]

theorem needsMore_iff_of_wantedLength?_eq_none {buffer : Bytes} (h : wantedLength? buffer = none) :
    NeedsMore buffer ↔ findHeadEnd buffer = none ∧ buffer.length < maxHeadBytes := by
  rw [NeedsMore, h]

theorem maxHeadBytes_le_of_not_needsMore {buffer : Bytes} (hnone : findHeadEnd buffer = none)
    (hbuffer : ¬NeedsMore buffer) : maxHeadBytes ≤ buffer.length := by
  rw [needsMore_iff_of_wantedLength?_eq_none (wantedLength?_of_findHeadEnd_eq_none hnone), not_and,
    Nat.not_lt] at hbuffer
  exact hbuffer hnone

theorem assess_eq {buffer : Bytes} {wanted : Option Nat}
    (h : wanted = none ∨ wanted = wantedLength? buffer) :
    assess buffer wanted =
      if NeedsMore buffer then reading buffer (wantedLength? buffer) else finished buffer := by
  cases hwanted : wantedLength? buffer with
  | some n =>
    simp only [needsMore_iff_of_wantedLength? hwanted]
    rcases h with rfl | rfl
    · cases hend : findHeadEnd buffer with
      | none => rw [wantedLength?_of_findHeadEnd_eq_none hend] at hwanted; cases hwanted
      | some e =>
        rw [wantedLength?_of_findHeadEnd hend, Option.map_eq_some_iff] at hwanted
        obtain ⟨m, hhint, rfl⟩ := hwanted
        simp [assess, hend, hhint, untilLength]
    · simp [assess, hwanted, untilLength]
  | none =>
    obtain rfl : wanted = none := by rcases h with h | h <;> simp [h, hwanted]
    simp only [needsMore_iff_of_wantedLength?_eq_none hwanted]
    cases hend : findHeadEnd buffer with
    | none => simp only [assess, hend, true_and, ← Nat.not_lt, ite_not]
    | some e =>
      rw [wantedLength?_of_findHeadEnd hend, Option.map_eq_none_iff] at hwanted
      simp [assess, hend, hwanted]

@[simp]
theorem step_interrupted (reader : Reader) : reader.step .interrupted = reader := by
  cases reader <;> rfl

@[simp]
theorem step_timedOut_false (reader : Reader) : reader.step (.timedOut false) = reader := by
  cases reader <;> rfl

theorem flatMap_bytes_isPrefix {before events : List ReadEvent} (h : before <+: events) :
    before.flatMap ReadEvent.bytes <+: events.flatMap ReadEvent.bytes := by
  obtain ⟨rest, rfl⟩ := h
  rw [List.flatMap_append]
  exact List.prefix_append _ _

theorem run_concat (events : List ReadEvent) (event : ReadEvent) :
    run (events ++ [event]) = (run events).step event := by
  simp [run]

/-- The reader with all the bytes of some reads, waiting for more. -/
def waiting (events : List ReadEvent) : Reader :=
  reading (events.flatMap ReadEvent.bytes) (wantedLength? (events.flatMap ReadEvent.bytes))

/-- The reads `before` are the first of `events` after which nothing more is needed. -/
structure FirstEnough (before events : List ReadEvent) : Prop where
  isPrefix : before <+: events
  enough : ¬NeedsMore (before.flatMap ReadEvent.bytes)
  needsMore_of_shorter : ∀ shorter, shorter <+: before → shorter ≠ before →
    NeedsMore (shorter.flatMap ReadEvent.bytes)

/-- The state that some reads lead to: all their bytes are kept while more is needed after each of them,
and those up to the first sufficient read otherwise. -/
def HasRead (events : List ReadEvent) (reader : Reader) : Prop :=
  ((∀ before, before <+: events → NeedsMore (before.flatMap ReadEvent.bytes)) ∧
      reader = waiting events) ∨
    ∃ before, FirstEnough before events ∧ reader = finished (before.flatMap ReadEvent.bytes)

theorem step_waiting {events : List ReadEvent} {event : ReadEvent}
    (hneeds : NeedsMore (events.flatMap ReadEvent.bytes)) (hopen : event.KeepsOpen) :
    (waiting events).step event =
      if NeedsMore ((events ++ [event]).flatMap ReadEvent.bytes) then waiting (events ++ [event])
      else finished ((events ++ [event]).flatMap ReadEvent.bytes) := by
  rw [waiting, waiting, List.flatMap_append, List.flatMap_singleton]
  cases event with
  | piece bytes =>
    rw [step, ReadEvent.bytes]
    apply assess_eq
    cases hstream : wantedLength? (events.flatMap ReadEvent.bytes) with
    | none => exact Or.inl rfl
    | some n => exact Or.inr (wantedLength?_append hstream bytes).symm
  | closed => exact absurd hopen id
  | interrupted =>
    have hnone : ReadEvent.interrupted.bytes = [] := rfl
    rw [step_interrupted, hnone, List.append_nil, if_pos hneeds]
  | timedOut stopping =>
    obtain rfl : stopping = false := hopen
    have hnone : (ReadEvent.timedOut false).bytes = [] := rfl
    rw [step_timedOut_false, hnone, List.append_nil, if_pos hneeds]

theorem HasRead.step {events : List ReadEvent} {reader : Reader} {event : ReadEvent}
    (h : HasRead events reader) (hopen : event.KeepsOpen) :
    HasRead (events ++ [event]) (reader.step event) := by
  rcases h with ⟨hneeds, rfl⟩ | ⟨before, hfirst, rfl⟩
  · rw [step_waiting (hneeds events List.prefix_rfl) hopen]
    split
    next hmore =>
      refine Or.inl ⟨fun before hbefore => ?_, rfl⟩
      rcases List.prefix_concat_iff.mp hbefore with rfl | hbefore
      · exact hmore
      · exact hneeds before hbefore
    next hmore =>
      refine Or.inr ⟨_, ⟨List.prefix_rfl, hmore, fun shorter hshorter hne => ?_⟩, rfl⟩
      exact hneeds shorter ((List.prefix_concat_iff.mp hshorter).resolve_left hne)
  · refine Or.inr ⟨before, ⟨?_, hfirst.enough, hfirst.needsMore_of_shorter⟩, ?_⟩
    · exact hfirst.isPrefix.trans (List.prefix_append events [event])
    · cases event <;> rfl

theorem hasRead_run {events : List ReadEvent} (hopen : ∀ event ∈ events, event.KeepsOpen) :
    HasRead events (run events) := by
  induction events using List.reverseRecOn with
  | nil =>
    refine Or.inl ⟨fun before hbefore => ?_, rfl⟩
    rw [List.prefix_nil.mp hbefore]
    decide
  | append_singleton events event ih =>
    have hevents := ih fun other hmem => hopen other (List.mem_append_left _ hmem)
    have hevent := hopen event (List.mem_append_right _ (List.mem_singleton_self event))
    rw [run_concat]
    exact hevents.step hevent

/-- When the client closes, the reader has all its bytes, or those up to the first sufficient read. -/
theorem run_closed_cases {events : List ReadEvent} (hopen : ∀ event ∈ events, event.KeepsOpen) :
    ((∀ before, before <+: events → NeedsMore (before.flatMap ReadEvent.bytes)) ∧
        run (events ++ [.closed]) = finished (events.flatMap ReadEvent.bytes)) ∨
      ∃ before, FirstEnough before events ∧
        run (events ++ [.closed]) = finished (before.flatMap ReadEvent.bytes) := by
  rw [run_concat]
  rcases hasRead_run hopen with ⟨hneeds, hrun⟩ | ⟨before, hfirst, hrun⟩
  · rw [hrun]
    exact Or.inl ⟨hneeds, rfl⟩
  · rw [hrun]
    exact Or.inr ⟨before, hfirst, rfl⟩

theorem run_closed {events : List ReadEvent} (hopen : ∀ event ∈ events, event.KeepsOpen) :
    ∃ raw, run (events ++ [.closed]) = finished raw ∧ raw <+: events.flatMap ReadEvent.bytes ∧
      (raw = events.flatMap ReadEvent.bytes ∨ ¬NeedsMore raw) := by
  rcases run_closed_cases hopen with ⟨-, hrun⟩ | ⟨before, hfirst, hrun⟩
  · exact ⟨_, hrun, List.prefix_rfl, Or.inl rfl⟩
  · exact ⟨_, hrun, flatMap_bytes_isPrefix hfirst.isPrefix, Or.inr hfirst.enough⟩

/-! ### Reading until nothing more is needed -/

theorem assess_cases (buffer : Bytes) (wanted : Option Nat) :
    (∃ more, assess buffer wanted = .reading buffer more) ∨
      assess buffer wanted = .finished buffer := by
  have huntil : ∀ n, (∃ more, untilLength buffer n = .reading buffer more) ∨
      untilLength buffer n = .finished buffer := by
    intro n
    unfold untilLength
    split
    · exact Or.inl ⟨_, rfl⟩
    · exact Or.inr rfl
  unfold assess
  split
  · exact huntil _
  · split
    · split
      · exact Or.inr rfl
      · exact Or.inl ⟨_, rfl⟩
    · split
      · exact Or.inr rfl
      · exact huntil _

/-- The reader keeps all that was read, stops without a byte only at the end of the stream, and gives
up only when it is told to stop. -/
def Heard (events : List ReadEvent) : Prop :=
  match run events with
  | .reading buffer _ => buffer = events.flatMap ReadEvent.bytes
  | .finished raw => raw = events.flatMap ReadEvent.bytes ∧ (raw = [] → .closed ∈ events)
  | .abandoned => .timedOut true ∈ events

theorem heard_nil : Heard [] := rfl

theorem Heard.concat {events : List ReadEvent} {event : ReadEvent} {buffer : Bytes}
    {wanted : Option Nat} (h : Heard events) (hrun : run events = .reading buffer wanted)
    (hevent : event ≠ .piece []) : Heard (events ++ [event]) := by
  rw [Heard, hrun] at h
  obtain rfl : buffer = events.flatMap ReadEvent.bytes := h
  rw [Heard, run_concat, hrun, List.flatMap_append, List.flatMap_singleton]
  cases event with
  | piece bytes =>
    rw [step, ReadEvent.bytes]
    rcases assess_cases (events.flatMap ReadEvent.bytes ++ bytes) wanted with ⟨more, hmore⟩ | hend
    · rw [hmore]
    · rw [hend]
      refine ⟨rfl, fun hnil => ?_⟩
      rw [List.append_eq_nil_iff] at hnil
      exact absurd (congrArg ReadEvent.piece hnil.2) hevent
  | interrupted => exact (List.append_nil _).symm
  | timedOut stopping =>
    cases stopping with
    | false => exact (List.append_nil _).symm
    | true => exact List.mem_append_right _ (List.mem_singleton_self _)
  | closed =>
    refine ⟨(List.append_nil _).symm, fun _ => ?_⟩
    exact List.mem_append_right _ (List.mem_singleton_self _)

end Reader

end HttpEcho
