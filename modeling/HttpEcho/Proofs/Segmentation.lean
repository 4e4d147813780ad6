import HttpEcho.Proofs.Parsing
import HttpEcho.Proofs.ReadLoop

/-!
# The cut into pieces does not matter

A connection delivers a request in pieces that the server does not choose. What the reader returns may
be shorter than all that the client sent, and how much shorter depends on the pieces. Parsing it gives
the same all the same.
-/

namespace HttpEcho

open Reader ReadEvent

theorem parse_of_isPrefix_of_no_headEnd {raw stream : Bytes} (hpre : raw <+: stream)
    (hend : findHeadEnd stream = none) (hraw : ¬NeedsMore raw) :
    Request.parse raw = Request.parse stream := by
  have hnone := findHeadEnd_eq_none_of_isPrefix hpre hend
  have hlarge := maxHeadBytes_le_of_not_needsMore hnone hraw
  have hstream : maxHeadBytes ≤ stream.length := Nat.le_trans hlarge hpre.length_le
  rw [Request.parse_of_splitHead_error (Request.splitHead_of_tooLarge hnone hlarge),
    Request.parse_of_splitHead_error (Request.splitHead_of_tooLarge hend hstream)]

theorem bodyStart_le_of_not_needsMore {raw stream : Bytes} {e : HeadEnd} (hpre : raw <+: stream)
    (hend : findHeadEnd stream = some e) (hmax : e.bodyStart ≤ maxHeadBytes)
    (hraw : ¬NeedsMore raw) : findHeadEnd raw = some e ∧ e.bodyStart ≤ raw.length := by
  cases hfound : findHeadEnd raw with
  | none =>
    have hlarge := maxHeadBytes_le_of_not_needsMore hfound hraw
    have hhead := findHeadEnd_of_isPrefix hpre hend (Nat.le_trans hmax hlarge)
    rw [hfound] at hhead
    cases hhead
  | some found =>
    have hsame := findHeadEnd_eq_of_isPrefix hpre hfound
    rw [hend] at hsame
    obtain rfl := Option.some.inj hsame
    exact ⟨rfl, (findHeadEnd_bounds hfound).2⟩

/-- With a complete head the reader stops only when it has the body that the head announces. -/
theorem bodyEnd_le_of_not_needsMore {raw stream : Bytes} {e : HeadEnd} {n : Nat}
    (hpre : raw <+: stream) (hlen : stream.length < 2 ^ 63) (hfound : findHeadEnd raw = some e)
    (hhint : contentLengthHint (stream.take e.bodyStart) = some n) (hraw : ¬NeedsMore raw) :
    e.bodyStart + n ≤ raw.length := by
  have hbounds := findHeadEnd_bounds hfound
  have htake : stream.take e.bodyStart = raw.take e.bodyStart := by
    obtain ⟨rest, rfl⟩ := hpre
    exact List.take_append_of_le_length hbounds.2
  rw [htake] at hhint
  have hwanted : wantedLength? raw = some (min (e.bodyStart + n) Text.maxSize) := by
    rw [wantedLength?_of_findHeadEnd hfound, hhint, Option.map_some]
  rw [needsMore_iff_of_wantedLength? hwanted, Nat.not_lt] at hraw
  have hshort := hpre.length_le
  rw [Text.maxSize] at hraw
  omega

/-- A request is read and parsed alike however its bytes were cut into pieces, with any interrupted and
timed-out reads in between. The head has to end within the limit, and the length that the reader takes
from its bytes has to be the one that parsing finds in it, if that finds one. -/
theorem parse_read_eq_parse_stream {stream : Bytes} {events : List ReadEvent}
    (hlen : stream.length < 2 ^ 63) (hopen : ∀ event ∈ events, event.KeepsOpen)
    (hbytes : events.flatMap ReadEvent.bytes = stream)
    (hhead : ∀ e, findHeadEnd stream = some e → e.bodyStart ≤ maxHeadBytes ∧
      ∀ n, Request.announcedLength? (stream.take e.headLength) = some n →
        contentLengthHint (stream.take e.bodyStart) = some n) :
    ∃ raw, Reader.run (events ++ [.closed]) = .finished raw ∧
      Request.parse raw = Request.parse stream := by
  obtain ⟨raw, hrun, hpre, hraw⟩ := Reader.run_closed hopen
  rw [hbytes] at hpre hraw
  refine ⟨raw, hrun, ?_⟩
  rcases hraw with rfl | hraw
  · rfl
  cases hend : findHeadEnd stream with
  | none => exact parse_of_isPrefix_of_no_headEnd hpre hend hraw
  | some e =>
    obtain ⟨hmax, hannounced⟩ := hhead e hend
    obtain ⟨hfound, hle⟩ := bodyStart_le_of_not_needsMore hpre hend hmax hraw
    refine Request.parse_of_isPrefix hpre hend hle fun n hn => ?_
    exact bodyEnd_le_of_not_needsMore hpre hlen hfound (hannounced n hn) hraw

/-- The blank line comes in two pieces and the last one goes on behind the body. -/
theorem parse_read_eq_parse_stream_blank_line_cut :
    ∃ raw, Reader.run ([.piece (Text.toLatin1 "POST / HTTP/1.1\r\nContent-Length: 3\r\n\r".toList),
        .interrupted, .piece (Text.toLatin1 "\na".toList), .timedOut false,
        .piece (Text.toLatin1 "bc???".toList)] ++ [.closed]) = .finished raw ∧
      Request.parse raw = Request.parse
        (Text.toLatin1 "POST / HTTP/1.1\r\nContent-Length: 3\r\n\r\nabc???".toList) := by
  refine parse_read_eq_parse_stream (by decide) (by decide) (by decide) fun e he => ?_
  have hend : findHeadEnd
      (Text.toLatin1 "POST / HTTP/1.1\r\nContent-Length: 3\r\n\r\nabc???".toList) =
        some ⟨34, 38⟩ := by decide
  rw [hend] at he
  obtain rfl := Option.some.inj he
  refine ⟨by decide, fun n hn => ?_⟩
  rw [← hn]
  decide

end HttpEcho
