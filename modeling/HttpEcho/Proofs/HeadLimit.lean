import HttpEcho.Proofs.AnswerStatus
import HttpEcho.Proofs.ReadLoop
import HttpEcho.Proofs.Rendering

/-!
# The limit on heads

A head is too large if its end has not come when the limit is reached. Parsing looks for the end in all
the bytes that it is given, so whether a head that ends behind the limit is refused depends on where the
reads were cut: it is refused if one of them ends between the limit and the end of the head.
-/

namespace HttpEcho

open Reader ReadEvent

variable {raw : Bytes} {e : HeadEnd} {events : List ReadEvent}

/-! ### Only a head without an end is too large -/

theorem status_ne_of_readLine_error {line : Text} {error : RequestError}
    (h : Request.readLine line = .error error) : error.status ≠ .requestHeaderFieldsTooLarge := by
  unfold Request.readLine at h
  split at h
  · split at h
    · obtain rfl := Except.error.inj h
      simp [RequestError.status]
    · obtain rfl := Except.error.inj h
      simp [RequestError.status]
    · cases h
  · obtain rfl := Except.error.inj h
    decide

theorem status_ne_of_readHead_error {head : Bytes} {error : RequestError}
    (h : Request.readHead head = .error error) : error.status ≠ .requestHeaderFieldsTooLarge := by
  rw [Request.readHead_eq] at h
  split at h
  · obtain rfl := Except.error.inj h
    decide
  cases hline : Request.readLine (Request.firstLine head) with
  | error fault =>
    rw [hline] at h
    obtain rfl := Except.error.inj h
    exact status_ne_of_readLine_error hline
  | ok line =>
    cases hfields : readFields ((Request.headLines (Text.ofLatin1 head)).drop 1) with
    | error fault =>
      rw [hline, hfields] at h
      obtain rfl := Except.error.inj h
      rw [status_of_readFieldsOnto_error hfields]
      decide
    | ok headers =>
      rw [hline, hfields] at h
      cases h

theorem status_ne_of_readBody_error {headers : Headers} {rest : Bytes} {error : RequestError}
    (h : Request.readBody headers rest = .error error) :
    error.status ≠ .requestHeaderFieldsTooLarge := by
  unfold Request.readBody at h
  split at h
  · cases h
  split at h
  · obtain rfl := Except.error.inj h
    simp [RequestError.status]
  split at h
  · obtain rfl := Except.error.inj h
    simp [RequestError.status]
  · cases h

/-- Whatever else is wrong with some bytes is answered with another status. -/
theorem status_ne_of_parse_error {error : RequestError}
    (hlarge : ¬(findHeadEnd raw = none ∧ maxHeadBytes ≤ raw.length))
    (h : Request.parse raw = .error error) : error.status ≠ .requestHeaderFieldsTooLarge := by
  cases hhead : Request.readHead (Request.headBytes raw) with
  | error fault =>
    rw [Request.parse_of_readHead_error hlarge hhead, Except.error.injEq] at h
    exact h ▸ status_ne_of_readHead_error hhead
  | ok parts =>
    obtain ⟨line, headers⟩ := parts
    cases hbody : Request.readBody headers (Request.bytesAfterHead raw) with
    | error fault =>
      rw [Request.parse_of_readBody_error hlarge hhead hbody, Except.error.injEq] at h
      exact h ▸ status_ne_of_readBody_error hbody
    | ok body =>
      have hok : Request.parse raw = .ok ⟨line.1, line.2.1, line.2.2, headers, body⟩ :=
        Request.parse_eq_ok_iff.mpr
          ⟨_, _, Request.splitHead_eq_ok_iff.mpr ⟨hlarge, rfl, rfl⟩, hhead, hbody⟩
      rw [hok] at h
      cases h

theorem parse_eq_headTooLarge_iff : Request.parse raw = .error (.headTooLarge maxHeadBytes) ↔
    findHeadEnd raw = none ∧ maxHeadBytes ≤ raw.length := by
  constructor
  · intro h
    by_contra hlarge
    exact status_ne_of_parse_error hlarge h rfl
  · exact fun h => Request.parse_of_splitHead_error (Request.splitHead_of_tooLarge h.1 h.2)

theorem status_answer_eq_tooLarge_iff (arrival : Arrival) :
    (Connection.answer arrival raw).response.status = .requestHeaderFieldsTooLarge ↔
      Request.parse raw = .error (.headTooLarge maxHeadBytes) := by
  constructor
  · intro h
    cases hparse : Request.parse raw with
    | ok r =>
      rw [status_answer_of_ok hparse, status_route_echo] at h
      split_ifs at h
    | error error =>
      rw [status_answer_of_error hparse] at h
      by_cases hlarge : findHeadEnd raw = none ∧ maxHeadBytes ≤ raw.length
      · rw [← hparse, parse_eq_headTooLarge_iff]
        exact hlarge
      · exact absurd h (status_ne_of_parse_error hlarge hparse)
  · intro h
    rw [status_answer_of_error h]
    rfl

/-! ### Heads that come in pieces -/

/-- After some of the reads the bytes reach the limit and show no end of the head. -/
def PassesLimit (events : List ReadEvent) : Prop :=
  ∃ before, before <+: events ∧ maxHeadBytes ≤ (before.flatMap ReadEvent.bytes).length ∧
    findHeadEnd (before.flatMap ReadEvent.bytes) = none

theorem not_needsMore_of_large (hnone : findHeadEnd raw = none) (hlarge : maxHeadBytes ≤ raw.length) :
    ¬NeedsMore raw := by
  rw [needsMore_iff_of_wantedLength?_eq_none (wantedLength?_of_findHeadEnd_eq_none hnone)]
  omega

/-- The reader returns a head that is too large exactly if the limit is passed. -/
theorem parse_read_eq_headTooLarge_iff (hopen : ∀ event ∈ events, event.KeepsOpen) :
    ∃ read, Reader.run (events ++ [.closed]) = .finished read ∧
      (Request.parse read = .error (.headTooLarge maxHeadBytes) ↔ PassesLimit events) := by
  rcases run_closed_cases hopen with ⟨hneeds, hrun⟩ | ⟨enough, hfirst, hrun⟩
  · refine ⟨_, hrun, ?_⟩
    rw [parse_eq_headTooLarge_iff]
    constructor
    · exact fun ⟨hnone, hlarge⟩ => ⟨events, List.prefix_rfl, hlarge, hnone⟩
    · rintro ⟨before, hbefore, hlarge, hnone⟩
      exact absurd (hneeds before hbefore) (not_needsMore_of_large hnone hlarge)
  · refine ⟨_, hrun, ?_⟩
    rw [parse_eq_headTooLarge_iff]
    constructor
    · exact fun ⟨hnone, hlarge⟩ => ⟨enough, hfirst.isPrefix, hlarge, hnone⟩
    · rintro ⟨before, hbefore, hlarge, hnone⟩
      -- the reader had enough before that or just then
      have hpre : enough <+: before := by
        rcases List.prefix_or_prefix_of_prefix hfirst.isPrefix hbefore with hpre | hpre
        · exact hpre
        by_cases hsame : before = enough
        · exact hsame ▸ List.prefix_rfl
        · exact absurd (hfirst.needsMore_of_shorter before hpre hsame)
            (not_needsMore_of_large hnone hlarge)
      have hread := findHeadEnd_eq_none_of_isPrefix (flatMap_bytes_isPrefix hpre) hnone
      exact ⟨hread, maxHeadBytes_le_of_not_needsMore hread hfirst.enough⟩

theorem not_passesLimit (hend : findHeadEnd (events.flatMap ReadEvent.bytes) = some e)
    (hle : e.bodyStart ≤ maxHeadBytes) : ¬PassesLimit events := by
  rintro ⟨before, hbefore, hlarge, hnone⟩
  have hshort := findHeadEnd_of_isPrefix (flatMap_bytes_isPrefix hbefore) hend (hle.trans hlarge)
  rw [hnone] at hshort
  cases hshort

/-- Some of the reads reach a length and exceed it by less than one read. -/
theorem exists_reads_of_length_le {n : Nat}
    (hpieces : ∀ event ∈ events, event.bytes.length ≤ readChunk)
    (hn : n ≤ (events.flatMap ReadEvent.bytes).length) :
    ∃ before, before <+: events ∧ n ≤ (before.flatMap ReadEvent.bytes).length ∧
      (before.flatMap ReadEvent.bytes).length < n + readChunk := by
  induction events using List.reverseRecOn with
  | nil => exact ⟨[], List.prefix_rfl, hn, Nat.add_pos_right n (by decide)⟩
  | append_singleton events event ih =>
    rw [List.forall_mem_append, List.forall_mem_singleton] at hpieces
    by_cases hbefore : n ≤ (events.flatMap ReadEvent.bytes).length
    · obtain ⟨before, hpre, hreach⟩ := ih hpieces.1 hbefore
      exact ⟨before, hpre.trans (List.prefix_append _ _), hreach⟩
    · refine ⟨_, List.prefix_rfl, hn, ?_⟩
      rw [List.flatMap_append, List.flatMap_singleton, List.length_append]
      omega

theorem passesLimit_of_length_le (hpieces : ∀ event ∈ events, event.bytes.length ≤ readChunk)
    (hlong : maxHeadBytes ≤ (events.flatMap ReadEvent.bytes).length)
    (hfar : ∀ e, findHeadEnd (events.flatMap ReadEvent.bytes) = some e →
      maxHeadBytes + readChunk ≤ e.bodyStart) : PassesLimit events := by
  obtain ⟨before, hpre, hreach, hlt⟩ := exists_reads_of_length_le hpieces hlong
  refine ⟨before, hpre, hreach, ?_⟩
  cases hbefore : findHeadEnd (before.flatMap ReadEvent.bytes) with
  | none => rfl
  | some e =>
    have hbeyond := hfar e (findHeadEnd_eq_of_isPrefix (flatMap_bytes_isPrefix hpre) hbefore)
    have hwithin := (findHeadEnd_bounds hbefore).2
    omega

/-! ### Pieces of one size -/

/-- The first pieces of some bytes. -/
def pieces (size count : Nat) (raw : Bytes) : List ReadEvent :=
  (List.range count).map fun i => .piece ((raw.drop (size * i)).take size)

variable {size count : Nat}

theorem flatMap_bytes_pieces (size count : Nat) (raw : Bytes) :
    (pieces size count raw).flatMap ReadEvent.bytes = raw.take (size * count) := by
  induction count with
  | zero => rw [Nat.mul_zero, List.take_zero]; rfl
  | succ count ih =>
    rw [pieces, List.range_succ, List.map_append, ← pieces, List.flatMap_append, ih, List.map_singleton,
      List.flatMap_singleton, ReadEvent.bytes, Nat.mul_succ, List.take_add]

theorem isPrefix_pieces_iff {before : List ReadEvent} :
    before <+: pieces size count raw ↔ ∃ k ≤ count, before = pieces size k raw := by
  constructor
  · intro h
    refine ⟨min before.length count, Nat.min_le_right _ _, ?_⟩
    conv_lhs => rw [List.prefix_iff_eq_take.mp h]
    rw [pieces, ← List.map_take, List.take_range, pieces]
  · rintro ⟨k, hk, rfl⟩
    have hrange : List.range k = (List.range count).take k := by
      rw [List.take_range, Nat.min_eq_left hk]
    rw [pieces, hrange, List.map_take]
    exact List.take_prefix _ _

theorem keepsOpen_of_mem_pieces : ∀ event ∈ pieces size count raw, event.KeepsOpen := by
  intro event hevent
  obtain ⟨i, -, rfl⟩ := List.mem_map.mp hevent
  trivial

/-- Whether bytes pass the limit depends on the size of the pieces in which they come. -/
theorem passesLimit_pieces_iff (hend : findHeadEnd raw = some e) (hall : raw.length ≤ size * count) :
    PassesLimit (pieces size count raw) ↔ ∃ k, maxHeadBytes ≤ size * k ∧ size * k < e.bodyStart := by
  have hbounds := findHeadEnd_bounds hend
  constructor
  · rintro ⟨before, hbefore, hlarge, hnone⟩
    obtain ⟨k, -, rfl⟩ := isPrefix_pieces_iff.mp hbefore
    rw [flatMap_bytes_pieces] at hlarge hnone
    refine ⟨k, hlarge.trans (List.length_take_le _ _), ?_⟩
    by_contra hbeyond
    rw [findHeadEnd_take_of_le hend (Nat.not_lt.mp hbeyond)] at hnone
    cases hnone
  · rintro ⟨k, hlarge, hwithin⟩
    have hfits : size * k ≤ raw.length := by omega
    have hk : k ≤ count := by
      by_contra hlt
      have := Nat.mul_le_mul_left size (Nat.le_of_lt (Nat.not_le.mp hlt))
      omega
    refine ⟨pieces size k raw, isPrefix_pieces_iff.mpr ⟨k, hk, rfl⟩, ?_, ?_⟩
    · rw [flatMap_bytes_pieces, List.length_take_of_le hfits]
      exact hlarge
    · rw [flatMap_bytes_pieces, findHeadEnd_take_eq_none_iff hfits]
      intro e' he'
      rw [hend, Option.some.injEq] at he'
      exact he' ▸ hwithin

/-! ### The limit -/

/-- Bytes that reach the limit are refused for it exactly if their head has no end at all, so a head that
ends behind the limit is not. If it comes in pieces, what is read is refused exactly if one of the reads
ends between the limit and the end of the head, and one does if that is a whole read behind the limit. -/
theorem refused_iff_passesLimit (arrival : Arrival) (hlong : maxHeadBytes ≤ raw.length)
    (hopen : ∀ event ∈ events, event.KeepsOpen) (hbytes : events.flatMap ReadEvent.bytes = raw) :
    (Request.parse raw = .error (.headTooLarge maxHeadBytes) ↔ findHeadEnd raw = none) ∧
      ((Request.parse raw = .error (.headTooLarge maxHeadBytes) ↔
          findHeadEnd (raw.take maxHeadBytes) = none) ↔
        ∀ e, findHeadEnd raw = some e → e.bodyStart ≤ maxHeadBytes) ∧
      (∃ read, Reader.run (events ++ [.closed]) = .finished read ∧
        (Request.parse read = .error (.headTooLarge maxHeadBytes) ↔ PassesLimit events) ∧
        ((Connection.answer arrival read).response.status = .requestHeaderFieldsTooLarge ↔
          PassesLimit events)) ∧
      ((∃ e, findHeadEnd raw = some e ∧ e.bodyStart ≤ maxHeadBytes) → ¬PassesLimit events) ∧
      ((∀ event ∈ events, event.bytes.length ≤ readChunk) →
        (∀ e, findHeadEnd raw = some e → maxHeadBytes + readChunk ≤ e.bodyStart) →
          PassesLimit events) := by
  subst hbytes
  have hparse : Request.parse (events.flatMap ReadEvent.bytes) = .error (.headTooLarge maxHeadBytes) ↔
      findHeadEnd (events.flatMap ReadEvent.bytes) = none :=
    parse_eq_headTooLarge_iff.trans (and_iff_left hlong)
  refine ⟨hparse, ?_, ?_, ?_, ?_⟩
  · rw [hparse, findHeadEnd_take_eq_none_iff hlong]
    cases findHeadEnd (events.flatMap ReadEvent.bytes) with
    | none => simp
    | some e => simp
  · obtain ⟨read, hrun, hread⟩ := parse_read_eq_headTooLarge_iff hopen
    exact ⟨read, hrun, hread, (status_answer_eq_tooLarge_iff arrival).trans hread⟩
  · rintro ⟨e, hend, hle⟩
    exact not_passesLimit hend hle
  · exact fun hpieces hfar => passesLimit_of_length_le hpieces hlong hfar

/-! ### A head behind the limit -/

def longRequest (n : Nat) : Bytes :=
  Text.toLatin1 ("GET / HTTP/1.1\r\nX: ".toList ++ (List.replicate n 'a' ++ "\r\n\r\n".toList))

theorem isPiece_replicate (n : Nat) : IsPiece (List.replicate n 'a') := by
  have hmem : ∀ c ∈ List.replicate n 'a', c = 'a' := fun c => List.eq_of_mem_replicate
  refine ⟨Text.trim_eq_self_iff.mpr ⟨?_, ?_⟩, ?_, ?_⟩
  · intro c hc
    rw [hmem c (List.mem_of_head? hc)]
    decide
  · intro c hc
    rw [hmem c (List.mem_of_getLast? hc)]
    decide
  · exact fun hnewline => absurd (hmem _ hnewline) (by decide)
  · intro c hc
    rw [hmem c hc]
    decide

def longField (n : Nat) : WrittenField where
  name := ['X']
  value := List.replicate n 'a'
  continuations := []
  name_ne_nil := by decide
  colon_notMem := by decide
  isPiece_name := by decide
  isPiece_value := isPiece_replicate n

theorem renderHead_longField (n : Nat) : renderHead .get ['/'] .http11 [longField n] = longRequest n := by
  have hline : (longField n).firstLine = "X: ".toList ++ List.replicate n 'a' := rfl
  have hlines : [longField n].flatMap WrittenField.lines = [(longField n).firstLine] := rfl
  rw [renderHead, longRequest, hlines, hline, List.flatMap_cons, List.flatMap_singleton,
    List.append_assoc, List.append_assoc, List.append_assoc]
  rfl

theorem length_longRequest (n : Nat) : (longRequest n).length = n + 23 := by
  simp only [longRequest, Text.toLatin1, List.length_map, List.length_append, List.length_replicate]
  exact Nat.add_left_comm 19 n 4

theorem findHeadEnd_longRequest (n : Nat) :
    ∃ e, findHeadEnd (longRequest n) = some e ∧ e.bodyStart = n + 23 := by
  rw [← length_longRequest, ← renderHead_longField]
  exact findHeadEnd_renderHead .get (by decide) .http11 [longField n]

theorem parse_longRequest (n : Nat) : Request.parse (longRequest n) =
    .ok ⟨.get, ['/'], .http11, [(['X'], List.replicate n 'a')], none⟩ := by
  rw [← renderHead_longField]
  have hbody : Announces ([longField n].map WrittenField.header) none :=
    List.forall_mem_singleton.mpr (show ¬Text.SameName ['X'] contentLengthName by decide)
  have hheader : [longField n].map WrittenField.header = [(['X'], List.replicate n 'a')] := by
    rw [List.map_singleton, WrittenField.header, longField, List.map_nil, List.intercalate_singleton]
  have htarget : IsTarget ['/'] := by decide
  rw [← hheader]
  exact parse_head htarget hbody

/-- The end of the head is not among the bytes up to the limit, and the request is accepted. -/
theorem accepted_longRequest : maxHeadBytes ≤ (longRequest maxHeadBytes).length ∧
    findHeadEnd ((longRequest maxHeadBytes).take maxHeadBytes) = none ∧
      Request.parse (longRequest maxHeadBytes) =
        .ok ⟨.get, ['/'], .http11, [(['X'], List.replicate maxHeadBytes 'a')], none⟩ := by
  have hlong : maxHeadBytes ≤ (longRequest maxHeadBytes).length := by
    rw [length_longRequest]
    exact Nat.le_add_right _ _
  refine ⟨hlong, ?_, parse_longRequest _⟩
  rw [findHeadEnd_take_eq_none_iff hlong]
  intro e he
  obtain ⟨e', he', hbody⟩ := findHeadEnd_longRequest maxHeadBytes
  rw [he, Option.some.injEq] at he'
  rw [he', hbody]
  exact Nat.lt_add_of_pos_right (by decide)

/-- In pieces of 8192 bytes the eighth one ends at the limit and the request is refused, and in pieces of
8191 bytes the ninth one goes beyond the head and it is not. -/
theorem refused_iff_passesLimit_longRequest :
    let arrival : Arrival := ⟨"now".toList, "client".toList, "peer".toList, "date".toList⟩
    (∃ read, Reader.run (pieces 8192 9 (longRequest maxHeadBytes) ++ [.closed]) = .finished read ∧
        (Connection.answer arrival read).response.status = .requestHeaderFieldsTooLarge) ∧
      ∃ read, Reader.run (pieces 8191 9 (longRequest maxHeadBytes) ++ [.closed]) = .finished read ∧
        (Connection.answer arrival read).response.status ≠ .requestHeaderFieldsTooLarge := by
  intro arrival
  obtain ⟨e, hend, hbody⟩ := findHeadEnd_longRequest maxHeadBytes
  have hlength := length_longRequest maxHeadBytes
  have hlong : maxHeadBytes ≤ (longRequest maxHeadBytes).length := by
    rw [hlength]
    exact Nat.le_add_right _ _
  have hmax : maxHeadBytes = 65536 := rfl
  have hbytes : ∀ size, maxHeadBytes + 23 ≤ size * 9 →
      (pieces size 9 (longRequest maxHeadBytes)).flatMap ReadEvent.bytes = longRequest maxHeadBytes := by
    intro size hsize
    rw [flatMap_bytes_pieces, List.take_of_length_le (hlength ▸ hsize)]
  constructor
  · obtain ⟨-, -, ⟨read, hrun, -, hstatus⟩, -⟩ :=
      refused_iff_passesLimit arrival hlong keepsOpen_of_mem_pieces (hbytes 8192 (by decide))
    refine ⟨read, hrun, hstatus.mpr ?_⟩
    rw [passesLimit_pieces_iff hend (by omega)]
    exact ⟨8, by omega, by omega⟩
  · obtain ⟨-, -, ⟨read, hrun, -, hstatus⟩, -⟩ :=
      refused_iff_passesLimit arrival hlong keepsOpen_of_mem_pieces (hbytes 8191 (by decide))
    refine ⟨read, hrun, hstatus.not.mpr ?_⟩
    rw [passesLimit_pieces_iff hend (by omega)]
    rintro ⟨k, hlarge, hwithin⟩
    omega

end HttpEcho
