import HttpEcho.Proofs.HeadEnd
import HttpEcho.Request.Parse
import Mathlib.Algebra.Group.Nat.Defs

/-!
# What parsing depends on

Parsing is reading the head and then the body. The head is settled by its end, and of the bytes after
it only as many count as the last `Content-Length` announces.
-/

namespace HttpEcho

theorem bind_eq_ok_iff {ε α β : Type} {x : Except ε α} {f : α → Except ε β} {b : β} :
    x.bind f = .ok b ↔ ∃ a, x = .ok a ∧ f a = .ok b := by
  cases x with
  | error e => simp [Except.bind]
  | ok a => simp [Except.bind]

theorem map_eq_ok_iff {ε α β : Type} {x : Except ε α} {f : α → β} {b : β} :
    x.map f = .ok b ↔ ∃ a, x = .ok a ∧ f a = b := by
  cases x with
  | error e => simp [Except.map]
  | ok a => simp [Except.map]

/-- Header lines that are read without an error: up to a blank one or the end, each continues the last
field or begins one. -/
@[elab_as_elim]
theorem readFieldsOnto_induction {headers : Headers}
    {motive : ∀ done lines, readFieldsOnto done lines = .ok headers → Prop}
    (nil : ∀ done (h : readFieldsOnto done [] = .ok headers),
      headers = done.reverse.map OpenField.close → motive done [] h)
    (blank : ∀ done line lines (h : readFieldsOnto done (line :: lines) = .ok headers),
      Text.isBlankText line → headers = done.reverse.map OpenField.close →
        motive done (line :: lines) h)
    (continuation : ∀ name pieces done line lines
      (h : readFieldsOnto ((name, pieces) :: done) (line :: lines) = .ok headers)
      (hrest : readFieldsOnto ((name, Text.trim line :: pieces) :: done) lines = .ok headers),
      ¬Text.isBlankText line → isContinuation line →
        motive ((name, Text.trim line :: pieces) :: done) lines hrest →
          motive ((name, pieces) :: done) (line :: lines) h)
    (field : ∀ done line lines name value (h : readFieldsOnto done (line :: lines) = .ok headers)
      (hrest : readFieldsOnto ((name, [value]) :: done) lines = .ok headers),
      ¬Text.isBlankText line → ¬isContinuation line → readField? line = some (name, value) →
        motive ((name, [value]) :: done) lines hrest → motive done (line :: lines) h)
    {done : List OpenField} {lines : List Text} (h : readFieldsOnto done lines = .ok headers) :
    motive done lines h := by
  induction lines generalizing done with
  | nil => exact nil done h (Except.ok.inj h).symm
  | cons line lines ih =>
    have hread := h
    unfold readFieldsOnto at hread
    split at hread
    · next hblank => exact blank done line lines h hblank (Except.ok.inj hread).symm
    next hblank =>
    split at hread
    · next hcontinuation =>
      cases done with
      | nil => cases hread
      | cons last done => exact continuation _ _ done line lines h hread hblank hcontinuation (ih hread)
    · next hcontinuation =>
      split at hread
      · cases hread
      · next name value hfield =>
        exact field done line lines name value h hread hblank hcontinuation hfield (ih hread)

/-- The number in the last `Content-Length`, if there is one and it is a number. -/
def Headers.contentLength? (headers : Headers) : Option Nat :=
  (headers.last? contentLengthName).bind Text.readSize?

theorem Headers.last?_eq_none_iff {headers : Headers} {name : Text} :
    headers.last? name = none ↔ ∀ header ∈ headers, ¬Text.SameName header.1 name := by
  rw [last?, first?, Entries.find?, Option.map_eq_none_iff, List.find?_eq_none]
  simp only [List.mem_reverse, decide_eq_true_eq]

namespace Request

/-- The length of the body that a head announces, as parsing reads it. -/
def announcedLength? (head : Bytes) : Option Nat :=
  (readHead head).toOption.bind fun parts => parts.2.contentLength?

theorem announcedLength?_of_readHead {head : Bytes} {line : Method × Text × HttpVersion}
    {headers : Headers} (h : readHead head = .ok (line, headers)) :
    announcedLength? head = headers.contentLength? := by
  rw [announcedLength?, h]
  rfl

/-- What stands before the blank line, and everything if there is none. -/
def headBytes (raw : Bytes) : Bytes := (findHeadEnd raw).elim raw fun e => raw.take e.headLength

def bytesAfterHead (raw : Bytes) : Bytes := (findHeadEnd raw).elim [] fun e => raw.drop e.bodyStart

theorem splitHead_eq (raw : Bytes) :
    splitHead raw = if findHeadEnd raw = none ∧ maxHeadBytes ≤ raw.length then
      .error (.headTooLarge maxHeadBytes) else .ok (headBytes raw, bytesAfterHead raw) := by
  unfold splitHead headBytes bytesAfterHead
  cases findHeadEnd raw with
  | some e => simp
  | none => simp

theorem splitHead_eq_ok_iff {raw head rest : Bytes} :
    splitHead raw = .ok (head, rest) ↔
      ¬(findHeadEnd raw = none ∧ maxHeadBytes ≤ raw.length) ∧ head = headBytes raw ∧
        rest = bytesAfterHead raw := by
  rw [splitHead_eq]
  split
  · next h => simp [h]
  · next h => simp [h, eq_comm]

def firstLine (head : Bytes) : Text := (headLines (Text.ofLatin1 head)).headD []

theorem headLines_eq_cons (head : Bytes) :
    headLines (Text.ofLatin1 head) =
      firstLine head :: (headLines (Text.ofLatin1 head)).drop 1 := by
  obtain ⟨first, lines, hlines⟩ : ∃ first lines, headLines (Text.ofLatin1 head) = first :: lines := by
    apply List.exists_cons_of_ne_nil
    rw [headLines, ne_eq, List.map_eq_nil_iff]
    exact List.splitOn_ne_nil _ _
  rw [firstLine, hlines, List.headD_cons, List.drop_one, List.tail_cons]

theorem readHead_eq (head : Bytes) :
    readHead head = if Text.isBlankText (Text.ofLatin1 head) then .error .emptyRequest else
      (readLine (firstLine head)).bind fun line =>
        (readFields ((headLines (Text.ofLatin1 head)).drop 1)).map fun headers => (line, headers) := by
  have hlines := headLines_eq_cons head
  generalize (headLines (Text.ofLatin1 head)).drop 1 = lines at hlines ⊢
  unfold readHead
  by_cases hblank : Text.isBlankText (Text.ofLatin1 head)
  · simp only [hblank, ↓reduceIte]
    rfl
  · simp only [hblank, hlines, Bool.false_eq_true, ↓reduceIte]
    rfl

theorem readHead_eq_ok_iff {head : Bytes} {line : Method × Text × HttpVersion} {headers : Headers} :
    readHead head = .ok (line, headers) ↔ ¬Text.isBlankText (Text.ofLatin1 head) ∧
      readLine (firstLine head) = .ok line ∧
      readFields ((headLines (Text.ofLatin1 head)).drop 1) = .ok headers := by
  rw [readHead_eq]
  by_cases hblank : Text.isBlankText (Text.ofLatin1 head)
  · simp [hblank]
  · rw [if_neg hblank, bind_eq_ok_iff]
    simp only [map_eq_ok_iff, Prod.mk.injEq]
    constructor
    · rintro ⟨line, hline, headers, hheaders, rfl, rfl⟩
      exact ⟨hblank, hline, hheaders⟩
    · rintro ⟨-, hline, hheaders⟩
      exact ⟨line, hline, headers, hheaders, rfl, rfl⟩

theorem readLine_eq_ok_iff {line target : Text} {m : Method} {v : HttpVersion} :
    readLine line = .ok (m, target, v) ↔ Text.words line = [m.text, target, v.text] := by
  unfold readLine
  constructor
  · intro h
    split at h
    · next hwords =>
      rw [hwords]
      split at h
      · cases h
      · cases h
      · next hversion hmethod =>
        obtain ⟨rfl, rfl, rfl⟩ : _ ∧ _ ∧ _ := by simpa using h
        rw [HttpVersion.ofText?_eq_some_iff.mp hversion, Method.ofText?_eq_some_iff.mp hmethod]
    · cases h
  · intro h
    simp only [h, HttpVersion.ofText?_text, Method.ofText?_text]

theorem splitHead_of_findHeadEnd {raw : Bytes} {e : HeadEnd} (h : findHeadEnd raw = some e) :
    splitHead raw = .ok (raw.take e.headLength, raw.drop e.bodyStart) := by
  simp [splitHead, h]

theorem splitHead_of_tooLarge {raw : Bytes} (h : findHeadEnd raw = none)
    (hlarge : maxHeadBytes ≤ raw.length) : splitHead raw = .error (.headTooLarge maxHeadBytes) := by
  simp [splitHead, h, hlarge]

theorem parse_of_splitHead_error {raw : Bytes} {e : RequestError} (h : splitHead raw = .error e) :
    parse raw = .error e := by
  rw [parse, h]
  rfl

theorem parse_of_readHead_error {raw : Bytes} {e : RequestError}
    (hlarge : ¬(findHeadEnd raw = none ∧ maxHeadBytes ≤ raw.length))
    (h : readHead (headBytes raw) = .error e) : parse raw = .error e := by
  rw [parse, splitHead_eq, if_neg hlarge]
  simp only [h, bind, Except.bind]

theorem parse_of_readBody_error {raw : Bytes} {line : Method × Text × HttpVersion} {headers : Headers}
    {e : RequestError} (hlarge : ¬(findHeadEnd raw = none ∧ maxHeadBytes ≤ raw.length))
    (hhead : readHead (headBytes raw) = .ok (line, headers))
    (h : readBody headers (bytesAfterHead raw) = .error e) : parse raw = .error e := by
  rw [parse, splitHead_eq, if_neg hlarge]
  simp only [hhead, h, bind, Except.bind]

theorem parse_eq_ok_iff {raw : Bytes} {r : Request} :
    parse raw = .ok r ↔ ∃ head rest, splitHead raw = .ok (head, rest) ∧
      readHead head = .ok ((r.method, r.target, r.version), r.headers) ∧
      readBody r.headers rest = .ok r.body := by
  unfold parse
  simp only [bind, pure, Except.pure, bind_eq_ok_iff, Prod.exists, Except.ok.injEq]
  constructor
  · rintro ⟨head, rest, hsplit, method, target, version, headers, hhead, body, hbody, rfl⟩
    exact ⟨head, rest, hsplit, hhead, hbody⟩
  · rintro ⟨head, rest, hsplit, hhead, hbody⟩
    exact ⟨head, rest, hsplit, r.method, r.target, r.version, r.headers, hhead, r.body, hbody, rfl⟩

theorem parse_congr {left right head leftRest rightRest : Bytes}
    (hleft : splitHead left = .ok (head, leftRest)) (hright : splitHead right = .ok (head, rightRest))
    (hbody : ∀ line headers, readHead head = .ok (line, headers) →
      readBody headers leftRest = readBody headers rightRest) : parse left = parse right := by
  unfold parse
  simp only [hleft, hright, bind, Except.bind]
  cases hhead : readHead head with
  | error e => rfl
  | ok parts =>
    obtain ⟨⟨method, target, version⟩, headers⟩ := parts
    simp only [hbody _ _ hhead]

theorem readBody_of_isPrefix {headers : Headers} {rest more : Bytes} (hpre : rest <+: more)
    (h : ∀ n, headers.contentLength? = some n → n ≤ rest.length) :
    readBody headers rest = readBody headers more := by
  unfold readBody
  unfold Headers.contentLength? at h
  cases hlast : headers.last? contentLengthName with
  | none => rfl
  | some value =>
    cases hsize : Text.readSize? value with
    | none => simp only [hsize]
    | some n =>
      have hle : n ≤ rest.length := h n (by rw [hlast, Option.bind_some, hsize])
      have hmore : n ≤ more.length := Nat.le_trans hle hpre.length_le
      obtain ⟨tail, rfl⟩ := hpre
      simp only [hsize, if_neg (Nat.not_lt.mpr hle), if_neg (Nat.not_lt.mpr hmore),
        List.take_append_of_le_length hle]

/-- A part of the bytes from the front that holds the head and the announced body parses as all of
them do. -/
theorem parse_of_isPrefix {raw stream : Bytes} {e : HeadEnd} (hpre : raw <+: stream)
    (hend : findHeadEnd stream = some e) (hhead : e.bodyStart ≤ raw.length)
    (hbody : ∀ n, announcedLength? (stream.take e.headLength) = some n →
      e.bodyStart + n ≤ raw.length) : parse raw = parse stream := by
  have hraw : findHeadEnd raw = some e := findHeadEnd_of_isPrefix hpre hend hhead
  have hle : e.headLength ≤ raw.length :=
    Nat.le_trans (Nat.le_of_lt (findHeadEnd_bounds hend).1) hhead
  obtain ⟨tail, rfl⟩ := hpre
  rw [List.take_append_of_le_length hle] at hbody
  have hsplit := splitHead_of_findHeadEnd hend
  rw [List.take_append_of_le_length hle, List.drop_append_of_le_length hhead] at hsplit
  refine parse_congr (splitHead_of_findHeadEnd hraw) hsplit fun line headers hread => ?_
  refine readBody_of_isPrefix (List.prefix_append _ _) fun n hn => ?_
  have := hbody n (by rw [announcedLength?_of_readHead hread, hn])
  rw [List.length_drop]
  omega

end Request

end HttpEcho
