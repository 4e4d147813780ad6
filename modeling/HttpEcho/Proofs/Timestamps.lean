import HttpEcho.Echo.Record
import HttpEcho.Proofs.Dates
import HttpEcho.Proofs.FixedWidth
import HttpEcho.Proofs.Parsing

/-!
# Timestamps

A timestamp is read back as its instant without what is less than a microsecond. Its parts go from the
years down to the microseconds, each of a fixed width, so the order of two texts is that of their
instants. A missing fraction is before every fraction.
-/

namespace HttpEcho

open Text

/-! ### Dates -/

namespace Date

/-- A year that needs no sign and no fifth digit. -/
def HasPlainYear (d : Date) : Prop := 0 ≤ d.year ∧ d.year ≤ 9999

instance (d : Date) : Decidable d.HasPlainYear := inferInstanceAs (Decidable (_ ∧ _))

variable {d e : Date}

theorem HasPlainYear.toNat_eq (hyear : d.HasPlainYear) : (d.year.toNat : Int) = d.year :=
  Int.toNat_of_nonneg hyear.1

theorem text_append (hyear : d.HasPlainYear) (rest : Text) : d.text ++ rest =
    ofNatPadded 4 d.year.toNat ++ '-' :: (ofNatPadded 2 d.month ++ '-' ::
      (ofNatPadded 2 d.day ++ rest)) := by
  have hplain : 0 ≤ d.year ∧ d.year ≤ 9999 := hyear
  simp only [text, yearText, hplain, and_self, ↓reduceIte, List.append_assoc, List.cons_append]

/-- The parts of a date that is written in ten characters fit in theirs. -/
theorem IsValid.fits (hd : d.IsValid) (hyear : d.HasPlainYear) :
    d.year.toNat < 10 ^ 4 ∧ d.month < 10 ^ 2 ∧ d.day < 10 ^ 2 := by
  have hmonth := hd.month_mem.2
  have hday := hd.day_le
  have hyear := hyear.2
  omega

theorem text_append_lt_iff (hd : d.IsValid) (he : e.IsValid) (hyear : d.HasPlainYear)
    (hyear' : e.HasPlainYear) {x y : Text} :
    d.text ++ x < e.text ++ y ↔ d.Before e ∨ d = e ∧ x < y := by
  obtain ⟨hy, hm, hday⟩ := hd.fits hyear
  obtain ⟨hy', hm', hday'⟩ := he.fits hyear'
  have hlt : d.year.toNat < e.year.toNat ↔ d.year < e.year := by
    rw [← hyear.toNat_eq, ← hyear'.toNat_eq, Int.toNat_natCast, Int.toNat_natCast, Int.ofNat_lt]
  have heq : d.year.toNat = e.year.toNat ↔ d.year = e.year := by
    rw [← hyear.toNat_eq, ← hyear'.toNat_eq, Int.toNat_natCast, Int.toNat_natCast, Int.natCast_inj]
  rw [text_append hyear, text_append hyear', ofNatPadded_append_lt_iff (by decide) hy hy',
    List.cons_lt_cons_self, ofNatPadded_append_lt_iff (by decide) hm hm', List.cons_lt_cons_self,
    ofNatPadded_append_lt_iff (by decide) hday hday', hlt, heq, Date.ext_iff, Before]
  simp only [and_or_left, or_assoc, and_assoc]

/-- A date with four digits of year, and what comes after it. -/
def take? (t : Text) : Option (Date × Text) := do
  let (year, t) ← takeNumber? 4 t
  let t ← skip? '-' t
  let (month, t) ← takeNumber? 2 t
  let t ← skip? '-' t
  let (day, t) ← takeNumber? 2 t
  some (⟨year, month, day⟩, t)

theorem take?_text (hd : d.IsValid) (hyear : d.HasPlainYear) (rest : Text) :
    take? (d.text ++ rest) = some (d, rest) := by
  obtain ⟨hy, hm, hday⟩ := hd.fits hyear
  simp only [take?, text_append hyear, takeNumber?_ofNatPadded (by decide) hy, skip?_cons,
    takeNumber?_ofNatPadded (by decide) hm, takeNumber?_ofNatPadded (by decide) hday,
    Option.bind_eq_bind, Option.bind_some, hyear.toNat_eq]

end Date

namespace Instant

/-! ### Instants -/

def InLeapSecond (t : Instant) : Prop := 10 ^ 9 ≤ t.nanos

instance (t : Instant) : Decidable t.InLeapSecond := inferInstanceAs (Decidable (_ ≤ _))

/-- What a clock can show in the years 0 to 9999. Only the last second of a minute can be followed by a
leap second. -/
structure IsClockTime (t : Instant) : Prop where
  hasPlainYear : t.date.HasPlainYear
  nanos_lt : t.nanos < 2 * 10 ^ 9
  endsMinute : t.InLeapSecond → t.secondOfDay % 60 = 59

/-- Whole microseconds only. -/
def truncated (t : Instant) : Instant := ⟨t.seconds, t.nanos / 1000 * 1000⟩

def Before (s t : Instant) : Prop := s.seconds < t.seconds ∨ s.seconds = t.seconds ∧ s.nanos < t.nanos

variable {s t : Instant}

theorem isValid_date (t : Instant) : t.date.IsValid := Date.isValid_ofDays t.day

theorem days_date (t : Instant) : t.date.days = t.day := Date.days_ofDays t.day

theorem date_before_iff : s.date.Before t.date ↔ s.day < t.day := by
  rw [← Date.days_lt_iff s.isValid_date t.isValid_date, days_date, days_date]

theorem date_eq_iff : s.date = t.date ↔ s.day = t.day := by
  refine ⟨fun h => ?_, fun h => by rw [date, date, h]⟩
  rw [← days_date, ← days_date, h]

/-! ### Times of day -/

theorem secondOfDay_lt (t : Instant) : t.secondOfDay < 86400 := by
  unfold secondOfDay secondsPerDay
  omega

theorem timeText_append (t : Instant) (rest : Text) : t.timeText ++ rest =
    ofNatPadded 2 (t.secondOfDay / 3600) ++ ':' :: (ofNatPadded 2 (t.secondOfDay / 60 % 60) ++ ':' ::
      (ofNatPadded 2 (t.secondOfDay % 60 + t.nanos / 1000000000) ++ rest)) := by
  simp only [timeText, List.append_assoc, List.cons_append]

theorem IsClockTime.fits (ht : t.IsClockTime) : t.secondOfDay / 3600 < 10 ^ 2 ∧
    t.secondOfDay / 60 % 60 < 10 ^ 2 ∧ t.secondOfDay % 60 + t.nanos / 1000000000 < 10 ^ 2 := by
  have hsecond := t.secondOfDay_lt
  have hnanos := ht.nanos_lt
  omega

theorem timeText_append_lt_iff (hs : s.IsClockTime) (ht : t.IsClockTime) {x y : Text} :
    s.timeText ++ x < t.timeText ++ y ↔ s.secondOfDay < t.secondOfDay ∨
      s.secondOfDay = t.secondOfDay ∧ (s.nanos / 10 ^ 9 < t.nanos / 10 ^ 9 ∨
        s.nanos / 10 ^ 9 = t.nanos / 10 ^ 9 ∧ x < y) := by
  obtain ⟨hhour, hminute, hsecond⟩ := hs.fits
  obtain ⟨hhour', hminute', hsecond'⟩ := ht.fits
  have hleap := hs.endsMinute
  have hleap' := ht.endsMinute
  have hnanos := hs.nanos_lt
  have hnanos' := ht.nanos_lt
  rw [timeText_append, timeText_append, ofNatPadded_append_lt_iff (by decide) hhour hhour',
    List.cons_lt_cons_self, ofNatPadded_append_lt_iff (by decide) hminute hminute',
    List.cons_lt_cons_self, ofNatPadded_append_lt_iff (by decide) hsecond hsecond']
  unfold InLeapSecond at hleap hleap'
  -- Second 60 is shown only in a leap second, so equal texts come from equal seconds and equal leaps.
  by_cases hxy : x < y
  · simp only [hxy, and_true]
    omega
  · simp only [hxy, and_false, or_false]
    omega

/-- Hours, minutes and seconds, and what comes after them. -/
def takeTime? (t : Text) : Option ((Nat × Nat × Nat) × Text) := do
  let (hours, t) ← takeNumber? 2 t
  let t ← skip? ':' t
  let (minutes, t) ← takeNumber? 2 t
  let t ← skip? ':' t
  let (seconds, t) ← takeNumber? 2 t
  some ((hours, minutes, seconds), t)

theorem takeTime?_timeText (ht : t.IsClockTime) (rest : Text) : takeTime? (t.timeText ++ rest) =
    some ((t.secondOfDay / 3600, t.secondOfDay / 60 % 60,
      t.secondOfDay % 60 + t.nanos / 1000000000), rest) := by
  obtain ⟨hhour, hminute, hsecond⟩ := ht.fits
  simp only [takeTime?, timeText_append, takeNumber?_ofNatPadded (by decide) hhour, skip?_cons,
    takeNumber?_ofNatPadded (by decide) hminute, takeNumber?_ofNatPadded (by decide) hsecond,
    Option.bind_eq_bind, Option.bind_some]

/-! ### Fractions -/

def fraction (t : Instant) : Text :=
  if t.micros = 0 then [] else '.' :: ofNatPadded 6 (t.micros % 1000000)

theorem timestamp_eq (t : Instant) :
    t.timestamp = t.date.text ++ 'T' :: (t.timeText ++ t.fraction) := by
  simp only [timestamp, fraction, List.append_assoc, List.cons_append]

theorem fraction_lt_iff (hsecond : s.nanos / 10 ^ 9 = t.nanos / 10 ^ 9) :
    s.fraction < t.fraction ↔ s.micros < t.micros := by
  have hs : s.micros % 1000000 < 10 ^ 6 := Nat.mod_lt _ (by decide)
  have ht : t.micros % 1000000 < 10 ^ 6 := Nat.mod_lt _ (by decide)
  unfold fraction
  by_cases hzero : s.micros = 0
  · by_cases hzero' : t.micros = 0
    · simp [hzero, hzero']
    · simp [hzero, hzero', Nat.pos_of_ne_zero hzero']
  · by_cases hzero' : t.micros = 0
    · simp [hzero, hzero']
    · rw [if_neg hzero, if_neg hzero', List.cons_lt_cons_self, ofNatPadded_lt_iff (by decide) hs ht]
      unfold micros
      omega

/-- Six digits after a point, or nothing. -/
def readFraction? : Text → Option Nat
  | [] => some 0
  | c :: t => do
    let t ← skip? '.' (c :: t)
    let (micros, t) ← takeNumber? 6 t
    if t = [] then some micros else none

theorem readFraction?_fraction (t : Instant) : readFraction? t.fraction = some (t.micros % 1000000) := by
  have hlt : t.micros % 1000000 < 10 ^ 6 := Nat.mod_lt _ (by decide)
  unfold fraction
  split
  · next hzero => rw [hzero]; rfl
  · have htake := takeNumber?_ofNatPadded (by decide) hlt []
    rw [List.append_nil] at htake
    simp only [readFraction?, skip?_cons, htake, Option.bind_eq_bind, Option.bind_some, ↓reduceIte]

/-! ### Timestamps -/

/-- The instant of a date, a time of day in universal time and a fraction, if there is one. The seconds
of a leap second are those of the second before it. -/
def ofTimestamp? (text : Text) : Option Instant := do
  let (date, text) ← Date.take? text
  let text ← skip? 'T' text
  let ((hours, minutes, seconds), text) ← takeTime? text
  let micros ← readFraction? text
  let secondOfDay := hours * 3600 + minutes * 60 + min seconds 59
  some ⟨date.days * secondsPerDay + secondOfDay, ((seconds - 59) * 1000000 + micros) * 1000⟩

theorem ofTimestamp?_timestamp (ht : t.IsClockTime) : ofTimestamp? t.timestamp = some t.truncated := by
  have hnanos := ht.nanos_lt
  have hleap := ht.endsMinute
  unfold InLeapSecond at hleap
  simp only [ofTimestamp?, timestamp_eq, Date.take?_text t.isValid_date ht.hasPlainYear, skip?_cons,
    takeTime?_timeText ht, readFraction?_fraction, Option.bind_eq_bind, Option.bind_some,
    Option.some.injEq, truncated, mk.injEq, days_date]
  constructor
  · unfold day secondOfDay secondsPerDay at *
    omega
  · unfold micros
    omega

theorem timestamp_lt_iff (hs : s.IsClockTime) (ht : t.IsClockTime) :
    s.timestamp < t.timestamp ↔ s.truncated.Before t.truncated := by
  rw [timestamp_eq, timestamp_eq, Date.text_append_lt_iff s.isValid_date t.isValid_date
    hs.hasPlainYear ht.hasPlainYear, List.cons_lt_cons_self, timeText_append_lt_iff hs ht,
    and_congr_right fraction_lt_iff, date_before_iff, date_eq_iff]
  simp only [Before, truncated, micros, day, secondOfDay, secondsPerDay]
  omega

/-! ### Records -/

/-- A point and six digits come last. -/
def HasFraction (text : Text) : Prop :=
  ∃ whole digits, text = whole ++ '.' :: digits ∧ digits.length = 6 ∧ ∀ c ∈ digits, c.isDigit

theorem HasFraction.point_mem {text : Text} (h : HasFraction text) : '.' ∈ text := by
  obtain ⟨whole, digits, rfl, -⟩ := h
  simp

theorem hasFraction_timestamp (h : t.micros ≠ 0) : HasFraction t.timestamp := by
  refine ⟨t.date.text ++ 'T' :: t.timeText, ofNatPadded 6 (t.micros % 1000000), ?_,
    length_ofNatPadded (by decide) (Nat.mod_lt _ (by decide)), (isNumeral_ofNatPadded _ _).isDigit⟩
  rw [timestamp, if_neg h]

theorem point_notMem_timestamp (hyear : t.date.HasPlainYear) (h : t.micros = 0) :
    '.' ∉ t.timestamp := by
  have hnumber : ∀ width n, '.' ∉ ofNatPadded width n := fun width n =>
    (isNumeral_ofNatPadded width n).notMem (by decide)
  rw [timestamp_eq, Date.text_append hyear, timeText_append, fraction, if_pos h]
  simp [hnumber]

end Instant

/-- The record of some request that came at `t`. -/
def EchoRecord.CameAt (record : EchoRecord) (t : Instant) : Prop :=
  ∃ answered peer request, ofRequest (.of t answered peer) request = .ok record

theorem EchoRecord.CameAt.timestamp_eq {record : EchoRecord} {t : Instant} (h : record.CameAt t) :
    record.timestamp = t.timestamp := by
  obtain ⟨answered, peer, request, hrecord⟩ := h
  obtain ⟨body, -, hrecord⟩ := bind_eq_ok_iff.mp hrecord
  cases hrecord
  rfl

/-- A timestamp tells its instant but for less than a microsecond. There is a fraction unless it would
be zero in a second that is no leap second, and timestamps are in the order of their instants. -/
theorem timestamp_faithful {s t : Instant} (hs : s.IsClockTime) (ht : t.IsClockTime)
    {record other : EchoRecord} (hrecord : record.CameAt s) (hother : other.CameAt t) :
    Instant.ofTimestamp? record.timestamp = some s.truncated ∧
      (Instant.HasFraction record.timestamp ↔ s.nanos % 10 ^ 9 / 1000 ≠ 0 ∨ s.InLeapSecond) ∧
      ('.' ∈ record.timestamp ↔ Instant.HasFraction record.timestamp) ∧
      (record.timestamp < other.timestamp ↔ s.truncated.Before t.truncated) := by
  have hmicros : s.micros ≠ 0 ↔ s.nanos % 10 ^ 9 / 1000 ≠ 0 ∨ s.InLeapSecond := by
    unfold Instant.micros Instant.InLeapSecond
    omega
  have hpoint : '.' ∈ s.timestamp → s.micros ≠ 0 := fun hmem hzero =>
    Instant.point_notMem_timestamp hs.hasPlainYear hzero hmem
  rw [hrecord.timestamp_eq, hother.timestamp_eq, ← hmicros]
  exact ⟨Instant.ofTimestamp?_timestamp hs,
    ⟨fun h => hpoint h.point_mem, Instant.hasFraction_timestamp⟩,
    ⟨fun h => Instant.hasFraction_timestamp (hpoint h), Instant.HasFraction.point_mem⟩,
    Instant.timestamp_lt_iff hs ht⟩

/-- Seven nanoseconds into the leap second at the end of 2016. -/
def leapSecond : Instant := ⟨1483228799, 1000000007⟩

def newYear : Instant := ⟨1483228800, 0⟩

/-- The record of `GET /` without headers. -/
def plainRecord (t : Instant) : EchoRecord where
  timestamp := t.timestamp
  method := .get
  path := ['/']
  query := []
  headers := []
  body := .null
  clientAddress := unknownClient

theorem plainRecord_cameAt (t : Instant) : (plainRecord t).CameAt t :=
  ⟨t, none, ⟨.get, ['/'], .http11, [], none⟩, rfl⟩

theorem timestamp_faithful_leap_second :
    Instant.ofTimestamp? "2016-12-31T23:59:60.000000".toList = some ⟨1483228799, 1000000000⟩ ∧
      Instant.HasFraction "2016-12-31T23:59:60.000000".toList ∧
      "2016-12-31T23:59:60.000000".toList < "2017-01-01T00:00:00".toList := by
  have hleap : leapSecond.IsClockTime := ⟨by decide, by decide, by decide⟩
  have hnew : newYear.IsClockTime := ⟨by decide, by decide, by decide⟩
  have htext : leapSecond.timestamp = "2016-12-31T23:59:60.000000".toList := by decide
  have htext' : newYear.timestamp = "2017-01-01T00:00:00".toList := by decide
  obtain ⟨hread, hfraction, -, horder⟩ :=
    timestamp_faithful hleap hnew (plainRecord_cameAt leapSecond) (plainRecord_cameAt newYear)
  rw [(plainRecord_cameAt leapSecond).timestamp_eq, htext] at hread hfraction horder
  rw [(plainRecord_cameAt newYear).timestamp_eq, htext'] at horder
  exact ⟨hread, hfraction.mpr (Or.inr (by decide)), horder.mpr (Or.inl (by decide))⟩

end HttpEcho
