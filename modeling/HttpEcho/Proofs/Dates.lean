import HttpEcho.Calendar
import Mathlib.Algebra.Order.BigOperators.Group.List
import Mathlib.Tactic.IntervalCases

/-!
# Dates and days

The date of a day is a date of the Gregorian calendar, and counting the days up to it gives the day back.
So each date is that of one day, and days are in the order of their dates.
-/

namespace HttpEcho.Date

attribute [ext] Date

/-! ### The Gregorian calendar -/

def IsLeapYear (year : Int) : Prop := year % 4 = 0 ∧ (year % 100 = 0 → year % 400 = 0)

instance (year : Int) : Decidable (IsLeapYear year) := inferInstanceAs (Decidable (_ ∧ _))

def februaryLength (year : Int) : Nat := if IsLeapYear year then 29 else 28

def monthLengths (year : Int) : List Nat :=
  [31, februaryLength year, 31, 30, 31, 30, 31, 31, 30, 31, 30, 31]

def daysInMonth (year : Int) (month : Nat) : Nat := (monthLengths year).getD (month - 1) 0

def daysBeforeMonth (year : Int) (month : Nat) : Nat := ((monthLengths year).take (month - 1)).sum

/-- Days from the first day of year 0 to that of `year`, of which every fourth is a leap year, but not
every hundredth, but every four-hundredth. -/
def daysBeforeYear (year : Int) : Int :=
  365 * year + (year + 3) / 4 - (year + 99) / 100 + (year + 399) / 400

/-- Days from the first of January 1970. -/
def days (d : Date) : Int :=
  daysBeforeYear d.year - daysBeforeYear 1970 + daysBeforeMonth d.year d.month + (d.day - 1)

structure IsValid (d : Date) : Prop where
  month_mem : 1 ≤ d.month ∧ d.month ≤ 12
  day_mem : 1 ≤ d.day ∧ d.day ≤ daysInMonth d.year d.month

def Before (d e : Date) : Prop :=
  d.year < e.year ∨ d.year = e.year ∧ (d.month < e.month ∨ d.month = e.month ∧ d.day < e.day)

theorem daysBeforeYear_succ (year : Int) :
    daysBeforeYear (year + 1) = daysBeforeYear year + (337 + februaryLength year) := by
  unfold daysBeforeYear februaryLength
  split
  · next hleap =>
    unfold IsLeapYear at hleap
    omega
  · next hleap =>
    unfold IsLeapYear at hleap
    omega

theorem daysBeforeYear_le {year later : Int} (h : year ≤ later) :
    daysBeforeYear year ≤ daysBeforeYear later := by
  unfold daysBeforeYear
  omega

theorem getElem?_monthLengths (year : Int) {month : Nat} (hmonth : 1 ≤ month ∧ month ≤ 12) :
    (monthLengths year)[month - 1]? = some (daysInMonth year month) := by
  have hlt : month - 1 < (monthLengths year).length :=
    (Nat.sub_lt hmonth.1 Nat.one_pos).trans_le hmonth.2
  rw [daysInMonth, List.getD_eq_getElem?_getD, List.getElem?_eq_getElem hlt, Option.getD_some]

theorem daysBeforeMonth_succ (year : Int) {month : Nat} (hmonth : 1 ≤ month ∧ month ≤ 12) :
    daysBeforeMonth year (month + 1) = daysBeforeMonth year month + daysInMonth year month := by
  have hindex : month + 1 - 1 = month - 1 + 1 := (Nat.sub_add_cancel hmonth.1).symm
  rw [daysBeforeMonth, hindex, List.take_add_one, getElem?_monthLengths year hmonth, List.sum_append,
    Option.toList_some, List.sum_singleton]
  rfl

theorem daysBeforeMonth_le (year : Int) {month later : Nat} (h : month ≤ later) :
    daysBeforeMonth year month ≤ daysBeforeMonth year later :=
  List.monotone_sum_take (monthLengths year) (Nat.sub_le_sub_right h 1)

theorem daysBeforeMonth_all (year : Int) : daysBeforeMonth year 13 = 337 + februaryLength year := by
  simp only [daysBeforeMonth, monthLengths, Nat.reduceSub, List.take_succ_cons, List.take_zero,
    List.sum_cons, List.sum_nil]
  omega

theorem februaryLength_le (year : Int) : februaryLength year ≤ 29 := by
  unfold februaryLength
  split <;> decide

theorem IsValid.day_le {d : Date} (h : d.IsValid) : d.day ≤ 31 := by
  have hfebruary := februaryLength_le d.year
  have hlengths : ∀ length ∈ monthLengths d.year, length ≤ 31 := by
    simpa [monthLengths] using hfebruary.trans (by decide : 29 ≤ 31)
  exact h.day_mem.2.trans
    (hlengths _ (List.mem_of_getElem? (getElem?_monthLengths d.year h.month_mem)))

/-! ### The order of days -/

section Order

variable {d e : Date}

theorem IsValid.daysBeforeYear_le (h : d.IsValid) :
    daysBeforeYear d.year ≤ d.days + daysBeforeYear 1970 := by
  have hday := h.day_mem.1
  unfold days
  omega

theorem IsValid.lt_daysBeforeMonth {month : Nat} (h : d.IsValid) (hlt : d.month < month) :
    d.days + daysBeforeYear 1970 < daysBeforeYear d.year + daysBeforeMonth d.year month := by
  have hsucc := daysBeforeMonth_succ d.year h.month_mem
  have hle : daysBeforeMonth d.year (d.month + 1) ≤ daysBeforeMonth d.year month :=
    daysBeforeMonth_le d.year hlt
  have hday := h.day_mem.2
  unfold days
  omega

theorem IsValid.lt_daysBeforeYear (h : d.IsValid) :
    d.days + daysBeforeYear 1970 < daysBeforeYear (d.year + 1) := by
  have hlt := h.lt_daysBeforeMonth (Nat.lt_succ_of_le h.month_mem.2)
  rw [daysBeforeYear_succ]
  rw [daysBeforeMonth_all] at hlt
  push_cast at hlt
  exact hlt

theorem days_lt_of_before (hd : d.IsValid) (he : e.IsValid) (h : d.Before e) : d.days < e.days := by
  rcases h with hyear | ⟨hyear, hmonth | ⟨hmonth, hday⟩⟩
  · have hlt := hd.lt_daysBeforeYear
    have hle := daysBeforeYear_le (Int.add_one_le_iff.mpr hyear)
    have hstart := he.daysBeforeYear_le
    omega
  · have hlt := hd.lt_daysBeforeMonth hmonth
    have hday := he.day_mem.1
    rw [hyear] at hlt
    unfold days at hlt ⊢
    omega
  · unfold days
    rw [hyear, hmonth]
    omega

theorem eq_or_before_or_before (d e : Date) : d = e ∨ d.Before e ∨ e.Before d := by
  rw [Date.ext_iff, Before, Before]
  omega

/-- Days are in the order of their dates. -/
theorem days_lt_iff (hd : d.IsValid) (he : e.IsValid) : d.days < e.days ↔ d.Before e := by
  refine ⟨fun hlt => ?_, days_lt_of_before hd he⟩
  rcases eq_or_before_or_before d e with rfl | h | h
  · exact absurd hlt (lt_irrefl _)
  · exact h
  · exact absurd (days_lt_of_before he hd h) (lt_asymm hlt)

theorem eq_of_days_eq (hd : d.IsValid) (he : e.IsValid) (h : d.days = e.days) : d = e := by
  rcases eq_or_before_or_before d e with heq | hbefore | hbefore
  · exact heq
  · exact absurd h (days_lt_of_before hd he hbefore).ne
  · exact absurd h (days_lt_of_before he hd hbefore).ne'

end Order

/-! ### Years that start in March -/

/-- The date of a day of a year that starts in March. -/
def ofMarchYear (year : Int) (dayOfYear : Nat) : Date :=
  let (month, day) := monthAndDay dayOfYear
  if month < 10 then ⟨year, month + 3, day⟩ else ⟨year + 1, month - 9, day⟩

/-- Days from the first of March of year 0 to that of `year`. -/
def daysBeforeMarch (year : Int) : Int := 365 * year + year / 4 - year / 100 + year / 400

theorem daysBeforeMarch_eq (year : Int) : daysBeforeMarch year - epochOffset =
    daysBeforeYear year - daysBeforeYear 1970 + (31 + februaryLength year) := by
  unfold daysBeforeMarch daysBeforeYear februaryLength epochOffset
  split
  · next hleap =>
    unfold IsLeapYear at hleap
    omega
  · next hleap =>
    unfold IsLeapYear at hleap
    omega

theorem ofMarchYear_spec {year : Int} {dayOfYear : Nat} (hle : dayOfYear ≤ 365)
    (hleap : dayOfYear = 365 → IsLeapYear (year + 1)) :
    (ofMarchYear year dayOfYear).IsValid ∧
      (ofMarchYear year dayOfYear).days = daysBeforeMarch year - epochOffset + dayOfYear := by
  have hmarch := daysBeforeMarch_eq year
  have hnext := daysBeforeYear_succ year
  obtain ⟨month, hmonth⟩ : ∃ month, (5 * dayOfYear + 2) / 153 = month := ⟨_, rfl⟩
  have hlast : month ≤ 11 := by omega
  have hfebruary : dayOfYear = 365 → februaryLength (year + 1) = 29 := fun h => if_pos (hleap h)
  have hshort : 28 ≤ februaryLength (year + 1) := by unfold februaryLength; split <;> decide
  unfold ofMarchYear monthAndDay
  simp only [hmonth]
  constructor
  · interval_cases month
    all_goals
      simp only [Nat.reduceLT, ↓reduceIte, Nat.reduceAdd, Nat.reduceSub, Nat.reduceMul, Nat.reduceDiv]
      refine ⟨⟨by simp, by simp⟩, ?_⟩
      simp only [daysInMonth, monthLengths, Nat.reduceSub, List.getD_cons_succ, List.getD_cons_zero]
      omega
  · interval_cases month
    all_goals
      simp only [Nat.reduceLT, ↓reduceIte, Nat.reduceAdd, Nat.reduceSub, Nat.reduceMul, Nat.reduceDiv,
        days, daysBeforeMonth, monthLengths, List.take_succ_cons, List.take_zero, List.sum_cons,
        List.sum_nil]
      omega

/-- The last of four equal parts takes in one more. -/
theorem split_in_four {n size : Nat} (hsize : 0 < size) (hn : n ≤ 4 * size) :
    n = min (n / size) 3 * size + (n - min (n / size) 3 * size) ∧ n - min (n / size) 3 * size ≤ size ∧
      (n - min (n / size) 3 * size = size → min (n / size) 3 = 3) := by
  have hdiv := Nat.div_add_mod' n size
  have hmod := Nat.mod_lt n hsize
  rcases Nat.lt_or_ge (n / size) 4 with hlt | hge
  · rw [Nat.min_eq_left (Nat.le_of_lt_succ hlt)]
    omega
  · have hle := Nat.mul_le_mul_right size hge
    rw [Nat.min_eq_right (Nat.le_of_succ_le hge)]
    omega

theorem daysBeforeMarch_split (era : Int) {century fourYears yearOfFour : Nat} (hcentury : century ≤ 3)
    (hfourYears : fourYears ≤ 24) (hyearOfFour : yearOfFour ≤ 3) :
    daysBeforeMarch (era * 400 + (century * 100 + fourYears * 4 + yearOfFour : Nat)) =
      era * 146097 + (century * 36524 + fourYears * 1461 + yearOfFour * 365 : Nat) := by
  obtain ⟨year, hyear⟩ :
    ∃ year, era * 400 + ((century * 100 + fourYears * 4 + yearOfFour : Nat) : Int) = year := ⟨_, rfl⟩
  have hfour : year / 4 = era * 100 + century * 25 + fourYears := by omega
  have hhundred : year / 100 = era * 4 + century := by omega
  have hfourHundred : year / 400 = era := by omega
  rw [hyear, daysBeforeMarch, hfour, hhundred, hfourHundred]
  omega

theorem exists_ofMarchYear (n : Int) : ∃ year dayOfYear, dayOfYear ≤ 365 ∧
    (dayOfYear = 365 → IsLeapYear (year + 1)) ∧ ofDays n = ofMarchYear year dayOfYear ∧
    n + epochOffset = daysBeforeMarch year + dayOfYear := by
  let era := (n + epochOffset) / daysPerFourCenturies
  let dayOfEra := ((n + epochOffset) % daysPerFourCenturies).toNat
  let century := min (dayOfEra / daysPerCentury) 3
  let dayOfCentury := dayOfEra - century * daysPerCentury
  let fourYears := dayOfCentury / daysPerFourYears
  let dayOfFourYears := dayOfCentury % daysPerFourYears
  let yearOfFour := min (dayOfFourYears / 365) 3
  let dayOfYear := dayOfFourYears - yearOfFour * 365
  have hera : n + epochOffset = era * 146097 + dayOfEra ∧ dayOfEra ≤ 4 * 36524 := by
    simp only [era, dayOfEra, daysPerFourCenturies]
    omega
  have hcentury : dayOfEra = century * 36524 + dayOfCentury ∧ dayOfCentury ≤ 36524 ∧
      (dayOfCentury = 36524 → century = 3) := split_in_four (by decide) hera.2
  have hfourYears : dayOfCentury = fourYears * 1461 + dayOfFourYears ∧ dayOfFourYears ≤ 4 * 365 :=
    ⟨(Nat.div_add_mod' _ _).symm, Nat.le_of_lt_succ (Nat.mod_lt _ (by decide))⟩
  have hyear : dayOfFourYears = yearOfFour * 365 + dayOfYear ∧ dayOfYear ≤ 365 ∧
      (dayOfYear = 365 → yearOfFour = 3) := split_in_four (by decide) hfourYears.2
  have hcenturyLe : century ≤ 3 := Nat.min_le_right _ _
  have hyearOfFourLe : yearOfFour ≤ 3 := Nat.min_le_right _ _
  have hfourYearsLe : fourYears ≤ 24 := by omega
  refine ⟨era * 400 + (century * 100 + fourYears * 4 + yearOfFour : Nat), dayOfYear, hyear.2.1,
    fun hlast => ?_, rfl, ?_⟩
  · -- Day 365 is only in the last of four years, and at the end of a century only in the last of four.
    have hthree := hyear.2.2 hlast
    have hround : fourYears = 24 → century = 3 := by omega
    unfold IsLeapYear
    omega
  · rw [daysBeforeMarch_split era hcenturyLe hfourYearsLe hyearOfFourLe, hera.1]
    omega

theorem isValid_ofDays (n : Int) : (ofDays n).IsValid := by
  obtain ⟨year, dayOfYear, hle, hleap, heq, -⟩ := exists_ofMarchYear n
  rw [heq]
  exact (ofMarchYear_spec hle hleap).1

/-- Counting the days up to the date of a day gives the day back. -/
theorem days_ofDays (n : Int) : (ofDays n).days = n := by
  obtain ⟨year, dayOfYear, hle, hleap, heq, hn⟩ := exists_ofMarchYear n
  rw [heq, (ofMarchYear_spec hle hleap).2]
  omega

/-- Each date is that of one day. -/
theorem ofDays_days {d : Date} (h : d.IsValid) : ofDays d.days = d :=
  eq_of_days_eq (isValid_ofDays d.days) h (days_ofDays d.days)

example : ofDays 11016 = ⟨2000, 2, 29⟩ := by decide

end HttpEcho.Date
