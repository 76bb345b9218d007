import Mathlib.Logic.Function.Basic

/-! Dates of the proleptic Gregorian calendar from day numbers, day 0 being 1 January 1970, the way
the C library converts them: by cycles of years that start in March. -/

namespace CivilDate

structure Date where
  year : Int
  month : Int
  day : Int
deriving DecidableEq, Repr

/-- The years that start in March, from that of 2000 on, and the day of the year. -/
def yearAndDay (days : Int) : Int × Int :=
  let qcCycles := days / 146097
  let remDays := days % 146097
  let cCycles := min (remDays / 36524) 3
  let remDays := remDays - cCycles * 36524
  let qCycles := min (remDays / 1461) 24
  let remDays := remDays - qCycles * 1461
  let remYears := min (remDays / 365) 3
  (remYears + 4 * qCycles + 100 * cCycles + 400 * qcCycles, remDays - remYears * 365)

/-- The month from March on that a day of the year is in. -/
def monthOfDay (yearDay : Int) : Int := (5 * yearDay + 2) / 153

def monthStart (month : Int) : Int := (153 * month + 2) / 5

/-- 1 March 2000 is day 11017. -/
def ofDays (days : Int) : Date :=
  let (years, yearDay) := yearAndDay (days - 11017)
  let month := monthOfDay yearDay
  { year := 2000 + years + if month < 10 then 0 else 1
    month := if month < 10 then month + 3 else month - 9
    day := yearDay - monthStart month + 1 }

def yearStart (years : Int) : Int := 365 * years + years / 4 - years / 100 + years / 400

def toDays (date : Date) : Int :=
  let month := if date.month ≤ 2 then date.month + 9 else date.month - 3
  let years := date.year - 2000 - if date.month ≤ 2 then 1 else 0
  yearStart years + monthStart month + date.day - 1 + 11017

theorem yearStart_cycles {qc c q r : Int} (century : 0 ≤ c ∧ c ≤ 3) (leap : 0 ≤ q ∧ q ≤ 24)
    (year : 0 ≤ r ∧ r ≤ 3) :
    yearStart (r + 4 * q + 100 * c + 400 * qc) = 365 * r + 1461 * q + 36524 * c + 146097 * qc := by
  have fours : (r + 4 * q + 100 * c + 400 * qc) / 4 = q + 25 * c + 100 * qc := by omega
  have hundreds : (r + 4 * q + 100 * c + 400 * qc) / 100 = c + 4 * qc := by omega
  have all : (r + 4 * q + 100 * c + 400 * qc) / 400 = qc := by omega
  rw [yearStart, fours, hundreds, all]
  omega

theorem yearAndDay_spec (days : Int) :
    yearStart (yearAndDay days).1 + (yearAndDay days).2 = days ∧
      0 ≤ (yearAndDay days).2 ∧ (yearAndDay days).2 ≤ 365 := by
  simp only [yearAndDay]
  generalize eq_c : min (days % 146097 / 36524) 3 = c
  have century : 0 ≤ c ∧ c ≤ 3 := by omega
  have rem_c : 0 ≤ days % 146097 - c * 36524 ∧ days % 146097 - c * 36524 ≤ 36524 := by omega
  generalize eq_rem : days % 146097 - c * 36524 = rem at rem_c
  generalize eq_q : min (rem / 1461) 24 = q
  have leap : 0 ≤ q ∧ q ≤ 24 := by omega
  have rem_q : 0 ≤ rem - q * 1461 ∧ rem - q * 1461 ≤ 1460 := by omega
  generalize eq_r : min ((rem - q * 1461) / 365) 3 = r
  have year : 0 ≤ r ∧ r ≤ 3 := by omega
  rw [yearStart_cycles century leap year]
  omega

theorem monthOfDay_spec {yearDay : Int} (first : 0 ≤ yearDay) (last : yearDay ≤ 365) :
    0 ≤ monthOfDay yearDay ∧ monthOfDay yearDay ≤ 11 := by
  unfold monthOfDay
  omega

theorem toDays_ofDays (days : Int) : toDays (ofDays days) = days := by
  obtain ⟨days_eq, first, last⟩ := yearAndDay_spec (days - 11017)
  obtain ⟨march, february⟩ := monthOfDay_spec first last
  simp only [ofDays, toDays]
  by_cases spring : monthOfDay (yearAndDay (days - 11017)).2 < 10
  · have late : ¬monthOfDay (yearAndDay (days - 11017)).2 + 3 ≤ 2 := by omega
    simp only [spring, late, ↓reduceIte]
    rw [show 2000 + (yearAndDay (days - 11017)).1 + 0 - 2000 - 0 = (yearAndDay (days - 11017)).1 by
        omega,
      show monthOfDay (yearAndDay (days - 11017)).2 + 3 - 3 =
        monthOfDay (yearAndDay (days - 11017)).2 by omega]
    omega
  · have early : monthOfDay (yearAndDay (days - 11017)).2 - 9 ≤ 2 := by omega
    simp only [spring, early, ↓reduceIte]
    rw [show 2000 + (yearAndDay (days - 11017)).1 + 1 - 2000 - 1 = (yearAndDay (days - 11017)).1 by
        omega,
      show monthOfDay (yearAndDay (days - 11017)).2 - 9 + 9 =
        monthOfDay (yearAndDay (days - 11017)).2 by omega]
    omega

/-- Different days have different dates. -/
theorem ofDays_injective : Function.Injective ofDays :=
  Function.LeftInverse.injective toDays_ofDays

example : ofDays 19782 = ⟨2024, 2, 29⟩ := by decide

end CivilDate
