import Mathlib.Algebra.BigOperators.Group.List.Defs
import Mathlib.Algebra.GroupWithZero.Nat
import Mathlib.Algebra.Group.Int.Defs
import Mathlib.Data.Int.Notation
import Mathlib.Order.Bounds.Defs
import Mathlib.Tactic.Common

/-!
# Calendar and clock

The proleptic Gregorian calendar, with years before the year 1, and the clock of UTC, which
has no leap seconds. Days are counted from 1970-01-01, and instants are the nanoseconds since
its midnight. `date` is Go's `time.Date`: a month beyond December belongs to a later year, and
days, hours and the rest may go beyond theirs too.
-/

namespace Calendar

/-! ## Years -/

def isLeap (year : ℤ) : Bool := year % 4 = 0 && (year % 100 ≠ 0 || year % 400 = 0)

/-- The first of January. -/
def yearStart (year : ℤ) : ℤ :=
  365 * (year - 1) + (year - 1) / 4 - (year - 1) / 100 + (year - 1) / 400 - 719162

/-- The year of a day, by the cycles of 400, 100 and 4 years. The last year of 4 and the last
century of 400 are a day longer than the others. -/
def yearOf (day : ℤ) : ℤ :=
  let n400 := (day + 719162) / 146097
  let d400 := (day + 719162) % 146097
  let n100 := min (d400 / 36524) 3
  let d100 := d400 - n100 * 36524
  let n4 := d100 / 1461
  let n1 := min (d100 % 1461 / 365) 3
  400 * n400 + 100 * n100 + 4 * n4 + n1 + 1

/-- A year of a cycle starts where the years before it end. -/
theorem yearStart_cycle {n400 n100 n4 n1 : ℤ} (h100 : 0 ≤ n100 ∧ n100 ≤ 3)
    (h4 : 0 ≤ n4 ∧ n4 ≤ 24) (h1 : 0 ≤ n1 ∧ n1 ≤ 3) :
    yearStart (400 * n400 + 100 * n100 + 4 * n4 + n1 + 1) =
      146097 * n400 + 36524 * n100 + 1461 * n4 + 365 * n1 - 719162 := by
  have hby4 : (400 * n400 + 100 * n100 + 4 * n4 + n1) / 4 = 100 * n400 + 25 * n100 + n4 := by
    omega
  have hby100 : (400 * n400 + 100 * n100 + 4 * n4 + n1) / 100 = 4 * n400 + n100 := by omega
  have hby400 : (400 * n400 + 100 * n100 + 4 * n4 + n1) / 400 = n400 := by omega
  rw [yearStart, add_sub_cancel_right, hby4, hby100, hby400]
  omega

theorem yearStart_add_one (year : ℤ) :
    yearStart (year + 1) = yearStart year + if isLeap year then 366 else 365 := by
  unfold yearStart
  by_cases hleap : isLeap year = true
  · have h := hleap
    simp only [isLeap, Bool.and_eq_true, Bool.or_eq_true, decide_eq_true_eq] at h
    rw [if_pos hleap]
    omega
  · have h := hleap
    simp only [isLeap, Bool.and_eq_true, Bool.or_eq_true, decide_eq_true_eq] at h
    rw [if_neg hleap]
    omega

/-- A day as the cycles that are over and the day of its year. -/
theorem exists_cycle (day : ℤ) :
    ∃ n400 n100 n4 n1 rest, (0 ≤ n100 ∧ n100 ≤ 3) ∧ (0 ≤ n4 ∧ n4 ≤ 24) ∧ (0 ≤ n1 ∧ n1 ≤ 3) ∧
      yearOf day = 400 * n400 + 100 * n100 + 4 * n4 + n1 + 1 ∧
      day = 146097 * n400 + 36524 * n100 + 1461 * n4 + 365 * n1 - 719162 + rest ∧
      0 ≤ rest ∧ rest ≤ 365 ∧ (rest = 365 → n1 = 3 ∧ (n4 = 24 → n100 = 3)) := by
  obtain ⟨d400, hd400⟩ : ∃ d400, d400 = (day + 719162) % 146097 := ⟨_, rfl⟩
  obtain ⟨n100, hn100⟩ : ∃ n100, n100 = min (d400 / 36524) 3 := ⟨_, rfl⟩
  obtain ⟨d100, hd100⟩ : ∃ d100, d100 = d400 - n100 * 36524 := ⟨_, rfl⟩
  obtain ⟨n1, hn1⟩ : ∃ n1, n1 = min (d100 % 1461 / 365) 3 := ⟨_, rfl⟩
  refine ⟨(day + 719162) / 146097, n100, d100 / 1461, n1, d100 % 1461 - n1 * 365,
    by omega, by omega, by omega, ?_, by omega, by omega, by omega, by omega⟩
  rw [hn1, hd100, hn100, hd400]
  rfl

/-- The last of four years, but for a century that is not the last of four. -/
theorem isLeap_cycle {n400 n100 n4 : ℤ} (h4 : 0 ≤ n4 ∧ n4 ≤ 24) (h : n4 = 24 → n100 = 3) :
    isLeap (400 * n400 + 100 * n100 + 4 * n4 + 3 + 1) = true := by
  have hby4 : (400 * n400 + 100 * n100 + 4 * n4 + 3 + 1) % 4 = 0 := by omega
  simp only [isLeap, Bool.and_eq_true, Bool.or_eq_true, decide_eq_true_eq]
  refine ⟨hby4, ?_⟩
  by_cases hn4 : n4 = 24
  · obtain rfl := h hn4
    right
    omega
  · have hby100 : (400 * n400 + 100 * n100 + 4 * n4 + 3 + 1) % 100 = 4 * n4 + 4 := by omega
    left
    omega

/-- A day lies in its year. -/
theorem yearOf_spec (day : ℤ) :
    yearStart (yearOf day) ≤ day ∧ day < yearStart (yearOf day + 1) := by
  obtain ⟨n400, n100, n4, n1, rest, h100, h4, h1, hyear, hday, hrest, hlast, hleap⟩ :=
    exists_cycle day
  rw [yearStart_add_one, hyear, yearStart_cycle h100 h4 h1]
  refine ⟨by omega, ?_⟩
  rcases Int.lt_or_eq_of_le hlast with hlast | hlast
  · split_ifs <;> omega
  · obtain ⟨rfl, hn4⟩ := hleap hlast
    rw [if_pos (isLeap_cycle h4 hn4)]
    omega

/-! ## Months -/

def monthLengths (leap : Bool) : List ℕ :=
  [31, if leap then 29 else 28, 31, 30, 31, 30, 31, 31, 30, 31, 30, 31]

def daysIn (year : ℤ) (month : ℕ) : ℕ := (monthLengths (isLeap year)).getD (month - 1) 0

/-- The days of the year before the first of the month. -/
def daysBefore (year : ℤ) (month : ℕ) : ℕ := ((monthLengths (isLeap year)).take (month - 1)).sum

/-- The part that a position in a row of parts lies in, and its position there. -/
def partAt : List ℕ → ℕ → ℕ × ℕ
  | [], n => (0, n)
  | l :: ls, n => if n < l then (0, n) else ((partAt ls (n - l)).1 + 1, (partAt ls (n - l)).2)

theorem partAt_spec {ls : List ℕ} {n : ℕ} (h : n < ls.sum) :
    (partAt ls n).1 < ls.length ∧ (partAt ls n).2 < ls.getD (partAt ls n).1 0 ∧
      (ls.take (partAt ls n).1).sum + (partAt ls n).2 = n := by
  induction ls generalizing n with
  | nil => simp at h
  | cons l ls ih =>
    rw [List.sum_cons] at h
    by_cases hn : n < l
    · simp [partAt, hn]
    · obtain ⟨hpart, hplace, hsum⟩ := ih (n := n - l) (by omega)
      simp only [partAt, if_neg hn, List.length_cons, List.getD_cons_succ, List.take_succ_cons,
        List.sum_cons]
      exact ⟨by omega, hplace, by omega⟩

/-! ## Dates -/

/-- A day that the calendar has. -/
structure Date where
  year : ℤ
  month : ℕ
  day : ℕ
  valid : (1 ≤ month ∧ month ≤ 12) ∧ 1 ≤ day ∧ day ≤ daysIn year month

def Date.toDay (date : Date) : ℤ :=
  yearStart date.year + daysBefore date.year date.month + date.day - 1

def yearDay (day : ℤ) : ℕ := (day - yearStart (yearOf day)).toNat

theorem yearDay_lt (day : ℤ) :
    yearDay day < (monthLengths (isLeap (yearOf day))).sum := by
  obtain ⟨hle, hlt⟩ := yearOf_spec day
  rw [yearStart_add_one] at hlt
  unfold yearDay
  cases hleap : isLeap (yearOf day)
  · change _ < 365
    rw [hleap, if_neg Bool.false_ne_true] at hlt
    omega
  · change _ < 366
    rw [hleap, if_pos rfl] at hlt
    omega

def ofDay (day : ℤ) : Date :=
  let place := partAt (monthLengths (isLeap (yearOf day))) (yearDay day)
  { year := yearOf day
    month := place.1 + 1
    day := place.2 + 1
    valid := by
      obtain ⟨hmonth, hday, -⟩ := partAt_spec (yearDay_lt day)
      exact ⟨⟨Nat.le_add_left 1 _, hmonth⟩, Nat.le_add_left 1 _, hday⟩ }

/-- The date of a day is the date of that day only. -/
theorem toDay_ofDay (day : ℤ) : (ofDay day).toDay = day := by
  obtain ⟨-, -, hsum⟩ := partAt_spec (yearDay_lt day)
  obtain ⟨hle, -⟩ := yearOf_spec day
  have hplace : (yearDay day : ℤ) = day - yearStart (yearOf day) :=
    Int.toNat_of_nonneg (Int.sub_nonneg.mpr hle)
  simp only [Date.toDay, ofDay, daysBefore, Nat.add_sub_cancel]
  omega

/-! ## Instants -/

def second : ℤ := 1000000000

def minute : ℤ := 60 * second

def hour : ℤ := 60 * minute

def day : ℤ := 24 * hour

def dateOf (t : ℤ) : Date := ofDay (t / day)

/-- `time.Time.Clock`, and the nanoseconds. -/
structure Clock where
  hour : ℤ
  minute : ℤ
  second : ℤ
  nanosecond : ℤ
deriving DecidableEq, Repr

def clockOf (t : ℤ) : Clock :=
  ⟨t % day / hour, t % hour / minute, t % minute / second, t % second⟩

/-- `time.Date`, in UTC. -/
def date (year month day hour minute second nanosecond : ℤ) : ℤ :=
  let month := month - 1
  let year := year + month / 12
  let month := (month % 12).toNat + 1
  let days := yearStart year + daysBefore year month + day - 1
  (((days * 24 + hour) * 60 + minute) * 60 + second) * 1000000000 + nanosecond

/-- An hour of the day of an instant. -/
theorem date_dateOf (t h : ℤ) :
    date (dateOf t).year (dateOf t).month (dateOf t).day h 0 0 0 = t / day * day + h * hour := by
  obtain ⟨⟨hone, htwelve⟩, -⟩ := (dateOf t).valid
  have hover : ((dateOf t).month - 1 : ℤ) / 12 = 0 := by omega
  have hmonth : (((dateOf t).month - 1 : ℤ) % 12).toNat + 1 = (dateOf t).month := by omega
  have hday : yearStart (dateOf t).year + daysBefore (dateOf t).year (dateOf t).month +
      (dateOf t).day - 1 = t / day := toDay_ofDay (t / day)
  simp only [date, hover, hmonth, add_zero, hday]
  simp only [day, hour, minute, second]
  omega

/-- On the hour. -/
def AtHour (h t : ℤ) : Prop := clockOf t = ⟨h, 0, 0, 0⟩

instance (h t : ℤ) : Decidable (AtHour h t) := inferInstanceAs (Decidable (clockOf t = _))

theorem atHour_iff {h t : ℤ} : AtHour h t ↔ t % day = h * hour := by
  simp only [AtHour, clockOf, Clock.mk.injEq]
  simp only [day, hour, minute, second]
  omega

/-- The hour of this day, if it is still to come, or else of the next. -/
theorem isLeast_atHour {h : ℤ} (h0 : 0 ≤ h) (h24 : h < 24) (t : ℤ) :
    IsLeast {u | t < u ∧ AtHour h u}
      (if t < t / day * day + h * hour then t / day * day + h * hour
        else t / day * day + h * hour + day) := by
  simp only [atHour_iff]
  simp only [day, hour, minute, second]
  refine ⟨⟨?_, ?_⟩, ?_⟩
  · split_ifs <;> omega
  · split_ifs <;> omega
  · rintro u ⟨hlater, hhour⟩
    split_ifs <;> omega

end Calendar
