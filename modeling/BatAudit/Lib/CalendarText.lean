import BatAudit.Lib.Calendar
import BatAudit.Lib.GoTime
import Mathlib.Tactic.IntervalCases

/-!
# Instants as times

The calendar has every instant, a `time.Time` that can be written in RFC 3339 only those of the
years 0 to 9999. There the two count alike, so that the second of an instant is the instant of
its date and clock.
-/

namespace Calendar

theorem natCast_toNat {year : ℤ} (h : 0 ≤ year) : ((year.toNat : ℕ) : ℤ) = year :=
  Int.toNat_of_nonneg h

theorem isLeap_toNat {year : ℤ} (h : 0 ≤ year) : GoTime.isLeap year.toNat = isLeap year := by
  have hcast := natCast_toNat h
  rw [Bool.eq_iff_iff]
  simp only [GoTime.isLeap, isLeap, Bool.and_eq_true, Bool.or_eq_true, decide_eq_true_eq]
  omega

theorem daysIn_toNat {year : ℤ} (h : 0 ≤ year) {month : ℕ} (hmonth : 1 ≤ month ∧ month ≤ 12) :
    GoTime.daysIn year.toNat month = daysIn year month := by
  obtain ⟨hlow, hhigh⟩ := hmonth
  rw [GoTime.daysIn, isLeap_toNat h]
  interval_cases month <;> rfl

/-- The days before a month, counted from the first of March. -/
theorem daysBefore_eq (year : ℤ) {month : ℕ} (hmonth : 1 ≤ month ∧ month ≤ 12) :
    (daysBefore year month : ℤ) =
      if month ≤ 2 then (153 * ((month : ℤ) + 9) + 2) / 5 - 306
      else (153 * ((month : ℤ) - 3) + 2) / 5 + if isLeap year then 60 else 59 := by
  obtain ⟨hlow, hhigh⟩ := hmonth
  unfold daysBefore
  cases isLeap year <;> interval_cases month <;> rfl

/-- The two ways to count days agree. -/
theorem epochDay_toNat {year : ℤ} (h : 0 ≤ year) {month : ℕ} (hmonth : 1 ≤ month ∧ month ≤ 12)
    (day : ℕ) :
    GoTime.epochDay year.toNat month day = yearStart year + daysBefore year month + day - 1 := by
  have hcast := natCast_toNat h
  simp only [GoTime.epochDay, hcast, daysBefore_eq year hmonth, yearStart]
  by_cases hfeb : month ≤ 2
  · simp only [if_pos hfeb]
    omega
  · simp only [if_neg hfeb]
    by_cases hleap : isLeap year = true
    · rw [if_pos hleap]
      simp only [isLeap, Bool.and_eq_true, Bool.or_eq_true, decide_eq_true_eq] at hleap
      omega
    · rw [if_neg hleap]
      simp only [isLeap, Bool.and_eq_true, Bool.or_eq_true, decide_eq_true_eq] at hleap
      omega

/-! ## The time of an instant -/

/-- A year that is written in four digits. -/
def HasFourDigits (t : ℤ) : Prop := 0 ≤ (dateOf t).year ∧ (dateOf t).year < 10 ^ 4

instance (t : ℤ) : Decidable (HasFourDigits t) := inferInstanceAs (Decidable (_ ∧ _))

theorem clockOf_lt (t : ℤ) : (0 ≤ (clockOf t).hour ∧ (clockOf t).hour < 24) ∧
    (0 ≤ (clockOf t).minute ∧ (clockOf t).minute < 60) ∧
      (0 ≤ (clockOf t).second ∧ (clockOf t).second < 60) := by
  simp only [clockOf]
  simp only [day, hour, minute, second]
  omega

/-- The second of an instant, in UTC. -/
def timeOf (t : ℤ) (h : HasFourDigits t) : GoTime.Time where
  year := (dateOf t).year.toNat
  month := (dateOf t).month
  day := (dateOf t).day
  hour := (clockOf t).hour.toNat
  minute := (clockOf t).minute.toNat
  second := (clockOf t).second.toNat
  nano := 0
  offset := 0
  valid := by
    obtain ⟨hmonth, hday⟩ := (dateOf t).valid
    obtain ⟨⟨-, hhour⟩, ⟨-, hminute⟩, -, hsecond⟩ := clockOf_lt t
    refine ⟨by have := h.2; omega, hmonth, ?_, by omega, by omega, by omega, by decide⟩
    rw [daysIn_toNat h.1 hmonth]
    exact hday

theorem instant_timeOf (t : ℤ) (h : HasFourDigits t) :
    (timeOf t h).instant = t / second * second := by
  obtain ⟨⟨hhour, -⟩, ⟨hminute, -⟩, hsecond, -⟩ := clockOf_lt t
  have hday : yearStart (dateOf t).year + daysBefore (dateOf t).year (dateOf t).month +
      (dateOf t).day - 1 = t / day := toDay_ofDay (t / day)
  simp only [GoTime.Time.instant, GoTime.Time.wall, timeOf,
    epochDay_toNat h.1 (dateOf t).valid.1 (dateOf t).day, hday, Int.toNat_of_nonneg hhour,
    Int.toNat_of_nonneg hminute, Int.toNat_of_nonneg hsecond, Nat.cast_zero, add_zero, zero_mul,
    sub_zero]
  simp only [clockOf, day, hour, minute, second]
  omega

end Calendar
