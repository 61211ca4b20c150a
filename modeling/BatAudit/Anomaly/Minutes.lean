import BatAudit.Anomaly.Rules
import BatAudit.Lib.Rounding

/-!
# Durations in minutes

A duration of at least `n` whole minutes is at least `n` minutes in double precision, and one
that is shorter is shorter, by more than rounding could add.
-/

namespace BatAudit.Anomaly

open Double (Between)
open Float64 (Representable)

theorem toInt_minute : Minute.toInt = 60000000000 := by decide

/-- The whole minutes of a duration, and the nanoseconds after them. -/
theorem toInt_div_minute {d : Int64} (h : 0 ≤ d.toInt) :
    (d / Minute).toInt = d.toInt / 60000000000 ∧ (d % Minute).toInt = d.toInt % 60000000000 := by
  have hlt := Int64.toInt_lt d
  constructor
  · rw [Int64.toInt_div, toInt_minute, Int.tdiv_eq_ediv_of_nonneg h,
      Int.bmod_eq_of_le (by omega) (by omega)]
  · rw [Int64.toInt_mod, toInt_minute, Int.tmod_eq_emod_of_nonneg h]

/-- A number of minutes that is whole, less `2 ^ -36`. -/
theorem representable_below {n : ℕ} (h : n ≤ 2 ^ 17) (hpos : 0 < n) :
    Representable ((n : ℚ) - 1 / 2 ^ 36) := by
  refine ⟨n * 2 ^ 36 - 1, -36, ?_, by decide, by decide, ?_⟩
  · omega
  · have hle : 1 ≤ n * 2 ^ 36 := Nat.mul_pos hpos (by norm_num)
    rw [Nat.cast_sub hle, zpow_neg]
    push_cast
    norm_num
    ring

def wholeMinutes (d : Int64) : ℕ := (d.toInt / 60000000000).toNat

theorem wholeMinutes_lt {d : Int64} : wholeMinutes d < 2 ^ 28 := by
  have hlt := Int64.toInt_lt d
  unfold wholeMinutes
  omega

/-- The part of a minute that is left, in minutes. -/
theorem fraction_between {r : ℕ} (h : r < 60000000000) :
    Between 0 (1 - 1 / 2 ^ 36) ((Double.ofInt r).div (Double.ofInt Minute.toInt)) := by
  have hminute : Between (60000000000 : ℕ) (60000000000 : ℕ) (Double.ofInt Minute.toInt) := by
    rw [toInt_minute]
    exact Double.ofInt_natCast (by norm_num)
  have hone : Representable (((1 : ℕ) : ℚ) - 1 / 2 ^ 36) := representable_below (by norm_num) one_pos
  have hr : (r : ℚ) ≤ 60000000000 - 1 := by
    have : r + 1 ≤ 60000000000 := h
    have hq : (r : ℚ) + 1 ≤ 60000000000 := by exact_mod_cast this
    linarith
  rw [Nat.cast_one] at hone
  refine Double.div_between (Double.ofInt_natCast (by omega)) hminute (by norm_num)
    (Float64.representable_natCast (Nat.zero_le _)) hone (by positivity) ?_
  rw [div_le_iff₀ (by norm_num)]
  push_cast
  linarith

theorem minutes_between {d : Int64} {hi : ℚ} (h : 0 ≤ d.toInt) (hhi : Representable hi)
    (hle : (wholeMinutes d : ℚ) + (1 - 1 / 2 ^ 36) ≤ hi) :
    Between (wholeMinutes d) hi (minutes d) := by
  obtain ⟨hquot, hrest⟩ := toInt_div_minute h
  have hm : (d / Minute).toInt = wholeMinutes d := by
    rw [hquot, wholeMinutes]
    omega
  have hr : (d % Minute).toInt = ((d.toInt % 60000000000).toNat : ℕ) := by
    rw [hrest]
    omega
  have hsmall : wholeMinutes d ≤ 2 ^ 53 := by
    have := wholeMinutes_lt (d := d)
    omega
  rw [minutes, hm, hr]
  exact Double.add_between (Double.ofInt_natCast hsmall) (fraction_between (by omega))
    (Float64.representable_natCast hsmall) hhi (by linarith) hle

/-- Less than `2 ^ 17` whole minutes, the next whole minute is out of reach. -/
theorem minutes_lt_next {d : Int64} (h : 0 ≤ d.toInt) (hsmall : wholeMinutes d < 2 ^ 17) :
    Between (wholeMinutes d) (wholeMinutes d + 1 - 1 / 2 ^ 36) (minutes d) := by
  have hhi : Representable (((wholeMinutes d + 1 : ℕ) : ℚ) - 1 / 2 ^ 36) :=
    representable_below (by omega) (by omega)
  rw [Nat.cast_add, Nat.cast_one] at hhi
  exact minutes_between h hhi (by linarith)

/-- The conversion of a duration to minutes and back is exact. -/
theorem toInt_minutes {d : Int64} (h : 0 ≤ d.toInt) (hsmall : wholeMinutes d < 2 ^ 17)
    (beyond : Double → ℤ) : (minutes d).toInt beyond = wholeMinutes d := by
  obtain ⟨f, hf, hnegative, hle, hlt⟩ := minutes_lt_next h hsmall
  have hfloor : f.ratio.1 / f.ratio.2 = wholeMinutes d := by
    rw [← f.ratio_eq] at hle hlt
    have hpos : (0 : ℚ) < f.ratio.2 := Nat.cast_pos.mpr f.ratio_pos
    rw [le_div_iff₀ hpos] at hle
    have hlt' : (f.ratio.1 : ℚ) < (wholeMinutes d + 1) * f.ratio.2 := by
      rw [← div_lt_iff₀ hpos]
      refine hlt.trans_lt (sub_lt_self _ (by positivity))
    refine Nat.div_eq_of_lt_le ?_ ?_
    · exact_mod_cast hle
    · exact_mod_cast hlt'
  rw [hf]
  simp only [Double.toInt, hfloor, hnegative]
  rw [if_neg Bool.false_ne_true, if_pos]
  omega

end BatAudit.Anomaly
