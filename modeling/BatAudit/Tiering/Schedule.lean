import BatAudit.Lib.Calendar
import BatAudit.Lib.GoText

/-!
# When the tiering job runs

`NewSchedulerFromEnv` and `nextRun`. `parseIntEnv` takes only positive numbers, so that the
hour 0 is read as no hour and gives the default.
-/

namespace BatAudit.Tiering

open Calendar (AtHour date dateOf)

structure Job where
  rawDays : ℤ
  hourlyDays : ℤ
deriving DecidableEq, Repr

structure Scheduler where
  job : Job
  hour : ℤ
deriving DecidableEq, Repr

def parseIntEnv (v : String) (defaultVal : ℤ) : ℤ :=
  match GoText.atoi v.toList with
  | some n => if 0 < n then n else defaultVal
  | none => defaultVal

def newSchedulerFromEnv (getEnv : String → String → String) : Scheduler :=
  let rawDays := parseIntEnv (getEnv "TIERING_RAW_DAYS" "30") 30
  let hourlyDays := parseIntEnv (getEnv "TIERING_HOURLY_DAYS" "365") 365
  let hour := parseIntEnv (getEnv "TIERING_HOUR" "2") 2
  ⟨⟨rawDays, hourlyDays⟩, hour⟩

def Scheduler.nextRun (s : Scheduler) (now : ℤ) : ℤ :=
  let candidate := date (dateOf now).year (dateOf now).month (dateOf now).day s.hour 0 0 0
  if now < candidate then candidate else candidate + 24 * Calendar.hour

theorem newSchedulerFromEnv_hour {getEnv : String → String → String} {h : ℤ}
    (hread : GoText.atoi (getEnv "TIERING_HOUR" "2").toList = some h) :
    (newSchedulerFromEnv getEnv).hour = if 0 < h then h else 2 := by
  simp only [newSchedulerFromEnv, parseIntEnv, hread]

/-- The earliest of the instants after `now` that are on the hour. -/
theorem isLeast_nextRun {s : Scheduler} (h0 : 0 ≤ s.hour) (h24 : s.hour < 24) (now : ℤ) :
    IsLeast {t | now < t ∧ AtHour s.hour t} (s.nextRun now) := by
  simp only [Scheduler.nextRun, Calendar.date_dateOf]
  exact Calendar.isLeast_atHour h0 h24 now

/-- The job is scheduled at the hour that is configured, unless that is midnight. -/
theorem nextRun_configured_iff {getEnv : String → String → String} {h : ℤ}
    (hread : GoText.atoi (getEnv "TIERING_HOUR" "2").toList = some h) (h0 : 0 ≤ h) (h24 : h < 24)
    (now : ℤ) :
    IsLeast {t | now < t ∧ AtHour h t} ((newSchedulerFromEnv getEnv).nextRun now) ↔ h ≠ 0 := by
  have hhour := newSchedulerFromEnv_hour hread
  constructor
  · rintro hleast rfl
    have hread2 := isLeast_nextRun (s := newSchedulerFromEnv getEnv) (by simp [hhour])
      (by simp [hhour]) now
    have hmidnight := Calendar.atHour_iff.mp hleast.1.2
    have hnight := Calendar.atHour_iff.mp hread2.1.2
    rw [hmidnight, hhour] at hnight
    exact absurd hnight (by decide)
  · intro hne
    rw [if_pos (by omega)] at hhour
    have hleast := isLeast_nextRun (s := newSchedulerFromEnv getEnv) (by omega) (by omega) now
    rwa [hhour] at hleast

def env (hour : String) (key fallback : String) : String :=
  if key = "TIERING_HOUR" then hour else fallback

theorem nextRun_at_five :
    IsLeast {t | 0 < t ∧ AtHour 5 t} ((newSchedulerFromEnv (env "5")).nextRun 0) :=
  (nextRun_configured_iff (by decide) (by decide) (by decide) 0).mpr (by decide)

/-- With the hour 0, the first run after the epoch is at two. -/
theorem nextRun_midnight :
    ¬ IsLeast {t | 0 < t ∧ AtHour 0 t} ((newSchedulerFromEnv (env "0")).nextRun 0) :=
  fun hleast => absurd hleast.1.2 (by decide)

end BatAudit.Tiering
