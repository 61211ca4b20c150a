import Mathlib.Algebra.Group.Int.Defs
import Mathlib.Data.List.Basic

/-!
# Sliding windows

What the detector remembers of the events of a service or a route. Instants are
nanoseconds since the epoch, durations are `int64` nanoseconds.
-/

namespace BatAudit.Anomaly

def Second : Int64 := 1000000000

def Minute : Int64 := 60 * Second

def Hour : Int64 := 60 * Minute

/-- The zero `time.Time`, the first of January of the year 1. -/
def zeroTime : ℤ := -62135596800000000000

/-- `t.Sub(u)`, which stops at the largest and the least duration. -/
def timeSub (t u : ℤ) : Int64 :=
  if 2 ^ 63 ≤ t - u then Int64.maxValue
  else if t - u < -2 ^ 63 then Int64.minValue
  else Int64.ofInt (t - u)

structure Entry where
  Timestamp : ℤ
  StatusCode : ℤ
  Method : String
  Identifier : String
deriving DecidableEq, Repr

structure Window where
  entries : List Entry := []
  lastEventAt : ℤ := zeroTime
deriving DecidableEq, Repr

namespace Window

/-- The loop that trims entries stops at the first one that is not old. -/
def add (now : ℤ) (e : Entry) (w : Window) : Window where
  entries := (w.entries ++ [e]).dropWhile fun x => x.Timestamp < now - Hour.toInt
  lastEventAt := e.Timestamp

def since (t : ℤ) (w : Window) : List Entry := w.entries.filter fun e => t ≤ e.Timestamp

end Window

end BatAudit.Anomaly
