import BatAudit.Anomaly.Window
import BatAudit.Lib.Double

/-!
# Detection rules

The tests of a rule on the entries of a window, at a clock reading. Rule types are free
texts in the database.
-/

namespace BatAudit.Anomaly

abbrev RuleType := String

def RuleVolumeSpike : RuleType := "volume_spike"

def RuleErrorRate : RuleType := "error_rate"

def RuleBruteForce : RuleType := "brute_force"

def RuleSilentService : RuleType := "silent_service"

def RuleMassDelete : RuleType := "mass_delete"

def RuleErrorRateByRoute : RuleType := "error_rate_by_route"

structure Event where
  ProjectID : String
  ServiceName : String
  Environment : String
  Timestamp : ℤ
  StatusCode : ℤ
  Method : String
  Path : String
  Identifier : String
deriving DecidableEq, Repr

structure AnomalyRule where
  RuleType : RuleType
  Threshold : Double
  WindowSeconds : Int64
  Active : Bool
deriving DecidableEq, Repr

/-- `time.Now().Add(-d)`. -/
def before (now : ℤ) (d : Int64) : ℤ := now + (-d).toInt

/-- `time.Duration(rule.WindowSeconds) * time.Second`, which may wrap. -/
def AnomalyRule.windowLength (rule : AnomalyRule) : Int64 := rule.WindowSeconds * Second

/-- `d.Minutes()`. -/
def minutes (d : Int64) : Double :=
  (Double.ofInt (d / Minute).toInt).add
    ((Double.ofInt (d % Minute).toInt).div (Double.ofInt Minute.toInt))

def ofCount (n : ℕ) : Double := Double.ofInt n

/-! ## Volume spikes -/

/-- How many entries are `minute` whole minutes old. A conversion that is out of range gives
no minute from 0 to 59. -/
def bucket (now : ℤ) (entries : List Entry) (minute : ℕ) : ℕ :=
  entries.countP fun e => (minutes (timeSub now e.Timestamp)).toInt (fun _ => -1) = minute

def sum (vals : List Double) : Double := vals.foldl Double.add (ofCount 0)

/-- Mean and population standard deviation. -/
def meanStddev (vals : List Double) : Double × Double :=
  if vals = [] then (ofCount 0, ofCount 0)
  else
    let mean := (sum vals).div (ofCount vals.length)
    let squares := vals.map fun v => (v.sub mean).mul (v.sub mean)
    (mean, ((sum squares).div (ofCount vals.length)).sqrt)

/-- The last minute against the 59 before it. -/
def volumeSpike (rule : AnomalyRule) (now : ℤ) (entries : List Entry) : Bool :=
  let buckets := (List.range 60).map fun minute => ofCount (bucket now entries minute)
  let current := buckets.head?.getD (ofCount 0)
  let (mean, stddev) := meanStddev buckets.tail
  !mean.lt (ofCount 1) && (mean.add (rule.Threshold.mul stddev)).lt current

/-! ## Rates and counts -/

def isError (e : Entry) : Bool := 400 ≤ e.StatusCode

/-- The percentage of errors. -/
def errorPercentage (entries : List Entry) : Double :=
  ((ofCount (entries.countP isError)).div (ofCount entries.length)).mul (ofCount 100)

def errorRate (rule : AnomalyRule) (entries : List Entry) : Bool :=
  10 ≤ entries.length && rule.Threshold.le (errorPercentage entries)

def isUnauthorized (statusCode : ℤ) : Bool := statusCode = 401 || statusCode = 403

def bruteForce (ev : Event) (rule : AnomalyRule) (entries : List Entry) : Bool :=
  rule.Threshold.le (ofCount (entries.countP fun e =>
    isUnauthorized e.StatusCode && e.Identifier = ev.Identifier))

def massDelete (rule : AnomalyRule) (entries : List Entry) : Bool :=
  rule.Threshold.le (ofCount (entries.countP fun e => e.Method = "DELETE"))

/-- The fixed rule of `checkErrorRateByRoute`: ten requests and ten per cent. -/
def routeErrorRate (entries : List Entry) : Bool :=
  10 ≤ entries.length && !(errorPercentage entries).lt (ofCount 10)

/-! ## One rule on one event -/

/-- The types of rules `evaluate` knows. It ignores others, and `checkBruteForce` and
`checkMassDelete` events that do not count. -/
def applies (ev : Event) (rule : AnomalyRule) : Bool :=
  rule.RuleType = RuleVolumeSpike || rule.RuleType = RuleErrorRate ||
    (rule.RuleType = RuleBruteForce && isUnauthorized ev.StatusCode) ||
    (rule.RuleType = RuleMassDelete && ev.Method = "DELETE")

/-- From when on a rule looks at the window. -/
def lookback (rule : AnomalyRule) (now : ℤ) : ℤ :=
  if rule.RuleType = RuleVolumeSpike then before now Hour else before now rule.windowLength

def triggered (ev : Event) (rule : AnomalyRule) (now : ℤ) (entries : List Entry) : Bool :=
  if rule.RuleType = RuleVolumeSpike then volumeSpike rule now entries
  else if rule.RuleType = RuleErrorRate then errorRate rule entries
  else if rule.RuleType = RuleBruteForce then bruteForce ev rule entries
  else if rule.RuleType = RuleMassDelete then massDelete rule entries
  else false

/-- `time.Since(last).Minutes() >= rule.Threshold`. -/
def silent (rule : AnomalyRule) (now last : ℤ) : Bool :=
  rule.Threshold.le (minutes (timeSub now last))

end BatAudit.Anomaly
