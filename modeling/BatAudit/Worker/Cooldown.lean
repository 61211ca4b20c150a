import BatAudit.Anomaly.Window
import BatAudit.Lib.Json.Numbers
import BatAudit.Worker.Pool
import Mathlib.Data.List.Chain

/-!
# The cooldown of the worker pool

`monitorQueueWithAutoscaling` looks at the queue, and scales when the cooldown is over or
the queue exceeds five times the threshold. That product is an `int64`, and whoever runs the
worker sets the threshold. Instants are readings of the monotonic clock in nanoseconds.
-/

namespace BatAudit.Worker

open Anomaly (timeSub Second)

structure MonitorConfig extends Config where
  MaxRetries : ℤ
  PollDuration : Int64
  EnableAutoscaling : Bool
  CooldownPeriod : Int64
  RedisAddress : String
  QueueName : String

/-- The rest of `DefaultConfig`. -/
def DefaultMonitorConfig : MonitorConfig where
  toConfig := DefaultConfig
  MaxRetries := 3
  PollDuration := Second
  EnableAutoscaling := true
  CooldownPeriod := 15 * Second
  RedisAddress := "localhost:6379"
  QueueName := "bataudit:events"

/-! ## ConfigureFromEnv -/

/-- `strconv.ParseInt(val, 10, 64)`. -/
def parseInt (val : String) : Option ℤ :=
  match val.toList with
  | '+' :: digits => if digits.head? = some '-' then none else Json.parseInt64 digits
  | digits => Json.parseInt64 digits

/-- The parsers of floats and durations, of which no more is used than their type. -/
structure Parsers where
  ParseFloat : String → Option Double
  ParseDuration : String → Option Int64

/-- The second variable counts only when the first is not set, whatever the first says. -/
def override {α : Type*} (getenv : String → String) (name fallback : String)
    (parse : String → Option α) (accept : α → Bool) (old : α) : α :=
  if getenv name ≠ "" then ((parse (getenv name)).filter accept).getD old
  else if getenv fallback ≠ "" then ((parse (getenv fallback)).filter accept).getD old
  else old

def parseSwitch (val : String) : Option Bool :=
  if val ∈ ["true", "1", "yes", "y", "on"] then some true
  else if val ∈ ["false", "0", "no", "n", "off"] then some false
  else none

def configureFromEnv (parsers : Parsers) (getenv : String → String) (cfg : MonitorConfig) :
    MonitorConfig :=
  let count := fun name fallback old => override getenv name fallback parseInt (0 < ·) old
  let threshold := fun name fallback old =>
    override getenv name fallback (fun val => (parseInt val).map Int64.ofInt) (0 < ·) old
  let duration := fun name fallback old =>
    override getenv name fallback parsers.ParseDuration (0 < ·) old
  { InitialWorkerCount :=
      count "WORKER_INITIAL_COUNT" "BATAUDIT_INITIAL_WORKER_COUNT" cfg.InitialWorkerCount
    MinWorkerCount := count "WORKER_MIN_COUNT" "BATAUDIT_MIN_WORKER_COUNT" cfg.MinWorkerCount
    MaxWorkerCount := count "WORKER_MAX_COUNT" "BATAUDIT_MAX_WORKER_COUNT" cfg.MaxWorkerCount
    MaxRetries := count "WORKER_MAX_RETRIES" "BATAUDIT_MAX_RETRIES" cfg.MaxRetries
    PollDuration := duration "WORKER_POLL_DURATION" "BATAUDIT_POLL_DURATION" cfg.PollDuration
    EnableAutoscaling :=
      override getenv "ENABLE_AUTOSCALING" "BATAUDIT_ENABLE_AUTOSCALING" parseSwitch
        (fun _ => true) cfg.EnableAutoscaling
    ScaleUpThreshold :=
      threshold "SCALE_UP_THRESHOLD" "BATAUDIT_SCALE_UP_THRESHOLD" cfg.ScaleUpThreshold
    ScaleDownThreshold :=
      threshold "SCALE_DOWN_THRESHOLD" "BATAUDIT_SCALE_DOWN_THRESHOLD" cfg.ScaleDownThreshold
    WorkerScaleFactor :=
      override getenv "WORKER_SCALE_FACTOR" "BATAUDIT_WORKER_SCALE_FACTOR" parsers.ParseFloat
        (fun factor => (Double.ofInt 0).lt factor) cfg.WorkerScaleFactor
    CooldownPeriod := duration "COOLDOWN_PERIOD" "BATAUDIT_COOLDOWN_PERIOD" cfg.CooldownPeriod
    RedisAddress :=
      override getenv "REDIS_ADDRESS" "BATAUDIT_REDIS_ADDRESS" some (fun _ => true)
        cfg.RedisAddress
    QueueName :=
      override getenv "QUEUE_NAME" "BATAUDIT_QUEUE_NAME" some (fun _ => true) cfg.QueueName }

theorem override_accepted {α : Type*} {getenv : String → String} {name fallback : String}
    {parse : String → Option α} {accept : α → Bool} {old : α} (h : accept old = true) :
    accept (override getenv name fallback parse accept old) = true := by
  have hparsed : ∀ val, accept (((parse val).filter accept).getD old) = true := by
    intro val
    cases hval : (parse val).filter accept with
    | none => exact h
    | some a => exact (Option.filter_eq_some_iff.mp hval).2
  unfold override
  split_ifs
  · exact hparsed _
  · exact hparsed _
  · exact h

/-! ## The monitor -/

/-- A change of the number of workers, and the queue length that made the monitor change it. -/
structure Change where
  time : ℤ
  before : ℤ
  after : ℤ
  queueLen : Option Int64
deriving DecidableEq, Repr

/-- `clock` is the last reading of the clock, and `changes` what happened, the last first. -/
structure Monitor where
  pool : Service
  lastScaleTime : ℤ
  clock : ℤ
  changes : List Change := []

namespace Monitor

/-- `scaleUp` and `scaleDown` store the time exactly when they change the count. -/
def rescaled (m : Monitor) (queueLen : Option Int64) (done : ℤ) (pool : Service) : Monitor :=
  if pool.activeWorkers = m.pool.activeWorkers then { m with pool, clock := done }
  else
    { pool, lastScaleTime := done, clock := done,
      changes := ⟨done, m.pool.activeWorkers, pool.activeWorkers, queueLen⟩ :: m.changes }

/-- `NewService` and `Start`. -/
def start (cfg : MonitorConfig) (range : Range ℤ) (created started : ℤ) : Except Fault Monitor := do
  let pool ← Service.scaleWorkers cfg.toConfig range cfg.InitialWorkerCount {}
  return rescaled { pool := {}, lastScaleTime := created, clock := created } none started pool

variable (beyond : Double → ℤ)

def evaluate (cfg : MonitorConfig) (range : Range ℤ) (queueLen : Int64) (done : ℤ) (m : Monitor) :
    Except Fault Monitor := do
  let pool ← Service.evaluateScaling beyond cfg.toConfig range queueLen m.pool
  return m.rescaled (some queueLen) done pool

/-- What the loop does at a tick. The queue length is an error of Redis, or a number; `now` is
what `time.Since` reads, and `done` what is stored after a change. -/
def tick (cfg : MonitorConfig) (range : Range ℤ) (queueLen : Option Int64) (now done : ℤ)
    (m : Monitor) : Except Fault Monitor :=
  match queueLen with
  | none => .ok m
  | some queueLen =>
    if cfg.EnableAutoscaling then
      if cfg.CooldownPeriod < timeSub now m.lastScaleTime then
        m.evaluate beyond cfg range queueLen done
      else if cfg.ScaleUpThreshold * 5 < queueLen ∧
          m.pool.activeWorkers < cfg.MaxWorkerCount then
        m.evaluate beyond cfg range queueLen done
      else .ok m
    else .ok m

inductive Label
  | tick (range : Range ℤ) (queueLen : Option Int64) (now done : ℤ)
  | exit (i : ℕ)

def step (cfg : MonitorConfig) (m : Monitor) : Label → Option Monitor
  | .tick range queueLen now done =>
    if m.clock ≤ now ∧ now ≤ done then (m.tick beyond cfg range queueLen now done).toOption
    else none
  | .exit i => (m.pool.exit i).map fun pool => { m with pool }

end Monitor

/-! ## The cooldown -/

/-- Less than the cooldown after another change, a change goes up to the maximum, and the
queue is longer than five times the threshold. -/
def Change.Respects (cfg : MonitorConfig) (next prev : Change) : Prop :=
  next.time - prev.time < cfg.CooldownPeriod.toInt →
    next.before < next.after ∧ next.after = cfg.MaxWorkerCount ∧
      ∃ queueLen, next.queueLen = some queueLen ∧
        5 * cfg.ScaleUpThreshold.toInt < queueLen.toInt

def RespectsCooldown (cfg : MonitorConfig) (m : Monitor) : Prop :=
  m.changes.IsChain (Change.Respects cfg)

theorem lt_sub_of_timeSub {dur : Int64} {now last : ℤ} (h : dur < timeSub now last) :
    dur.toInt < now - last := by
  have hmin := dur.le_toInt
  have hmax := dur.toInt_lt
  rw [Int64.lt_iff_toInt_lt, timeSub] at h
  split_ifs at h with hbig hsmall
  · omega
  · have hle : dur.toInt < -2 ^ 63 := h
    omega
  · rwa [Int64.toInt_ofInt_of_le (by omega) (by omega)] at h

theorem toInt_mul_five {n : Int64} (hpos : 0 < n.toInt) (hprod : 5 * n.toInt < 2 ^ 63) :
    (n * 5).toInt = 5 * n.toInt := by
  have hfive : (5 : Int64).toInt = 5 := by decide
  rw [Int64.toInt_mul, hfive, Int.bmod_eq_of_le (by omega) (by omega)]
  omega

theorem activeWorkers_launch (k : ℕ) (n : ℤ) (s : Service) :
    (Service.launch k n s).activeWorkers = s.activeWorkers + k := by
  induction k generalizing n s with
  | zero => simp [Service.launch]
  | succ k ih =>
    rw [Service.launch, ih]
    simp only [Service.startWorker, Service.makeChan, Service.go]
    push_cast
    omega

theorem clamp_max (cfg : Config) : Service.clamp cfg cfg.MaxWorkerCount = cfg.MaxWorkerCount := by
  simp only [Service.clamp]
  split_ifs <;> omega

namespace Monitor

variable {beyond : Double → ℤ} {cfg : MonitorConfig} {range : Range ℤ} {m n : Monitor}

/-- Beyond five times the threshold there is nothing between the current count and the
maximum, unless the product has wrapped. -/
theorem activeWorkers_emergency {pool pool' : Service} {queueLen : Int64}
    (hpos : 0 < cfg.ScaleUpThreshold.toInt) (hprod : 5 * cfg.ScaleUpThreshold.toInt < 2 ^ 63)
    (hqueue : cfg.ScaleUpThreshold * 5 < queueLen)
    (hactive : pool.activeWorkers < cfg.MaxWorkerCount)
    (h : Service.evaluateScaling beyond cfg.toConfig range queueLen pool = .ok pool') :
    pool'.activeWorkers = cfg.MaxWorkerCount ∧
      5 * cfg.ScaleUpThreshold.toInt < queueLen.toInt := by
  have hlong : 5 * cfg.ScaleUpThreshold.toInt < queueLen.toInt := by
    rwa [Int64.lt_iff_toInt_lt, toInt_mul_five hpos hprod] at hqueue
  have hover : cfg.ScaleUpThreshold < queueLen := by
    rw [Int64.lt_iff_toInt_lt]
    omega
  have hneeded : Service.scaledUp beyond cfg.toConfig queueLen pool.activeWorkers =
      cfg.MaxWorkerCount := by
    simp only [Service.scaledUp, if_pos hqueue, lt_irrefl, if_false, if_neg (not_le.mpr hactive)]
  simp only [Service.evaluateScaling, if_pos (And.intro hover hactive), hneeded,
    Service.scaleWorkers, clamp_max, if_neg hactive.ne', if_pos hactive] at h
  cases h
  refine ⟨?_, hlong⟩
  rw [Service.scaleUp, activeWorkers_launch]
  omega

/-- The last change is the one whose time is stored. -/
structure Inv (cfg : MonitorConfig) (m : Monitor) : Prop where
  respects : RespectsCooldown cfg m
  last : ∀ c ∈ m.changes.head?, c.time = m.lastScaleTime

theorem inv_rescaled {queueLen : Option Int64} {done : ℤ} {pool : Service} (h : Inv cfg m)
    (hrespects : pool.activeWorkers ≠ m.pool.activeWorkers →
      ∀ prev ∈ m.changes.head?,
        (Change.mk done m.pool.activeWorkers pool.activeWorkers queueLen).Respects cfg prev) :
    Inv cfg (m.rescaled queueLen done pool) := by
  unfold rescaled
  split_ifs with hsame
  · exact ⟨h.respects, h.last⟩
  · refine ⟨?_, fun c hc => by cases hc; rfl⟩
    exact List.isChain_cons.mpr ⟨hrespects hsame, h.respects⟩

theorem inv_start {created started : ℤ} (h : start cfg range created started = .ok m) :
    Inv cfg m := by
  unfold start at h
  cases hpool : Service.scaleWorkers cfg.toConfig range cfg.InitialWorkerCount {} with
  | error e =>
    rw [hpool] at h
    cases h
  | ok pool =>
    rw [hpool] at h
    cases h
    exact inv_rescaled ⟨List.isChain_nil, nofun⟩ fun _ => nofun

theorem inv_tick {queueLen : Option Int64} {now done : ℤ} (h : Inv cfg m)
    (hpos : 0 < cfg.ScaleUpThreshold.toInt) (hprod : 5 * cfg.ScaleUpThreshold.toInt < 2 ^ 63)
    (hle : now ≤ done) (ht : m.tick beyond cfg range queueLen now done = .ok n) :
    Inv cfg n := by
  have hevaluate : ∀ {q : Int64} {t : Monitor}, m.evaluate beyond cfg range q done = .ok t →
      ∃ pool, Service.evaluateScaling beyond cfg.toConfig range q m.pool = .ok pool ∧
        t = m.rescaled (some q) done pool := by
    intro q t ht
    unfold evaluate at ht
    cases hpool : Service.evaluateScaling beyond cfg.toConfig range q m.pool with
    | error e =>
      rw [hpool] at ht
      cases ht
    | ok pool =>
      rw [hpool] at ht
      cases ht
      exact ⟨pool, rfl, rfl⟩
  cases queueLen with
  | none =>
    cases ht
    exact h
  | some q =>
    simp only [tick] at ht
    split_ifs at ht with hauto hover hemergency
    · obtain ⟨pool, -, rfl⟩ := hevaluate ht
      refine inv_rescaled h fun _ prev hprev hsoon => ?_
      have hlast := h.last prev hprev
      have hlong := lt_sub_of_timeSub hover
      dsimp only at hsoon
      omega
    · obtain ⟨pool, hpool, rfl⟩ := hevaluate ht
      obtain ⟨hmax, hlong⟩ := activeWorkers_emergency hpos hprod hemergency.1 hemergency.2 hpool
      refine inv_rescaled h fun _ prev hprev _ => ⟨?_, hmax, q, rfl, hlong⟩
      dsimp only
      rw [hmax]
      exact hemergency.2
    · cases ht
      exact h
    · cases ht
      exact h

theorem inv_step {a : Label} (h : Inv cfg m) (hpos : 0 < cfg.ScaleUpThreshold.toInt)
    (hprod : 5 * cfg.ScaleUpThreshold.toInt < 2 ^ 63) (ht : step beyond cfg m a = some n) :
    Inv cfg n := by
  cases a with
  | tick range queueLen now done =>
    simp only [step] at ht
    split_ifs at ht with hclock
    cases hn : m.tick beyond cfg range queueLen now done with
    | error e =>
      rw [hn] at ht
      cases ht
    | ok t =>
      rw [hn] at ht
      cases ht
      exact inv_tick h hpos hprod hclock.2 hn
  | exit i =>
    obtain ⟨pool, -, rfl⟩ := Option.map_eq_some_iff.mp ht
    exact ⟨h.respects, h.last⟩

end Monitor

theorem threshold_pos (parsers : Parsers) (getenv : String → String) :
    0 < (configureFromEnv parsers getenv DefaultMonitorConfig).ScaleUpThreshold.toInt := by
  have hdefault : decide (0 < DefaultMonitorConfig.ScaleUpThreshold) = true := by decide
  have haccepted : decide (0 < (configureFromEnv parsers getenv
      DefaultMonitorConfig).ScaleUpThreshold) = true :=
    @override_accepted Int64 _ _ _ _ (fun n => decide (0 < n)) _ hdefault
  have hpos := of_decide_eq_true haccepted
  rwa [Int64.lt_iff_toInt_lt] at hpos

/-- Whatever the environment, the queue and the clock: while five times the threshold is an
`int64`, the count changes within the cooldown only in an emergency. -/
theorem cooldown_respected {beyond : Double → ℤ} {parsers : Parsers} {getenv : String → String}
    {cfg : MonitorConfig} (hcfg : cfg = configureFromEnv parsers getenv DefaultMonitorConfig)
    (hprod : 5 * cfg.ScaleUpThreshold.toInt < 2 ^ 63) {range : Range ℤ} {created started : ℤ}
    {m₀ m : Monitor} (hstart : Monitor.start cfg range created started = .ok m₀)
    {as : List Monitor.Label} (hrun : Runs.run (Monitor.step beyond cfg) m₀ as = some m) :
    RespectsCooldown cfg m := by
  have hpos : 0 < cfg.ScaleUpThreshold.toInt := by
    rw [hcfg]
    exact threshold_pos parsers getenv
  exact (Runs.run_invariant (fun _ _ _ h => Monitor.inv_step h hpos hprod)
    (Monitor.inv_start hstart) hrun).respects

/-! Four workers under the default configuration, and a deployment that never wants to scale
up. -/

def parsers : Parsers := ⟨fun _ => none, fun _ => none⟩

def getenv (name : String) : String := if name = "WORKER_INITIAL_COUNT" then "4" else ""

def getenvReluctant (name : String) : String :=
  if name = "SCALE_UP_THRESHOLD" then "2305843009213693952" else getenv name

/-- Four workers for a queue of a hundred, within a second of the start. -/
theorem emergency_within_cooldown :
    ∃ m₀ m, Monitor.start (configureFromEnv parsers getenv DefaultMonitorConfig) Range.inOrder 0 0 =
        .ok m₀ ∧
      Runs.run (Monitor.step (fun _ => 0) (configureFromEnv parsers getenv DefaultMonitorConfig)) m₀
        [.tick Range.inOrder (some 100) 1000000000 1000000000] = some m ∧
      m.pool.activeWorkers = 10 ∧
      RespectsCooldown (configureFromEnv parsers getenv DefaultMonitorConfig) m := by
  have hrun : (match Monitor.start (configureFromEnv parsers getenv DefaultMonitorConfig)
      Range.inOrder 0 0 with
      | .ok m₀ => (Runs.run (Monitor.step (fun _ => 0)
          (configureFromEnv parsers getenv DefaultMonitorConfig)) m₀
          [.tick Range.inOrder (some 100) 1000000000 1000000000]).any fun m =>
            decide (m.pool.activeWorkers = 10)
      | .error _ => false) = true :=
    rfl
  split at hrun
  · rename_i m₀ hstart
    obtain ⟨m, hm, hcount⟩ := (Option.any_eq_true _ _).mp hrun
    exact ⟨m₀, m, hstart, hm, of_decide_eq_true hcount,
      cooldown_respected rfl (by decide +kernel) hstart hm⟩
  · cases hrun

/-- Five times this threshold is negative, so an empty queue is an emergency, and ends in
scaling down a second after the start. -/
theorem scaled_down_within_cooldown :
    ¬ ∀ (beyond : Double → ℤ) (parsers : Parsers) (getenv : String → String) (range : Range ℤ)
      (created started : ℤ) (m₀ m : Monitor) (as : List Monitor.Label),
      Monitor.start (configureFromEnv parsers getenv DefaultMonitorConfig) range created started =
          .ok m₀ →
        Runs.run (Monitor.step beyond (configureFromEnv parsers getenv DefaultMonitorConfig)) m₀ as =
            some m →
          RespectsCooldown (configureFromEnv parsers getenv DefaultMonitorConfig) m := by
  intro hclaim
  have hrun : (match Monitor.start (configureFromEnv parsers getenvReluctant DefaultMonitorConfig)
      Range.inOrder 0 0 with
      | .ok m₀ => (Runs.run (Monitor.step (fun _ => 0)
          (configureFromEnv parsers getenvReluctant DefaultMonitorConfig)) m₀
          [.tick Range.inOrder (some 0) 1000000000 1000000000]).any fun m =>
            decide (m.changes = [⟨1000000000, 4, 2, some 0⟩, ⟨0, 0, 4, none⟩])
      | .error _ => false) = true :=
    rfl
  split at hrun
  · rename_i m₀ hstart
    obtain ⟨m, hm, hchanges⟩ := (Option.any_eq_true _ _).mp hrun
    have hrespects := hclaim _ parsers getenvReluctant _ _ _ m₀ m _ hstart hm
    rw [RespectsCooldown, of_decide_eq_true hchanges, List.isChain_pair] at hrespects
    have hup := (hrespects (by decide +kernel)).1
    revert hup
    decide
  · cases hrun

end BatAudit.Worker
