import Mathlib.Data.List.TakeWhile
import BatAudit.Anomaly.Detector
import BatAudit.Lib.Runs

/-!
# Detection for one project

Calls of `ProcessEvent` and `checkAllSilentServices` one after the other, with the readings
of the clock in each and what each alert is created with. All projects share four maps. The
keys of a project start with its id and a colon, so that what happens to its entries and its
alerts is what would happen if there were no other project.
-/

namespace BatAudit.Anomaly

open Detector (getOrCreate cooling)

/-- What the details of an alert are made of. An instant is written in UTC, to the second. -/
inductive Value
  | float (x : Double)
  | int (n : ℤ)
  | text (s : String)
  | instant (second : ℤ)
deriving DecidableEq, Repr

abbrev Details := List (String × Value)

/-- A call of `CreateAlert`. -/
structure Alert where
  projectID : String
  serviceName : String
  environment : String
  ruleType : RuleType
  details : Details
deriving DecidableEq, Repr

/-- A `Detector` between two calls, with the alerts created so far. -/
structure Tables where
  cooldownDur : Int64 := 5 * Minute
  windows : KeyedMap String Window := []
  cooldown : KeyedMap String ℤ := []
  routeWindows : KeyedMap String Window := []
  routeCooldowns : KeyedMap String ℤ := []
  alerts : List Alert := []
deriving DecidableEq, Repr

/-! ## Readings of the clock -/

/-- A gate compares one reading with the last alert and stores another. -/
structure GateClock where
  since : ℤ
  now : ℤ

/-- The readings in `ProcessEvent`, those for a rule under its index. -/
structure EventClock where
  add : ℤ
  rule : ℕ → ℤ
  fire : ℕ → GateClock
  routeAdd : ℤ
  routeSince : ℤ
  route : GateClock

/-- The readings in `checkAllSilentServices`, under the key and the index of the rule. -/
structure SilentClock where
  since : String → ℕ → ℤ
  fire : String → ℕ → GateClock

/-! ## Details -/

/-- `math.Round(x*100) / 100`. -/
def hundredths (x : Double) : Double := ((x.mul (ofCount 100)).nearest).div (ofCount 100)

def volumeSpikeDetails (rule : AnomalyRule) (now : ℤ) (entries : List Entry) : Details :=
  let buckets := (List.range 60).map fun minute => ofCount (bucket now entries minute)
  let (mean, stddev) := meanStddev buckets.tail
  [("current_rpm", .float (buckets.head?.getD (ofCount 0))),
    ("baseline_rpm", .float (hundredths mean)), ("stddev", .float (hundredths stddev)),
    ("z_threshold", .float rule.Threshold)]

def errorRateDetails (rule : AnomalyRule) (entries : List Entry) : Details :=
  [("error_rate_pct", .float (hundredths (errorPercentage entries))),
    ("threshold_pct", .float rule.Threshold), ("error_count", .int (entries.countP isError)),
    ("total_count", .int entries.length)]

def bruteForceDetails (ev : Event) (rule : AnomalyRule) (entries : List Entry) : Details :=
  let count := entries.countP fun e =>
    isUnauthorized e.StatusCode && e.Identifier = ev.Identifier
  [("identifier", .text ev.Identifier), ("fail_count", .int count),
    ("threshold", .float rule.Threshold), ("window_secs", .int rule.WindowSeconds.toInt)]

def massDeleteDetails (rule : AnomalyRule) (entries : List Entry) : Details :=
  [("delete_count", .int (entries.countP fun e => e.Method = "DELETE")),
    ("threshold", .float rule.Threshold), ("window_secs", .int rule.WindowSeconds.toInt)]

def ruleDetails (ev : Event) (rule : AnomalyRule) (now : ℤ) (entries : List Entry) : Details :=
  if rule.RuleType = RuleVolumeSpike then volumeSpikeDetails rule now entries
  else if rule.RuleType = RuleErrorRate then errorRateDetails rule entries
  else if rule.RuleType = RuleBruteForce then bruteForceDetails ev rule entries
  else massDeleteDetails rule entries

def silentDetails (rule : AnomalyRule) (now last : ℤ) : Details :=
  [("silent_minutes", .float (hundredths (minutes (timeSub now last)))),
    ("threshold_min", .float rule.Threshold), ("last_event_at", .instant (last / Second.toInt))]

def routeDetails (ev : Event) (entries : List Entry) : Details :=
  [("path", .text ev.Path), ("method", .text ev.Method),
    ("error_rate", .float (hundredths (errorPercentage entries))),
    ("error_count", .int (entries.countP isError)), ("total_requests", .int entries.length),
    ("window_seconds", .int (5 * Minute / Second).toInt)]

/-! ## The calls -/

namespace Tables

def fire (c : GateClock) (alert : Alert) (d : Tables) : Tables :=
  let ck := cooldownKey alert.projectID alert.ruleType
  if cooling c.since d.cooldownDur (d.cooldown.get? ck) then d
  else { d with cooldown := d.cooldown.set ck c.now, alerts := d.alerts ++ [alert] }

/-- `getOrCreate` and `add`. -/
def record (now : ℤ) (key : String) (e : Entry) (windows : KeyedMap String Window) :
    KeyedMap String Window :=
  let windows := getOrCreate windows key
  windows.set key (((windows.get? key).getD {}).add now e)

def evaluate (c : EventClock) (ev : Event) (rule : AnomalyRule) (i : ℕ) (d : Tables) : Tables :=
  let w := (d.windows.get? (windowKey ev.ProjectID ev.ServiceName)).getD {}
  let entries := w.since (lookback rule (c.rule i))
  if rule.Active && applies ev rule && triggered ev rule (c.rule i) entries then
    d.fire (c.fire i) ⟨ev.ProjectID, ev.ServiceName, ev.Environment, rule.RuleType,
      ruleDetails ev rule (c.rule i) entries⟩
  else d

def checkErrorRateByRoute (c : EventClock) (ev : Event) (d : Tables) : Tables :=
  let key := routeWindowKey ev.ProjectID ev.Path ev.Method
  let routeWindows := record c.routeAdd key ⟨ev.Timestamp, ev.StatusCode, ev.Method, ""⟩
    d.routeWindows
  let d := { d with routeWindows }
  let w := (routeWindows.get? key).getD {}
  let entries := w.since (before c.routeSince (5 * Minute))
  if !routeErrorRate entries then d
  else if cooling c.route.since routeCooldown (d.routeCooldowns.get? key) then d
  else
    { d with
      routeCooldowns := d.routeCooldowns.set key c.route.now
      alerts := d.alerts ++ [⟨ev.ProjectID, ev.ServiceName, ev.Environment,
        RuleErrorRateByRoute, routeDetails ev entries⟩] }

/-- `loaded` are the rules the repository returns, nothing when it fails. -/
def processEvent (c : EventClock) (loaded : Option (List AnomalyRule)) (ev : Event)
    (d : Tables) : Tables :=
  let key := windowKey ev.ProjectID ev.ServiceName
  let e : Entry := ⟨ev.Timestamp, ev.StatusCode, ev.Method, ev.Identifier⟩
  let d := { d with windows := record c.add key e d.windows }
  match loaded with
  | none => d
  | some rules =>
    let d := rules.zipIdx.foldl (fun d r => d.evaluate c ev r.1 r.2) d
    if ev.Path ≠ "" then d.checkErrorRateByRoute c ev else d

def checkSilentRule (c : SilentClock) (key : String) (last : ℤ) (rule : AnomalyRule) (i : ℕ)
    (d : Tables) : Tables :=
  if rule.Active && rule.RuleType = RuleSilentService && silent rule (c.since key i) last then
    d.fire (c.fire key i) ⟨(splitKey key).1, (splitKey key).2, "unknown", RuleSilentService,
      silentDetails rule (c.since key i) last⟩
  else d

def checkSilentService (c : SilentClock) (loaded : String → Option (List AnomalyRule))
    (key : String) (d : Tables) : Tables :=
  let last := ((d.windows.get? key).getD {}).lastEventAt
  if last = zeroTime then d
  else match loaded key with
  | none => d
  | some rules => rules.zipIdx.foldl (fun d r => d.checkSilentRule c key last r.1 r.2) d

/-- `keys` is the order in which the range visits the windows. -/
def checkAllSilentServices (c : SilentClock) (loaded : String → Option (List AnomalyRule))
    (keys : List String) (d : Tables) : Tables :=
  keys.foldl (fun d key => d.checkSilentService c loaded key) d

inductive Label
  | processEvent (c : EventClock) (loaded : Option (List AnomalyRule)) (ev : Event)
  | checkAllSilentServices (c : SilentClock) (loaded : String → Option (List AnomalyRule))
      (keys : List String)

def step (d : Tables) : Label → Option Tables
  | .processEvent c loaded ev => some (d.processEvent c loaded ev)
  | .checkAllSilentServices c loaded keys =>
    if keys.Perm d.windows.keys then some (d.checkAllSilentServices c loaded keys) else none

end Tables

/-! ## Keys -/

def ofProject (projectID key : String) : Bool := (splitKey key).1 = projectID

theorem splitKey_append {projectID : String} (h : ':' ∉ projectID.toList) (rest : String) :
    splitKey (projectID ++ ":" ++ rest) = (projectID, rest) := by
  have hbefore : ∀ c ∈ projectID.toList, decide (c ≠ ':') = true :=
    fun c hc => decide_eq_true fun heq : c = ':' => h (heq ▸ hc)
  have htake : (projectID ++ ":" ++ rest).toList.takeWhile (· ≠ ':') = projectID.toList := by
    rw [String.toList_append, String.toList_append, List.append_assoc,
      List.takeWhile_append_of_pos hbefore]
    simp
  have hdrop : (projectID ++ ":" ++ rest).toList.drop (projectID.toList.length + 1) =
      rest.toList := by
    rw [String.toList_append]
    exact List.drop_left' (by simp)
  simp only [splitKey, htake, hdrop, String.ofList_toList]

theorem colon_notMem_splitKey (key : String) : ':' ∉ (splitKey key).1.toList := by
  intro h
  rw [splitKey, String.toList_ofList] at h
  simpa using List.mem_takeWhile_imp h

theorem ofProject_append {projectID q : String} (h : ':' ∉ q.toList) (rest : String) :
    ofProject projectID (q ++ ":" ++ rest) = decide (q = projectID) := by
  rw [ofProject, splitKey_append h]

theorem routeWindowKey_eq (projectID path method : String) :
    routeWindowKey projectID path method =
      projectID ++ ":" ++ (":" ++ method ++ "::" ++ path) := by
  have hcolons : ("::" : String) = ":" ++ ":" := rfl
  simp only [routeWindowKey, hcolons, String.append_assoc]

/-! ## What a project sees -/

namespace Tables

/-- The entries and alerts of one project. -/
def only (p : String) (d : Tables) : Tables where
  cooldownDur := d.cooldownDur
  windows := d.windows.keep (ofProject p)
  cooldown := d.cooldown.keep (ofProject p)
  routeWindows := d.routeWindows.keep (ofProject p)
  routeCooldowns := d.routeCooldowns.keep (ofProject p)
  alerts := d.alerts.filter fun a => a.projectID = p

variable {p : String} {d : Tables}

theorem keep_record {key : String} (h : ofProject p key = true) (now : ℤ) (e : Entry)
    (windows : KeyedMap String Window) :
    (record now key e windows).keep (ofProject p) =
      record now key e (windows.keep (ofProject p)) := by
  have hcreate : (getOrCreate windows key).keep (ofProject p) =
      getOrCreate (windows.keep (ofProject p)) key := by
    unfold getOrCreate
    rw [KeyedMap.get?_keep h]
    split
    · rfl
    · exact KeyedMap.keep_set h
  simp only [record]
  rw [KeyedMap.keep_set h, ← hcreate, KeyedMap.get?_keep h]

theorem keep_record_of_not {key : String} (h : ofProject p key = false) (now : ℤ) (e : Entry)
    (windows : KeyedMap String Window) :
    (record now key e windows).keep (ofProject p) = windows.keep (ofProject p) := by
  simp only [record]
  rw [KeyedMap.keep_set_of_not h]
  unfold getOrCreate
  split
  · rfl
  · exact KeyedMap.keep_set_of_not h

theorem filter_append_alert {a : Alert} (ha : a.projectID = p) (alerts : List Alert) :
    (alerts ++ [a]).filter (fun a => a.projectID = p) =
      alerts.filter (fun a => a.projectID = p) ++ [a] := by
  rw [List.filter_append, List.filter_cons_of_pos (by simpa using ha), List.filter_nil]

section Fire

variable {c : GateClock} {a : Alert}

theorem only_fire (hcolon : ':' ∉ a.projectID.toList) (ha : a.projectID = p) :
    (d.fire c a).only p = (d.only p).fire c a := by
  have hkey : ofProject p (cooldownKey a.projectID a.ruleType) = true := by
    rw [cooldownKey, ofProject_append hcolon, decide_eq_true ha]
  have hlast : (d.only p).cooldown.get? (cooldownKey a.projectID a.ruleType) =
      d.cooldown.get? (cooldownKey a.projectID a.ruleType) := KeyedMap.get?_keep hkey
  have hdur : (d.only p).cooldownDur = d.cooldownDur := rfl
  simp only [fire, hlast, hdur]
  split
  · rfl
  · simp only [only, KeyedMap.keep_set hkey, filter_append_alert ha]

theorem only_fire_of_ne (hcolon : ':' ∉ a.projectID.toList) (ha : a.projectID ≠ p) :
    (d.fire c a).only p = d.only p := by
  have hkey : ofProject p (cooldownKey a.projectID a.ruleType) = false := by
    rw [cooldownKey, ofProject_append hcolon, decide_eq_false ha]
  simp only [fire]
  split
  · rfl
  · simp [only, KeyedMap.keep_set_of_not hkey, List.filter_append, ha]

end Fire

/-! ### One event -/

section Events

variable {c : EventClock} {ev : Event}

theorem only_evaluate (hcolon : ':' ∉ ev.ProjectID.toList) (hev : ev.ProjectID = p)
    (rule : AnomalyRule) (i : ℕ) :
    (d.evaluate c ev rule i).only p = (d.only p).evaluate c ev rule i := by
  have hkey : ofProject p (windowKey ev.ProjectID ev.ServiceName) = true := by
    rw [windowKey, ofProject_append hcolon, decide_eq_true hev]
  have hwindow : (d.only p).windows.get? (windowKey ev.ProjectID ev.ServiceName) =
      d.windows.get? (windowKey ev.ProjectID ev.ServiceName) := KeyedMap.get?_keep hkey
  simp only [evaluate, hwindow]
  split
  · exact only_fire hcolon hev
  · rfl

theorem only_evaluate_of_ne (hcolon : ':' ∉ ev.ProjectID.toList) (hev : ev.ProjectID ≠ p)
    (rule : AnomalyRule) (i : ℕ) : (d.evaluate c ev rule i).only p = d.only p := by
  simp only [evaluate]
  split
  · exact only_fire_of_ne hcolon hev
  · rfl

theorem only_checkErrorRateByRoute (hcolon : ':' ∉ ev.ProjectID.toList) (hev : ev.ProjectID = p) :
    (d.checkErrorRateByRoute c ev).only p = (d.only p).checkErrorRateByRoute c ev := by
  have hkey : ofProject p (routeWindowKey ev.ProjectID ev.Path ev.Method) = true := by
    rw [routeWindowKey_eq, ofProject_append hcolon, decide_eq_true hev]
  have hwindows (e : Entry) (now : ℤ) :
      record now (routeWindowKey ev.ProjectID ev.Path ev.Method) e (d.only p).routeWindows =
        (record now (routeWindowKey ev.ProjectID ev.Path ev.Method) e d.routeWindows).keep
          (ofProject p) := (keep_record hkey now e d.routeWindows).symm
  have hlast : (d.only p).routeCooldowns.get? (routeWindowKey ev.ProjectID ev.Path ev.Method) =
      d.routeCooldowns.get? (routeWindowKey ev.ProjectID ev.Path ev.Method) :=
    KeyedMap.get?_keep hkey
  simp only [checkErrorRateByRoute, hwindows, KeyedMap.get?_keep hkey, hlast]
  split
  · rfl
  · split
    · rfl
    · simp only [only, KeyedMap.keep_set hkey]
      rw [filter_append_alert (by exact hev)]

theorem only_checkErrorRateByRoute_of_ne (hcolon : ':' ∉ ev.ProjectID.toList)
    (hev : ev.ProjectID ≠ p) : (d.checkErrorRateByRoute c ev).only p = d.only p := by
  have hkey : ofProject p (routeWindowKey ev.ProjectID ev.Path ev.Method) = false := by
    rw [routeWindowKey_eq, ofProject_append hcolon, decide_eq_false hev]
  simp only [checkErrorRateByRoute]
  split
  · simp only [only, keep_record_of_not hkey]
  · split
    · simp only [only, keep_record_of_not hkey]
    · simp [only, keep_record_of_not hkey, KeyedMap.keep_set_of_not hkey, List.filter_append, hev]

end Events

/-! ### Loops -/

section Loops

variable {α : Type} {f : α → Tables → Tables}

theorem only_foldl (hf : ∀ d x, (f x d).only p = f x (d.only p)) (xs : List α) :
    (xs.foldl (fun d x => f x d) d).only p = xs.foldl (fun d x => f x d) (d.only p) := by
  induction xs generalizing d with
  | nil => rfl
  | cons x xs ih => rw [List.foldl_cons, ih, hf, List.foldl_cons]

theorem only_foldl_of_unseen (hf : ∀ d x, (f x d).only p = d.only p) (xs : List α) :
    (xs.foldl (fun d x => f x d) d).only p = d.only p := by
  induction xs generalizing d with
  | nil => rfl
  | cons x xs ih => rw [List.foldl_cons, ih, hf]

/-- A loop over what is seen and what is not. -/
theorem only_foldl_filter {P : α → Bool} (hseen : ∀ d x, P x = true → (f x d).only p = f x (d.only p))
    (hunseen : ∀ d x, P x = false → (f x d).only p = d.only p) (xs : List α) :
    (xs.foldl (fun d x => f x d) d).only p =
      (xs.filter P).foldl (fun d x => f x d) (d.only p) := by
  induction xs generalizing d with
  | nil => rfl
  | cons x xs ih =>
    cases hx : P x with
    | true => rw [List.filter_cons_of_pos hx, List.foldl_cons, ih, hseen d x hx, List.foldl_cons]
    | false => rw [List.filter_cons_of_neg (by simp [hx]), List.foldl_cons, ih, hunseen d x hx]

end Loops

/-! ### The calls -/

section Rules

variable {c : EventClock} {ev : Event}

theorem only_rules (hcolon : ':' ∉ ev.ProjectID.toList) (hev : ev.ProjectID = p)
    (rules : List (AnomalyRule × ℕ)) :
    (rules.foldl (fun d r => d.evaluate c ev r.1 r.2) d).only p =
      rules.foldl (fun d r => d.evaluate c ev r.1 r.2) (d.only p) :=
  only_foldl (f := fun (r : AnomalyRule × ℕ) d => d.evaluate c ev r.1 r.2)
    (fun _ r => only_evaluate hcolon hev r.1 r.2) rules

theorem only_rules_of_ne (hcolon : ':' ∉ ev.ProjectID.toList) (hev : ev.ProjectID ≠ p)
    (rules : List (AnomalyRule × ℕ)) :
    (rules.foldl (fun d r => d.evaluate c ev r.1 r.2) d).only p = d.only p :=
  only_foldl_of_unseen (f := fun (r : AnomalyRule × ℕ) d => d.evaluate c ev r.1 r.2)
    (fun _ r => only_evaluate_of_ne hcolon hev r.1 r.2) rules

end Rules

theorem only_processEvent {c : EventClock} {loaded : Option (List AnomalyRule)} {ev : Event}
    (hcolon : ':' ∉ ev.ProjectID.toList) (hev : ev.ProjectID = p) :
    (d.processEvent c loaded ev).only p = (d.only p).processEvent c loaded ev := by
  have hkey : ofProject p (windowKey ev.ProjectID ev.ServiceName) = true := by
    rw [windowKey, ofProject_append hcolon, decide_eq_true hev]
  have hrecord (now : ℤ) (e : Entry) :
      ({ d with windows := record now (windowKey ev.ProjectID ev.ServiceName) e d.windows } :
        Tables).only p =
      { d.only p with
        windows := record now (windowKey ev.ProjectID ev.ServiceName) e (d.only p).windows } := by
    simp only [only, keep_record hkey]
  cases loaded with
  | none => exact hrecord _ _
  | some rules =>
    simp only [processEvent]
    split
    · rw [only_checkErrorRateByRoute hcolon hev, only_rules hcolon hev, hrecord]
    · rw [only_rules hcolon hev, hrecord]

theorem only_processEvent_of_ne {c : EventClock} {loaded : Option (List AnomalyRule)} {ev : Event}
    (hcolon : ':' ∉ ev.ProjectID.toList) (hev : ev.ProjectID ≠ p) :
    (d.processEvent c loaded ev).only p = d.only p := by
  have hkey : ofProject p (windowKey ev.ProjectID ev.ServiceName) = false := by
    rw [windowKey, ofProject_append hcolon, decide_eq_false hev]
  have hrecord (now : ℤ) (e : Entry) :
      ({ d with windows := record now (windowKey ev.ProjectID ev.ServiceName) e d.windows } :
        Tables).only p = d.only p := by
    simp only [only, keep_record_of_not hkey]
  cases loaded with
  | none => exact hrecord _ _
  | some rules =>
    simp only [processEvent]
    split
    · rw [only_checkErrorRateByRoute_of_ne hcolon hev, only_rules_of_ne hcolon hev, hrecord]
    · rw [only_rules_of_ne hcolon hev, hrecord]

theorem only_checkSilentService {c : SilentClock} {loaded : String → Option (List AnomalyRule)}
    {key : String} (hkey : ofProject p key = true) :
    (d.checkSilentService c loaded key).only p = (d.only p).checkSilentService c loaded key := by
  have hwindow : (d.only p).windows.get? key = d.windows.get? key := KeyedMap.get?_keep hkey
  simp only [checkSilentService, hwindow]
  split
  · rfl
  · split
    · rfl
    · refine only_foldl (f := fun (r : AnomalyRule × ℕ) d => d.checkSilentRule c key _ r.1 r.2)
        (fun d r => ?_) _
      simp only [checkSilentRule]
      split
      · exact only_fire (colon_notMem_splitKey key) (of_decide_eq_true hkey)
      · rfl

theorem only_checkSilentService_of_not {c : SilentClock}
    {loaded : String → Option (List AnomalyRule)} {key : String} (hkey : ofProject p key = false) :
    (d.checkSilentService c loaded key).only p = d.only p := by
  simp only [checkSilentService]
  split
  · rfl
  · split
    · rfl
    · refine only_foldl_of_unseen
        (f := fun (r : AnomalyRule × ℕ) d => d.checkSilentRule c key _ r.1 r.2) (fun d r => ?_) _
      simp only [checkSilentRule]
      split
      · exact only_fire_of_ne (colon_notMem_splitKey key) (of_decide_eq_false hkey)
      · rfl

theorem only_checkAllSilentServices {c : SilentClock}
    {loaded : String → Option (List AnomalyRule)} {keys : List String} :
    (d.checkAllSilentServices c loaded keys).only p =
      (d.only p).checkAllSilentServices c loaded (keys.filter (ofProject p)) :=
  only_foldl_filter (f := fun key d => d.checkSilentService c loaded key)
    (fun _ _ h => only_checkSilentService h) (fun _ _ h => only_checkSilentService_of_not h) keys

/-! ## Runs -/

/-- What is left of a call when the events of the other projects are removed: a check
visits the windows that are left in the same order. -/
def Label.only (p : String) : Label → Option Label
  | .processEvent c loaded ev =>
    if ev.ProjectID = p then some (.processEvent c loaded ev) else none
  | .checkAllSilentServices c loaded keys =>
    some (.checkAllSilentServices c loaded (keys.filter (ofProject p)))

/-- Project ids have no colon. -/
def Label.Plain : Label → Prop
  | .processEvent _ _ ev => ':' ∉ ev.ProjectID.toList
  | .checkAllSilentServices _ _ _ => True

def alertsOf (p : String) (d : Tables) : List Alert := d.alerts.filter fun a => a.projectID = p

theorem only_step {a : Label} (ha : a.Plain) {d d' : Tables} (hstep : step d a = some d') :
    (a.only p = none → d'.only p = d.only p) ∧
      ∀ b, a.only p = some b → step (d.only p) b = some (d'.only p) := by
  cases a with
  | processEvent c loaded ev =>
    cases hstep
    by_cases hev : ev.ProjectID = p
    · simp only [Label.only, if_pos hev]
      refine ⟨fun hnone => absurd hnone (Option.some_ne_none _), fun b hb => ?_⟩
      cases hb
      exact congrArg some (only_processEvent ha hev).symm
    · simp only [Label.only, if_neg hev]
      refine ⟨fun _ => only_processEvent_of_ne ha hev, fun b hb => ?_⟩
      cases hb
  | checkAllSilentServices c loaded keys =>
    simp only [step] at hstep
    split at hstep
    · rename_i hperm
      cases hstep
      refine ⟨fun hnone => absurd hnone (Option.some_ne_none _), fun b hb => ?_⟩
      cases hb
      have hkeys : (keys.filter (ofProject p)).Perm (d.only p).windows.keys := by
        have := hperm.filter (ofProject p)
        rwa [← KeyedMap.keys_keep] at this
      simp only [step, if_pos hkeys, only_checkAllSilentServices]
    · cases hstep

/-- Removing the events of the other projects leaves the alerts of a project as they were. -/
theorem detection_isolated (p : String) {as : List Label} (has : ∀ a ∈ as, a.Plain) {d : Tables}
    (hrun : Runs.run step {} as = some d) :
    ∃ d', Runs.run step {} (as.filterMap (Label.only p)) = some d' ∧
      alertsOf p d' = alertsOf p d := by
  have hseen : Runs.run step (only p {}) (as.filterMap (Label.only p)) = some (d.only p) :=
    Runs.run_filterMap (fun a ha _ _ hstep => only_step (has a ha) hstep) hrun
  refine ⟨d.only p, hseen, ?_⟩
  exact List.filter_filter.trans (List.filter_congr fun a _ => Bool.and_self _)

/-! ## A run with two projects -/

def someClock : EventClock := ⟨0, fun _ => 0, fun _ => ⟨0, 0⟩, 0, 0, ⟨0, 0⟩⟩

def refused (projectID serviceName : String) : Event :=
  ⟨projectID, serviceName, "prod", 0, 401, "GET", "", "eve"⟩

def oneIsEnough : List AnomalyRule := [⟨RuleBruteForce, ofCount 1, 300, true⟩]

/-- Two events of the project `p` with one of `p2` before each. -/
def mixed : List Label :=
  [.processEvent someClock (some oneIsEnough) (refused "p2" "api"),
    .processEvent someClock (some oneIsEnough) (refused "p" "api"),
    .processEvent someClock (some oneIsEnough) (refused "p2" "web"),
    .processEvent someClock (some oneIsEnough) (refused "p" "web")]

/-- The second one of `p` falls into the cooldown after the first. -/
theorem mixed_isolated :
    ∃ d d', Runs.run step {} mixed = some d ∧
      Runs.run step {} (mixed.filterMap (Label.only "p")) = some d' ∧
      alertsOf "p" d' = alertsOf "p" d ∧ (alertsOf "p" d).map Alert.serviceName = ["api"] := by
  have hplain : ∀ a ∈ mixed, a.Plain := by
    simp [mixed, Label.Plain, refused]
  obtain ⟨d', hrun, halerts⟩ := detection_isolated "p" hplain rfl
  exact ⟨_, d', rfl, hrun, halerts, rfl⟩

end Tables

end BatAudit.Anomaly
