import BatAudit.Anomaly.Rules
import BatAudit.Lib.KeyedMap

/-!
# The detector

Workers call `ProcessEvent` while the silent-service loop visits the windows, all on one
`Detector`. A step of a goroutine ends where another may come between: after it releases a
mutex, reads the clock or loads the rules. Both gates read the clock twice with the mutex
`mu` held, so that the holder is part of the state between the two. A window is reached by
its key, which no step takes from the map.
-/

namespace BatAudit.Anomaly

def windowKey (projectID serviceName : String) : String := projectID ++ ":" ++ serviceName

def cooldownKey (projectID : String) (rt : RuleType) : String := projectID ++ ":" ++ rt

def routeWindowKey (projectID path method : String) : String :=
  projectID ++ "::" ++ method ++ "::" ++ path

/-- The project before the first colon of a window key, and the service after it. -/
def splitKey (key : String) : String × String :=
  let projectID := key.toList.takeWhile (· ≠ ':')
  (String.ofList projectID, String.ofList (key.toList.drop (projectID.length + 1)))

def routeCooldown : Int64 := 10 * Minute

/-- Where a goroutine goes on after `fire`. -/
inductive Resume
  | event (ev : Event) (rules : List AnomalyRule)
  | silent (projectID serviceName : String) (last : ℤ) (rules : List AnomalyRule)
      (keys : List String)

/-- What a goroutine does next. -/
inductive Thread
  | getOrCreate (ev : Event)
  | add (ev : Event)
  | listRules (ev : Event)
  | rules (ev : Event) (rules : List AnomalyRule)
  | evaluate (ev : Event) (rule : AnomalyRule) (rules : List AnomalyRule)
  | window (ev : Event) (rule : AnomalyRule) (now : ℤ) (rules : List AnomalyRule)
  | fire (projectID : String) (rt : RuleType) (next : Resume)
  | fireStamp (projectID : String) (rt : RuleType) (checkedAt : ℤ) (next : Resume)
  | routeWindow (ev : Event)
  | routeAdd (ev : Event)
  | routeClock (ev : Event)
  | routeSince (ev : Event) (now : ℤ)
  | routeGate (ev : Event)
  | routeStamp (ev : Event) (checkedAt : ℤ)
  | silentKeys
  | silentNext (keys : List String)
  | silentLast (key : String) (keys : List String)
  | silentRules (key : String) (last : ℤ) (keys : List String)
  | silentRule (projectID serviceName : String) (last : ℤ) (rules : List AnomalyRule)
      (keys : List String)
  | done

def Resume.thread : Resume → Thread
  | .event ev rules => .rules ev rules
  | .silent projectID serviceName last rules keys =>
    .silentRule projectID serviceName last rules keys

inductive Gate
  | alert (projectID : String) (rt : RuleType)
  | route (projectID method path : String)
deriving DecidableEq, Repr

/-- A call that went through a gate: when it compared the clock with the last alert, and
when it stored the time of its own. -/
structure Pass where
  gate : Gate
  checkedAt : ℤ
  storedAt : ℤ
deriving DecidableEq, Repr

/-- `mu` is the goroutine that holds the mutex. -/
structure Detector where
  now : ℤ
  cooldownDur : Int64 := 5 * Minute
  mu : Option ℕ := none
  windows : KeyedMap String Window := []
  cooldown : KeyedMap String ℤ := []
  routeWindows : KeyedMap String Window := []
  routeCooldowns : KeyedMap String ℤ := []
  threads : List Thread := []
  passes : List Pass := []

namespace Detector

def window (d : Detector) (ev : Event) : Window :=
  (d.windows.get? (windowKey ev.ProjectID ev.ServiceName)).getD {}

def routeWindow (d : Detector) (ev : Event) : Window :=
  (d.routeWindows.get? (routeWindowKey ev.ProjectID ev.Path ev.Method)).getD {}

/-- A missing window is created, a present one kept. -/
def getOrCreate (windows : KeyedMap String Window) (key : String) : KeyedMap String Window :=
  if (windows.get? key).isSome then windows else windows.set key {}

/-- `ok && time.Since(last) < dur`. -/
def cooling (now : ℤ) (dur : Int64) (last : Option ℤ) : Bool :=
  last.any fun t => timeSub now t < dur

/-- The next step of the goroutine numbered `i`. `loaded` are the rules the repository
returns, nothing when it fails. -/
def advance (d : Detector) (i : ℕ) (loaded : Option (List AnomalyRule)) (range : Range String) :
    Thread → Option (Thread × Detector)
  | .getOrCreate ev =>
    if d.mu = none then
      let key := windowKey ev.ProjectID ev.ServiceName
      some (.add ev, { d with windows := getOrCreate d.windows key })
    else none
  | .add ev =>
    let e : Entry := ⟨ev.Timestamp, ev.StatusCode, ev.Method, ev.Identifier⟩
    let key := windowKey ev.ProjectID ev.ServiceName
    some (.listRules ev, { d with windows := d.windows.set key ((d.window ev).add d.now e) })
  | .listRules ev =>
    match loaded with
    | none => some (.done, d)
    | some rules => some (.rules ev rules, d)
  | .rules ev [] => some (if ev.Path ≠ "" then .routeWindow ev else .done, d)
  | .rules ev (rule :: rules) =>
    some (if rule.Active && applies ev rule then .evaluate ev rule rules else .rules ev rules, d)
  | .evaluate ev rule rules => some (.window ev rule d.now rules, d)
  | .window ev rule now rules =>
    let entries := (d.window ev).since (lookback rule now)
    some (if triggered ev rule now entries then
        .fire ev.ProjectID rule.RuleType (.event ev rules) else .rules ev rules, d)
  | .fire projectID rt next =>
    if d.mu = none then
      if cooling d.now d.cooldownDur (d.cooldown.get? (cooldownKey projectID rt)) then
        some (next.thread, d)
      else some (.fireStamp projectID rt d.now next, { d with mu := some i })
    else none
  | .fireStamp projectID rt checkedAt next =>
    if d.mu = some i then
      some (next.thread, { d with
        mu := none
        cooldown := d.cooldown.set (cooldownKey projectID rt) d.now
        passes := d.passes ++ [⟨.alert projectID rt, checkedAt, d.now⟩] })
    else none
  | .routeWindow ev =>
    if d.mu = none then
      let key := routeWindowKey ev.ProjectID ev.Path ev.Method
      some (.routeAdd ev, { d with routeWindows := getOrCreate d.routeWindows key })
    else none
  | .routeAdd ev =>
    let e : Entry := ⟨ev.Timestamp, ev.StatusCode, ev.Method, ""⟩
    let key := routeWindowKey ev.ProjectID ev.Path ev.Method
    some (.routeClock ev,
      { d with routeWindows := d.routeWindows.set key ((d.routeWindow ev).add d.now e) })
  | .routeClock ev => some (.routeSince ev d.now, d)
  | .routeSince ev now =>
    let entries := (d.routeWindow ev).since (before now (5 * Minute))
    some (if routeErrorRate entries then .routeGate ev else .done, d)
  | .routeGate ev =>
    if d.mu = none then
      let key := routeWindowKey ev.ProjectID ev.Path ev.Method
      if cooling d.now routeCooldown (d.routeCooldowns.get? key) then some (.done, d)
      else some (.routeStamp ev d.now, { d with mu := some i })
    else none
  | .routeStamp ev checkedAt =>
    if d.mu = some i then
      let key := routeWindowKey ev.ProjectID ev.Path ev.Method
      some (.done, { d with
        mu := none
        routeCooldowns := d.routeCooldowns.set key d.now
        passes := d.passes ++ [⟨.route ev.ProjectID ev.Method ev.Path, checkedAt, d.now⟩] })
    else none
  | .silentKeys =>
    if d.mu = none then some (.silentNext (range.order d.windows.keys), d) else none
  | .silentNext [] => some (.done, d)
  | .silentNext (key :: keys) =>
    if d.mu = none then some (.silentLast key keys, d) else none
  | .silentLast key keys =>
    let last := ((d.windows.get? key).getD {}).lastEventAt
    some (if last = zeroTime then .silentNext keys else .silentRules key last keys, d)
  | .silentRules key last keys =>
    match loaded with
    | none => some (.silentNext keys, d)
    | some rules => some (.silentRule (splitKey key).1 (splitKey key).2 last rules keys, d)
  | .silentRule _ _ _ [] keys => some (.silentNext keys, d)
  | .silentRule projectID serviceName last (rule :: rules) keys =>
    let next : Resume := .silent projectID serviceName last rules keys
    some (if rule.Active && rule.RuleType = RuleSilentService && silent rule d.now last then
        .fire projectID RuleSilentService next else next.thread, d)
  | .done => none

inductive Label
  | tick (elapsed : ℕ)
  | processEvent (ev : Event)
  | checkAllSilentServices
  | next (i : ℕ) (loaded : Option (List AnomalyRule)) (range : Range String)

def step (d : Detector) : Label → Option Detector
  | .tick elapsed => some { d with now := d.now + elapsed }
  | .processEvent ev => some { d with threads := d.threads ++ [.getOrCreate ev] }
  | .checkAllSilentServices => some { d with threads := d.threads ++ [.silentKeys] }
  | .next i loaded range => do
    let (thread, d') ← advance d i loaded range (← d.threads[i]?)
    return { d' with threads := d.threads.set i thread }

/-- What a goroutine can do next, with what the mutex, the gate or the repository allows. -/
inductive Advances (d : Detector) (i : ℕ) (loaded : Option (List AnomalyRule))
    (range : Range String) : Thread → Thread → Detector → Prop
  | getOrCreate (ev : Event) (hmu : d.mu = none) :
      Advances d i loaded range (.getOrCreate ev) (.add ev)
        { d with windows := getOrCreate d.windows (windowKey ev.ProjectID ev.ServiceName) }
  | add (ev : Event) : Advances d i loaded range (.add ev) (.listRules ev)
      { d with
        windows := d.windows.set (windowKey ev.ProjectID ev.ServiceName)
          ((d.window ev).add d.now ⟨ev.Timestamp, ev.StatusCode, ev.Method, ev.Identifier⟩) }
  | listRulesFailed (ev : Event) (hloaded : loaded = none) :
      Advances d i loaded range (.listRules ev) .done d
  | listRules {rules : List AnomalyRule} (ev : Event) (hloaded : loaded = some rules) :
      Advances d i loaded range (.listRules ev) (.rules ev rules) d
  | rulesEnd (ev : Event) :
      Advances d i loaded range (.rules ev []) (if ev.Path ≠ "" then .routeWindow ev else .done) d
  | rule (ev : Event) (rule : AnomalyRule) (rules : List AnomalyRule) :
      Advances d i loaded range (.rules ev (rule :: rules))
        (if rule.Active && applies ev rule then .evaluate ev rule rules else .rules ev rules) d
  | evaluate (ev : Event) (rule : AnomalyRule) (rules : List AnomalyRule) :
      Advances d i loaded range (.evaluate ev rule rules) (.window ev rule d.now rules) d
  | window (ev : Event) (rule : AnomalyRule) (now : ℤ) (rules : List AnomalyRule) :
      Advances d i loaded range (.window ev rule now rules)
        (if triggered ev rule now ((d.window ev).since (lookback rule now)) then
          .fire ev.ProjectID rule.RuleType (.event ev rules) else .rules ev rules) d
  | fireMuted {projectID : String} {rt : RuleType} (next : Resume) (hmu : d.mu = none)
      (hcooling : cooling d.now d.cooldownDur (d.cooldown.get? (cooldownKey projectID rt)) = true) :
      Advances d i loaded range (.fire projectID rt next) next.thread d
  | fire {projectID : String} {rt : RuleType} (next : Resume) (hmu : d.mu = none)
      (hopen : cooling d.now d.cooldownDur (d.cooldown.get? (cooldownKey projectID rt)) = false) :
      Advances d i loaded range (.fire projectID rt next) (.fireStamp projectID rt d.now next)
        { d with mu := some i }
  | fireStamp (projectID : String) (rt : RuleType) (checkedAt : ℤ) (next : Resume)
      (hmu : d.mu = some i) :
      Advances d i loaded range (.fireStamp projectID rt checkedAt next) next.thread
        { d with
          mu := none
          cooldown := d.cooldown.set (cooldownKey projectID rt) d.now
          passes := d.passes ++ [⟨.alert projectID rt, checkedAt, d.now⟩] }
  | routeWindow (ev : Event) (hmu : d.mu = none) :
      Advances d i loaded range (.routeWindow ev) (.routeAdd ev)
        { d with
          routeWindows :=
            getOrCreate d.routeWindows (routeWindowKey ev.ProjectID ev.Path ev.Method) }
  | routeAdd (ev : Event) : Advances d i loaded range (.routeAdd ev) (.routeClock ev)
      { d with
        routeWindows := d.routeWindows.set (routeWindowKey ev.ProjectID ev.Path ev.Method)
          ((d.routeWindow ev).add d.now ⟨ev.Timestamp, ev.StatusCode, ev.Method, ""⟩) }
  | routeClock (ev : Event) :
      Advances d i loaded range (.routeClock ev) (.routeSince ev d.now) d
  | routeSince (ev : Event) (now : ℤ) : Advances d i loaded range (.routeSince ev now)
      (if routeErrorRate ((d.routeWindow ev).since (before now (5 * Minute))) then .routeGate ev
        else .done) d
  | routeMuted {ev : Event} (hmu : d.mu = none)
      (hcooling : cooling d.now routeCooldown
        (d.routeCooldowns.get? (routeWindowKey ev.ProjectID ev.Path ev.Method)) = true) :
      Advances d i loaded range (.routeGate ev) .done d
  | routeGate {ev : Event} (hmu : d.mu = none)
      (hopen : cooling d.now routeCooldown
        (d.routeCooldowns.get? (routeWindowKey ev.ProjectID ev.Path ev.Method)) = false) :
      Advances d i loaded range (.routeGate ev) (.routeStamp ev d.now) { d with mu := some i }
  | routeStamp (ev : Event) (checkedAt : ℤ) (hmu : d.mu = some i) :
      Advances d i loaded range (.routeStamp ev checkedAt) .done
        { d with
          mu := none
          routeCooldowns :=
            d.routeCooldowns.set (routeWindowKey ev.ProjectID ev.Path ev.Method) d.now
          passes := d.passes ++ [⟨.route ev.ProjectID ev.Method ev.Path, checkedAt, d.now⟩] }
  | silentKeys (hmu : d.mu = none) :
      Advances d i loaded range .silentKeys (.silentNext (range.order d.windows.keys)) d
  | silentEnd : Advances d i loaded range (.silentNext []) .done d
  | silentNext (key : String) (keys : List String) (hmu : d.mu = none) :
      Advances d i loaded range (.silentNext (key :: keys)) (.silentLast key keys) d
  | silentLast (key : String) (keys : List String) :
      Advances d i loaded range (.silentLast key keys)
        (if ((d.windows.get? key).getD {}).lastEventAt = zeroTime then .silentNext keys
          else .silentRules key ((d.windows.get? key).getD {}).lastEventAt keys) d
  | silentRulesFailed (key : String) (last : ℤ) (keys : List String) (hloaded : loaded = none) :
      Advances d i loaded range (.silentRules key last keys) (.silentNext keys) d
  | silentRules {rules : List AnomalyRule} (key : String) (last : ℤ) (keys : List String)
      (hloaded : loaded = some rules) :
      Advances d i loaded range (.silentRules key last keys)
        (.silentRule (splitKey key).1 (splitKey key).2 last rules keys) d
  | silentRulesEnd (projectID serviceName : String) (last : ℤ) (keys : List String) :
      Advances d i loaded range (.silentRule projectID serviceName last [] keys)
        (.silentNext keys) d
  | silentRule (projectID serviceName : String) (last : ℤ) (rule : AnomalyRule)
      (rules : List AnomalyRule) (keys : List String) :
      Advances d i loaded range (.silentRule projectID serviceName last (rule :: rules) keys)
        (if rule.Active && rule.RuleType = RuleSilentService && silent rule d.now last then
          .fire projectID RuleSilentService (.silent projectID serviceName last rules keys)
        else (Resume.silent projectID serviceName last rules keys).thread) d

theorem advances {d d' : Detector} {i : ℕ} {loaded : Option (List AnomalyRule)}
    {range : Range String} {thread thread' : Thread}
    (h : advance d i loaded range thread = some (thread', d')) :
    Advances d i loaded range thread thread' d' := by
  cases thread with
  | getOrCreate ev =>
    simp only [advance] at h
    split at h
    · rename_i hmu
      cases h
      exact .getOrCreate ev hmu
    · cases h
  | add ev =>
    cases h
    exact .add ev
  | listRules ev =>
    cases hloaded : loaded with
    | none =>
      subst hloaded
      cases h
      exact .listRulesFailed ev rfl
    | some rules =>
      subst hloaded
      cases h
      exact .listRules ev rfl
  | rules ev todo =>
    cases todo with
    | nil =>
      cases h
      exact .rulesEnd ev
    | cons rule todo =>
      cases h
      exact .rule ev rule todo
  | evaluate ev rule rules =>
    cases h
    exact .evaluate ev rule rules
  | window ev rule now rules =>
    cases h
    exact .window ev rule now rules
  | fire projectID rt next =>
    simp only [advance] at h
    split at h
    · rename_i hmu
      split at h
      · rename_i hcooling
        cases h
        exact .fireMuted next hmu hcooling
      · rename_i hopen
        cases h
        exact .fire next hmu ((Bool.not_eq_true _).mp hopen)
    · cases h
  | fireStamp projectID rt checkedAt next =>
    simp only [advance] at h
    split at h
    · rename_i hmu
      cases h
      exact .fireStamp projectID rt checkedAt next hmu
    · cases h
  | routeWindow ev =>
    simp only [advance] at h
    split at h
    · rename_i hmu
      cases h
      exact .routeWindow ev hmu
    · cases h
  | routeAdd ev =>
    cases h
    exact .routeAdd ev
  | routeClock ev =>
    cases h
    exact .routeClock ev
  | routeSince ev now =>
    cases h
    exact .routeSince ev now
  | routeGate ev =>
    simp only [advance] at h
    split at h
    · rename_i hmu
      split at h
      · rename_i hcooling
        cases h
        exact .routeMuted hmu hcooling
      · rename_i hopen
        cases h
        exact .routeGate hmu ((Bool.not_eq_true _).mp hopen)
    · cases h
  | routeStamp ev checkedAt =>
    simp only [advance] at h
    split at h
    · rename_i hmu
      cases h
      exact .routeStamp ev checkedAt hmu
    · cases h
  | silentKeys =>
    simp only [advance] at h
    split at h
    · rename_i hmu
      cases h
      exact .silentKeys hmu
    · cases h
  | silentNext keys =>
    cases keys with
    | nil =>
      cases h
      exact .silentEnd
    | cons key keys =>
      simp only [advance] at h
      split at h
      · rename_i hmu
        cases h
        exact .silentNext key keys hmu
      · cases h
  | silentLast key keys =>
    cases h
    exact .silentLast key keys
  | silentRules key last keys =>
    cases hloaded : loaded with
    | none =>
      subst hloaded
      cases h
      exact .silentRulesFailed key last keys rfl
    | some rules =>
      subst hloaded
      cases h
      exact .silentRules key last keys rfl
  | silentRule projectID serviceName last todo keys =>
    cases todo with
    | nil =>
      cases h
      exact .silentRulesEnd projectID serviceName last keys
    | cons rule todo =>
      cases h
      exact .silentRule projectID serviceName last rule todo keys
  | done => cases h

end Detector

end BatAudit.Anomaly
