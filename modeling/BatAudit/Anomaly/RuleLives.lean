import BatAudit.Anomaly.Detector
import BatAudit.Auth.Service
import BatAudit.Lib.Runs
import BatAudit.Lib.SoftDelete

/-!
# The life of a rule

The Reader inserts detection rules and deactivates them, the Writer seeds projects with them,
and the goroutines of the detector load them, each when it comes to it. A goroutine goes on
with the rules it has loaded, whatever becomes of them. The database may list rows of one
instant in any order.
-/

namespace BatAudit.Anomaly.RuleLives

open SoftDelete (Live Reflects)
open Auth (Claims RoleOwner RoleAdmin)

/-! ## The table -/

structure RuleRow where
  ID : String
  ProjectID : String
  rule : AnomalyRule
  CreatedAt : ℤ
deriving DecidableEq, Repr

/-- The ids of the projects, and the rows of `anomaly_rules`. -/
structure Tables where
  projects : List String := []
  rules : List RuleRow := []

/-- Whether an `INT` column takes a value. -/
def isInt4 (n : Int64) : Bool := -2 ^ 31 ≤ n.toInt && n.toInt < 2 ^ 31

/-- What the columns make of a row. -/
def RuleRow.stored (r : RuleRow) : Option RuleRow := do
  let _ ← SqlText.uuid r.ID
  let ProjectID ← SqlText.varchar 64 r.ProjectID
  let RuleType ← SqlText.varchar 32 r.rule.RuleType
  if isInt4 r.rule.WindowSeconds then
    return { r with ProjectID, rule := { r.rule with RuleType } }
  else none

namespace Tables

/-- One `INSERT`, which a row that breaks a constraint undoes. -/
def create (db : Tables) (rows : List RuleRow) : Option Tables := do
  let rules ← rows.mapM RuleRow.stored
  if rules.all (fun r => db.projects.contains r.ProjectID) &&
      ((db.rules ++ rules).map fun r => SqlText.uuid r.ID).Nodup then
    return { db with rules := db.rules ++ rules }
  else none

def deactivated (r : RuleRow) : RuleRow := { r with rule := { r.rule with Active := false } }

/-- An id that is not a UUID is an error. -/
def delete (db : Tables) (id : String) : Option Tables := do
  let key ← SqlText.uuid id
  return { db with
    rules := db.rules.map fun r => if SqlText.uuid r.ID = some key then deactivated r else r }

/-- What `ListByProject` may return. -/
def lists (db : Tables) (projectID : String) (rows : List RuleRow) : Bool :=
  rows.isPerm (db.rules.filter fun r => r.ProjectID = projectID) &&
    rows.Pairwise fun r r' => r.CreatedAt ≤ r'.CreatedAt

end Tables

def DefaultRules (projectID : String) (now : ℤ) (uuid : ℕ → String) : List RuleRow :=
  [⟨uuid 0, projectID, ⟨RuleVolumeSpike, Double.ofInt 3, 60, true⟩, now⟩,
    ⟨uuid 1, projectID, ⟨RuleErrorRate, Double.ofInt 20, 300, true⟩, now⟩,
    ⟨uuid 2, projectID, ⟨RuleBruteForce, Double.ofInt 10, 300, true⟩, now⟩,
    ⟨uuid 3, projectID, ⟨RuleSilentService, Double.ofInt 15, 0, true⟩, now⟩,
    ⟨uuid 4, projectID, ⟨RuleMassDelete, Double.ofInt 50, 300, true⟩, now⟩]

/-! ## The handlers -/

/-- The decoded body of `POST /anomaly/rules`. -/
structure CreateRuleRequest where
  ProjectID : String
  RuleType : RuleType
  Threshold : Double
  WindowSeconds : Int64
deriving DecidableEq, Repr

def isZero : Double → Bool
  | .finite f => f.mant = 0
  | _ => false

/-- The fields that are `required`. -/
def CreateRuleRequest.bind (req : CreateRuleRequest) : Bool :=
  req.ProjectID ≠ "" && req.RuleType ≠ "" && !isZero req.Threshold

inductive Body
  | error (text : String)
  | bindingError
  | databaseError
  | rule (r : RuleRow)
  | rules (rows : List RuleRow)
  | none
deriving DecidableEq, Repr

structure Response where
  status : ℕ
  body : Body
deriving DecidableEq, Repr

def mayEdit (claims : Claims) : Bool := claims.role = RoleOwner || claims.role = RoleAdmin

def CreateRuleRequest.row (req : CreateRuleRequest) (id : String) (now : ℤ) : RuleRow :=
  ⟨id, req.ProjectID, ⟨req.RuleType, req.Threshold, req.WindowSeconds, true⟩, now⟩

def createRule (claims : Claims) (body : Option CreateRuleRequest) (id : String) (now : ℤ)
    (db : Tables) : Response × Tables :=
  if !mayEdit claims then (⟨403, .error "insufficient permissions"⟩, db)
  else
    match body.filter CreateRuleRequest.bind with
    | none => (⟨400, .bindingError⟩, db)
    | some req =>
      match db.create [req.row id now] with
      | none => (⟨500, .databaseError⟩, db)
      | some db' => (⟨201, .rule (req.row id now)⟩, db')

def deleteRule (claims : Claims) (id : String) (db : Tables) : Response × Tables :=
  if !mayEdit claims then (⟨403, .error "insufficient permissions"⟩, db)
  else
    match db.delete id with
    | none => (⟨500, .databaseError⟩, db)
    | some db' => (⟨204, .none⟩, db')

/-- `listed` is what the database returns, nothing when it fails. -/
def listRules (projectID : String) (listed : Option (List RuleRow)) : Response :=
  if projectID = "" then ⟨400, .error "project_id required"⟩
  else
    match listed with
    | none => ⟨500, .databaseError⟩
    | some rows => ⟨200, .rules rows⟩

/-! ## The system -/

/-- The columns of a rule that no statement writes again: the id, the project and the type. -/
def columns : SoftDelete.Columns RuleRow (String × String × RuleType) where
  tag r := (r.ID, r.ProjectID, r.rule.RuleType)
  active r := r.rule.Active
  deactivate := Tables.deactivated
  tag_deactivate _ := rfl
  active_deactivate _ := rfl

structure State where
  db : Tables := {}
  detector : Detector
  history : List (SoftDelete.Event (String × String × RuleType)) := []

inductive Label
  | project (id : String)
  | createRule (claims : Claims) (body : Option CreateRuleRequest) (id : String) (now : ℤ)
  | deleteRule (claims : Claims) (id : String)
  | createDefaultRules (projectID : String) (uuid : ℕ → String) (now : ℤ)
  | tick (elapsed : ℕ)
  | processEvent (ev : Event)
  | checkAllSilentServices
  | next (i : ℕ) (listed : Option (List RuleRow)) (range : Range String)

/-- The project whose rules a goroutine loads next. -/
def listing : Thread → Option String
  | .listRules ev => some ev.ProjectID
  | .silentRules key _ _ => some (splitKey key).1
  | _ => none

/-- The rows that were added are the last of the table. -/
def State.inserted (s : State) (db : Tables) : State :=
  { s with
    db
    history := ((db.rules.drop s.db.rules.length).map fun r => .issued (columns.tag r)).reverse ++
      s.history }

def step (s : State) : Label → Option State
  | .project id => some { s with db := { s.db with projects := s.db.projects ++ [id] } }
  | .createRule claims body id now => some (s.inserted (createRule claims body id now s.db).2)
  | .deleteRule claims id =>
    let (response, db) := deleteRule claims id s.db
    if response.status = 204 then
      some { s with
        db, history := .retired (fun t => SqlText.uuid t.1 = SqlText.uuid id) :: s.history }
    else some s
  | .createDefaultRules projectID uuid now =>
    (s.db.create (DefaultRules projectID now uuid)).map s.inserted
  | .tick elapsed => (s.detector.step (.tick elapsed)).map fun detector => { s with detector }
  | .processEvent ev => (s.detector.step (.processEvent ev)).map fun detector => { s with detector }
  | .checkAllSilentServices =>
    (s.detector.step .checkAllSilentServices).map fun detector => { s with detector }
  | .next i listed range => do
    let thread ← s.detector.threads[i]?
    if (listing thread).all fun p => listed.all (s.db.lists p) then
      let detector ← s.detector.step (.next i (listed.map (List.map RuleRow.rule)) range)
      return { s with detector }
    else none

def start (now : ℤ) : State := { detector := { now } }

/-! ## The table reflects the history -/

variable {s t : State} {a : Label}

theorem exists_of_mem_mapM {rows new : List RuleRow} (h : rows.mapM RuleRow.stored = some new)
    {r : RuleRow} (hr : r ∈ new) : ∃ row ∈ rows, row.stored = some r := by
  induction rows generalizing new with
  | nil =>
    cases h
    cases hr
  | cons row rows ih =>
    rw [List.mapM_cons] at h
    obtain ⟨r', hrow, h⟩ := Option.bind_eq_some_iff.mp h
    obtain ⟨rest, hrest, h⟩ := Option.bind_eq_some_iff.mp h
    cases h
    rcases List.mem_cons.mp hr with rfl | hr
    · exact ⟨row, List.mem_cons_self, hrow⟩
    · obtain ⟨row', hmem, hstored⟩ := ih hrest hr
      exact ⟨row', List.mem_cons_of_mem row hmem, hstored⟩

theorem stored_active {r r' : RuleRow} (h : r.stored = some r') :
    r'.rule.Active = r.rule.Active := by
  simp only [RuleRow.stored, Option.bind_eq_bind, Option.bind_eq_some_iff] at h
  obtain ⟨_, -, _, -, _, -, h⟩ := h
  split at h <;> cases h
  rfl

/-- What an `INSERT` of active rows adds. -/
theorem create_eq_some {db db' : Tables} {rows : List RuleRow}
    (hactive : ∀ r ∈ rows, r.rule.Active = true) (h : db.create rows = some db') :
    ∃ new, db'.rules = db.rules ++ new ∧ ∀ r ∈ new, r.rule.Active = true := by
  obtain ⟨new, hnew, h⟩ := Option.bind_eq_some_iff.mp h
  split at h <;> cases h
  refine ⟨new, rfl, fun r hr => ?_⟩
  obtain ⟨row, hrow, hstored⟩ := exists_of_mem_mapM hnew hr
  rw [stored_active hstored]
  exact hactive row hrow

/-- An insertion that is refused adds no row. -/
theorem createRule_eq (claims : Claims) (body : Option CreateRuleRequest) (id : String) (now : ℤ)
    (db : Tables) : ∃ new, (createRule claims body id now db).2.rules = db.rules ++ new ∧
      ∀ r ∈ new, r.rule.Active = true := by
  have hsame : ∃ new, db.rules = db.rules ++ new ∧ ∀ r ∈ new, r.rule.Active = true :=
    ⟨[], (List.append_nil _).symm, List.forall_mem_nil _⟩
  unfold createRule
  split_ifs
  · exact hsame
  · split
    · exact hsame
    · split
      · exact hsame
      · rename_i hcreate
        exact create_eq_some (fun r hr => by rw [List.mem_singleton.mp hr]; rfl) hcreate

theorem reflects_inserted (h : Reflects columns s.history s.db.rules) {db : Tables}
    (hnew : ∃ new, db.rules = s.db.rules ++ new ∧ ∀ r ∈ new, r.rule.Active = true) :
    Reflects columns (s.inserted db).history (s.inserted db).db.rules := by
  obtain ⟨new, hdb, hactive⟩ := hnew
  simp only [State.inserted, hdb, List.drop_left]
  exact h.insertAll hactive

theorem reflects_deleteRule (h : Reflects columns s.history s.db.rules) {id : String}
    {db : Tables} (hdelete : s.db.delete id = some db) :
    Reflects columns (.retired (fun t => SqlText.uuid t.1 = SqlText.uuid id) :: s.history)
      db.rules := by
  obtain ⟨key, hkey, hdelete⟩ := Option.bind_eq_some_iff.mp hdelete
  cases hdelete
  have hretired := h.deactivate fun t => decide (SqlText.uuid t.1 = SqlText.uuid id)
  simp only [decide_eq_true_eq, hkey] at hretired ⊢
  exact hretired

theorem deleteRule_cases (claims : Claims) (id : String) (db : Tables) :
    (deleteRule claims id db).1.status ≠ 204 ∨
      ∃ db', db.delete id = some db' ∧ deleteRule claims id db = (⟨204, .none⟩, db') := by
  unfold deleteRule
  split_ifs
  · exact Or.inl (show 403 ≠ 204 by decide)
  · cases db.delete id with
    | none => exact Or.inl (show 500 ≠ 204 by decide)
    | some db' => exact Or.inr ⟨db', rfl, rfl⟩

theorem reflects_step (h : Reflects columns s.history s.db.rules) (hstep : step s a = some t) :
    Reflects columns t.history t.db.rules := by
  cases a with
  | project id =>
    cases hstep
    exact h
  | createRule claims body id now =>
    cases hstep
    exact reflects_inserted h (createRule_eq claims body id now s.db)
  | deleteRule claims id =>
    rcases deleteRule_cases claims id s.db with hrefused | ⟨db, hdelete, heq⟩
    · simp only [step, if_neg hrefused] at hstep
      cases hstep
      exact h
    · simp only [step, heq, if_pos] at hstep
      cases hstep
      exact reflects_deleteRule h hdelete
  | createDefaultRules projectID uuid now =>
    obtain ⟨db, hdb, rfl⟩ := Option.map_eq_some_iff.mp hstep
    refine reflects_inserted h (create_eq_some (fun r hr => ?_) hdb)
    simp only [DefaultRules, List.mem_cons, List.not_mem_nil, or_false] at hr
    rcases hr with rfl | rfl | rfl | rfl | rfl <;> rfl
  | tick | processEvent | checkAllSilentServices =>
    simp only [step] at hstep
    obtain ⟨detector, -, rfl⟩ := Option.map_eq_some_iff.mp hstep
    exact h
  | next i listed range =>
    obtain ⟨thread, -, hstep⟩ := Option.bind_eq_some_iff.mp hstep
    split_ifs at hstep
    obtain ⟨detector, -, hstep⟩ := Option.bind_eq_some_iff.mp hstep
    cases hstep
    exact h

theorem reflects_run {now : ℤ} {as : List Label} (hrun : Runs.run step (start now) as = some s) :
    Reflects columns s.history s.db.rules :=
  Runs.run_invariant (fun _ _ _ h hstep => reflects_step h hstep) SoftDelete.reflects_nil hrun

/-! ## What a goroutine may still raise -/

def activeTypes (projectID : String) (rules : List AnomalyRule) : List (String × RuleType) :=
  (rules.filter AnomalyRule.Active).map fun rule => (projectID, rule.RuleType)

def pendingAfter : Resume → List (String × RuleType)
  | .event ev rules => activeTypes ev.ProjectID rules
  | .silent projectID _ _ rules _ => activeTypes projectID rules

/-- The projects and types of the alerts that a goroutine may raise before it loads rules
again. -/
def pending : Thread → List (String × RuleType)
  | .rules ev rules => activeTypes ev.ProjectID rules
  | .evaluate ev rule rules | .window ev rule _ rules =>
    (ev.ProjectID, rule.RuleType) :: activeTypes ev.ProjectID rules
  | .fire projectID rt next | .fireStamp projectID rt _ next => (projectID, rt) :: pendingAfter next
  | .silentRule projectID _ _ rules _ => activeTypes projectID rules
  | _ => []

theorem pending_thread (next : Resume) : pending next.thread = pendingAfter next := by
  cases next <;> rfl

theorem mem_activeTypes {projectID : String} {rules : List AnomalyRule} {x : String × RuleType} :
    x ∈ activeTypes projectID rules ↔
      ∃ rule ∈ rules, rule.Active = true ∧ x = (projectID, rule.RuleType) := by
  simp only [activeTypes, List.mem_map, List.mem_filter, and_assoc, eq_comm]

theorem mem_activeTypes_cons {projectID : String} {rule : AnomalyRule} {rules : List AnomalyRule}
    {x : String × RuleType} (h : x ∈ activeTypes projectID rules) :
    x ∈ activeTypes projectID (rule :: rules) := by
  obtain ⟨rule', hmem, hrule'⟩ := mem_activeTypes.mp h
  exact mem_activeTypes.mpr ⟨rule', List.mem_cons_of_mem rule hmem, hrule'⟩

variable {d d' : Detector} {i : ℕ} {loaded : Option (List AnomalyRule)} {range : Range String}
  {thread thread' : Thread} {x : String × RuleType}

/-- What is pending was pending before, or an active rule of it has just been loaded. -/
theorem pending_advances (h : Detector.Advances d i loaded range thread thread' d')
    (hx : x ∈ pending thread') :
    x ∈ pending thread ∨ ∃ projectID rules, listing thread = some projectID ∧
      loaded = some rules ∧ x ∈ activeTypes projectID rules := by
  cases h with
  | getOrCreate | add | routeWindow | routeAdd | routeClock | silentKeys | silentEnd
  | silentNext | listRulesFailed | silentRulesFailed | silentRulesEnd | routeMuted | routeGate
  | routeStamp => cases hx
  | listRules ev hloaded => exact Or.inr ⟨ev.ProjectID, _, rfl, hloaded, hx⟩
  | silentRules key last keys hloaded => exact Or.inr ⟨(splitKey key).1, _, rfl, hloaded, hx⟩
  | rulesEnd ev =>
    split_ifs at hx
    · cases hx
    · cases hx
  | rule ev rule rules =>
    left
    split_ifs at hx with happlies
    · rcases List.mem_cons.mp hx with rfl | hx
      · have hactive := (Bool.and_eq_true_iff.mp happlies).1
        exact mem_activeTypes.mpr ⟨rule, List.mem_cons_self, hactive, rfl⟩
      · exact mem_activeTypes_cons hx
    · exact mem_activeTypes_cons hx
  | evaluate ev rule rules => exact Or.inl hx
  | window ev rule now rules =>
    left
    split_ifs at hx
    · exact hx
    · exact List.mem_cons_of_mem _ hx
  | fireMuted next hmu hcooling =>
    rw [pending_thread] at hx
    exact Or.inl (List.mem_cons_of_mem _ hx)
  | fire next hmu hopen => exact Or.inl hx
  | fireStamp projectID rt checkedAt next hmu =>
    rw [pending_thread] at hx
    exact Or.inl (List.mem_cons_of_mem _ hx)
  | routeSince ev now =>
    split_ifs at hx
    · cases hx
    · cases hx
  | silentLast key keys =>
    split_ifs at hx
    · cases hx
    · cases hx
  | silentRule projectID serviceName last rule rules keys =>
    left
    split_ifs at hx with hsilent
    · rcases List.mem_cons.mp hx with rfl | hx
      · simp only [Bool.and_eq_true, decide_eq_true_eq] at hsilent
        exact mem_activeTypes.mpr
          ⟨rule, List.mem_cons_self, hsilent.1.1, by rw [hsilent.1.2]⟩
      · exact mem_activeTypes_cons hx
    · rw [pending_thread] at hx
      exact mem_activeTypes_cons hx

/-- An alert that goes through was pending. -/
theorem passes_advances (h : Detector.Advances d i loaded range thread thread' d') {pass : Pass}
    (hpass : d'.passes = d.passes ++ [pass]) {projectID : String} {rt : RuleType}
    (hgate : pass.gate = .alert projectID rt) : (projectID, rt) ∈ pending thread := by
  have hnone {passes : List Pass} (hsame : passes = passes ++ [pass]) : False :=
    absurd (List.self_eq_append_right.mp hsame) (List.cons_ne_nil _ _)
  cases h with
  | fireStamp projectID' rt' checkedAt next hmu =>
    cases List.append_cancel_left hpass
    cases hgate
    exact List.mem_cons_self
  | routeStamp =>
    cases List.append_cancel_left hpass
    cases hgate
  | _ => exact (hnone hpass).elim

/-! ## Runs -/

variable {now : ℤ} {before as : List Label} {listed : Option (List RuleRow)}

theorem next_cases (hstep : step s (.next i listed range) = some t) :
    ∃ thread thread', s.detector.threads[i]? = some thread ∧
      (∀ p ∈ listing thread, ∀ rows ∈ listed, s.db.lists p rows = true) ∧
      t.detector.threads = s.detector.threads.set i thread' ∧
      ∃ d, Detector.Advances s.detector i (listed.map (List.map RuleRow.rule)) range thread
        thread' d ∧ t.detector.passes = d.passes := by
  obtain ⟨thread, hthread, hstep⟩ := Option.bind_eq_some_iff.mp hstep
  split_ifs at hstep with hlisted
  obtain ⟨detector, hdetector, hstep⟩ := Option.bind_eq_some_iff.mp hstep
  cases hstep
  obtain ⟨thread₁, hthread₁, hdetector⟩ := Option.bind_eq_some_iff.mp hdetector
  cases hthread.symm.trans hthread₁
  obtain ⟨⟨thread', d⟩, hadvance, hdetector⟩ := Option.bind_eq_some_iff.mp hdetector
  cases hdetector
  simp only [Option.all_eq_true] at hlisted
  exact ⟨thread, thread', hthread, hlisted, rfl, d, Detector.advances hadvance, rfl⟩

/-- An active rule that is listed is live. -/
theorem live_of_listed (h : Reflects columns s.history s.db.rules) {projectID : String}
    {rows : List RuleRow} (hlists : s.db.lists projectID rows = true)
    (hx : x ∈ activeTypes projectID (rows.map RuleRow.rule)) :
    ∃ id, Live (id, x.1, x.2) s.history := by
  obtain ⟨rule, hrule, hactive, rfl⟩ := mem_activeTypes.mp hx
  obtain ⟨r, hr, rfl⟩ := List.mem_map.mp hrule
  have hperm := List.isPerm_iff.mp (Bool.and_eq_true_iff.mp hlists).1
  have hmem := List.mem_filter.mp (hperm.mem_iff.mp hr)
  have hproject : r.ProjectID = projectID := of_decide_eq_true hmem.2
  exact ⟨r.ID, (h.active _).mp ⟨r, hmem.1, by rw [← hproject]; rfl, hactive⟩⟩

/-- What is pending in a goroutine was live at some time since its start. -/
def LiveSince (now : ℤ) (as : List Label) (i : ℕ) (x : String × RuleType) : Prop :=
  ∃ before s, before <+: as ∧ Runs.run step (start now) before = some s ∧
    i < s.detector.threads.length ∧ ∃ id, Live (id, x.1, x.2) s.history

theorem LiveSince.concat (h : LiveSince now as i x) (a : Label) : LiveSince now (as ++ [a]) i x := by
  obtain ⟨before, s, hprefix, hrun, hstarted, hlive⟩ := h
  exact ⟨before, s, hprefix.trans (List.prefix_append as [a]), hrun, hstarted, hlive⟩

/-- A goroutine that has just been started has nothing pending. -/
theorem pending_started {threads : List Thread} {new : Thread} (hnew : pending new = [])
    (hi : (threads ++ [new])[i]? = some thread) (hx : x ∈ pending thread) :
    threads[i]? = some thread := by
  by_cases hlt : i < threads.length
  · rwa [List.getElem?_append_left hlt] at hi
  · rw [List.getElem?_append_right (Nat.not_lt.mp hlt)] at hi
    rw [List.mem_singleton.mp (List.mem_of_getElem? hi), hnew] at hx
    cases hx

theorem liveSince_of_pending (hrun : Runs.run step (start now) as = some s) :
    ∀ i thread x, s.detector.threads[i]? = some thread → x ∈ pending thread →
      LiveSince now as i x := by
  refine Runs.run_history (P := fun as s => ∀ i thread x, s.detector.threads[i]? = some thread →
    x ∈ pending thread → LiveSince now as i x) ?_ ?_ hrun
  · intro i thread x hi
    cases hi
  · intro as s₀ a s hrun ih hstep i thread x hi hx
    have hsame (h : s.detector.threads = s₀.detector.threads) : LiveSince now (as ++ [a]) i x :=
      (ih i thread x (h ▸ hi) hx).concat a
    cases a with
    | project | createRule =>
      cases hstep
      exact hsame rfl
    | deleteRule claims id =>
      refine hsame ?_
      simp only [step] at hstep
      split_ifs at hstep <;> cases hstep <;> rfl
    | createDefaultRules projectID uuid at_ =>
      obtain ⟨db, -, rfl⟩ := Option.map_eq_some_iff.mp hstep
      exact hsame rfl
    | tick elapsed =>
      cases hstep
      exact hsame rfl
    | processEvent ev =>
      cases hstep
      exact (ih i thread x (pending_started rfl hi hx) hx).concat _
    | checkAllSilentServices =>
      cases hstep
      exact (ih i thread x (pending_started rfl hi hx) hx).concat _
    | next j listed range =>
      obtain ⟨old, new, hold, hlisted, hthreads, d, hadvances, -⟩ := next_cases hstep
      have hlength := (List.getElem?_eq_some_iff.mp hold).1
      rw [hthreads] at hi
      by_cases hij : j = i
      · subst hij
        rw [List.getElem?_set_self hlength] at hi
        cases hi
        rcases pending_advances hadvances hx with hx | ⟨p, rules, hp, hrules, hx⟩
        · exact (ih j old x hold hx).concat _
        · -- The rules were loaded in this step, from the table before it.
          obtain ⟨rows, hrows, rfl⟩ := Option.map_eq_some_iff.mp hrules
          exact ⟨as, s₀, List.prefix_append .., hrun, hlength,
            live_of_listed (reflects_run hrun) (hlisted p hp rows hrows) hx⟩
      · rw [List.getElem?_set_ne hij] at hi
        exact (ih i thread x hi hx).concat _

/-- Whenever a goroutine raises an alert for a rule type and a project, at some time since its
start there was a rule of that type and project which had been created and not deleted. -/
theorem alert_of_live_rule (hrun : Runs.run step (start now) as = some s)
    (hstep : step s (.next i listed range) = some t) {pass : Pass}
    (hpass : t.detector.passes = s.detector.passes ++ [pass]) {projectID : String} {rt : RuleType}
    (hgate : pass.gate = .alert projectID rt) : LiveSince now as i (projectID, rt) := by
  obtain ⟨thread, thread', hthread, -, -, d, hadvances, hpasses⟩ := next_cases hstep
  rw [hpasses] at hpass
  exact liveSince_of_pending hrun i thread _ hthread (passes_advances hadvances hpass hgate)

def massDeleteRow : RuleRow :=
  ⟨"a0eebc99-9c0b-4ef8-bb6d-6bb9bd380a11", "p", ⟨RuleMassDelete, Double.ofInt 1, 300, true⟩, 0⟩

/-- The rule is deleted after it was loaded. -/
def deletedMeanwhile : List Label :=
  let next := Label.next 0 (some [massDeleteRow]) Range.inOrder
  [.project "p",
    .createRule ⟨"1", "owner@x", RoleOwner⟩
      (some ⟨"p", RuleMassDelete, Double.ofInt 1, 300⟩) massDeleteRow.ID 0,
    .processEvent ⟨"p", "svc", "production", 0, 200, "DELETE", "", "u"⟩, next, next, next,
    .deleteRule ⟨"1", "owner@x", RoleOwner⟩ massDeleteRow.ID] ++
      List.replicate 4 (.next 0 none Range.inOrder)

theorem deleted_rule_was_live :
    ∃ s, Runs.run step (start 0) deletedMeanwhile = some s ∧
      s.db.rules.map (fun r => r.rule.Active) = [false] ∧
      (step s (.next 0 none Range.inOrder)).isSome ∧
      LiveSince 0 deletedMeanwhile 0 ("p", RuleMassDelete) := by
  let a := Label.next 0 none Range.inOrder
  have hbefore : (Runs.run step (start 0) deletedMeanwhile).map
      (fun s => (s.db.rules.map (fun r => r.rule.Active), s.detector.passes)) =
        some ([false], []) := rfl
  have hafter : (Runs.run step (start 0) (deletedMeanwhile ++ [a])).map
      (fun t => t.detector.passes) = some [⟨.alert "p" RuleMassDelete, 0, 0⟩] :=
    rfl
  obtain ⟨s, hs, hshape⟩ := Option.map_eq_some_iff.mp hbefore
  obtain ⟨t, ht, hpasses⟩ := Option.map_eq_some_iff.mp hafter
  obtain ⟨s', hs', hstep⟩ := Runs.run_concat_eq_some.mp ht
  cases hs.symm.trans hs'
  obtain ⟨hrules, hnone⟩ := Prod.mk.inj hshape
  refine ⟨s, hs, hrules, Option.isSome_of_mem hstep, ?_⟩
  exact alert_of_live_rule hs hstep (by rw [hpasses, hnone]; rfl) rfl

end BatAudit.Anomaly.RuleLives
