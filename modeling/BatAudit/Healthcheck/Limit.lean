import BatAudit.Healthcheck.Model
import BatAudit.Lib.Runs
import BatAudit.Lib.SqlText

/-!
# The limit of monitors

`POST /v1/monitors` counts the monitors of a project and then inserts one more, with nothing
to hold others off in between. `PUT` saves the row it loaded, and gorm's `Save` inserts a row
that it finds no longer there. Any number of requests interleave, one repository call a step,
and a call may fail without an effect.
-/

namespace BatAudit.Healthcheck.Limit

def maxMonitorsPerProject : ℕ := 10

/-- The body of `POST /v1/monitors`. -/
structure CreateBody where
  projectID : String
  name : String
  url : String
  intervalSeconds : ℤ := 0
  timeoutSeconds : ℤ := 0
  expectedStatus : ℤ := 0

/-- The fields that are `required`. -/
def CreateBody.isBound (body : CreateBody) : Bool :=
  body.projectID ≠ "" && body.name ≠ "" && body.url ≠ ""

def CreateBody.monitor (body : CreateBody) (id : String) (now : ℤ) : Monitor where
  id := id
  projectID := body.projectID
  name := body.name
  url := body.url
  intervalSeconds := if body.intervalSeconds ≤ 0 then 60 else body.intervalSeconds
  timeoutSeconds := if body.timeoutSeconds ≤ 0 then 10 else body.timeoutSeconds
  expectedStatus := if body.expectedStatus = 0 then 200 else body.expectedStatus
  enabled := true
  lastStatus := .unknown
  lastCheckedAt := none
  createdAt := now
  updatedAt := now

/-- What the columns make of a row. -/
def stored (m : Monitor) : Option Monitor := do
  let projectID ← SqlText.varchar 255 m.projectID
  let name ← SqlText.varchar 255 m.name
  let url ← SqlText.text m.url
  return { m with projectID, name, url }

/-- `CountByProject`. -/
def count (projectID : String) (monitors : List Monitor) : ℕ :=
  monitors.countP fun m => m.projectID = projectID

/-- An update of the row, or an insertion when there is none. -/
def save (m : Monitor) (monitors : List Monitor) : List Monitor :=
  if monitors.any fun row => row.id = m.id then
    monitors.map fun row => if row.id = m.id then m else row
  else monitors ++ [m]

/-! ## Requests -/

/-- What a request does next, or the status of its answer. A `PUT` has no body when it cannot
be parsed. -/
inductive Request
  | counting (body : CreateBody)
  | creating (body : CreateBody)
  | loading (id : String) (body : Option UpdateBody)
  | saving (m : Monitor)
  | deleting (id : String)
  | answered (status : ℕ)

/-- `used` are the ids drawn so far. -/
structure State where
  monitors : List Monitor := []
  requests : List Request := []
  used : List String := []

/-- The next repository call of a request. `uuid.New` does not draw an id twice. -/
def advance (s : State) (ok : Bool) (id : String) (now : ℤ) : Request → Option (Request × State)
  | .counting body =>
    some (if !ok then .answered 500
      else if maxMonitorsPerProject ≤ count body.projectID s.monitors then .answered 422
      else .creating body, s)
  | .creating body =>
    if id ∈ s.used then none
    else
      match if ok then stored (body.monitor id now) else none with
      | some m =>
        some (.answered 201, { s with monitors := s.monitors ++ [m], used := id :: s.used })
      | none => some (.answered 500, s)
  | .loading id body =>
    match if ok then s.monitors.find? fun m => m.id = id else none with
    | none => some (.answered 404, s)
    | some m =>
      match body with
      | none => some (.answered 400, s)
      | some body => some (.saving (body.apply m), s)
  | .saving m =>
    match if ok then stored { m with updatedAt := now } else none with
    | some m => some (.answered 200, { s with monitors := save m s.monitors })
    | none => some (.answered 500, s)
  | .deleting id =>
    if ok then
      some (.answered 204, { s with monitors := s.monitors.filter fun m => m.id ≠ id })
    else some (.answered 500, s)
  | .answered _ => none

inductive Label
  | post (body : Option CreateBody)
  | put (id : String) (body : Option UpdateBody)
  | delete (id : String)
  | next (i : ℕ) (ok : Bool) (id : String) (now : ℤ)

def State.receive (s : State) (r : Request) : State := { s with requests := s.requests ++ [r] }

def step (s : State) : Label → Option State
  | .post body =>
    match body.filter CreateBody.isBound with
    | some body => some (s.receive (.counting body))
    | none => some (s.receive (.answered 400))
  | .put id body => some (s.receive (.loading id body))
  | .delete id => some (s.receive (.deleting id))
  | .next i ok id now => do
    let (r, s') ← advance s ok id now (← s.requests[i]?)
    return { s' with requests := s.requests.set i r }

/-! ## The limit and its condition -/

def AtMostTen (s : State) : Prop :=
  ∀ projectID, count projectID s.monitors ≤ maxMonitorsPerProject

/-- The row that a step adds: that of a `POST`, or that of a `PUT` which is there no more. -/
def inserted (s : State) : Label → Option Monitor
  | .next i true id now =>
    match s.requests[i]? with
    | some (.creating body) => stored (body.monitor id now)
    | some (.saving m) =>
      if s.monitors.any fun row => row.id = m.id then none else stored { m with updatedAt := now }
    | _ => none
  | _ => none

/-- The project of a row that is added has less than ten monitors then. -/
def RoomLeft (s : State) (a : Label) : Prop :=
  ∀ m ∈ inserted s a, count m.projectID s.monitors < maxMonitorsPerProject

/-- Request `i` has counted and not yet inserted. -/
def Creating (s : State) (i : ℕ) (body : CreateBody) : Prop :=
  s.requests[i]? = some (.creating body)

/-- When a `POST` counts, no other of its project is between its count and its insertion, and
the column keeps the id of the project as it is. When a `PUT` saves, its row is still there. -/
def Alone (s : State) : Label → Prop
  | .next i true _ _ =>
    match s.requests[i]? with
    | some (.counting body) =>
      (∀ p ∈ SqlText.varchar 255 body.projectID, p = body.projectID) ∧
        ∀ j body', Creating s j body' → body'.projectID ≠ body.projectID
    | some (.saving m) => s.monitors.any fun row => row.id = m.id
    | _ => True
  | _ => True

/-! ## The rows that are there and the rows that are about to be saved -/

def Request.row : Request → Option Monitor
  | .saving m => some m
  | _ => none

def known (s : State) : List Monitor := s.monitors ++ s.requests.filterMap Request.row

/-- An id is drawn once, for one project. -/
structure Inv (s : State) : Prop where
  stored : ∀ m ∈ known s, SqlText.varchar 255 m.projectID = some m.projectID
  used : ∀ m ∈ known s, m.id ∈ s.used
  same : ∀ m ∈ known s, ∀ m' ∈ known s, m.id = m'.id → m.projectID = m'.projectID

theorem inv_init : Inv {} where
  stored := List.forall_mem_nil _
  used := List.forall_mem_nil _
  same := List.forall_mem_nil _

variable {s t : State}

theorem Inv.of_subset (h : Inv s) (hknown : ∀ m ∈ known t, ∃ m' ∈ known s,
    m.id = m'.id ∧ m.projectID = m'.projectID) (hused : t.used = s.used) : Inv t := by
  refine ⟨fun m hm => ?_, fun m hm => ?_, fun m hm n hn hid => ?_⟩
  · obtain ⟨m', hm', -, hproject⟩ := hknown m hm
    rw [hproject]
    exact h.stored m' hm'
  · obtain ⟨m', hm', hid, -⟩ := hknown m hm
    rw [hid, hused]
    exact h.used m' hm'
  · obtain ⟨m', hm', hid', hproject'⟩ := hknown m hm
    obtain ⟨n', hn', hid'', hproject''⟩ := hknown n hn
    rw [hproject', hproject'']
    exact h.same m' hm' n' hn' (hid' ▸ hid'' ▸ hid)

theorem stored_eq_some {m m' : Monitor} (h : Limit.stored m = some m') :
    m'.id = m.id ∧ SqlText.varchar 255 m.projectID = some m'.projectID := by
  unfold Limit.stored at h
  simp only [Option.bind_eq_bind, Option.bind_eq_some_iff, Option.pure_def,
    Option.some.injEq] at h
  obtain ⟨projectID, hproject, name, hname, url, hurl, rfl⟩ := h
  exact ⟨rfl, hproject⟩

/-- What a repository call can be: one that writes nothing, an insertion, a save and a
deletion. -/
theorem advance_cases {ok : Bool} {id : String} {now : ℤ} {r r' : Request}
    (h : advance s ok id now r = some (r', t)) :
    (t = s ∧ ∀ m, r'.row = some m →
      ∃ m' ∈ s.monitors, m.id = m'.id ∧ m.projectID = m'.projectID) ∨
    (∃ body m, r = .creating body ∧ ok = true ∧ id ∉ s.used ∧
      stored (body.monitor id now) = some m ∧ r'.row = none ∧
      t = { s with monitors := s.monitors ++ [m], used := id :: s.used }) ∨
    (∃ m m', r = .saving m ∧ ok = true ∧ stored { m with updatedAt := now } = some m' ∧
      r'.row = none ∧ t = { s with monitors := save m' s.monitors }) ∨
    ∃ id', r'.row = none ∧ t = { s with monitors := s.monitors.filter fun m => m.id ≠ id' } := by
  have hnone {q : Request} (hrow : q.row = none) (m : Monitor) (hm : q.row = some m) :
      ∃ m' ∈ s.monitors, m.id = m'.id ∧ m.projectID = m'.projectID := by
    rw [hrow] at hm
    cases hm
  cases r with
  | counting body =>
    cases h
    refine Or.inl ⟨rfl, fun m hm => ?_⟩
    split_ifs at hm
    all_goals cases hm
  | creating body =>
    simp only [advance] at h
    split at h
    · cases h
    · rename_i hfresh
      split at h
      · rename_i m hm
        cases h
        split_ifs at hm with hok
        exact Or.inr (Or.inl ⟨body, m, rfl, hok, hfresh, hm, rfl, rfl⟩)
      · cases h
        exact Or.inl ⟨rfl, hnone rfl⟩
  | loading id' body =>
    simp only [advance] at h
    split at h
    · cases h
      exact Or.inl ⟨rfl, hnone rfl⟩
    · rename_i m hm
      split_ifs at hm
      split at h
      · cases h
        exact Or.inl ⟨rfl, hnone rfl⟩
      · cases h
        refine Or.inl ⟨rfl, fun m' hm' => ?_⟩
        cases hm'
        exact ⟨m, List.mem_of_find?_eq_some hm, rfl, rfl⟩
  | saving m =>
    simp only [advance] at h
    split at h
    · rename_i m' hm'
      cases h
      split_ifs at hm' with hok
      exact Or.inr (Or.inr (Or.inl ⟨m, m', rfl, hok, hm', rfl, rfl⟩))
    · cases h
      exact Or.inl ⟨rfl, hnone rfl⟩
  | deleting id' =>
    simp only [advance] at h
    split at h
    · cases h
      exact Or.inr (Or.inr (Or.inr ⟨id', rfl, rfl⟩))
    · cases h
      exact Or.inl ⟨rfl, hnone rfl⟩
  | answered => cases h

theorem next_cases {i : ℕ} {ok : Bool} {id : String} {now : ℤ}
    (h : step s (.next i ok id now) = some t) : ∃ r r' s', s.requests[i]? = some r ∧
      advance s ok id now r = some (r', s') ∧ t = { s' with requests := s.requests.set i r' } := by
  obtain ⟨r, hr, h⟩ := Option.bind_eq_some_iff.mp h
  obtain ⟨⟨r', s'⟩, hadvance, h⟩ := Option.bind_eq_some_iff.mp h
  cases h
  exact ⟨r, r', s', hr, hadvance, rfl⟩

theorem mem_rows_set {requests : List Request} {i : ℕ} {r : Request} {m : Monitor}
    (h : m ∈ (requests.set i r).filterMap Request.row) :
    m ∈ requests.filterMap Request.row ∨ r.row = some m := by
  obtain ⟨r', hr', hm⟩ := List.mem_filterMap.mp h
  rcases List.mem_or_eq_of_mem_set hr' with hr' | rfl
  · exact Or.inl (List.mem_filterMap.mpr ⟨r', hr', hm⟩)
  · exact Or.inr hm

theorem mem_save {m row : Monitor} {monitors : List Monitor} (h : row ∈ save m monitors) :
    row ∈ monitors ∨ row = m := by
  unfold save at h
  split at h
  · obtain ⟨row', hrow', rfl⟩ := List.mem_map.mp h
    split
    · exact Or.inr rfl
    · exact Or.inl hrow'
  · exact (List.mem_append.mp h).imp_right List.mem_singleton.mp

/-- The id of a new row is that of no other. -/
theorem Inv.insert (h : Inv s) {m : Monitor} (hfresh : m.id ∉ s.used)
    (hstored : SqlText.varchar 255 m.projectID = some m.projectID) {requests : List Request}
    (hrows : ∀ x ∈ requests.filterMap Request.row, x ∈ s.requests.filterMap Request.row) :
    Inv ⟨s.monitors ++ [m], requests, m.id :: s.used⟩ := by
  have hcases : ∀ x ∈ known ⟨s.monitors ++ [m], requests, m.id :: s.used⟩,
      x ∈ known s ∨ x = m := by
    intro x hx
    rcases List.mem_append.mp hx with hx | hx
    · exact (List.mem_append.mp hx).imp (List.mem_append_left _) List.mem_singleton.mp
    · exact Or.inl (List.mem_append_right _ (hrows x hx))
  have hne : ∀ x ∈ known s, x.id ≠ m.id := fun x hx heq => hfresh (heq ▸ h.used x hx)
  refine ⟨fun x hx => ?_, fun x hx => ?_, fun x hx y hy hxy => ?_⟩
  · rcases hcases x hx with hx | rfl
    · exact h.stored x hx
    · exact hstored
  · rcases hcases x hx with hx | rfl
    · exact List.mem_cons_of_mem _ (h.used x hx)
    · exact List.mem_cons_self
  · rcases hcases x hx with hx' | hx'
    · rcases hcases y hy with hy' | hy'
      · exact h.same x hx' y hy' hxy
      · exact absurd (hy' ▸ hxy) (hne x hx')
    · rcases hcases y hy with hy' | hy'
      · exact absurd (hx' ▸ hxy.symm) (hne y hy')
      · rw [hx', hy']

theorem inv_next {i : ℕ} {ok : Bool} {id : String} {now : ℤ} (h : Inv s)
    (hstep : step s (.next i ok id now) = some t) : Inv t := by
  obtain ⟨r, r', s', hr, hadvance, rfl⟩ := next_cases hstep
  have hold : ∀ m ∈ s.monitors, m ∈ known s := fun m hm => List.mem_append_left _ hm
  have hsaved : ∀ m ∈ s.requests.filterMap Request.row, m ∈ known s := fun m hm =>
    List.mem_append_right _ hm
  rcases advance_cases hadvance with ⟨rfl, hrow⟩ | ⟨body, m, -, -, hfresh, hm, hrow, rfl⟩ |
    ⟨m, m', rfl, -, hm', hrow, rfl⟩ | ⟨id', hrow, rfl⟩
  · refine h.of_subset (fun m hm => ?_) rfl
    rcases List.mem_append.mp hm with hm | hm
    · exact ⟨m, hold m hm, rfl, rfl⟩
    · rcases mem_rows_set hm with hm | hm
      · exact ⟨m, hsaved m hm, rfl, rfl⟩
      · obtain ⟨m', hm', hsame⟩ := hrow m hm
        exact ⟨m', hold m' hm', hsame⟩
  · obtain ⟨hid, hproject⟩ := stored_eq_some hm
    obtain rfl : m.id = id := hid
    refine h.insert hfresh (SqlText.varchar_of_varchar hproject) fun x hx => ?_
    rcases mem_rows_set hx with hx | hx
    · exact hx
    · rw [hrow] at hx
      cases hx
  · obtain ⟨hid, hproject⟩ := stored_eq_some hm'
    have hmem : m ∈ known s := hsaved m (List.mem_filterMap.mpr ⟨_, List.mem_of_getElem? hr, rfl⟩)
    have hsame : m'.projectID = m.projectID :=
      Option.some.inj (hproject.symm.trans (h.stored m hmem))
    refine h.of_subset (fun x hx => ?_) rfl
    rcases List.mem_append.mp hx with hx | hx
    · rcases mem_save hx with hx | rfl
      · exact ⟨x, hold x hx, rfl, rfl⟩
      · exact ⟨m, hmem, hid, hsame⟩
    · rcases mem_rows_set hx with hx | hx
      · exact ⟨x, hsaved x hx, rfl, rfl⟩
      · rw [hrow] at hx
        cases hx
  · refine h.of_subset (fun x hx => ?_) rfl
    rcases List.mem_append.mp hx with hx | hx
    · exact ⟨x, hold x (List.mem_filter.mp hx).1, rfl, rfl⟩
    · rcases mem_rows_set hx with hx | hx
      · exact ⟨x, hsaved x hx, rfl, rfl⟩
      · rw [hrow] at hx
        cases hx

theorem inv_receive {r : Request} (h : Inv s) (hrow : r.row = none) : Inv (s.receive r) := by
  refine h.of_subset (fun m hm => ⟨m, ?_, rfl, rfl⟩) rfl
  have hknown : known (s.receive r) = known s := by
    simp [known, State.receive, hrow]
  exact hknown ▸ hm

theorem inv_step {a : Label} (h : Inv s) (hstep : step s a = some t) : Inv t := by
  cases a with
  | post body =>
    simp only [step] at hstep
    split at hstep <;> cases hstep <;> exact inv_receive h rfl
  | put id body =>
    cases hstep
    exact inv_receive h rfl
  | delete id =>
    cases hstep
    exact inv_receive h rfl
  | next i ok id now => exact inv_next h hstep

/-! ## How many monitors a project has -/

/-- The row that a step adds is the only thing it changes in the table. -/
theorem monitors_of_inserted {a : Label} {m : Monitor} (hm : inserted s a = some m)
    (hstep : step s a = some t) : t.monitors = s.monitors ++ [m] := by
  unfold inserted at hm
  split at hm
  · rename_i i id now
    obtain ⟨r, r', s', hr, hadvance, rfl⟩ := next_cases hstep
    rw [hr] at hm
    split at hm
    · rename_i body hbody
      cases hbody
      simp only [advance, if_true, hm] at hadvance
      split at hadvance
      · cases hadvance
      · cases hadvance
        rfl
    · rename_i m₀ hm₀
      cases hm₀
      split at hm
      · cases hm
      · rename_i habsent
        simp only [advance, if_true, hm] at hadvance
        cases hadvance
        rw [← (stored_eq_some hm).1] at habsent
        exact if_neg habsent
    · cases hm
  · cases hm

theorem count_append (p : String) (monitors : List Monitor) (m : Monitor) :
    count p (monitors ++ [m]) = count p monitors + if m.projectID = p then 1 else 0 := by
  simp [count, List.countP_append, List.countP_singleton]

/-- A save of a row that is there keeps its project. -/
theorem count_save (h : Inv s) {m m' : Monitor} (hm : m ∈ known s) (hid : m'.id = m.id)
    (hstored : SqlText.varchar 255 m.projectID = some m'.projectID)
    (hpresent : (s.monitors.any fun row => row.id = m.id) = true) (p : String) :
    count p (save m' s.monitors) = count p s.monitors := by
  have hproject : m'.projectID = m.projectID :=
    Option.some.inj (hstored.symm.trans (h.stored m hm))
  rw [← hid] at hpresent
  unfold save
  rw [if_pos hpresent, count, List.countP_map]
  refine List.countP_congr fun row hrow => ?_
  simp only [Function.comp_apply]
  split
  · rename_i hrowid
    rw [hproject, h.same row (List.mem_append_left _ hrow) m hm (hrowid.trans hid)]
  · rfl

/-- A step that adds no row leaves no project with more monitors. -/
theorem count_le_of_not_inserted (h : Inv s) {a : Label} (hnone : inserted s a = none)
    (hstep : step s a = some t) (p : String) : count p t.monitors ≤ count p s.monitors := by
  cases a with
  | post body =>
    simp only [step] at hstep
    split at hstep <;> cases hstep <;> exact Nat.le_refl _
  | put id body | delete id =>
    cases hstep
    exact Nat.le_refl _
  | next i ok id now =>
    obtain ⟨r, r', s', hr, hadvance, rfl⟩ := next_cases hstep
    rcases advance_cases hadvance with ⟨rfl, -⟩ | ⟨body, m, rfl, rfl, -, hm, -, rfl⟩ |
      ⟨m, m', rfl, rfl, hm', -, rfl⟩ | ⟨id', -, rfl⟩
    · exact Nat.le_refl _
    · simp only [inserted, hr, hm] at hnone
      cases hnone
    · have hpresent : (s.monitors.any fun row => row.id = m.id) = true := by
        by_contra habsent
        simp only [inserted, hr, if_neg habsent, hm'] at hnone
        cases hnone
      have hmem : m ∈ known s :=
        List.mem_append_right _ (List.mem_filterMap.mpr ⟨_, List.mem_of_getElem? hr, rfl⟩)
      obtain ⟨hid, hproject⟩ := stored_eq_some hm'
      exact Nat.le_of_eq (count_save h hmem hid hproject hpresent p)
    · exact List.Sublist.countP_le List.filter_sublist

theorem atMostTen_step {a : Label} (h : Inv s) (hlimit : AtMostTen s) (hroom : RoomLeft s a)
    (hstep : step s a = some t) : AtMostTen t := by
  intro p
  cases hm : inserted s a with
  | none => exact Nat.le_trans (count_le_of_not_inserted h hm hstep p) (hlimit p)
  | some m =>
    rw [monitors_of_inserted hm hstep, count_append]
    split
    · rename_i hp
      exact hp ▸ hroom m hm
    · exact hlimit p

/-! ## Requests that are alone -/

theorem counting_of_creating {ok : Bool} {id : String} {now : ℤ} {r : Request} {body : CreateBody}
    (h : advance s ok id now r = some (.creating body, t)) :
    r = .counting body ∧ ok = true ∧
      count body.projectID s.monitors < maxMonitorsPerProject ∧ t = s := by
  cases r with
  | counting body' =>
    simp only [advance, Option.some.injEq, Prod.mk.injEq] at h
    obtain ⟨hr, rfl⟩ := h
    split_ifs at hr with hok hfull
    cases hr
    exact ⟨rfl, by simpa using hok, Nat.lt_of_not_le hfull, rfl⟩
  | creating | loading | saving | deleting =>
    simp only [advance] at h
    repeat' split at h
    all_goals cases h
  | answered => cases h

/-- What a `POST` has counted is still so when it inserts. -/
def Guarded (s : State) : Prop :=
  ∀ i body, Creating s i body →
    (∀ p ∈ SqlText.varchar 255 body.projectID, p = body.projectID) ∧
    count body.projectID s.monitors < maxMonitorsPerProject ∧
    ∀ j body', Creating s j body' → body'.projectID = body.projectID → j = i

theorem Guarded.receive (h : Guarded s) {r : Request} (hr : ∀ body, r ≠ .creating body) :
    Guarded (s.receive r) := by
  have hold : ∀ i body, Creating (s.receive r) i body → Creating s i body := by
    intro i body hbody
    simp only [Creating, State.receive, List.getElem?_append, List.getElem?_singleton] at hbody
    split_ifs at hbody
    · exact hbody
    · exact absurd (Option.some.inj hbody) (hr body)
  intro i body hbody
  obtain ⟨hproject, hcount, hone⟩ := h i body (hold i body hbody)
  exact ⟨hproject, hcount, fun j body' hbody' => hone j body' (hold j body' hbody')⟩

theorem creating_set {s' : State} {i j : ℕ} {r : Request} {body : CreateBody}
    (h : Creating { s' with requests := s.requests.set i r } j body) :
    (i = j ∧ r = .creating body) ∨ (i ≠ j ∧ Creating s j body) := by
  simp only [Creating, List.getElem?_set] at h
  split_ifs at h with hij
  · exact Or.inl ⟨hij, Option.some.inj h⟩
  · exact Or.inr ⟨hij, h⟩

theorem creating_of_inserted {i : ℕ} {ok : Bool} {id : String} {now : ℤ} {m : Monitor}
    (h : Guarded s) (halone : Alone s (.next i ok id now))
    (hm : inserted s (.next i ok id now) = some m) :
    ∃ body, Creating s i body ∧ m.projectID = body.projectID := by
  cases ok with
  | false => cases hm
  | true =>
    simp only [inserted] at hm
    split at hm
    · rename_i body hbody
      exact ⟨body, hbody, (h i body hbody).1 _ (stored_eq_some hm).2⟩
    · rename_i m₀ hm₀
      simp only [Alone, hm₀] at halone
      rw [if_pos halone] at hm
      cases hm
    · cases hm

theorem roomLeft_of_alone {a : Label} (h : Guarded s) (halone : Alone s a) : RoomLeft s a := by
  intro m hm
  cases a with
  | post | put | delete => cases hm
  | next i ok id now =>
    obtain ⟨body, hbody, hproject⟩ := creating_of_inserted h halone hm
    rw [hproject]
    exact (h i body hbody).2.1

/-- A request that now knows its count is the only one of its project. -/
theorem guarded_count {i : ℕ} {id : String} {now : ℤ} {body : CreateBody} (h : Guarded s)
    (hr : s.requests[i]? = some (.counting body)) (halone : Alone s (.next i true id now))
    (hcount : count body.projectID s.monitors < maxMonitorsPerProject) :
    Guarded { s with requests := s.requests.set i (.creating body) } := by
  simp only [Alone, hr] at halone
  obtain ⟨hproject, hothers⟩ := halone
  intro j body' hbody'
  rcases creating_set hbody' with ⟨rfl, heq⟩ | ⟨-, hbody'⟩
  · cases heq
    refine ⟨hproject, hcount, fun k body'' hbody'' hsame => ?_⟩
    rcases creating_set hbody'' with ⟨rfl, -⟩ | ⟨-, hbody''⟩
    · rfl
    · exact absurd hsame (hothers k body'' hbody'')
  · obtain ⟨hproject', hcount', hone⟩ := h j body' hbody'
    refine ⟨hproject', hcount', fun k body'' hbody'' hsame => ?_⟩
    rcases creating_set hbody'' with ⟨rfl, heq⟩ | ⟨-, hbody''⟩
    · cases heq
      exact absurd hsame.symm (hothers j body' hbody')
    · exact hone k body'' hbody'' hsame

/-- The others see no insertion in their projects. -/
theorem count_le_of_alone {i j : ℕ} {ok : Bool} {id : String} {now : ℤ} {body : CreateBody}
    (hinv : Inv s) (h : Guarded s) (halone : Alone s (.next i ok id now))
    (hstep : step s (.next i ok id now) = some t) (hbody : Creating s j body) (hij : i ≠ j) :
    count body.projectID t.monitors ≤ count body.projectID s.monitors := by
  cases hm : inserted s (.next i ok id now) with
  | none => exact count_le_of_not_inserted hinv hm hstep _
  | some m =>
    obtain ⟨body', hbody', hproject⟩ := creating_of_inserted h halone hm
    have hne : m.projectID ≠ body.projectID := by
      rw [hproject]
      exact fun hsame => hij ((h j body hbody).2.2 i body' hbody' hsame)
    rw [monitors_of_inserted hm hstep, count_append, if_neg hne]
    exact Nat.le_refl _

theorem guarded_step {a : Label} (hinv : Inv s) (h : Guarded s) (halone : Alone s a)
    (hstep : step s a = some t) : Guarded t := by
  cases a with
  | post body =>
    simp only [step] at hstep
    split at hstep <;> cases hstep <;> exact h.receive nofun
  | put id body =>
    cases hstep
    exact h.receive nofun
  | delete id =>
    cases hstep
    exact h.receive nofun
  | next i ok id now =>
    obtain ⟨r, r', s', hr, hadvance, rfl⟩ := next_cases hstep
    by_cases hcreating : ∃ body, r' = .creating body
    · obtain ⟨body, rfl⟩ := hcreating
      obtain ⟨rfl, rfl, hcount, rfl⟩ := counting_of_creating hadvance
      exact guarded_count h hr halone hcount
    · have hold : ∀ j body, Creating { s' with requests := s.requests.set i r' } j body →
          i ≠ j ∧ Creating s j body := by
        intro j body hbody
        rcases creating_set hbody with ⟨-, hr'⟩ | hbody
        · exact absurd ⟨body, hr'⟩ hcreating
        · exact hbody
      intro j body hbody
      obtain ⟨hij, hbody⟩ := hold j body hbody
      obtain ⟨hproject, hcount, hone⟩ := h j body hbody
      exact ⟨hproject,
        Nat.lt_of_le_of_lt (count_le_of_alone hinv h halone hstep hbody hij) hcount,
        fun k body' hbody' => hone k body' (hold k body' hbody').2⟩

/-! ## The limit, in every run -/

/-- The limit holds in every state of a run exactly when every row that was added found room
in its project. It does when no two requests of a project are about to insert at once and
no row goes that is about to be saved. -/
theorem at_most_ten_iff (as : List Label) :
    (Runs.Along step (fun _ _ t => AtMostTen t) {} as ↔ Runs.Meets step RoomLeft {} as) ∧
      (Runs.Meets step Alone {} as → Runs.Meets step RoomLeft {} as) := by
  constructor
  · refine Runs.along_iff_meets (I := fun s => Inv s ∧ AtMostTen s) ?_ ?_
      ⟨inv_init, fun _ => Nat.zero_le _⟩ as
    · rintro s a t ⟨hinv, hlimit⟩ hroom hstep
      have ht := atMostTen_step hinv hlimit hroom hstep
      exact ⟨⟨inv_step hinv hstep, ht⟩, ht⟩
    · rintro s a t ⟨hinv, hlimit⟩ hroom hstep ht
      simp only [RoomLeft, not_forall, Nat.not_lt] at hroom
      obtain ⟨m, hm, hfull⟩ := hroom
      have hten := ht m.projectID
      rw [monitors_of_inserted hm hstep, count_append, if_pos rfl] at hten
      omega
  · refine Runs.along_of_meets (I := fun s => Inv s ∧ Guarded s) ?_ ⟨inv_init, nofun⟩
    rintro s a t ⟨hinv, hguarded⟩ halone hstep
    exact ⟨⟨inv_step hinv hstep, guarded_step hinv hguarded halone hstep⟩,
      roomLeft_of_alone hguarded halone⟩

def shopSite : CreateBody where
  projectID := "shop"
  name := "site"
  url := "https://shop"

/-- Nine requests one after the other, and two that both count nine. -/
def twoAtOnce : List Label :=
  ((List.range 9).flatMap fun i =>
    [.post (some shopSite), .next i true "" 0, .next i true (toString i) 0]) ++
  [.post (some shopSite), .post (some shopSite), .next 9 true "" 0, .next 10 true "" 0,
    .next 9 true "9" 0, .next 10 true "10" 0]

theorem eleven_monitors :
    ∃ as t, Runs.run step {} as = some t ∧ maxMonitorsPerProject < count "shop" t.monitors := by
  have hcount : (Runs.run step {} twoAtOnce).map (fun t => count "shop" t.monitors) = some 11 :=
    rfl
  obtain ⟨t, hrun, ht⟩ := Option.map_eq_some_iff.mp hcount
  exact ⟨twoAtOnce, t, hrun, by rw [ht]; decide⟩

end BatAudit.Healthcheck.Limit
