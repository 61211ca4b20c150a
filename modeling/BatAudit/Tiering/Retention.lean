import BatAudit.Tiering.RawToHourly
import BatAudit.Tiering.Schedule

/-!
# How long raw events are kept

`Scheduler.Start` and `Job.Run` with the clock. A cycle tiers the raw events and then the hourly
summaries, statement by statement, while events go on being stored. A statement may fail, which
has no effect and does not end the cycle. The process reads its clock in nanoseconds, and the
tables hold microseconds.
-/

namespace BatAudit.Tiering.Retention

open Calendar (AtHour)
open RawToHourly (tierable)

/-- `AddDate(0, 0, days)`, in UTC. -/
def addDate (t days : ℤ) : ℤ :=
  let d := Calendar.dateOf t
  let c := Calendar.clockOf t
  Calendar.date d.year d.month (d.day + days) c.hour c.minute c.second c.nanosecond

/-- What the statements are given: the instant so many days ago. -/
def cutoff (now days : ℤ) : ℤ := addDate now (-days) / 1000

theorem addDate_eq (t days : ℤ) : addDate t days = t + days * Calendar.day := by
  obtain ⟨⟨hone, htwelve⟩, -⟩ := (Calendar.dateOf t).valid
  have hover : ((Calendar.dateOf t).month - 1 : ℤ) / 12 = 0 := by omega
  have hmonth : (((Calendar.dateOf t).month - 1 : ℤ) % 12).toNat + 1 =
      (Calendar.dateOf t).month := by omega
  have hday : Calendar.yearStart (Calendar.dateOf t).year +
      Calendar.daysBefore (Calendar.dateOf t).year (Calendar.dateOf t).month +
      (Calendar.dateOf t).day - 1 = t / Calendar.day := Calendar.toDay_ofDay (t / Calendar.day)
  have hdays : Calendar.yearStart (Calendar.dateOf t).year +
      Calendar.daysBefore (Calendar.dateOf t).year (Calendar.dateOf t).month +
      ((Calendar.dateOf t).day + days) - 1 = t / Calendar.day + days := by omega
  simp only [addDate, Calendar.date, Calendar.clockOf, hover, hmonth, add_zero, hdays]
  simp only [Calendar.day, Calendar.hour, Calendar.minute, Calendar.second]
  omega

theorem cutoff_mono {now later days : ℤ} (h : now ≤ later) : cutoff now days ≤ cutoff later days := by
  simp only [cutoff, addDate_eq]
  omega

/-- A raw event and when it was stored. -/
structure Arrival where
  storedAt : ℤ
  row : AuditRow

/-- Where `Start` is. Waiting it knows since when, in a cycle when that began. -/
inductive Phase
  | waiting (since next : ℤ)
  | insertRaw (start : ℤ)
  | deleteRaw (start : ℤ)
  | checkContext
  | insertDaily (cutoff : ℤ)
  | deleteDaily (cutoff : ℤ)
  | stopped
deriving DecidableEq

def Phase.start : Phase → Option ℤ
  | .insertRaw start | .deleteRaw start => some start
  | _ => none

/-- A DELETE of raw events: when its cycle began, and how many had arrived before it. -/
structure Sweep where
  start : ℤ
  arrivals : ℕ

/-- What has arrived and the last sweep are kept, and when the last cycle began. -/
structure State where
  now : ℤ
  phase : Phase
  cancelled : Bool := false
  arrived : List Arrival := []
  audits : List Arrival := []
  summaries : List AuditSummary := []
  swept : Option Sweep := none
  lastStart : Option ℤ := none

inductive Label
  | pass (later : ℤ)
  | store (row : AuditRow)
  | cancel
  | stop
  | wake
  | insertRaw (ok : Bool)
  | deleteRaw (ok : Bool)
  | checkContext
  | insertDaily (ok : Bool)
  | deleteDaily (ok : Bool)

variable (sch : Scheduler)

namespace State

def rows (s : State) : List AuditRow := s.audits.map Arrival.row

/-- The top of the loop. -/
def await (s : State) : State := { s with phase := .waiting s.now (sch.nextRun s.now) }

def store (s : State) (row : AuditRow) : State :=
  { s with
    arrived := s.arrived ++ [⟨s.now, row⟩]
    audits := s.audits ++ [⟨s.now, row⟩] }

def sweep (s : State) (start : ℤ) : State :=
  { s with
    audits := s.audits.filter fun a => !rawSelected (cutoff start sch.job.rawDays) a.row
    swept := some ⟨start, s.arrived.length⟩
    phase := .checkContext }

end State

def start (now : ℤ) : State := { now := now, phase := .waiting now (sch.nextRun now) }

def step (s : State) : Label → Option State
  | .pass later => if s.now ≤ later then some { s with now := later } else none
  | .store row => some (s.store row)
  | .cancel => some { s with cancelled := true }
  | .stop =>
    match s.phase with
    | .waiting _ _ => if s.cancelled then some { s with phase := .stopped } else none
    | _ => none
  | .wake =>
    match s.phase with
    | .waiting _ next =>
      if next ≤ s.now then some { s with phase := .insertRaw s.now, lastStart := some s.now }
      else none
    | _ => none
  | .insertRaw ok =>
    match s.phase with
    | .insertRaw start =>
      match ok, insertHourly (cutoff start sch.job.rawDays) s.rows s.summaries with
      | true, .ok summaries => some { s with summaries := summaries, phase := .deleteRaw start }
      | _, _ => some { s with phase := .checkContext }
    | _ => none
  | .deleteRaw ok =>
    match s.phase with
    | .deleteRaw start =>
      some (if ok then s.sweep sch start else { s with phase := .checkContext })
    | _ => none
  | .checkContext =>
    match s.phase with
    | .checkContext =>
      some (if s.cancelled then s.await sch
        else { s with phase := .insertDaily (cutoff s.now sch.job.hourlyDays) })
    | _ => none
  | .insertDaily ok =>
    match s.phase with
    | .insertDaily c =>
      match ok, Tiering.insertDaily c s.summaries with
      | true, .ok summaries => some { s with summaries := summaries, phase := .deleteDaily c }
      | _, _ => some (s.await sch)
    | _ => none
  | .deleteDaily ok =>
    match s.phase with
    | .deleteDaily c =>
      some ((if ok then { s with summaries := deleteHourly c s.summaries } else s).await sch)
    | _ => none

/-- The statements on raw events go through, for which their service names have to be short. -/
def Succeeds (s : State) : Label → Prop
  | .insertRaw ok =>
    ok = true ∧ ∀ a ∈ s.audits, tierable a.row = true → a.row.serviceName.length ≤ 100
  | .deleteRaw ok => ok = true
  | _ => True

instance (s : State) : ∀ a : Label, Decidable (Succeeds s a)
  | .insertRaw _ => inferInstanceAs (Decidable (_ ∧ ∀ a ∈ s.audits, _ → _))
  | .deleteRaw _ => inferInstanceAs (Decidable (_ = true))
  | .pass _ | .store _ | .cancel | .stop | .wake | .checkContext | .insertDaily _
  | .deleteDaily _ => inferInstanceAs (Decidable True)

/-! ## What a step can do -/

variable {sch} {s t : State} {a : Label}

theorem exists_insertHourly {c : ℤ} {rows : List AuditRow} (summaries : List AuditSummary)
    (h : ∀ r ∈ rows, tierable r = true → r.serviceName.length ≤ 100) :
    ∃ new, insertHourly c rows summaries = .ok new := by
  have hall : ((hourlySummaries c rows).all fun x => x.serviceName.length ≤ 100) = true := by
    refine List.all_eq_true.mpr fun x hx => decide_eq_true ?_
    obtain ⟨r, hr, hsel, hkey⟩ := RawToHourly.mem_key_hourlySummaries.mp (List.mem_map_of_mem hx)
    have hname : r.serviceName = x.serviceName := congrArg SummaryKey.serviceName hkey
    rw [RawToHourly.rawSelected_eq, Bool.and_eq_true] at hsel
    rw [← hname]
    exact h r hr hsel.2
  rw [insertHourly, if_pos hall]
  exact ⟨_, rfl⟩

/-- Nothing but the phase differs, the summaries and whether the worker is to stop. -/
structure Same (s t : State) : Prop where
  now : t.now = s.now
  arrived : t.arrived = s.arrived
  audits : t.audits = s.audits
  swept : t.swept = s.swept
  lastStart : t.lastStart = s.lastStart

inductive Moves (sch : Scheduler) (s : State) (a : Label) : State → Prop
  | pass {later : ℤ} (h : s.now ≤ later) : Moves sch s a { s with now := later }
  | store (row : AuditRow) : Moves sch s a (s.store row)
  | wake {since next : ℤ} (hphase : s.phase = .waiting since next) (hnext : next ≤ s.now) :
      Moves sch s a { s with phase := .insertRaw s.now, lastStart := some s.now }
  | sweep {start : ℤ} (hphase : s.phase = .deleteRaw start) : Moves sch s a (s.sweep sch start)
  | fail (hbad : ¬ Succeeds s a) : Moves sch s a { s with phase := .checkContext }
  | other {t : State} (hsame : Same s t) (hstart : t.phase.start = s.phase.start)
      (hwait : ∀ since next, t.phase = .waiting since next → s.phase = .waiting since next ∨
        since = s.now ∧ next = sch.nextRun s.now) : Moves sch s a t

theorem moves_await (hsame : Same s t) (hstart : s.phase.start = none) :
    Moves sch s a (t.await sch) := by
  refine .other ⟨hsame.now, hsame.arrived, hsame.audits, hsame.swept, hsame.lastStart⟩
    hstart.symm fun since next h => Or.inr ?_
  obtain ⟨rfl, rfl⟩ := Phase.waiting.inj h
  rw [hsame.now]
  exact ⟨rfl, rfl⟩

theorem Same.refl (s : State) : Same s s := ⟨rfl, rfl, rfl, rfl, rfl⟩

theorem moves (h : step sch s a = some t) : Moves sch s a t := by
  cases a with
  | pass later =>
    simp only [step] at h
    split_ifs at h with hle
    obtain rfl := Option.some.inj h
    exact .pass hle
  | store row =>
    obtain rfl := Option.some.inj h
    exact .store row
  | cancel =>
    obtain rfl := Option.some.inj h
    exact .other ⟨rfl, rfl, rfl, rfl, rfl⟩ rfl fun _ _ h => Or.inl h
  | stop =>
    simp only [step] at h
    split at h
    · rename_i hphase
      split_ifs at h
      obtain rfl := Option.some.inj h
      exact .other ⟨rfl, rfl, rfl, rfl, rfl⟩ (by rw [hphase]; rfl) fun _ _ h => by cases h
    · cases h
  | wake =>
    simp only [step] at h
    split at h
    · rename_i hphase
      split_ifs at h with hnext
      obtain rfl := Option.some.inj h
      exact .wake hphase hnext
    · cases h
  | insertRaw ok =>
    simp only [step] at h
    split at h
    · rename_i start hphase
      split at h
      · obtain rfl := Option.some.inj h
        exact .other ⟨rfl, rfl, rfl, rfl, rfl⟩ (by rw [hphase]; rfl) fun _ _ h => by cases h
      · rename_i hfails
        obtain rfl := Option.some.inj h
        refine .fail fun hok => ?_
        have hshort : ∀ r ∈ s.rows, tierable r = true → r.serviceName.length ≤ 100 := by
          intro r hr htier
          obtain ⟨x, hx, rfl⟩ := List.mem_map.mp hr
          exact hok.2 x hx htier
        obtain ⟨new, hnew⟩ :=
          exists_insertHourly (c := cutoff start sch.job.rawDays) s.summaries hshort
        exact hfails new hok.1 hnew
    · cases h
  | deleteRaw ok =>
    simp only [step] at h
    split at h
    · rename_i start hphase
      obtain rfl := Option.some.inj h
      cases ok with
      | true => exact .sweep hphase
      | false => exact .fail Bool.false_ne_true
    · cases h
  | checkContext =>
    simp only [step] at h
    split at h
    · rename_i hphase
      obtain rfl := Option.some.inj h
      split_ifs
      · exact moves_await (Same.refl s) (by rw [hphase]; rfl)
      · exact .other ⟨rfl, rfl, rfl, rfl, rfl⟩ (by rw [hphase]; rfl) fun _ _ h => by cases h
    · cases h
  | insertDaily ok =>
    simp only [step] at h
    split at h
    · rename_i c hphase
      split at h
      · obtain rfl := Option.some.inj h
        exact .other ⟨rfl, rfl, rfl, rfl, rfl⟩ (by rw [hphase]; rfl) fun _ _ h => by cases h
      · obtain rfl := Option.some.inj h
        exact moves_await (Same.refl s) (by rw [hphase]; rfl)
    · cases h
  | deleteDaily ok =>
    simp only [step] at h
    split at h
    · rename_i c hphase
      obtain rfl := Option.some.inj h
      refine moves_await ?_ (by rw [hphase]; rfl)
      cases ok with
      | true => exact ⟨rfl, rfl, rfl, rfl, rfl⟩
      | false => exact Same.refl s
    · cases h

/-! ## Every run -/

/-- What the last sweep leaves of what arrived. -/
def kept (rawDays : ℤ) (arrived : List Arrival) : Option Sweep → List Arrival
  | none => arrived
  | some w => (arrived.take w.arrivals).filter
      (fun x => !rawSelected (cutoff w.start rawDays) x.row) ++ arrived.drop w.arrivals

structure Inv (sch : Scheduler) (s : State) : Prop where
  arrived : ∀ x ∈ s.arrived, x.storedAt ≤ s.now
  table : s.audits = kept sch.job.rawDays s.arrived s.swept
  swept : ∀ w ∈ s.swept, w.start ≤ s.now ∧ w.arrivals ≤ s.arrived.length ∧
    ∀ x ∈ s.arrived.drop w.arrivals, w.start ≤ x.storedAt
  running : ∀ start ∈ s.phase.start, start ≤ s.now ∧ ∀ w ∈ s.swept, w.start ≤ start
  lastStart : ∀ start ∈ s.lastStart, start ≤ s.now
  waiting : ∀ since next, s.phase = .waiting since next → since ≤ s.now ∧
    next = sch.nextRun since ∧ ∀ start ∈ s.lastStart, start ≤ since

theorem inv_start (sch : Scheduler) (now : ℤ) : Inv sch (start sch now) where
  arrived x hx := absurd hx List.not_mem_nil
  table := rfl
  swept w hw := by cases hw
  running w hw := by cases hw
  lastStart w hw := by cases hw
  waiting since next h := by
    obtain ⟨rfl, rfl⟩ := Phase.waiting.inj h
    exact ⟨le_refl _, rfl, fun w hw => by cases hw⟩

/-- Cutoffs do not go back, so that a sweep leaves of the table what it leaves of everything. -/
theorem kept_sweep {rawDays from_ : ℤ} {arrived : List Arrival} {swept : Option Sweep}
    (h : ∀ w ∈ swept, w.start ≤ from_) :
    (kept rawDays arrived swept).filter (fun x => !rawSelected (cutoff from_ rawDays) x.row) =
      kept rawDays arrived (some ⟨from_, arrived.length⟩) := by
  simp only [kept, List.take_length, List.drop_length, List.append_nil]
  cases swept with
  | none => rfl
  | some w =>
    have hmono : cutoff w.start rawDays ≤ cutoff from_ rawDays := cutoff_mono (h w rfl)
    have hboth : ∀ x : Arrival, ((!rawSelected (cutoff from_ rawDays) x.row) &&
        !rawSelected (cutoff w.start rawDays) x.row) =
          !rawSelected (cutoff from_ rawDays) x.row := by
      intro x
      cases hold : rawSelected (cutoff w.start rawDays) x.row with
      | false => rw [Bool.not_false, Bool.and_true]
      | true =>
        have hnew : rawSelected (cutoff from_ rawDays) x.row = true := by
          rw [rawSelected_iff] at hold ⊢
          exact ⟨by omega, hold.2⟩
        rw [hnew]
        rfl
    conv_rhs => rw [← List.take_append_drop w.arrivals arrived]
    simp only [List.filter_append, List.filter_filter, hboth]

theorem inv_store (h : Inv sch s) (row : AuditRow) : Inv sch (s.store row) := by
  refine ⟨?_, ?_, ?_, h.running, h.lastStart, h.waiting⟩
  · intro x hx
    rcases List.mem_append.mp hx with hx | hx
    · exact h.arrived x hx
    · rw [List.mem_singleton.mp hx]
      exact le_refl _
  · change s.audits ++ _ = kept _ (s.arrived ++ _) s.swept
    rw [h.table]
    cases hw : s.swept with
    | none => rfl
    | some w =>
      have hle := (h.swept w hw).2.1
      simp only [kept, List.take_append_of_le_length hle, List.drop_append_of_le_length hle,
        List.append_assoc]
  · intro w hw
    obtain ⟨hstart, hle, hlater⟩ := h.swept w hw
    refine ⟨hstart, ?_, fun x hx => ?_⟩
    · change w.arrivals ≤ (s.arrived ++ _).length
      rw [List.length_append]
      omega
    · change x ∈ (s.arrived ++ _).drop w.arrivals at hx
      rw [List.drop_append_of_le_length hle] at hx
      rcases List.mem_append.mp hx with hx | hx
      · exact hlater x hx
      · rw [List.mem_singleton.mp hx]
        exact hstart

theorem inv_step (h : Inv sch s) (hstep : step sch s a = some t) : Inv sch t := by
  cases moves hstep with
  | pass hle =>
    refine ⟨fun x hx => (h.arrived x hx).trans hle, h.table, fun w hw => ?_, fun start hs => ?_,
      fun start hs => (h.lastStart start hs).trans hle, fun since next hs => ?_⟩
    · exact ⟨(h.swept w hw).1.trans hle, (h.swept w hw).2⟩
    · exact ⟨(h.running start hs).1.trans hle, (h.running start hs).2⟩
    · exact ⟨(h.waiting since next hs).1.trans hle, (h.waiting since next hs).2⟩
  | store row => exact inv_store h row
  | wake hphase hnext =>
    refine ⟨h.arrived, h.table, h.swept, fun start hs => ?_, fun start hs => ?_, fun _ _ hs => ?_⟩
    · obtain rfl := Option.some.inj hs
      exact ⟨le_refl _, fun w hw => (h.swept w hw).1⟩
    · obtain rfl := Option.some.inj hs
      exact le_refl _
    · cases hs
  | sweep hphase =>
    rename_i start
    have hrunning := h.running start (by rw [hphase]; rfl)
    refine ⟨h.arrived, ?_, fun w hw => ?_, (fun _ hs => by cases hs), h.lastStart,
      fun _ _ hs => by cases hs⟩
    · change s.audits.filter _ = _
      rw [h.table]
      exact kept_sweep hrunning.2
    · obtain rfl := Option.some.inj hw
      refine ⟨hrunning.1, le_refl _, fun x hx => ?_⟩
      change x ∈ s.arrived.drop s.arrived.length at hx
      rw [List.drop_length] at hx
      cases hx
  | fail hbad =>
    exact ⟨h.arrived, h.table, h.swept, (fun _ hs => by cases hs), h.lastStart,
      fun _ _ hs => by cases hs⟩
  | other hsame hstart hwait =>
    obtain ⟨hnow, harrived, haudits, hswept, hlast⟩ := hsame
    refine ⟨?_, ?_, ?_, ?_, ?_, fun since next hs => ?_⟩
    · rw [harrived, hnow]
      exact h.arrived
    · rw [haudits, harrived, hswept]
      exact h.table
    · rw [hswept, harrived, hnow]
      exact h.swept
    · rw [hstart, hswept, hnow]
      exact h.running
    · rw [hlast, hnow]
      exact h.lastStart
    · rw [hlast, hnow]
      rcases hwait since next hs with hs | ⟨rfl, rfl⟩
      · exact h.waiting since next hs
      · exact ⟨le_refl _, rfl, h.lastStart⟩

/-- Out of a cycle, the last one has swept. -/
def Swept (s : State) : Prop :=
  match s.phase.start with
  | some start => s.lastStart = some start
  | none => s.swept.map Sweep.start = s.lastStart

theorem swept_step (h : Swept s) (hok : Succeeds s a) (hstep : step sch s a = some t) :
    Swept t := by
  cases moves hstep with
  | pass | store => exact h
  | wake => rfl
  | sweep hphase =>
    rw [Swept, hphase] at h
    exact h.symm
  | fail hbad => exact absurd hok hbad
  | other hsame hstart =>
    rw [Swept, hstart, hsame.lastStart, hsame.swept]
    exact h

theorem old_of_rawSelected {from_ rawDays : ℤ} {r : AuditRow}
    (h : rawSelected (cutoff from_ rawDays) r = true) :
    tierable r = true ∧ 1000 * r.timestamp < from_ - rawDays * Calendar.day := by
  rw [RawToHourly.rawSelected_eq, Bool.and_eq_true, decide_eq_true_eq] at h
  refine ⟨h.2, ?_⟩
  have hlt := h.1
  rw [cutoff, addDate_eq, neg_mul] at hlt
  omega

theorem young_of_not_rawSelected {from_ rawDays : ℤ} {r : AuditRow} (htier : tierable r = true)
    (h : rawSelected (cutoff from_ rawDays) r = false) :
    from_ - rawDays * Calendar.day - 1000 < 1000 * r.timestamp := by
  rw [RawToHourly.rawSelected_eq, htier, Bool.and_true, decide_eq_false_iff_not, cutoff,
    addDate_eq, neg_mul] at h
  omega

/-- In every run, nothing is deleted that is not a typed event of a project older than the days
raw events are kept; and while the next cycle is awaited, the statements having succeeded, such
an event is either younger than these days, one more and the time the last cycle took, or was
stored after that cycle began. -/
theorem retention {now : ℤ} {as : List Label} (h0 : 0 ≤ sch.hour) (h24 : sch.hour < 24)
    (h : Runs.run (step sch) (start sch now) as = some s) :
    (∀ x ∈ s.arrived, x ∉ s.audits →
      tierable x.row = true ∧ 1000 * x.row.timestamp < s.now - sch.job.rawDays * Calendar.day) ∧
    ∀ since next began, s.phase = .waiting since next → s.lastStart = some began →
      Runs.Meets (step sch) Succeeds (start sch now) as → s.now ≤ next →
      ∀ x ∈ s.audits, tierable x.row = true → began ≤ x.storedAt ∨
        s.now - 1000 * x.row.timestamp <
          (sch.job.rawDays + 1) * Calendar.day + (since - began) + 1000 := by
  have hinv : Inv sch s := Runs.run_invariant (fun _ _ _ h hstep => inv_step h hstep)
    (inv_start sch now) h
  constructor
  · intro x hx hgone
    rw [hinv.table] at hgone
    cases hw : s.swept with
    | none =>
      rw [hw] at hgone
      exact absurd hx hgone
    | some w =>
      rw [hw, kept, List.mem_append, not_or] at hgone
      rw [← List.take_append_drop w.arrivals s.arrived] at hx
      have hfirst := (List.mem_append.mp hx).resolve_right hgone.2
      have hsel : rawSelected (cutoff w.start sch.job.rawDays) x.row = true := by
        by_contra hnot
        exact hgone.1 (List.mem_filter.mpr ⟨hfirst, by simpa using hnot⟩)
      obtain ⟨htier, hold⟩ := old_of_rawSelected hsel
      have hle := (hinv.swept w hw).1
      exact ⟨htier, by omega⟩
  · intro since next began hphase hbegan hmeets hnext x hx htier
    have hswept : Swept s := Runs.run_invariant_of_meets
      (fun _ _ _ h hok hstep => swept_step h hok hstep)
      (show Swept (start sch now) from rfl) hmeets h
    rw [Swept, hphase] at hswept
    obtain ⟨w, hw, hstart⟩ := Option.map_eq_some_iff.mp (hswept.trans hbegan)
    rw [hinv.table, hw, kept] at hx
    rcases List.mem_append.mp hx with hx | hx
    · obtain ⟨-, hnot⟩ := List.mem_filter.mp hx
      have hyoung := young_of_not_rawSelected htier ((Bool.not_eq_true' _).mp hnot)
      obtain ⟨-, hrun, -⟩ := hinv.waiting since next hphase
      have hday : next ≤ since + Calendar.day := by
        rw [hrun, Scheduler.nextRun, Calendar.date_dateOf]
        have hmod := Int.emod_nonneg since (by decide : Calendar.day ≠ 0)
        have hdiv := Int.emod_add_mul_ediv since Calendar.day
        simp only [Calendar.day, Calendar.hour, Calendar.minute, Calendar.second] at *
        split_ifs <;> omega
      right
      rw [add_mul, one_mul]
      omega
    · exact Or.inl (hstart ▸ (hinv.swept w hw).2.2 x hx)

/-- Raw events are kept for a day, and tiered at two o'clock. -/
def daily : Scheduler := ⟨⟨1, 365⟩, 2⟩

/-- One event before the first cycle, one after it, and a second cycle. -/
def twoCycles : List Label :=
  let event (id : String) (timestamp : ℤ) : AuditRow :=
    { id, timestamp, serviceName := "api", projectId := some "p" }
  let cycle : List Label := [.wake, .insertRaw true, .deleteRaw true, .checkContext,
    .insertDaily true, .deleteDaily true]
  [.store (event "a" 0), .pass (2 * Calendar.hour)] ++ cycle ++
    [.pass (3 * Calendar.hour), .store (event "b" (3 * hourLength)),
      .pass (26 * Calendar.hour)] ++ cycle ++ [.pass (50 * Calendar.hour)]

theorem older_event_tiered :
    ∃ s, Runs.run (step daily) (start daily 0) twoCycles = some s ∧ s.arrived.length = 2 ∧
      s.audits.length = 1 ∧ ∀ x ∈ s.audits, tierable x.row = true →
        26 * Calendar.hour ≤ x.storedAt ∨
          s.now - 1000 * x.row.timestamp < 2 * Calendar.day + 1000 := by
  have hrun : (Runs.run (step daily) (start daily 0) twoCycles).map
      (fun s => (s.phase, s.lastStart, s.now, s.arrived.length, s.audits.length)) =
        some (.waiting (26 * Calendar.hour) (50 * Calendar.hour), some (26 * Calendar.hour),
          50 * Calendar.hour, 2, 1) := rfl
  obtain ⟨s, hs, heq⟩ := Option.map_eq_some_iff.mp hrun
  simp only [Prod.mk.injEq] at heq
  obtain ⟨hphase, hlast, hnow, harrived, haudits⟩ := heq
  have hkept := (retention (by decide) (by decide) hs).2 _ _ _ hphase hlast (by decide +kernel)
    (le_of_eq hnow)
  refine ⟨s, hs, harrived, haudits, fun x hx htier => (hkept x hx htier).imp_right fun h => ?_⟩
  exact lt_of_lt_of_eq h (by rw [sub_self, add_zero]; rfl)

end BatAudit.Tiering.Retention
