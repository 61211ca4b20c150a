import BatAudit.Lib.Runs
import BatAudit.Tiering.Model

/-!
# Raw-to-hourly tiering over whole runs

Events arrive at any moment while calls of `AggregateRawToHourly` are made one
after the other, with cutoffs that never decrease; a call can fail at either of
its two statements. Every event carries the number of its arrival, which no
statement reads, and the state remembers which `INSERT` wrote the summary row of
a key. An event is counted when its arrival and its timestamp precede that
`INSERT`. A `DELETE` that removes an uncounted event loses it, and nothing else
does.
-/

namespace BatAudit.Tiering.RawToHourly

abbrev Event := ℕ × AuditRow

/-- The `INSERT` that created a summary row: its cutoff, and how many events had
arrived before it. -/
structure Writing where
  cutoff : ℤ
  arrivals : ℕ

structure State where
  audits : List Event := []
  summaries : List AuditSummary := []
  arrived : List Event := []
  written : SummaryKey → Option Writing := fun _ => none
  inserted : Option ℤ := none
  lastCutoff : Option ℤ := none

inductive Label
  | insertEvent (row : AuditRow)
  | aggregateInsert (cutoff : ℤ)
  | aggregateInsertFails (cutoff : ℤ)
  | aggregateDelete
  | aggregateDeleteFails
deriving DecidableEq

namespace State

def rows (s : State) : List AuditRow := s.audits.map Prod.snd

/-- A new call may start: none is running, and its cutoff is not before the last one. -/
def mayCall (s : State) (cutoff : ℤ) : Bool :=
  s.inserted.isNone && s.lastCutoff.all (· ≤ cutoff)

def insertEvent (s : State) (row : AuditRow) : State :=
  { s with
    audits := s.audits ++ [(s.arrived.length, row)]
    arrived := s.arrived ++ [(s.arrived.length, row)] }

def afterInsert (s : State) (cutoff : ℤ) (summaries : List AuditSummary) : State :=
  { s with
    summaries := summaries
    written := fun k =>
      if k ∈ s.summaries.map AuditSummary.key then s.written k
      else if k ∈ (hourlySummaries cutoff s.rows).map AuditSummary.key then
        some ⟨cutoff, s.arrived.length⟩
      else none
    inserted := some cutoff
    lastCutoff := some cutoff }

def afterDelete (s : State) (cutoff : ℤ) : State :=
  { s with
    audits := s.audits.filter fun e => !rawSelected cutoff e.2
    inserted := none }

end State

def step (s : State) : Label → Option State
  | .insertEvent row => some (s.insertEvent row)
  | .aggregateInsert cutoff =>
    if s.mayCall cutoff then
      match insertHourly cutoff s.rows s.summaries with
      | .ok summaries => some (s.afterInsert cutoff summaries)
      | .error _ => none
    else none
  | .aggregateInsertFails cutoff =>
    if s.mayCall cutoff then some { s with lastCutoff := some cutoff } else none
  | .aggregateDelete => s.inserted.map s.afterDelete
  | .aggregateDeleteFails =>
    s.inserted.map fun _ => { s with inserted := none }

def initial : State := {}

/-- An `http` event of a project; only these are ever summarised. -/
def tierable (r : AuditRow) : Bool :=
  r.eventType = "http" && r.projectId.isSome && r.projectId ≠ some ""

def ofKey (k : SummaryKey) (e : Event) : Bool :=
  tierable e.2 && hourKey e.2 = k

/-- Arrived before the `INSERT` that wrote the summary row of its hour, and older
than the cutoff of that `INSERT`. -/
def counted (written : SummaryKey → Option Writing) (e : Event) : Bool :=
  match written (hourKey e.2) with
  | none => false
  | some w => e.1 < w.arrivals && e.2.timestamp < w.cutoff

def eventCount (s : State) (k : SummaryKey) : ℕ :=
  Tables.sumWhere (fun x => x.key = k) AuditSummary.eventCount s.summaries

/-- Raw rows still in `audits` plus the event count of the hourly row, for every
project, service and hour, make up the events ever inserted. -/
def Conserved (s : State) : Prop :=
  ∀ k, s.audits.countP (ofKey k) + eventCount s k = s.arrived.countP (ofKey k)

/-- Every row the `DELETE` is about to remove is counted. -/
def DeletesOnlyCounted (s : State) : Label → Prop
  | .aggregateDelete =>
    ∀ cutoff, s.inserted = some cutoff → ∀ e ∈ s.audits, rawSelected cutoff e.2 →
      counted s.written e
  | _ => True

/-! ## The invariant -/

structure Good (s : State) : Prop where
  numbered : s.arrived.map Prod.fst = List.range s.arrived.length
  present : s.audits.Sublist s.arrived
  keys : (s.summaries.map AuditSummary.key).Nodup
  written_iff : ∀ k, (s.written k).isSome ↔ k ∈ s.summaries.map AuditSummary.key
  arrivals_le : ∀ k w, s.written k = some w → w.arrivals ≤ s.arrived.length
  cutoff_le : ∀ k w, s.written k = some w → ∃ c, s.lastCutoff = some c ∧ w.cutoff ≤ c
  inserted_last : ∀ c, s.inserted = some c → s.lastCutoff = some c
  kept : ∀ e ∈ s.arrived, tierable e.2 → counted s.written e = false → e ∈ s.audits
  count_eq : ∀ k, eventCount s k = s.arrived.countP fun e => ofKey k e && counted s.written e

theorem rawSelected_eq (cutoff : ℤ) (r : AuditRow) :
    rawSelected cutoff r = (decide (r.timestamp < cutoff) && tierable r) := by
  simp [rawSelected, tierable, Bool.and_assoc]

theorem ofKey_iff {k : SummaryKey} {e : Event} :
    ofKey k e = true ↔ tierable e.2 = true ∧ hourKey e.2 = k := by
  simp [ofKey]

theorem counted_iff {written : SummaryKey → Option Writing} {e : Event} :
    counted written e = true ↔
      ∃ w, written (hourKey e.2) = some w ∧ e.1 < w.arrivals ∧ e.2.timestamp < w.cutoff := by
  unfold counted
  cases written (hourKey e.2) <;> simp

theorem counted_congr {written written' : SummaryKey → Option Writing} {e : Event}
    (h : written (hourKey e.2) = written' (hourKey e.2)) :
    counted written e = counted written' e := by
  unfold counted
  rw [h]

theorem counted_of_none {written : SummaryKey → Option Writing} {e : Event}
    (h : written (hourKey e.2) = none) : counted written e = false := by
  unfold counted
  rw [h]

namespace Good

variable {s : State}

theorem initial : Good initial where
  numbered := rfl
  present := List.Sublist.slnil
  keys := List.nodup_nil
  written_iff := by simp [RawToHourly.initial]
  arrivals_le := by simp [RawToHourly.initial]
  cutoff_le := by simp [RawToHourly.initial]
  inserted_last := by simp [RawToHourly.initial]
  kept := by simp [RawToHourly.initial]
  count_eq := fun _ => rfl

theorem number_lt (h : Good s) {e : Event} (he : e ∈ s.arrived) : e.1 < s.arrived.length := by
  have hmem : e.1 ∈ s.arrived.map Prod.fst := List.mem_map_of_mem he
  rw [h.numbered] at hmem
  exact List.mem_range.mp hmem

theorem nodup_arrived (h : Good s) : s.arrived.Nodup := by
  apply List.Nodup.of_map Prod.fst
  rw [h.numbered]
  exact List.nodup_range

theorem written_none (h : Good s) {k : SummaryKey} (hk : k ∉ s.summaries.map AuditSummary.key) :
    s.written k = none := by
  have := (h.written_iff k).not.mpr hk
  simpa using this

theorem mem_audits_of_new (h : Good s) {e : Event} (he : e ∈ s.arrived) (ht : tierable e.2 = true)
    (hk : hourKey e.2 ∉ s.summaries.map AuditSummary.key) : e ∈ s.audits :=
  h.kept e he ht (counted_of_none (h.written_none hk))

end Good

/-! ## Arrivals -/

theorem good_insertEvent {s : State} (h : Good s) (row : AuditRow) : Good (s.insertEvent row) := by
  have hlate : counted s.written (s.arrived.length, row) = false := by
    by_contra hc
    obtain ⟨w, hw, hlt, -⟩ := counted_iff.mp (Bool.of_not_eq_false hc)
    have hle := h.arrivals_le _ w hw
    dsimp at hlt
    omega
  refine ⟨?_, ?_, h.keys, h.written_iff, ?_, h.cutoff_le, h.inserted_last, ?_, ?_⟩
  · simp [State.insertEvent, h.numbered, List.range_succ]
  · exact h.present.append (List.Sublist.refl _)
  · intro k w hw
    have hle := h.arrivals_le k w hw
    simp only [State.insertEvent, List.length_append, List.length_singleton]
    omega
  · intro e he ht hc
    rcases List.mem_append.mp he with he | he
    · exact List.mem_append_left _ (h.kept e he ht hc)
    · exact List.mem_append_right _ he
  · intro k
    change eventCount s k = _
    simp [State.insertEvent, List.countP_append, hlate, h.count_eq k]

/-! ## The grouped insertion -/

theorem sumWhere_hourlySummaries (cutoff : ℤ) (audits : List AuditRow)
    (summaries : List AuditSummary) (k : SummaryKey) :
    Tables.sumWhere (fun x => x.key = k) AuditSummary.eventCount
        (Tables.insertIgnore AuditSummary.key summaries (hourlySummaries cutoff audits)) =
      Tables.sumWhere (fun x => x.key = k) AuditSummary.eventCount summaries +
        if k ∈ summaries.map AuditSummary.key then 0
        else audits.countP fun r => hourKey r = k && rawSelected cutoff r := by
  rw [hourlySummaries, Tables.sumWhere_insertIgnore_groupBy key_hourlySummary
    (g := fun _ => 1) (by simp [hourlySummary]), Tables.sumWhere_filter, Tables.sumWhere_one]

theorem mem_key_hourlySummaries {cutoff : ℤ} {audits : List AuditRow} {k : SummaryKey} :
    k ∈ (hourlySummaries cutoff audits).map AuditSummary.key ↔
      ∃ r ∈ audits, rawSelected cutoff r = true ∧ hourKey r = k := by
  rw [hourlySummaries, Tables.map_groupBy key_hourlySummary, List.mem_dedup]
  simp [and_assoc]

section Insert

variable {s : State} {cutoff : ℤ} {summaries : List AuditSummary}

theorem counted_afterInsert_old {e : Event}
    (hk : hourKey e.2 ∈ s.summaries.map AuditSummary.key) :
    counted (s.afterInsert cutoff summaries).written e = counted s.written e :=
  counted_congr (if_pos hk)

/-- An `INSERT` counts, of a key it finds free, all that is older than its cutoff. -/
theorem counted_afterInsert_new (h : Good s) {e : Event} (he : e ∈ s.arrived)
    (ht : tierable e.2 = true) (hk : hourKey e.2 ∉ s.summaries.map AuditSummary.key) :
    counted (s.afterInsert cutoff summaries).written e = decide (e.2.timestamp < cutoff) := by
  have hrow : e.2 ∈ s.rows := List.mem_map_of_mem (h.mem_audits_of_new he ht hk)
  rw [Bool.eq_iff_iff, counted_iff, decide_eq_true_iff]
  simp only [State.afterInsert, if_neg hk]
  constructor
  · rintro ⟨w, hw, -, hlt⟩
    split at hw
    · cases hw
      exact hlt
    · cases hw
  · intro hlt
    have hnew : hourKey e.2 ∈ (hourlySummaries cutoff s.rows).map AuditSummary.key :=
      mem_key_hourlySummaries.mpr ⟨e.2, hrow, by simp [rawSelected_eq, hlt, ht], rfl⟩
    exact ⟨_, if_pos hnew, h.number_lt he, hlt⟩

theorem countP_rows (p : AuditRow → Bool) : s.rows.countP p = s.audits.countP fun e => p e.2 := by
  rw [State.rows, List.countP_map]
  rfl

theorem eventCount_afterInsert (h : Good s)
    (hi : summaries = Tables.insertIgnore AuditSummary.key s.summaries
      (hourlySummaries cutoff s.rows)) (k : SummaryKey) :
    eventCount (s.afterInsert cutoff summaries) k = s.arrived.countP fun e =>
      ofKey k e && counted (s.afterInsert cutoff summaries).written e := by
  have hsum : eventCount (s.afterInsert cutoff summaries) k = eventCount s k +
      if k ∈ s.summaries.map AuditSummary.key then 0
      else s.audits.countP fun e => hourKey e.2 = k && rawSelected cutoff e.2 := by
    rw [eventCount, State.afterInsert, hi, sumWhere_hourlySummaries, countP_rows]
    rfl
  rw [hsum, h.count_eq k]
  by_cases hk : k ∈ s.summaries.map AuditSummary.key
  · rw [if_pos hk, Nat.add_zero]
    refine List.countP_congr fun e _ => ?_
    by_cases hof : ofKey k e = true
    · obtain ⟨-, rfl⟩ := ofKey_iff.mp hof
      rw [counted_afterInsert_old hk]
    · simp [hof]
  · -- the key was free, so none of its events is counted yet and all are still in the table
    have hnone : (s.arrived.countP fun e => ofKey k e && counted s.written e) = 0 := by
      refine List.countP_eq_zero.mpr fun e _ hc => ?_
      obtain ⟨hof, hc⟩ := Bool.and_eq_true_iff.mp hc
      obtain ⟨-, rfl⟩ := ofKey_iff.mp hof
      simp [counted_of_none (h.written_none hk)] at hc
    have hall : (s.audits.countP fun e => hourKey e.2 = k && rawSelected cutoff e.2) =
        s.arrived.countP fun e => hourKey e.2 = k && rawSelected cutoff e.2 := by
      refine Tables.countP_eq_of_sublist h.present h.nodup_arrived fun e he hp => ?_
      simp only [rawSelected_eq, Bool.and_eq_true, decide_eq_true_eq] at hp
      obtain ⟨rfl, -, ht⟩ := hp
      exact h.mem_audits_of_new he ht hk
    rw [if_neg hk, hnone, hall, Nat.zero_add]
    refine List.countP_congr fun e he => ?_
    by_cases hof : ofKey k e = true
    · obtain ⟨ht, rfl⟩ := ofKey_iff.mp hof
      rw [counted_afterInsert_new h he ht hk]
      simp [rawSelected_eq, ht, hof]
    · simp only [ofKey_iff, not_and] at hof
      simp only [rawSelected_eq, Bool.and_eq_true, decide_eq_true_eq, ofKey_iff]
      tauto

theorem good_afterInsert (h : Good s) (hcall : s.mayCall cutoff = true)
    (hi : summaries = Tables.insertIgnore AuditSummary.key s.summaries
      (hourlySummaries cutoff s.rows)) : Good (s.afterInsert cutoff summaries) := by
  have hlast : ∀ c, s.lastCutoff = some c → c ≤ cutoff := by
    intro c hc
    simp only [State.mayCall, hc, Bool.and_eq_true] at hcall
    simpa using hcall.2
  refine ⟨h.numbered, h.present, ?_, ?_, ?_, ?_, fun _ hc => hc, ?_, eventCount_afterInsert h hi⟩
  · exact hi ▸ Tables.nodup_insertIgnore _ _ h.keys
  · intro k
    have hmem : k ∈ (s.afterInsert cutoff summaries).summaries.map AuditSummary.key ↔
        k ∈ s.summaries.map AuditSummary.key ∨
          k ∈ (hourlySummaries cutoff s.rows).map AuditSummary.key := by
      rw [State.afterInsert, hi, hourlySummaries,
        Tables.mem_map_insertIgnore_groupBy key_hourlySummary,
        Tables.map_groupBy key_hourlySummary, List.mem_dedup]
    rw [hmem]
    by_cases hk : k ∈ s.summaries.map AuditSummary.key
    · simp only [State.afterInsert, hk, if_true, true_or, iff_true]
      exact (h.written_iff k).mpr hk
    · by_cases hn : k ∈ (hourlySummaries cutoff s.rows).map AuditSummary.key <;>
        simp only [State.afterInsert, hk, hn, if_true, if_false, false_or] <;> simp
  · intro k w hw
    simp only [State.afterInsert] at hw
    split at hw
    · exact h.arrivals_le k w hw
    · split at hw
      · cases hw
        exact Nat.le_refl _
      · cases hw
  · intro k w hw
    refine ⟨cutoff, rfl, ?_⟩
    simp only [State.afterInsert] at hw
    split at hw
    · obtain ⟨c, hc, hle⟩ := h.cutoff_le k w hw
      exact Int.le_trans hle (hlast c hc)
    · split at hw
      · cases hw
        exact Int.le_refl _
      · cases hw
  · intro e he ht hc
    by_cases hk : hourKey e.2 ∈ s.summaries.map AuditSummary.key
    · rw [counted_afterInsert_old hk] at hc
      exact h.kept e he ht hc
    · exact h.mem_audits_of_new he ht hk

end Insert

/-! ## The deletion -/

section Delete

variable {s : State} {cutoff : ℤ}

theorem mem_afterDelete {e : Event} :
    e ∈ (s.afterDelete cutoff).audits ↔ e ∈ s.audits ∧ rawSelected cutoff e.2 = false := by
  simp [State.afterDelete]

theorem good_afterDelete (h : Good s)
    (hok : ∀ e ∈ s.audits, rawSelected cutoff e.2 = true → counted s.written e = true) :
    Good (s.afterDelete cutoff) := by
  refine ⟨h.numbered, List.filter_sublist.trans h.present, h.keys, h.written_iff, h.arrivals_le,
    h.cutoff_le, (fun _ hc => nomatch hc), ?_, h.count_eq⟩
  intro e he ht hc
  have hmem : e ∈ s.audits := h.kept e he ht hc
  refine mem_afterDelete.mpr ⟨hmem, ?_⟩
  by_contra hsel
  have hcounted := hok e hmem (Bool.of_not_eq_false hsel)
  exact Bool.false_ne_true (hc.symm.trans hcounted)

/-- A row that survives a successful call is not counted: it is no older than the
cutoff, and no `INSERT` has had a later one. -/
theorem uncounted_of_mem_afterDelete (h : Good s) (hc : s.lastCutoff = some cutoff) {e : Event}
    (he : e ∈ (s.afterDelete cutoff).audits) (ht : tierable e.2 = true) :
    counted s.written e = false := by
  obtain ⟨-, hsel⟩ := mem_afterDelete.mp he
  have hge : cutoff ≤ e.2.timestamp := by simpa [rawSelected_eq, ht] using hsel
  by_contra hcounted
  obtain ⟨w, hw, -, hlt⟩ := counted_iff.mp (Bool.of_not_eq_false hcounted)
  obtain ⟨c, hc', hle⟩ := h.cutoff_le _ w hw
  obtain rfl : cutoff = c := Option.some.inj (hc.symm.trans hc')
  omega

theorem countP_split (s : State) (k : SummaryKey) :
    s.arrived.countP (ofKey k) =
      (s.arrived.countP fun e => ofKey k e && !counted s.written e) +
        s.arrived.countP fun e => ofKey k e && counted s.written e := by
  induction s.arrived with
  | nil => rfl
  | cons e es ih =>
    simp only [List.countP_cons, ih]
    cases ofKey k e <;> cases counted s.written e <;> simp <;> omega

theorem countP_afterDelete (h : Good s) (hc : s.lastCutoff = some cutoff) (k : SummaryKey) :
    (s.afterDelete cutoff).audits.countP (ofKey k) =
      (s.afterDelete cutoff).audits.countP fun e => ofKey k e && !counted s.written e := by
  refine List.countP_congr fun e he => ?_
  by_cases hof : ofKey k e = true
  · simp [hof, uncounted_of_mem_afterDelete h hc he (ofKey_iff.mp hof).1]
  · simp [hof]

theorem conserved_afterDelete (h : Good s) (hc : s.lastCutoff = some cutoff)
    (hok : ∀ e ∈ s.audits, rawSelected cutoff e.2 = true → counted s.written e = true) :
    Conserved (s.afterDelete cutoff) := by
  intro k
  have hgood := good_afterDelete h hok
  have hall : ((s.afterDelete cutoff).audits.countP fun e => ofKey k e && !counted s.written e) =
      s.arrived.countP fun e => ofKey k e && !counted s.written e := by
    refine Tables.countP_eq_of_sublist hgood.present h.nodup_arrived fun e he hp => ?_
    simp only [Bool.and_eq_true, Bool.not_eq_true', ofKey_iff] at hp
    exact hgood.kept e he hp.1.1 hp.2
  rw [countP_afterDelete h hc, hall, hgood.count_eq k]
  exact (countP_split s k).symm

theorem not_conserved_afterDelete (h : Good s) (hc : s.lastCutoff = some cutoff) {e : Event}
    (he : e ∈ s.audits) (hsel : rawSelected cutoff e.2 = true)
    (hlost : counted s.written e = false) : ¬ Conserved (s.afterDelete cutoff) := by
  intro hcons
  have ht : tierable e.2 = true := by
    rw [rawSelected_eq, Bool.and_eq_true] at hsel
    exact hsel.2
  have hgone : e ∉ (s.afterDelete cutoff).audits := fun hmem =>
    Bool.false_ne_true ((mem_afterDelete.mp hmem).2.symm.trans hsel)
  have hlt : ((s.afterDelete cutoff).audits.countP fun e' =>
      ofKey (hourKey e.2) e' && !counted s.written e') <
        s.arrived.countP fun e' => ofKey (hourKey e.2) e' && !counted s.written e' :=
    Tables.countP_lt_of_sublist (List.filter_sublist.trans h.present) (h.present.subset he)
      (by simp [ofKey_iff, ht, hlost]) hgone
  have hk := hcons (hourKey e.2)
  have hcount : eventCount (s.afterDelete cutoff) (hourKey e.2) = eventCount s (hourKey e.2) := rfl
  have harr : (s.afterDelete cutoff).arrived = s.arrived := rfl
  rw [countP_afterDelete h hc, hcount, harr, h.count_eq, countP_split] at hk
  omega

end Delete

/-! ## Whole runs -/

theorem step_cases {s t : State} {a : Label} (h : step s a = some t) :
    (∃ row, a = .insertEvent row ∧ t = s.insertEvent row) ∨
    (∃ c summaries, a = .aggregateInsert c ∧ s.mayCall c = true ∧
      summaries = Tables.insertIgnore AuditSummary.key s.summaries (hourlySummaries c s.rows) ∧
      t = s.afterInsert c summaries) ∨
    (∃ c, a = .aggregateInsertFails c ∧ s.mayCall c = true ∧ t = { s with lastCutoff := some c }) ∨
    (∃ c, a = .aggregateDelete ∧ s.inserted = some c ∧ t = s.afterDelete c) ∨
    (a = .aggregateDeleteFails ∧ t = { s with inserted := none }) := by
  cases a with
  | insertEvent row => exact Or.inl ⟨row, rfl, (Option.some.inj h).symm⟩
  | aggregateInsert c =>
    simp only [step] at h
    split at h
    · rename_i hcall
      split at h
      · rename_i summaries hi
        exact Or.inr (Or.inl ⟨c, summaries, rfl, hcall, insertHourly_ok hi, (Option.some.inj h).symm⟩)
      · cases h
    · cases h
  | aggregateInsertFails c =>
    simp only [step] at h
    split at h
    · rename_i hcall
      exact Or.inr (Or.inr (Or.inl ⟨c, rfl, hcall, (Option.some.inj h).symm⟩))
    · cases h
  | aggregateDelete =>
    obtain ⟨c, hc, ht⟩ := Option.map_eq_some_iff.mp h
    exact Or.inr (Or.inr (Or.inr (Or.inl ⟨c, rfl, hc, ht.symm⟩)))
  | aggregateDeleteFails =>
    obtain ⟨c, -, ht⟩ := Option.map_eq_some_iff.mp h
    exact Or.inr (Or.inr (Or.inr (Or.inr ⟨rfl, ht.symm⟩)))

theorem good_insertFails {s : State} {c : ℤ} (h : Good s) (hcall : s.mayCall c = true) :
    Good { s with lastCutoff := some c } := by
  simp only [State.mayCall, Bool.and_eq_true, Option.isNone_iff_eq_none] at hcall
  refine ⟨h.numbered, h.present, h.keys, h.written_iff, h.arrivals_le, ?_, ?_, h.kept, h.count_eq⟩
  · intro k w hw
    obtain ⟨l, hl, hle⟩ := h.cutoff_le k w hw
    refine ⟨c, rfl, Int.le_trans hle ?_⟩
    simpa [hl] using hcall.2
  · intro d hd
    simp [hcall.1] at hd

theorem good_deleteFails {s : State} (h : Good s) : Good { s with inserted := none } :=
  ⟨h.numbered, h.present, h.keys, h.written_iff, h.arrivals_le, h.cutoff_le,
    (fun _ hc => nomatch hc), h.kept, h.count_eq⟩

theorem step_good {s t : State} {a : Label} (h : Good s) (hok : DeletesOnlyCounted s a)
    (hstep : step s a = some t) : Good t ∧ (a = .aggregateDelete → Conserved t) := by
  obtain ⟨row, rfl, rfl⟩ | ⟨c, new, rfl, hcall, hi, rfl⟩ | ⟨c, rfl, hcall, rfl⟩ |
    ⟨c, rfl, hc, rfl⟩ | ⟨rfl, rfl⟩ := step_cases hstep
  · exact ⟨good_insertEvent h row, fun ha => by cases ha⟩
  · exact ⟨good_afterInsert h hcall hi, fun ha => by cases ha⟩
  · exact ⟨good_insertFails h hcall, fun ha => by cases ha⟩
  · exact ⟨good_afterDelete h (hok c hc),
      fun _ => conserved_afterDelete h (h.inserted_last c hc) (hok c hc)⟩
  · exact ⟨good_deleteFails h, fun ha => by cases ha⟩

theorem step_lossy {s t : State} {a : Label} (h : Good s) (hbad : ¬ DeletesOnlyCounted s a)
    (hstep : step s a = some t) : ¬ (a = .aggregateDelete → Conserved t) := by
  obtain ⟨row, rfl, rfl⟩ | ⟨c, new, rfl, hcall, hi, rfl⟩ | ⟨c, rfl, hcall, rfl⟩ |
    ⟨c, rfl, hc, rfl⟩ | ⟨rfl, rfl⟩ := step_cases hstep
  case inr.inr.inr.inl =>
    simp only [DeletesOnlyCounted, not_forall] at hbad
    obtain ⟨c', hc', e, he, hsel, hlost⟩ := hbad
    obtain rfl : c = c' := Option.some.inj (hc.symm.trans hc')
    intro hcons
    exact not_conserved_afterDelete h (h.inserted_last c hc) he hsel
      (Bool.eq_false_of_not_eq_true hlost) (hcons rfl)
  all_goals exact absurd trivial hbad

/-- Tiering loses no event exactly in the runs whose every `DELETE` removes only
events that arrived before the `INSERT` of their hour and are older than its cutoff. -/
theorem conserved_iff_deletesOnlyCounted (as : List Label) :
    Runs.Along step (fun _ a t => a = .aggregateDelete → Conserved t) initial as ↔
      Runs.Meets step DeletesOnlyCounted initial as :=
  Runs.along_iff_meets (fun _ _ _ => step_good) (fun _ _ _ => step_lossy) Good.initial as

/-- Two calls on successive nights, the first cutoff at 02:30. The hour from 02:00
is summarised from its first half, and its second half is deleted the night after. -/
def splitHour : List Label :=
  let event (id : String) (timestamp : ℤ) : AuditRow :=
    { id, timestamp, serviceName := "api", projectId := some "p" }
  [.insertEvent (event "a" (2 * hourLength + 600000000)),
    .insertEvent (event "b" (2 * hourLength + 2400000000)),
    .aggregateInsert (2 * hourLength + 1800000000), .aggregateDelete,
    .aggregateInsert (26 * hourLength + 1800000000), .aggregateDelete]

theorem splitHour_not_conserved :
    ¬ Runs.Along step (fun _ a t => a = .aggregateDelete → Conserved t) initial splitHour := by
  intro h
  have hlost : (Runs.run step initial splitHour).any (fun t =>
      t.audits.countP (ofKey ⟨2 * hourLength, .hour, "p", "api"⟩) +
        eventCount t ⟨2 * hourLength, .hour, "p", "api"⟩ ≠
          t.arrived.countP (ofKey ⟨2 * hourLength, .hour, "p", "api"⟩)) = true :=
    rfl
  obtain ⟨t, ht, hne⟩ := (Option.any_eq_true _ _).mp hlost
  have hsplit : splitHour = splitHour.dropLast ++ [.aggregateDelete] := rfl
  rw [hsplit] at ht
  obtain ⟨s, hs, hstep⟩ := Runs.run_concat_eq_some.mp ht
  have hcons := Runs.along_iff.mp h _ _ s t (hsplit ▸ List.prefix_rfl) hs hstep rfl
  exact (of_decide_eq_true hne) (hcons _)

end BatAudit.Tiering.RawToHourly
