import BatAudit.Audit.Reader
import BatAudit.Lib.Gaps

/-!
# Derived sessions

`GetSessions` as its statement has it: `LAG` marks the rows that a session begins with, a running
sum numbers them, and a grouping by the number makes the sessions. Rows at the same time are
sorted in any order, and peers share the sum.
-/

namespace BatAudit.Reader

/-- An order that the database may bring rows into by their timestamps. -/
structure ByTimestamp where
  order : List AuditRow → List AuditRow
  perm : ∀ rows, (order rows).Perm rows
  sorted : ∀ rows, (order rows).Pairwise fun r r' => r.timestamp ≤ r'.timestamp

structure Ranked where
  row : AuditRow
  prevTs : Option ℤ

structure SessionStart where
  row : AuditRow
  isNewSession : ℕ

structure SessionGroup where
  row : AuditRow
  sessionID : ℕ

def partitions (rows : List AuditRow) : List (List AuditRow) :=
  Tables.groupBy sessionKey (fun _ partition => partition) rows

def ranked (o : ByTimestamp) (rows : List AuditRow) : List Ranked :=
  (partitions rows).flatMap fun partition =>
    (Gaps.lag (o.order partition)).map fun e => ⟨e.2, e.1.map AuditRow.timestamp⟩

def sessionStart (r : Ranked) : SessionStart where
  row := r.row
  isNewSession := if r.prevTs.all fun t => 1800 * second < r.row.timestamp - t then 1 else 0

/-- The sum ends with the last row of the partition at the same time. -/
def sessionGroup (starts : List SessionStart) (s : SessionStart) : SessionGroup where
  row := s.row
  sessionID := ((starts.filter fun s' => sessionKey s'.row = sessionKey s.row &&
    s'.row.timestamp ≤ s.row.timestamp).map SessionStart.isNewSession).sum

def sessionGroups (o : ByTimestamp) (rows : List AuditRow) : List SessionGroup :=
  let starts := (ranked o rows).map sessionStart
  starts.map (sessionGroup starts)

def SessionGroup.pair (g : SessionGroup) : String × String := sessionKey g.row

/-- The rows that a session is made of. -/
structure Run where
  pair : String × String
  rows : List AuditRow

def sessionRuns (o : ByTimestamp) (rows : List AuditRow) : List Run :=
  Tables.groupBy (fun g : SessionGroup => (g.pair, g.sessionID))
    (fun key groups => ⟨key.1, groups.map SessionGroup.row⟩) (sessionGroups o rows)

def Run.session (sql : SqlText.Session) (run : Run) : Session :=
  sessionOf sql run.pair (run.rows.map AuditRow.timestamp)

/-- The sessions before the limit. -/
def derivedSessions (sql : SqlText.Session) (o : ByTimestamp) (rows : List AuditRow) :
    List Session :=
  (sessionRuns o rows).map (Run.session sql)

/-! ## Runs of the events of a pair -/

def gap : ℤ := 1800 * second

/-- The rows of a session and what the session says of them. -/
structure Describes (sql : SqlText.Session) (run : Run) (s : Session) : Prop where
  identifier : s.identifier = run.pair.1
  serviceName : s.serviceName = run.pair.2
  eventCount : s.eventCount = run.rows.length
  extremes : ∃ first ∈ run.rows, ∃ last ∈ run.rows,
    (∀ r ∈ run.rows, first.timestamp ≤ r.timestamp ∧ r.timestamp ≤ last.timestamp) ∧
      s.sessionStart = sql.toChar first.timestamp ∧ s.sessionEnd = sql.toChar last.timestamp ∧
        s.duration = last.timestamp - first.timestamp

/-- Maximal runs, in the order of time, of events at most half an hour apart. -/
structure RunsOf (rows : List AuditRow) (runs : List Run) : Prop where
  partition : (runs.flatMap Run.rows).Perm rows
  pair : ∀ run ∈ runs, ∀ r ∈ run.rows, sessionKey r = run.pair
  sorted : ∀ run ∈ runs, run.rows.Pairwise fun r r' => r.timestamp ≤ r'.timestamp
  chain : ∀ run ∈ runs, run.rows.IsChain fun r r' => r'.timestamp - r.timestamp ≤ gap
  apart : runs.Pairwise fun run run' => run.pair = run'.pair →
    Gaps.Apart AuditRow.timestamp gap run.rows run'.rows ∨
      Gaps.Apart AuditRow.timestamp gap run'.rows run.rows

/-! ## The numbers of the sessions -/

variable (o : ByTimestamp) (rows : List AuditRow)

/-- The rows of a pair, as they are sorted. -/
def sortedRows (pair : String × String) : List AuditRow :=
  o.order (rows.filter fun r => sessionKey r = pair)

/-- The number of a row's session among those of its pair. -/
def number (pair : String × String) (r : AuditRow) : ℕ :=
  Gaps.startsUpTo AuditRow.timestamp gap (sortedRows o rows pair) r.timestamp

def pairs : List (String × String) := (rows.map sessionKey).dedup

variable {o rows} {pair : String × String}

theorem sessionKey_of_mem {r : AuditRow} (h : r ∈ sortedRows o rows pair) : sessionKey r = pair :=
  of_decide_eq_true (List.mem_filter.mp ((o.perm _).mem_iff.mp h)).2

theorem map_snd_lag {α : Type*} (p : Option α) (xs : List α) :
    (Gaps.lagFrom p xs).map Prod.snd = xs := by
  induction xs generalizing p with
  | nil => rfl
  | cons x xs ih => rw [Gaps.lagFrom, List.map_cons, ih]

def startOf (e : Option AuditRow × AuditRow) : SessionStart :=
  ⟨e.2, if Gaps.starts AuditRow.timestamp gap e then 1 else 0⟩

theorem starts_eq : (ranked o rows).map sessionStart =
    (pairs rows).flatMap fun pair => (Gaps.lag (sortedRows o rows pair)).map startOf := by
  rw [ranked, partitions, Tables.groupBy, List.flatMap_map, List.map_flatMap]
  refine List.flatMap_congr fun pair _ => ?_
  rw [List.map_map]
  refine List.map_congr_left fun e _ => ?_
  simp only [Function.comp_apply, sessionStart, startOf, Gaps.starts, Option.all_map]
  rfl

theorem mem_of_mem_lag {e : Option AuditRow × AuditRow} {xs : List AuditRow}
    (h : e ∈ Gaps.lag xs) : e.2 ∈ xs :=
  map_snd_lag none xs ▸ List.mem_map_of_mem h

theorem sum_isNewSession (es : List (Option AuditRow × AuditRow)) (t : ℤ) :
    (((es.map startOf).filter fun s => s.row.timestamp ≤ t).map SessionStart.isNewSession).sum =
      es.countP fun e => Gaps.starts AuditRow.timestamp gap e && e.2.timestamp ≤ t := by
  rw [Tables.countP_eq_sum, List.filter_map, List.map_map]
  induction es with
  | nil => rfl
  | cons e es ih =>
    by_cases ht : e.2.timestamp ≤ t <;> simp [ht, startOf, ih]

theorem sessionGroups_eq : sessionGroups o rows = (pairs rows).flatMap fun pair =>
    (sortedRows o rows pair).map fun r => ⟨r, number o rows pair r⟩ := by
  have hkeys : ∀ pair, ∀ s ∈ (Gaps.lag (sortedRows o rows pair)).map startOf,
      sessionKey s.row = pair := by
    intro pair s hs
    obtain ⟨e, he, rfl⟩ := List.mem_map.mp hs
    exact sessionKey_of_mem (mem_of_mem_lag he)
  rw [sessionGroups, starts_eq, List.map_flatMap]
  refine List.flatMap_congr fun pair hpair => ?_
  rw [List.map_map]
  conv_rhs => rw [← map_snd_lag none (sortedRows o rows pair), List.map_map]
  refine List.map_congr_left fun e he => ?_
  have hpartition : ((pairs rows).flatMap fun pair =>
      (Gaps.lag (sortedRows o rows pair)).map startOf).filter (fun s => sessionKey s.row = pair) =
        (Gaps.lag (sortedRows o rows pair)).map startOf :=
    Tables.filter_flatMap_keys (List.nodup_dedup _) hkeys hpair
  have hown : sessionKey e.2 = pair := sessionKey_of_mem (mem_of_mem_lag he)
  have hframe : ((pairs rows).flatMap fun pair =>
      (Gaps.lag (sortedRows o rows pair)).map startOf).filter (fun s =>
        sessionKey s.row = sessionKey e.2 && s.row.timestamp ≤ e.2.timestamp) =
      ((Gaps.lag (sortedRows o rows pair)).map startOf).filter
        fun s => s.row.timestamp ≤ e.2.timestamp := by
    rw [← hpartition, List.filter_filter, hown]
    exact List.filter_congr fun s _ => Bool.and_comm _ _
  refine congrArg (SessionGroup.mk e.2) ?_
  change (List.map SessionStart.isNewSession (List.filter (fun s =>
    sessionKey s.row = sessionKey e.2 && s.row.timestamp ≤ e.2.timestamp) _)).sum = _
  rw [hframe]
  exact sum_isNewSession _ _

/-! ## The sessions of a pair -/

theorem mem_pairs_of_mem {r : AuditRow} (h : r ∈ rows) : sessionKey r ∈ pairs rows :=
  List.mem_dedup.mpr (List.mem_map_of_mem h)

theorem sorted_sortedRows (o : ByTimestamp) (rows : List AuditRow) (pair : String × String) :
    (sortedRows o rows pair).Pairwise fun r r' => r.timestamp ≤ r'.timestamp :=
  o.sorted _

theorem gap_nonneg : 0 ≤ gap := by decide

/-- The rows with a key are the run of its pair with its number. -/
theorem rows_of_key {key : (String × String) × ℕ}
    (hkey : key ∈ (sessionGroups o rows).map fun g => (g.pair, g.sessionID)) :
    ∃ pre run post, key.1 ∈ pairs rows ∧
      Gaps.runs AuditRow.timestamp gap (sortedRows o rows key.1) = pre ++ run :: post ∧
      key.2 = pre.length + 1 ∧
      ((sessionGroups o rows).filter fun g => (g.pair, g.sessionID) = key).map SessionGroup.row =
        run := by
  obtain ⟨pair, n⟩ := key
  have hpairs : ∀ pair, ∀ g ∈ (sortedRows o rows pair).map fun r =>
      SessionGroup.mk r (number o rows pair r), g.pair = pair := by
    intro pair g hg
    obtain ⟨r, hr, rfl⟩ := List.mem_map.mp hg
    exact sessionKey_of_mem hr
  rw [sessionGroups_eq] at hkey ⊢
  obtain ⟨g, hg, heq⟩ := List.mem_map.mp hkey
  obtain ⟨pair', hpair, hg⟩ := List.mem_flatMap.mp hg
  obtain ⟨r, hr, rfl⟩ := List.mem_map.mp hg
  obtain rfl : pair' = pair := (sessionKey_of_mem hr).symm.trans (congrArg Prod.fst heq)
  obtain rfl : number o rows pair' r = n := congrArg Prod.snd heq
  have hflat : (Gaps.runs AuditRow.timestamp gap (sortedRows o rows pair')).flatten =
      sortedRows o rows pair' := List.flatten_splitBy _ _
  obtain ⟨run, hrun, hmem⟩ := List.mem_flatten.mp (hflat ▸ hr)
  obtain ⟨pre, post, hruns⟩ := List.append_of_mem hrun
  have hsorted := sorted_sortedRows o rows pair'
  have hnumber : number o rows pair' r = pre.length + 1 :=
    Gaps.startsUpTo_of_mem hsorted gap_nonneg hruns hmem
  have hpartition : ((pairs rows).flatMap fun pair => (sortedRows o rows pair).map fun r =>
      SessionGroup.mk r (number o rows pair r)).filter (fun g => g.pair = pair') =
        (sortedRows o rows pair').map fun r => ⟨r, number o rows pair' r⟩ :=
    Tables.filter_flatMap_keys (List.nodup_dedup _) hpairs hpair
  have hkeyed : ∀ gs : List SessionGroup,
      gs.filter (fun g => (g.pair, g.sessionID) = (pair', number o rows pair' r)) =
        (gs.filter fun g => g.pair = pair').filter fun g =>
          g.sessionID = number o rows pair' r := by
    intro gs
    rw [List.filter_filter]
    refine List.filter_congr fun g _ => ?_
    rw [← Bool.decide_and, decide_eq_decide, Prod.mk.injEq]
    exact And.comm
  refine ⟨pre, run, post, hpair, hruns, hnumber, ?_⟩
  rw [hkeyed, hpartition, List.filter_map, List.map_map, hnumber]
  exact (List.map_id _).trans (Gaps.filter_startsUpTo hsorted gap_nonneg hruns)

theorem flatten_runs_perm (o : ByTimestamp) (rows : List AuditRow) :
    ((sessionRuns o rows).flatMap Run.rows).Perm rows := by
  have hgroups := Tables.flatMap_filter_perm
    (List.nodup_dedup ((sessionGroups o rows).map fun g => (g.pair, g.sessionID)))
    fun g hg => List.mem_dedup.mpr (List.mem_map_of_mem hg)
  have hrows : (sessionGroups o rows).map SessionGroup.row =
      (pairs rows).flatMap (sortedRows o rows) := by
    rw [sessionGroups_eq, List.map_flatMap]
    refine List.flatMap_congr fun pair _ => ?_
    rw [List.map_map]
    exact List.map_id _
  have hpairs : ((pairs rows).flatMap (sortedRows o rows)).Perm rows :=
    (List.Perm.flatMap_left _ fun pair _ => o.perm _).trans
      (Tables.flatMap_filter_perm (List.nodup_dedup _) fun r hr => mem_pairs_of_mem hr)
  rw [sessionRuns, Tables.groupBy, List.flatMap_map]
  refine List.Perm.trans ?_ (hrows ▸ hpairs)
  have hmap := hgroups.map SessionGroup.row
  rw [List.map_flatMap] at hmap
  exact hmap

theorem mem_runs_of_mem_sessionRuns {run : Run} (h : run ∈ sessionRuns o rows) :
    run.pair ∈ pairs rows ∧ run.rows ∈
      Gaps.runs AuditRow.timestamp gap (sortedRows o rows run.pair) := by
  obtain ⟨key, hkey, rfl⟩ := Tables.mem_groupBy.mp h
  obtain ⟨pre, run, post, hpair, hruns, -, hrows⟩ := rows_of_key hkey
  change key.1 ∈ _ ∧ List.map _ _ ∈ Gaps.runs _ _ (sortedRows o rows key.1)
  rw [hrows, hruns]
  exact ⟨hpair, List.mem_append_right _ List.mem_cons_self⟩

/-- The sessions are the runs of the events of the pairs. -/
theorem runsOf_sessionRuns (o : ByTimestamp) (rows : List AuditRow) :
    RunsOf rows (sessionRuns o rows) := by
  have hsub : ∀ run ∈ sessionRuns o rows, run.rows.Sublist (sortedRows o rows run.pair) := by
    intro run hrun
    have hflat := List.flatten_splitBy (Gaps.near AuditRow.timestamp gap)
      (sortedRows o rows run.pair)
    exact hflat ▸ List.sublist_flatten_of_mem (mem_runs_of_mem_sessionRuns hrun).2
  refine ⟨flatten_runs_perm o rows, fun run hrun r hr => ?_, fun run hrun => ?_,
    fun run hrun => ?_, ?_⟩
  · exact sessionKey_of_mem ((hsub run hrun).subset hr)
  · exact (sorted_sortedRows o rows run.pair).sublist (hsub run hrun)
  · exact (List.isChain_of_mem_splitBy (mem_runs_of_mem_sessionRuns hrun).2).imp
      fun r r' h => of_decide_eq_true h
  · refine List.pairwise_map.mpr ((List.nodup_dedup _).imp_of_mem ?_)
    intro key key' hkey hkey' hne hpair
    obtain ⟨pre, run, post, -, hruns, hnum, hrows⟩ := rows_of_key (List.mem_dedup.mp hkey)
    obtain ⟨pre', run', post', -, hruns', hnum', hrows'⟩ := rows_of_key (List.mem_dedup.mp hkey')
    obtain ⟨pair, n⟩ := key
    obtain ⟨pair', n'⟩ := key'
    obtain rfl : pair = pair' := hpair
    change Gaps.Apart _ _ (List.map _ _) (List.map _ _) ∨
      Gaps.Apart _ _ (List.map _ _) (List.map _ _)
    rw [hrows, hrows']
    have hsorted := sorted_sortedRows o rows pair
    rcases lt_trichotomy pre.length pre'.length with hlt | heq | hlt
    · exact Or.inl (Gaps.apart_of_length_lt hsorted hruns hruns' hlt)
    · refine absurd (Prod.mk.injEq .. ▸ ⟨rfl, ?_⟩) hne
      exact hnum.trans (heq ▸ hnum'.symm)
    · exact Or.inr (Gaps.apart_of_length_lt hsorted hruns' hruns hlt)

theorem extremes_mem {times : List ℤ} (hne : times ≠ []) :
    times.min?.getD 0 ∈ times ∧ times.max?.getD 0 ∈ times ∧
      ∀ t ∈ times, times.min?.getD 0 ≤ t ∧ t ≤ times.max?.getD 0 := by
  obtain ⟨low, hlow⟩ := Option.isSome_iff_exists.mp (List.isSome_min?_of_ne_nil hne)
  obtain ⟨high, hhigh⟩ := Option.isSome_iff_exists.mp (List.isSome_max?_of_ne_nil hne)
  rw [hlow, hhigh]
  obtain ⟨hlow, hle⟩ := List.min?_eq_some_iff.mp hlow
  obtain ⟨hhigh, hge⟩ := List.max?_eq_some_iff.mp hhigh
  exact ⟨hlow, hhigh, fun t ht => ⟨hle t ht, hge t ht⟩⟩

theorem describes_session (sql : SqlText.Session) {run : Run} (hne : run.rows ≠ []) :
    Describes sql run (run.session sql) := by
  refine ⟨rfl, rfl, List.length_map _, ?_⟩
  obtain ⟨hlow, hhigh, hall⟩ := extremes_mem (mt List.map_eq_nil_iff.mp hne :
    run.rows.map AuditRow.timestamp ≠ [])
  obtain ⟨first, hfirst, hlow⟩ := List.mem_map.mp hlow
  obtain ⟨last, hlast, hhigh⟩ := List.mem_map.mp hhigh
  refine ⟨first, hfirst, last, hlast, fun r hr => ?_, ?_, ?_, ?_⟩
  · rw [hlow, hhigh]
    exact hall _ (List.mem_map_of_mem hr)
  · rw [hlow]
    rfl
  · rw [hhigh]
    rfl
  · rw [hlow, hhigh]
    rfl

theorem ne_nil_of_mem_sessionRuns {run : Run} (h : run ∈ sessionRuns o rows) : run.rows ≠ [] := by
  obtain ⟨key, hkey, rfl⟩ := Tables.mem_groupBy.mp h
  obtain ⟨g, hg, rfl⟩ := List.mem_map.mp hkey
  refine List.ne_nil_of_mem (List.mem_map_of_mem (List.mem_filter.mpr ⟨hg, ?_⟩))
  exact decide_eq_true rfl

/-- Whatever order rows at the same time are sorted in, the sessions are the maximal runs of the
selected events, each with its count and its extremes. -/
theorem derived_sessions_partition (sql : SqlText.Session) (o : ByTimestamp)
    (audits : List AuditRow) (f : SessionFilters) (now : ℤ) :
    RunsOf (audits.filter (f.selects now)) (sessionRuns o (audits.filter (f.selects now))) ∧
      List.Forall₂ (Describes sql) (sessionRuns o (audits.filter (f.selects now)))
        (derivedSessions sql o (audits.filter (f.selects now))) ∧
      ((derivedSessions sql o (audits.filter (f.selects now))).map Session.eventCount).sum =
        (audits.filter (f.selects now)).length := by
  refine ⟨runsOf_sessionRuns o _, ?_, ?_⟩
  · exact List.forall₂_map_right_iff.mpr (List.forall₂_same.mpr fun run hrun =>
      describes_session sql (ne_nil_of_mem_sessionRuns hrun))
  · rw [← (flatten_runs_perm o _).length_eq, List.length_flatMap, derivedSessions, List.map_map]
    refine congrArg List.sum (List.map_congr_left fun run _ => ?_)
    exact List.length_map _

/-! ## The sessions of the reader -/

theorem not_apart_self {g : List AuditRow} (hne : g ≠ []) :
    ¬Gaps.Apart AuditRow.timestamp gap g g := by
  intro h
  obtain ⟨r, hr⟩ := List.exists_mem_of_ne_nil g hne
  have hlt := h r hr r hr
  have hgap := gap_nonneg
  omega

theorem sessionRuns_perm (o : ByTimestamp) (rows : List AuditRow) :
    (sessionRuns o rows).Perm ((pairs rows).flatMap fun pair =>
      (Gaps.runs AuditRow.timestamp gap (sortedRows o rows pair)).map (Run.mk pair)) := by
  have hruns := runsOf_sessionRuns o rows
  have hleft : (sessionRuns o rows).Nodup := by
    refine hruns.apart.imp_of_mem fun {run run'} hrun _ happart heq => ?_
    have hne := ne_nil_of_mem_sessionRuns hrun
    rcases happart (congrArg Run.pair heq) with h | h
    · exact not_apart_self hne (heq ▸ h)
    · exact not_apart_self hne (heq ▸ h)
  have hright : ((pairs rows).flatMap fun pair =>
      (Gaps.runs AuditRow.timestamp gap (sortedRows o rows pair)).map (Run.mk pair)).Nodup := by
    refine List.nodup_flatMap.mpr ⟨fun pair _ => ?_, ?_⟩
    · refine List.Nodup.map (fun g g' heq => congrArg Run.rows heq) ?_
      refine (Gaps.pairwise_runs (sorted_sortedRows o rows pair)).imp_of_mem ?_
      exact fun {g g'} hg _ happart heq =>
        not_apart_self (List.ne_nil_of_mem_splitBy hg) (heq ▸ happart)
    · refine (List.nodup_dedup _).imp fun {pair pair'} hne run hrun hrun' => hne ?_
      obtain ⟨g, -, rfl⟩ := List.mem_map.mp hrun
      obtain ⟨g', -, heq⟩ := List.mem_map.mp hrun'
      exact (congrArg Run.pair heq).symm
  refine (List.perm_ext_iff_of_nodup hleft hright).mpr fun run => ⟨fun hrun => ?_, fun hrun => ?_⟩
  · obtain ⟨hpair, hmem⟩ := mem_runs_of_mem_sessionRuns hrun
    exact List.mem_flatMap.mpr ⟨run.pair, hpair, List.mem_map.mpr ⟨run.rows, hmem, rfl⟩⟩
  · obtain ⟨pair, hpair, hrun⟩ := List.mem_flatMap.mp hrun
    obtain ⟨g, hg, rfl⟩ := List.mem_map.mp hrun
    obtain ⟨r, hr⟩ := List.exists_mem_of_ne_nil g (List.ne_nil_of_mem_splitBy hg)
    have hsorted : r ∈ sortedRows o rows pair :=
      List.flatten_splitBy (Gaps.near AuditRow.timestamp gap) (sortedRows o rows pair) ▸
        List.mem_flatten.mpr ⟨g, hg, hr⟩
    -- the session that the row is in is this one
    have hrow : r ∈ rows := (List.mem_filter.mp ((o.perm _).mem_iff.mp hsorted)).1
    obtain ⟨run, hmem, hr'⟩ := List.mem_flatMap.mp (hruns.partition.mem_iff.mpr hrow)
    have hown : run.pair = pair :=
      (hruns.pair run hmem r hr').symm.trans (sessionKey_of_mem hsorted)
    have hrows := (mem_runs_of_mem_sessionRuns hmem).2
    rw [hown] at hrows
    obtain rfl := Gaps.eq_of_mem_runs (sorted_sortedRows o rows pair) gap_nonneg hg hrows hr hr'
    exact hown ▸ hmem

theorem sessionsOf_eq (sql : SqlText.Session) (o : ByTimestamp) (rows : List AuditRow)
    (pair : String × String) : sessionsOf sql pair (rows.filter fun r => sessionKey r = pair) =
      (Gaps.runs AuditRow.timestamp gap (sortedRows o rows pair)).map fun g =>
        ((g.map AuditRow.timestamp).min?.getD 0, (Run.mk pair g).session sql) := by
  have htimes : ((rows.filter fun r => sessionKey r = pair).map AuditRow.timestamp).mergeSort
      (fun t t' => t ≤ t') = (sortedRows o rows pair).map AuditRow.timestamp := by
    refine List.Perm.eq_of_pairwise (fun t t' _ _ h h' => le_antisymm h h')
      (Tables.pairwise_mergeSort_asc (fun t => t) _)
      (List.pairwise_map.mpr (sorted_sortedRows o rows pair)) ?_
    exact (List.mergeSort_perm _ _).trans ((o.perm _).symm.map AuditRow.timestamp)
  have hruns : (Gaps.runs AuditRow.timestamp gap (sortedRows o rows pair)).map
      (List.map AuditRow.timestamp) = Gaps.runs (fun t => t) gap
        ((sortedRows o rows pair).map AuditRow.timestamp) :=
    @Gaps.map_runs ℤ (fun t => t) gap AuditRow AuditRow.timestamp _
  rw [sessionsOf, htimes]
  change List.map _ (Gaps.runs (fun t => t) gap _) = _
  rw [← hruns, List.map_map]
  rfl

/-- The reader returns the sessions of the statement, the latest first. -/
theorem sessions_eq_take (sql : SqlText.Session) (o : ByTimestamp) (rows : List AuditRow) :
    ∃ ordered : List (ℤ × Session),
      ordered.Perm ((sessionRuns o rows).map fun run =>
        ((run.rows.map AuditRow.timestamp).min?.getD 0, run.session sql)) ∧
      ordered.Pairwise (fun x y => y.1 ≤ x.1) ∧
      sessions sql rows = (ordered.take 200).map Prod.snd := by
  refine ⟨_, ?_, ?_, rfl⟩
  · refine (List.mergeSort_perm _ _).trans ?_
    refine List.Perm.trans (List.Perm.of_eq ?_) ((sessionRuns_perm o rows).map _).symm
    rw [Tables.groupBy, List.map_flatMap, ← List.flatMap_def]
    refine List.flatMap_congr fun pair _ => ?_
    rw [sessionsOf_eq sql o, List.map_map]
    rfl
  · exact Tables.pairwise_mergeSort_desc Prod.fst _

end BatAudit.Reader
