import BatAudit.Audit.Reader

/-!
# Explicit sessions

The events of a session and its metadata come from two statements. The second gives a row for
each pair of an identifier and a service, in no order, and the first of them is scanned.
-/

namespace BatAudit.Reader

variable {sql : SqlText.Session} {sessionID : String} {audits : List AuditRow}

def sessionRows (sessionID : String) (audits : List AuditRow) : List AuditRow :=
  audits.filter fun r => r.sessionId = sessionID

def metadataOf (sql : SqlText.Session) (rows : List AuditRow) : List Session :=
  Tables.groupBy sessionKey
    (fun key group => sessionOf sql key (group.map AuditRow.timestamp)) rows

/-- What `GetSessionByID` may return, for the orders that the statements leave open. -/
structure Detailed (sql : SqlText.Session) (sessionID : String) (audits : List AuditRow)
    (d : SessionDetail) : Prop where
  events : ∃ ordered : List AuditRow, ordered.Perm (sessionRows sessionID audits) ∧
    ordered.Pairwise (fun r r' => r.timestamp ≤ r'.timestamp) ∧ d.events = ordered.map summaryOf
  metadata : ∃ m ∈ metadataOf sql (sessionRows sessionID audits), d.metadata = some m
  sessionID_eq : d.sessionID = sessionID

def SessionDetail.times (d : SessionDetail) : List ℤ := d.events.map AuditSummary.timestamp

/-- The metadata is that of the events. -/
structure SessionDetail.Agrees (sql : SqlText.Session) (d : SessionDetail) (m : Session) :
    Prop where
  eventCount : m.eventCount = d.events.length
  sessionStart : m.sessionStart = sql.toChar (d.times.min?.getD 0)
  sessionEnd : m.sessionEnd = sql.toChar (d.times.max?.getD 0)
  duration : m.duration = d.times.max?.getD 0 - d.times.min?.getD 0

/-! ## The reader gives one of the answers -/

theorem detailed_sessionByID {d : SessionDetail}
    (h : sessionByID sql sessionID (sessionRows sessionID audits) = some d) :
    Detailed sql sessionID audits d := by
  unfold sessionByID at h
  split_ifs at h with hnil
  cases h
  refine ⟨⟨_, List.mergeSort_perm _ _, Tables.pairwise_mergeSort_asc _ _, rfl⟩, ?_, rfl⟩
  obtain ⟨r, hr⟩ := List.exists_mem_of_ne_nil _ hnil
  have hmem : _ ∈ metadataOf sql (sessionRows sessionID audits) :=
    Tables.mem_groupBy.mpr ⟨sessionKey r, List.mem_map_of_mem hr, rfl⟩
  cases hmeta : metadataOf sql (sessionRows sessionID audits) with
  | nil =>
    rw [hmeta] at hmem
    exact absurd hmem List.not_mem_nil
  | cons m rest => exact ⟨m, List.mem_cons_self, congrArg List.head? hmeta⟩

/-! ## Groups and all the events -/

theorem min?_eq_of_perm {xs ys : List ℤ} (h : xs.Perm ys) : xs.min? = ys.min? := by
  cases hy : ys.min? with
  | none =>
    rw [List.min?_eq_none_iff] at hy ⊢
    exact (hy ▸ h).eq_nil
  | some y =>
    obtain ⟨hmem, hle⟩ := List.min?_eq_some_iff.mp hy
    exact List.min?_eq_some_iff.mpr ⟨h.mem_iff.mpr hmem, fun x hx => hle x (h.mem_iff.mp hx)⟩

theorem max?_eq_of_perm {xs ys : List ℤ} (h : xs.Perm ys) : xs.max? = ys.max? := by
  cases hy : ys.max? with
  | none =>
    rw [List.max?_eq_none_iff] at hy ⊢
    exact (hy ▸ h).eq_nil
  | some y =>
    obtain ⟨hmem, hle⟩ := List.max?_eq_some_iff.mp hy
    exact List.max?_eq_some_iff.mpr ⟨h.mem_iff.mpr hmem, fun x hx => hle x (h.mem_iff.mp hx)⟩

/-- All events of the session are of one identifier and one service. -/
def OnePair (sessionID : String) (audits : List AuditRow) : Prop :=
  ∀ r ∈ sessionRows sessionID audits, ∀ r' ∈ sessionRows sessionID audits,
    sessionKey r = sessionKey r'

instance (sessionID : String) (audits : List AuditRow) : Decidable (OnePair sessionID audits) :=
  inferInstanceAs (Decidable (∀ r ∈ sessionRows sessionID audits, ∀ r' ∈ _, _))

/-- Whichever group is scanned, it has to be the only one. -/
theorem detail_agrees_iff {d : SessionDetail} (h : Detailed sql sessionID audits d) :
    (∃ m, d.metadata = some m ∧ d.Agrees sql m) ↔ OnePair sessionID audits := by
  obtain ⟨⟨ordered, hperm, -, hevents⟩, ⟨m, hm, hmetadata⟩, -⟩ := h
  obtain ⟨key, hkey, rfl⟩ := Tables.mem_groupBy.mp hm
  have htimes : d.times.Perm ((sessionRows sessionID audits).map AuditRow.timestamp) := by
    rw [SessionDetail.times, hevents, List.map_map]
    exact hperm.map AuditRow.timestamp
  have hlength : d.events.length = (sessionRows sessionID audits).length := by
    rw [hevents, List.length_map, hperm.length_eq]
  constructor
  · rintro ⟨m, hm, hagrees⟩
    cases hm.symm.trans hmetadata
    have hcount := hagrees.eventCount
    rw [hlength] at hcount
    change (List.map _ _).length = _ at hcount
    rw [List.length_map, List.length_filter_eq_length_iff] at hcount
    have hall : ∀ r ∈ sessionRows sessionID audits, sessionKey r = key :=
      fun r hr => of_decide_eq_true (hcount r hr)
    exact fun r hr r' hr' => (hall r hr).trans (hall r' hr').symm
  · intro hone
    obtain ⟨r, hr, rfl⟩ := List.mem_map.mp hkey
    have hall : (sessionRows sessionID audits).filter (fun r' => sessionKey r' = sessionKey r) =
        sessionRows sessionID audits :=
      List.filter_eq_self.mpr fun r' hr' => decide_eq_true (hone r' hr' r hr)
    rw [hall] at hmetadata
    refine ⟨_, hmetadata, ?_⟩
    constructor
    · rw [hlength]
      exact List.length_map _
    · rw [min?_eq_of_perm htimes]
      rfl
    · rw [max?_eq_of_perm htimes]
      rfl
    · rw [min?_eq_of_perm htimes, max?_eq_of_perm htimes]
      rfl

/-- An event of a checkout. -/
def checkoutEvent (id serviceName : String) (timestamp : ℤ) : AuditRow :=
  { id, timestamp, serviceName, identifier := "user-123", sessionId := "checkout" }

def oneService : List AuditRow :=
  [checkoutEvent "a" "orders-api" 0, checkoutEvent "b" "orders-api" second]

def twoServices : List AuditRow :=
  [checkoutEvent "a" "orders-api" 0, checkoutEvent "b" "payments-api" second]

theorem one_service_agrees : ∃ d m,
    sessionByID SqlText.plainSession "checkout" (sessionRows "checkout" oneService) = some d ∧
      d.metadata = some m ∧ d.Agrees SqlText.plainSession m := by
  have hsome : sessionByID SqlText.plainSession "checkout" (sessionRows "checkout" oneService) =
    some _ := rfl
  obtain ⟨m, hm⟩ := (detail_agrees_iff (detailed_sessionByID hsome)).mpr (by decide +kernel)
  exact ⟨_, m, hsome, hm⟩

/-- A session over two services, as the documentation has it. -/
theorem two_services_disagree : ∃ d m,
    sessionByID SqlText.plainSession "checkout" (sessionRows "checkout" twoServices) = some d ∧
      d.metadata = some m ∧ ¬d.Agrees SqlText.plainSession m := by
  refine ⟨_, _, rfl, rfl, fun h => ?_⟩
  have hcount := h.eventCount
  change 1 = (List.map summaryOf (List.mergeSort _ _)).length at hcount
  rw [List.length_map, List.length_mergeSort] at hcount
  revert hcount
  decide +kernel

end BatAudit.Reader
