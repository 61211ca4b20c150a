import BatAudit.Audit.Reader

/-!
# The export and the list

Both filters are written out from the same query. The list has one more, the path.
-/

namespace BatAudit.Reader

/-- The rows that the list matches over all its pages, none when its statement is refused. -/
def matched (audits : List AuditRow) (q : Query) : List AuditRow :=
  match q.listFilters.error with
  | some _ => []
  | none => audits.filter q.listFilters.selects

/-- A file with these rows in it, in any order. -/
def Exported.Holds (rows : List AuditRow) : Exported → Prop
  | .tooMany => True
  | .json _ data => data.Perm (rows.map summaryOf)
  | .csv _ lines => lines.Perm (rows.map fun r => csvLine (summaryOf r))

theorem selects_listFilters (q : Query) (r : AuditRow) :
    q.listFilters.selects r = (q.exportFilters.selects r && isText q.path r.path) := by
  rw [Bool.eq_iff_iff]
  simp only [ListFilters.selects, Query.listFilters, Query.exportFilters, Bool.and_eq_true]
  have hnone : isText "" r.path = true := rfl
  tauto

theorem ListFilters.error_eq_none_iff {f : ListFilters} :
    f.error = none ↔ (-2 ^ 31 ≤ f.statusCode ∧ f.statusCode < 2 ^ 31) ∧
      ∀ t ∈ [f.projectID, f.serviceName, f.identifier, f.method, f.path, f.environment,
        f.eventType], SqlText.hasNul t = false := by
  unfold ListFilters.error textsError
  split_ifs with hcode htexts
  · exact iff_of_false nofun fun h => by omega
  · obtain ⟨t, ht, hnul⟩ := List.any_eq_true.mp htexts
    exact iff_of_false nofun fun h => Bool.false_ne_true ((h.2 t ht).symm.trans hnul)
  · refine iff_of_true rfl ⟨by omega, fun t ht => ?_⟩
    exact Bool.eq_false_iff.mpr fun hnul => htexts (List.any_eq_true.mpr ⟨t, ht, hnul⟩)

/-- The statement of the list may be refused for the path alone. -/
theorem hasNul_path {q : Query} (hexport : q.exportFilters.error = none)
    (hlist : q.listFilters.error ≠ none) : SqlText.hasNul q.path = true := by
  obtain ⟨hcode, htexts⟩ := ListFilters.error_eq_none_iff.mp hexport
  by_contra hpath
  refine hlist (ListFilters.error_eq_none_iff.mpr ⟨hcode, fun t ht => ?_⟩)
  by_cases heq : t = q.path
  · rw [heq]
    exact Bool.eq_false_iff.mpr hpath
  · apply htexts
    simp only [List.mem_cons, List.not_mem_nil, or_false] at ht ⊢
    rcases ht with ht | ht | ht | ht | ht | ht | ht
    all_goals first | exact absurd ht heq | simp [ht, Query.listFilters]

/-- No row has a path that the database refuses. -/
theorem matched_eq (db : Database) {q : Query} (hexport : q.exportFilters.error = none) :
    matched db.audits q = db.audits.filter q.listFilters.selects := by
  unfold matched
  cases hlist : q.listFilters.error with
  | none => rfl
  | some e =>
    have hnul := hasNul_path hexport (hlist ▸ nofun)
    refine (List.filter_eq_nil_iff.mpr fun r hr hselected => ?_).symm
    rw [selects_listFilters, Bool.and_eq_true] at hselected
    have hpath := hselected.2
    simp only [isText, Bool.or_eq_true, decide_eq_true_eq] at hpath
    rcases hpath with hpath | hpath
    · rw [hpath] at hnul
      cases hnul
    · have hfits := (SqlText.varchar_eq_some (db.fits r hr).path).1
      rw [hpath, hnul] at hfits
      cases hfits

theorem holds_exportUpTo {maxRows : ℕ} (now : ℤ) (q : Query) {rows rows' : List AuditRow}
    (hsub : rows'.Sublist rows) : (exportUpTo maxRows now q rows).Holds rows' ↔
      maxRows < rows.length ∨ rows'.length = rows.length := by
  have hperm : (AuditRow.newestFirst rows).Perm rows := List.mergeSort_perm _ _
  by_cases hmany : maxRows < rows.length
  · have htoo : exportUpTo maxRows now q rows = .tooMany := by
      simp only [exportUpTo]
      rw [if_pos]
      rw [List.length_map, List.length_take, hperm.length_eq]
      omega
    rw [htoo]
    exact iff_of_true trivial (Or.inl hmany)
  · have htake : (AuditRow.newestFirst rows).take (maxRows + 1) = AuditRow.newestFirst rows :=
      List.take_of_length_le (by rw [hperm.length_eq]; omega)
    have hnot : ¬maxRows < ((AuditRow.newestFirst rows).map summaryOf).length := by
      rwa [List.length_map, hperm.length_eq]
    simp only [exportUpTo, htake, if_neg hnot, hmany, false_or]
    constructor
    · intro h
      split_ifs at h with hformat
      · have hlength := List.Perm.length_eq h
        rw [List.length_map, List.length_map, hperm.length_eq] at hlength
        exact hlength.symm
      · have hlength := List.Perm.length_eq h
        rw [List.length_map, List.length_map, List.length_map, hperm.length_eq] at hlength
        exact hlength.symm
    · intro hlength
      rw [hsub.eq_of_length hlength]
      split_ifs with hformat
      · exact hperm.map summaryOf
      · change (List.map csvLine _).Perm _
        rw [List.map_map]
        exact hperm.map (csvLine ∘ summaryOf)

/-- The export takes the list's rows exactly when the path leaves out none of its own. -/
theorem export_holds_matched_iff (now : ℤ) (db : Database) (q : Query) :
    (∀ file, handleExport now db.audits q = .exported file → file.Holds (matched db.audits q)) ↔
      q.exportFilters.error ≠ none ∨
        100000 < (db.audits.filter q.exportFilters.selects).length ∨
        ∀ r ∈ db.audits, q.exportFilters.selects r = true → isText q.path r.path = true := by
  cases hexport : q.exportFilters.error with
  | some e =>
    refine iff_of_true (fun file h => ?_) (Or.inl nofun)
    simp [handleExport, hexport, answer] at h
  | none =>
    have hfilter : db.audits.filter q.listFilters.selects =
        (db.audits.filter q.exportFilters.selects).filter fun r => isText q.path r.path := by
      rw [List.filter_filter]
      exact List.filter_congr fun r _ => (selects_listFilters q r).trans (Bool.and_comm _ _)
    have hall : (db.audits.filter q.listFilters.selects).length =
        (db.audits.filter q.exportFilters.selects).length ↔
          ∀ r ∈ db.audits, q.exportFilters.selects r = true → isText q.path r.path = true := by
      rw [hfilter, List.length_filter_eq_length_iff]
      simp [List.mem_filter]
    have hok : ∀ file, handleExport now db.audits q = .exported file ↔
        exportRows now q (db.audits.filter q.exportFilters.selects) = file := by
      simp [handleExport, hexport, answer]
    rw [matched_eq db hexport, ← hall]
    simp only [hok, forall_eq', ne_eq, not_true_eq_false, false_or]
    exact holds_exportUpTo now q (hfilter ▸ List.filter_sublist)

/-- One event, and a query for another path. -/
def oneEvent : Database where
  members := []
  audits := [{ id := "a", timestamp := 0 }]
  fits r hr := List.mem_singleton.mp hr ▸ fits_plain
  nodup_ids := by decide

theorem other_path_exported : ¬∀ file,
    handleExport 0 oneEvent.audits { path := "/orders" } = .exported file →
      file.Holds (matched oneEvent.audits { path := "/orders" }) := by
  intro h
  have hnil : matched oneEvent.audits { path := "/orders" } = [] := rfl
  have hfile := h _ rfl
  rw [hnil] at hfile
  have hcount := (holds_exportUpTo 0 _ (List.nil_sublist _)).mp hfile
  revert hcount
  decide +kernel

end BatAudit.Reader
