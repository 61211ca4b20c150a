import Mathlib.Algebra.Order.BigOperators.Group.List
import Mathlib.Data.List.Rotate
import BatAudit.Audit.ExportList
import BatAudit.Lib.Pages

/-!
# Paging through the list

Each page of the list is a statement of its own, with an order by one column only.
-/

namespace BatAudit.Reader

def Query.pageNumber (q : Query) : ℤ := positive q.page 1

def Query.pageLimit (q : Query) : ℤ := positive q.limit 10

def offset (page limit : ℤ) : ℤ := int64 ((page - 1) * limit)

/-- The rows of a page, from an answer in the order of the statement. -/
def pageRows (limit page : ℤ) (ordered : List AuditRow) : List AuditRow :=
  (ordered.drop (offset page limit).toNat).take limit.toNat

/-- The column of the order, turned over when the order is descending. -/
def orderColumn (q : Query) (r : AuditRow) : ℤ :=
  if q.sortOrder = "asc" then sortColumn q.sortBy r else -sortColumn q.sortBy r

/-- The pages up to the last show every row once, in whatever orders the database answers, and
the offset does not wrap. -/
structure ShowsOnce (q : Query) (rows : List AuditRow) : Prop where
  once : ∀ answers : ℕ → List AuditRow, (∀ k, Pages.Orders (orderColumn q) rows (answers k)) →
    ((List.range (list q rows).totalPage.toNat).flatMap fun k : ℕ =>
      pageRows q.pageLimit (k + 1) (answers k)).Perm rows
  offset : offset q.pageNumber q.pageLimit = (q.pageNumber - 1) * q.pageLimit

/-! ## The reader's page -/

theorem list_data (q : Query) (rows : List AuditRow) : (list q rows).data =
    (pageRows q.pageLimit q.pageNumber (sortRows q.sortBy q.sortOrder rows)).map summaryOf := by
  simp only [list, pageRows, offset, Query.pageLimit, Query.pageNumber]

theorem orders_sortRows (q : Query) (rows : List AuditRow) :
    Pages.Orders (orderColumn q) rows (sortRows q.sortBy q.sortOrder rows) := by
  refine ⟨List.mergeSort_perm _ _, ?_⟩
  unfold sortRows orderColumn
  split_ifs with hasc
  · exact Tables.pairwise_mergeSort_asc _ _
  · exact (Tables.pairwise_mergeSort_desc _ _).imp fun h => neg_le_neg h

/-! ## Numbers of pages -/

theorem sscanInt_bounds {s : List Char} {i : ℤ} (h : GoText.sscanInt s = some i) :
    -2 ^ 63 ≤ i ∧ i < 2 ^ 63 := by
  simp only [GoText.sscanInt, Option.ite_none_left_eq_some, Option.some.injEq] at h
  obtain ⟨hout, hi⟩ := h
  rw [hi] at hout
  simp only [Bool.or_eq_true, not_or, decide_eq_true_eq, not_lt, not_le] at hout
  exact ⟨hout.1.2, hout.2⟩

theorem positive_bounds (param : String) {default : ℤ} (hpos : 0 < default)
    (hlt : default < 2 ^ 63) : 0 < positive param default ∧ positive param default < 2 ^ 63 := by
  unfold positive
  cases hscan : GoText.sscanInt param.toList with
  | none =>
    simp only [Option.getD_none, not_le.mpr hpos, if_false]
    exact ⟨hpos, hlt⟩
  | some i =>
    simp only [Option.getD_some]
    split_ifs with hle
    · exact ⟨hpos, hlt⟩
    · exact ⟨not_le.mp hle, (sscanInt_bounds hscan).2⟩

theorem int64_of_lt {i : ℤ} (hnonneg : 0 ≤ i) (hlt : i < 2 ^ 63) : int64 i = i :=
  Int.bmod_eq_of_le (by omega) (by omega)

theorem int64_lt (i : ℤ) : int64 i < 2 ^ 63 := by
  have h := Int.bmod_lt (x := i) (m := 2 ^ 64) (by decide)
  unfold int64
  omega

/-- A wrapped number is at least 2⁶⁴ less. -/
theorem int64_le_of_le {i : ℤ} (hle : 2 ^ 63 ≤ i) : int64 i ≤ i - 2 ^ 64 := by
  have hlt := int64_lt i
  obtain ⟨m, hm⟩ := Int.dvd_self_sub_bmod (x := i) (m := 2 ^ 64)
  unfold int64 at hlt ⊢
  omega

/-! ## All pages -/

variable {q : Query} {rows : List AuditRow}

theorem pageLimit_bounds (q : Query) : 0 < q.pageLimit ∧ q.pageLimit < 2 ^ 63 :=
  positive_bounds q.limit (by decide) (by decide)

theorem pageNumber_bounds (q : Query) : 0 < q.pageNumber ∧ q.pageNumber < 2 ^ 63 :=
  positive_bounds q.page (by decide) (by decide)

theorem totalPage_eq (q : Query) (rows : List AuditRow) :
    (list q rows).totalPage = (int64 (rows.length + q.pageLimit - 1)).tdiv q.pageLimit := by
  simp only [list, Query.pageLimit]

/-- When the sum does not wrap, the number of pages is that of the pages of the rows. -/
theorem totalPage_toNat (hfits : rows.length + q.pageLimit - 1 < 2 ^ 63) :
    (list q rows).totalPage.toNat = Pages.pageCount q.pageLimit.toNat rows := by
  obtain ⟨hpos, -⟩ := pageLimit_bounds q
  obtain ⟨limit, hlimit⟩ := Int.eq_ofNat_of_zero_le hpos.le
  rw [totalPage_eq, int64_of_lt (by omega) hfits, Pages.pageCount, hlimit, Int.toNat_natCast]
  rw [hlimit] at hpos
  have hsum : (rows.length : ℤ) + (limit : ℤ) - 1 = ((rows.length + limit - 1 : ℕ) : ℤ) := by
    omega
  rw [hsum, ← Int.ofNat_tdiv, Int.toNat_natCast]

/-- When it does, there are too few. -/
theorem totalPage_mul_lt (hwraps : 2 ^ 63 ≤ rows.length + q.pageLimit - 1) :
    (list q rows).totalPage.toNat * q.pageLimit.toNat < rows.length := by
  obtain ⟨hpos, hlt⟩ := pageLimit_bounds q
  have hle := int64_le_of_le hwraps
  obtain ⟨limit, hlimit⟩ := Int.eq_ofNat_of_zero_le hpos.le
  rw [totalPage_eq, hlimit, Int.toNat_natCast]
  rw [hlimit] at hle hwraps hlt
  rcases le_total 0 (int64 (rows.length + limit - 1)) with hnonneg | hneg
  · obtain ⟨v, hv⟩ := Int.eq_ofNat_of_zero_le hnonneg
    rw [hv, ← Int.ofNat_tdiv, Int.toNat_natCast]
    have hmul := Nat.div_mul_le_self v limit
    omega
  · obtain ⟨v, hv⟩ := Int.eq_ofNat_of_zero_le (neg_nonneg.mpr hneg)
    have hzero : ((int64 (rows.length + limit - 1)).tdiv limit).toNat = 0 := by
      rw [← neg_neg (int64 _), hv, Int.neg_tdiv, ← Int.ofNat_tdiv]
      exact Int.toNat_of_nonpos (Int.neg_nonpos_of_nonneg (Int.natCast_nonneg _))
    rw [hzero]
    omega

theorem pageRows_eq {k : ℕ} (hk : (k : ℤ) * q.pageLimit < 2 ^ 63) (ordered : List AuditRow) :
    pageRows q.pageLimit (k + 1) ordered = Pages.page q.pageLimit.toNat k ordered := by
  obtain ⟨hpos, -⟩ := pageLimit_bounds q
  obtain ⟨limit, hlimit⟩ := Int.eq_ofNat_of_zero_le hpos.le
  rw [pageRows, offset, add_sub_cancel_right, int64_of_lt (by positivity) hk, Pages.page, hlimit]
  rfl

theorem offset_eq_iff {page limit : ℤ} (hpage : 0 < page) (hlimit : 0 < limit) :
    offset page limit = (page - 1) * limit ↔ (page - 1) * limit < 2 ^ 63 := by
  have hnonneg : 0 ≤ (page - 1) * limit := mul_nonneg (by omega) hlimit.le
  constructor
  · intro heq
    have hlt := int64_lt ((page - 1) * limit)
    rw [offset] at heq
    omega
  · exact int64_of_lt hnonneg

theorem nodup_matched (db : Database) (q : Query) : (matched db.audits q).Nodup := by
  unfold matched
  split
  · exact List.nodup_nil
  · exact (List.Nodup.of_map _ db.nodup_ids).filter _

theorem length_pages_le (q : Query) (n : ℕ) (answers : ℕ → List AuditRow) :
    ((List.range n).flatMap fun k : ℕ => pageRows q.pageLimit (k + 1) (answers k)).length ≤
      n * q.pageLimit.toNat := by
  rw [List.length_flatMap]
  refine (List.sum_le_card_nsmul _ q.pageLimit.toNat fun m hm => ?_).trans (by simp)
  obtain ⟨k, -, rfl⟩ := List.mem_map.mp hm
  exact List.length_take_le _ _

/-- Every row is shown once exactly when no rows with the same value are on two pages and
nothing wraps. -/
theorem shows_once_iff (db : Database) (q : Query) : ShowsOnce q (matched db.audits q) ↔
    Pages.Unsplit (orderColumn q) q.pageLimit.toNat (matched db.audits q) ∧
      (matched db.audits q).length + q.pageLimit - 1 < 2 ^ 63 ∧
      (q.pageNumber - 1) * q.pageLimit < 2 ^ 63 := by
  have hlimit : 0 < q.pageLimit.toNat := by
    have hpos := (pageLimit_bounds q).1
    omega
  have hpages : (matched db.audits q).length + q.pageLimit - 1 < 2 ^ 63 →
      ∀ answers : ℕ → List AuditRow,
        ((List.range (list q (matched db.audits q)).totalPage.toNat).flatMap fun k : ℕ =>
          pageRows q.pageLimit (k + 1) (answers k)) =
        (List.range (Pages.pageCount q.pageLimit.toNat (matched db.audits q))).flatMap fun k =>
          Pages.page q.pageLimit.toNat k (answers k) := by
    intro hfits answers
    rw [totalPage_toNat hfits]
    refine List.flatMap_congr fun k hk => pageRows_eq ?_ _
    have hlt := List.mem_range.mp hk
    rw [Pages.pageCount, Nat.lt_div_iff_mul_lt hlimit] at hlt
    have hmul : (k : ℤ) * q.pageLimit = ((k * q.pageLimit.toNat : ℕ) : ℤ) := by
      rw [Nat.cast_mul, Int.toNat_of_nonneg (pageLimit_bounds q).1.le]
    rw [hmul]
    omega
  have hiff := @Pages.pages_perm_iff _ _ _ (orderColumn q) _ _ hlimit (nodup_matched db q)
  constructor
  · rintro ⟨honce, hoffset⟩
    have hfits : (matched db.audits q).length + q.pageLimit - 1 < 2 ^ 63 := by
      by_contra hwraps
      have hperm := honce (fun _ => _) fun _ => orders_sortRows q _
      have hle := length_pages_le q (list q (matched db.audits q)).totalPage.toNat
        fun _ => sortRows q.sortBy q.sortOrder (matched db.audits q)
      rw [hperm.length_eq] at hle
      exact absurd (totalPage_mul_lt (not_lt.mp hwraps)) (not_lt.mpr hle)
    refine ⟨hiff.mp fun answers horders => ?_, hfits, ?_⟩
    · rw [← hpages hfits]
      exact honce answers horders
    · exact (offset_eq_iff (pageNumber_bounds q).1 (pageLimit_bounds q).1).mp hoffset
  · rintro ⟨hunsplit, hfits, hoffset⟩
    refine ⟨fun answers horders => ?_, ?_⟩
    · rw [hpages hfits]
      exact hiff.mpr hunsplit answers horders
    · exact (offset_eq_iff (pageNumber_bounds q).1 (pageLimit_bounds q).1).mpr hoffset

/-- Three events at the same time, listed one by one. -/
def threeEvents : Database where
  members := []
  audits := [{ id := "a", timestamp := 0 }, { id := "b", timestamp := 0 },
    { id := "c", timestamp := 0 }]
  fits r hr := by
    simp only [List.mem_cons, List.not_mem_nil, or_false] at hr
    rcases hr with rfl | rfl | rfl
    · exact fits_plain
    · exact { fits_plain with id := by decide }
    · exact { fits_plain with id := by decide }
  nodup_ids := by decide

def oneByOne : Query := { limit := "1" }

/-- The database may answer every statement with another event first. -/
theorem tie_shown_twice : ¬ShowsOnce oneByOne (matched threeEvents.audits oneByOne) := by
  intro h
  have hmatched : matched threeEvents.audits oneByOne = threeEvents.audits := rfl
  rw [hmatched] at h
  have hperm := h.once (fun k => if k = 1 then threeEvents.audits.rotate 2 else threeEvents.audits)
    fun k => by
      split_ifs
      · exact ⟨List.rotate_perm _ 2, by decide +kernel⟩
      · exact ⟨List.Perm.refl _, by decide +kernel⟩
  revert hperm
  decide +kernel

end BatAudit.Reader
