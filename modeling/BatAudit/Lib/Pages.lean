import Mathlib.Data.List.Sort
import BatAudit.Lib.Tables

/-!
# Pages of a list in an order

A page is a part of the rows in the order of a column. Each page is asked for on its own, so
that rows with the same value may be in another order every time. The pages are the rows
exactly when no such rows are on two pages.
-/

namespace Pages

variable {α τ : Type*} [LinearOrder τ] (column : α → τ) (limit : ℕ)

/-- The rows, in an order of the column. -/
structure Orders (rows ordered : List α) : Prop where
  perm : ordered.Perm rows
  sorted : ordered.Pairwise fun r r' => column r ≤ column r'

/-- The page numbered from zero. -/
def page (k : ℕ) (ordered : List α) : List α := (ordered.drop (k * limit)).take limit

def pageCount (rows : List α) : ℕ := (rows.length + limit - 1) / limit

/-- The rows that come before a row in every order. -/
def before (rows : List α) (r : α) : ℕ := rows.countP fun r' => column r' < column r

/-- The rows that come before it, or may. -/
def upTo (rows : List α) (r : α) : ℕ := rows.countP fun r' => column r' ≤ column r

/-- No rows with the same value are on two pages. -/
def Unsplit (rows : List α) : Prop :=
  ∀ r ∈ rows, before column rows r / limit = (upTo column rows r - 1) / limit

instance (rows : List α) : Decidable (Unsplit column limit rows) :=
  inferInstanceAs (Decidable (∀ r ∈ rows, _))

variable {column limit} {rows ordered : List α}

variable (column) in
theorem orders_mergeSort (rows : List α) :
    Orders column rows (rows.mergeSort fun r r' => column r ≤ column r') :=
  ⟨List.mergeSort_perm _ _, Tables.pairwise_mergeSort_asc column rows⟩

/-! ## The place of a row -/

theorem place_of_orders (h : Orders column rows ordered) {pre post : List α} {r : α}
    (hr : ordered = pre ++ r :: post) :
    before column rows r ≤ pre.length ∧ pre.length < upTo column rows r := by
  have hsorted := h.sorted
  rw [hr, List.pairwise_append, List.pairwise_cons] at hsorted
  obtain ⟨-, ⟨hafter, -⟩, hbefore⟩ := hsorted
  have hnone : (r :: post).countP (fun r' => column r' < column r) = 0 := by
    refine List.countP_eq_zero.mpr fun r' hr' => ?_
    rcases List.mem_cons.mp hr' with rfl | hr'
    · simp
    · simpa using hafter r' hr'
  have hall : pre.countP (fun r' => column r' ≤ column r) = pre.length :=
    List.countP_eq_length.mpr fun r' hr' => decide_eq_true (hbefore r' hr' r List.mem_cons_self)
  rw [before, upTo, ← h.perm.countP_eq, ← h.perm.countP_eq, hr, List.countP_append,
    List.countP_append, hnone, hall, List.countP_cons_of_pos (by simp)]
  exact ⟨List.countP_le_length, by omega⟩

theorem page_eq_of_place (h : Orders column rows ordered)
    (hunsplit : Unsplit column limit rows) {pre post : List α} {r : α}
    (hr : ordered = pre ++ r :: post) :
    before column rows r / limit = pre.length / limit := by
  obtain ⟨hle, hlt⟩ := place_of_orders h hr
  have hmem : r ∈ rows := h.perm.mem_iff.mp (hr ▸ List.mem_append_right _ List.mem_cons_self)
  have hsame := hunsplit r hmem
  have hlow : before column rows r / limit ≤ pre.length / limit := Nat.div_le_div_right hle
  have hhigh : pre.length / limit ≤ (upTo column rows r - 1) / limit :=
    Nat.div_le_div_right (by omega)
  omega

/-- A part of a list is a filter that keeps the places from `a` on and before `b`. -/
theorem filter_eq_take_drop {p : α → Bool} {a b : ℕ} {xs : List α}
    (h : ∀ pre x post, xs = pre ++ x :: post → (p x = true ↔ a ≤ pre.length ∧ pre.length < b)) :
    xs.filter p = (xs.drop a).take (b - a) := by
  induction xs generalizing a b with
  | nil => simp
  | cons x xs ih =>
    have hx := h [] x xs rfl
    have hrest : xs.filter p = (xs.drop (a - 1)).take (b - 1 - (a - 1)) :=
      ih fun pre y post hxs => by
        have hy := h (x :: pre) y post (by rw [hxs, List.cons_append])
        rw [hy, List.length_cons]
        omega
    cases a with
    | zero =>
      cases b with
      | zero =>
        have hnot : ¬p x = true := fun hp => absurd (hx.mp hp).2 (Nat.lt_irrefl 0)
        rw [List.filter_cons_of_neg hnot, hrest]
        rfl
      | succ b =>
        have hp : p x = true := hx.mpr ⟨Nat.le_refl 0, Nat.succ_pos b⟩
        rw [List.filter_cons_of_pos hp, hrest]
        rfl
    | succ a =>
      have hnot : ¬p x = true := fun hp => absurd (hx.mp hp).1 (Nat.not_succ_le_zero a)
      rw [List.filter_cons_of_neg hnot, hrest, List.drop_succ_cons, Nat.add_sub_cancel]
      congr 1
      omega

theorem page_eq_filter (hlimit : 0 < limit) (h : Orders column rows ordered)
    (hunsplit : Unsplit column limit rows) (k : ℕ) :
    page limit k ordered = ordered.filter fun r => before column rows r / limit = k := by
  have hpage : page limit k ordered =
      (ordered.drop (k * limit)).take (k * limit + limit - k * limit) := by
    rw [Nat.add_sub_cancel_left]
    rfl
  rw [hpage]
  refine (filter_eq_take_drop fun pre r post hr => ?_).symm
  rw [decide_eq_true_iff, page_eq_of_place h hunsplit hr, Nat.div_eq_iff hlimit]
  constructor
  · rintro ⟨hle, hlt⟩
    omega
  · rintro ⟨hle, hlt⟩
    omega

/-! ## All the pages -/

theorem pages_perm (hlimit : 0 < limit) (hunsplit : Unsplit column limit rows)
    {answers : ℕ → List α} (h : ∀ k, Orders column rows (answers k)) :
    ((List.range (pageCount limit rows)).flatMap fun k => page limit k (answers k)).Perm rows := by
  have hpages : ((List.range (pageCount limit rows)).flatMap fun k =>
      page limit k (answers k)).Perm ((List.range (pageCount limit rows)).flatMap fun k =>
        rows.filter fun r => before column rows r / limit = k) :=
    List.Perm.flatMap_left _ fun k _ => by
      rw [page_eq_filter hlimit (h k) hunsplit]
      exact (h k).perm.filter _
  refine hpages.trans (Tables.flatMap_filter_perm List.nodup_range fun r hr => ?_)
  rw [List.mem_range, pageCount, Nat.div_lt_iff_lt_mul hlimit]
  obtain ⟨pre, post, hsplit⟩ := List.append_of_mem ((h 0).perm.mem_iff.mpr hr)
  have hle := (place_of_orders (h 0) hsplit).1
  have hlength := (h 0).perm.length_eq
  rw [hsplit, List.length_append, List.length_cons] at hlength
  have hceil := Nat.lt_div_mul_add (a := rows.length + limit - 1) hlimit
  omega

/-- The rows at two places next to each other, in the other order. -/
theorem orders_swap {pre post : List α} {r r' : α} (h : Orders column rows (pre ++ r :: r' :: post))
    (heq : column r = column r') : Orders column rows (pre ++ r' :: r :: post) := by
  refine ⟨(List.Perm.append_left pre (List.Perm.swap r r' post)).trans h.perm, ?_⟩
  have hsorted := h.sorted
  simp only [List.pairwise_append, List.pairwise_cons, List.mem_cons, forall_eq_or_imp] at hsorted ⊢
  obtain ⟨hpre, ⟨⟨-, hr⟩, hr', hpost⟩, hbefore⟩ := hsorted
  refine ⟨hpre, ⟨⟨heq.ge, hr'⟩, hr, hpost⟩, fun x hx => ?_⟩
  obtain ⟨hxr, hxr', hxpost⟩ := hbefore x hx
  exact ⟨hxr', hxr, hxpost⟩

theorem column_eq_of_place (h : Orders column rows ordered) {pre post : List α} {x r : α}
    (hx : ordered = pre ++ x :: post) (hlow : before column rows r ≤ pre.length)
    (hhigh : pre.length < upTo column rows r) : column x = column r := by
  have hsorted := h.sorted
  rw [hx, List.pairwise_append, List.pairwise_cons] at hsorted
  obtain ⟨-, ⟨hafter, -⟩, hbefore⟩ := hsorted
  rw [before, ← h.perm.countP_eq, hx, List.countP_append] at hlow
  rw [upTo, ← h.perm.countP_eq, hx, List.countP_append] at hhigh
  refine le_antisymm (not_lt.mp fun hlt => ?_) (not_lt.mp fun hlt => ?_)
  · have hnone : (x :: post).countP (fun r' => column r' ≤ column r) = 0 := by
      refine List.countP_eq_zero.mpr fun r' hr' => ?_
      rcases List.mem_cons.mp hr' with rfl | hr'
      · simpa using hlt
      · simpa using hlt.trans_le (hafter r' hr')
    have hle : pre.countP (fun r' => column r' ≤ column r) ≤ pre.length := List.countP_le_length
    omega
  · have hall : pre.countP (fun r' => column r' < column r) = pre.length :=
      List.countP_eq_length.mpr fun r' hr' =>
        decide_eq_true ((hbefore r' hr' x List.mem_cons_self).trans_lt hlt)
    rw [hall, List.countP_cons_of_pos (by simpa using hlt)] at hlow
    omega

theorem mem_page {pre post : List α} {x : α} {k : ℕ} (hx : ordered = pre ++ x :: post)
    (hlow : k * limit ≤ pre.length) (hhigh : pre.length < k * limit + limit) :
    x ∈ page limit k ordered := by
  have hpos : 0 < limit - (pre.drop (k * limit)).length := by
    rw [List.length_drop]
    omega
  obtain ⟨n, hn⟩ := Nat.exists_eq_succ_of_ne_zero hpos.ne'
  rw [page, hx, List.drop_append_of_le_length hlow, List.take_append, hn, List.take_succ_cons]
  exact List.mem_append_right _ List.mem_cons_self

/-- Of rows that are on two pages, one can be shown on both. -/
theorem exists_answers (hlimit : 0 < limit) (hnodup : rows.Nodup)
    (hsplit : ¬Unsplit column limit rows) :
    ∃ answers : ℕ → List α, (∀ k, Orders column rows (answers k)) ∧
      ¬((List.range (pageCount limit rows)).flatMap fun k =>
        page limit k (answers k)).Perm rows := by
  obtain ⟨r, hr, hne⟩ : ∃ r ∈ rows, before column rows r / limit ≠
      (upTo column rows r - 1) / limit := by
    by_contra hall
    exact hsplit fun r hr => by_contra fun hne => hall ⟨r, hr, hne⟩
  have hord := orders_mergeSort column rows
  set ordered := rows.mergeSort fun r r' => column r ≤ column r'
  obtain ⟨front, back, hplace⟩ := List.append_of_mem (hord.perm.mem_iff.mpr hr)
  obtain ⟨hle, hlt⟩ := place_of_orders hord hplace
  have hupTo : upTo column rows r ≤ ordered.length := by
    rw [hord.perm.length_eq]
    exact List.countP_le_length
  -- a page begins at a place that such a row may have, and the place before is another
  have hdiv : before column rows r / limit < (upTo column rows r - 1) / limit :=
    lt_of_le_of_ne (Nat.div_le_div_right (by omega)) hne
  obtain ⟨c, hc⟩ : ∃ c, (upTo column rows r - 1) / limit = c + 1 :=
    Nat.exists_eq_succ_of_ne_zero (Nat.ne_zero_of_lt hdiv)
  have hbound : (c + 1) * limit ≤ upTo column rows r - 1 := hc ▸ Nat.div_mul_le_self _ _
  have hbefore : before column rows r < (c + 1) * limit :=
    (Nat.div_lt_iff_lt_mul hlimit).mp (hc ▸ hdiv)
  obtain ⟨pre, x, y, post, hxy, hpre⟩ : ∃ pre x y post,
      ordered = pre ++ x :: y :: post ∧ pre.length = (c + 1) * limit - 1 := by
    have htake := List.take_append_drop ((c + 1) * limit - 1) ordered
    have hlength : (ordered.drop ((c + 1) * limit - 1)).length =
        ordered.length - ((c + 1) * limit - 1) := List.length_drop
    match hdrop : ordered.drop ((c + 1) * limit - 1) with
    | [] | [_] =>
      rw [hdrop] at hlength
      simp only [List.length_nil, List.length_singleton] at hlength
      omega
    | x :: y :: post =>
      refine ⟨_, x, y, post, (hdrop ▸ htake).symm, ?_⟩
      rw [List.length_take]
      omega
  have hcx := column_eq_of_place (r := r) hord hxy (by omega) (by omega)
  have hcy := column_eq_of_place (r := r) hord
    (hxy.trans (List.append_cons pre x (y :: post))) (by simp; omega) (by simp; omega)
  have hswap : Orders column rows (pre ++ y :: x :: post) :=
    orders_swap (hxy ▸ hord) (hcx.trans hcy.symm)
  refine ⟨fun k => if k = c + 1 then pre ++ y :: x :: post else ordered, fun k => ?_,
    fun hperm => ?_⟩
  · beta_reduce
    split_ifs
    · exact hswap
    · exact hord
  · -- the row `x` is the last of a page and the first of the next
    have hmul : (c + 1) * limit = c * limit + limit := Nat.succ_mul c limit
    have hfirst : x ∈ page limit c ordered := mem_page hxy (by omega) (by omega)
    have hsecond : x ∈ page limit (c + 1) (pre ++ y :: x :: post) :=
      mem_page (List.append_cons pre y (x :: post)) (by simp; omega) (by simp; omega)
    have hlast : c + 1 < pageCount limit rows := by
      rw [pageCount, Nat.lt_div_iff_mul_lt hlimit, ← hord.perm.length_eq]
      omega
    have hpages := (List.nodup_flatMap.mp (hperm.nodup_iff.mpr hnodup)).2
    have hdisjoint := List.pairwise_iff_getElem.mp hpages c (c + 1) (by simp; omega) (by simpa)
      (Nat.lt_succ_self c)
    simp only [List.getElem_range, Function.onFun, if_neg (Nat.lt_succ_self c).ne, if_true]
      at hdisjoint
    exact hdisjoint hfirst hsecond

theorem pages_perm_iff (hlimit : 0 < limit) (hnodup : rows.Nodup) :
    (∀ answers : ℕ → List α, (∀ k, Orders column rows (answers k)) →
      ((List.range (pageCount limit rows)).flatMap fun k => page limit k (answers k)).Perm rows) ↔
      Unsplit column limit rows := by
  refine ⟨fun h => by_contra fun hsplit => ?_, fun hunsplit _ => pages_perm hlimit hunsplit⟩
  obtain ⟨answers, horders, hnot⟩ := exists_answers hlimit hnodup hsplit
  exact hnot (h answers horders)

end Pages
