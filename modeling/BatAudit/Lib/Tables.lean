import Mathlib.Data.List.Dedup
import Mathlib.Data.List.Perm.Basic
import Mathlib.Algebra.BigOperators.Group.List.Basic
import Mathlib.Algebra.GroupWithZero.Nat
import Mathlib.Order.Lattice

/-!
# Relational statements over lists of rows

A table is the list of its rows in physical order. `groupBy` is an aggregating
`SELECT ... GROUP BY`, `insertIgnore` an `INSERT ... ON CONFLICT DO NOTHING` on
a unique key, a `DELETE` is a `filter`, and `sumWhere` is the sum of a column
over the selected rows. The lemmas say what a grouped insertion and a deletion
do to such sums, key by key.
-/

namespace Tables

variable {α β κ : Type*} [DecidableEq κ]

def groupBy (key : α → κ) (agg : κ → List α → β) (rows : List α) : List β :=
  (rows.map key).dedup.map fun k => agg k (rows.filter fun r => key r = k)

def insertIgnore (key : β → κ) (table new : List β) : List β :=
  new.foldl (fun t r => if key r ∈ t.map key then t else t ++ [r]) table

def sumWhere (p : α → Bool) (f : α → ℕ) (rows : List α) : ℕ :=
  ((rows.filter p).map f).sum

section Sums

variable (p q : α → Bool) (f : α → ℕ)

@[simp] theorem sumWhere_nil : sumWhere p f [] = 0 := rfl

theorem sumWhere_cons (r : α) (rows : List α) :
    sumWhere p f (r :: rows) = (if p r then f r else 0) + sumWhere p f rows := by
  by_cases h : p r <;> simp [sumWhere, h]

@[simp] theorem sumWhere_append (xs ys : List α) :
    sumWhere p f (xs ++ ys) = sumWhere p f xs + sumWhere p f ys := by
  simp [sumWhere]

theorem sumWhere_filter (rows : List α) :
    sumWhere p f (rows.filter q) = sumWhere (fun r => p r && q r) f rows := by
  simp [sumWhere, List.filter_filter]

/-- A deletion splits a sum into what it keeps and what it removes. -/
theorem sumWhere_delete (rows : List α) :
    sumWhere p f (rows.filter fun r => !q r) + sumWhere p f (rows.filter q) =
      sumWhere p f rows := by
  induction rows with
  | nil => rfl
  | cons r rows ih =>
    by_cases hq : q r <;> simp only [List.filter_cons, hq, Bool.not_true, Bool.not_false,
      Bool.false_eq_true, if_true, if_false, sumWhere_cons] <;> omega

theorem sumWhere_congr {p q : α → Bool} {f g : α → ℕ} {rows : List α}
    (hp : ∀ r ∈ rows, p r = q r) (hf : ∀ r ∈ rows, f r = g r) :
    sumWhere p f rows = sumWhere q g rows := by
  induction rows with
  | nil => rfl
  | cons r rows ih =>
    rw [sumWhere_cons, sumWhere_cons, hp r List.mem_cons_self, hf r List.mem_cons_self,
      ih (fun x hx => hp x (List.mem_cons_of_mem _ hx))
        (fun x hx => hf x (List.mem_cons_of_mem _ hx))]

theorem sumWhere_eq_zero {rows : List α} (h : ∀ r ∈ rows, p r = false) :
    sumWhere p f rows = 0 := by
  have hnil : rows.filter p = [] := List.filter_eq_nil_iff.mpr (by simpa using h)
  simp [sumWhere, hnil]

theorem le_sumWhere {r : α} {rows : List α} (hr : r ∈ rows) (hp : p r = true) :
    f r ≤ sumWhere p f rows := by
  induction rows with
  | nil => exact absurd hr List.not_mem_nil
  | cons x rows ih =>
    rw [sumWhere_cons]
    rcases List.mem_cons.mp hr with rfl | hr
    · simp [hp]
    · exact Nat.le_trans (ih hr) (Nat.le_add_left _ _)

theorem sumWhere_one (rows : List α) : sumWhere p (fun _ => 1) rows = rows.countP p := by
  simp [sumWhere, List.countP_eq_length_filter]

theorem countP_eq_sum (rows : List α) :
    rows.countP p = (rows.map fun r => if p r then 1 else 0).sum := by
  induction rows with
  | nil => rfl
  | cons r rows ih => rw [List.countP_cons, ih, List.map_cons, List.sum_cons, Nat.add_comm]

theorem countP_split (rows : List α) :
    rows.countP p = rows.countP (fun r => p r && q r) + rows.countP fun r => p r && !q r := by
  induction rows with
  | nil => rfl
  | cons r rows ih =>
    simp only [List.countP_cons, ih]
    cases p r <;> cases q r <;> simp <;> omega

end Sums

section Insert

variable (key : β → κ)

theorem insertIgnore_eq {table new : List β} (h : (new.map key).Nodup) :
    insertIgnore key table new = table ++ new.filter fun r => key r ∉ table.map key := by
  induction new generalizing table with
  | nil => simp [insertIgnore]
  | cons r new ih =>
    obtain ⟨hr, hn⟩ := List.nodup_cons.mp h
    change insertIgnore key (if key r ∈ table.map key then table else table ++ [r]) new = _
    by_cases hk : key r ∈ table.map key
    · rw [if_pos hk, ih hn, List.filter_cons_of_neg (by simpa using hk)]
    · rw [if_neg hk, ih hn, List.filter_cons_of_pos (by simpa using hk), List.append_assoc,
        List.singleton_append]
      congr 2
      -- a later row never has the key just inserted, since the new keys are distinct
      apply List.filter_congr
      intro x hx
      have hne : key x ≠ key r := fun he => hr (he ▸ List.mem_map_of_mem hx)
      simp [hne]

theorem nodup_insertIgnore {table : List β} (new : List β) (h : (table.map key).Nodup) :
    ((insertIgnore key table new).map key).Nodup := by
  induction new generalizing table with
  | nil => exact h
  | cons r new ih =>
    change ((insertIgnore key (if key r ∈ table.map key then table else table ++ [r]) new).map
      key).Nodup
    by_cases hk : key r ∈ table.map key
    · rw [if_pos hk]
      exact ih h
    · rw [if_neg hk]
      apply ih
      rw [List.map_append, List.map_singleton]
      exact List.nodup_append.mpr ⟨h, List.nodup_singleton _, by
        rintro a ha b hb rfl
        exact hk (List.mem_singleton.mp hb ▸ ha)⟩

theorem mem_of_mem_insertIgnore {key : β → κ} {table new : List β} {x : β}
    (hx : x ∈ insertIgnore key table new) : x ∈ table ∨ x ∈ new := by
  induction new generalizing table with
  | nil => exact Or.inl hx
  | cons r new ih =>
    change x ∈ insertIgnore key (if key r ∈ table.map key then table else table ++ [r]) new at hx
    rcases ih hx with hx | hx
    · by_cases hk : key r ∈ table.map key
      · rw [if_pos hk] at hx
        exact Or.inl hx
      · rw [if_neg hk, List.mem_append, List.mem_singleton] at hx
        rcases hx with hx | rfl
        · exact Or.inl hx
        · exact Or.inr List.mem_cons_self
    · exact Or.inr (List.mem_cons_of_mem _ hx)

end Insert

section Group

variable {key : α → κ} {agg : κ → List α → β} {out : β → κ}

theorem mem_groupBy {rows : List α} {x : β} :
    x ∈ groupBy key agg rows ↔
      ∃ k ∈ rows.map key, agg k (rows.filter fun r => key r = k) = x := by
  simp [groupBy]

theorem map_groupBy (hout : ∀ k rs, out (agg k rs) = k) (rows : List α) :
    (groupBy key agg rows).map out = (rows.map key).dedup := by
  simp [groupBy, Function.comp_def, hout]

theorem nodup_groupBy (hout : ∀ k rs, out (agg k rs) = k) (rows : List α) :
    ((groupBy key agg rows).map out).Nodup := by
  rw [map_groupBy hout]
  exact List.nodup_dedup _

theorem filter_groupBy (hout : ∀ k rs, out (agg k rs) = k) (rows : List α) (k : κ) :
    (groupBy key agg rows).filter (fun x => out x = k) =
      if k ∈ rows.map key then [agg k (rows.filter fun r => key r = k)] else [] := by
  have hcomp : ((fun x => decide (out x = k)) ∘
      fun k' => agg k' (rows.filter fun r => key r = k')) = fun k' => decide (k' = k) := by
    funext k'
    simp [hout]
  rw [groupBy, List.filter_map, hcomp]
  by_cases hk : k ∈ rows.map key
  · rw [if_pos hk]
    have hone : (rows.map key).dedup.filter (fun k' => decide (k' = k)) = [k] := by
      have hc := List.count_eq_one_of_mem (List.nodup_dedup (rows.map key)) (List.mem_dedup.mpr hk)
      have hf : (rows.map key).dedup.filter (fun k' => decide (k' = k)) =
          List.replicate ((rows.map key).dedup.count k) k := by
        rw [← List.filter_eq]
      rw [hf, hc, List.replicate_one]
    rw [hone, List.map_singleton]
  · rw [if_neg hk]
    have hnil : (rows.map key).dedup.filter (fun k' => decide (k' = k)) = [] := by
      apply List.filter_eq_nil_iff.mpr
      intro x hx he
      exact hk (of_decide_eq_true he ▸ List.mem_dedup.mp hx)
    rw [hnil, List.map_nil]

/-- Grouping conserves a summed column, key by key. -/
theorem sumWhere_groupBy (hout : ∀ k rs, out (agg k rs) = k) {f : β → ℕ} {g : α → ℕ}
    (hf : ∀ k rs, f (agg k rs) = (rs.map g).sum) (rows : List α) (k : κ) :
    sumWhere (fun x => out x = k) f (groupBy key agg rows) =
      sumWhere (fun r => key r = k) g rows := by
  rw [sumWhere, filter_groupBy hout]
  by_cases hk : k ∈ rows.map key
  · simp [hk, hf, sumWhere]
  · rw [if_neg hk, List.map_nil, List.sum_nil]
    refine (sumWhere_eq_zero _ _ fun r hr => ?_).symm
    exact decide_eq_false fun he => hk (he ▸ List.mem_map_of_mem hr)

/-- A sum can be taken group by group. -/
theorem sum_map_sum_filter {M : Type*} [AddCommMonoid M] {ks : List κ} {g : α → M}
    {rows : List α} (hnodup : ks.Nodup) (hks : ∀ r ∈ rows, key r ∈ ks) :
    (ks.map fun k => ((rows.filter fun r => key r = k).map g).sum).sum = (rows.map g).sum := by
  induction rows with
  | nil => simp
  | cons r rows ih =>
    have hrest := ih fun r' hr' => hks r' (List.mem_cons_of_mem r hr')
    have hone : (ks.map fun k => if key r = k then g r else 0).sum = g r := by
      rw [List.sum_map_eq_nsmul_single (key r) _ fun k hk _ => if_neg (Ne.symm hk), if_pos rfl,
        List.count_eq_one_of_mem hnodup (hks r List.mem_cons_self), one_nsmul]
    have hcons : ∀ k, (((r :: rows).filter fun r => key r = k).map g).sum =
        (if key r = k then g r else 0) + ((rows.filter fun r => key r = k).map g).sum := by
      intro k
      by_cases hk : key r = k <;> simp [hk]
    simp only [hcons, List.sum_map_add, hone, hrest, List.map_cons, List.sum_cons]

theorem sum_map_keys {ks : List κ} {g : α → ℕ} {rows : List α} (hnodup : ks.Nodup)
    (hks : ∀ r ∈ rows, key r ∈ ks) :
    (ks.map fun k => sumWhere (fun r => key r = k) g rows).sum = (rows.map g).sum :=
  sum_map_sum_filter hnodup hks

/-- A column that an aggregation sums up has the same sum over the groups. -/
theorem sum_map_groupBy {M : Type*} [AddCommMonoid M] {f : β → M} {g : α → M}
    (rows : List α) (hf : ∀ k, f (agg k (rows.filter fun r => key r = k)) =
      ((rows.filter fun r => key r = k).map g).sum) :
    ((groupBy key agg rows).map f).sum = (rows.map g).sum := by
  rw [groupBy, List.map_map]
  refine Eq.trans (congrArg List.sum (List.map_congr_left fun k _ => hf k)) ?_
  exact sum_map_sum_filter (List.nodup_dedup _)
    fun r hr => List.mem_dedup.mpr (List.mem_map_of_mem hr)

/-- So does one that counts. -/
theorem sum_map_groupBy_of_countP {f : β → ℕ} {q : α → Bool}
    (hf : ∀ k rs, f (agg k rs) = rs.countP q) (rows : List α) :
    ((groupBy key agg rows).map f).sum = rows.countP q := by
  rw [countP_eq_sum]
  exact sum_map_groupBy rows fun k => (hf k _).trans (countP_eq_sum q _)

/-- Lists for keys of their own, one of them found again by its key. -/
theorem filter_flatMap_keys {ks : List κ} {f : κ → List β} (hnodup : ks.Nodup)
    (hf : ∀ k, ∀ x ∈ f k, out x = k) {k : κ} (hk : k ∈ ks) :
    (ks.flatMap f).filter (fun x => out x = k) = f k := by
  induction ks with
  | nil => exact absurd hk List.not_mem_nil
  | cons k' ks ih =>
    obtain ⟨hk', hnodup⟩ := List.nodup_cons.mp hnodup
    have hnone : ∀ k'' ∈ ks, k'' ≠ k → (f k'').filter (fun x => out x = k) = [] :=
      fun k'' _ hne => List.filter_eq_nil_iff.mpr fun x hx => by simpa [hf k'' x hx] using hne
    rw [List.flatMap_cons, List.filter_append]
    rcases List.mem_cons.mp hk with rfl | hk
    · have hown : (f k).filter (fun x => out x = k) = f k :=
        List.filter_eq_self.mpr fun x hx => decide_eq_true (hf k x hx)
      have hrest : (ks.flatMap f).filter (fun x => out x = k) = [] := by
        rw [List.filter_flatMap, List.flatMap_eq_nil_iff]
        exact fun k'' hk'' => hnone k'' hk'' fun heq => hk' (heq ▸ hk'')
      rw [hown, hrest, List.append_nil]
    · have hne : k' ≠ k := fun heq => hk' (heq ▸ hk)
      have hfirst : (f k').filter (fun x => out x = k) = [] :=
        List.filter_eq_nil_iff.mpr fun x hx => by simpa [hf k' x hx] using hne
      rw [hfirst, List.nil_append, ih hnodup hk]

/-- The groups together are the rows. -/
theorem flatMap_filter_perm {ks : List κ} {rows : List α} (hnodup : ks.Nodup)
    (hks : ∀ r ∈ rows, key r ∈ ks) :
    (ks.flatMap fun k => rows.filter fun r => key r = k).Perm rows := by
  induction ks generalizing rows with
  | nil =>
    rw [List.eq_nil_iff_forall_not_mem.mpr fun r hr => List.not_mem_nil (hks r hr)]
    exact List.Perm.refl _
  | cons k ks ih =>
    obtain ⟨hk, hnodup⟩ := List.nodup_cons.mp hnodup
    have hrest : (ks.flatMap fun k' => (rows.filter fun r => !decide (key r = k)).filter
        fun r => key r = k').Perm (rows.filter fun r => !decide (key r = k)) := by
      refine ih hnodup fun r hr => ?_
      obtain ⟨hr, hne⟩ := List.mem_filter.mp hr
      exact (List.mem_cons.mp (hks r hr)).resolve_left (by simpa using hne)
    have heq : (ks.flatMap fun k' => rows.filter fun r => key r = k') =
        ks.flatMap fun k' => (rows.filter fun r => !decide (key r = k)).filter
          fun r => key r = k' := by
      refine List.flatMap_congr fun k' hk' => ?_
      rw [List.filter_filter]
      refine List.filter_congr fun r _ => ?_
      by_cases hr : key r = k'
      · have hne : k' ≠ k := fun he => hk (he ▸ hk')
        simp [hr, hne]
      · simp [hr]
    rw [List.flatMap_cons, heq]
    exact (List.Perm.append_left _ hrest).trans (List.filter_append_perm _ rows)

/-- Rows with a key that no others have are a group of their own, before those of the others. -/
theorem groupBy_append {rows rows' : List α} {k : κ} (hne : rows ≠ [])
    (hkey : ∀ r ∈ rows, key r = k) (hrest : ∀ r ∈ rows', key r ≠ k) :
    groupBy key agg (rows ++ rows') = agg k rows :: groupBy key agg rows' := by
  have hnot : k ∉ rows'.map key := by
    intro hmem
    obtain ⟨r, hr, heq⟩ := List.mem_map.mp hmem
    exact hrest r hr heq
  have hkeys : ((rows ++ rows').map key).dedup = k :: (rows'.map key).dedup := by
    rw [List.map_append]
    induction rows with
    | nil => exact absurd rfl hne
    | cons r rows ih =>
      rw [List.map_cons, List.cons_append, hkey r List.mem_cons_self]
      cases rows with
      | nil => exact List.dedup_cons_of_notMem hnot
      | cons r' rows =>
        have hr' := hkey r' (List.mem_cons_of_mem r List.mem_cons_self)
        rw [List.dedup_cons_of_mem (List.mem_append_left _ (hr' ▸ List.mem_cons_self))]
        exact ih (List.cons_ne_nil r' rows) fun x hx => hkey x (List.mem_cons_of_mem r hx)
  have hown : (rows ++ rows').filter (fun r => key r = k) = rows := by
    rw [List.filter_append, List.filter_eq_self.mpr fun r hr => decide_eq_true (hkey r hr),
      List.filter_eq_nil_iff.mpr fun r hr => by simpa using hrest r hr, List.append_nil]
  rw [groupBy, hkeys, List.map_cons, hown, groupBy]
  refine congrArg _ (List.map_congr_left fun k' hk' => ?_)
  have hne' : k ≠ k' := fun heq => hnot (heq ▸ List.mem_dedup.mp hk')
  rw [List.filter_append, List.filter_eq_nil_iff.mpr fun r hr => by simpa [hkey r hr] using hne',
    List.nil_append]

/-- Rows with one key are one group. -/
theorem groupBy_of_key_eq {rows : List α} {k : κ} (hne : rows ≠ [])
    (hkey : ∀ r ∈ rows, key r = k) : groupBy key agg rows = [agg k rows] := by
  have h := @groupBy_append _ _ _ _ key agg _ [] _ hne hkey fun r hr => absurd hr List.not_mem_nil
  rwa [List.append_nil] at h

/-- The same for all keys of a kind. -/
theorem sumWhere_groupBy_of_key (hout : ∀ k rs, out (agg k rs) = k) {f : β → ℕ} {g : α → ℕ}
    (hf : ∀ k rs, f (agg k rs) = (rs.map g).sum) (q : κ → Bool) (rows : List α) :
    sumWhere (fun x => q (out x)) f (groupBy key agg rows) =
      sumWhere (fun r => q (key r)) g rows := by
  have hkeys : ∀ r ∈ rows.filter (fun r => q (key r)), key r ∈ (rows.map key).dedup.filter q := by
    intro r hr
    obtain ⟨hr, hq⟩ := List.mem_filter.mp hr
    exact List.mem_filter.mpr ⟨List.mem_dedup.mpr (List.mem_map_of_mem hr), hq⟩
  have hnodup : ((rows.map key).dedup.filter q).Nodup := (List.nodup_dedup _).filter q
  rw [sumWhere, sumWhere, ← sum_map_keys hnodup hkeys, groupBy, List.filter_map, List.map_map]
  have hq : ((fun x => q (out x)) ∘ fun k => agg k (rows.filter fun r => key r = k)) = q := by
    funext k
    simp [hout]
  rw [hq]
  refine congrArg List.sum (List.map_congr_left fun k hk => ?_)
  have hqk := (List.mem_filter.mp hk).2
  rw [Function.comp_apply, hf, sumWhere, List.filter_filter]
  refine congrArg List.sum (congrArg (List.map g) (List.filter_congr fun r _ => ?_))
  by_cases hr : key r = k
  · simp [hr, hqk]
  · simp [hr]

/-- What a grouped `INSERT ... ON CONFLICT DO NOTHING` adds to the sum at a key:
everything the group of that key holds when the key is new, nothing otherwise. -/
theorem sumWhere_insertIgnore_groupBy (hout : ∀ k rs, out (agg k rs) = k) {f : β → ℕ} {g : α → ℕ}
    (hf : ∀ k rs, f (agg k rs) = (rs.map g).sum) (table : List β) (rows : List α) (k : κ) :
    sumWhere (fun x => out x = k) f (insertIgnore out table (groupBy key agg rows)) =
      sumWhere (fun x => out x = k) f table +
        if k ∈ table.map out then 0 else sumWhere (fun r => key r = k) g rows := by
  rw [insertIgnore_eq out (nodup_groupBy hout rows), sumWhere_append, sumWhere_filter]
  congr 1
  by_cases hk : k ∈ table.map out
  · rw [if_pos hk]
    apply sumWhere_eq_zero
    intro x _
    by_cases hx : out x = k
    · simpa [hx] using hk
    · simp [hx]
  · rw [if_neg hk, ← sumWhere_groupBy hout hf]
    refine sumWhere_congr (fun x _ => ?_) (fun _ _ => rfl)
    by_cases hx : out x = k
    · simpa [hx] using hk
    · simp [hx]

theorem mem_map_insertIgnore_groupBy (hout : ∀ k rs, out (agg k rs) = k) (table : List β)
    (rows : List α) (k : κ) :
    k ∈ (insertIgnore out table (groupBy key agg rows)).map out ↔
      k ∈ table.map out ∨ k ∈ rows.map key := by
  rw [insertIgnore_eq out (nodup_groupBy hout rows), List.map_append, List.mem_append]
  have hmem : k ∈ (groupBy key agg rows).map out ↔ k ∈ rows.map key := by
    rw [map_groupBy hout, List.mem_dedup]
  constructor
  · rintro (h | h)
    · exact Or.inl h
    · obtain ⟨x, hx, rfl⟩ := List.mem_map.mp h
      exact Or.inr (hmem.mp (List.mem_map_of_mem (List.mem_filter.mp hx).1))
  · rintro (h | h)
    · exact Or.inl h
    · by_cases ht : k ∈ table.map out
      · exact Or.inl ht
      · obtain ⟨x, hx, rfl⟩ := List.mem_map.mp (hmem.mpr h)
        exact Or.inr (List.mem_map_of_mem (List.mem_filter.mpr ⟨hx, by simpa using ht⟩))

end Group

section Order

variable {τ : Type*} [LinearOrder τ] (column : α → τ) (rows : List α)

/-- `ORDER BY column`. -/
theorem pairwise_mergeSort_asc :
    (rows.mergeSort fun r r' => column r ≤ column r').Pairwise
      fun r r' => column r ≤ column r' := by
  refine (List.pairwise_mergeSort (fun r r' r'' h h' => ?_) (fun r r' => ?_) rows).imp
    of_decide_eq_true
  · exact decide_eq_true ((of_decide_eq_true h).trans (of_decide_eq_true h'))
  · exact Bool.or_eq_true_iff.mpr ((le_total (column r) (column r')).imp decide_eq_true
      decide_eq_true)

/-- `ORDER BY column DESC`. -/
theorem pairwise_mergeSort_desc :
    (rows.mergeSort fun r r' => column r' ≤ column r).Pairwise
      fun r r' => column r' ≤ column r := by
  refine (List.pairwise_mergeSort (fun r r' r'' h h' => ?_) (fun r r' => ?_) rows).imp
    of_decide_eq_true
  · exact decide_eq_true ((of_decide_eq_true h').trans (of_decide_eq_true h))
  · exact Bool.or_eq_true_iff.mpr ((le_total (column r') (column r)).imp decide_eq_true
      decide_eq_true)

end Order

/-- An update that rewrites every row to itself is the only one without effect. -/
theorem map_eq_self {f : α → α} {rows : List α} : rows.map f = rows ↔ ∀ r ∈ rows, f r = r := by
  have h := List.map_inj_left (l := rows) (f := f) (g := id)
  rw [List.map_id] at h
  exact h

/-- Counting in a table from which rows are only ever removed: the count agrees
with the history when none of the counted rows has gone. -/
theorem countP_eq_of_sublist {rows history : List α} {p : α → Bool}
    (hs : rows.Sublist history) (hn : history.Nodup)
    (hmem : ∀ r ∈ history, p r = true → r ∈ rows) : rows.countP p = history.countP p := by
  rw [List.countP_eq_length_filter, List.countP_eq_length_filter]
  refine List.Perm.length_eq ((List.perm_ext_iff_of_nodup ((hn.sublist hs).filter _)
    (hn.filter _)).mpr fun r => ?_)
  simp only [List.mem_filter]
  exact ⟨fun ⟨hr, hp⟩ => ⟨hs.subset hr, hp⟩, fun ⟨hr, hp⟩ => ⟨hmem r hr hp, hp⟩⟩

theorem countP_lt_of_sublist {rows history : List α} {p : α → Bool}
    (hs : rows.Sublist history) {r : α} (hr : r ∈ history) (hp : p r = true) (hnot : r ∉ rows) :
    rows.countP p < history.countP p := by
  rw [List.countP_eq_length_filter, List.countP_eq_length_filter]
  refine Nat.lt_of_le_of_ne (hs.filter p).length_le fun he => hnot ?_
  have heq := (hs.filter p).eq_of_length he
  exact (List.mem_filter.mp (heq ▸ List.mem_filter.mpr ⟨hr, hp⟩)).1

end Tables
