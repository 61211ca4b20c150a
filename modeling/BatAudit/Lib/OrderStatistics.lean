import Mathlib.Data.List.Sort
import Mathlib.Algebra.Order.BigOperators.Group.List

/-!
# Order statistics

The `k`-th least element of a list is bounded by how many elements are, and such counts add up
over the parts that a list is put together from.
-/

namespace OrderStatistics

variable {α : Type*} [LinearOrder α] {p : α → Bool} {xs : List α} {k l : ℕ} {x y : α}

/-- The `k`-th least, counted from zero, if there are as many. -/
def nth (xs : List α) (k : ℕ) : Option α := (xs.insertionSort (· ≤ ·))[k]?

/-- What holds of an element holds of those below. -/
def DownClosed (p : α → Bool) : Prop := ∀ a b, a ≤ b → p b = true → p a = true

theorem downClosed_le (x : α) : DownClosed fun a => decide (a ≤ x) :=
  fun _ _ hle h => decide_eq_true (hle.trans (of_decide_eq_true h))

theorem downClosed_lt (x : α) : DownClosed fun a => decide (a < x) :=
  fun _ _ hle h => decide_eq_true (hle.trans_lt (of_decide_eq_true h))

theorem sorted_iff_lt_countP (hp : DownClosed p) {ys : List α} (hs : ys.Pairwise (· ≤ ·))
    (hy : ys[k]? = some y) : p y = true ↔ k < ys.countP p := by
  induction ys generalizing k with
  | nil => cases hy
  | cons a ys ih =>
    obtain ⟨hle, hs⟩ := List.pairwise_cons.mp hs
    by_cases ha : p a = true
    · rw [List.countP_cons_of_pos ha]
      cases k with
      | zero =>
        obtain rfl := Option.some.inj hy
        exact iff_of_true ha (Nat.succ_pos _)
      | succ k => exact (ih hs hy).trans Nat.succ_lt_succ_iff.symm
    · -- nothing holds of an element above one that it does not hold of
      have hnone : ∀ b ∈ a :: ys, ¬p b = true := by
        intro b hb hpb
        rcases List.mem_cons.mp hb with rfl | hb
        · exact ha hpb
        · exact ha (hp a b (hle b hb) hpb)
      rw [List.countP_eq_zero.mpr hnone]
      exact iff_of_false (hnone y (List.mem_of_getElem? hy)) (Nat.not_lt_zero k)

theorem iff_lt_countP (hp : DownClosed p) (hy : nth xs k = some y) :
    p y = true ↔ k < xs.countP p := by
  rw [sorted_iff_lt_countP hp (List.pairwise_insertionSort _ xs) hy,
    (List.perm_insertionSort _ xs).countP_eq]

theorem nth_le_iff (hy : nth xs k = some y) : y ≤ x ↔ k < xs.countP fun a => a ≤ x := by
  rw [← iff_lt_countP (downClosed_le x) hy, decide_eq_true_iff]

theorem le_nth_iff (hy : nth xs k = some y) : x ≤ y ↔ (xs.countP fun a => a < x) ≤ k := by
  rw [← not_lt, ← not_lt, ← iff_lt_countP (downClosed_lt x) hy, decide_eq_true_iff]

theorem nth_le_nth (hx : nth xs k = some x) (hy : nth xs l = some y) (h : k ≤ l) : x ≤ y :=
  (nth_le_iff hx).mpr (h.trans_lt ((nth_le_iff hy).mp le_rfl))

theorem exists_nth (h : k < xs.length) : ∃ x, nth xs k = some x :=
  ⟨_, List.getElem?_eq_getElem (by rwa [List.length_insertionSort])⟩

theorem mem_of_nth (h : nth xs k = some x) : x ∈ xs :=
  (List.perm_insertionSort _ xs).mem_iff.mp (List.mem_of_getElem? h)

end OrderStatistics
