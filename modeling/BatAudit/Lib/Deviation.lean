import Mathlib.Algebra.BigOperators.Fin
import Mathlib.Algebra.Order.Chebyshev
import Mathlib.Analysis.Real.Sqrt
import Mathlib.Tactic.FieldSimp
import Mathlib.Tactic.Linarith
import Mathlib.Tactic.Positivity
import Mathlib.Tactic.Ring

/-!
# Mean and standard deviation

The population standard deviation of a list of reals is the root mean square of what its
elements differ from their mean. An error in the elements moves a root mean square by no more.
-/

namespace Deviation

noncomputable def mean (xs : List ℝ) : ℝ := xs.sum / xs.length

noncomputable def rms (xs : List ℝ) : ℝ := √((xs.map fun x => x ^ 2).sum / xs.length)

noncomputable def stddev (xs : List ℝ) : ℝ := rms (xs.map fun x => x - mean xs)

theorem rms_nonneg (xs : List ℝ) : 0 ≤ rms xs := Real.sqrt_nonneg _

theorem sum_sq_nonneg (xs : List ℝ) : 0 ≤ (xs.map fun x => x ^ 2).sum := by
  refine List.sum_nonneg fun y hy => ?_
  obtain ⟨x, -, rfl⟩ := List.mem_map.mp hy
  exact sq_nonneg x

theorem length_mul_rms_sq (xs : List ℝ) :
    xs.length * rms xs ^ 2 = (xs.map fun x => x ^ 2).sum := by
  rw [rms, Real.sq_sqrt (div_nonneg (sum_sq_nonneg xs) (Nat.cast_nonneg _))]
  cases xs with
  | nil => simp
  | cons x xs => exact mul_div_cancel₀ _ (Nat.cast_ne_zero.mpr (Nat.succ_ne_zero _))

/-- The mean of the absolute values is at most the root mean square. -/
theorem sum_abs_le (xs : List ℝ) : (xs.map fun x => |x|).sum ≤ xs.length * rms xs := by
  have hcauchy := sq_sum_le_card_mul_sum_sq (s := Finset.univ)
    (f := fun i : Fin xs.length => |xs[i.1]|)
  simp only [sq_abs, Finset.card_univ, Fintype.card_fin] at hcauchy
  rw [Fin.sum_univ_fun_getElem xs fun x => |x|, Fin.sum_univ_fun_getElem xs fun x => x ^ 2,
    ← length_mul_rms_sq, ← mul_assoc, ← sq, ← mul_pow] at hcauchy
  exact abs_le_of_sq_le_sq' hcauchy (mul_nonneg (Nat.cast_nonneg _) (rms_nonneg xs)) |>.2

/-- Errors of the elements add up. -/
theorem sum_near {ι : Type*} {l : List ι} {x y : ι → ℝ} {α β : ℝ}
    (h : ∀ i ∈ l, |x i - y i| ≤ α * y i + β) :
    |(l.map x).sum - (l.map y).sum| ≤ α * (l.map y).sum + l.length * β := by
  induction l with
  | nil => simp
  | cons i l ih =>
    have hhead := h i List.mem_cons_self
    have htail := ih fun j hj => h j (List.mem_cons_of_mem i hj)
    have htriangle := abs_add_le (x i - y i) ((l.map x).sum - (l.map y).sum)
    simp only [List.map_cons, List.sum_cons, List.length_cons, Nat.cast_add, Nat.cast_one]
    rw [add_sub_add_comm]
    linarith

/-- Elements that are larger by a factor and a constant have a root mean square that is. -/
theorem rms_map_le {ι : Type*} {l : List ι} {x y : ι → ℝ} {a b : ℝ} (ha : 0 ≤ a) (hb : 0 ≤ b)
    (h : ∀ i ∈ l, |x i| ≤ a * |y i| + b) : rms (l.map x) ≤ a * rms (l.map y) + b := by
  rcases Nat.eq_zero_or_pos l.length with hl | hl
  · rw [List.length_eq_zero_iff.mp hl]
    simpa [rms] using hb
  · have hn : (0 : ℝ) < l.length := Nat.cast_pos.mpr hl
    have hr := rms_nonneg (l.map y)
    refine Real.sqrt_le_iff.mpr ⟨by positivity, ?_⟩
    rw [List.length_map, div_le_iff₀ hn]
    have hsquares := length_mul_rms_sq (l.map y)
    have habs := sum_abs_le (l.map y)
    rw [List.length_map] at hsquares habs
    rw [List.map_map] at hsquares habs ⊢
    calc (l.map ((fun x => x ^ 2) ∘ x)).sum
        ≤ (l.map fun i => a ^ 2 * y i ^ 2 + (2 * a * b * |y i| + b ^ 2)).sum := by
          refine List.sum_le_sum fun i hi => ?_
          have hsq := pow_le_pow_left₀ (abs_nonneg (x i)) (h i hi) 2
          rw [sq_abs, add_sq, mul_pow, sq_abs] at hsq
          simp only [Function.comp_apply]
          linarith
      _ = a ^ 2 * (l.map ((fun x => x ^ 2) ∘ y)).sum +
            (2 * a * b * (l.map ((fun x => |x|) ∘ y)).sum + l.length * b ^ 2) := by
          rw [List.sum_map_add, List.sum_map_add, List.sum_map_mul_left, List.sum_map_mul_left]
          simp [Function.comp_def]
      _ ≤ a ^ 2 * (l.length * rms (l.map y) ^ 2) +
            (2 * a * b * (l.length * rms (l.map y)) + l.length * b ^ 2) := by
          rw [hsquares]
          gcongr
      _ = (a * rms (l.map y) + b) ^ 2 * l.length := by ring

/-- The root of what is known up to an error. -/
theorem sqrt_near {a b α β : ℝ} (hb : 0 ≤ b) (hα : 0 ≤ α) (hα' : α ≤ 1) (hβ : 0 ≤ β)
    (h : |a - b| ≤ α * b + β) : |√a - √b| ≤ α * √b + √β := by
  obtain ⟨hlow, hhigh⟩ := abs_le.mp h
  have hsqb := Real.sq_sqrt hb
  have hsqβ := Real.sq_sqrt hβ
  have hrb := Real.sqrt_nonneg b
  have hrβ := Real.sqrt_nonneg β
  have hupper : √a ≤ (1 + α) * √b + √β := by
    refine Real.sqrt_le_iff.mpr ⟨by positivity, ?_⟩
    calc a ≤ (1 + α) * b + β := by linarith
      _ ≤ (1 + α) ^ 2 * b + 2 * ((1 + α) * √b * √β) + β := by
        have hcross : 0 ≤ (1 + α) * √b * √β := by positivity
        have hsq : (1 + α) * b ≤ (1 + α) ^ 2 * b := by
          refine mul_le_mul_of_nonneg_right ?_ hb
          exact le_self_pow₀ (by linarith) two_ne_zero
        linarith
      _ = ((1 + α) * √b + √β) ^ 2 := by
        rw [add_sq ((1 + α) * √b), mul_pow, hsqb, hsqβ]
        ring
  have hlower : (1 - α) * √b - √β ≤ √a := by
    rcases le_total ((1 - α) * √b) √β with hneg | hpos
    · linarith [Real.sqrt_nonneg a]
    · refine Real.le_sqrt_of_sq_le ?_
      have hcross : √β ^ 2 ≤ (1 - α) * √b * √β := by
        rw [sq]
        exact mul_le_mul_of_nonneg_right hpos hrβ
      have hsq : (1 - α) ^ 2 * b ≤ (1 - α) * b := by
        refine mul_le_mul_of_nonneg_right ?_ hb
        exact pow_le_of_le_one (by linarith) (by linarith) two_ne_zero
      rw [sub_sq, mul_pow, hsqb]
      rw [hsqβ] at hcross ⊢
      linarith
  exact abs_le.mpr ⟨by linarith, by linarith⟩

end Deviation
