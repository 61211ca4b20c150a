import Mathlib.Analysis.Real.Sqrt
import Mathlib.Tactic.NormNum.NatSqrt
import BatAudit.Lib.Rounding

/-!
# Rounding errors

One operation on doubles differs from the exact one by a relative error of `2 ^ -53` and an
absolute one far below it, or its exact result is too large for a double. Below are the four
operations and the root, sums, and comparisons of results that are known up to an error.
-/

namespace Float64

variable {num den n d : ℕ} {negative : Bool}

/-! ## One rounding -/

theorem roundDiv_near (hd : 0 < d) : |(roundDiv n d : ℚ) - n / d| ≤ 1 / 2 := by
  have hdiv := Nat.div_add_mod n d
  have hmod := Nat.mod_lt n hd
  have hround : 2 * (roundDiv n d * d) ≤ 2 * n + d ∧ 2 * n ≤ 2 * (roundDiv n d * d) + d := by
    have hcomm : d * (n / d) = n / d * d := Nat.mul_comm _ _
    simp only [roundDiv]
    split_ifs with hup
    · simp only [Bool.or_eq_true, decide_eq_true_eq, Bool.and_eq_true] at hup
      rw [Nat.add_mul]
      omega
    · simp only [Bool.or_eq_true, decide_eq_true_eq, Bool.and_eq_true, not_or] at hup
      omega
  have hd' : (0 : ℚ) < d := Nat.cast_pos.mpr hd
  have hupper : (2 : ℚ) * (roundDiv n d * d) ≤ 2 * n + d := by exact_mod_cast hround.1
  have hlower : (2 : ℚ) * n ≤ 2 * (roundDiv n d * d) + d := by exact_mod_cast hround.2
  have hquot : (n : ℚ) / d * d = n := div_mul_cancel₀ _ hd'.ne'
  refine abs_le.mpr ⟨le_of_mul_le_mul_right ?_ hd', le_of_mul_le_mul_right ?_ hd'⟩ <;>
    rw [sub_mul, hquot] <;> linarith

theorem abs_rounded_near (negative : Bool) (hnum : 0 < num) (hden : 0 < den) :
    |(rounded negative num den).abs - num / den| ≤ (num / den + 1 / 2 ^ 100) / 2 ^ 53 := by
  obtain ⟨-, -, hnormal⟩ := ratioExp_spec hnum hden
  have hx : (0 : ℚ) ≤ num / den := by positivity
  have hdigits : |(digits num den : ℚ) - num / den / 2 ^ ratioExp num den| ≤ 1 / 2 := by
    rw [← scaled_eq _ hden]
    exact roundDiv_near (scaled_pos _ hden)
  have hpos : (0 : ℚ) < 2 ^ ratioExp num den := by positivity
  have hhalf : |(rounded negative num den).abs - num / den| ≤ 2 ^ ratioExp num den / 2 := by
    rw [abs_rounded]
    calc |(digits num den : ℚ) * 2 ^ ratioExp num den - num / den|
        = |(digits num den : ℚ) - num / den / 2 ^ ratioExp num den| * 2 ^ ratioExp num den := by
          rw [← abs_of_pos hpos, ← abs_mul, abs_of_pos hpos]
          congr 1
          field_simp
      _ ≤ 1 / 2 * 2 ^ ratioExp num den := by gcongr
      _ = 2 ^ ratioExp num den / 2 := by ring
  refine hhalf.trans ?_
  rw [add_div]
  rcases hnormal with hmin | hnormal
  · have hexp : (2 : ℚ) ^ ratioExp num den ≤ 2 ^ (-153 : ℤ) := by
      rw [hmin]
      exact zpow_le_zpow_right₀ one_le_two (by decide)
    rw [show (2 : ℚ) ^ (-153 : ℤ) = 1 / 2 ^ 100 / 2 ^ 53 by norm_num] at hexp
    linarith [show (0 : ℚ) ≤ num / den / 2 ^ 53 by positivity]
  · have hexp : (2 : ℚ) ^ ratioExp num den / 2 = 2 ^ (ratioExp num den + 52) / 2 ^ 53 := by
      rw [zpow_add₀ two_ne_zero]
      norm_num
      ring
    rw [hexp]
    refine le_add_of_le_of_nonneg ?_ (by positivity)
    gcongr

theorem le_of_exp_rounded (hnum : 0 < num) (hden : 0 < den)
    (h : maxExp < (rounded negative num den).exp) : (2 : ℚ) ^ 200 ≤ num / den := by
  by_contra hsmall
  have hrep : Representable (2 ^ 200) :=
    ⟨1, 200, by norm_num, by decide, by decide, by norm_num⟩
  exact absurd (exp_rounded_le negative hnum hden hrep (le_of_not_ge hsmall))
    (not_le_of_gt h)

end Float64

namespace Double

open Float64 (value)

/-- A double that an operation may return when its exact result is `v`. -/
inductive Rounds (v : ℝ) : Double → Prop
  | near {f : Float64} : |(f.value : ℝ) - v| ≤ (|v| + 1 / 2 ^ 100) / 2 ^ 53 → Rounds v (finite f)
  | beyond {negative : Bool} :
      2 ^ 200 ≤ (if negative then -v else v) → Rounds v (infinite negative)

theorem ofRatio_rounds (negative : Bool) (num : ℕ) {den : ℕ} (hden : 0 < den) :
    Rounds (if negative then -((num : ℝ) / den) else num / den) (ofRatio negative num den) := by
  rcases Nat.eq_zero_or_pos num with rfl | hnum
  · rw [ofRatio, show Float64.ofRatio negative 0 den = some ⟨negative, 0, Float64.minExp⟩ from rfl]
    refine .near ?_
    have hsmall : (0 : ℝ) ≤ (2 ^ 100)⁻¹ / 2 ^ 53 := by positivity
    cases negative <;> simpa [Float64.value, Float64.abs]
  · have hx : (0 : ℝ) ≤ num / den := by positivity
    rw [ofRatio, Float64.ofRatio_eq hnum]
    by_cases hover : Float64.maxExp < (Float64.rounded negative num den).exp
    · rw [if_pos hover]
      refine .beyond ?_
      have hlarge := Rat.cast_le (K := ℝ).mpr (Float64.le_of_exp_rounded hnum hden hover)
      push_cast at hlarge
      cases negative <;> simpa using hlarge
    · rw [if_neg hover]
      refine .near ?_
      have hnear := Rat.cast_le (K := ℝ).mpr
        (Float64.abs_rounded_near negative hnum hden)
      push_cast at hnear
      rw [Float64.value, Float64.negative_rounded]
      cases negative with
      | false =>
        simp only [Bool.false_eq_true, if_false]
        rwa [abs_of_nonneg hx]
      | true =>
        simp only [if_true, Rat.cast_neg]
        rwa [abs_neg, abs_of_nonneg hx, ← abs_neg, neg_sub, sub_neg_eq_add, neg_add_eq_sub]

theorem ofRatio_natAbs_rounds (num : ℤ) {den : ℕ} (hden : 0 < den) (zero : Bool) :
    Rounds (num / den)
      (ofRatio (if num = 0 then zero else decide (num < 0)) num.natAbs den) := by
  have h := ofRatio_rounds (if num = 0 then zero else decide (num < 0)) num.natAbs hden
  rw [Nat.cast_natAbs] at h
  rcases lt_trichotomy num 0 with hneg | rfl | hpos
  · rw [if_neg hneg.ne, decide_eq_true hneg, if_pos rfl, abs_of_neg hneg] at h
    rw [if_neg hneg.ne, decide_eq_true hneg]
    simpa [neg_div] using h
  · simpa using h
  · rw [if_neg hpos.ne', decide_eq_false hpos.not_gt, if_neg Bool.false_ne_true,
      abs_of_pos hpos] at h
    rwa [if_neg hpos.ne', decide_eq_false hpos.not_gt]

variable (f g : Float64)

theorem add_rounds : Rounds ((f.value : ℝ) + g.value) ((finite f).add (finite g)) := by
  have hf : ((signed f).2 : ℚ) ≠ 0 := Nat.cast_ne_zero.mpr (Nat.ne_of_gt (signed_pos f))
  have hg : ((signed g).2 : ℚ) ≠ 0 := Nat.cast_ne_zero.mpr (Nat.ne_of_gt (signed_pos g))
  have hsum : (((signed f).1 * (signed g).2 + (signed g).1 * (signed f).2 : ℤ) : ℚ) /
      ((signed f).2 * (signed g).2 : ℕ) = f.value + g.value := by
    rw [← signed_eq, ← signed_eq]
    push_cast
    field_simp
  have hvalue := congrArg (Rat.cast (K := ℝ)) hsum
  rw [Rat.cast_div, Rat.cast_intCast, Rat.cast_natCast, Rat.cast_add] at hvalue
  rw [← hvalue]
  exact ofRatio_natAbs_rounds _ (Nat.mul_pos (signed_pos f) (signed_pos g)) _

theorem value_neg : (⟨!f.negative, f.mant, f.exp⟩ : Float64).value = -f.value := by
  unfold Float64.value Float64.abs
  cases f.negative <;> simp

theorem sub_rounds : Rounds ((f.value : ℝ) - g.value) ((finite f).sub (finite g)) := by
  have h := add_rounds f ⟨!g.negative, g.mant, g.exp⟩
  rwa [value_neg, Rat.cast_neg, ← sub_eq_add_neg] at h

/-- The value of a quotient or a product, from the absolute values. -/
theorem value_eq : (f.value : ℝ) =
    if f.negative then -((f.ratio.1 : ℝ) / f.ratio.2) else f.ratio.1 / f.ratio.2 := by
  have h := congrArg (Rat.cast (K := ℝ)) f.ratio_eq
  rw [Rat.cast_div, Rat.cast_natCast, Rat.cast_natCast] at h
  rw [h, Float64.value]
  split_ifs
  · exact Rat.cast_neg _
  · rfl

theorem mul_rounds : Rounds ((f.value : ℝ) * g.value) ((finite f).mul (finite g)) := by
  have hvalue : (f.value : ℝ) * g.value = if (f.negative ^^ g.negative) = true then
      -(((f.ratio.1 * g.ratio.1 : ℕ) : ℝ) / (f.ratio.2 * g.ratio.2 : ℕ)) else
      (f.ratio.1 * g.ratio.1 : ℕ) / (f.ratio.2 * g.ratio.2 : ℕ) := by
    rw [value_eq, value_eq]
    push_cast
    cases f.negative <;> cases g.negative <;> simp <;> ring
  rw [hvalue]
  exact ofRatio_rounds _ _ (Nat.mul_pos f.ratio_pos g.ratio_pos)

theorem mant_ne_zero (h : g.value ≠ 0) : g.mant ≠ 0 := by
  intro hzero
  refine h ?_
  rw [Float64.value, Float64.abs, hzero]
  simp

theorem div_rounds (h : g.value ≠ 0) :
    Rounds ((f.value : ℝ) / g.value) ((finite f).div (finite g)) := by
  have hmant : 0 < g.mant := Nat.pos_of_ne_zero (mant_ne_zero g h)
  have hnum : 0 < g.ratio.1 := by
    unfold Float64.ratio
    split_ifs
    · exact Nat.mul_pos hmant (Nat.two_pow_pos _)
    · exact hmant
  have hvalue : (f.value : ℝ) / g.value = if (f.negative ^^ g.negative) = true then
      -(((f.ratio.1 * g.ratio.2 : ℕ) : ℝ) / (f.ratio.2 * g.ratio.1 : ℕ)) else
      (f.ratio.1 * g.ratio.2 : ℕ) / (f.ratio.2 * g.ratio.1 : ℕ) := by
    have hf2 : (f.ratio.2 : ℝ) ≠ 0 := Nat.cast_ne_zero.mpr (Nat.ne_of_gt f.ratio_pos)
    have hg2 : (g.ratio.2 : ℝ) ≠ 0 := Nat.cast_ne_zero.mpr (Nat.ne_of_gt g.ratio_pos)
    have hg1 : (g.ratio.1 : ℝ) ≠ 0 := Nat.cast_ne_zero.mpr (Nat.ne_of_gt hnum)
    rw [value_eq, value_eq]
    push_cast
    cases f.negative <;> cases g.negative <;> simp <;> field_simp
  rw [hvalue, div, if_neg hmant.ne']
  exact ofRatio_rounds _ _ (Nat.mul_pos f.ratio_pos hnum)

/-- A bounded result is not infinite. -/
theorem Rounds.finite_of_lt {v : ℝ} {x : Double} (h : Rounds v x) (hv : |v| < 2 ^ 200) :
    ∃ f, x = finite f ∧ |(f.value : ℝ) - v| ≤ (|v| + 1 / 2 ^ 100) / 2 ^ 53 := by
  cases h with
  | near h => exact ⟨_, rfl, h⟩
  | @beyond negative h =>
    cases negative with
    | false => exact absurd (h.trans (le_abs_self v)) (not_le_of_gt hv)
    | true => exact absurd (h.trans (neg_le_abs v)) (not_le_of_gt hv)

/-! ## The root -/

/-- Twice the root of an integer, its remainder kept as an odd last digit. -/
def twiceSqrt (m : ℕ) : ℕ :=
  if Nat.sqrt m * Nat.sqrt m = m then 2 * Nat.sqrt m else 2 * Nat.sqrt m + 1

theorem twiceSqrt_near (m : ℕ) : |(twiceSqrt m : ℝ) / 2 - √m| ≤ 1 / 2 := by
  have hlow : (Nat.sqrt m : ℝ) ≤ √m := Real.nat_sqrt_le_real_sqrt
  have hhigh : √(m : ℝ) ≤ Nat.sqrt m + 1 := Real.real_sqrt_le_nat_sqrt_succ
  unfold twiceSqrt
  split_ifs with hsquare
  · have hroot : √(m : ℝ) = Nat.sqrt m := by
      rw [Real.sqrt_eq_iff_mul_self_eq (by positivity) (by positivity)]
      exact_mod_cast hsquare.symm
    rw [hroot]
    push_cast
    rw [mul_div_cancel_left₀ _ two_ne_zero, sub_self, abs_zero]
    norm_num
  · push_cast
    rw [abs_le]
    constructor <;> linarith

theorem half_rounds (n : ℕ) (e : ℤ) : Rounds ((n : ℝ) / 2 * 2 ^ e)
    (if 0 ≤ e then ofRatio false (n * 2 ^ e.toNat) 2 else ofRatio false n (2 * 2 ^ (-e).toNat)) := by
  split_ifs with he
  · obtain ⟨k, rfl⟩ := Int.eq_ofNat_of_zero_le he
    have h := ofRatio_rounds false (n * 2 ^ k) two_pos
    rw [if_neg Bool.false_ne_true] at h
    push_cast at h
    rw [zpow_natCast, div_mul_eq_mul_div]
    exact h
  · obtain ⟨k, hk⟩ := Int.eq_ofNat_of_zero_le (show 0 ≤ -e by omega)
    obtain rfl : e = -k := by omega
    have h := ofRatio_rounds false n (Nat.mul_pos two_pos (Nat.two_pow_pos k))
    rw [if_neg Bool.false_ne_true] at h
    push_cast at h
    rw [neg_neg, Int.toNat_natCast, zpow_neg, zpow_natCast, ← div_eq_mul_inv, div_div]
    exact h

theorem sqrt_near (hf : f.negative = false) (hbound : √(f.value : ℝ) ≤ 2 ^ 100) :
    ∃ g : Float64, (finite f).sqrt = finite g ∧
      |(g.value : ℝ) - √f.value| ≤ (√f.value + 1 / 2 ^ 100) / 2 ^ 52 := by
  by_cases hmant : f.mant = 0
  · refine ⟨f, if_pos hmant, ?_⟩
    have hsmall : (0 : ℝ) ≤ (2 ^ 100)⁻¹ / 2 ^ 52 := by positivity
    simpa [Float64.value, Float64.abs, hmant, hf]
  · -- The significand with its new digits, and the exponent halved.
    let shift := 120 + (f.exp % 2).toNat
    let m := f.mant * 2 ^ shift
    let e := (f.exp - shift) / 2
    have hexp : f.exp = 2 * e + shift := by omega
    have hvalue : (f.value : ℝ) = m * (2 ^ e) ^ 2 := by
      rw [Float64.value, Float64.abs, hf, if_neg Bool.false_ne_true, hexp,
        zpow_add₀ two_ne_zero, two_mul, zpow_add₀ two_ne_zero]
      push_cast [m]
      rw [zpow_natCast]
      ring
    have hroot : √(f.value : ℝ) = √m * 2 ^ e := by
      rw [hvalue, Real.sqrt_mul (by positivity), Real.sqrt_sq (by positivity)]
    have hlarge : (2 : ℝ) ^ 60 ≤ √m := by
      refine Real.le_sqrt_of_sq_le ?_
      have hm : 2 ^ 120 ≤ m :=
        Nat.le_trans (Nat.pow_le_pow_right (by norm_num) (Nat.le_add_right 120 _))
          (Nat.le_mul_of_pos_left _ (Nat.pos_of_ne_zero hmant))
      have hm' : ((2 ^ 120 : ℕ) : ℝ) ≤ m := Nat.cast_le.mpr hm
      norm_num at hm' ⊢
      exact hm'
    have hexact : |(twiceSqrt m : ℝ) / 2 * 2 ^ e - √f.value| ≤ √f.value / 2 ^ 61 := by
      rw [hroot, ← sub_mul, abs_mul, abs_of_pos (show (0 : ℝ) < 2 ^ e by positivity),
        mul_div_right_comm]
      refine mul_le_mul_of_nonneg_right ((twiceSqrt_near m).trans ?_) (by positivity)
      linarith
    have hrounds : Rounds ((twiceSqrt m : ℝ) / 2 * 2 ^ e) (finite f).sqrt := by
      rw [sqrt, if_neg hmant, if_neg (by rw [hf]; exact Bool.false_ne_true)]
      exact half_rounds (twiceSqrt m) e
    obtain ⟨hlow, hhigh⟩ := abs_le.mp hexact
    have hnonneg : 0 ≤ √(f.value : ℝ) := Real.sqrt_nonneg _
    have hy : |(twiceSqrt m : ℝ) / 2 * 2 ^ e| = (twiceSqrt m : ℝ) / 2 * 2 ^ e :=
      abs_of_nonneg (by positivity)
    obtain ⟨g, hg, hnear⟩ := hrounds.finite_of_lt (by rw [hy]; linarith)
    refine ⟨g, hg, ?_⟩
    rw [hy] at hnear
    have htriangle := abs_sub_le (g.value : ℝ) ((twiceSqrt m : ℝ) / 2 * 2 ^ e) √f.value
    linarith

/-! ## Comparisons -/

theorem lt_finite_iff : (finite f).lt (finite g) = true ↔ f.value < g.value := by
  rw [lt, Bool.and_eq_true, le_finite_iff, Bool.not_eq_true', ← Bool.not_eq_true, le_finite_iff,
    ← lt_iff_le_not_ge]

/-! ## Sums of what is not negative -/

theorem negative_of_ofRatio {negative : Bool} {num den : ℕ} {f : Float64}
    (h : ofRatio negative num den = finite f) : f.negative = negative := by
  rw [ofRatio] at h
  split at h
  · rename_i g hg
    cases h
    rcases Nat.eq_zero_or_pos num with rfl | hnum
    · cases hg
      rfl
    · rw [Float64.ofRatio_eq hnum] at hg
      split_ifs at hg
      cases hg
      exact Float64.negative_rounded
  · cases h

theorem mul_self_negative {h : Float64} (hmul : (finite f).mul (finite f) = finite h) :
    h.negative = false := by
  have := negative_of_ofRatio hmul
  rwa [Bool.xor_self] at this

variable {f g}

theorem value_nonneg (hf : f.negative = false) : 0 ≤ f.value := by
  rw [Float64.value, hf, if_neg Bool.false_ne_true]
  exact f.abs_nonneg

theorem add_negative {h : Float64} (hf : f.negative = false) (hg : g.negative = false)
    (hadd : (finite f).add (finite g) = finite h) : h.negative = false := by
  have hsign := negative_of_ofRatio hadd
  rw [hf, hg, Bool.and_self] at hsign
  simp only [signed, hf, hg, Bool.false_eq_true, if_false] at hsign
  rw [hsign]
  split_ifs
  · rfl
  · exact decide_eq_false (not_lt_of_ge (by positivity))

theorem div_negative {h : Float64} (hf : f.negative = false) (hg : g.negative = false)
    (hmant : g.mant ≠ 0) (hdiv : (finite f).div (finite g) = finite h) : h.negative = false := by
  rw [div, if_neg hmant] at hdiv
  have := negative_of_ofRatio hdiv
  rwa [hf, hg, Bool.xor_self] at this

/-- The exact sum. -/
noncomputable def total (fs : List Float64) : ℝ := (fs.map fun f => (f.value : ℝ)).sum

theorem total_cons (f : Float64) (fs : List Float64) : total (f :: fs) = f.value + total fs :=
  List.sum_cons

theorem total_nonneg {fs : List Float64} (h : ∀ f ∈ fs, f.negative = false) : 0 ≤ total fs := by
  refine List.sum_nonneg fun x hx => ?_
  obtain ⟨f, hf, rfl⟩ := List.mem_map.mp hx
  exact_mod_cast value_nonneg (h f hf)

/-- Each step of a sum adds its rounding to the error so far. -/
theorem sum_step {s t x q S κ ι : ℝ} (hS : 0 ≤ S) (hq : 0 ≤ q) (hκ : 0 ≤ κ) (hκ' : κ ≤ 1)
    (hι : 0 ≤ ι) (hx : x = s + q) (hs : |s - S| ≤ κ * (S + ι))
    (ht : |t - x| ≤ (|x| + ι) / 2 ^ 53) :
    |t - (S + q)| ≤ (κ + 1 / 2 ^ 52) * (S + q + ι) := by
  have hsum : |x - (S + q)| ≤ κ * (S + ι) := by
    rwa [hx, add_sub_add_right_eq_sub]
  have hqκ : κ * (S + ι) ≤ κ * (S + q + ι) := by
    gcongr
    linarith
  have hone : κ * (S + q + ι) ≤ S + q + ι := mul_le_of_le_one_left (by positivity) hκ'
  have hlarge : |x| ≤ S + q + (S + q + ι) := by
    have := abs_sub_abs_le_abs_sub x (S + q)
    rw [abs_of_nonneg (add_nonneg hS hq)] at this
    linarith
  have htriangle := abs_sub_le t x (S + q)
  linarith

theorem foldl_add_near {fs : List Float64} (hfs : ∀ f ∈ fs, f.negative = false) {s : Float64}
    (hs : s.negative = false) {S : ℝ} (hS : 0 ≤ S) {k : ℕ}
    (hnear : |(s.value : ℝ) - S| ≤ k / 2 ^ 52 * (S + 1 / 2 ^ 100)) (hk : k + fs.length ≤ 2 ^ 52)
    (hbound : S + total fs ≤ 2 ^ 190) :
    ∃ t : Float64, t.negative = false ∧ (fs.map finite).foldl add (finite s) = finite t ∧
      |(t.value : ℝ) - (S + total fs)| ≤
        (k + fs.length : ℕ) / 2 ^ 52 * (S + total fs + 1 / 2 ^ 100) := by
  induction fs generalizing s S k with
  | nil => exact ⟨s, hs, rfl, by simpa [total] using hnear⟩
  | cons f fs ih =>
    rw [List.length_cons] at hk ⊢
    rw [total_cons, ← add_assoc] at hbound ⊢
    have hf := hfs f List.mem_cons_self
    have hvalue : (0 : ℝ) ≤ f.value := by exact_mod_cast value_nonneg hf
    have hrest := total_nonneg fun g hg => hfs g (List.mem_cons_of_mem f hg)
    have hκ : (k : ℝ) / 2 ^ 52 ≤ 1 := by
      rw [div_le_one (by positivity)]
      exact_mod_cast (show k ≤ 2 ^ 52 by omega)
    have hsum : |(s.value : ℝ) + f.value| < 2 ^ 200 := by
      have hone : (k : ℝ) / 2 ^ 52 * (S + 1 / 2 ^ 100) ≤ S + 1 / 2 ^ 100 :=
        mul_le_of_le_one_left (by positivity) hκ
      obtain ⟨hlow, hhigh⟩ := abs_le.mp hnear
      rw [abs_of_nonneg (by have : (0 : ℝ) ≤ s.value := by exact_mod_cast value_nonneg hs
                            positivity)]
      norm_num at hbound hhigh hone ⊢
      linarith
    obtain ⟨t, ht, hround⟩ := (add_rounds s f).finite_of_lt hsum
    have hstep := sum_step hS hvalue (by positivity) hκ (by positivity) rfl hnear hround
    obtain ⟨u, hu, hfold, hfinal⟩ := ih (fun g hg => hfs g (List.mem_cons_of_mem f hg))
      (add_negative hs hf ht) (add_nonneg hS hvalue) (k := k + 1)
      (by rw [← add_div] at hstep; exact_mod_cast hstep) (by omega) hbound
    refine ⟨u, hu, ?_, ?_⟩
    · rw [List.map_cons, List.foldl_cons, ht, hfold]
    · rwa [Nat.add_assoc, Nat.add_comm 1] at hfinal

end Double
