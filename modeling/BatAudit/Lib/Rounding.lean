import Mathlib.Algebra.Order.Field.Power
import Mathlib.Data.Nat.Log
import Mathlib.Tactic.FieldSimp
import Mathlib.Tactic.Linarith
import Mathlib.Tactic.Positivity
import Mathlib.Tactic.Ring
import BatAudit.Lib.Double

/-!
# Rounding

The values of doubles as rational numbers. A ratio that lies between two doubles is rounded to
one between them; in particular a ratio that is a double is kept.
-/

namespace Float64

/-- The absolute value. -/
def abs (f : Float64) : ℚ := f.mant * 2 ^ f.exp

def value (f : Float64) : ℚ := if f.negative then -f.abs else f.abs

/-- An absolute value that a double can have. -/
def Representable (x : ℚ) : Prop :=
  ∃ (k : ℕ) (e : ℤ), k < 2 ^ 53 ∧ minExp ≤ e ∧ e ≤ maxExp ∧ x = k * 2 ^ e

theorem abs_nonneg (f : Float64) : 0 ≤ f.abs := by
  unfold abs
  positivity

/-! ## The nearest integer -/

variable {num den n d N : ℕ}

theorem roundDiv_le (hd : 0 < d) (h : n ≤ N * d) : roundDiv n d ≤ N := by
  have hq : n / d ≤ N := Nat.div_le_of_le_mul (Nat.mul_comm N d ▸ h)
  simp only [roundDiv]
  split_ifs with hup
  · rcases Nat.lt_or_ge (n / d) N with hlt | hge
    · exact hlt
    · have hN : n / d = N := Nat.le_antisymm hq hge
      have hdm := Nat.div_add_mod n d
      rw [hN, Nat.mul_comm] at hdm
      have hzero : n % d = 0 := by omega
      rw [hzero] at hup
      simp only [Nat.mul_zero, Bool.or_eq_true, decide_eq_true_eq, Bool.and_eq_true] at hup
      omega
  · exact hq

theorem le_roundDiv (hd : 0 < d) (h : N * d ≤ n) : N ≤ roundDiv n d := by
  have hq : N ≤ n / d := (Nat.le_div_iff_mul_le hd).mpr h
  simp only [roundDiv]
  split_ifs
  · exact Nat.le_succ_of_le hq
  · exact hq

/-! ## The exponent of a ratio -/

theorem scaled_pos (e : ℤ) (hden : 0 < den) : 0 < (scaled num den e).2 := by
  unfold scaled
  split_ifs
  · positivity
  · exact hden

theorem scaled_eq (e : ℤ) (hden : 0 < den) :
    ((scaled num den e).1 : ℚ) / (scaled num den e).2 = num / den / 2 ^ e := by
  have hden' : (den : ℚ) ≠ 0 := Nat.cast_ne_zero.mpr (Nat.ne_of_gt hden)
  unfold scaled
  split_ifs with he
  · obtain ⟨k, rfl⟩ := Int.eq_ofNat_of_zero_le he
    simp only [Int.toNat_natCast, Nat.cast_mul, Nat.cast_pow, Nat.cast_ofNat, zpow_natCast]
    field_simp
  · obtain ⟨k, hk⟩ := Int.eq_ofNat_of_zero_le (show 0 ≤ -e by omega)
    obtain rfl : e = -k := by omega
    simp only [neg_neg, Int.toNat_natCast, Nat.cast_mul, Nat.cast_pow, Nat.cast_ofNat,
      zpow_neg, zpow_natCast]
    field_simp

/-- The digits of a ratio at the exponent that its logarithms give. -/
theorem ratio_bounds (hnum : 0 < num) (hden : 0 < den) :
    (2 : ℚ) ^ ((num.log2 : ℤ) - den.log2 - 1) < num / den ∧
      (num : ℚ) / den < 2 ^ ((num.log2 : ℤ) - den.log2 + 1) := by
  have hden' : (0 : ℚ) < den := Nat.cast_pos.mpr hden
  have hn : (2 : ℚ) ^ (num.log2 : ℤ) ≤ num := by
    rw [zpow_natCast]
    exact_mod_cast Nat.log2_self_le (Nat.ne_of_gt hnum)
  have hn' : (num : ℚ) < 2 ^ ((num.log2 : ℤ) + 1) := by
    exact_mod_cast Nat.lt_log2_self
  have hd : (2 : ℚ) ^ (den.log2 : ℤ) ≤ den := by
    rw [zpow_natCast]
    exact_mod_cast Nat.log2_self_le (Nat.ne_of_gt hden)
  have hd' : (den : ℚ) < 2 ^ ((den.log2 : ℤ) + 1) := by
    exact_mod_cast Nat.lt_log2_self
  constructor
  · rw [lt_div_iff₀ hden']
    calc (2 : ℚ) ^ ((num.log2 : ℤ) - den.log2 - 1) * den
        < 2 ^ ((num.log2 : ℤ) - den.log2 - 1) * 2 ^ ((den.log2 : ℤ) + 1) := by gcongr
      _ = 2 ^ (num.log2 : ℤ) := by
        rw [← zpow_add₀ two_ne_zero]
        congr 1
        ring
      _ ≤ num := hn
  · rw [div_lt_iff₀ hden']
    calc (num : ℚ) < 2 ^ ((num.log2 : ℤ) + 1) := hn'
      _ = 2 ^ ((num.log2 : ℤ) - den.log2 + 1) * 2 ^ (den.log2 : ℤ) := by
        rw [← zpow_add₀ two_ne_zero]
        congr 1
        ring
      _ ≤ 2 ^ ((num.log2 : ℤ) - den.log2 + 1) * den := by gcongr

theorem lt_pow_of_div_lt {e : ℤ} {k : ℕ} (hden : 0 < den)
    (h : (scaled num den e).1 / (scaled num den e).2 < 2 ^ k) :
    (num : ℚ) / den < 2 ^ (e + k) := by
  have hd : (0 : ℚ) < (scaled num den e).2 := Nat.cast_pos.mpr (scaled_pos e hden)
  have hlt := (Nat.div_lt_iff_lt_mul (scaled_pos e hden)).mp h
  have hq : ((scaled num den e).1 : ℚ) / (scaled num den e).2 < 2 ^ k := by
    rw [div_lt_iff₀ hd]
    exact_mod_cast hlt
  rwa [scaled_eq e hden, div_lt_iff₀ (by positivity), ← zpow_natCast, ← zpow_add₀ two_ne_zero,
    add_comm] at hq

theorem pow_le_of_le_div {e : ℤ} {k : ℕ} (hden : 0 < den)
    (h : 2 ^ k ≤ (scaled num den e).1 / (scaled num den e).2) :
    (2 : ℚ) ^ (e + k) ≤ num / den := by
  have hd : (0 : ℚ) < (scaled num den e).2 := Nat.cast_pos.mpr (scaled_pos e hden)
  have hle := (Nat.le_div_iff_mul_le (scaled_pos e hden)).mp h
  have hq : (2 : ℚ) ^ k ≤ ((scaled num den e).1 : ℚ) / (scaled num den e).2 := by
    rw [le_div_iff₀ hd]
    exact_mod_cast hle
  rwa [scaled_eq e hden, le_div_iff₀ (by positivity), ← zpow_natCast, ← zpow_add₀ two_ne_zero,
    add_comm] at hq

/-- The ratio has at most 53 binary digits at its exponent, and has 53 unless the exponent is
the least one. -/
theorem ratioExp_spec (hnum : 0 < num) (hden : 0 < den) :
    minExp ≤ ratioExp num den ∧ (num : ℚ) / den < 2 ^ (ratioExp num den + 53) ∧
      (ratioExp num den = minExp ∨ (2 : ℚ) ^ (ratioExp num den + 52) ≤ num / den) := by
  obtain ⟨hlow, hhigh⟩ := ratio_bounds hnum hden
  have hraw : ∃ e : ℤ, ratioExp num den = max minExp e ∧ (num : ℚ) / den < 2 ^ (e + 53) ∧
      (2 : ℚ) ^ (e + 52) ≤ num / den := by
    by_cases hsmall : (scaled num den ((num.log2 : ℤ) - den.log2 - 52)).1 /
        (scaled num den ((num.log2 : ℤ) - den.log2 - 52)).2 < 2 ^ 52
    · refine ⟨(num.log2 : ℤ) - den.log2 - 52 - 1, ?_, ?_, ?_⟩
      · simp only [ratioExp, if_pos hsmall]
      · refine (lt_pow_of_div_lt hden hsmall).trans_le (zpow_le_zpow_right₀ one_le_two ?_)
        push_cast
        omega
      · refine le_trans (zpow_le_zpow_right₀ one_le_two ?_) hlow.le
        omega
    · refine ⟨(num.log2 : ℤ) - den.log2 - 52, ?_, ?_, ?_⟩
      · simp only [ratioExp, if_neg hsmall]
      · refine hhigh.trans_le (zpow_le_zpow_right₀ one_le_two ?_)
        omega
      · exact pow_le_of_le_div hden (Nat.le_of_not_lt hsmall)
  obtain ⟨e, heq, hlt, hle⟩ := hraw
  rw [heq]
  refine ⟨le_max_left _ _, ?_, ?_⟩
  · exact hlt.trans_le (zpow_le_zpow_right₀ one_le_two (by omega))
  · rcases le_total minExp e with hmin | hmin
    · rw [max_eq_right hmin]
      exact Or.inr hle
    · exact Or.inl (max_eq_left hmin)

/-! ## Between two doubles -/

/-- The digits of a ratio at its exponent, as an integer: `2 ^ 53` at most. -/
def digits (num den : ℕ) : ℕ :=
  roundDiv (scaled num den (ratioExp num den)).1 (scaled num den (ratioExp num den)).2

theorem digits_le_of_le {x : ℚ} (hden : 0 < den) (h : (num : ℚ) / den ≤ x)
    (hx : x = N * 2 ^ ratioExp num den) : digits num den ≤ N := by
  have hd : (0 : ℚ) < (scaled num den (ratioExp num den)).2 :=
    Nat.cast_pos.mpr (scaled_pos _ hden)
  refine roundDiv_le (scaled_pos _ hden) ?_
  have hle : ((scaled num den (ratioExp num den)).1 : ℚ) /
      (scaled num den (ratioExp num den)).2 ≤ N := by
    rw [scaled_eq _ hden, div_le_iff₀ (by positivity), ← hx]
    exact h
  rw [div_le_iff₀ hd] at hle
  exact_mod_cast hle

theorem le_digits_of_le {x : ℚ} (hden : 0 < den) (h : x ≤ (num : ℚ) / den)
    (hx : x = N * 2 ^ ratioExp num den) : N ≤ digits num den := by
  have hd : (0 : ℚ) < (scaled num den (ratioExp num den)).2 :=
    Nat.cast_pos.mpr (scaled_pos _ hden)
  refine le_roundDiv (scaled_pos _ hden) ?_
  have hle : (N : ℚ) ≤ ((scaled num den (ratioExp num den)).1 : ℚ) /
      (scaled num den (ratioExp num den)).2 := by
    rw [scaled_eq _ hden, le_div_iff₀ (by positivity), ← hx]
    exact h
  rw [le_div_iff₀ hd] at hle
  exact_mod_cast hle

variable {y lo hi : ℚ} {negative : Bool}

/-- A double is on the grid of the ratio, or below all that is rounded on that grid. -/
theorem Representable.grid (hy : Representable y) (hnum : 0 < num) (hden : 0 < den) :
    (∃ N : ℕ, y = N * 2 ^ ratioExp num den) ∨
      y < 2 ^ (ratioExp num den + 52) ∧ (2 : ℚ) ^ (ratioExp num den + 52) ≤ num / den := by
  obtain ⟨-, -, hnormal⟩ := ratioExp_spec hnum hden
  obtain ⟨k, e, hk, hmin, -, rfl⟩ := hy
  rcases le_or_gt (ratioExp num den) e with he | he
  · obtain ⟨j, hj⟩ := Int.eq_ofNat_of_zero_le (sub_nonneg.mpr he)
    refine Or.inl ⟨k * 2 ^ j, ?_⟩
    obtain rfl : e = ratioExp num den + j := by omega
    rw [zpow_add₀ two_ne_zero, zpow_natCast]
    push_cast
    ring
  · refine Or.inr ⟨?_, hnormal.resolve_left (by omega)⟩
    have hk' : (k : ℚ) < 2 ^ 53 := by exact_mod_cast hk
    calc (k : ℚ) * 2 ^ e < 2 ^ 53 * 2 ^ e := by gcongr
      _ = 2 ^ (e + 53) := by
        rw [zpow_add₀ two_ne_zero, mul_comm]
        norm_num
      _ ≤ 2 ^ (ratioExp num den + 52) := zpow_le_zpow_right₀ one_le_two (by omega)

theorem digits_le (hnum : 0 < num) (hden : 0 < den) (hy : Representable y)
    (h : (num : ℚ) / den ≤ y) : digits num den * (2 : ℚ) ^ ratioExp num den ≤ y := by
  rcases hy.grid hnum hden with ⟨N, hN⟩ | ⟨hsmall, hlarge⟩
  · have hle := digits_le_of_le hden h hN
    rw [hN]
    gcongr
  · exact absurd (hlarge.trans h) (not_le_of_gt hsmall)

theorem le_digits (hnum : 0 < num) (hden : 0 < den) (hy : Representable y)
    (h : y ≤ (num : ℚ) / den) : y ≤ digits num den * (2 : ℚ) ^ ratioExp num den := by
  rcases hy.grid hnum hden with ⟨N, hN⟩ | ⟨hsmall, hlarge⟩
  · have hle := le_digits_of_le hden h hN
    rw [hN]
    gcongr
  · have hpow : (2 : ℚ) ^ (ratioExp num den + 52) =
        (2 ^ 52 : ℕ) * 2 ^ ratioExp num den := by
      rw [zpow_add₀ two_ne_zero, mul_comm]
      norm_num
    have hle := le_digits_of_le hden hlarge hpow
    rw [hpow] at hsmall
    refine hsmall.le.trans ?_
    gcongr

/-- The rounded ratio, before it is checked for overflow. -/
def rounded (negative : Bool) (num den : ℕ) : Float64 :=
  if digits num den = 2 ^ 53 then ⟨negative, 2 ^ 52, ratioExp num den + 1⟩
  else ⟨negative, digits num den, ratioExp num den⟩

theorem ofRatio_eq (hnum : 0 < num) : ofRatio negative num den =
    if maxExp < (rounded negative num den).exp then none else some (rounded negative num den) :=
  if_neg (Nat.ne_of_gt hnum)

theorem abs_rounded :
    (rounded negative num den).abs = digits num den * 2 ^ ratioExp num den := by
  unfold rounded abs
  split_ifs with hcarry
  · rw [hcarry, zpow_add_one₀ two_ne_zero]
    push_cast
    ring
  · rfl

theorem negative_rounded : (rounded negative num den).negative = negative := by
  unfold rounded
  split_ifs <;> rfl

/-- A result of exponent `maxExp` and more is past every double. -/
theorem exp_rounded_le (negative : Bool) (hnum : 0 < num) (hden : 0 < den) (hhi : Representable hi)
    (h : (num : ℚ) / den ≤ hi) : (rounded negative num den).exp ≤ maxExp := by
  have hle := digits_le hnum hden hhi h
  obtain ⟨-, -, hnormal⟩ := ratioExp_spec hnum hden
  obtain ⟨k, e, hk, -, hmax, rfl⟩ := hhi
  have hk' : (k : ℚ) < 2 ^ 53 := by exact_mod_cast hk
  have hbound : (k : ℚ) * 2 ^ e < 2 ^ (maxExp + 53) := by
    calc (k : ℚ) * 2 ^ e < 2 ^ 53 * 2 ^ e := by gcongr
      _ = 2 ^ (e + 53) := by
        rw [zpow_add₀ two_ne_zero, mul_comm]
        norm_num
      _ ≤ 2 ^ (maxExp + 53) := zpow_le_zpow_right₀ one_le_two (by omega)
  unfold rounded
  split_ifs with hcarry
  · rw [hcarry] at hle
    have hlt : (2 : ℚ) ^ (ratioExp num den + 53) < 2 ^ (maxExp + 53) := by
      refine lt_of_eq_of_lt ?_ (hle.trans_lt hbound)
      rw [zpow_add₀ two_ne_zero, mul_comm]
      norm_num
    have := (zpow_lt_zpow_iff_right₀ one_lt_two).mp hlt
    dsimp only
    omega
  · dsimp only
    by_contra hover
    have hmin : minExp < maxExp := by decide
    have hlarge := hnormal.resolve_left (by omega)
    have hlt : (2 : ℚ) ^ (ratioExp num den + 52) < 2 ^ (maxExp + 53) :=
      hlarge.trans_lt (h.trans_lt hbound)
    have := (zpow_lt_zpow_iff_right₀ one_lt_two).mp hlt
    omega

/-- Rounding goes past no double. -/
theorem ofRatio_between (negative : Bool) (hden : 0 < den) (hlo : Representable lo) (hhi : Representable hi)
    (h : lo ≤ (num : ℚ) / den) (h' : (num : ℚ) / den ≤ hi) :
    ∃ f, ofRatio negative num den = some f ∧ f.negative = negative ∧ lo ≤ f.abs ∧ f.abs ≤ hi := by
  rcases Nat.eq_zero_or_pos num with rfl | hnum
  · rw [Nat.cast_zero, zero_div] at h h'
    refine ⟨⟨negative, 0, minExp⟩, if_pos rfl, rfl, ?_⟩
    simpa [abs] using ⟨h, h'⟩
  · refine ⟨rounded negative num den, ?_, negative_rounded, ?_⟩
    · rw [ofRatio_eq hnum, if_neg (not_lt_of_ge (exp_rounded_le negative hnum hden hhi h'))]
    · rw [abs_rounded]
      exact ⟨le_digits hnum hden hlo h, digits_le hnum hden hhi h'⟩

theorem representable_natCast {n : ℕ} (h : n ≤ 2 ^ 53) : Representable n := by
  rcases Nat.lt_or_eq_of_le h with hlt | rfl
  · exact ⟨n, 0, hlt, by decide, by decide, by rw [zpow_zero, mul_one]⟩
  · exact ⟨2 ^ 52, 1, by norm_num, by decide, by decide, by norm_num⟩

theorem ratio_pos (f : Float64) : 0 < f.ratio.2 := by
  unfold ratio
  split_ifs
  · exact one_pos
  · positivity

theorem ratio_eq (f : Float64) : (f.ratio.1 : ℚ) / f.ratio.2 = f.abs := by
  unfold ratio abs
  split_ifs with he
  · obtain ⟨k, hk⟩ := Int.eq_ofNat_of_zero_le he
    simp [hk]
  · obtain ⟨k, hk⟩ := Int.eq_ofNat_of_zero_le (show 0 ≤ -f.exp by omega)
    obtain hexp : f.exp = -k := by omega
    simp [hexp, div_eq_mul_inv]

end Float64

namespace Double

open Float64 (Representable)

/-- A double that is not negative, between two bounds. -/
def Between (lo hi : ℚ) (x : Double) : Prop :=
  ∃ f, x = finite f ∧ f.negative = false ∧ lo ≤ f.abs ∧ f.abs ≤ hi

variable {x y : Double} {lo hi a b c d : ℚ}

theorem exact_of_between {x : Double} {a : ℚ} (h : Between a a x) :
    ∃ f, x = finite f ∧ f.negative = false ∧ f.value = a := by
  obtain ⟨f, rfl, hf, hle, hge⟩ := h
  exact ⟨f, rfl, hf, by rw [Float64.value, if_neg (by rw [hf]; nofun), le_antisymm hge hle]⟩

theorem ofRatio_between {num den : ℕ} (hden : 0 < den) (hlo : Representable lo)
    (hhi : Representable hi) (h : lo ≤ (num : ℚ) / den) (h' : (num : ℚ) / den ≤ hi) :
    Between lo hi (ofRatio false num den) := by
  obtain ⟨f, hf, hnegative, hle, hge⟩ :=
    Float64.ofRatio_between false hden hlo hhi h h'
  exact ⟨f, by rw [ofRatio, hf], hnegative, hle, hge⟩

theorem ofInt_natCast {n : ℕ} (h : n ≤ 2 ^ 53) : Between n n (ofInt n) := by
  have hn := Float64.representable_natCast h
  rw [ofInt, decide_eq_false (by omega), Int.natAbs_natCast]
  exact ofRatio_between one_pos hn hn (by simp) (by simp)

theorem div_between (hx : Between a b x) (hy : Between c d y) (hc : 0 < c)
    (hlo : Representable lo) (hhi : Representable hi) (h : lo ≤ a / d) (h' : b / c ≤ hi) :
    Between lo hi (x.div y) := by
  obtain ⟨f, rfl, hf, hfa, hfb⟩ := hx
  obtain ⟨g, rfl, hg, hgc, hgd⟩ := hy
  have hgpos : 0 < g.abs := hc.trans_le hgc
  have hmant : g.mant ≠ 0 := by
    intro hzero
    rw [Float64.abs, hzero, Nat.cast_zero, zero_mul] at hgpos
    exact absurd hgpos (lt_irrefl 0)
  have hden : 0 < g.ratio.1 := by
    have := g.ratio_eq ▸ hgpos
    by_contra hzero
    rw [Nat.eq_zero_of_not_pos hzero, Nat.cast_zero, zero_div] at this
    exact absurd this (lt_irrefl 0)
  have hquot : ((f.ratio.1 * g.ratio.2 : ℕ) : ℚ) / (f.ratio.2 * g.ratio.1 : ℕ) = f.abs / g.abs := by
    rw [← f.ratio_eq, ← g.ratio_eq]
    push_cast
    have hf2 : (f.ratio.2 : ℚ) ≠ 0 := Nat.cast_ne_zero.mpr (Nat.ne_of_gt f.ratio_pos)
    have hg2 : (g.ratio.2 : ℚ) ≠ 0 := Nat.cast_ne_zero.mpr (Nat.ne_of_gt g.ratio_pos)
    have hg1 : (g.ratio.1 : ℚ) ≠ 0 := Nat.cast_ne_zero.mpr (Nat.ne_of_gt hden)
    field_simp
  simp only [div, if_neg hmant, hf, hg, Bool.false_xor]
  refine ofRatio_between (Nat.mul_pos f.ratio_pos hden) hlo hhi ?_ ?_
  · rw [hquot]
    exact h.trans (div_le_div₀ f.abs_nonneg hfa hgpos hgd)
  · rw [hquot]
    exact (div_le_div₀ (f.abs_nonneg.trans hfb) hfb hc hgc).trans h'

theorem signed_pos (f : Float64) : 0 < (signed f).2 := f.ratio_pos

theorem signed_eq (f : Float64) : ((signed f).1 : ℚ) / (signed f).2 = f.value := by
  unfold signed Float64.value
  rw [← f.ratio_eq]
  split_ifs
  · rw [Int.cast_neg, Int.cast_natCast, neg_div]
  · rw [Int.cast_natCast]

theorem add_between (hx : Between a b x) (hy : Between c d y) (hlo : Representable lo)
    (hhi : Representable hi) (h : lo ≤ a + c) (h' : b + d ≤ hi) : Between lo hi (x.add y) := by
  obtain ⟨f, rfl, hf, hfa, hfb⟩ := hx
  obtain ⟨g, rfl, hg, hgc, hgd⟩ := hy
  have hsum : ((f.ratio.1 * g.ratio.2 + g.ratio.1 * f.ratio.2 : ℕ) : ℚ) /
      (f.ratio.2 * g.ratio.2 : ℕ) = f.abs + g.abs := by
    rw [← f.ratio_eq, ← g.ratio_eq]
    have hf2 : (f.ratio.2 : ℚ) ≠ 0 := Nat.cast_ne_zero.mpr (Nat.ne_of_gt f.ratio_pos)
    have hg2 : (g.ratio.2 : ℚ) ≠ 0 := Nat.cast_ne_zero.mpr (Nat.ne_of_gt g.ratio_pos)
    push_cast
    field_simp
  have hnum : (signed f).1 * (signed g).2 + (signed g).1 * (signed f).2 =
      ((f.ratio.1 * g.ratio.2 + g.ratio.1 * f.ratio.2 : ℕ) : ℤ) := by
    simp only [signed, hf, hg]
    push_cast
    rfl
  have hsign : (if ((f.ratio.1 * g.ratio.2 + g.ratio.1 * f.ratio.2 : ℕ) : ℤ) = 0 then
      f.negative && g.negative else
      decide (((f.ratio.1 * g.ratio.2 + g.ratio.1 * f.ratio.2 : ℕ) : ℤ) < 0)) = false := by
    split_ifs
    · rw [hf, Bool.false_and]
    · exact decide_eq_false (by omega)
  simp only [add, hnum, hsign, Int.natAbs_natCast]
  refine ofRatio_between (Nat.mul_pos f.ratio_pos g.ratio_pos) hlo hhi ?_ ?_
  · rw [signed, signed, hsum]
    exact h.trans (add_le_add hfa hgc)
  · rw [signed, signed, hsum]
    exact (add_le_add hfb hgd).trans h'

theorem le_finite_iff (f g : Float64) : (finite f).le (finite g) = true ↔ f.value ≤ g.value := by
  have hf : (0 : ℚ) < (signed f).2 := Nat.cast_pos.mpr (signed_pos f)
  have hg : (0 : ℚ) < (signed g).2 := Nat.cast_pos.mpr (signed_pos g)
  rw [le, decide_eq_true_iff, ← signed_eq, ← signed_eq, div_le_div_iff₀ hf hg]
  exact_mod_cast Iff.rfl

end Double
