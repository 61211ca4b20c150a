import BatAudit.Lib.Json.Lexer
import Mathlib.Tactic.Common
import Mathlib.Tactic.IntervalCases

/-!
# Integers of JSON texts

A machine integer is read from a literal that has neither a fraction nor an exponent and
that is in range, and is written without either.
-/

namespace Json

def decimal (i : Int) : List Char :=
  if i < 0 then '-' :: Nat.toDigits 10 i.natAbs else Nat.toDigits 10 i.natAbs

def readNat (s : List Char) : Option Nat :=
  if s ≠ [] ∧ s.all isDigit then some (Nat.ofDigitChars 10 s 0) else none

/-- `strconv.ParseInt` for 64 bits, on what a number literal can be. -/
def parseInt64 (s : List Char) : Option Int :=
  match s with
  | '-' :: digits => (readNat digits).bind fun n => if n ≤ 2 ^ 63 then some (-n : Int) else none
  | digits => (readNat digits).bind fun n => if n < 2 ^ 63 then some (n : Int) else none

theorem isDigit_of_mem_toDigits {n : Nat} {c : Char} (h : c ∈ Nat.toDigits 10 n) :
    isDigit c = true :=
  Nat.isDigit_of_mem_toDigits (by decide) (by decide) h

theorem readNat_toDigits (n : Nat) : readNat (Nat.toDigits 10 n) = some n := by
  have hall : (Nat.toDigits 10 n).all isDigit = true :=
    List.all_eq_true.mpr fun c hc => isDigit_of_mem_toDigits hc
  rw [readNat, if_pos ⟨Nat.toDigits_ne_nil, hall⟩, Nat.ofDigitChars_ten_toDigits]

theorem toDigits_head (n : Nat) : ∃ c s, Nat.toDigits 10 n = c :: s ∧ c ≠ '-' := by
  obtain ⟨c, s, hs⟩ := List.exists_cons_of_ne_nil (Nat.toDigits_ne_nil (b := 10) (n := n))
  refine ⟨c, s, hs, ?_⟩
  rintro rfl
  have hdigit := isDigit_of_mem_toDigits (n := n) (c := '-') (by simp [hs])
  revert hdigit
  decide

theorem parseInt64_decimal {i : Int} (hlow : -2 ^ 63 ≤ i) (hhigh : i < 2 ^ 63) :
    parseInt64 (decimal i) = some i := by
  unfold decimal
  split_ifs with hneg
  · have hle : i.natAbs ≤ 2 ^ 63 := by omega
    have hi : -(i.natAbs : Int) = i := by omega
    simp only [parseInt64, readNat_toDigits, Option.bind_some, if_pos hle, hi]
  · have hlt : i.natAbs < 2 ^ 63 := by omega
    have hi : (i.natAbs : Int) = i := by omega
    obtain ⟨c, s, hs, hc⟩ := toDigits_head i.natAbs
    have hplain : parseInt64 (Nat.toDigits 10 i.natAbs) =
        (readNat (Nat.toDigits 10 i.natAbs)).bind fun n =>
          if n < 2 ^ 63 then some (n : Int) else none := by
      rw [hs]
      unfold parseInt64
      split
      · rename_i heq
        exact absurd (List.cons.inj heq).1 hc
      · rfl
    rw [hplain, readNat_toDigits, Option.bind_some, if_pos hlt, hi]

theorem numRun_digits {s : List Char} (h : ∀ c ∈ s, isDigit c = true) :
    numRun .int s = some .int := by
  induction s with
  | nil => rfl
  | cons c s ih =>
    have hc : numNext .int c = some .int := if_pos (h c (by simp))
    rw [numRun, hc, Option.bind_some, ih fun d hd => h d (by simp [hd])]

theorem head_toDigits (n : Nat) (hn : 0 < n) : (Nat.toDigits 10 n).head? ≠ some '0' := by
  induction n using Nat.strong_induction_on with
  | h n ih =>
    rcases lt_or_ge n 10 with hlt | hge
    · rw [Nat.toDigits_of_lt_base hlt]
      interval_cases n <;> decide
    · rw [Nat.toDigits_of_base_le (by decide) hge]
      have hhead := ih (n / 10) (Nat.div_lt_self hn (by decide)) (by omega)
      obtain ⟨c, s, hs⟩ := List.exists_cons_of_ne_nil (Nat.toDigits_ne_nil (b := 10) (n := n / 10))
      rw [hs] at hhead ⊢
      exact hhead

theorem isNumber_toDigits (n : Nat) :
    isNumber (Nat.toDigits 10 n) = true ∧ isNumber ('-' :: Nat.toDigits 10 n) = true := by
  rcases Nat.eq_zero_or_pos n with rfl | hn
  · decide
  · obtain ⟨c, s, hs⟩ := List.exists_cons_of_ne_nil (Nat.toDigits_ne_nil (b := 10) (n := n))
    have hdigit : ∀ d ∈ c :: s, isDigit d = true := fun d hd =>
      isDigit_of_mem_toDigits (n := n) (by rwa [hs])
    have hc : isDigit c = true := hdigit c (by simp)
    have hzero : c ≠ '0' := by
      rintro rfl
      exact head_toDigits n hn (by rw [hs]; rfl)
    have hminus : c ≠ '-' := by
      rintro rfl
      revert hc
      decide
    have hrun := numRun_digits fun d hd => hdigit d (List.mem_cons_of_mem c hd)
    have hstart : numStart c = some .int := by
      rw [numStart, if_neg hminus, if_neg hzero, if_pos hc]
    have hneg : numNext .neg c = some .int := by
      rw [numNext, if_neg hzero, if_pos hc]
    rw [hs]
    constructor
    · simp [isNumber, hstart, hrun, NumState.accepting]
    · simp [isNumber, numStart, numRun, hneg, hrun, NumState.accepting]

theorem isNumber_decimal (i : Int) : isNumber (decimal i) = true := by
  unfold decimal
  split_ifs
  · exact (isNumber_toDigits _).2
  · exact (isNumber_toDigits _).1

def NumLit.ofInt (i : Int) : NumLit := ⟨decimal i, isNumber_decimal i⟩

theorem parseInt64_ofInt {i : Int} (hlow : -2 ^ 63 ≤ i) (hhigh : i < 2 ^ 63) :
    parseInt64 (NumLit.ofInt i).raw = some i :=
  parseInt64_decimal hlow hhigh

end Json
