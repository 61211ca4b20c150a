import Mathlib.Algebra.Group.Nat.Defs
import Mathlib.Algebra.Group.Int.Defs
import Mathlib.Tactic.SplitIfs

/-!
# Double precision numbers as decimal texts

The finite doubles in exact arithmetic: reading a decimal rounds it to the nearest one,
ties to even, and fails on overflow (`strconv.ParseFloat`); writing takes the fewest digits
that read back (`strconv.AppendFloat` with precision -1), laid out as `encoding/json` does.
-/

/-- The value is `mant * 2 ^ exp`, with `mant < 2 ^ 53`. -/
structure Float64 where
  negative : Bool
  mant : ℕ
  exp : ℤ
deriving DecidableEq, Repr

namespace Float64

def minExp : ℤ := -1074

def maxExp : ℤ := 971

/-- The ratio of two natural numbers to the nearest integer, ties to even. -/
def roundDiv (num den : ℕ) : ℕ :=
  let q := num / den
  let r := 2 * (num % den)
  if den < r || (r = den && q % 2 = 1) then q + 1 else q

/-- `num / den` in units of `2 ^ e`. -/
def scaled (num den : ℕ) (e : ℤ) : ℕ × ℕ :=
  if 0 ≤ e then (num, den * 2 ^ e.toNat) else (num * 2 ^ (-e).toNat, den)

/-- The exponent at which the ratio has 53 binary digits, or the least one. -/
def ratioExp (num den : ℕ) : ℤ :=
  let e : ℤ := (num.log2 : ℤ) - den.log2 - 52
  let (n, d) := scaled num den e
  max minExp (if n / d < 2 ^ 52 then e - 1 else e)

def ofRatio (negative : Bool) (num den : ℕ) : Option Float64 :=
  if num = 0 then some ⟨negative, 0, minExp⟩
  else
    let e := ratioExp num den
    let (n, d) := scaled num den e
    let m := roundDiv n d
    let f : Float64 := if m = 2 ^ 53 then ⟨negative, 2 ^ 52, e + 1⟩ else ⟨negative, m, e⟩
    if maxExp < f.exp then none else some f

/-- `digits * 10 ^ e`. Beyond these bounds every double is too small or too large. -/
def ofDecimal (negative : Bool) (digits : ℕ) (e : ℤ) : Option Float64 :=
  let size : ℤ := (Nat.toDigits 10 digits).length + e
  if digits = 0 || size < -330 then some ⟨negative, 0, minExp⟩
  else if 330 < size then none
  else if 0 ≤ e then ofRatio negative (digits * 10 ^ e.toNat) 1
  else ofRatio negative digits (10 ^ (-e).toNat)

/-! ## Reading -/

def isDigit (c : Char) : Bool := '0' ≤ c && c ≤ '9'

/-- The digits of an exponent stop counting at five figures. -/
def exponentValue (s : List Char) : ℕ :=
  s.foldl (fun e c => if e < 10000 then e * 10 + (c.toNat - '0'.toNat) else e) 0

def exponent (s : List Char) : ℤ :=
  match s with
  | [] => 0
  | _ :: '-' :: digits => -exponentValue digits
  | _ :: '+' :: digits => exponentValue digits
  | _ :: digits => exponentValue digits

/-- A number literal of JSON. -/
def parse (s : List Char) : Option Float64 :=
  let negative := s.head? = some '-'
  let s := if negative then s.tail else s
  let whole := s.takeWhile isDigit
  let rest := s.dropWhile isDigit
  let fraction := if rest.head? = some '.' then rest.tail.takeWhile isDigit else []
  let rest := if rest.head? = some '.' then rest.tail.dropWhile isDigit else rest
  ofDecimal negative (Nat.ofDigitChars 10 (whole ++ fraction) 0) (exponent rest - fraction.length)

/-! ## Writing -/

def ratio (f : Float64) : ℕ × ℕ :=
  if 0 ≤ f.exp then (f.mant * 2 ^ f.exp.toNat, 1) else (f.mant, 2 ^ (-f.exp).toNat)

/-- The position of the decimal point: the value is less than `10 ^ point`, and is not less
than a tenth of it. -/
def point (num den : ℕ) : ℤ :=
  if den ≤ num then (Nat.toDigits 10 (num / den)).length
  else -(((List.range 400).find? fun k => den ≤ num * 10 ^ (k + 1)).getD 0 : ℕ)

/-- `c * 10 ^ e` as a ratio. -/
def decimalRatio (c : ℕ) (e : ℤ) : ℕ × ℕ :=
  if 0 ≤ e then (c * 10 ^ e.toNat, 1) else (c, 10 ^ (-e).toNat)

def readsBack (f : Float64) (c : ℕ) (e : ℤ) : Bool :=
  let (n, d) := decimalRatio c e
  ofRatio f.negative n d = some f

/-- The closest decimal of `k` digits among the two around the value that read back. -/
def withDigits (f : Float64) (k : ℕ) : Option ℕ :=
  let (num, den) := f.ratio
  let e := point num den - k
  let (n, d) := if 0 ≤ e then (num, den * 10 ^ e.toNat) else (num * 10 ^ (-e).toNat, den)
  let low := n / d
  let nearest := roundDiv n d
  if readsBack f nearest e then some nearest
  else if readsBack f (low + 1) e then some (low + 1)
  else if readsBack f low e then some low
  else none

/-- The digits of the shortest decimal, and the position of its point. -/
def shortest (f : Float64) : List Char × ℤ :=
  let (num, den) := f.ratio
  let p := point num den
  match (List.range 17).findSome? fun k => (f.withDigits (k + 1)).map fun c => (k + 1, c) with
  | none => (['0'], 1)
  | some (k, c) =>
    let digits := Nat.toDigits 10 c
    if digits.length = k then (digits, p) else (['1'], p + 1)

def layoutPlain (digits : List Char) (p : ℤ) : List Char :=
  if p ≤ 0 then '0' :: '.' :: (List.replicate (-p).toNat '0' ++ digits)
  else if digits.length ≤ p.toNat then digits ++ List.replicate (p.toNat - digits.length) '0'
  else digits.take p.toNat ++ '.' :: digits.drop p.toNat

def layoutExp (digits : List Char) (p : ℤ) : List Char :=
  digits.take 1 ++ (if digits.length = 1 then [] else '.' :: digits.drop 1) ++
    'e' :: (if p - 1 < 0 then '-' else '+') :: Nat.toDigits 10 (p - 1).natAbs

/-- Below a millionth and from 10 ^ 21 on, with an exponent. -/
def format (f : Float64) : List Char :=
  let (digits, p) := f.shortest
  let body :=
    if f.mant = 0 then ['0']
    else if p < -5 || 21 < p then layoutExp digits p
    else layoutPlain digits p
  if f.negative then '-' :: body else body

/-! A number is written in digits, a sign, a point and an exponent. -/

def isFormatChar (c : Char) : Bool := isDigit c || c = '.' || c = '-' || c = '+' || c = 'e'

theorem isFormatChar_digit {c : Char} (h : isDigit c = true) : isFormatChar c = true := by
  simp [isFormatChar, h]

theorem isDigit_toDigits {n : ℕ} {c : Char} (h : c ∈ Nat.toDigits 10 n) : isDigit c = true :=
  Nat.isDigit_of_mem_toDigits (by decide) (by decide) h

theorem isDigit_shortest (f : Float64) {c : Char} (h : c ∈ f.shortest.1) : isDigit c = true := by
  unfold shortest at h
  simp only at h
  split at h
  · rw [List.mem_singleton.mp h]
    decide
  · split at h
    · exact isDigit_toDigits h
    · rw [List.mem_singleton.mp h]
      decide

theorem isFormatChar_layoutPlain {digits : List Char} (hdigits : ∀ c ∈ digits, isDigit c = true)
    (p : ℤ) {c : Char} (h : c ∈ layoutPlain digits p) : isFormatChar c = true := by
  unfold layoutPlain at h
  split_ifs at h
  · rcases List.mem_cons.mp h with rfl | h
    · decide
    rcases List.mem_cons.mp h with rfl | h
    · decide
    rcases List.mem_append.mp h with h | h
    · rw [List.eq_of_mem_replicate h]
      decide
    · exact isFormatChar_digit (hdigits c h)
  · rcases List.mem_append.mp h with h | h
    · exact isFormatChar_digit (hdigits c h)
    · rw [List.eq_of_mem_replicate h]
      decide
  · rcases List.mem_append.mp h with h | h
    · exact isFormatChar_digit (hdigits c (List.mem_of_mem_take h))
    rcases List.mem_cons.mp h with rfl | h
    · decide
    · exact isFormatChar_digit (hdigits c (List.mem_of_mem_drop h))

theorem isFormatChar_layoutExp {digits : List Char} (hdigits : ∀ c ∈ digits, isDigit c = true)
    (p : ℤ) {c : Char} (h : c ∈ layoutExp digits p) : isFormatChar c = true := by
  unfold layoutExp at h
  rcases List.mem_append.mp h with h | h
  · rcases List.mem_append.mp h with h | h
    · exact isFormatChar_digit (hdigits c (List.mem_of_mem_take h))
    · split_ifs at h
      · cases h
      · rcases List.mem_cons.mp h with rfl | h
        · decide
        · exact isFormatChar_digit (hdigits c (List.mem_of_mem_drop h))
  · rcases List.mem_cons.mp h with rfl | h
    · decide
    rcases List.mem_cons.mp h with rfl | h
    · split_ifs <;> decide
    · exact isFormatChar_digit (isDigit_toDigits h)

theorem isFormatChar_format (f : Float64) {c : Char} (h : c ∈ f.format) :
    isFormatChar c = true := by
  have hbody : ∀ c ∈ (if f.mant = 0 then ['0']
      else if f.shortest.2 < -5 || 21 < f.shortest.2 then layoutExp f.shortest.1 f.shortest.2
      else layoutPlain f.shortest.1 f.shortest.2), isFormatChar c = true := by
    intro c hc
    split_ifs at hc
    · rw [List.mem_singleton.mp hc]
      decide
    · exact isFormatChar_layoutExp (fun d hd => isDigit_shortest f hd) _ hc
    · exact isFormatChar_layoutPlain (fun d hd => isDigit_shortest f hd) _ hc
  unfold format at h
  simp only at h
  by_cases hnegative : f.negative = true
  · rw [if_pos hnegative] at h
    rcases List.mem_cons.mp h with rfl | h
    · decide
    · exact hbody c h
  · rw [if_neg hnegative] at h
    exact hbody c h

end Float64
