import Mathlib.Data.Nat.Sqrt
import BatAudit.Lib.Float64

/-!
# Double precision arithmetic

The operations on doubles, infinities and NaN included. A finite result is the exact one
rounded to the nearest double, ties to even.
-/

inductive Double
  | nan
  | infinite (negative : Bool)
  | finite (f : Float64)
deriving DecidableEq, Repr

namespace Double

def ofRatio (negative : Bool) (num den : ℕ) : Double :=
  match Float64.ofRatio negative num den with
  | some f => finite f
  | none => infinite negative

def ofInt (n : ℤ) : Double := ofRatio (n < 0) n.natAbs 1

def mul : Double → Double → Double
  | nan, _ | _, nan => nan
  | infinite s, infinite t => infinite (s ^^ t)
  | infinite s, finite g => if g.mant = 0 then nan else infinite (s ^^ g.negative)
  | finite f, infinite t => if f.mant = 0 then nan else infinite (f.negative ^^ t)
  | finite f, finite g =>
    ofRatio (f.negative ^^ g.negative) (f.ratio.1 * g.ratio.1) (f.ratio.2 * g.ratio.2)

def div : Double → Double → Double
  | nan, _ | _, nan | infinite _, infinite _ => nan
  | infinite s, finite g => infinite (s ^^ g.negative)
  | finite f, infinite t => ofRatio (f.negative ^^ t) 0 1
  | finite f, finite g =>
    if g.mant = 0 then
      if f.mant = 0 then nan else infinite (f.negative ^^ g.negative)
    else ofRatio (f.negative ^^ g.negative) (f.ratio.1 * g.ratio.2) (f.ratio.2 * g.ratio.1)

/-- The value as a ratio. -/
def signed (f : Float64) : ℤ × ℕ :=
  (if f.negative then -(f.ratio.1 : ℤ) else f.ratio.1, f.ratio.2)

def neg : Double → Double
  | nan => nan
  | infinite s => infinite !s
  | finite f => finite { f with negative := !f.negative }

def add : Double → Double → Double
  | nan, _ | _, nan => nan
  | infinite s, infinite t => if s = t then infinite s else nan
  | infinite s, finite _ | finite _, infinite s => infinite s
  | finite f, finite g =>
    let num := (signed f).1 * (signed g).2 + (signed g).1 * (signed f).2
    ofRatio (if num = 0 then f.negative && g.negative else num < 0) num.natAbs
      ((signed f).2 * (signed g).2)

def sub (x y : Double) : Double := add x (neg y)

/-- The root is taken of the significand with at least 120 more binary digits and an even
exponent. A remainder is kept as an odd last digit, too far right to change the rounding but
for telling it from a tie. -/
def sqrt : Double → Double
  | nan => nan
  | infinite s => if s then nan else infinite false
  | finite f =>
    if f.mant = 0 then finite f
    else if f.negative then nan
    else
      let shift := 120 + (f.exp % 2).toNat
      let m := f.mant * 2 ^ shift
      let r := Nat.sqrt m
      let num := if r * r = m then 2 * r else 2 * r + 1
      let e := (f.exp - shift) / 2
      if 0 ≤ e then ofRatio false (num * 2 ^ e.toNat) 2 else ofRatio false num (2 * 2 ^ (-e).toNat)

def le : Double → Double → Bool
  | nan, _ | _, nan => false
  | infinite s, infinite t => s || !t
  | infinite s, finite _ => s
  | finite _, infinite t => !t
  | finite f, finite g => (signed f).1 * (signed g).2 ≤ (signed g).1 * (signed f).2

def lt (x y : Double) : Bool := le x y && !le y x

/-- The integer a finite double is rounded to, away from zero when `up`. -/
def round (up : Bool) (f : Float64) : Double :=
  let (n, d) := f.ratio
  ofRatio f.negative (if up && n % d ≠ 0 then n / d + 1 else n / d) 1

def ceil : Double → Double
  | finite f => round (!f.negative) f
  | x => x

def floor : Double → Double
  | finite f => round f.negative f
  | x => x

/-- The nearest integer, halves away from zero. -/
def nearest : Double → Double
  | finite f =>
    let (n, d) := f.ratio
    ofRatio f.negative ((2 * n + d) / (2 * d)) 1
  | x => x

/-- Truncation towards zero. A value out of range of the 64-bit integers, and NaN, is
converted as the platform pleases. -/
def toInt (beyond : Double → ℤ) : Double → ℤ
  | finite f =>
    let n : ℤ := (f.ratio.1 / f.ratio.2 : ℕ)
    let n := if f.negative then -n else n
    if -2 ^ 63 ≤ n ∧ n < 2 ^ 63 then n else beyond (finite f)
  | x => beyond x

end Double
