import BatAudit.Lib.Json.Strings
import Mathlib.Data.Int.Notation

/-!
# JSONB columns

What PostgreSQL takes for a JSONB value. The grammar is that of JSON; beyond it a string
must be made of characters other than NUL, with surrogates in pairs, and a number must fit
the `numeric` type.
-/

namespace Jsonb

open Json (Item StrLit Text Tree)

/-- One item, after an unpaired high surrogate or not. -/
def takesItem (pending : Option ℕ) : Item → Option (Option ℕ)
  | .plain (.bad _) _ => none
  | .plain (.char _) _ | .escape _ _ => if pending.isSome then none else some none
  | .unicode a b c d _ =>
    let u := Json.unit a b c d
    match pending with
    | some hi => (Json.surrogatePair hi u).map fun _ => none
    | none =>
      if u = 0 then none
      else if Json.isSurrogate u then if u < 0xDC00 then some (some u) else none
      else some none

def takesString : Option ℕ → StrLit → Bool
  | pending, [] => pending.isNone
  | pending, i :: s =>
    match takesItem pending i with
    | none => false
    | some pending => takesString pending s

def exponent : List Char → ℤ
  | _ :: '-' :: digits => -Nat.ofDigitChars 10 digits 0
  | _ :: '+' :: digits => Nat.ofDigitChars 10 digits 0
  | _ :: digits => Nat.ofDigitChars 10 digits 0
  | [] => 0

/-- At most 131072 digits before the decimal point and 16383 after it. -/
def takesNumber (raw : List Char) : Bool :=
  let s := if raw.head? = some '-' then raw.tail else raw
  let whole := s.takeWhile Json.isDigit
  let rest := s.dropWhile Json.isDigit
  let fraction := if rest.head? = some '.' then rest.tail.takeWhile Json.isDigit else []
  let e := exponent (if rest.head? = some '.' then rest.tail.dropWhile Json.isDigit else rest)
  let zeros := (whole ++ fraction).takeWhile (· = '0')
  e.natAbs < 1073741823 && (fraction.length : ℤ) - e ≤ 16383 &&
    (zeros = whole ++ fraction || (whole.length : ℤ) - zeros.length + e ≤ 131072)

mutual

def takes : Tree → Bool
  | .word _ => true
  | .num n => takesNumber n.raw
  | .str s => takesString none s
  | .arr items => takesItems items
  | .obj members => takesMembers members

def takesItems : List Tree → Bool
  | [] => true
  | v :: vs => takes v && takesItems vs

def takesMembers : List (StrLit × Tree) → Bool
  | [] => true
  | m :: ms => takesMember m && takesMembers ms

def takesMember : StrLit × Tree → Bool
  | (k, v) => takesString none k && takes v

end

def accepts (s : Text) : Bool := (Json.parse s).any takes

end Jsonb
