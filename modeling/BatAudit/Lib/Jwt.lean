import Mathlib.Data.Int.Notation

/-!
# Signed tokens

A token carries claims and a MAC over them, under a key both sides share. Parsing
checks the signing method, the MAC and the expiry, and nothing else: what the
claims mean is up to whoever parses them. Expiry is in seconds, the clock in
microseconds.
-/

namespace Jwt

inductive Method
  | hs256
  | hs384
  | hs512
  | notHMAC
deriving DecidableEq, Repr

inductive Value
  | text (s : String)
  | number (n : ℤ)
deriving DecidableEq, Repr

abbrev Claims := List (String × Value)

structure Token (M : Type) where
  method : Method
  claims : Claims
  mac : M
deriving DecidableEq, Repr

inductive Error
  | method
  | signature
  | expired
  | malformed
deriving DecidableEq, Repr

/-- A text claim, empty when absent, and an error when it is not a text. -/
def textClaim (claims : Claims) (name : String) : Except Error String :=
  match claims.lookup name with
  | none => .ok ""
  | some (.text s) => .ok s
  | some (.number _) => .error .malformed

section

variable {K M : Type} (hmac : K → Method → Claims → M)

def sign (secret : K) (claims : Claims) : Token M :=
  ⟨.hs256, claims, hmac secret .hs256 claims⟩

variable [DecidableEq M]

def expiryError (now : ℤ) (claims : Claims) : Option Error :=
  match claims.lookup "exp" with
  | none => none
  | some (.text _) => some .malformed
  | some (.number exp) => if now < exp * 1000000 then none else some .expired

/-- Any HMAC method is accepted, under the one secret. -/
def parse (secret : K) (now : ℤ) (t : Token M) : Except Error Claims :=
  if t.method = .notHMAC then .error .method
  else if t.mac ≠ hmac secret t.method t.claims then .error .signature
  else match expiryError now t.claims with
    | some e => .error e
    | none => .ok t.claims

variable {hmac}

theorem parse_sign (secret : K) (now : ℤ) (claims : Claims) :
    parse hmac secret now (sign hmac secret claims) =
      match expiryError now claims with
      | some e => .error e
      | none => .ok claims := by
  simp [parse, sign]

end

end Jwt
