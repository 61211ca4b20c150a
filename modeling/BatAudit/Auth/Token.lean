import BatAudit.Auth.Service
import BatAudit.Lib.Jwt

/-!
# Session tokens

What `generateToken` signs and what `ValidateToken` and `JWTMiddleware` look at.
The middleware guards every group of routes of the Reader that is not public:
auth, audit, reports, anomaly, tiering, notifications, monitors and the management
of wallboard codes.
-/

namespace BatAudit.Auth

/-- The signing key of a deployment and the MAC of the JWT library. -/
structure Signing where
  Secret : Type
  Mac : Type
  [decEq : DecidableEq Mac]
  hmac : Secret → Jwt.Method → Jwt.Claims → Mac
  jwtSecret : Secret

instance (σ : Signing) : DecidableEq σ.Mac := σ.decEq

/-- A MAC that tells everything it was made of. -/
def someSigning : Signing := ⟨ℕ, ℕ × Jwt.Method × Jwt.Claims, fun k m c => (k, m, c), 7⟩

def second : ℤ := 1000000

def hour : ℤ := 3600 * second

/-- `jwt.NewNumericDate` and `Time.Unix`: whole seconds, rounded down. -/
def unix (t : ℤ) : ℤ := t / second

/-- Microseconds at which a token signed now with the given lifetime stops being valid. -/
def expiry (now lifetime : ℤ) : ℤ := unix (now + lifetime) * second

def generateToken (σ : Signing) (now : ℤ) (user : User) : Jwt.Token σ.Mac :=
  Jwt.sign σ.hmac σ.jwtSecret
    [("user_id", .text user.id), ("email", .text user.email), ("role", .text user.role),
      ("exp", .number (unix (now + 24 * hour))), ("iat", .number (unix now))]

def decodeClaims (claims : Jwt.Claims) : Except Jwt.Error Claims := do
  let userID ← Jwt.textClaim claims "user_id"
  let email ← Jwt.textClaim claims "email"
  let role ← Jwt.textClaim claims "role"
  return ⟨userID, email, role⟩

def validateToken (σ : Signing) (now : ℤ) (t : Jwt.Token σ.Mac) : Except Jwt.Error Claims := do
  let claims ← Jwt.parse σ.hmac σ.jwtSecret now t
  decodeClaims claims

/-- An Authorization header: a bearer token, or anything else. -/
abbrev Authorization (σ : Signing) := Option (Jwt.Token σ.Mac)

inductive Unauthorized
  | missingHeader
  | invalidToken
deriving DecidableEq, Repr

/-- Status 401 with code BAT-005, or the claims put into the request's context. -/
def jwtMiddleware (σ : Signing) (now : ℤ) (header : Authorization σ) :
    Except Unauthorized Claims :=
  match header with
  | none => .error .missingHeader
  | some t =>
    match validateToken σ now t with
    | .ok claims => .ok claims
    | .error _ => .error .invalidToken

end BatAudit.Auth
