import BatAudit.Lib.GoText
import BatAudit.Lib.Runs
import BatAudit.Auth.Token

/-!
# Wallboard credentials

A code activates a screen, which gets an access token for an hour and a refresh
token to replace it with. Access tokens are signed with the same key as session
tokens. The wallboard's own middleware asks for the claim `scope`; the session
middleware does not look at it.
-/

namespace BatAudit.Wallboard

open Auth (Signing Authorization)

/-- A row of `wallboard_tokens`. -/
structure WallboardToken where
  id : String
  name : String
  projectID : String
  code : String
  refreshHash : String
  expiresAt : ℤ
  createdAt : ℤ
  lastUsedAt : Option ℤ
deriving DecidableEq, Repr

def accessTokenTTL : ℤ := Auth.hour

def refreshTokenTTL : ℤ := 30 * 24 * Auth.hour

def signAccessToken (σ : Signing) (now : ℤ) (projectID : String) : Jwt.Token σ.Mac :=
  Jwt.sign σ.hmac σ.jwtSecret
    [("scope", .text "wallboard"), ("project_id", .text projectID),
      ("exp", .number (Auth.unix (now + accessTokenTTL)))]

inductive Denied
  | missingHeader
  | invalidToken
  | invalidScope
deriving DecidableEq, Repr

/-- 401, 401 or 403, or the project of the token. A claim that is not a text reads as
the empty text here. -/
def middleware (σ : Signing) (now : ℤ) (header : Authorization σ) : Except Denied String :=
  match header with
  | none => .error .missingHeader
  | some t =>
    match Jwt.parse σ.hmac σ.jwtSecret now t with
    | .error _ => .error .invalidToken
    | .ok claims =>
      if claims.lookup "scope" ≠ some (.text "wallboard") then .error .invalidScope
      else match claims.lookup "project_id" with
        | some (.text projectID) => .ok projectID
        | _ => .ok ""

/-! ## The requests that hand out tokens -/

structure State (σ : Signing) where
  tokens : List WallboardToken := []
  issued : List (ℤ × Jwt.Token σ.Mac) := []

/-- `random` stands for the hex texts of the random bytes a request reads. -/
inductive Label (σ : Signing)
  | generateCode (now : ℤ) (id code random name projectID : String)
  | activate (now : ℤ) (code random : String)
  | refresh (now : ℤ) (refreshToken : String)
  | revokeCode (id : String)
  | protectedRequest (now : ℤ) (header : Authorization σ)

section Requests

variable {σ : Signing} (sha256 : String → String)

def getByCode (s : State σ) (now : ℤ) (code : String) : Option WallboardToken :=
  s.tokens.find? fun t => t.code = code && now < t.expiresAt

def getByRefreshHash (s : State σ) (now : ℤ) (hash : String) : Option WallboardToken :=
  s.tokens.find? fun t => t.refreshHash = hash && now < t.expiresAt

def updateToken (s : State σ) (id : String) (f : WallboardToken → WallboardToken) : State σ :=
  { s with tokens := s.tokens.map fun t => if t.id = id then f t else t }

/-- The access token of a response, with the time it was signed at. -/
def issue (s : State σ) (now : ℤ) (projectID : String) : State σ :=
  { s with issued := (now, signAccessToken σ now projectID) :: s.issued }

def normalizeCode (code : String) : String :=
  String.ofList (GoText.toUpper (GoText.trimSpace code.toList))

def step (s : State σ) : Label σ → Option (State σ)
  | .generateCode now id code random name projectID =>
    let token : WallboardToken :=
      { id, name, projectID, code, refreshHash := sha256 random,
        expiresAt := now + refreshTokenTTL, createdAt := now, lastUsedAt := none }
    if s.tokens.any fun t => t.id = id || t.code = code then some s
    else some { s with tokens := s.tokens ++ [token] }
  | .activate now code random =>
    if code = "" then some s
    else match getByCode s now (normalizeCode code) with
      | none => some s
      | some tok =>
        let s := updateToken s tok.id fun t =>
          { t with expiresAt := now + refreshTokenTTL, refreshHash := sha256 random,
                   lastUsedAt := some now }
        some (issue s now tok.projectID)
  | .refresh now refreshToken =>
    if refreshToken = "" then some s
    else match getByRefreshHash s now (sha256 refreshToken) with
      | none => some s
      | some tok =>
        let s := updateToken s tok.id fun t =>
          { t with expiresAt := now + refreshTokenTTL, lastUsedAt := some now }
        some (issue s now tok.projectID)
  | .revokeCode id => some { s with tokens := s.tokens.filter fun t => t.id ≠ id }
  | .protectedRequest _ _ => some s

end Requests

/-! ## The two middlewares -/

section Separation

variable {σ : Signing}

theorem expiryError_access (now signed : ℤ) (projectID : String) :
    Jwt.expiryError now [("scope", .text "wallboard"), ("project_id", .text projectID),
        ("exp", .number (Auth.unix (signed + accessTokenTTL)))] =
      if now < Auth.expiry signed accessTokenTTL then none else some .expired := rfl

/-- The session middleware takes an access token of the wallboard for a session of
nobody, until it expires. -/
theorem jwtMiddleware_access (now signed : ℤ) (projectID : String) :
    Auth.jwtMiddleware σ now (some (signAccessToken σ signed projectID)) =
      if now < Auth.expiry signed accessTokenTTL then .ok ⟨"", "", ""⟩
      else .error .invalidToken := by
  simp only [Auth.jwtMiddleware, Auth.validateToken, signAccessToken, Jwt.parse_sign,
    expiryError_access]
  by_cases h : now < Auth.expiry signed accessTokenTTL
  · rw [if_pos h, if_pos h]
    rfl
  · rw [if_neg h, if_neg h]
    rfl

/-- A session token has no scope. -/
theorem middleware_session (now signed : ℤ) (user : Auth.User) (projectID : String) :
    middleware σ now (some (Auth.generateToken σ signed user)) ≠ .ok projectID := by
  simp only [middleware, Auth.generateToken, Jwt.parse_sign]
  split
  · intro h
    cases h
  · rename_i claims hclaims
    split at hclaims
    · cases hclaims
    · cases hclaims
      intro h
      cases h

end Separation

/-! ## Whole runs -/

section Runs

variable {σ : Signing}

/-- A protected route does not serve the bearer of a token that was issued before. -/
def KeptOut (s : State σ) (a : Label σ) (_ : State σ) : Prop :=
  ∀ now signed tok, a = .protectedRequest now (some tok) → (signed, tok) ∈ s.issued →
    ∀ claims, Auth.jwtMiddleware σ now (some tok) ≠ .ok claims

/-- A token is presented to a protected route only after it has expired. -/
def OnlyExpired (s : State σ) (a : Label σ) : Prop :=
  ∀ now signed tok, a = .protectedRequest now (some tok) → (signed, tok) ∈ s.issued →
    Auth.expiry signed accessTokenTTL ≤ now

def IssuedByWallboard (s : State σ) : Prop :=
  ∀ x ∈ s.issued, ∃ projectID, x.2 = signAccessToken σ x.1 projectID

theorem issuedByWallboard_issue {s : State σ} (h : IssuedByWallboard s) (now : ℤ)
    (projectID : String) : IssuedByWallboard (issue s now projectID) := by
  intro x hx
  rcases List.mem_cons.mp hx with rfl | hx
  · exact ⟨projectID, rfl⟩
  · exact h x hx

theorem issuedByWallboard_step {sha256 : String → String} {s t : State σ} {a : Label σ}
    (h : IssuedByWallboard s) (hstep : step sha256 s a = some t) : IssuedByWallboard t := by
  cases a with
  | generateCode now id code random name projectID =>
    simp only [step] at hstep
    split at hstep <;> cases hstep <;> exact h
  | activate now code random =>
    simp only [step] at hstep
    split at hstep
    · cases hstep
      exact h
    · split at hstep
      · cases hstep
        exact h
      · cases hstep
        exact issuedByWallboard_issue h _ _
  | refresh now refreshToken =>
    simp only [step] at hstep
    split at hstep
    · cases hstep
      exact h
    · split at hstep
      · cases hstep
        exact h
      · cases hstep
        exact issuedByWallboard_issue h _ _
  | revokeCode id =>
    cases hstep
    exact h
  | protectedRequest now header =>
    cases hstep
    exact h

theorem keptOut_iff_onlyExpired {s : State σ} (h : IssuedByWallboard s) (a : Label σ)
    (t : State σ) : KeptOut s a t ↔ OnlyExpired s a := by
  refine forall_congr' fun now => forall_congr' fun signed => forall_congr' fun tok =>
    imp_congr_right fun _ => forall_congr' fun hissued => ?_
  obtain ⟨projectID, htok⟩ := h _ hissued
  dsimp only at htok
  rw [htok, jwtMiddleware_access]
  constructor
  · intro hno
    by_contra hlt
    rw [if_pos (by omega)] at hno
    exact hno _ rfl
  · intro hle claims hc
    rw [if_neg (by omega)] at hc
    cases hc

/-- Whatever codes are generated, activated, refreshed and revoked: the holders of
wallboard tokens are kept out of the protected routes exactly when they only present
expired ones. No session token ever passes the wallboard's middleware. -/
theorem wallboard_separation (sha256 : String → String) (tokens : List WallboardToken)
    (as : List (Label σ)) :
    (Runs.Along (step sha256) KeptOut { tokens } as ↔
      Runs.Meets (step sha256) OnlyExpired { tokens } as) ∧
    ∀ now signed user projectID,
      middleware σ now (some (Auth.generateToken σ signed user)) ≠ .ok projectID := by
  refine ⟨Runs.along_iff_meets (I := IssuedByWallboard) ?_ ?_ ?_ as, middleware_session⟩
  · intro s a t h hok hstep
    exact ⟨issuedByWallboard_step h hstep, (keptOut_iff_onlyExpired h a t).mpr hok⟩
  · intro s a t h hbad _ hout
    exact hbad ((keptOut_iff_onlyExpired h a t).mp hout)
  · intro x hx
    exact absurd hx List.not_mem_nil

end Runs

/-- A screen is activated and its token used on a protected route a second later. -/
theorem activated_screen_reaches_dashboard :
    let σ : Signing := ⟨ℕ, ℕ × Jwt.Method × Jwt.Claims, fun k m c => (k, m, c), 7⟩
    let token := signAccessToken σ 0 "p"
    ¬ Runs.Along (@step σ id) KeptOut {}
      [.generateCode 0 "1" "BAT-A1B2C3" "r" "Office TV" "p", .activate 0 "bat-a1b2c3" "s",
        .protectedRequest 1000000 (some token)] := by
  intro σ token h
  obtain ⟨-, h⟩ := h _ rfl
  obtain ⟨-, h⟩ := h _ rfl
  obtain ⟨h, -⟩ := h _ rfl
  exact h 1000000 0 token rfl (List.mem_cons_self ..) _ rfl

end BatAudit.Wallboard
