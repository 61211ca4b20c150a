import BatAudit.Lib.Runs
import BatAudit.Auth.InviteRuns
import BatAudit.Auth.Ownership
import BatAudit.Auth.Token

/-!
# Sessions of removed users

A session token is all that `JWTMiddleware` looks at: it has the claims of the moment it
was signed in, and the tables are not read again. So it works until it expires, whether or
not its user is still there.
-/

namespace BatAudit.Auth.Sessions

structure LoginRequest where
  email : String
  password : String
deriving DecidableEq, Repr

def LoginRequest.bind (env : Env) (r : LoginRequest) : Bool :=
  required r.email && env.isEmail r.email && required r.password

/-- A token that was handed out, with the row it was made from. -/
structure Session (σ : Signing) where
  time : ℤ
  user : User
  token : Jwt.Token σ.Mac

structure State (σ : Signing) where
  db : AuthDb
  sessions : List (Session σ) := []

/-- A request to the protected routes may be a deletion. -/
inductive Label (σ : Signing)
  | login (env : Env) (body : Option LoginRequest)
  | protectedRequest (env : Env) (header : Authorization σ) (request : Request)

section

variable {σ : Signing} (compareHashAndPassword : String → String → Bool)

/-- Status 400 or 401, or 200 with the session. -/
def login (env : Env) (body : Option LoginRequest) (db : AuthDb) : Except ℕ (Session σ) :=
  match body with
  | none => .error 400
  | some req =>
    if !req.bind env then .error 400
    else match db.getUserByEmail req.email with
      | .error _ => .error 401
      | .ok user =>
        if compareHashAndPassword user.passwordHash req.password then
          .ok ⟨env.now, user, generateToken σ env.now user⟩
        else .error 401

def step (s : State σ) : Label σ → Option (State σ)
  | .login env body =>
    match login compareHashAndPassword env body s.db with
    | .error _ => some s
    | .ok session => some { s with sessions := session :: s.sessions }
  | .protectedRequest env header request =>
    match jwtMiddleware σ env.now header with
    | .error _ => some s
    | .ok claims => some { s with db := (Handler.handle env claims s.db request).2 }

/-! ## What a token is good for -/

variable {compareHashAndPassword}

theorem expiryError_session (now signed : ℤ) (user : User) :
    Jwt.expiryError now [("user_id", .text user.id), ("email", .text user.email),
        ("role", .text user.role), ("exp", .number (unix (signed + 24 * hour))),
        ("iat", .number (unix signed))] =
      if now < expiry signed (24 * hour) then none else some .expired := rfl

theorem jwtMiddleware_session (now signed : ℤ) (user : User) :
    jwtMiddleware σ now (some (generateToken σ signed user)) =
      if now < expiry signed (24 * hour) then .ok ⟨user.id, user.email, user.role⟩
      else .error .invalidToken := by
  simp only [jwtMiddleware, validateToken, generateToken, Jwt.parse_sign, expiryError_session]
  by_cases h : now < expiry signed (24 * hour)
  · rw [if_pos h, if_pos h]
    rfl
  · rw [if_neg h, if_neg h]
    rfl

/-! ## What a request does to the users -/

/-- A user comes in through `createUser` only, under the id that was drawn. -/
structure UsersFrom (env : Env) (db db' : AuthDb) : Prop where
  mem : ∀ u ∈ db'.users, u ∈ db.users ∨ u.id = env.uuid
  nodup : (db.users.map User.id).Nodup → (db'.users.map User.id).Nodup

theorem usersFrom_of_eq {env : Env} {db db' : AuthDb} (h : db'.users = db.users) :
    UsersFrom env db db' :=
  ⟨fun u hu => Or.inl (h ▸ hu), fun hn => by rwa [h]⟩

theorem usersFrom_createUser {db : AuthDb} (env : Env) (claims : Claims)
    (body : Option CreateUserRequest) :
    UsersFrom env db (Handler.createUser env claims body db).2 := by
  unfold Handler.createUser
  split
  · exact usersFrom_of_eq rfl
  · split
    · exact usersFrom_of_eq rfl
    · split_ifs with hbind hrole
      · exact usersFrom_of_eq rfl
      · exact usersFrom_of_eq rfl
      · split
        · rename_i user db' hmember
          obtain ⟨huser, v, hv, -, hfree, rfl⟩ := InviteRuns.createMember_ok hmember
          refine ⟨fun u hu => ?_, fun hn => ?_⟩
          · rcases List.mem_append.mp hu with hu | hu
            · exact Or.inl hu
            · rw [List.mem_singleton.mp hu]
              exact Or.inr (hv.trans huser)
          · rw [List.map_append, List.nodup_append]
            refine ⟨hn, List.nodup_singleton _, ?_⟩
            rintro id hid _ hnew rfl
            obtain ⟨x, hx, rfl⟩ := List.mem_map.mp hid
            exact (hfree x hx).1 (List.mem_singleton.mp hnew)
        · exact usersFrom_of_eq rfl
        · exact usersFrom_of_eq rfl

theorem usersFrom_deleteUser {db : AuthDb} (env : Env) (claims : Claims) (id : String) :
    UsersFrom env db (Handler.deleteUser claims id db).2 := by
  unfold Handler.deleteUser
  split_ifs with hrole hself
  · exact usersFrom_of_eq rfl
  · exact usersFrom_of_eq rfl
  · split
    · rename_i hdelete
      rw [InviteRuns.deleteUser_ok hdelete]
      exact ⟨fun u hu => Or.inl (List.mem_of_mem_filter hu),
        fun hn => hn.sublist (List.filter_sublist.map _)⟩
    · exact usersFrom_of_eq rfl

theorem users_createInvite {db : AuthDb} (env : Env) (claims : Claims)
    (body : Option CreateInviteRequest) :
    (Handler.createInvite env claims body db).2.users = db.users := by
  unfold Handler.createInvite
  split
  · rfl
  · split
    · rfl
    · split_ifs with hbind hrole
      · rfl
      · rfl
      · split
        · rename_i hinvite
          obtain ⟨db₁, hcreate, h⟩ := bind_eq_ok.mp hinvite
          cases h
          obtain ⟨j, -, rfl⟩ := Ownership.createInvite_eq_ok (Ownership.liftRepo_eq_ok hcreate)
          rfl
        · rfl

theorem usersFrom_handle {db : AuthDb} (env : Env) (claims : Claims) (request : Request) :
    UsersFrom env db (Handler.handle env claims db request).2 := by
  cases request with
  | createUser body => exact usersFrom_createUser env claims body
  | deleteUser id => exact usersFrom_deleteUser env claims id
  | createInvite body => exact usersFrom_of_eq (users_createInvite env claims body)
  | revokeInvite id =>
    simp only [Handler.handle, Handler.revokeInvite]
    split <;> exact usersFrom_of_eq rfl
  | _ => refine usersFrom_of_eq (Ownership.apart_handle env claims ?_ ?_ ?_ ?_).1 <;> simp

/-! ## Whole runs -/

/-- The id drawn for a new row is not one that a token was made for before. -/
def Fresh (s : State σ) : Label σ → Prop
  | .login _ _ => True
  | .protectedRequest env _ _ => ∀ x ∈ s.sessions, x.user.id ≠ env.uuid

/-- Tokens are made from rows of the table. One that is shown again is accepted until it
expires, with the claims it was made with, and they are those of the user if the user is
still there. -/
structure Honoured (s : State σ) (a : Label σ) (t : State σ) : Prop where
  issued : ∀ x ∈ t.sessions, x ∈ s.sessions ∨
    x.user ∈ s.db.users ∧ x.token = generateToken σ x.time x.user
  accepted : ∀ env x request, a = .protectedRequest env (some x.token) request →
    x ∈ s.sessions → ∀ claims,
      (jwtMiddleware σ env.now (some x.token) = .ok claims ↔
        env.now < expiry x.time (24 * hour) ∧
          claims = ⟨x.user.id, x.user.email, x.user.role⟩) ∧
      ∀ v ∈ s.db.users, v.id = x.user.id → v.role = x.user.role

structure Inv (s : State σ) : Prop where
  ids : (s.db.users.map User.id).Nodup
  tokens : ∀ x ∈ s.sessions, x.token = generateToken σ x.time x.user
  same : ∀ x ∈ s.sessions, ∀ v ∈ s.db.users, v.id = x.user.id → v = x.user

theorem login_ok {env : Env} {body : Option LoginRequest} {db : AuthDb} {x : Session σ}
    (h : login compareHashAndPassword env body db = .ok x) :
    x.user ∈ db.users ∧ x.token = generateToken σ x.time x.user := by
  unfold login at h
  split at h
  · cases h
  · split at h
    · cases h
    · split at h
      · cases h
      · rename_i user hget
        split at h
        · cases h
          refine ⟨?_, rfl⟩
          unfold AuthDb.getUserByEmail at hget
          split at hget
          · rename_i hfind
            cases hget
            exact List.mem_of_find?_eq_some hfind
          · cases hget
        · cases h

theorem inv_login {s : State σ} {x : Session σ} (h : Inv s) (huser : x.user ∈ s.db.users)
    (htoken : x.token = generateToken σ x.time x.user) :
    Inv { s with sessions := x :: s.sessions } := by
  refine ⟨h.ids, fun y hy => ?_, fun y hy v hv hid => ?_⟩
  · rcases List.mem_cons.mp hy with rfl | hy
    · exact htoken
    · exact h.tokens y hy
  · rcases List.mem_cons.mp hy with rfl | hy
    · exact List.inj_on_of_nodup_map h.ids hv huser hid
    · exact h.same y hy v hv hid

theorem inv_users {s : State σ} {env : Env} {db : AuthDb} (h : Inv s)
    (hfresh : ∀ x ∈ s.sessions, x.user.id ≠ env.uuid) (husers : UsersFrom env s.db db) :
    Inv { s with db } := by
  refine ⟨husers.nodup h.ids, h.tokens, fun x hx v hv hid => ?_⟩
  rcases husers.mem v hv with hold | hnew
  · exact h.same x hx v hold hid
  · exact absurd (hid.symm.trans hnew) (hfresh x hx)

theorem inv_step {s t : State σ} {a : Label σ} (h : Inv s) (hfresh : Fresh s a)
    (hstep : step compareHashAndPassword s a = some t) : Inv t := by
  cases a with
  | login env body =>
    simp only [step] at hstep
    split at hstep
    · cases hstep
      exact h
    · rename_i x hlogin
      cases hstep
      obtain ⟨huser, htoken⟩ := login_ok hlogin
      exact inv_login h huser htoken
  | protectedRequest env header request =>
    simp only [step] at hstep
    split at hstep
    · cases hstep
      exact h
    · cases hstep
      exact inv_users h hfresh (usersFrom_handle env _ request)

theorem honoured_step {s t : State σ} {a : Label σ} (h : Inv s)
    (hstep : step compareHashAndPassword s a = some t) : Honoured s a t := by
  refine ⟨fun y hy => ?_, ?_⟩
  · cases a with
    | login env body =>
      simp only [step] at hstep
      split at hstep
      · cases hstep
        exact Or.inl hy
      · rename_i x hlogin
        cases hstep
        rcases List.mem_cons.mp hy with rfl | hy
        · exact Or.inr (login_ok hlogin)
        · exact Or.inl hy
    | protectedRequest env header request =>
      simp only [step] at hstep
      split at hstep <;> cases hstep <;> exact Or.inl hy
  · rintro env x request - hx claims
    refine ⟨?_, fun v hv hid => congrArg User.role (h.same x hx v hv hid)⟩
    rw [h.tokens x hx, jwtMiddleware_session]
    split_ifs with hlt
    · simp [hlt, eq_comm]
    · simp [hlt]

/-- Whoever logs in and whatever is requested then, deletions of users included: a token
is honoured for a day, to the second, with the role its user had when it was made. -/
theorem sessions_honoured (db : AuthDb) (hids : (db.users.map User.id).Nodup)
    (as : List (Label σ)) (hfresh : Runs.Meets (step compareHashAndPassword) Fresh { db } as) :
    Runs.Along (step compareHashAndPassword) Honoured { db } as := by
  refine Runs.along_of_meets (I := Inv) (fun s a t h hok hstep => ?_) ⟨hids, nofun, nofun⟩ hfresh
  exact ⟨inv_step h hok hstep, honoured_step h hstep⟩

end

/-! ## A user who was removed -/

def theOwner : User := ⟨"1", "Owner", "owner@x", "h", RoleOwner, 0⟩

def anAdmin : User := ⟨"2", "Admin", "admin@x", "h", RoleAdmin, 0⟩

def someEnv : Env := Env.ofUuid "3" rfl

/-- Both log in, the owner deletes the admin, and the admin lists the users. -/
def removal : List (Label someSigning) :=
  [.login someEnv (some ⟨"owner@x", "p"⟩), .login someEnv (some ⟨"admin@x", "p"⟩),
    .protectedRequest someEnv (some (generateToken someSigning 0 theOwner)) (.deleteUser "2"),
    .protectedRequest someEnv (some (generateToken someSigning 0 anAdmin)) .listUsers]

theorem removal_honoured :
    Runs.Along (step fun _ _ => true) Honoured { db := { users := [theOwner, anAdmin] } } removal := by
  refine sessions_honoured _ (by decide) removal ?_
  intro s hs
  refine ⟨trivial, fun s' hs' => ⟨trivial, fun t ht => ?_⟩⟩
  cases hs
  cases hs'
  have hfresh : ∀ x ∈ [Session.mk (σ := someSigning) 0 anAdmin (generateToken someSigning 0 anAdmin),
      ⟨0, theOwner, generateToken someSigning 0 theOwner⟩], x.user.id ≠ someEnv.uuid := by
    simp [anAdmin, theOwner, someEnv, Env.ofUuid]
  refine ⟨hfresh, fun u hu => ?_⟩
  cases ht
  exact ⟨hfresh, trivial⟩

/-- The property without the deletion in mind: the user exists, with the role of the claims. -/
theorem removed_user_is_served :
    ¬ Runs.Along (step fun _ _ => true)
      (fun s a _ => ∀ env x request,
        a = .protectedRequest env (some x.token) request → x ∈ s.sessions →
        ∀ claims, jwtMiddleware someSigning env.now (some x.token) = .ok claims →
          ∃ v ∈ s.db.users, v.id = x.user.id ∧ v.role = claims.role)
      { db := { users := [theOwner, anAdmin] } } removal := by
  intro h
  obtain ⟨-, h⟩ := h _ rfl
  obtain ⟨-, h⟩ := h _ rfl
  obtain ⟨-, h⟩ := h _ rfl
  obtain ⟨h, -⟩ := h _ rfl
  obtain ⟨v, hv, hid, -⟩ := h someEnv ⟨0, anAdmin, generateToken someSigning 0 anAdmin⟩ .listUsers
    rfl (List.mem_cons_self ..) _ rfl
  obtain rfl := List.mem_singleton.mp hv
  exact absurd hid (by decide)

end BatAudit.Auth.Sessions
