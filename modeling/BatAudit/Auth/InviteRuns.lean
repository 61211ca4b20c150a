import Mathlib.Data.List.Nodup
import BatAudit.Lib.Runs
import BatAudit.Auth.Schema
import BatAudit.Auth.Service

/-!
# Accepting invites concurrently

`AcceptInvite` is three repository calls: it looks the invite up, creates the user
and marks the invite used, ignoring an error of the last. Here any number of such
calls interleave with each other and with revocations, deletions and creations of
users, one repository call a step, and each call may fail. The invites may be taken
to exist from the start, since nothing reads one before it is looked up.
-/

namespace BatAudit.Auth.InviteRuns

/-- `looked` are the invite rows read by calls that have yet to create their user,
`toMark` the tokens of those that have yet to mark the invite, and `created` the
tokens and user ids of all accounts created so far. -/
structure State where
  db : AuthDb
  looked : List Invite := []
  toMark : List String := []
  created : List (String × String) := []

inductive Label
  | lookup (token : String) (now : ℤ)
  | createUser (invite : Invite) (env : Env) (name password : String)
  | createUserFails (invite : Invite)
  | markUsed (token : String) (now : ℤ)
  | markUsedFails (token : String)
  | revokeInvite (id : String)
  | deleteUser (id : String)
  | addUser (user : User)

/-- What `AcceptInvite` asks of the row it read. -/
def acceptable (invite : Invite) (now : ℤ) : Bool :=
  invite.usedAt.isNone && now ≤ invite.expiresAt

def step (s : State) : Label → Option State
  | .lookup token now =>
    match s.db.getInviteByToken token with
    | .ok invite =>
      if acceptable invite now then some { s with looked := invite :: s.looked } else none
    | .error _ => none
  | .createUser invite env name password =>
    if invite ∈ s.looked then
      match Service.createMember env s.db name invite.email password invite.role with
      | .ok (user, db) =>
        some { db, looked := s.looked.erase invite, toMark := invite.token :: s.toMark,
               created := (invite.token, user.id) :: s.created }
      | .error _ => some { s with looked := s.looked.erase invite }
    else none
  | .createUserFails invite =>
    if invite ∈ s.looked then some { s with looked := s.looked.erase invite } else none
  | .markUsed token now =>
    if token ∈ s.toMark then
      some { s with db := s.db.markInviteUsed token now, toMark := s.toMark.erase token }
    else none
  | .markUsedFails token =>
    if token ∈ s.toMark then some { s with toMark := s.toMark.erase token } else none
  | .revokeInvite id => some { s with db := s.db.deleteInvite id }
  | .deleteUser id =>
    match s.db.deleteUser id with
    | .ok db => some { s with db }
    | .error _ => some s
  | .addUser user =>
    match s.db.createUser user with
    | .ok db => some { s with db }
    | .error _ => some s

/-- The call of `AcceptInvite` on its own: its three steps in a row. -/
theorem run_eq_acceptInvite {env : Env} {db db' : AuthDb} {token name password : String}
    {user : User} (h : Service.acceptInvite env db token name password = .ok (user, db')) :
    ∃ invite, Runs.run step { db }
        [.lookup token env.now, .createUser invite env name password, .markUsed token env.now] =
      some { db := db', created := [(token, user.id)] } := by
  unfold Service.acceptInvite at h
  cases hget : db.getInviteByToken token with
  | error e =>
    rw [hget] at h
    cases h
  | ok invite =>
    have htoken : invite.token = token := by
      unfold AuthDb.getInviteByToken at hget
      split at hget
      · rename_i row hfind
        cases hget
        simpa using List.find?_some hfind
      · cases hget
    simp only [hget, bind, Except.bind, pure, Except.pure, throw, throwThe,
      MonadExceptOf.throw] at h
    by_cases hused : invite.usedAt.isSome = true
    · simp [hused] at h
    · by_cases hexp : invite.expiresAt < env.now
      · simp [hused, hexp] at h
      · cases hmem : Service.createMember env db name invite.email password invite.role with
        | error e => simp [hused, hexp, hmem] at h
        | ok r =>
          simp only [hused, hexp, hmem, Bool.false_eq_true, if_false, Except.ok.injEq,
            Prod.mk.injEq] at h
          obtain ⟨rfl, rfl⟩ := h
          have hacc : acceptable invite env.now = true := by
            simp only [acceptable, Bool.and_eq_true, decide_eq_true_eq]
            exact ⟨by simpa using hused, by omega⟩
          refine ⟨invite, ?_⟩
          simp [Runs.run, step, hget, hacc, hmem, htoken]

/-! ## The property and its condition -/

/-- No two accounts were ever created from one token. -/
def OneAccountEach (s : State) : Prop := (s.created.map Prod.fst).Nodup

/-- An account is created only while its invite is in the table and unused. -/
def FromLiveInvite (s : State) (a : Label) (t : State) : Prop :=
  match a with
  | .createUser invite _ _ _ => t.created ≠ s.created →
      ∃ row ∈ s.db.invites, row.token = invite.token ∧ row.usedAt = none
  | _ => True

/-- No call can create another account from the token. -/
def Spent (s : State) (token : String) : Prop :=
  (∀ invite ∈ s.looked, invite.token ≠ token) ∧
    ∀ row ∈ s.db.invites, row.token = token → row.usedAt.isSome

/-- No invite is revoked while a call that read it has yet to create its user, and no
account made from an invite is deleted while there is such a call or the invite can
still be read as unused. -/
def Timely (s : State) : Label → Prop
  | .revokeInvite id => ∀ invite ∈ s.looked, invite.id ≠ id
  | .deleteUser id => ∀ c ∈ s.created, c.2 = id → Spent s c.1
  | _ => True

instance (s t : State) : ∀ a, Decidable (FromLiveInvite s a t)
  | .createUser .. => inferInstanceAs (Decidable (_ → _))
  | .lookup .. | .createUserFails .. | .markUsed .. | .markUsedFails .. | .revokeInvite ..
  | .deleteUser .. | .addUser .. => inferInstanceAs (Decidable True)

instance (s : State) (token : String) : Decidable (Spent s token) :=
  inferInstanceAs (Decidable (_ ∧ _))

instance (s : State) : ∀ a, Decidable (Timely s a)
  | .revokeInvite id => inferInstanceAs (Decidable (∀ invite ∈ s.looked, invite.id ≠ id))
  | .deleteUser id => inferInstanceAs (Decidable (∀ c ∈ s.created, c.2 = id → Spent s c.1))
  | .lookup .. | .createUser .. | .createUserFails .. | .markUsed .. | .markUsedFails ..
  | .addUser .. => inferInstanceAs (Decidable True)

instance (s : State) : Decidable (OneAccountEach s) :=
  inferInstanceAs (Decidable (List.Nodup _))

/-- The account holds the e-mail address of its invite. -/
def Holds (s : State) (token id : String) : Prop :=
  ∃ u ∈ s.db.users, u.id = id ∧
    ∀ row ∈ s.db.invites, row.token = token → SqlText.varchar 128 row.email = some u.email

structure Inv (s : State) : Prop where
  tokens : (s.db.invites.map Invite.token).Nodup
  one : OneAccountEach s
  present : ∀ invite ∈ s.looked, ∃ row ∈ s.db.invites, row.id = invite.id ∧
    row.token = invite.token ∧ row.email = invite.email ∧
      (row.usedAt = none ∨ invite.token ∈ s.created.map Prod.fst)
  marking : ∀ token ∈ s.toMark, token ∈ s.created.map Prod.fst
  guarded : ∀ token id, (token, id) ∈ s.created → Holds s token id ∨ Spent s token

/-! ## The repository calls -/

theorem createUser_ok {db db' : AuthDb} {u : User} (h : db.createUser u = .ok db')
    (hid : SqlText.varchar 64 u.id = some u.id) :
    ∃ v, v.id = u.id ∧ SqlText.varchar 128 u.email = some v.email ∧
      (∀ x ∈ db.users, x.id ≠ v.id ∧ x.email ≠ v.email) ∧
      db' = { db with users := db.users ++ [v] } := by
  obtain ⟨id, hid', h⟩ := bind_eq_ok.mp h
  obtain ⟨name, -, h⟩ := bind_eq_ok.mp h
  obtain ⟨email, hemail, h⟩ := bind_eq_ok.mp h
  obtain ⟨passwordHash, -, h⟩ := bind_eq_ok.mp h
  obtain ⟨role, -, h⟩ := bind_eq_ok.mp h
  obtain rfl : u.id = id := Option.some.inj (hid.symm.trans (column_eq_ok hid'))
  split at h
  · cases h
  · rename_i hdup
    cases h
    refine ⟨{ u with name, email, passwordHash, role }, rfl, column_eq_ok hemail,
      fun x hx => ?_, rfl⟩
    rw [Bool.not_eq_true, List.any_eq_false] at hdup
    simpa using hdup x hx

theorem createUser_appends {db db' : AuthDb} {u : User} (h : db.createUser u = .ok db') :
    ∃ v, db' = { db with users := db.users ++ [v] } := by
  unfold AuthDb.createUser at h
  simp only [bind, Except.bind, pure, Except.pure, throw, throwThe, MonadExceptOf.throw] at h
  repeat' split at h
  all_goals first
    | cases h; exact ⟨_, rfl⟩
    | cases h

theorem createMember_ok {env : Env} {db db' : AuthDb} {name email password : String}
    {role : UserRole} {user : User}
    (h : Service.createMember env db name email password role = .ok (user, db')) :
    user.id = env.uuid ∧ ∃ v, v.id = user.id ∧ SqlText.varchar 128 email = some v.email ∧
      (∀ x ∈ db.users, x.id ≠ v.id ∧ x.email ≠ v.email) ∧
      db' = { db with users := db.users ++ [v] } := by
  unfold Service.createMember at h
  cases hhash : Service.hashPassword env password with
  | error e =>
    rw [hhash] at h
    cases h
  | ok hash =>
    simp only [hhash, bind, Except.bind, pure, Except.pure] at h
    cases hc : db.createUser ⟨env.uuid, name, email, hash, role, env.now⟩ with
    | error e => simp [hc, Service.liftRepo] at h
    | ok db₁ =>
      simp only [hc, Service.liftRepo, Except.ok.injEq, Prod.mk.injEq] at h
      obtain ⟨rfl, rfl⟩ := h
      exact ⟨rfl, createUser_ok hc env.uuid_stored⟩

theorem getInviteByToken_ok {db : AuthDb} {token : String} {invite : Invite}
    (h : db.getInviteByToken token = .ok invite) :
    invite ∈ db.invites ∧ invite.token = token := by
  unfold AuthDb.getInviteByToken at h
  split at h
  · rename_i row hfind
    cases h
    exact ⟨List.mem_of_find?_eq_some hfind, by simpa using List.find?_some hfind⟩
  · cases h

theorem deleteUser_ok {db db' : AuthDb} {id : String} (h : db.deleteUser id = .ok db') :
    db' = { db with users := db.users.filter fun u => u.id ≠ id } := by
  unfold AuthDb.deleteUser at h
  split at h
  · cases h
  · exact (Except.ok.inj h).symm

/-! ## What each step keeps -/

theorem eq_of_token {rows : List Invite} (h : (rows.map Invite.token).Nodup) {r r' : Invite}
    (hr : r ∈ rows) (hr' : r' ∈ rows) (ht : r.token = r'.token) : r = r' :=
  List.inj_on_of_nodup_map h hr hr' ht

section Steps

variable {s : State}

theorem inv_lookup {token : String} {now : ℤ} {invite : Invite} (h : Inv s)
    (hget : s.db.getInviteByToken token = .ok invite) (hacc : acceptable invite now = true) :
    Inv { s with looked := invite :: s.looked } := by
  obtain ⟨hmem, rfl⟩ := getInviteByToken_ok hget
  have hunused : invite.usedAt = none := by
    simp only [acceptable, Bool.and_eq_true, Option.isNone_iff_eq_none] at hacc
    exact hacc.1
  refine ⟨h.tokens, h.one, ?_, h.marking, ?_⟩
  · intro i hi
    rcases List.mem_cons.mp hi with rfl | hi
    · exact ⟨i, hmem, rfl, rfl, rfl, Or.inl hunused⟩
    · exact h.present i hi
  · intro t id hc
    rcases h.guarded t id hc with hheld | ⟨hnone, hall⟩
    · exact Or.inl hheld
    · -- an invite that can be read as unused is not spent
      refine Or.inr ⟨fun i hi he => ?_, hall⟩
      rcases List.mem_cons.mp hi with rfl | hi
      · simpa [hunused] using hall i hmem he
      · exact hnone i hi he

theorem inv_forget (h : Inv s) (invite : Invite) :
    Inv { s with looked := s.looked.erase invite } := by
  refine ⟨h.tokens, h.one, fun i hi => h.present i (List.mem_of_mem_erase hi), h.marking, ?_⟩
  intro t id hc
  rcases h.guarded t id hc with hheld | ⟨hnone, hall⟩
  · exact Or.inl hheld
  · exact Or.inr ⟨fun i hi => hnone i (List.mem_of_mem_erase hi), hall⟩

/-- The account made from a token holds the e-mail address of the invite as long as a
call that read the invite is pending, so that the call cannot create another. -/
theorem not_created_of_looked (h : Inv s) {invite : Invite} (hlooked : invite ∈ s.looked)
    {email : String} (hemail : SqlText.varchar 128 invite.email = some email)
    (hfree : ∀ u ∈ s.db.users, u.email ≠ email) :
    invite.token ∉ s.created.map Prod.fst := by
  intro hcreated
  obtain ⟨⟨t, id⟩, hc, rfl⟩ := List.mem_map.mp hcreated
  obtain ⟨row, hrow, -, htoken, hmail, -⟩ := h.present invite hlooked
  rcases h.guarded _ id hc with ⟨u, hu, -, hholds⟩ | ⟨hnone, -⟩
  · have hsame := hholds row hrow htoken
    rw [hmail, hemail] at hsame
    exact hfree u hu (Option.some.inj hsame).symm
  · exact hnone invite hlooked rfl

theorem inv_createUser {invite : Invite} {v : User} (h : Inv s) (hlooked : invite ∈ s.looked)
    (hemail : SqlText.varchar 128 invite.email = some v.email)
    (hfree : ∀ u ∈ s.db.users, u.email ≠ v.email) :
    Inv { db := { s.db with users := s.db.users ++ [v] }, looked := s.looked.erase invite,
          toMark := invite.token :: s.toMark, created := (invite.token, v.id) :: s.created } := by
  have hnew := not_created_of_looked h hlooked hemail hfree
  refine ⟨h.tokens, List.nodup_cons.mpr ⟨hnew, h.one⟩, ?_, ?_, ?_⟩
  · intro i hi
    obtain ⟨row, hrow, hid, ht, hm, hstate⟩ := h.present i (List.mem_of_mem_erase hi)
    exact ⟨row, hrow, hid, ht, hm, hstate.imp_right (List.mem_cons_of_mem _)⟩
  · intro t ht
    rcases List.mem_cons.mp ht with rfl | ht
    · exact List.mem_cons_self
    · exact List.mem_cons_of_mem _ (h.marking t ht)
  · intro t id hc
    rcases List.mem_cons.mp hc with he | hc
    · cases he
      refine Or.inl ⟨v, List.mem_append_right _ List.mem_cons_self, rfl, ?_⟩
      intro row hrow ht
      obtain ⟨row', hrow', -, ht', hm, -⟩ := h.present invite hlooked
      rw [eq_of_token h.tokens hrow hrow' (ht.trans ht'.symm), hm]
      exact hemail
    · rcases h.guarded t id hc with ⟨u, hu, hid, hholds⟩ | ⟨hnone, hall⟩
      · exact Or.inl ⟨u, List.mem_append_left _ hu, hid, hholds⟩
      · exact Or.inr ⟨fun i hi => hnone i (List.mem_of_mem_erase hi), hall⟩

theorem inv_markUsed {token : String} {now : ℤ} (h : Inv s) (hmark : token ∈ s.toMark) :
    Inv { s with db := s.db.markInviteUsed token now, toMark := s.toMark.erase token } := by
  have hrows : ∀ row ∈ (s.db.markInviteUsed token now).invites, ∃ old ∈ s.db.invites,
      row = if old.token = token then { old with usedAt := some now } else old := by
    intro row hrow
    obtain ⟨old, hold, rfl⟩ := List.mem_map.mp hrow
    exact ⟨old, hold, rfl⟩
  have htokens : (s.db.markInviteUsed token now).invites.map Invite.token =
      s.db.invites.map Invite.token := by
    simp only [AuthDb.markInviteUsed, List.map_map]
    refine List.map_congr_left fun row _ => ?_
    simp only [Function.comp_apply]
    split <;> rfl
  refine ⟨htokens ▸ h.tokens, h.one, ?_, fun t ht => h.marking t (List.mem_of_mem_erase ht), ?_⟩
  · intro i hi
    obtain ⟨row, hrow, hid, ht, hm, hstate⟩ := h.present i hi
    refine ⟨_, List.mem_map_of_mem hrow, ?_⟩
    by_cases he : row.token = token
    · rw [if_pos he]
      exact ⟨hid, ht, hm, Or.inr (ht ▸ he ▸ h.marking token hmark)⟩
    · rw [if_neg he]
      exact ⟨hid, ht, hm, hstate⟩
  · intro t id hc
    rcases h.guarded t id hc with ⟨u, hu, hid, hholds⟩ | ⟨hnone, hall⟩
    · refine Or.inl ⟨u, hu, hid, fun row hrow ht => ?_⟩
      obtain ⟨old, hold, rfl⟩ := hrows row hrow
      split at ht <;> rename_i he
      · rw [if_pos he]
        exact hholds old hold ht
      · rw [if_neg he]
        exact hholds old hold ht
    · refine Or.inr ⟨hnone, fun row hrow ht => ?_⟩
      obtain ⟨old, hold, rfl⟩ := hrows row hrow
      split at ht <;> rename_i he
      · rw [if_pos he]
        rfl
      · rw [if_neg he]
        exact hall old hold ht

theorem inv_markUsedFails {token : String} (h : Inv s) :
    Inv { s with toMark := s.toMark.erase token } :=
  ⟨h.tokens, h.one, h.present, fun t ht => h.marking t (List.mem_of_mem_erase ht), h.guarded⟩

theorem inv_revokeInvite {id : String} (h : Inv s) (hok : ∀ invite ∈ s.looked, invite.id ≠ id) :
    Inv { s with db := s.db.deleteInvite id } := by
  have hsub : (s.db.deleteInvite id).invites.Sublist s.db.invites := List.filter_sublist
  refine ⟨h.tokens.sublist (hsub.map _), h.one, ?_, h.marking, ?_⟩
  · intro i hi
    obtain ⟨row, hrow, hid, hstate⟩ := h.present i hi
    exact ⟨row, List.mem_filter.mpr ⟨hrow, by simpa [hid] using hok i hi⟩, hid, hstate⟩
  · intro t uid hc
    rcases h.guarded t uid hc with ⟨u, hu, huid, hholds⟩ | ⟨hnone, hall⟩
    · exact Or.inl ⟨u, hu, huid, fun row hrow => hholds row (hsub.subset hrow)⟩
    · exact Or.inr ⟨hnone, fun row hrow => hall row (hsub.subset hrow)⟩

theorem inv_deleteUser {id : String} (h : Inv s)
    (hok : ∀ c ∈ s.created, c.2 = id → Spent s c.1) :
    Inv { s with db := { s.db with users := s.db.users.filter fun u => u.id ≠ id } } := by
  refine ⟨h.tokens, h.one, h.present, h.marking, ?_⟩
  intro t uid hc
  by_cases he : uid = id
  · subst he
    exact Or.inr (hok _ hc rfl)
  · rcases h.guarded t uid hc with ⟨u, hu, huid, hholds⟩ | hspent
    · refine Or.inl ⟨u, List.mem_filter.mpr ⟨hu, ?_⟩, huid, hholds⟩
      simpa [huid] using he
    · exact Or.inr hspent

theorem inv_addUser (h : Inv s) (v : User) :
    Inv { s with db := { s.db with users := s.db.users ++ [v] } } := by
  refine ⟨h.tokens, h.one, h.present, h.marking, ?_⟩
  intro t uid hc
  rcases h.guarded t uid hc with ⟨u, hu, huid, hholds⟩ | hspent
  · exact Or.inl ⟨u, List.mem_append_left _ hu, huid, hholds⟩
  · exact Or.inr hspent

end Steps

theorem step_inv {s t : State} {a : Label} (h : Inv s) (hok : Timely s a)
    (hstep : step s a = some t) : Inv t ∧ FromLiveInvite s a t := by
  cases a with
  | lookup token now =>
    refine ⟨?_, trivial⟩
    simp only [step] at hstep
    split at hstep
    · rename_i invite hget
      split at hstep
      · rename_i hacc
        cases hstep
        exact inv_lookup h hget hacc
      · cases hstep
    · cases hstep
  | createUser invite env name password =>
    simp only [step] at hstep
    split at hstep
    · rename_i hlooked
      split at hstep
      · rename_i user db hmember
        cases hstep
        obtain ⟨-, v, hid, hemail, hfree, rfl⟩ := createMember_ok hmember
        replace hfree := fun x hx => (hfree x hx).2
        refine ⟨hid ▸ inv_createUser h hlooked hemail hfree, ?_⟩
        intro _
        obtain ⟨row, hrow, -, htoken, -, hstate⟩ := h.present invite hlooked
        rcases hstate with hunused | hcreated
        · exact ⟨row, hrow, htoken, hunused⟩
        · exact absurd hcreated (not_created_of_looked h hlooked hemail hfree)
      · cases hstep
        exact ⟨inv_forget h invite, fun hne => absurd rfl hne⟩
    · cases hstep
  | createUserFails invite =>
    refine ⟨?_, trivial⟩
    simp only [step] at hstep
    split at hstep
    · cases hstep
      exact inv_forget h invite
    · cases hstep
  | markUsed token now =>
    refine ⟨?_, trivial⟩
    simp only [step] at hstep
    split at hstep
    · rename_i hmark
      cases hstep
      exact inv_markUsed h hmark
    · cases hstep
  | markUsedFails token =>
    refine ⟨?_, trivial⟩
    simp only [step] at hstep
    split at hstep
    · cases hstep
      exact inv_markUsedFails h
    · cases hstep
  | revokeInvite id =>
    refine ⟨?_, trivial⟩
    cases hstep
    exact inv_revokeInvite h hok
  | deleteUser id =>
    refine ⟨?_, trivial⟩
    simp only [step] at hstep
    split at hstep
    · rename_i db hdel
      cases hstep
      rw [deleteUser_ok hdel]
      exact inv_deleteUser h hok
    · cases hstep
      exact h
  | addUser user =>
    refine ⟨?_, trivial⟩
    simp only [step] at hstep
    split at hstep
    · rename_i db hcreate
      cases hstep
      obtain ⟨v, rfl⟩ := createUser_appends hcreate
      exact inv_addUser h v
    · cases hstep
      exact h

/-- In a timely run an invite creates at most one account, and only while it is in
the table and unused. -/
theorem one_account_of_timely {db : AuthDb} {as : List Label}
    (htokens : (db.invites.map Invite.token).Nodup) (hm : Runs.Meets step Timely { db } as) :
    Runs.Along step (fun s a t => FromLiveInvite s a t ∧ OneAccountEach t) { db } as := by
  refine Runs.along_of_meets (I := Inv) (fun s a t h hok hstep => ?_) ?_ hm
  · obtain ⟨hinv, hlive⟩ := step_inv h hok hstep
    exact ⟨hinv, hlive, hinv.one⟩
  · exact ⟨htokens, List.nodup_nil, fun _ hi => absurd hi List.not_mem_nil,
      fun _ ht => absurd ht List.not_mem_nil, fun _ _ hc => absurd hc List.not_mem_nil⟩

/-! Two people open the same invite link. -/

def invitation : Invite := ⟨"i", "t", "a@x", RoleViewer, "o", 10, none, 0⟩

def invited : AuthDb := { invites := [invitation] }

def person (uuid : String) (h : SqlText.varchar 64 uuid = some uuid) : Env where
  now := 5
  uuid := uuid
  random := ""
  bcrypt := fun _ => some "hash"
  sha256 := fun _ => "hash"
  isEmail := fun _ => true
  uuid_stored := h
  sha256_stored := fun _ => hash_stored
  bcrypt_stored := fun _ _ h => some_hash_stored h

theorem second_acceptance_refused :
    Runs.Along step (fun s a t => FromLiveInvite s a t ∧ OneAccountEach t) { db := invited }
      [.lookup "t" 5, .lookup "t" 5, .createUser invitation (person "u" (by decide)) "A" "secret",
        .createUser invitation (person "v" (by decide)) "B" "secret", .markUsed "t" 5,
        .deleteUser "u"] :=
  one_account_of_timely (by decide) (by decide +kernel)

/-- The account made by the first is deleted before the second creates theirs. -/
theorem invite_used_twice :
    ¬ Runs.Along step (fun s a t => FromLiveInvite s a t ∧ OneAccountEach t) { db := invited }
      [.lookup "t" 5, .lookup "t" 5, .createUser invitation (person "u" (by decide)) "A" "secret",
        .markUsed "t" 5, .deleteUser "u",
        .createUser invitation (person "v" (by decide)) "B" "secret"] := by
  decide +kernel

end BatAudit.Auth.InviteRuns
