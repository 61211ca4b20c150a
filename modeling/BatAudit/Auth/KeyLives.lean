import BatAudit.Auth.Schema
import BatAudit.Auth.Service
import BatAudit.Lib.SoftDelete

/-!
# The life of an API key

The Reader inserts keys and revokes them, the Writer links them to projects, and both do
much else in between, in any order of repository calls. Which keys `APIKeyMiddleware` lets
through is read off the history of the insertions and revocations alone.
-/

namespace BatAudit.Auth.KeyLives

open SoftDelete (Live Event Reflects)

/-- The id and the hash of a key are never written again. -/
def columns : SoftDelete.Columns APIKey (String × String) where
  tag k := (k.id, k.keyHash)
  active := APIKey.active
  deactivate k := { k with active := false }
  tag_deactivate _ := rfl
  active_deactivate _ := rfl

structure Logged where
  db : AuthDb := {}
  history : List (Event (String × String)) := []

/-- One repository call. A key is inserted by `CreateAPIKey` only. -/
inductive Label
  | createAPIKey (env : Env) (projectID name : String)
  | revokeAPIKey (id : String)
  | statement (s : Statement)

/-- A statement that neither inserts nor revokes a key. -/
def Statement.spares : Statement → Bool
  | .createAPIKey _ | .revokeAPIKey _ => false
  | _ => true

def step (l : Logged) : Label → Option Logged
  | .createAPIKey env projectID name =>
    (Service.createAPIKey env l.db projectID name).toOption.map fun created =>
      { db := created.2,
        history := .issued (env.uuid, env.sha256 (Service.rawKey env)) :: l.history }
  | .revokeAPIKey id =>
    some { db := l.db.revokeAPIKey id, history := .retired (fun t => t.1 = id) :: l.history }
  | .statement s =>
    if Statement.spares s then (exec l.db s).map fun db => { l with db } else none

structure Inv (l : Logged) : Prop where
  reflects : Reflects columns l.history l.db.apiKeys
  endless : ∀ k ∈ l.db.apiKeys, k.expiresAt = none

theorem inv_empty : Inv {} := ⟨SoftDelete.reflects_nil, fun _ hk => absurd hk List.not_mem_nil⟩

/-- The row is stored as it is, apart from a name that ends in spaces. -/
theorem createAPIKey_eq_ok {env : Env} {db : AuthDb} {projectID name : String}
    {created : String × AuthDb} (h : Service.createAPIKey env db projectID name = .ok created) :
    ∃ stored, created.2.apiKeys =
      db.apiKeys ++ [{ Service.newAPIKey env projectID name with name := stored }] := by
  unfold Service.createAPIKey at h
  obtain ⟨db', hdb, h⟩ := bind_eq_ok.mp h
  cases h
  unfold Service.liftRepo at hdb
  split at hdb
  · rename_i hinsert
    cases hdb
    obtain ⟨id, hid, hinsert⟩ := bind_eq_ok.mp hinsert
    obtain ⟨keyHash, hhash, hinsert⟩ := bind_eq_ok.mp hinsert
    obtain ⟨stored, -, hinsert⟩ := bind_eq_ok.mp hinsert
    have hid' := (column_eq_ok hid).symm.trans env.uuid_stored
    have hhash' := (column_eq_ok hhash).symm.trans (env.sha256_stored _)
    cases hid'
    cases hhash'
    repeat' split at hinsert
    all_goals cases hinsert
    exact ⟨stored, rfl⟩
  · cases hdb

/-- What the other statements leave of the keys: all but their projects. -/
theorem exec_apiKeys {db db' : AuthDb} {s : Statement} (hs : Statement.spares s = true)
    (hexec : exec db s = some db') :
    ∃ f : APIKey → APIKey, db'.apiKeys = db.apiKeys.map f ∧
      ∀ k, ∃ project, f k = { k with projectId := project } := by
  have hsame (h : db'.apiKeys = db.apiKeys) : ∃ f : APIKey → APIKey,
      db'.apiKeys = db.apiKeys.map f ∧ ∀ k, ∃ project, f k = { k with projectId := project } :=
    ⟨id, by rw [h, List.map_id], fun k => ⟨k.projectId, rfl⟩⟩
  cases s with
  | createAPIKey k => cases hs
  | revokeAPIKey id => cases hs
  | createUser u => exact hsame (createUser_untouched (eq_ok_of_toOption hexec)).2
  | deleteUser id => exact hsame (deleteUser_untouched (eq_ok_of_toOption hexec)).2
  | createInvite i => exact hsame (createInvite_untouched (eq_ok_of_toOption hexec)).2
  | createProject p =>
    obtain ⟨id, name, slug, -, -, -, rfl⟩ := createProject_eq_ok (eq_ok_of_toOption hexec)
    exact hsame rfl
  | createProjectMember m =>
    exact hsame (createProjectMember_untouched (eq_ok_of_toOption hexec)).2
  | updateProjectMemberRole userId projectId role =>
    exact hsame (updateProjectMemberRole_untouched (eq_ok_of_toOption hexec)).2
  | updateAPIKeyProject keyId projectId =>
    obtain ⟨project, -, h⟩ := bind_eq_ok.mp (eq_ok_of_toOption hexec)
    split at h <;> cases h
    refine ⟨_, rfl, fun k => ?_⟩
    split_ifs
    · exact ⟨_, rfl⟩
    · exact ⟨k.projectId, rfl⟩
  | deleteInvite | markInviteUsed | deleteProjectMember =>
    cases hexec
    exact hsame rfl

theorem inv_step {l l' : Logged} {a : Label} (h : Inv l) (hstep : step l a = some l') :
    Inv l' := by
  cases a with
  | createAPIKey env projectID name =>
    obtain ⟨created, hcreated, rfl⟩ := Option.map_eq_some_iff.mp hstep
    obtain ⟨stored, hkeys⟩ := createAPIKey_eq_ok (eq_ok_of_toOption hcreated)
    refine ⟨?_, fun k hk => ?_⟩
    · dsimp only
      rw [hkeys]
      exact h.reflects.insert (r := { Service.newAPIKey env projectID name with name := stored }) rfl
    · dsimp only at hk
      rw [hkeys] at hk
      rcases List.mem_append.mp hk with hk | hk
      · exact h.endless k hk
      · rw [List.mem_singleton.mp hk]
        rfl
  | revokeAPIKey id =>
    cases hstep
    refine ⟨?_, fun k hk => ?_⟩
    · have hretired := h.reflects.deactivate fun t => decide (t.1 = id)
      simp only [decide_eq_true_eq] at hretired
      exact hretired
    · obtain ⟨old, hold, rfl⟩ := List.mem_map.mp hk
      split_ifs
      · exact h.endless old hold
      · exact h.endless old hold
  | statement s =>
    simp only [step] at hstep
    split_ifs at hstep with hs
    obtain ⟨db, hexec, rfl⟩ := Option.map_eq_some_iff.mp hstep
    obtain ⟨f, hf, hproject⟩ := exec_apiKeys hs hexec
    refine ⟨?_, fun k hk => ?_⟩
    · dsimp only
      rw [hf]
      refine h.reflects.edit (fun k => ?_) fun k => ?_
      · obtain ⟨project, heq⟩ := hproject k
        rw [heq]
        rfl
      · obtain ⟨project, heq⟩ := hproject k
        rw [heq]
        rfl
    · dsimp only at hk
      rw [hf] at hk
      obtain ⟨old, hold, rfl⟩ := List.mem_map.mp hk
      obtain ⟨project, heq⟩ := hproject old
      rw [heq]
      exact h.endless old hold

theorem inv_run {as : List Label} {l : Logged} (hrun : Runs.run step {} as = some l) : Inv l :=
  Runs.run_invariant (fun _ _ _ h hstep => inv_step h hstep) inv_empty hrun

/-- Which rows the middleware finds, when no key has an expiry. -/
theorem getAPIKeyByHash_eq_ok {db : AuthDb} (h : ∀ k ∈ db.apiKeys, k.expiresAt = none)
    {hash : String} {now : ℤ} {key : APIKey} (hget : db.getAPIKeyByHash hash now = .ok key) :
    key ∈ db.apiKeys ∧ key.keyHash = hash ∧ key.active = true := by
  unfold AuthDb.getAPIKeyByHash at hget
  split at hget
  · rename_i k hfind
    have hmem := List.mem_of_find?_eq_some hfind
    rw [h k hmem, Option.any_none, if_neg Bool.false_ne_true] at hget
    cases hget
    have hsome := List.find?_some hfind
    rw [Bool.and_eq_true, decide_eq_true_eq] at hsome
    exact ⟨hmem, hsome⟩
  · cases hget

theorem getAPIKeyByHash_isOk {db : AuthDb} (h : ∀ k ∈ db.apiKeys, k.expiresAt = none)
    {hash : String} (now : ℤ) {k : APIKey} (hk : k ∈ db.apiKeys) (hhash : k.keyHash = hash)
    (hactive : k.active = true) : ∃ key, db.getAPIKeyByHash hash now = .ok key := by
  unfold AuthDb.getAPIKeyByHash
  cases hfind : db.apiKeys.find? fun k => k.keyHash = hash && k.active with
  | none =>
    have hno := List.find?_eq_none.mp hfind k hk
    simp [hhash, hactive] at hno
  | some key =>
    refine ⟨key, ?_⟩
    simp [h key (List.mem_of_find?_eq_some hfind)]

/-- A request is let through exactly when its header has the hash of a key that was inserted
and not revoked since, and what it is let through as is such a key. -/
theorem accepted_iff {as : List Label} {l : Logged} (hrun : Runs.run step {} as = some l)
    (env : Env) (header : String) :
    ((∃ key, Service.apiKeyMiddleware env l.db header = .ok key) ↔
      header ≠ "" ∧ ∃ id, Live (id, env.sha256 header) l.history) ∧
    ∀ key, Service.apiKeyMiddleware env l.db header = .ok key →
      Live (key.id, env.sha256 header) l.history := by
  have hinv := inv_run hrun
  have hfound {key : APIKey} (hok : Service.apiKeyMiddleware env l.db header = .ok key) :
      header ≠ "" ∧ Live (key.id, env.sha256 header) l.history := by
    unfold Service.apiKeyMiddleware Service.validateAPIKey at hok
    split_ifs at hok with hempty
    refine ⟨hempty, ?_⟩
    split at hok
    · rename_i hget
      cases hok
      obtain ⟨hmem, hhash, hactive⟩ := getAPIKeyByHash_eq_ok hinv.endless hget
      rw [← hhash]
      exact (hinv.reflects.active _).mp ⟨key, hmem, rfl, hactive⟩
    · cases hok
  refine ⟨⟨?_, ?_⟩, fun key hok => (hfound hok).2⟩
  · rintro ⟨key, hok⟩
    exact ⟨(hfound hok).1, key.id, (hfound hok).2⟩
  · rintro ⟨hheader, id, hlive⟩
    obtain ⟨k, hk, htag, hactive⟩ := (hinv.reflects.active _).mpr hlive
    obtain ⟨key, hget⟩ := getAPIKeyByHash_isOk hinv.endless env.now hk (congrArg Prod.snd htag) hactive
    refine ⟨key, ?_⟩
    rw [Service.apiKeyMiddleware, if_neg hheader, Service.validateAPIKey, hget]

def keyEnv : Env := .ofUuid "k" (by decide)

/-- A project of the Writer, and a key for it. -/
def issuance : List Label :=
  [.statement (.createProject ⟨"p", "P", "p", none, 0⟩), .createAPIKey keyEnv "p" "K"]

theorem revoked_key_accepted_nowhere :
    (∃ l, Runs.run step {} issuance = some l ∧
      ∃ key, Service.apiKeyMiddleware keyEnv l.db "bat_" = .ok key) ∧
    ∃ l, Runs.run step {} (issuance ++ [.revokeAPIKey "k"]) = some l ∧
      ¬ ∃ key, Service.apiKeyMiddleware keyEnv l.db "bat_" = .ok key := by
  have hissued : Runs.run step {} issuance = some _ := rfl
  have hrevoked : Runs.run step {} (issuance ++ [.revokeAPIKey "k"]) = some _ := rfl
  refine ⟨⟨_, hissued, ?_⟩, _, hrevoked, fun h => ?_⟩
  · exact (accepted_iff hissued keyEnv "bat_").1.mpr ⟨by decide, "k", by decide⟩
  · obtain ⟨-, id, hne, hid | hno⟩ := (accepted_iff hrevoked keyEnv "bat_").1.mp h
    · cases hid
      exact absurd hne (by decide)
    · exact hno.elim

end BatAudit.Auth.KeyLives
