import BatAudit.Wallboard.Access

/-!
# The life of a refresh token

A row of `wallboard_tokens` has the hash of the refresh token that was drawn last, by
`GenerateToken` or by `Activate`, and expires thirty days after its last use. What a screen
may refresh with is read off the history of the requests that succeeded. `GenerateCode`
throws the token it drew away, but the hash of it is stored like any other.
-/

namespace BatAudit.Wallboard

/-! ## Histories -/

/-- A request that succeeded, with the row it was about. -/
inductive Event
  | generated (time : ℤ) (id random : String)
  | activated (time : ℤ) (id random : String)
  | refreshed (time : ℤ) (id : String)
  | revoked (id : String)
deriving DecidableEq, Repr

namespace Event

def row : Event → String
  | .generated _ id _ | .activated _ id _ | .refreshed _ id | .revoked id => id

def time : Event → Option ℤ
  | .generated time _ _ | .activated time _ _ | .refreshed time _ => some time
  | .revoked _ => none

/-- The refresh token in a response. -/
def returned : Event → Option String
  | .activated _ _ random => some random
  | .generated _ _ _ | .refreshed _ _ | .revoked _ => none

/-- The refresh token whose hash was stored. -/
def drawn : Event → Option String
  | .generated _ _ random | .activated _ _ random => some random
  | .refreshed _ _ | .revoked _ => none

end Event

/-- What happened to a row since it was created, the last first: nothing once it is revoked. -/
def life (id : String) (history : List Event) : List Event :=
  (history.filter fun e => e.row = id).takeWhile fun e => e.time.isSome

def lastUse (id : String) (history : List Event) : Option ℤ :=
  (life id history).head?.bind Event.time

theorem life_cons_of_ne {id : String} {e : Event} (h : e.row ≠ id) (history : List Event) :
    life id (e :: history) = life id history := by
  rw [life, List.filter_cons_of_neg (by simpa using h), life]

theorem life_cons {id : String} {e : Event} (hrow : e.row = id) (htime : e.time.isSome = true)
    (history : List Event) : life id (e :: history) = e :: life id history := by
  rw [life, List.filter_cons_of_pos (by simpa using hrow), List.takeWhile_cons, if_pos htime, life]

theorem life_revoked (id : String) (history : List Event) :
    life id (.revoked id :: history) = [] := by
  rw [life, List.filter_cons_of_pos (by simp [Event.row]), List.takeWhile_cons]
  rfl

/-! ## Runs with their history -/

section

variable {σ : Auth.Signing} (sha256 : String → String)

/-- The row a Refresh finds. The request succeeds when there is one. -/
def refreshedRow (s : State σ) (now : ℤ) (refreshToken : String) : Option WallboardToken :=
  if refreshToken = "" then none else getByRefreshHash s now (sha256 refreshToken)

def event (s : State σ) : Label σ → Option Event
  | .generateCode now id code random _ _ =>
    if s.tokens.any fun t => t.id = id || t.code = code then none
    else some (.generated now id random)
  | .activate now code random =>
    if code = "" then none
    else (getByCode s now (normalizeCode code)).map fun tok => .activated now tok.id random
  | .refresh now refreshToken =>
    (refreshedRow sha256 s now refreshToken).map fun tok => .refreshed now tok.id
  | .revokeCode id => some (.revoked id)
  | .protectedRequest _ _ => none

def Label.time : Label σ → Option ℤ
  | .generateCode now _ _ _ _ _ | .activate now _ _ | .refresh now _
  | .protectedRequest now _ => some now
  | .revokeCode _ => none

/-- The hex text of the random bytes. -/
def Label.random : Label σ → Option String
  | .generateCode _ _ _ random _ _ | .activate _ _ random => some random
  | .refresh _ _ | .revokeCode _ | .protectedRequest _ _ => none

structure Logged (σ : Auth.Signing) where
  state : State σ := {}
  clock : ℤ := 0
  history : List Event := []

def Logged.step (l : Logged σ) (a : Label σ) : Option (Logged σ) :=
  if a.time.all (l.clock ≤ ·) then
    (Wallboard.step sha256 l.state a).map fun state =>
      { state, clock := a.time.getD l.clock,
        history := (event sha256 l.state a).toList ++ l.history }
  else none

/-! ## What the rows say of the history -/

variable {sha256}

/-- What a row says of its life. -/
structure Records (history : List Event) (sha256 : String → String) (tok : WallboardToken) :
    Prop where
  hash : ∃ r, (life tok.id history).findSome? Event.drawn = some r ∧ r ≠ "" ∧
    tok.refreshHash = sha256 r
  expiry : ∃ used, lastUse tok.id history = some used ∧ tok.expiresAt = used + refreshTokenTTL

structure Inv (sha256 : String → String) (l : Logged σ) : Prop where
  records : ∀ tok ∈ l.state.tokens, Records l.history sha256 tok
  present : ∀ id, life id l.history ≠ [] → ∃ tok ∈ l.state.tokens, tok.id = id

theorem inv_empty : Inv sha256 ({} : Logged σ) := ⟨nofun, fun _ h => absurd rfl h⟩

theorem Records.cons_of_ne {history : List Event} {tok : WallboardToken}
    (h : Records history sha256 tok) {e : Event} (hne : e.row ≠ tok.id) :
    Records (e :: history) sha256 tok := by
  refine ⟨?_, ?_⟩
  · rw [life_cons_of_ne hne]
    exact h.hash
  · rw [lastUse, life_cons_of_ne hne]
    exact h.expiry

theorem lastUse_cons {id : String} {e : Event} {t : ℤ} (hrow : e.row = id) (htime : e.time = some t)
    (history : List Event) : lastUse id (e :: history) = some t := by
  rw [lastUse, life_cons hrow (by rw [htime]; rfl), List.head?_cons, Option.bind_some, htime]

/-- A token that is drawn for a row replaces the one before. -/
theorem records_drawn {history : List Event} {tok : WallboardToken} {e : Event} {t : ℤ} {r : String}
    (hrow : e.row = tok.id) (htime : e.time = some t) (hdrawn : e.drawn = some r) (hr : r ≠ "")
    (hhash : tok.refreshHash = sha256 r) (hexpiry : tok.expiresAt = t + refreshTokenTTL) :
    Records (e :: history) sha256 tok := by
  refine ⟨⟨r, ?_, hr, hhash⟩, t, lastUse_cons hrow htime history, hexpiry⟩
  rw [life_cons hrow (by rw [htime]; rfl), List.findSome?_cons, hdrawn]

/-- A refresh keeps the token. -/
theorem records_refreshed {history : List Event} {tok tok' : WallboardToken} {t : ℤ}
    (h : Records history sha256 tok) (hid : tok'.id = tok.id)
    (hhash : tok'.refreshHash = tok.refreshHash) (hexpiry : tok'.expiresAt = t + refreshTokenTTL) :
    Records (.refreshed t tok.id :: history) sha256 tok' := by
  obtain ⟨r, hdrawn, hr, hsha⟩ := h.hash
  have hrow : (Event.refreshed t tok.id).row = tok'.id := hid.symm
  refine ⟨⟨r, ?_, hr, hhash.trans hsha⟩, t, lastUse_cons hrow rfl history, hexpiry⟩
  rw [life_cons hrow rfl, hid]
  exact hdrawn

/-- One row is changed and the event is about it. -/
theorem inv_update {l : Logged σ} (h : Inv sha256 l) {tok : WallboardToken}
    (htok : tok ∈ l.state.tokens) {f : WallboardToken → WallboardToken} {e : Event}
    {state : State σ} {clock : ℤ} (hid : ∀ t, (f t).id = t.id) (hrow : e.row = tok.id)
    (htokens : state.tokens = (updateToken l.state tok.id f).tokens)
    (hnew : ∀ t, Records l.history sha256 t → t.id = tok.id → Records (e :: l.history) sha256 (f t)) :
    Inv sha256 { state, clock, history := e :: l.history } := by
  have hmap : state.tokens = l.state.tokens.map fun t => if t.id = tok.id then f t else t := htokens
  refine ⟨fun t ht => ?_, fun id hlife => ?_⟩
  · dsimp only at ht
    rw [hmap] at ht
    obtain ⟨u, hu, rfl⟩ := List.mem_map.mp ht
    by_cases hut : u.id = tok.id
    · rw [if_pos hut]
      exact hnew u (h.records u hu) hut
    · rw [if_neg hut]
      exact (h.records u hu).cons_of_ne fun heq => hut (heq.symm.trans hrow)
  · dsimp only
    rw [hmap]
    have hold : ∃ u ∈ l.state.tokens, u.id = id := by
      by_cases hid : e.row = id
      · exact ⟨tok, htok, hrow.symm.trans hid⟩
      · rw [life_cons_of_ne hid] at hlife
        exact h.present id hlife
    obtain ⟨u, hu, rfl⟩ := hold
    refine ⟨_, List.mem_map_of_mem hu, ?_⟩
    split_ifs
    · exact hid u
    · rfl

theorem inv_same {l : Logged σ} (h : Inv sha256 l) {state : State σ} (clock : ℤ)
    (htokens : state.tokens = l.state.tokens) :
    Inv sha256 { state, clock, history := l.history } := by
  refine ⟨fun tok htok => ?_, fun id hlife => ?_⟩
  · dsimp only at htok
    rw [htokens] at htok
    exact h.records tok htok
  · dsimp only
    rw [htokens]
    exact h.present id hlife

theorem inv_generated {l : Logged σ} (h : Inv sha256 l) (tok : WallboardToken) {t : ℤ}
    {random : String} {state : State σ} {clock : ℤ} (hrandom : random ≠ "")
    (hnew : ∀ old ∈ l.state.tokens, old.id ≠ tok.id) (hhash : tok.refreshHash = sha256 random)
    (hexpiry : tok.expiresAt = t + refreshTokenTTL)
    (htokens : state.tokens = l.state.tokens ++ [tok]) :
    Inv sha256 { state, clock, history := .generated t tok.id random :: l.history } := by
  refine ⟨fun u hu => ?_, fun id hlife => ?_⟩
  · dsimp only at hu
    rw [htokens] at hu
    rcases List.mem_append.mp hu with hu | hu
    · exact (h.records u hu).cons_of_ne (hnew u hu).symm
    · obtain rfl := List.mem_singleton.mp hu
      exact records_drawn rfl rfl rfl hrandom hhash hexpiry
  · dsimp only
    rw [htokens]
    by_cases hid : tok.id = id
    · exact ⟨tok, List.mem_append_right _ (List.mem_singleton_self tok), hid⟩
    · rw [life_cons_of_ne (e := .generated t tok.id random) hid] at hlife
      obtain ⟨u, hu, hid⟩ := h.present id hlife
      exact ⟨u, List.mem_append_left _ hu, hid⟩

theorem inv_revoked {l : Logged σ} (h : Inv sha256 l) (id : String) {state : State σ} {clock : ℤ}
    (htokens : state.tokens = l.state.tokens.filter fun t => t.id ≠ id) :
    Inv sha256 { state, clock, history := .revoked id :: l.history } := by
  refine ⟨fun u hu => ?_, fun other hlife => ?_⟩
  · dsimp only at hu
    rw [htokens] at hu
    obtain ⟨hu, hne⟩ := List.mem_filter.mp hu
    have hrow : (Event.revoked id).row ≠ u.id := fun heq => by simp [← heq, Event.row] at hne
    exact (h.records u hu).cons_of_ne hrow
  · dsimp only
    rw [htokens]
    have hne : id ≠ other := by
      rintro rfl
      exact hlife (life_revoked id l.history)
    rw [life_cons_of_ne (e := .revoked id) hne] at hlife
    obtain ⟨u, hu, rfl⟩ := h.present other hlife
    exact ⟨u, List.mem_filter.mpr ⟨hu, by simpa using hne.symm⟩, rfl⟩

/-- What a request adds to the history, and what it does to the rows. -/
theorem inv_step {l l' : Logged σ} {a : Label σ} (h : Inv sha256 l) (ha : a.random ≠ some "")
    (hstep : Logged.step sha256 l a = some l') : Inv sha256 l' := by
  rw [Logged.step] at hstep
  split_ifs at hstep with hclock
  obtain ⟨state, hs, rfl⟩ := Option.map_eq_some_iff.mp hstep
  cases a with
  | generateCode now id code random name projectID =>
    simp only [Wallboard.step] at hs
    simp only [event]
    split_ifs at hs ⊢ with hused
    · cases hs
      exact inv_same h _ rfl
    · cases hs
      refine inv_generated h ⟨id, name, projectID, code, sha256 random, _, _, _⟩
        (fun hr => ha (congrArg some hr)) (fun old hold hid => hused ?_) rfl rfl rfl
      exact List.any_eq_true.mpr ⟨old, hold, by simp [hid]⟩
  | activate now code random =>
    simp only [Wallboard.step] at hs
    simp only [event]
    split_ifs at hs ⊢ with hcode
    · cases hs
      exact inv_same h _ rfl
    · cases hfind : getByCode l.state now (normalizeCode code) with
      | none =>
        rw [hfind] at hs
        cases hs
        exact inv_same h _ rfl
      | some tok =>
        rw [hfind] at hs
        cases hs
        refine inv_update h (List.mem_of_find?_eq_some hfind) ?_ rfl rfl fun t _ hid => ?_
        · exact fun _ => rfl
        exact records_drawn hid.symm rfl rfl (fun hr => ha (congrArg some hr)) rfl rfl
  | refresh now refreshToken =>
    simp only [Wallboard.step] at hs
    simp only [event, refreshedRow]
    split_ifs at hs ⊢ with hempty
    · cases hs
      exact inv_same h _ rfl
    · cases hfind : getByRefreshHash l.state now (sha256 refreshToken) with
      | none =>
        rw [hfind] at hs
        cases hs
        exact inv_same h _ rfl
      | some tok =>
        rw [hfind] at hs
        cases hs
        refine inv_update h (List.mem_of_find?_eq_some hfind) ?_ rfl rfl fun t ht hid => ?_
        · exact fun _ => rfl
        dsimp only
        rw [← hid]
        exact records_refreshed ht rfl rfl rfl
  | revokeCode id =>
    cases hs
    exact inv_revoked h id rfl
  | protectedRequest now header =>
    cases hs
    exact inv_same h _ rfl

theorem inv_run {l l' : Logged σ} {as : List (Label σ)} (h : Inv sha256 l)
    (has : ∀ a ∈ as, a.random ≠ some "") (hrun : Runs.run (Logged.step sha256) l as = some l') :
    Inv sha256 l' := by
  induction as generalizing l with
  | nil =>
    cases hrun
    exact h
  | cons a as ih =>
    obtain ⟨m, hm, hrun⟩ := Runs.run_cons_eq_some.mp hrun
    refine ih (inv_step h (has a (List.mem_cons_self ..)) hm) ?_ hrun
    exact fun b hb => has b (List.mem_cons_of_mem a hb)

/-! ## Which tokens refresh -/

/-- The request is answered with an access token. -/
def Serves (sha256 : String → String) (s : State σ) (a : Label σ) : Prop :=
  ∃ t, Wallboard.step sha256 s a = some t ∧ s.issued.length < t.issued.length

theorem serves_refresh (s : State σ) (now : ℤ) (refreshToken : String) :
    Serves sha256 s (.refresh now refreshToken) ↔
      (refreshedRow sha256 s now refreshToken).isSome = true := by
  simp only [Serves, Wallboard.step, refreshedRow]
  split_ifs with h
  · simp
  · cases getByRefreshHash s now (sha256 refreshToken) with
    | none => simp
    | some tok => simp [issue, updateToken]

theorem Inv.refreshes_iff {l : Logged σ} (h : Inv sha256 l) (hsha : Function.Injective sha256)
    (now : ℤ) (r : String) :
    (refreshedRow sha256 l.state now r).isSome = true ↔
      ∃ id used, (life id l.history).findSome? Event.drawn = some r ∧
        lastUse id l.history = some used ∧ now < used + refreshTokenTTL := by
  constructor
  · intro hsome
    obtain ⟨tok, htok⟩ := Option.isSome_iff_exists.mp hsome
    rw [refreshedRow] at htok
    split_ifs at htok with hempty
    obtain ⟨r', hdrawn, -, hhash⟩ := (h.records tok (List.mem_of_find?_eq_some htok)).hash
    obtain ⟨used, hused, hexpiry⟩ := (h.records tok (List.mem_of_find?_eq_some htok)).expiry
    have hmatch := List.find?_some htok
    simp only [Bool.and_eq_true, decide_eq_true_eq] at hmatch
    obtain rfl : r = r' := hsha (hmatch.1.symm.trans hhash)
    exact ⟨tok.id, used, hdrawn, hused, by omega⟩
  · rintro ⟨id, used, hdrawn, hused, hnow⟩
    have hlife : life id l.history ≠ [] := by
      intro hnil
      rw [hnil] at hdrawn
      cases hdrawn
    obtain ⟨tok, htok, rfl⟩ := h.present id hlife
    obtain ⟨r', hdrawn', hr', hhash⟩ := (h.records tok htok).hash
    obtain ⟨used', hused', hexpiry⟩ := (h.records tok htok).expiry
    obtain rfl : r = r' := Option.some.inj (hdrawn.symm.trans hdrawn')
    obtain rfl : used = used' := Option.some.inj (hused.symm.trans hused')
    rw [refreshedRow, if_neg hr', getByRefreshHash, List.find?_isSome]
    exact ⟨tok, htok, by simp [hhash, hexpiry, hnow]⟩

/-- After any requests: a token refreshes when it is the last one drawn for a row, at its
generation or a later activation, the row has not been revoked and was used less than thirty
days ago. -/
theorem refresh_token_life (hsha : Function.Injective sha256) {as : List (Label σ)} {l : Logged σ}
    (has : ∀ a ∈ as, a.random ≠ some "") (hrun : Runs.run (Logged.step sha256) {} as = some l)
    (now : ℤ) (r : String) :
    Serves sha256 l.state (.refresh now r) ↔
      ∃ id used, (life id l.history).findSome? Event.drawn = some r ∧
        lastUse id l.history = some used ∧ now < used + refreshTokenTTL :=
  (serves_refresh _ _ _).trans ((inv_run inv_empty has hrun).refreshes_iff hsha now r)

end

/-- A second activation replaces the token of the first, which then refreshes nothing. -/
theorem second_activation_rotates :
    let σ : Auth.Signing := ⟨ℕ, ℕ × Jwt.Method × Jwt.Claims, fun k m c => (k, m, c), 7⟩
    ∃ l : Logged σ,
      Runs.run (Logged.step id) {}
        [.generateCode 0 "1" "BAT-A1B2C3" "r" "Office TV" "p", .activate 1 "bat-a1b2c3" "s",
          .activate 2 "BAT-A1B2C3" "t"] = some l ∧
      Serves id l.state (.refresh 3 "t") ∧ ¬ Serves id l.state (.refresh 3 "s") := by
  intro σ
  have hrandom : ∀ a ∈ [Label.generateCode (σ := σ) 0 "1" "BAT-A1B2C3" "r" "Office TV" "p",
      .activate 1 "bat-a1b2c3" "s", .activate 2 "BAT-A1B2C3" "t"], a.random ≠ some "" := by
    simp [Label.random]
  refine ⟨_, rfl, ?_, fun hs => ?_⟩
  · exact (refresh_token_life Function.injective_id hrandom rfl 3 "t").mpr
      ⟨"1", 2, rfl, rfl, by decide +kernel⟩
  · exact absurd ((serves_refresh _ _ _).mp hs) (by decide +kernel)

/-- The token that `GenerateCode` drew and did not return refreshes before any activation. -/
theorem discarded_token_refreshes :
    let σ : Auth.Signing := ⟨ℕ, ℕ × Jwt.Method × Jwt.Claims, fun k m c => (k, m, c), 7⟩
    ∃ l : Logged σ,
      Runs.run (Logged.step id) {}
        [.generateCode 0 "1" "BAT-A1B2C3" "r" "Office TV" "p"] = some l ∧
      ¬ (Serves id l.state (.refresh 1 "r") ↔
        ∃ id used, (life id l.history).findSome? Event.returned = some "r" ∧
          lastUse id l.history = some used ∧ 1 < used + refreshTokenTTL) := by
  intro σ
  refine ⟨_, rfl, fun hiff => ?_⟩
  obtain ⟨row, -, hreturned, -⟩ := hiff.mp ((serves_refresh _ _ _).mpr rfl)
  obtain ⟨e, he, hr⟩ := List.exists_of_findSome?_eq_some hreturned
  have hmem : e ∈ [Event.generated 0 "1" "r"] :=
    List.mem_of_mem_filter (List.takeWhile_prefix _ |>.subset he)
  obtain rfl := List.mem_singleton.mp hmem
  cases hr

end BatAudit.Wallboard
