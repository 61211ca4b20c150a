import BatAudit.Sdk.Delivery

/-!
# Where a row comes from

Every row is the event of the item that a worker took, every item is what the Writer made of a
POST, and every POST has the body of one call of `send`. What the row says of its request is
therefore what the call said, or an id that the Writer drew.
-/

namespace BatAudit

open Auth (AuthDb)
open Json (Text)

namespace Writer.Prepares

variable {w : Writer} {db db' : AuthDb} {apiKeyID : String} {bound audit a : Audit}

theorem requestId_eq (h : w.Prepares db apiKeyID bound audit a db') :
    a.requestId = if sanitizeString bound.requestId = "" then "bat-" ++ w.requestUuid.text
      else sanitizeString bound.requestId := by
  have htext : audit.requestId = sanitizeString bound.requestId :=
    sanitized_get h.sanitized (f := .requestId) (by decide) (by decide)
  rw [← htext]
  exact resolveProject_get h.resolved (f := .requestId) (by decide)

theorem source_eq (h : w.Prepares db apiKeyID bound audit a db') :
    a.source = if bound.source = "" then "backend" else bound.source := by
  have htext : audit.source = bound.source :=
    sanitized_get_kept h.sanitized (f := .source) (by decide)
  rw [← htext]
  exact resolveProject_get h.resolved (f := .source) (by decide)

end Writer.Prepares

namespace Worker.Pipeline

/-- The row is what the columns took of the event. -/
def Columns (event : Audit) (row : AuditRow) : Prop :=
  ∃ (db : AuthDb) (c : Audit), row = c.row ∧ ∀ f : Field, f.store db (f.get event) = some (f.get c)

def Provenance (s : State) : Prop :=
  ∀ r ∈ s.rows, ∃ event, s.decoded r.1 = some event ∧ Columns event r.2

variable {maxRetries : ℤ} {s t : State} {item : ℕ} {event : Audit} {db : AuthDb}

theorem rows_commit (hcommit : s.commit db item event = some t) :
    ∃ row, t.rows = s.rows ++ [(item, row)] ∧ Columns event row := by
  unfold State.commit at hcommit
  split at hcommit
  · rename_i audits hcreate
    obtain ⟨c, rfl, -, -, hstore⟩ := createAudit_ok hcreate
    rw [List.getLast?_concat, Option.map_some, Option.some.injEq] at hcommit
    subst hcommit
    exact ⟨c.row, rfl, db, c, rfl, hstore⟩
  · cases hcommit

theorem rows_attempt (i failures : ℕ) :
    (s.attempt maxRetries i item event failures).rows = s.rows := by
  unfold State.attempt
  split <;> rfl

/-- A step adds at most the row of the event that its worker is at. -/
theorem rows_step {a : Label} (h : RowsById s) (hstep : step maxRetries s a = some t) :
    ∀ r ∈ t.rows, r ∈ s.rows ∨ ∃ event, s.decoded r.1 = some event ∧ Columns event r.2 := by
  have hnew : ∀ {i item failures : ℕ} {event : Audit} {db : AuthDb} {s' : State},
      s.workers i = .processing item event failures → s.commit db item event = some s' →
        ∀ r ∈ s'.rows, r ∈ s.rows ∨ ∃ event, s.decoded r.1 = some event ∧ Columns event r.2 := by
    intro i item failures event db s' hi hcommit r hr
    obtain ⟨row, hrows, hcolumns⟩ := rows_commit hcommit
    rw [hrows] at hr
    refine (List.mem_append.mp hr).imp_right fun hr => ?_
    rw [List.mem_singleton.mp hr]
    exact ⟨event, h.processing i item event failures hi, hcolumns⟩
  intro r hr
  cases moves hstep with
  | rpush | rpushReply | launch | exit | dequeue | blpop | blpopNil | deliver | expire
  | expireInFlight | orphanPop | orphanNil | unmarshalFailed => exact Or.inl hr
  | unmarshal => exact Or.inl (rows_attempt _ _ ▸ hr)
  | failed => exact Or.inl (rows_attempt _ _ ▸ hr)
  | created hi hcommit => exact hnew hi hcommit r hr
  | unconfirmed hi hcommit => exact hnew hi hcommit r (rows_attempt _ _ ▸ hr)

theorem pushed_eq {a : Label} (ha : ∀ event, a ≠ .rpush event)
    (hstep : step maxRetries s a = some t) : t.pushed = s.pushed := by
  cases moves hstep with
  | rpush => exact absurd rfl (ha _)
  | unmarshal | failed => exact pushed_attempt ..
  | @created _ _ _ _ _ s' _ hcommit =>
    have hs' : s'.pushed = s.pushed := pushed_commit hcommit
    exact hs'
  | unconfirmed _ hcommit => exact (pushed_attempt ..).trans (pushed_commit hcommit)
  | _ => rfl

theorem provenance_step {a : Label} (hrows : RowsById s) (h : Provenance s)
    (hstep : step maxRetries s a = some t) : Provenance t := by
  intro r hr
  obtain ⟨more, hmore⟩ := pushed_step hstep
  rcases rows_step hrows hstep r hr with hold | ⟨event, hevent, hcolumns⟩
  · obtain ⟨event, hevent, hcolumns⟩ := h r hold
    exact ⟨event, decoded_of_append hmore hevent, hcolumns⟩
  · exact ⟨event, decoded_of_append hmore hevent, hcolumns⟩

end Worker.Pipeline

namespace Sdk

/-- What the calls of `send` have as bodies. -/
def State.bodies (s : State) : List Text := s.sends.map Send.body

def Label.bodies : Label → List Text
  | .send body => [body]
  | _ => []

/-- What a step can do to what has been pushed and to the calls. -/
inductive Moves (maxRetries : ℤ) (s t : State) : Label → Prop
  | accept {p : ℕ} {post : Post} {send : Send} {w : Writer} {db db' : AuthDb} {apiKeyID : String}
      {ok : Bool} {a : Audit} {payload : Text} (hsend : s.sends[post.send]? = some send)
      (hcreate : w.create db apiKeyID send.body = some (.accepted a payload, db'))
      (ht : t = s.accept p post payload ok) : Moves maxRetries s t (.create p w db apiKeyID ok)
  | pipeline {a : Worker.Pipeline.Label}
      (hstep : Worker.Pipeline.step maxRetries s.pipeline a = some t.pipeline)
      (hsends : t.sends = s.sends) (horigin : t.origin = s.origin) :
      Moves maxRetries s t (.pipeline a)
  | client {a : Label} (hpipeline : t.pipeline = s.pipeline) (horigin : t.origin = s.origin)
      (hbodies : t.bodies = s.bodies ++ a.bodies) : Moves maxRetries s t a

variable {maxRetries : ℤ} {s t : State} {a : Label}

theorem bodies_set {k : ℕ} {send : Send} (hk : s.sends[k]? = some send) (send' : Send)
    (hbody : send'.body = send.body) :
    (s.sends.set k send').map Send.body = s.bodies ++ [] := by
  have hget : (s.sends.map Send.body)[k]? = some send'.body := by
    rw [List.getElem?_map, hk, hbody, Option.map_some]
  obtain ⟨hlt, hget⟩ := List.getElem?_eq_some_iff.mp hget
  rw [List.map_set, State.bodies, List.append_nil, ← hget, List.set_getElem_self]

theorem moves (hstep : step maxRetries s a = some t) : Moves maxRetries s t a := by
  cases a with
  | send body =>
    obtain rfl := Option.some.inj hstep
    exact .client rfl rfl List.map_append
  | create p w db apiKeyID ok =>
    obtain ⟨post, hpost, hstep⟩ := Option.bind_eq_some_iff.mp hstep
    obtain ⟨send, hsend, hstep⟩ := Option.bind_eq_some_iff.mp hstep
    split at hstep
    · split at hstep
      · rename_i hcreate
        exact .accept hsend hcreate (Option.some.inj hstep).symm
      · obtain rfl := Option.some.inj hstep
        exact .client rfl rfl (List.append_nil _).symm
      · cases hstep
    · cases hstep
  | refuse p =>
    obtain ⟨post, hpost, hstep⟩ := Option.bind_eq_some_iff.mp hstep
    split at hstep
    · obtain rfl := Option.some.inj hstep
      exact .client rfl rfl (List.append_nil _).symm
    · cases hstep
  | reply p =>
    obtain ⟨post, hpost, hstep⟩ := Option.bind_eq_some_iff.mp hstep
    obtain ⟨send, hsend, hstep⟩ := Option.bind_eq_some_iff.mp hstep
    obtain ⟨ok, hok, hstep⟩ := Option.bind_eq_some_iff.mp hstep
    split at hstep
    · obtain rfl := Option.some.inj hstep
      exact .client rfl rfl (bodies_set hsend _ rfl)
    · cases hstep
  | fetchFails k =>
    obtain ⟨send, hsend, hstep⟩ := Option.bind_eq_some_iff.mp hstep
    split at hstep
    · obtain rfl := Option.some.inj hstep
      exact .client rfl rfl (bodies_set hsend _ rfl)
    · cases hstep
  | retry k =>
    obtain ⟨send, hsend, hstep⟩ := Option.bind_eq_some_iff.mp hstep
    split at hstep
    · obtain rfl := Option.some.inj hstep
      exact .client rfl rfl (bodies_set hsend _ rfl)
    · cases hstep
  | pipeline a =>
    obtain ⟨pipeline, hpipeline, rfl⟩ := Option.map_eq_some_iff.mp hstep
    exact .pipeline hpipeline rfl rfl

theorem bodies_step (hstep : step maxRetries s a = some t) : t.bodies = s.bodies ++ a.bodies := by
  cases moves hstep with
  | accept _ _ ht =>
    rw [ht]
    exact (List.append_nil _).symm
  | pipeline _ hsends =>
    rw [State.bodies, hsends]
    exact (List.append_nil _).symm
  | client _ _ hbodies => exact hbodies

/-! ## Runs without events of other origin -/

/-- The id is that of the call, or is one of those that the Writer draws. -/
def Tells (drawn : Set String) (body : Text) (event : Audit) : Prop :=
  ∃ bound, bindAudit body = some bound ∧
    event.source = (if bound.source = "" then "backend" else bound.source) ∧
    if sanitizeString bound.requestId = "" then
      ∃ u : GoFormats.Uuid, event.requestId = "bat-" ++ u.text ∧ "bat-" ++ u.text ∈ drawn
    else event.requestId = sanitizeString bound.requestId

/-- All that is pushed comes from `Create`, which draws its ids from a set. -/
def Draws (drawn : Set String) : Label → Prop
  | .create _ w _ _ _ => "bat-" ++ w.requestUuid.text ∈ drawn
  | .pipeline (.rpush _) => False
  | _ => True

structure Traced (drawn : Set String) (s : State) : Prop where
  rows : Worker.Pipeline.RowsById s.pipeline
  provenance : Worker.Pipeline.Provenance s.pipeline
  origin : ∀ item < s.pipeline.pushed.length, ∃ k, (item, k) ∈ s.origin
  items : ∀ o ∈ s.origin, o.1 < s.pipeline.pushed.length
  tells : ∀ o ∈ s.origin, ∃ body, s.bodies[o.2]? = some body ∧
    ∀ event, s.pipeline.decoded o.1 = some event → Tells drawn body event

variable {drawn : Set String}

theorem traced_init : Traced drawn {} where
  rows := .init
  provenance _ h := absurd h List.not_mem_nil
  origin _ h := absurd h (Nat.not_lt_zero _)
  items _ h := absurd h List.not_mem_nil
  tells _ h := absurd h List.not_mem_nil

theorem tells_of_create {w : Writer} {db db' : AuthDb} {apiKeyID : String} {body payload : Text}
    {a event : Audit} (hdrawn : "bat-" ++ w.requestUuid.text ∈ drawn)
    (hcreate : w.create db apiKeyID body = some (.accepted a payload, db'))
    (hevent : unmarshalAudit payload = some event) : Tells drawn body event := by
  obtain ⟨bound, audit, hbound, haudit, hvalid, hresolve⟩ := Writer.event_of_create hcreate rfl
  have hprepares : w.Prepares db apiKeyID bound audit a db' := ⟨haudit, hvalid, hresolve⟩
  have hsame := same_of_unmarshal (Writer.marshal_of_create hcreate) hevent
  have hid : event.requestId = a.requestId := hsame .requestId
  have hsource : event.source = a.source := hsame .source
  have hrequest := hid.trans hprepares.requestId_eq
  refine ⟨bound, hbound, hsource.trans hprepares.source_eq, ?_⟩
  rcases eq_or_ne (sanitizeString bound.requestId) "" with hblank | hblank
  · rw [if_pos hblank] at hrequest ⊢
    exact ⟨w.requestUuid, hrequest, hdrawn⟩
  · rw [if_neg hblank] at hrequest ⊢
    exact hrequest

theorem Traced.accept (h : Traced drawn s) {p : ℕ} {post : Post} {send : Send} {w : Writer}
    {db db' : AuthDb} {apiKeyID : String} {a : Audit} {payload : Text} (ok : Bool)
    (hdrawn : "bat-" ++ w.requestUuid.text ∈ drawn) (hsend : s.sends[post.send]? = some send)
    (hcreate : w.create db apiKeyID send.body = some (.accepted a payload, db')) :
    Traced drawn (s.accept p post payload ok) := by
  have hpushed : (s.accept p post payload ok).pipeline.pushed = s.pipeline.pushed ++ [payload] :=
    rfl
  have hlength : (s.accept p post payload ok).pipeline.pushed.length =
      s.pipeline.pushed.length + 1 := List.length_append
  have hself : (s.pipeline.pushed.length, post.send) ∈ (s.accept p post payload ok).origin :=
    List.mem_append_right _ (List.mem_singleton_self _)
  have hbody : s.bodies[post.send]? = some send.body := by
    rw [State.bodies, List.getElem?_map, hsend, Option.map_some]
  refine ⟨h.rows.push payload, fun r hr => ?_, fun item hitem => ?_, fun o ho => ?_,
    fun o ho => ?_⟩
  · obtain ⟨event, hevent, hcolumns⟩ := h.provenance r hr
    exact ⟨event, Worker.Pipeline.decoded_of_append hpushed hevent, hcolumns⟩
  · rcases Nat.lt_succ_iff_lt_or_eq.mp (hlength ▸ hitem) with hlt | rfl
    · obtain ⟨k, hk⟩ := h.origin item hlt
      exact ⟨k, List.mem_append_left _ hk⟩
    · exact ⟨post.send, hself⟩
  · rw [hlength]
    rcases List.mem_append.mp ho with ho | ho
    · exact Nat.lt_succ_of_lt (h.items o ho)
    · rw [List.mem_singleton.mp ho]
      exact Nat.lt_succ_self _
  · rcases List.mem_append.mp ho with ho | ho
    · obtain ⟨body, hk, htells⟩ := h.tells o ho
      refine ⟨body, hk, fun event hevent => htells event ?_⟩
      rwa [Worker.Pipeline.decoded_eq_of_append hpushed (h.items o ho)] at hevent
    · rw [List.mem_singleton.mp ho]
      refine ⟨send.body, hbody, fun event hevent => tells_of_create hdrawn hcreate ?_⟩
      exact (Worker.Pipeline.decoded_push_self s.pipeline payload).symm.trans hevent

theorem Traced.pipeline (h : Traced drawn s) {b : Worker.Pipeline.Label}
    (hdraws : Draws drawn (.pipeline b))
    (hstep : Worker.Pipeline.step maxRetries s.pipeline b = some t.pipeline)
    (hsends : t.sends = s.sends) (horigin : t.origin = s.origin) : Traced drawn t := by
  have hpushed := Worker.Pipeline.pushed_eq (fun event heq => by cases heq; exact hdraws) hstep
  have hdecoded : ∀ item, t.pipeline.decoded item = s.pipeline.decoded item := fun item => by
    rw [Worker.Pipeline.State.decoded, hpushed, ← Worker.Pipeline.State.decoded]
  refine ⟨h.rows.step hstep, Worker.Pipeline.provenance_step h.rows h.provenance hstep, ?_, ?_, ?_⟩
  · rw [hpushed, horigin]
    exact h.origin
  · rw [hpushed, horigin]
    exact h.items
  · rw [horigin, State.bodies, hsends]
    simp only [hdecoded]
    exact h.tells

theorem Traced.step (h : Traced drawn s) (hdraws : Draws drawn a)
    (hstep : step maxRetries s a = some t) : Traced drawn t := by
  cases moves hstep with
  | accept hsend hcreate ht => exact ht ▸ h.accept _ hdraws hsend hcreate
  | pipeline hpipeline hsends horigin => exact h.pipeline hdraws hpipeline hsends horigin
  | client hpipeline horigin hbodies =>
    refine ⟨hpipeline ▸ h.rows, hpipeline ▸ h.provenance, ?_, ?_, ?_⟩
    · rw [hpipeline, horigin]
      exact h.origin
    · rw [hpipeline, horigin]
      exact h.items
    · intro o ho
      rw [horigin] at ho
      obtain ⟨body, hk, htells⟩ := h.tells o ho
      refine ⟨body, ?_, hpipeline ▸ htells⟩
      rw [hbodies, List.getElem?_append_left (List.getElem?_eq_some_iff.mp hk).1, hk]

end Sdk

end BatAudit
