import BatAudit.Worker.Pipeline

/-!
# One call of send

The Node and the browser client post an event, and post it again, up to three times, when
`fetch` rejects or the reply is no success. A POST that the client has given up on may still
be processed. The Writer names an event without an id anew for every POST.
-/

namespace BatAudit.Sdk

open Auth (AuthDb)
open Json (Text)
open Worker (Pipeline.RowsById)
open Writer (plainWriter minimalBody)

def RETRY_DELAYS_MS : List ℕ := [100, 200, 400]

inductive SendPhase
  | fetching
  | sleeping
  | settled
deriving DecidableEq, Repr

/-- One call of `client.send`; the body is `JSON.stringify(event)`. -/
structure Send where
  body : Text
  attempt : ℕ := 0
  phase : SendPhase := .fetching
deriving DecidableEq

/-- The end of one `fetch` of `_sendWithRetry`. -/
def Send.fetched (send : Send) (ok : Bool) : Send :=
  { send with
    phase := if !ok && send.attempt < RETRY_DELAYS_MS.length then .sleeping else .settled }

/-- One POST; the answer is `res.ok`. -/
structure Post where
  send : ℕ
  attempt : ℕ
  answer : Option Bool := none
deriving DecidableEq

/-- `origin` pairs the items on the queue with the calls of `send` they come from. -/
structure State where
  sends : List Send := []
  posts : List Post := []
  pipeline : Worker.Pipeline.State := {}
  origin : List (ℕ × ℕ) := []

inductive Label
  | send (body : Text)
  | create (p : ℕ) (w : Writer) (db : AuthDb) (apiKeyID : String) (ok : Bool)
  | refuse (p : ℕ)
  | reply (p : ℕ)
  | fetchFails (k : ℕ)
  | retry (k : ℕ)
  | pipeline (a : Worker.Pipeline.Label)

namespace State

def answer (s : State) (p : ℕ) (post : Post) (ok : Bool) : State :=
  { s with posts := s.posts.set p { post with answer := some ok } }

/-- `Enqueue` pushes the payload, and may report an error all the same. -/
def accept (s : State) (p : ℕ) (post : Post) (payload : Text) (ok : Bool) : State :=
  { s.answer p post ok with
    pipeline := s.pipeline.push payload
    origin := s.origin ++ [(s.pipeline.pushed.length, post.send)] }

/-- The id the event of a call carries itself. -/
def clientId (s : State) (k : ℕ) : Option String :=
  (s.sends[k]?).bind fun send => (bindAudit send.body).bind fun bound =>
    if bound.id = "" then none else some bound.id

def rowsOf (s : State) (k : ℕ) : List (ℕ × AuditRow) :=
  s.pipeline.rows.filter fun r => (r.1, k) ∈ s.origin

end State

/-- `refuse` is an answer given before `Create` runs, by the check of the API key. -/
def step (maxRetries : ℤ) (s : State) : Label → Option State
  | .send body =>
    some { s with
      sends := s.sends ++ [{ body := body }]
      posts := s.posts ++ [{ send := s.sends.length, attempt := 0 }] }
  | .create p w db apiKeyID ok => do
    let post ← s.posts[p]?
    let send ← s.sends[post.send]?
    if post.answer = none then
      match w.create db apiKeyID send.body with
      | some (.accepted _ payload, _) => some (s.accept p post payload ok)
      | some _ => some (s.answer p post false)
      | none => none
    else none
  | .refuse p => do
    let post ← s.posts[p]?
    if post.answer = none then some (s.answer p post false) else none
  | .reply p => do
    let post ← s.posts[p]?
    let send ← s.sends[post.send]?
    let ok ← post.answer
    if send.phase = .fetching ∧ send.attempt = post.attempt then
      some { s with sends := s.sends.set post.send (send.fetched ok) }
    else none
  | .fetchFails k => do
    let send ← s.sends[k]?
    if send.phase = .fetching then some { s with sends := s.sends.set k (send.fetched false) }
    else none
  | .retry k => do
    let send ← s.sends[k]?
    if send.phase = .sleeping then
      some { s with
        sends := s.sends.set k { send with attempt := send.attempt + 1, phase := .fetching }
        posts := s.posts ++ [{ send := k, attempt := send.attempt + 1 }] }
    else none
  | .pipeline a => (Worker.Pipeline.step maxRetries s.pipeline a).map fun pipeline =>
    { s with pipeline := pipeline }

/-- One call of `send` leads to at most one row. -/
def AtMostOneRow (s : State) : Prop := ∀ k, (s.rowsOf k).length ≤ 1

/-- No POST of a call is put on the queue after another POST of it, unless its event carries
an id. -/
def Safe (s : State) : Label → Prop
  | .create p w db apiKeyID _ => ∀ post send a payload db', s.posts[p]? = some post →
      s.sends[post.send]? = some send →
      w.create db apiKeyID send.body = some (.accepted a payload, db') →
      (s.clientId post.send).isSome = true ∨ ∀ o ∈ s.origin, o.2 ≠ post.send
  | _ => True

/-! ## The invariant -/

structure Inv (s : State) : Prop where
  rows : Worker.Pipeline.RowsById s.pipeline
  sends : ∀ o ∈ s.origin, o.2 < s.sends.length
  items : ∀ o ∈ s.origin, o.1 < s.pipeline.pushed.length
  ids : ∀ o ∈ s.origin, ∀ id, s.clientId o.2 = some id →
    ∀ event, s.pipeline.decoded o.1 = some event → event.id = id
  unique : ∀ o ∈ s.origin, ∀ o' ∈ s.origin, o.2 = o'.2 →
    o.1 = o'.1 ∨ (s.clientId o.2).isSome = true

theorem inv_init : Inv {} where
  rows := .init
  sends _ h := absurd h List.not_mem_nil
  items _ h := absurd h List.not_mem_nil
  ids _ h := absurd h List.not_mem_nil
  unique _ h := absurd h List.not_mem_nil

variable {maxRetries : ℤ} {s t : State}

/-- Two rows of one call have one id, which the key forbids. -/
theorem Inv.atMostOneRow (h : Inv s) : AtMostOneRow s := by
  intro k
  have hnodup : ((s.rowsOf k).map fun r => r.2.id).Nodup :=
    h.rows.nodup.sublist (List.filter_sublist.map _)
  have hid : ∀ r ∈ s.rowsOf k, ∀ r' ∈ s.rowsOf k, r.2.id = r'.2.id := by
    intro r hr r' hr'
    obtain ⟨hr, ho⟩ := List.mem_filter.mp hr
    obtain ⟨hr', ho'⟩ := List.mem_filter.mp hr'
    have ho := of_decide_eq_true ho
    have ho' := of_decide_eq_true ho'
    obtain ⟨event, hevent, heq⟩ := h.rows.decoded r hr
    obtain ⟨event', hevent', heq'⟩ := h.rows.decoded r' hr'
    rw [heq, heq']
    rcases h.unique _ ho _ ho' rfl with hitem | hsome
    · have hitem : r.1 = r'.1 := hitem
      rw [hitem, hevent'] at hevent
      rw [Option.some.inj hevent]
    · obtain ⟨id, hid⟩ := Option.isSome_iff_exists.mp hsome
      exact (h.ids _ ho id hid event hevent).trans (h.ids _ ho' id hid event' hevent').symm
  cases hrows : s.rowsOf k with
  | nil => exact Nat.zero_le 1
  | cons r rest =>
    cases rest with
    | nil => exact le_refl 1
    | cons r' rest =>
      rw [hrows] at hnodup hid
      have heq := hid r List.mem_cons_self r' (List.mem_cons_of_mem r List.mem_cons_self)
      refine absurd hnodup fun hnodup => (List.nodup_cons.mp hnodup).1 ?_
      exact List.mem_map.mpr ⟨r', List.mem_cons_self, heq.symm⟩

/-- Calls are added, and none changes its event. -/
theorem Inv.of_sends (h : Inv s) {sends : List Send} {posts : List Post}
    (hbody : ∀ k < s.sends.length,
      (sends[k]?).map Send.body = (s.sends[k]?).map Send.body)
    (hlength : s.sends.length ≤ sends.length) : Inv { s with sends := sends, posts := posts } := by
  have hclient : ∀ o ∈ s.origin,
      ({ s with sends := sends, posts := posts } : State).clientId o.2 = s.clientId o.2 := by
    intro o ho
    have hmap : ∀ sends : List Send, (sends[o.2]?).bind (fun send =>
        (bindAudit send.body).bind fun bound => if bound.id = "" then none else some bound.id) =
        ((sends[o.2]?).map Send.body).bind fun body =>
          (bindAudit body).bind fun bound => if bound.id = "" then none else some bound.id :=
      fun sends => by rw [Option.bind_map]; rfl
    rw [State.clientId, State.clientId, hmap, hmap, hbody o.2 (h.sends o ho)]
  refine ⟨h.rows, fun o ho => Nat.lt_of_lt_of_le (h.sends o ho) hlength, h.items,
    fun o ho id hid => h.ids o ho id (hclient o ho ▸ hid), fun o ho o' ho' heq => ?_⟩
  rw [hclient o ho]
  exact h.unique o ho o' ho' heq

theorem Inv.set_send (h : Inv s) {k : ℕ} {send : Send} (hk : s.sends[k]? = some send)
    (send' : Send) (posts : List Post) (hbody : send'.body = send.body) :
    Inv { s with sends := s.sends.set k send', posts := posts } := by
  refine h.of_sends (fun j _ => ?_) (le_of_eq List.length_set.symm)
  by_cases hj : k = j
  · subst hj
    rw [hk, List.getElem?_set_self (List.getElem?_eq_some_iff.mp hk).1, Option.map_some,
      Option.map_some, hbody]
  · rw [List.getElem?_set_ne hj]

theorem inv_accept (h : Inv s) {p : ℕ} {post : Post} {send : Send} {w : Writer} {db db' : AuthDb}
    {apiKeyID : String} {a : Audit} {payload : Text} (ok : Bool)
    (hsend : s.sends[post.send]? = some send)
    (hcreate : w.create db apiKeyID send.body = some (.accepted a payload, db'))
    (hsafe : (s.clientId post.send).isSome = true ∨ ∀ o ∈ s.origin, o.2 ≠ post.send) :
    Inv (s.accept p post payload ok) := by
  have hold : ∀ o ∈ s.origin,
      (s.accept p post payload ok).pipeline.decoded o.1 = s.pipeline.decoded o.1 := fun o ho =>
    Worker.Pipeline.decoded_eq_of_append (t := s.pipeline.push payload) rfl (h.items o ho)
  have hnew : (s.accept p post payload ok).pipeline.decoded s.pipeline.pushed.length =
      unmarshalAudit payload := Worker.Pipeline.decoded_push_self ..
  have hlength : (s.accept p post payload ok).pipeline.pushed.length =
      s.pipeline.pushed.length + 1 := List.length_append
  refine ⟨h.rows.push payload, fun o ho => ?_, fun o ho => ?_, fun o ho id hid event hevent => ?_,
    fun o ho o' ho' heq => ?_⟩
  · rcases List.mem_append.mp ho with ho | ho
    · exact h.sends o ho
    · rw [List.mem_singleton.mp ho]
      exact (List.getElem?_eq_some_iff.mp hsend).1
  · rw [hlength]
    rcases List.mem_append.mp ho with ho | ho
    · exact Nat.lt_succ_of_lt (h.items o ho)
    · rw [List.mem_singleton.mp ho]
      exact Nat.lt_succ_self _
  · rcases List.mem_append.mp ho with ho | ho
    · exact h.ids o ho id hid event (hold o ho ▸ hevent)
    · rw [List.mem_singleton.mp ho] at hid hevent
      rw [hnew] at hevent
      obtain ⟨bound, audit, hbound, haudit, hvalid, hresolve⟩ := Writer.event_of_create hcreate rfl
      have hid' : (if bound.id = "" then none else some bound.id) = some id := by
        have hclient : s.clientId post.send = some id := hid
        rwa [State.clientId, hsend, Option.bind_some, hbound, Option.bind_some] at hclient
      split_ifs at hid' with hempty
      have hprepares : w.Prepares db apiKeyID bound audit a db' := ⟨haudit, hvalid, hresolve⟩
      have hsame : event.id = a.id :=
        same_of_unmarshal (Writer.marshal_of_create hcreate) hevent .id
      rw [hsame, hprepares.id_eq, if_neg hempty]
      exact Option.some.inj hid'
  · have hclient : ∀ k, (s.accept p post payload ok).clientId k = s.clientId k := fun _ => rfl
    rw [hclient]
    rcases List.mem_append.mp ho with ho | ho <;> rcases List.mem_append.mp ho' with ho' | ho'
    · exact h.unique o ho o' ho' heq
    · rw [List.mem_singleton.mp ho'] at heq
      exact Or.inr (heq ▸ hsafe.resolve_right fun hnone => hnone o ho heq)
    · rw [List.mem_singleton.mp ho] at heq ⊢
      exact Or.inr (hsafe.resolve_right fun hnone => hnone o' ho' heq.symm)
    · rw [List.mem_singleton.mp ho, List.mem_singleton.mp ho']
      exact Or.inl rfl

theorem inv_create (h : Inv s) {p : ℕ} {w : Writer} {db : AuthDb} {apiKeyID : String} {ok : Bool}
    (hsafe : Safe s (.create p w db apiKeyID ok))
    (hstep : step maxRetries s (.create p w db apiKeyID ok) = some t) : Inv t := by
  obtain ⟨post, hpost, hstep⟩ := Option.bind_eq_some_iff.mp hstep
  obtain ⟨send, hsend, hstep⟩ := Option.bind_eq_some_iff.mp hstep
  split at hstep
  · split at hstep
    · rename_i a payload db' hcreate
      obtain rfl := Option.some.inj hstep
      exact inv_accept h ok hsend hcreate (hsafe post send a payload db' hpost hsend hcreate)
    · obtain rfl := Option.some.inj hstep
      exact { h with }
    · cases hstep
  · cases hstep

theorem inv_step {a : Label} (h : Inv s) (hsafe : Safe s a) (hstep : step maxRetries s a = some t) :
    Inv t := by
  cases a with
  | send body =>
    obtain rfl := Option.some.inj hstep
    refine h.of_sends (fun k hk => ?_) ?_
    · rw [List.getElem?_append_left hk]
    · rw [List.length_append]
      exact Nat.le_add_right ..
  | create p w db apiKeyID ok => exact inv_create h hsafe hstep
  | refuse p =>
    obtain ⟨post, hpost, hstep⟩ := Option.bind_eq_some_iff.mp hstep
    split at hstep
    · obtain rfl := Option.some.inj hstep
      exact { h with }
    · cases hstep
  | reply p =>
    obtain ⟨post, hpost, hstep⟩ := Option.bind_eq_some_iff.mp hstep
    obtain ⟨send, hsend, hstep⟩ := Option.bind_eq_some_iff.mp hstep
    obtain ⟨ok, hok, hstep⟩ := Option.bind_eq_some_iff.mp hstep
    split at hstep
    · obtain rfl := Option.some.inj hstep
      exact h.set_send hsend (send.fetched ok) s.posts rfl
    · cases hstep
  | fetchFails k =>
    obtain ⟨send, hsend, hstep⟩ := Option.bind_eq_some_iff.mp hstep
    split at hstep
    · obtain rfl := Option.some.inj hstep
      exact h.set_send hsend (send.fetched false) s.posts rfl
    · cases hstep
  | retry k =>
    obtain ⟨send, hsend, hstep⟩ := Option.bind_eq_some_iff.mp hstep
    split at hstep
    · obtain rfl := Option.some.inj hstep
      exact h.set_send hsend { send with attempt := send.attempt + 1, phase := .fetching } _ rfl
    · cases hstep
  | pipeline a =>
    obtain ⟨pipeline, hpipeline, rfl⟩ := Option.map_eq_some_iff.mp hstep
    obtain ⟨more, hmore⟩ := Worker.Pipeline.pushed_step hpipeline
    refine { h with
      rows := h.rows.step hpipeline
      items := fun o ho => ?_
      ids := fun o ho id hid event hevent => h.ids o ho id hid event ?_ }
    · rw [hmore, List.length_append]
      exact Nat.lt_add_right _ (h.items o ho)
    · rwa [← Worker.Pipeline.decoded_eq_of_append hmore (h.items o ho)]

/-- In a run without a second push of an event that has no id, no call of `send` leads to more
than one row. -/
theorem at_most_one_row_of_safe (maxRetries : ℤ) (as : List Label)
    (h : Runs.Meets (step maxRetries) Safe {} as) :
    Runs.Along (step maxRetries) (fun _ _ t => AtMostOneRow t) {} as :=
  Runs.along_of_meets
    (fun _ _ _ h hsafe hstep => ⟨inv_step h hsafe hstep, (inv_step h hsafe hstep).atMostOneRow⟩)
    inv_init h

/-! A call with one POST, and one whose first POST is processed although its reply is lost. -/

def Label.uuids : Label → List String
  | .create _ w _ _ _ => [w.eventUuid.text, w.requestUuid.text, w.auth.uuid]
  | _ => []

def numberedUuid (n : Fin 10) : GoFormats.Uuid :=
  ⟨"00000000-0000-4000-8000-00000000000" ++ String.singleton (Nat.digitChar n), by
    revert n; decide⟩

/-- A Writer that draws these ids for the event, its request and a new project. -/
def numberedWriter (event request project : Fin 10) : Writer :=
  { plainWriter with
    eventUuid := numberedUuid event
    requestUuid := numberedUuid request
    auth := .ofUuid (numberedUuid project).text (by revert project; decide) }

def getBody : Text := minimalBody ",\"method\":\"GET\""

def projectDb : AuthDb :=
  (Auth.Service.ensureProject (numberedWriter 0 1 2).auth {} "s" "key").2

def firstWriter : Writer := numberedWriter 0 1 2

def secondWriter : Writer := numberedWriter 3 4 5

/-- A worker takes the head of the queue and stores it, or fails to. -/
def consumed (reply : Worker.Pipeline.Reply) : List Label :=
  [.dequeue 0, .blpop 0, .deliver 0, .unmarshal 0, .createAudit 0 projectDb reply].map .pipeline

def answered : List Label :=
  [.send getBody, .create 0 (numberedWriter 0 1 2) {} "key" true, .reply 0, .pipeline (.launch 0)]
    ++ consumed .ok

def replyLost : List Label :=
  [.send getBody, .create 0 (numberedWriter 0 1 2) {} "key" true, .fetchFails 0, .retry 0,
    .create 1 (numberedWriter 3 4 5) projectDb "key" true, .reply 1, .pipeline (.launch 0)]
    ++ consumed .ok ++ consumed .ok

theorem meets_of_not_create {as : List Label} (h : ∀ a ∈ as, a.uuids = []) (s : State) :
    Runs.Meets (step maxRetries) Safe s as := by
  induction as generalizing s with
  | nil => trivial
  | cons a as ih =>
    intro t _
    refine ⟨?_, ih (fun b hb => h b (List.mem_cons_of_mem a hb)) t⟩
    cases a with
    | create p w db apiKeyID ok => exact absurd (h _ List.mem_cons_self) (List.cons_ne_nil _ _)
    | send | refuse | reply | fetchFails | retry | pipeline => trivial

/-! The two POSTs are evaluated stage by stage. -/

/-- What the body is read as. -/
def getEvent : Audit := { minimalEvent with method := some .GET }

/-- What a Writer queues of it, for a project that exists or is made. -/
def queuedGet (w : Writer) : Audit :=
  { getEvent with
    id := w.eventUuid.text
    requestId := "bat-" ++ w.requestUuid.text
    timestamp := w.now
    source := "backend"
    environment := "production"
    projectId := (numberedUuid 2).text }

/-- What the two POSTs put on the queue, and the rows that it is stored as. -/
theorem exists_payloads :
    ∃ payload payload', unmarshalAudit payload = some (queuedGet firstWriter) ∧
      unmarshalAudit payload' = some (queuedGet secondWriter) ∧
      firstWriter.create {} "key" getBody =
        some (.accepted (queuedGet firstWriter) payload, projectDb) ∧
      secondWriter.create projectDb "key" getBody =
        some (.accepted (queuedGet secondWriter) payload', projectDb) ∧
      createAudit projectDb [] (queuedGet firstWriter) = .ok [(queuedGet firstWriter).row] ∧
      createAudit projectDb [(queuedGet firstWriter).row] (queuedGet secondWriter) =
        .ok [(queuedGet firstWriter).row, (queuedGet secondWriter).row] := by
  have hbound : bindAudit getBody = some getEvent :=
    bindAudit_of_members (textMembers [("method", "GET")]) rfl rfl
  have hfirst : (firstWriter.sanitized getEvent).map (fun a =>
      (validate a, firstWriter.resolveProject {} "key" (firstWriter.complete a))) =
        some ([], queuedGet firstWriter, projectDb) := rfl
  have hsecond : (secondWriter.sanitized getEvent).map (fun a =>
      (validate a, secondWriter.resolveProject projectDb "key" (secondWriter.complete a))) =
        some ([], queuedGet secondWriter, projectDb) := rfl
  obtain ⟨payload, hread, hcreate⟩ := exists_payload rfl hfirst nofun rfl (by decide)
  obtain ⟨payload', hread', hcreate'⟩ := exists_payload rfl hsecond nofun rfl (by decide)
  exact ⟨payload, payload', hread, hread', hcreate _ hbound, hcreate' _ hbound,
    createAudit_of_toOption rfl, createAudit_of_toOption rfl⟩

theorem step_create {s : State} {p : ℕ} {w : Writer} {db db' : AuthDb} {apiKeyID : String}
    {post : Post} {send : Send} {a : Audit} {payload : Text} (ok : Bool)
    (hpost : s.posts[p]? = some post) (hsend : s.sends[post.send]? = some send)
    (hanswer : post.answer = none)
    (hcreate : w.create db apiKeyID send.body = some (.accepted a payload, db')) :
    step maxRetries s (.create p w db apiKeyID ok) = some (s.accept p post payload ok) := by
  simp only [step, hpost, hsend, hcreate, Option.bind_eq_bind, Option.bind_some, if_pos hanswer]

theorem step_send : step 3 {} (.send getBody) =
    some ⟨[{ body := getBody }], [{ send := 0, attempt := 0 }], {}, []⟩ := rfl

/-- A worker that is not busy takes the head of the queue and stores it. -/
theorem run_consumed {s : State} {item : ℕ} {rest : List ℕ} {event : Audit}
    {audits : List AuditRow} {row : AuditRow} (hworker : s.pipeline.workers 0 = .selecting)
    (hqueue : s.pipeline.queue = item :: rest) (hevent : s.pipeline.decoded item = some event)
    (haudits : createAudit projectDb (s.pipeline.rows.map Prod.snd) event = .ok audits)
    (hrow : audits.getLast? = some row) :
    ∃ t, Runs.run (step 3) s (consumed .ok) = some t ∧ t.pipeline.workers 0 = .selecting ∧
      t.pipeline.queue = rest ∧ t.pipeline.pushed = s.pipeline.pushed ∧
      t.pipeline.rows = s.pipeline.rows ++ [(item, row)] ∧ t.origin = s.origin := by
  have hevent' : (s.pipeline.pushed[item]?).bind unmarshalAudit = some event := hevent
  simp [Runs.run, consumed, step, Worker.Pipeline.step, Worker.Pipeline.State.setPhase,
    Worker.Pipeline.State.decoded, Worker.Pipeline.State.attempt, Worker.Pipeline.State.commit,
    hworker, hqueue, hevent', haudits, hrow]

theorem answered_rows :
    (Runs.run (step 3) {} answered).map (fun t => (t.rowsOf 0).length) = some 1 := by
  obtain ⟨payload, -, hread, -, hcreate, -, hfirst, -⟩ := exists_payloads
  have hcreated : step 3 ⟨[{ body := getBody }], [{ send := 0, attempt := 0 }], {}, []⟩
      (.create 0 firstWriter {} "key" true) = some _ := step_create true rfl rfl rfl hcreate
  obtain ⟨s, hready, hworker, hqueue, hevent, hnone, hfrom⟩ : ∃ s, Runs.run (step 3) {}
      [.send getBody, .create 0 firstWriter {} "key" true, .reply 0, .pipeline (.launch 0)] =
        some s ∧ s.pipeline.workers 0 = .selecting ∧ s.pipeline.queue = [0] ∧
          s.pipeline.decoded 0 = some (queuedGet firstWriter) ∧ s.pipeline.rows = [] ∧
            s.origin = [(0, 0)] := by
    rw [Runs.run_cons, step_send, Option.bind_some, Runs.run_cons, hcreated, Option.bind_some]
    exact ⟨_, rfl, rfl, rfl, hread, rfl, rfl⟩
  have hlist : answered = [.send getBody, .create 0 firstWriter {} "key" true, .reply 0,
      .pipeline (.launch 0)] ++ consumed .ok := rfl
  rw [hlist, Runs.run_append, hready, Option.bind_some]
  obtain ⟨t, hrun, -, -, -, hrows, horigin⟩ :=
    run_consumed hworker hqueue hevent (by rw [hnone]; exact hfirst) rfl
  rw [hrun, Option.map_some, State.rowsOf, hrows, hnone, horigin, hfrom]
  rfl

theorem replyLost_rows :
    (Runs.run (step 3) {} replyLost).map (fun t => (t.rowsOf 0).length) = some 2 := by
  obtain ⟨payload, payload', hread, hread', hcreate, hcreate', hfirst, hsecond⟩ := exists_payloads
  have hcreated : step 3 ⟨[{ body := getBody }], [{ send := 0, attempt := 0 }], {}, []⟩
      (.create 0 firstWriter {} "key" true) = some _ := step_create true rfl rfl rfl hcreate
  have hfails : step 3 (State.accept ⟨[{ body := getBody }], [{ send := 0, attempt := 0 }], {}, []⟩
      0 { send := 0, attempt := 0 } payload true) (.fetchFails 0) =
        some ⟨[{ body := getBody, phase := .sleeping }],
          [{ send := 0, attempt := 0, answer := some true }], .push {} payload, [(0, 0)]⟩ := by
    simp [step, State.accept, State.answer, Send.fetched, RETRY_DELAYS_MS]
  have hretried : step 3 ⟨[{ body := getBody, phase := .sleeping }],
      [{ send := 0, attempt := 0, answer := some true }], .push {} payload, [(0, 0)]⟩ (.retry 0) =
        some ⟨[{ body := getBody, attempt := 1 }],
          [{ send := 0, attempt := 0, answer := some true }, { send := 0, attempt := 1 }],
          .push {} payload, [(0, 0)]⟩ := rfl
  have hcreated' : step 3 ⟨[{ body := getBody, attempt := 1 }],
      [{ send := 0, attempt := 0, answer := some true }, { send := 0, attempt := 1 }],
      .push {} payload, [(0, 0)]⟩ (.create 1 secondWriter projectDb "key" true) = some _ :=
    step_create true rfl rfl rfl hcreate'
  obtain ⟨s, hready, hworker, hqueue, hpushed, hnone, hfrom⟩ : ∃ s, Runs.run (step 3) {}
      [.send getBody, .create 0 firstWriter {} "key" true, .fetchFails 0, .retry 0,
        .create 1 secondWriter projectDb "key" true, .reply 1, .pipeline (.launch 0)] =
        some s ∧ s.pipeline.workers 0 = .selecting ∧ s.pipeline.queue = [0, 1] ∧
          s.pipeline.pushed = [payload, payload'] ∧ s.pipeline.rows = [] ∧
            s.origin = [(0, 0), (1, 0)] := by
    rw [Runs.run_cons, step_send, Option.bind_some, Runs.run_cons, hcreated, Option.bind_some,
      Runs.run_cons, hfails, Option.bind_some, Runs.run_cons, hretried, Option.bind_some,
      Runs.run_cons, hcreated', Option.bind_some]
    exact ⟨_, rfl, rfl, rfl, rfl, rfl, rfl⟩
  have hlist : replyLost = [.send getBody, .create 0 firstWriter {} "key" true, .fetchFails 0,
      .retry 0, .create 1 secondWriter projectDb "key" true, .reply 1, .pipeline (.launch 0)] ++
        (consumed .ok ++ consumed .ok) := rfl
  rw [hlist, Runs.run_append, hready, Option.bind_some, Runs.run_append]
  have hevent : s.pipeline.decoded 0 = some (queuedGet firstWriter) := by
    rw [Worker.Pipeline.State.decoded, hpushed]
    exact hread
  obtain ⟨t, hrun, hworker', hqueue', hpushed', hrows, horigin⟩ :=
    run_consumed hworker hqueue hevent (by rw [hnone]; exact hfirst) rfl
  have hevent' : t.pipeline.decoded 1 = some (queuedGet secondWriter) := by
    rw [Worker.Pipeline.State.decoded, hpushed', hpushed]
    exact hread'
  obtain ⟨u, hrun', -, -, -, hrows', horigin'⟩ :=
    run_consumed hworker' hqueue' hevent' (by rw [hrows, hnone]; exact hsecond) rfl
  rw [hrun, Option.bind_some, hrun', Option.map_some, State.rowsOf, hrows', hrows, hnone, horigin',
    horigin, hfrom]
  rfl

theorem answered_call_stores_one_row :
    Runs.Along (step 3) (fun _ _ t => AtMostOneRow t) {} answered ∧
      ∃ t, Runs.run (step 3) {} answered = some t ∧ (t.rowsOf 0).length = 1 := by
  have hrest : ∀ a ∈ answered.drop 2, a.uuids = [] := by
    intro a ha
    simp only [answered, consumed, List.map_cons, List.map_nil, List.drop, List.cons_append,
      List.nil_append, List.mem_cons, List.not_mem_nil, or_false] at ha
    rcases ha with rfl | rfl | rfl | rfl | rfl | rfl | rfl <;> rfl
  refine ⟨at_most_one_row_of_safe 3 answered fun s hs => ⟨trivial, fun t _ => ⟨?_, ?_⟩⟩,
    Option.map_eq_some_iff.mp answered_rows⟩
  · obtain rfl := Option.some.inj hs
    intro _ _ _ _ _ _ _ _
    exact Or.inr fun _ ho => absurd ho List.not_mem_nil
  · exact meets_of_not_create hrest t

/-- Every POST has ids of its own, and the reply of the first is lost. -/
theorem retried_event_stored_twice :
    ¬∀ (maxRetries : ℤ) (as : List Label), (as.flatMap Label.uuids).Nodup →
      Runs.Along (step maxRetries) (fun _ _ t => AtMostOneRow t) {} as := by
  intro hclaim
  have huuids : (replyLost.flatMap Label.uuids).Nodup := by decide +kernel
  obtain ⟨t, ht, hrows⟩ := Option.map_eq_some_iff.mp replyLost_rows
  have hsplit : replyLost = replyLost.dropLast ++ [.pipeline (.createAudit 0 projectDb .ok)] := rfl
  rw [hsplit] at ht
  obtain ⟨s, hs, hstep⟩ := Runs.run_concat_eq_some.mp ht
  have hone := Runs.along_iff.mp (hclaim 3 replyLost huuids) replyLost.dropLast _ s t
    ⟨[], by rw [List.append_nil, ← hsplit]⟩ hs hstep 0
  omega

end BatAudit.Sdk
