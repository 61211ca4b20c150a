import BatAudit.Lib.Origins
import BatAudit.Sdk.Delivery
import BatAudit.Sdk.PatchFetch

/-!
# The requests that are left alone

The patched `fetch` and `XMLHttpRequest` do not audit a request whose URL, as it is written,
begins with the origin of `writerUrl`. `_sendWithRetry` posts every event with the patched
`fetch`, so that each POST that is audited makes another event.
-/

namespace BatAudit.Sdk.OwnTraffic

open Origins
open XHR (Browser skips someBrowser)

def patched (b : Browser) (u : Option Origin) : Browser :=
  { b with writerOrigin := String.ofList (originText u) }

/-- `patchFetch` and `patchXHR` throw when `writerUrl` is no URL. -/
def patch (p : Platform) (b : Browser) (writerUrl : Text) : Option Browser :=
  (parse p .nothing writerUrl).map (patched b)

/-- An origin without a text is the same as no other. -/
def SameOrigin (p : Platform) (page : Base) (writerUrl url : Text) : Prop :=
  ∃ o, parse p .nothing writerUrl = some (some o) ∧ parse p page url = some (some o)

/-- The origin of `writerUrl`, as it is compared. -/
def writerOrigin (b : Browser) : Text := b.writerOrigin.toList

theorem skips_iff {b : Browser} {url : Text} :
    skips b (String.ofList url) = true ↔ writerOrigin b <+: url := by
  simp [skips, writerOrigin, List.isPrefixOf_iff_prefix]

/-! ## The calls that are skipped -/

section

variable {p : Platform} {b b' : Browser} {page : Base} {writerUrl : Text}

theorem patch_eq_some (h : patch p b writerUrl = some b') :
    ∃ u, parse p .nothing writerUrl = some u ∧ writerOrigin b' = originText u := by
  obtain ⟨u, hu, rfl⟩ := Option.map_eq_some_iff.mp h
  exact ⟨u, hu, String.toList_ofList⟩

/-- A URL that begins with the origin of `writerUrl` goes on in a way that leaves host and
port as they are, and every other URL gives another origin: it is neither a path on a page of
that origin, nor written with other letters, blanks, slashes, credentials or digits. -/
def ToldApart (p : Platform) (page : Base) (writerUrl url : Text) : Prop :=
  match parse p .nothing writerUrl with
  | some (some o) =>
    if o.text <+: url then Continues p o (authorityPart (cleanEnd (url.drop o.text.length)))
    else ¬ Reaches p page o url
  | _ => ¬ originText none <+: url

theorem toldApart_iff {u : Option Origin} (hu : parse p .nothing writerUrl = some u) (url : Text) :
    (originText u <+: url ↔ SameOrigin p page writerUrl url) ↔ ToldApart p page writerUrl url := by
  unfold ToldApart SameOrigin
  rw [hu]
  cases u with
  | none => simp
  | some o =>
    have hsame : (∃ o', some (some o) = some (some o') ∧ parse p page url = some (some o')) ↔
        parse p page url = some (some o) := by
      constructor
      · rintro ⟨o', heq, hurl⟩
        cases heq
        exact hurl
      · exact fun hurl => ⟨o, rfl, hurl⟩
    rw [hsame]
    by_cases hprefix : o.text <+: url
    · obtain ⟨t, rfl⟩ := hprefix
      have hhost := parseHost_of_parse hu
      simp [originText, parse_text_append hhost]
    · simp [originText, hprefix, parse_eq_some_iff]

/-- A URL that is written as its own origin and a path is told apart from the writer unless
its host or port goes on where that of the writer ends. -/
theorem toldApart_text_append_iff {o o' : Origin} {t : Text}
    (hwriter : parse p .nothing writerUrl = some (some o))
    (hhost : p.parseHost o'.host.text = some o'.host)
    (ht : ∀ c, t.head? = some c → endsAuthority c = true) :
    ToldApart p page writerUrl (o'.text ++ t) ↔
      o' = o ∨ ¬ (o.scheme = o'.scheme ∧ o.authority <+: o'.authority) := by
  have hsame : SameOrigin p page writerUrl (o'.text ++ t) ↔ o' = o := by
    simp [SameOrigin, hwriter, parse_text hhost ht, eq_comm]
  have hprefix : originText (some o) <+: o'.text ++ t ↔
      o.scheme = o'.scheme ∧ o.authority <+: o'.authority :=
    (text_prefix_append_iff ht).trans Origin.text_prefix_iff
  have hown : o' = o → o.scheme = o'.scheme ∧ o.authority <+: o'.authority := by
    rintro rfl
    exact ⟨rfl, List.prefix_refl _⟩
  rw [← toldApart_iff hwriter, hsame, hprefix]
  tauto

/-- On a page of the writer every path is audited. -/
theorem not_toldApart_of_base {o : Origin} {url : Text}
    (hwriter : parse p .nothing writerUrl = some (some o))
    (href : reference p page url = .base o) : ¬ ToldApart p page writerUrl url := by
  have hparse : parse p page url = some (some o) := parse_eq_some_iff.mpr (by simp [Reaches, href])
  rw [← toldApart_iff hwriter]
  intro h
  obtain ⟨t, rfl⟩ := h.mpr ⟨o, hwriter, hparse⟩
  rw [originText, reference_text_append] at href
  cases href

end

/-! ## The requests of a page -/

structure Call where
  url : Text
  xhr : Bool
deriving DecidableEq, Repr

/-- `made` are the requests so far. Events are `reported` of calls of the application and
`own` of POSTs. -/
structure State where
  calls : List Call := []
  sends : List Send := []
  applications : ℕ := 0
  made : ℕ := 0
  reported : ℕ := 0
  own : ℕ := 0
deriving DecidableEq

/-- Calls end with the bodies of their events. -/
inductive Label
  | call (c : Call)
  | ended (i : ℕ) (events : List Json.Text)
  | fetched (k : ℕ) (ok : Bool) (events : List Json.Text)
  | retry (k : ℕ)

/-- `client.send` of each event, which posts it. -/
def State.send (s : State) (events : List Json.Text) : State :=
  { s with
    sends := s.sends ++ events.map fun body => { body := body }
    made := s.made + events.length }

/-- What a patched `fetch` reports: nothing also when it throws before the request. -/
def fetchReports (b : Browser) (url : Text) (events : List Json.Text) : Bool :=
  events.length ≤ if skips b (String.ofList url) then 0 else 1

/-- An `XMLHttpRequest` reports as often as its object has listeners. -/
def Call.reports (b : Browser) (c : Call) (events : List Json.Text) : Bool :=
  c.xhr || fetchReports b c.url events

def postUrl (writerUrl : Text) : Text := writerUrl ++ "/v1/audit".toList

def step (b : Browser) (writerUrl : Text) (s : State) : Label → Option State
  | .call c =>
    some { s with
      calls := s.calls ++ [c]
      applications := s.applications + 1
      made := s.made + 1 }
  | .ended i events => do
    let c ← s.calls[i]?
    if c.reports b events then
      let s := { s with calls := s.calls.eraseIdx i, reported := s.reported + events.length }
      some (s.send events)
    else none
  | .fetched k ok events => do
    let send ← s.sends[k]?
    if send.phase = .fetching ∧ fetchReports b (postUrl writerUrl) events then
      let s := { s with
        sends := s.sends.set k (send.fetched ok)
        own := s.own + events.length }
      some (s.send events)
    else none
  | .retry k => do
    let send ← s.sends[k]?
    if send.phase = .sleeping then
      some { s with
        sends := s.sends.set k { send with attempt := send.attempt + 1, phase := .fetching }
        made := s.made + 1 }
    else none

/-- What a step does. -/
inductive Taken (b : Browser) (writerUrl : Text) (s : State) : Label → State → Prop
  | call (c : Call) :
    Taken b writerUrl s (.call c) { s with
      calls := s.calls ++ [c], applications := s.applications + 1, made := s.made + 1 }
  | ended (i : ℕ) (events : List Json.Text) (c : Call) (hc : s.calls[i]? = some c)
      (hreports : c.reports b events = true) :
    Taken b writerUrl s (.ended i events)
      ({ s with
        calls := s.calls.eraseIdx i, reported := s.reported + events.length }.send events)
  | fetched (k : ℕ) (ok : Bool) (events : List Json.Text) (send : Send)
      (hsend : s.sends[k]? = some send) (hphase : send.phase = .fetching)
      (hreports : fetchReports b (postUrl writerUrl) events = true) :
    Taken b writerUrl s (.fetched k ok events)
      ({ s with
        sends := s.sends.set k (send.fetched ok), own := s.own + events.length }.send events)
  | retry (k : ℕ) (send : Send) (hsend : s.sends[k]? = some send)
      (hphase : send.phase = .sleeping) :
    Taken b writerUrl s (.retry k) { s with
      sends := s.sends.set k { send with attempt := send.attempt + 1, phase := .fetching }
      made := s.made + 1 }

theorem taken_of_step {b : Browser} {writerUrl : Text} {s t : State} {a : Label}
    (h : step b writerUrl s a = some t) : Taken b writerUrl s a t := by
  cases a with
  | call c =>
    cases h
    exact .call c
  | ended i events =>
    obtain ⟨c, hc, h⟩ := Option.bind_eq_some_iff.mp h
    split at h
    · rename_i hreports
      cases h
      exact .ended i events c hc hreports
    · cases h
  | fetched k ok events =>
    obtain ⟨send, hsend, h⟩ := Option.bind_eq_some_iff.mp h
    split at h
    · rename_i hreports
      cases h
      exact .fetched k ok events send hsend hreports.1 hreports.2
    · cases h
  | retry k =>
    obtain ⟨send, hsend, h⟩ := Option.bind_eq_some_iff.mp h
    split at h
    · rename_i hphase
      cases h
      exact .retry k send hsend hphase
    · cases h

section

variable {β σ μ ρ ε : Type} {b : Browser}

/-- What `batAuditFetch` reports is taken by the runs, however the events are written. -/
theorem fetchReports_batAuditFetch (P : Fetch.Platform β σ μ)
    (net : PatchFetch.Network β σ ρ ε) (k : PatchFetch.Crypto) (c : PatchFetch.Call β σ μ)
    (startTime now : ℤ) (stringify : XHR.Event → Json.Text) :
    fetchReports b c.url
      ((PatchFetch.batAuditFetch b P net k c startTime now).2.map stringify) = true := by
  rw [fetchReports, decide_eq_true_eq, List.length_map, PatchFetch.batAuditFetch]
  split
  · exact Nat.zero_le _
  · cases hid : PatchFetch.requestId k c with
    | none => exact Nat.zero_le _
    | some id =>
      cases hnew : PatchFetch.rebuiltHeaders id c with
      | none => simp [hnew]
      | some hs => simp [hnew]

/-- The request of an object that is opened and sent has an id unless it is skipped. -/
theorem send_openRequest (x : XHR.Object) (method url : String) (time : ℤ) (id : String) :
    ((x.openRequest b method url true).send time (some id)).inFlight =
      some ⟨method, url, if skips b url then none else some id⟩ := by
  unfold XHR.Object.openRequest XHR.Object.send
  cases skips b url <;> rfl

end

/-- No POST makes an event. -/
def NoneOwn (b : Browser) (writerUrl : Text) : Prop :=
  ∀ as s, Runs.run (step b writerUrl) {} as = some s → s.own = 0

/-- The requests are bounded by those of the application and their events. -/
def FinitelyMany (b : Browser) (writerUrl : Text) : Prop :=
  ∃ bound : ℕ → ℕ → ℕ, ∀ as s, Runs.run (step b writerUrl) {} as = some s →
    s.made ≤ bound s.applications s.reported

/-! ### At most four POSTs for an event -/

/-- The POSTs that a call of `client.send` may still make. -/
def remaining (send : Send) : ℕ :=
  match send.phase with
  | .settled => 0
  | _ => RETRY_DELAYS_MS.length - send.attempt

theorem sum_map_set {α : Type} (f : α → ℕ) {l : List α} {k : ℕ} {x : α} (h : l[k]? = some x)
    (y : α) : ((l.set k y).map f).sum + f x = (l.map f).sum + f y := by
  induction l generalizing k with
  | nil => cases h
  | cons z l ih =>
    cases k with
    | zero =>
      cases h
      simp only [List.set_cons_zero, List.map_cons, List.sum_cons]
      omega
    | succ k =>
      have hrest := ih h
      simp only [List.set_cons_succ, List.map_cons, List.sum_cons]
      omega

structure Inv (s : State) : Prop where
  sleeping : ∀ send ∈ s.sends, send.phase = .sleeping → send.attempt < RETRY_DELAYS_MS.length
  made : s.made + (s.sends.map remaining).sum ≤ s.applications + 4 * (s.reported + s.own)

section

variable {b : Browser} {writerUrl : Text} {s t : State}

theorem Inv.send (h : Inv s) (events : List Json.Text) (n m : ℕ) (hnm : n + m = events.length) :
    Inv ({ s with reported := s.reported + n, own := s.own + m }.send events) := by
  have hfresh : ((events.map fun body => ({ body := body } : Send)).map remaining).sum =
      3 * events.length := by
    simp [Function.comp_def, remaining, RETRY_DELAYS_MS, Nat.mul_comm]
  constructor
  · refine List.forall_mem_append.mpr ⟨h.sleeping, fun send hsend hphase => ?_⟩
    obtain ⟨body, -, rfl⟩ := List.mem_map.mp hsend
    cases hphase
  · have hmade := h.made
    simp only [State.send, List.map_append, List.sum_append, hfresh]
    omega

theorem Inv.set (h : Inv s) {k : ℕ} {send send' : Send} (hsend : s.sends[k]? = some send)
    (made : ℕ) (hle : made + remaining send' ≤ remaining send)
    (hsleeping : send'.phase = .sleeping → send'.attempt < RETRY_DELAYS_MS.length) :
    Inv { s with sends := s.sends.set k send', made := s.made + made } := by
  constructor
  · intro x hx hphase
    rcases List.mem_or_eq_of_mem_set hx with hx | rfl
    · exact h.sleeping x hx hphase
    · exact hsleeping hphase
  · have hmade := h.made
    have hsum := sum_map_set remaining hsend send'
    simp only
    omega

theorem remaining_fetched_le (send : Send) (ok : Bool) :
    remaining (send.fetched ok) ≤ RETRY_DELAYS_MS.length - send.attempt := by
  unfold Send.fetched remaining
  split <;> simp

theorem attempt_lt_of_fetched {send : Send} {ok : Bool}
    (h : (send.fetched ok).phase = .sleeping) :
    (send.fetched ok).attempt < RETRY_DELAYS_MS.length := by
  unfold Send.fetched at h ⊢
  dsimp only at h ⊢
  split at h
  · rename_i hretry
    rw [Bool.and_eq_true, decide_eq_true_eq] at hretry
    exact hretry.2
  · cases h

theorem inv_step {a : Label} (h : Inv s) (hstep : step b writerUrl s a = some t) : Inv t := by
  cases taken_of_step hstep with
  | call c =>
    refine ⟨h.sleeping, ?_⟩
    have hmade := h.made
    simp only
    omega
  | ended i events c hc hreports =>
    have hcalls : Inv { s with calls := s.calls.eraseIdx i } := ⟨h.sleeping, h.made⟩
    exact hcalls.send events events.length 0 rfl
  | fetched k ok events send hsend hphase hreports =>
    have hremaining : remaining send = RETRY_DELAYS_MS.length - send.attempt := by
      simp [remaining, hphase]
    have hset : Inv { s with sends := s.sends.set k (send.fetched ok) } := by
      have hle := remaining_fetched_le send ok
      exact h.set hsend 0 (by omega) attempt_lt_of_fetched
    exact hset.send events 0 events.length (Nat.zero_add _)
  | retry k send hsend hphase =>
    have hattempt := h.sleeping send (List.mem_of_getElem? hsend) hphase
    refine h.set hsend 1 ?_ nofun
    simp only [remaining, hphase]
    omega

theorem made_le {as : List Label} (hr : Runs.run (step b writerUrl) {} as = some s) :
    s.made ≤ s.applications + 4 * (s.reported + s.own) := by
  have hinv : Inv s :=
    Runs.run_invariant (fun _ _ _ h hstep => inv_step h hstep)
      ⟨fun _ hsend => absurd hsend List.not_mem_nil, Nat.le_refl _⟩ hr
  exact (Nat.le_add_right ..).trans hinv.made

/-! ### POSTs that make events -/

theorem own_eq_zero_step (hskip : skips b (String.ofList (postUrl writerUrl)) = true) {a : Label}
    (h : s.own = 0) (hstep : step b writerUrl s a = some t) : t.own = 0 := by
  cases taken_of_step hstep with
  | fetched k ok events send hsend hphase hreports =>
    have hnone : events.length = 0 := by simpa [fetchReports, hskip] using hreports
    simp [State.send, h, hnone]
  | _ => exact h

theorem noneOwn_of_skips (hskip : skips b (String.ofList (postUrl writerUrl)) = true) :
    NoneOwn b writerUrl := fun _ _ hr =>
  Runs.run_invariant (I := fun s => s.own = 0) (fun _ _ _ h hstep => own_eq_zero_step hskip h hstep)
    rfl hr

theorem finitelyMany_of_skips (hskip : skips b (String.ofList (postUrl writerUrl)) = true) :
    FinitelyMany b writerUrl := by
  refine ⟨fun applications reported => applications + 4 * reported, fun as s hr => ?_⟩
  have hmade := made_le hr
  have hown := noneOwn_of_skips hskip as s hr
  dsimp only
  omega

/-- One call of `fetch`, and every POST answered: each POST makes the next. -/
def spawn (n : ℕ) : List Label :=
  [.call ⟨[], false⟩, .ended 0 [[]]] ++ (List.range n).map fun k => .fetched k true [[]]

theorem run_spawn (hempty : skips b (String.ofList []) = false)
    (hpost : skips b (String.ofList (postUrl writerUrl)) = false) (n : ℕ) :
    ∃ s, Runs.run (step b writerUrl) {} (spawn n) = some s ∧ s.applications = 1 ∧ s.reported = 1 ∧
      s.own = n ∧ s.made = n + 2 ∧ s.sends.length = n + 1 ∧
      s.sends[n]? = some { body := [] } := by
  induction n with
  | zero =>
    have hrun : Runs.run (step b writerUrl) {} (spawn 0) =
        some { sends := [{ body := [] }], applications := 1, made := 2, reported := 1 } := by
      simp [spawn, step, Call.reports, fetchReports, hempty, State.send]
    exact ⟨_, hrun, rfl, rfl, rfl, rfl, rfl, rfl⟩
  | succ n ih =>
    obtain ⟨s, hr, happ, hrep, hown, hmade, hlength, hsend⟩ := ih
    have hspawn : spawn (n + 1) = spawn n ++ [.fetched n true [[]]] := by
      simp [spawn, List.range_succ]
    have hstep : step b writerUrl s (.fetched n true [[]]) =
        some { s with
          sends := s.sends.set n (Send.fetched { body := [] } true) ++ [{ body := [] }]
          made := s.made + 1
          own := s.own + 1 } := by
      simp [step, hsend, fetchReports, hpost, State.send]
    have hrun := Runs.run_concat_eq_some.mpr ⟨s, hr, hstep⟩
    rw [← hspawn] at hrun
    refine ⟨_, hrun, happ, hrep, ?_, ?_, ?_, ?_⟩
    · simp [hown]
    · simp [hmade]
    · simp [hlength]
    · simp [hlength]

theorem noneOwn_iff (hempty : skips b (String.ofList []) = false) :
    NoneOwn b writerUrl ↔ skips b (String.ofList (postUrl writerUrl)) = true := by
  refine ⟨fun h => ?_, noneOwn_of_skips⟩
  by_contra hpost
  obtain ⟨s, hr, -, -, hown, -⟩ := run_spawn hempty (eq_false_of_ne_true hpost) 1
  rw [h _ s hr] at hown
  cases hown

theorem finitelyMany_iff (hempty : skips b (String.ofList []) = false) :
    FinitelyMany b writerUrl ↔ skips b (String.ofList (postUrl writerUrl)) = true := by
  refine ⟨fun ⟨bound, h⟩ => ?_, finitelyMany_of_skips⟩
  by_contra hpost
  obtain ⟨s, hr, happ, hrep, -, hmade, -⟩ :=
    run_spawn hempty (eq_false_of_ne_true hpost) (bound 1 1)
  have hle := h _ s hr
  rw [happ, hrep] at hle
  omega

end

/-! ## What is left alone -/

section

variable {p : Platform} {b b' : Browser} {writerUrl : Text}

theorem skips_postUrl_iff (h : patch p b writerUrl = some b') :
    skips b' (String.ofList (postUrl writerUrl)) = true ↔ writerOrigin b' <+: writerUrl := by
  obtain ⟨u, hu, horigin⟩ := patch_eq_some h
  rw [skips_iff, horigin, postUrl]
  exact originText_prefix_append_iff hu "v1/audit".toList

theorem skips_empty (h : patch p b writerUrl = some b') :
    skips b' (String.ofList []) = false := by
  obtain ⟨u, hu, horigin⟩ := patch_eq_some h
  have hne : originText u ≠ [] := by
    cases u with
    | none => exact nofun
    | some o => simp [originText, Origin.text]
  refine eq_false_of_ne_true fun hskip => hne ?_
  rw [skips_iff, horigin] at hskip
  exact List.prefix_nil.mp hskip

/-- A request is left alone exactly when it is one to the origin of `writerUrl` just for the
URLs that are told apart, and no POST makes an event, so that the requests are finitely many,
just when `writerUrl` itself begins with its origin. -/
theorem own_traffic_iff (h : patch p b writerUrl = some b') (page : Base) :
    (∀ url, (skips b' (String.ofList url) = true ↔ SameOrigin p page writerUrl url) ↔
        ToldApart p page writerUrl url) ∧
      (NoneOwn b' writerUrl ↔ writerOrigin b' <+: writerUrl) ∧
      (FinitelyMany b' writerUrl ↔ writerOrigin b' <+: writerUrl) := by
  refine ⟨fun url => ?_, ?_, ?_⟩
  · obtain ⟨u, hu, horigin⟩ := patch_eq_some h
    rw [skips_iff, horigin]
    exact toldApart_iff hu url
  · exact (noneOwn_iff (skips_empty h)).trans (skips_postUrl_iff h)
  · exact (finitelyMany_iff (skips_empty h)).trans (skips_postUrl_iff h)

end

/-! ## A writer in upper case -/

/-- Hosts of letters and dots. -/
def plainHost (t : Text) : Option Host :=
  let t := Fetch.lower t
  if h : (t ≠ [] ∧ t.all isDomainChar = true) ∧ t.all (fun c => 'a' ≤ c && c ≤ 'z' || c = '.') then
    some ⟨t, Or.inl h.1⟩
  else none

def plainPlatform : Platform where
  parseHost := plainHost
  others _ := some none
  relatives _ := none
  parseHost_text t h ht := by
    unfold plainHost at ht ⊢
    dsimp only at ht ⊢
    split at ht
    · rename_i hlower
      cases ht
      simp only [Fetch.lower_lower]
      rw [dif_pos hlower]
    · cases ht
  parseHost_others _ _ h := by cases h

def theOrigin : Origin :=
  ⟨.http, ⟨['w', 'r', 'i', 't', 'e', 'r'], Or.inl ⟨by decide, by decide⟩⟩, none, rfl⟩

def upperCase : Text := "http://Writer".toList

theorem parse_upperCase : parse plainPlatform .nothing upperCase = some (some theOrigin) :=
  rfl

def otherHost : Text := "http://writer.evil.com/x".toList

/-- Every POST is audited, and a request to another host is not. -/
theorem upper_case_writer_audits_itself :
    ∃ b, patch plainPlatform someBrowser upperCase = some b ∧
      ¬ (skips b (String.ofList (postUrl upperCase)) = true ↔
        SameOrigin plainPlatform .nothing upperCase (postUrl upperCase)) ∧
      ¬ NoneOwn b upperCase ∧ ¬ FinitelyMany b upperCase ∧
      ¬ (skips b (String.ofList otherHost) = true ↔
        SameOrigin plainPlatform .nothing upperCase otherHost) := by
  have hpatch : patch plainPlatform someBrowser upperCase =
      some (patched someBrowser (some theOrigin)) := by
    rw [patch, parse_upperCase]
    rfl
  have hempty := skips_empty hpatch
  have hpost : skips (patched someBrowser (some theOrigin)) (String.ofList (postUrl upperCase)) =
      false := rfl
  have hsame : SameOrigin plainPlatform .nothing upperCase (postUrl upperCase) :=
    ⟨theOrigin, parse_upperCase, rfl⟩
  have hother : skips (patched someBrowser (some theOrigin)) (String.ofList otherHost) = true :=
    rfl
  have hdifferent : parse plainPlatform .nothing otherHost ≠ some (some theOrigin) := by
    decide +kernel
  refine ⟨_, hpatch, fun h => ?_, fun h => ?_, fun h => ?_, fun h => ?_⟩
  · rw [hpost] at h
    cases h.mpr hsame
  · rw [noneOwn_iff hempty, hpost] at h
    cases h
  · rw [finitelyMany_iff hempty, hpost] at h
    cases h
  · obtain ⟨o, ho, hparse⟩ := h.mp hother
    rw [parse_upperCase] at ho
    cases ho
    exact hdifferent hparse

/-- In lower case the same writer is left alone. -/
theorem lower_case_writer :
    ∃ b, patch plainPlatform someBrowser "http://writer".toList = some b ∧
      NoneOwn b "http://writer".toList ∧ FinitelyMany b "http://writer".toList := by
  have hparse : parse plainPlatform .nothing "http://writer".toList = some (some theOrigin) :=
    rfl
  have hpatch : patch plainPlatform someBrowser "http://writer".toList =
      some (patched someBrowser (some theOrigin)) := by
    rw [patch, hparse]
    rfl
  have hprefix : writerOrigin (patched someBrowser (some theOrigin)) <+: "http://writer".toList :=
    List.prefix_rfl
  obtain ⟨-, hnone, hfinite⟩ := own_traffic_iff hpatch .nothing
  exact ⟨_, hpatch, hnone.mpr hprefix, hfinite.mpr hprefix⟩

end BatAudit.Sdk.OwnTraffic
