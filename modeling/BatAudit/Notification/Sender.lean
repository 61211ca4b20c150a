import BatAudit.Audit.Sanitizer
import BatAudit.Lib.Calendar

/-!
# Webhooks

`sendWebhook` posts an alert up to three times, with pauses that are left out here. It keeps the
error, the code and the body of the latest attempt in three variables; an attempt that does not
connect sets the first two of them.
-/

namespace BatAudit.Notification

open Json (StrLit Text Token)

/-- A body as it is read from the network. -/
abbrev Bytes := List UInt8

structure Channel where
  config : Text

structure WebhookConfig where
  url : String := ""
  secret : String := ""
deriving DecidableEq, Repr

structure AlertPayload where
  projectId : String
  serviceName : String
  ruleType : String
  timestamp : ℤ
  details : GoValue

structure Request where
  method : String
  url : String
  headers : List (String × String)
  body : Text
deriving DecidableEq

/-- What `httpClient.Do` comes to. -/
inductive Outcome
  | unreachable (err : String)
  | response (code : ℤ) (body : Bytes)
deriving DecidableEq, Repr

inductive SendError
  | invalidConfig
  | newRequest (err : String)
  | unreachable (err : String)
  | status (code : ℤ)
deriving DecidableEq, Repr

/-- The variables `lastErr`, `lastCode` and `lastBody`, and what is returned. -/
structure Last where
  err : Option SendError := none
  code : ℤ := 0
  body : Bytes := []
deriving DecidableEq, Repr

/-- The requests that were made, and what is returned. -/
structure Sent where
  requests : List Request
  result : Last
deriving DecidableEq

/-- The error of `http.NewRequestWithContext` for a URL, if there is one, and the digits of
HMAC-SHA256. -/
structure Net where
  requestError : String → Option String
  signature : String → Text → String

/-! ## The request -/

def decodeMember (cfg : WebhookConfig) (m : StrLit × List Token) : Option WebhookConfig :=
  let key := (Json.unquote m.1).map GoText.foldRune
  if key = ['U', 'R', 'L'] then (readString m.2 cfg.url).map fun url => { cfg with url }
  else if key = ['S', 'E', 'C', 'R', 'E', 'T'] then
    (readString m.2 cfg.secret).map fun secret => { cfg with secret }
  else some cfg

/-- `json.Unmarshal` into an empty `WebhookConfig`. -/
def unmarshalConfig (s : Text) : Option WebhookConfig := do
  let ts ← Json.lex s
  let t ← Json.parseTokens (Json.squeeze ts)
  if t.depth ≤ Json.maxNesting then
    match t with
    | .obj _ => (Json.rawMembers ts).foldlM decodeMember {}
    | .word .null => some {}
    | _ => none
  else none

def appendYear (year : ℤ) : List Char :=
  (if year < 0 then ['-'] else []) ++
    if year.natAbs < 10 ^ 4 then GoTime.pad 4 year.natAbs else Nat.toDigits 10 year.natAbs

/-- `UTC().Format(time.RFC3339)`. -/
def formatRFC3339 (t : ℤ) : List Char :=
  let date := Calendar.dateOf t
  let clock := Calendar.clockOf t
  appendYear date.year ++ '-' :: (GoTime.pad 2 date.month ++ '-' :: (GoTime.pad 2 date.day ++
    'T' :: (GoTime.pad 2 clock.hour.toNat ++ ':' :: (GoTime.pad 2 clock.minute.toNat ++
      ':' :: (GoTime.pad 2 clock.second.toNat ++ ['Z'])))))

def AlertPayload.body (payload : AlertPayload) : Text :=
  let text (s : String) : GoValue := .str s.toList
  (GoValue.obj [("event_type".toList, text "system.alert"),
    ("project_id".toList, text payload.projectId),
    ("service_name".toList, text payload.serviceName),
    ("rule_type".toList, text payload.ruleType),
    ("message".toList,
      text ("Anomaly detected: " ++ payload.ruleType ++ " in service " ++ payload.serviceName)),
    ("timestamp".toList, .str (formatRFC3339 payload.timestamp)),
    ("details".toList, payload.details)]).marshal

def Net.newRequest (net : Net) (cfg : WebhookConfig) (body : Text) : Except String Request :=
  match net.requestError cfg.url with
  | some err => .error err
  | none => .ok
      { method := "POST"
        url := cfg.url
        headers := [("Content-Type", "application/json"), ("User-Agent", "BatAudit/1.0")] ++
          if cfg.secret ≠ "" then
            [("X-BatAudit-Signature", "sha256=" ++ net.signature cfg.secret body)] else []
        body }

/-! ## The attempts -/

def attempts (newRequest : Except String Request) : List Outcome → Last → Sent
  | [], last => ⟨[], last⟩
  | outcome :: rest, last =>
    match newRequest with
    | .error err => ⟨[], ⟨some (.newRequest err), 0, []⟩⟩
    | .ok request =>
      match outcome with
      | .unreachable err =>
        let sent := attempts newRequest rest { last with err := some (.unreachable err), code := 0 }
        { sent with requests := request :: sent.requests }
      | .response code body =>
        if code < 400 then ⟨[request], ⟨none, code, body⟩⟩
        else if code < 500 then ⟨[request], ⟨some (.status code), code, body⟩⟩
        else
          let sent := attempts newRequest rest ⟨some (.status code), code, body⟩
          { sent with requests := request :: sent.requests }

def Net.sendWebhook (net : Net) (ch : Channel) (payload : AlertPayload) (outcome : ℕ → Outcome) :
    Sent :=
  match unmarshalConfig ch.config with
  | none => ⟨[], ⟨some .invalidConfig, 0, []⟩⟩
  | some cfg =>
    attempts (net.newRequest cfg payload.body) ((List.range 3).map outcome) {}

/-! ## What is returned -/

/-- A connection failure, or a status of 500 or more. -/
def Outcome.isRetried : Outcome → Bool
  | .unreachable _ => true
  | .response code _ => 500 ≤ code

/-- The body that the variable has after the attempt. -/
def Outcome.bodyAfter (body : Bytes) : Outcome → Bytes
  | .unreachable _ => body
  | .response _ body => body

/-- What the attempt leaves in the variables. -/
def Outcome.leaves (body : Bytes) : Outcome → Last
  | .unreachable err => ⟨some (.unreachable err), 0, body⟩
  | .response code body => ⟨if code < 400 then none else some (.status code), code, body⟩

theorem body_leaves (body : Bytes) (o : Outcome) : (o.leaves body).body = o.bodyAfter body := by
  cases o <;> rfl

/-- One attempt: whatever comes of it, the variables hold what it leaves. -/
theorem attempts_cons (request : Request) (o : Outcome) (rest : List Outcome) (last : Last) :
    attempts (.ok request) (o :: rest) last =
      if o.isRetried then
        ⟨request :: (attempts (.ok request) rest (o.leaves last.body)).requests,
          (attempts (.ok request) rest (o.leaves last.body)).result⟩
      else ⟨[request], o.leaves last.body⟩ := by
  cases o with
  | unreachable err => rfl
  | response code body =>
    simp only [attempts, Outcome.isRetried, Outcome.leaves, decide_eq_true_eq]
    by_cases hok : code < 400
    · rw [if_pos hok, if_pos hok, if_neg (by omega)]
    · by_cases hclient : code < 500
      · rw [if_neg hok, if_neg hok, if_pos hclient, if_neg (by omega)]
      · rw [if_neg hok, if_neg hok, if_neg hclient, if_pos (by omega)]

/-- All but the last of the attempts made are such that another one follows, and the last one
is not, unless there is none left. -/
theorem attempts_spec (request : Request) {outcomes : List Outcome} (hne : outcomes ≠ [])
    (last : Last) :
    ∃ front o back, outcomes = front ++ o :: back ∧ (∀ x ∈ front, x.isRetried = true) ∧
      (o.isRetried = true → back = []) ∧
      attempts (.ok request) outcomes last = ⟨List.replicate (front.length + 1) request,
        o.leaves (front.foldl Outcome.bodyAfter last.body)⟩ := by
  induction outcomes generalizing last with
  | nil => exact absurd rfl hne
  | cons o rest ih =>
    rw [attempts_cons]
    by_cases hretried : o.isRetried = true
    · rw [if_pos hretried]
      by_cases hrest : rest = []
      · subst hrest
        exact ⟨[], o, [], rfl, List.forall_mem_nil _, fun _ => rfl, rfl⟩
      · obtain ⟨front, o', back, rfl, hfront, hlast, hsent⟩ := ih hrest (o.leaves last.body)
        refine ⟨o :: front, o', back, rfl, List.forall_mem_cons.mpr ⟨hretried, hfront⟩, hlast, ?_⟩
        rw [hsent, body_leaves]
        rfl
    · rw [if_neg hretried]
      exact ⟨[], o, rest, rfl, List.forall_mem_nil _, fun h => absurd h hretried, rfl⟩

/-! ## One attempt or several -/

/-- No more than three requests, none repeated without need, and what is returned is what the
last attempt alone would leave. -/
structure OneAttempt (outcome : ℕ → Outcome) (sent : Sent) : Prop where
  few : sent.requests.length ≤ 3
  repeated : ∀ i, i + 1 < sent.requests.length → (outcome i).isRetried = true
  last : ∀ i, i + 1 = sent.requests.length → sent.result = (outcome i).leaves []

/-- Two attempts are followed by another, which does not connect, and one of them got a body. -/
def LeftOver (outcome : ℕ → Outcome) : Prop :=
  (outcome 0).isRetried = true ∧ (outcome 1).isRetried = true ∧
    (∃ err, outcome 2 = .unreachable err) ∧
    (outcome 1).bodyAfter ((outcome 0).bodyAfter []) ≠ []

theorem leaves_eq_iff {o : Outcome} {body : Bytes} :
    o.leaves body = o.leaves [] ↔ ((∃ err, o = .unreachable err) → body = []) := by
  cases o with
  | unreachable err => simp [Outcome.leaves]
  | response code body' => simp [Outcome.leaves]

/-- What is left to show of a run with `k` attempts before the last. -/
theorem oneAttempt_replicate {outcome : ℕ → Outcome} {k : ℕ} (hk : k ≤ 2)
    (hretried : ∀ i < k, (outcome i).isRetried = true) (request : Request) (result : Last) :
    OneAttempt outcome ⟨List.replicate (k + 1) request, result⟩ ↔
      result = (outcome k).leaves [] := by
  constructor
  · intro h
    exact h.last k (List.length_replicate ..).symm
  · intro h
    refine ⟨?_, fun i hi => ?_, fun i hi => ?_⟩
    · rw [List.length_replicate]
      omega
    · rw [List.length_replicate] at hi
      exact hretried i (by omega)
    · rw [List.length_replicate] at hi
      obtain rfl : i = k := by omega
      exact h

theorem attempts_oneAttempt_iff (request : Request) (outcome : ℕ → Outcome) :
    OneAttempt outcome (attempts (.ok request) ((List.range 3).map outcome) {}) ↔
      ¬LeftOver outcome := by
  obtain ⟨front, o, back, houtcomes, hfront, hlast, hsent⟩ :=
    attempts_spec request (show (List.range 3).map outcome ≠ [] by simp) {}
  have hthree : (List.range 3).map outcome = [outcome 0, outcome 1, outcome 2] := rfl
  rw [hsent]
  rw [hthree] at houtcomes
  -- One, two or three attempts were made.
  rcases front with _ | ⟨o0, _ | ⟨o1, _ | ⟨o2, front⟩⟩⟩
  · obtain ⟨rfl, rfl⟩ := List.cons.inj houtcomes
    refine iff_of_true ((oneAttempt_replicate (by simp) (by simp) request _).mpr rfl) fun h => ?_
    exact absurd (hlast h.1) (List.cons_ne_nil _ _)
  · simp only [List.cons_append, List.nil_append, List.cons.injEq] at houtcomes
    obtain ⟨rfl, rfl, rfl⟩ := houtcomes
    have hstopped : (outcome 1).isRetried = false := by
      by_contra h
      exact absurd (hlast ((Bool.not_eq_false _).mp h)) (List.cons_ne_nil _ _)
    have hreached : ¬∃ err, outcome 1 = .unreachable err := by
      rintro ⟨err, herr⟩
      rw [herr] at hstopped
      cases hstopped
    refine iff_of_true ((oneAttempt_replicate (by simp) ?_ request _).mpr ?_) fun h => ?_
    · simpa using hfront
    · exact leaves_eq_iff.mpr fun h => absurd h hreached
    · exact Bool.false_ne_true (hstopped.symm.trans h.2.1)
  · simp only [List.cons_append, List.nil_append, List.cons.injEq] at houtcomes
    obtain ⟨rfl, rfl, rfl, rfl⟩ := houtcomes
    obtain ⟨h0, h1, -⟩ : (outcome 0).isRetried = true ∧ (outcome 1).isRetried = true ∧ True := by
      simpa using hfront
    have hretried : ∀ i < 2, (outcome i).isRetried = true := by
      intro i hi
      interval_cases i
      · exact h0
      · exact h1
    refine (oneAttempt_replicate (Nat.le_refl 2) hretried request _).trans ?_
    refine leaves_eq_iff.trans ?_
    simp [LeftOver, h0, h1]
  · simp at houtcomes

/-- The configuration can be read, and a request can be made of it. -/
def Net.Ready (net : Net) (ch : Channel) : Prop :=
  ∃ cfg ∈ unmarshalConfig ch.config, net.requestError cfg.url = none

theorem oneAttempt_none (outcome : ℕ → Outcome) (result : Last) :
    OneAttempt outcome ⟨[], result⟩ :=
  ⟨Nat.zero_le 3, fun _ hi => absurd hi (Nat.not_lt_zero _), fun _ hi => absurd hi (by simp)⟩

theorem sendWebhook_of_some {net : Net} {ch : Channel} {cfg : WebhookConfig}
    (hcfg : unmarshalConfig ch.config = some cfg) (payload : AlertPayload)
    (outcome : ℕ → Outcome) :
    net.sendWebhook ch payload outcome =
      attempts (net.newRequest cfg payload.body) ((List.range 3).map outcome) {} := by
  simp only [Net.sendWebhook, hcfg]

theorem newRequest_of_none (net : Net) {cfg : WebhookConfig}
    (hurl : net.requestError cfg.url = none) (body : Text) :
    ∃ request, net.newRequest cfg body = .ok request := by
  simp only [Net.newRequest, hurl]
  exact ⟨_, rfl⟩

/-- What is returned describes the last attempt, unless a body is left over from another. -/
theorem sendWebhook_oneAttempt_iff (net : Net) (ch : Channel) (payload : AlertPayload)
    (outcome : ℕ → Outcome) :
    OneAttempt outcome (net.sendWebhook ch payload outcome) ↔
      ¬(net.Ready ch ∧ LeftOver outcome) := by
  cases hcfg : unmarshalConfig ch.config with
  | none =>
    simp only [Net.sendWebhook, hcfg]
    refine iff_of_true (oneAttempt_none outcome _) ?_
    rintro ⟨⟨cfg, hmem, -⟩, -⟩
    rw [hcfg] at hmem
    cases hmem
  | some cfg =>
    have hready : net.Ready ch ↔ net.requestError cfg.url = none := by simp [Net.Ready, hcfg]
    rw [hready, sendWebhook_of_some hcfg]
    cases hurl : net.requestError cfg.url with
    | some err =>
      have hrequest : net.newRequest cfg payload.body = .error err := by
        simp only [Net.newRequest, hurl]
      rw [hrequest]
      exact iff_of_true (oneAttempt_none outcome _) (by simp)
    | none =>
      obtain ⟨request, hrequest⟩ := newRequest_of_none net hurl payload.body
      rw [hrequest]
      exact (attempts_oneAttempt_iff request outcome).trans (by simp)

/-- The endpoint answers that it failed, with the text "boom", and then it is gone. -/
def crashing : ℕ → Outcome
  | 0 => .response 500 [98, 111, 111, 109]
  | _ => .unreachable "connection refused"

def hook : Channel := ⟨Json.text "\x7b\"url\":\"http://localhost/hook\"\x7d".toList⟩

theorem unmarshalConfig_hook :
    unmarshalConfig hook.config = some ⟨"http://localhost/hook", ""⟩ := by decide +kernel

def anyUrl : Net := ⟨fun _ => none, fun _ _ => ""⟩

def alert : AlertPayload := ⟨"p", "svc", "error_rate", 0, .null⟩

/-- Code 0, which stands for no connection, comes with the body of the first attempt. -/
theorem body_of_another_attempt :
    ¬OneAttempt crashing (anyUrl.sendWebhook hook alert crashing) := by
  rw [sendWebhook_of_some unmarshalConfig_hook]
  obtain ⟨request, hrequest⟩ := newRequest_of_none anyUrl rfl alert.body
  rw [hrequest, attempts_oneAttempt_iff, not_not]
  exact ⟨rfl, rfl, ⟨_, rfl⟩, by decide⟩

end BatAudit.Notification
