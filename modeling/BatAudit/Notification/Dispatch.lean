import BatAudit.Auth.ProjectRace
import BatAudit.Notification.Channels

/-!
# Dispatch

`NotifyAll` lists the active channels of the project of an alert and starts a goroutine for
each; a goroutine sends to its channel and stores one record of it. Calls, goroutines and the
requests of users interleave, a repository call or a delivery a step.
-/

namespace BatAudit.Notification.Dispatch

open Auth (Claims)
open Auth.ProjectRace (countP_set_add)
open SoftDelete (Live Reflects)

/-- What the request to a push service comes to. -/
inductive PushOutcome
  | invalidConfig (err : String)
  | failed (err : String)
  | response (code : ℤ)

/-- `sendPush`: whether it returns no error. -/
def pushSucceeds (vapidPub vapidPriv : String) : PushOutcome → Bool
  | .response code => vapidPub ≠ "" && vapidPriv ≠ "" && code < 400
  | _ => false

/-- The parameters of a `Sender`, and the database. -/
structure Sender where
  net : Net
  database : Database
  vapidPub : String := ""
  vapidPriv : String := ""

/-- A call of `NotifyAll`, with the channels it has listed. -/
structure Call where
  eventID : String
  payload : AlertPayload
  listed : Option (List ChannelRow) := none

inductive Phase
  | sending
  | recording (status : String) (code : ℤ) (body : Bytes)
  | done (record : Option Delivery)

/-- What a call has started for one channel. -/
structure Goroutine where
  call : ℕ
  channel : ChannelRow
  phase : Phase := .sending

structure State where
  db : Tables := {}
  calls : List Call := []
  goroutines : List Goroutine := []
  history : List (SoftDelete.Event (String × String × ChannelType)) := []

inductive Label
  | project (id : String)
  | request (claims : Claims) (r : ChannelRequest)
  | notifyAll (eventID : String) (payload : AlertPayload)
  | list (n : ℕ) (listed : Option (List ChannelRow))
  | send (i : ℕ) (outcome : ℕ → Outcome) (push : PushOutcome)
  | record (i : ℕ) (id : String) (now : ℤ) (ok : Bool)

namespace Sender

/-- The status, the code and the body that are recorded. -/
def outcomeOf (s : Sender) (ch : ChannelRow) (payload : AlertPayload) (outcome : ℕ → Outcome)
    (push : PushOutcome) : Phase :=
  match ch.type with
  | .webhook =>
    let result := (s.net.sendWebhook ch.toChannel payload outcome).result
    .recording (if result.err.isSome then "failed" else "success") result.code result.body
  | .push =>
    .recording (if pushSucceeds s.vapidPub s.vapidPriv push then "success" else "failed") 0 []

end Sender

/-- What the requests do to the rows, as events. -/
def logged (claims : Claims) (r : ChannelRequest) (before after : Tables) :
    List (SoftDelete.Event (String × String × ChannelType)) :=
  match r.names claims with
  | some (key, projectID) => [.retired fun t => SqlText.uuid t.1 = some key && t.2.1 = projectID]
  | none => (after.channels.drop before.channels.length).map fun ch => .issued (columns.tag ch)

/-- A call has an event id that no call before it had. A listing that fails starts nothing. -/
def step (sender : Sender) (s : State) : Label → Option State
  | .project id => some { s with db := { s.db with projects := s.db.projects ++ [id] } }
  | .request claims r =>
    let db := (sender.database.serve claims s.db r).2
    some { s with db, history := logged claims r s.db db ++ s.history }
  | .notifyAll eventID payload =>
    if s.calls.any fun call => call.eventID = eventID then none
    else some { s with calls := s.calls ++ [{ eventID, payload }] }
  | .list n listed =>
    match s.calls[n]? with
    | some call =>
      if call.listed.isNone && listed.all (s.db.lists call.payload.projectId) then
        let chs := listed.getD []
        some { s with
          calls := s.calls.set n { call with listed := some chs }
          goroutines := s.goroutines ++ chs.map fun channel => { call := n, channel } }
      else none
    | none => none
  | .send i outcome push =>
    match s.goroutines[i]? with
    | some g =>
      match g.phase, s.calls[g.call]? with
      | .sending, some call =>
        let phase := sender.outcomeOf g.channel call.payload outcome push
        some { s with goroutines := s.goroutines.set i { g with phase } }
      | _, _ => none
    | none => none
  | .record i id now ok =>
    match s.goroutines[i]? with
    | some g =>
      match g.phase, s.calls[g.call]? with
      | .recording status statusCode responseBody, some call =>
        let d : Delivery :=
          { id, channelID := g.channel.id, alertEventID := call.eventID, status, statusCode,
            responseBody, deliveredAt := now }
        match if ok then s.db.createDelivery d else none with
        | some db =>
          some { s with db, goroutines := s.goroutines.set i { g with phase := .done (some d) } }
        | none => some { s with goroutines := s.goroutines.set i { g with phase := .done none } }
      | _, _ => none
    | none => none

/-! ## The table reflects the history -/

variable {sender : Sender} {s t : State} {a : Label}

/-- The invariant of the channels: no id twice, and the active rows are the live ones. -/
structure Kept (history : List (SoftDelete.Event (String × String × ChannelType)))
    (db : Tables) : Prop where
  nodup : (db.channels.map fun ch => SqlText.uuid ch.id).Nodup
  reflects : Reflects columns history db.channels

def Goroutine.isOf (n : ℕ) (c : String) (g : Goroutine) : Bool := g.call = n && g.channel.id = c

def Goroutine.isRecorded (g : Goroutine) : Bool :=
  match g.phase with
  | .done (some _) => true
  | _ => false

/-- A goroutine that has stored no record: it is still at work, or the database refused. -/
def Goroutine.unrecorded (n : ℕ) (c : String) (g : Goroutine) : Bool := g.isOf n c && !g.isRecorded

/-- How many records there are of an alert and a channel. -/
def records (s : State) (eventID c : String) : ℕ :=
  s.db.deliveries.countP fun d => d.alertEventID = eventID && d.channelID = c

/-- Whether a call has listed a channel. -/
def Call.hasListed (c : String) (call : Call) : Bool := (call.listed.getD []).any fun ch => ch.id = c

structure Accounted (s : State) : Prop where
  kept : Kept s.history s.db
  events : (s.calls.map Call.eventID).Nodup
  calls : ∀ g ∈ s.goroutines, g.call < s.calls.length
  started : ∀ n call, s.calls[n]? = some call → ∀ c,
    s.goroutines.countP (Goroutine.isOf n c) = if call.hasListed c then 1 else 0
  records : ∀ n call, s.calls[n]? = some call → ∀ c, Dispatch.records s call.eventID c =
    s.goroutines.countP fun g => g.isOf n c && g.isRecorded
  owned : ∀ d ∈ s.db.deliveries, ∃ call ∈ s.calls, d.alertEventID = call.eventID

/-- What a step does: apart from the rows, one call lists or one goroutine goes on. -/
inductive Steps (sender : Sender) (s : State) : Label → State → Prop
  | project (id : String) :
      Steps sender s (.project id) { s with db := { s.db with projects := s.db.projects ++ [id] } }
  | request (claims : Claims) (r : ChannelRequest) : Steps sender s (.request claims r)
      { s with
        db := (sender.database.serve claims s.db r).2
        history := logged claims r s.db (sender.database.serve claims s.db r).2 ++ s.history }
  | notifyAll {eventID : String} (payload : AlertPayload)
      (hnew : ∀ call ∈ s.calls, call.eventID ≠ eventID) : Steps sender s (.notifyAll eventID payload)
      { s with calls := s.calls ++ [{ eventID, payload }] }
  | listFailed {n : ℕ} {call : Call} (hcall : s.calls[n]? = some call)
      (hfirst : call.listed = none) : Steps sender s (.list n none)
      { s with
        calls := s.calls.set n { call with listed := some [] }
        goroutines := s.goroutines ++ [].map fun channel => { call := n, channel } }
  | list {n : ℕ} {call : Call} {chs : List ChannelRow} (hcall : s.calls[n]? = some call)
      (hfirst : call.listed = none) (hlists : s.db.lists call.payload.projectId chs = true) :
      Steps sender s (.list n (some chs))
      { s with
        calls := s.calls.set n { call with listed := some chs }
        goroutines := s.goroutines ++ chs.map fun channel => { call := n, channel } }
  | phase {a : Label} {i : ℕ} {g : Goroutine} (hg : s.goroutines[i]? = some g)
      (hbefore : g.isRecorded = false) {phase : Phase}
      (hafter : ({ g with phase } : Goroutine).isRecorded = false) :
      Steps sender s a { s with goroutines := s.goroutines.set i { g with phase } }
  | record {i : ℕ} {g : Goroutine} {id : String} {now : ℤ} {call : Call} {d : Delivery} {db : Tables}
      (hg : s.goroutines[i]? = some g) (hbefore : g.isRecorded = false)
      (hcall : s.calls[g.call]? = some call) (hchannel : d.channelID = g.channel.id)
      (hevent : d.alertEventID = call.eventID) (hdb : s.db.createDelivery d = some db) :
      Steps sender s (.record i id now true)
      { s with db, goroutines := s.goroutines.set i { g with phase := .done (some d) } }

theorem outcomeOf_recording (sender : Sender) (ch : ChannelRow) (payload : AlertPayload)
    (outcome : ℕ → Outcome) (push : PushOutcome) : ∃ status code body,
      sender.outcomeOf ch payload outcome push = .recording status code body := by
  unfold Sender.outcomeOf
  cases ch.type with
  | webhook => exact ⟨_, _, _, rfl⟩
  | push => exact ⟨_, _, _, rfl⟩

theorem steps (h : step sender s a = some t) : Steps sender s a t := by
  cases a with
  | project id =>
    cases h
    exact .project id
  | request claims r =>
    cases h
    exact .request claims r
  | notifyAll eventID payload =>
    simp only [step] at h
    split_ifs at h with hused
    cases h
    exact .notifyAll payload fun call hcall heq =>
      hused (List.any_eq_true.mpr ⟨call, hcall, decide_eq_true heq⟩)
  | list n listed =>
    simp only [step] at h
    split at h
    · rename_i call hcall
      split_ifs at h with hlists
      cases h
      obtain ⟨hfirst, hlists⟩ := Bool.and_eq_true_iff.mp hlists
      rw [Option.isNone_iff_eq_none] at hfirst
      cases listed with
      | none => exact .listFailed hcall hfirst
      | some chs => exact .list hcall hfirst hlists
    · cases h
  | send i outcome push =>
    simp only [step] at h
    split at h
    · rename_i g hg
      split at h
      · rename_i call hphase hcall
        cases h
        obtain ⟨status, code, body, heq⟩ :=
          outcomeOf_recording sender g.channel call.payload outcome push
        refine .phase hg (by simp [Goroutine.isRecorded, hphase]) ?_
        simp [Goroutine.isRecorded, heq]
      · cases h
    · cases h
  | record i id now ok =>
    simp only [step] at h
    split at h
    · rename_i g hg
      split at h
      · rename_i status code body call hphase hcall
        have hbefore : g.isRecorded = false := by simp [Goroutine.isRecorded, hphase]
        split at h
        · rename_i db hdb
          cases h
          split_ifs at hdb with hok
          subst hok
          exact .record hg hbefore hcall rfl rfl hdb
        · cases h
          exact .phase hg hbefore rfl
      · cases h
    · cases h

variable {as : List Label} {n : ℕ} {call : Call} {chs : List ChannelRow}

/-- At some time after a call was made, the channels were the live ones of a project. -/
def LiveSince (sender : Sender) (as : List Label) (n : ℕ) (projectID : String)
    (chs : List ChannelRow) : Prop :=
  ∃ before s, before <+: as ∧ Runs.run (step sender) {} before = some s ∧ n < s.calls.length ∧
    ∀ id type, (∃ ch ∈ chs, ch.id = id ∧ ch.type = type) ↔ Live (id, projectID, type) s.history

theorem LiveSince.concat {projectID : String} (h : LiveSince sender as n projectID chs) (a : Label) :
    LiveSince sender (as ++ [a]) n projectID chs := by
  obtain ⟨before, s, hprefix, hrun, hlive⟩ := h
  exact ⟨before, s, hprefix.trans (List.prefix_append as [a]), hrun, hlive⟩

def subscription : SubscribeBody := ⟨"p", Json.text "\x7b\x7d".toList⟩

end BatAudit.Notification.Dispatch
