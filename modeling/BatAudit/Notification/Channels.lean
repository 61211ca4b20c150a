import BatAudit.Auth.Service
import BatAudit.Lib.Runs
import BatAudit.Lib.SoftDelete
import BatAudit.Notification.Sender

/-!
# Notification channels

The table of channels and the handlers that write it. Anyone with a token subscribes a browser
and unsubscribes it; webhooks take an owner or an admin to create and to delete. Unsubscribing
deactivates whatever channel is named.
-/

namespace BatAudit.Notification

open Auth (Claims RoleOwner RoleAdmin RoleViewer)
open Json (Text)

inductive ChannelType
  | push
  | webhook
deriving DecidableEq, Repr

deriving instance DecidableEq for Channel

structure ChannelRow extends Channel where
  id : String
  projectID : String
  type : ChannelType
  active : Bool
  createdAt : ℤ
deriving DecidableEq

/-- `responseBody` is text: a body that is none is refused with the row. -/
structure Delivery where
  id : String
  channelID : String
  alertEventID : String
  status : String
  statusCode : ℤ
  responseBody : Bytes
  deliveredAt : ℤ
deriving DecidableEq, Repr

/-- The ids of the projects, and the two tables of the package. -/
structure Tables where
  projects : List String := []
  channels : List ChannelRow := []
  deliveries : List Delivery := []

/-- What a `JSONB` column makes of a document, if it takes it. -/
structure Database where
  jsonb : Text → Option Text

/-! ## The repository -/

namespace Database

/-- The document `null` becomes no value, which the column refuses. -/
def config (d : Database) (s : Text) : Option Text :=
  if s = Json.text "null".toList then none else d.jsonb s

def stored (d : Database) (ch : ChannelRow) : Option ChannelRow := do
  let _ ← SqlText.uuid ch.id
  let projectID ← SqlText.varchar 64 ch.projectID
  let config ← d.config ch.config
  return { ch with projectID, config }

def createChannel (d : Database) (ch : ChannelRow) (db : Tables) : Option Tables := do
  let ch ← d.stored ch
  if db.projects.contains ch.projectID &&
      db.channels.all fun row => SqlText.uuid row.id ≠ SqlText.uuid ch.id then
    return { db with channels := db.channels ++ [ch] }
  else none

end Database

namespace Tables

def deactivated (ch : ChannelRow) : ChannelRow := { ch with active := false }

def isNamed (key : List Char) (projectID : String) (ch : ChannelRow) : Bool :=
  SqlText.uuid ch.id = some key && ch.projectID = projectID

/-- The parameters of `DeleteChannel` as the database reads them. -/
def parameters (id projectID : String) : Option (List Char × String) := do
  let key ← SqlText.uuid id
  let projectID ← SqlText.text projectID
  return (key, projectID)

def deactivate (key : List Char) (projectID : String) (db : Tables) : Tables :=
  { db with
    channels := db.channels.map fun ch => if isNamed key projectID ch then deactivated ch else ch }

def deleteChannel (id projectID : String) (db : Tables) : Option Tables :=
  (parameters id projectID).map fun p => db.deactivate p.1 p.2

/-- What `ListChannels` may return for all types. -/
def lists (db : Tables) (projectID : String) (chs : List ChannelRow) : Bool :=
  chs.isPerm (db.channels.filter fun ch => ch.projectID = projectID && ch.active) &&
    chs.Pairwise fun ch ch' => ch.createdAt ≤ ch'.createdAt

def text (bytes : Bytes) : Option String :=
  (String.fromUTF8? ⟨bytes.toArray⟩).bind SqlText.text

def createDelivery (d : Delivery) (db : Tables) : Option Tables := do
  let key ← SqlText.uuid d.id
  let _ ← SqlText.text d.alertEventID
  let _ ← text d.responseBody
  if (db.channels.any fun ch => SqlText.uuid ch.id = SqlText.uuid d.channelID) &&
      db.deliveries.all fun row => SqlText.uuid row.id ≠ some key then
    return { db with deliveries := db.deliveries ++ [d] }
  else none

end Tables

/-! ## The handlers -/

structure SubscribeBody where
  projectID : String
  subscription : Text

structure UnsubscribeBody where
  projectID : String
  channelID : String

structure WebhookBody where
  projectID : String
  url : String
  secret : String := ""

def SubscribeBody.isBound (body : SubscribeBody) : Bool :=
  body.projectID ≠ "" && body.subscription ≠ []

def UnsubscribeBody.isBound (body : UnsubscribeBody) : Bool :=
  body.projectID ≠ "" && body.channelID ≠ ""

def WebhookBody.isBound (body : WebhookBody) : Bool := body.projectID ≠ "" && body.url ≠ ""

/-- `json.Marshal` of a `WebhookConfig`. -/
def WebhookConfig.marshal (cfg : WebhookConfig) : Text :=
  let member (key value : String) : Text :=
    (Json.quote key.toList).text ++ .char ':' :: (Json.quote value.toList).text
  .char '\x7b' :: (joinTexts (member "url" cfg.url ::
    if cfg.secret ≠ "" then [member "secret" cfg.secret] else []) ++ [.char '\x7d'])

def SubscribeBody.channel (body : SubscribeBody) (id : String) (now : ℤ) : ChannelRow :=
  { config := body.subscription, id, projectID := body.projectID, type := .push, active := true,
    createdAt := now }

def WebhookBody.channel (body : WebhookBody) (id : String) (now : ℤ) : ChannelRow :=
  { config := WebhookConfig.marshal ⟨body.url, body.secret⟩, id, projectID := body.projectID,
    type := .webhook, active := true, createdAt := now }

inductive Answer
  | error (text : String)
  | bindingError
  | databaseError
  | channel (ch : ChannelRow)
  | none

structure Response where
  status : ℕ
  body : Answer

/-- The requests that write, each with its body when it is JSON of that shape. -/
inductive ChannelRequest
  | subscribe (body : Option SubscribeBody) (id : String) (now : ℤ)
  | unsubscribe (body : Option UnsubscribeBody)
  | createWebhook (body : Option WebhookBody) (id : String) (now : ℤ)
  | deleteWebhook (id projectID : String)

def mayEdit (claims : Claims) : Bool := claims.role = RoleOwner || claims.role = RoleAdmin

def forbidden : Response := ⟨403, .error "insufficient permissions"⟩

/-- What is answered to an insertion. -/
def created (ch : ChannelRow) (db : Tables) : Option Tables → Response × Tables
  | some db' => (⟨201, .channel ch⟩, db')
  | none => (⟨500, .databaseError⟩, db)

/-- What is answered to a deactivation. -/
def deleted (db : Tables) : Option Tables → Response × Tables
  | some db' => (⟨204, .none⟩, db')
  | none => (⟨500, .databaseError⟩, db)

def Database.subscribe (d : Database) (body : Option SubscribeBody) (id : String) (now : ℤ)
    (db : Tables) : Response × Tables :=
  match body.filter SubscribeBody.isBound with
  | none => (⟨400, .bindingError⟩, db)
  | some body => created (body.channel id now) db (d.createChannel (body.channel id now) db)

def unsubscribe (body : Option UnsubscribeBody) (db : Tables) : Response × Tables :=
  match body.filter UnsubscribeBody.isBound with
  | none => (⟨400, .bindingError⟩, db)
  | some body => deleted db (db.deleteChannel body.channelID body.projectID)

def Database.createWebhook (d : Database) (claims : Claims) (body : Option WebhookBody)
    (id : String) (now : ℤ) (db : Tables) : Response × Tables :=
  if !mayEdit claims then (forbidden, db)
  else
    match body.filter WebhookBody.isBound with
    | none => (⟨400, .bindingError⟩, db)
    | some body => created (body.channel id now) db (d.createChannel (body.channel id now) db)

def deleteWebhook (claims : Claims) (id projectID : String) (db : Tables) : Response × Tables :=
  if !mayEdit claims then (forbidden, db)
  else deleted db (db.deleteChannel id projectID)

def Database.serve (d : Database) (claims : Claims) (db : Tables) :
    ChannelRequest → Response × Tables
  | .subscribe body id now => d.subscribe body id now db
  | .unsubscribe body => unsubscribe body db
  | .createWebhook body id now => d.createWebhook claims body id now db
  | .deleteWebhook id projectID => deleteWebhook claims id projectID db

/-! ## What a request does to the channels -/

/-- The columns of a channel that no statement writes again. -/
def columns : SoftDelete.Columns ChannelRow (String × String × ChannelType) where
  tag ch := (ch.id, ch.projectID, ch.type)
  active := ChannelRow.active
  deactivate := Tables.deactivated
  tag_deactivate _ := rfl
  active_deactivate _ := rfl

/-- The id and the project of the channels that a request deactivates, if it is not refused. -/
def ChannelRequest.names (claims : Claims) : ChannelRequest → Option (List Char × String)
  | .unsubscribe body =>
    (body.filter UnsubscribeBody.isBound).bind fun b => Tables.parameters b.channelID b.projectID
  | .deleteWebhook id projectID =>
    if mayEdit claims then Tables.parameters id projectID else none
  | _ => none

/-- A request deactivates the channels it names, or it adds a row or none. -/
inductive Served (claims : Claims) (r : ChannelRequest) (db : Tables) : Tables → Prop
  | refused (hnames : r.names claims = none) : Served claims r db db
  | inserted (ch : ChannelRow) (hnames : r.names claims = none) (hactive : ch.active = true)
      (hfresh : ∀ row ∈ db.channels, SqlText.uuid row.id ≠ SqlText.uuid ch.id)
      (htype : ch.type = .webhook → mayEdit claims = true) :
      Served claims r db { db with channels := db.channels ++ [ch] }
  | deactivated (key : List Char) (projectID : String)
      (hnames : r.names claims = some (key, projectID)) :
      Served claims r db (db.deactivate key projectID)

theorem createChannel_eq_some {d : Database} {ch : ChannelRow} {db db' : Tables}
    (h : d.createChannel ch db = some db') : ∃ ch' : ChannelRow,
      db' = { db with channels := db.channels ++ [ch'] } ∧ ch'.active = ch.active ∧
        ch'.type = ch.type ∧ ∀ row ∈ db.channels, SqlText.uuid row.id ≠ SqlText.uuid ch'.id := by
  obtain ⟨ch', hstored, h⟩ := Option.bind_eq_some_iff.mp h
  obtain ⟨key, -, hstored⟩ := Option.bind_eq_some_iff.mp hstored
  obtain ⟨projectID, -, hstored⟩ := Option.bind_eq_some_iff.mp hstored
  obtain ⟨config, -, hstored⟩ := Option.bind_eq_some_iff.mp hstored
  cases hstored
  split at h
  · rename_i hfresh
    cases h
    simp only [Bool.and_eq_true, List.all_eq_true, decide_eq_true_eq] at hfresh
    exact ⟨_, rfl, rfl, rfl, hfresh.2⟩
  · cases h

theorem served_created {d : Database} {claims : Claims} {r : ChannelRequest} {ch : ChannelRow}
    {db : Tables} (hnames : r.names claims = none) (hactive : ch.active = true)
    (htype : ch.type = .webhook → mayEdit claims = true) :
    Served claims r db (created ch db (d.createChannel ch db)).2 := by
  cases hcreate : d.createChannel ch db with
  | none => exact .refused hnames
  | some db' =>
    obtain ⟨ch', rfl, hactive', htype', hfresh⟩ := createChannel_eq_some hcreate
    exact .inserted ch' hnames (hactive'.trans hactive) hfresh fun h => htype (htype'.symm.trans h)

theorem served_deleted {claims : Claims} {r : ChannelRequest} {id projectID : String}
    (hnames : r.names claims = Tables.parameters id projectID) (db : Tables) :
    Served claims r db (deleted db (db.deleteChannel id projectID)).2 := by
  unfold Tables.deleteChannel
  cases hparameters : Tables.parameters id projectID with
  | none => exact .refused (hnames.trans hparameters)
  | some p => exact .deactivated p.1 p.2 (hnames.trans hparameters)

theorem serve_served (d : Database) (claims : Claims) (db : Tables) (r : ChannelRequest) :
    Served claims r db (d.serve claims db r).2 := by
  cases r with
  | subscribe body id now =>
    simp only [Database.serve, Database.subscribe]
    cases body.filter SubscribeBody.isBound with
    | none => exact .refused rfl
    | some body => exact served_created rfl rfl fun h => by cases h
  | unsubscribe body =>
    simp only [Database.serve, unsubscribe]
    cases hbody : body.filter UnsubscribeBody.isBound with
    | none => exact .refused (by simp only [ChannelRequest.names, hbody, Option.bind_none])
    | some b => exact served_deleted (by simp only [ChannelRequest.names, hbody, Option.bind_some]) db
  | createWebhook body id now =>
    simp only [Database.serve, Database.createWebhook]
    cases hedit : mayEdit claims with
    | false => exact .refused rfl
    | true =>
      cases body.filter WebhookBody.isBound with
      | none => exact .refused rfl
      | some body => exact served_created rfl rfl fun _ => hedit
  | deleteWebhook id projectID =>
    simp only [Database.serve, deleteWebhook]
    cases hedit : mayEdit claims with
    | false =>
      exact .refused (by simp only [ChannelRequest.names, hedit, Bool.false_eq_true, if_false])
    | true => exact served_deleted (by simp only [ChannelRequest.names, hedit, if_true]) db

/-! ## What a viewer does to the webhooks -/

def isWebhook (ch : ChannelRow) : Bool := ch.type = .webhook && ch.active

/-- The webhooks that alerts go to. -/
def webhooks (db : Tables) : List ChannelRow := db.channels.filter isWebhook

structure ViewerRequest where
  userID : String
  email : String
  request : ChannelRequest

def ViewerRequest.claims (r : ViewerRequest) : Claims := ⟨r.userID, r.email, RoleViewer⟩

def viewerStep (d : Database) (db : Tables) (r : ViewerRequest) : Option Tables :=
  some (d.serve r.claims db r.request).2

/-- The request does not name a webhook that is active. -/
def Spares (db : Tables) (r : ViewerRequest) : Prop :=
  ∀ key projectID, r.request.names r.claims = some (key, projectID) →
    ∀ ch ∈ webhooks db, Tables.isNamed key projectID ch = false

theorem viewer_may_not_edit (r : ViewerRequest) : mayEdit r.claims = false := by
  simp [mayEdit, ViewerRequest.claims, RoleViewer, RoleOwner, RoleAdmin]

theorem webhooks_deactivated_iff (db : Tables) (key : List Char) (projectID : String) :
    webhooks (db.deactivate key projectID) = webhooks db ↔
      ∀ ch ∈ webhooks db, Tables.isNamed key projectID ch = false := by
  have hoff (ch : ChannelRow) : isWebhook (Tables.deactivated ch) = false := Bool.and_false _
  simp only [webhooks, Tables.deactivate]
  constructor
  · intro h ch hch
    by_contra hnamed
    rw [← h] at hch
    obtain ⟨hmem, hon⟩ := List.mem_filter.mp hch
    obtain ⟨row, -, hrow⟩ := List.mem_map.mp hmem
    split_ifs at hrow with hrow'
    · rw [← hrow, hoff] at hon
      cases hon
    · rw [hrow] at hrow'
      exact hnamed ((Bool.not_eq_true _).mp hrow')
  · intro h
    rw [List.filter_map]
    have hsame : db.channels.filter (isWebhook ∘ fun ch =>
        if Tables.isNamed key projectID ch then Tables.deactivated ch else ch) =
          db.channels.filter isWebhook := by
      refine List.filter_congr fun ch hch => ?_
      simp only [Function.comp_apply]
      split_ifs with hnamed
      · rw [hoff, eq_comm]
        by_contra hon
        have hfalse := h ch (List.mem_filter.mpr ⟨hch, (Bool.not_eq_false _).mp hon⟩)
        exact Bool.false_ne_true (hfalse.symm.trans hnamed)
      · rfl
    rw [hsame]
    refine (List.map_congr_left fun ch hch => ?_).trans (List.map_id _)
    rw [h ch hch, if_neg Bool.false_ne_true]
    rfl

/-- The requests of viewers leave the webhooks as they are exactly as long as none of them
unsubscribes an active webhook. -/
theorem webhooks_kept_iff (d : Database) (db : Tables) (requests : List ViewerRequest) :
    Runs.Along (viewerStep d) (fun s _ t => webhooks t = webhooks s) db requests ↔
      Runs.Meets (viewerStep d) Spares db requests := by
  have hstep (s : Tables) (r : ViewerRequest) (t : Tables) (h : viewerStep d s r = some t) :
      webhooks t = webhooks s ↔ Spares s r := by
    cases h
    have hspares (hnames : r.request.names r.claims = none) : Spares s r := by
      intro key projectID hnames'
      cases hnames.symm.trans hnames'
    have hserved := serve_served d r.claims s r.request
    revert hserved
    generalize (d.serve r.claims s r.request).2 = t
    intro hserved
    cases hserved with
    | refused hnames => exact iff_of_true rfl (hspares hnames)
    | inserted ch hnames hactive hfresh htype =>
      refine iff_of_true ?_ (hspares hnames)
      have hpush : isWebhook ch = false := by
        by_contra hon
        have htype' := of_decide_eq_true (Bool.and_eq_true_iff.mp ((Bool.not_eq_false _).mp hon)).1
        exact Bool.false_ne_true ((viewer_may_not_edit r).symm.trans (htype htype'))
      simp [webhooks, hpush]
    | deactivated key projectID hnames =>
      rw [webhooks_deactivated_iff]
      constructor
      · intro h key' projectID' hnames'
        cases hnames.symm.trans hnames'
        exact h
      · exact fun h => h key projectID hnames
  exact Runs.along_iff_meets (I := fun _ => True)
    (fun s r t _ hok h => ⟨trivial, (hstep s r t h).mpr hok⟩)
    (fun s r t _ hbad h hkept => hbad ((hstep s r t h).mp hkept)) trivial requests

end BatAudit.Notification
