import BatAudit.Lib.Runs
import BatAudit.Lib.Tables
import BatAudit.Lib.SqlText
import BatAudit.Lib.GoText
import BatAudit.Lib.Jwt
import BatAudit.Lib.Json.Lexer
import BatAudit.Lib.Json.Syntax
import BatAudit.Lib.Json.Reading
import BatAudit.Lib.Json.Numbers
import BatAudit.Lib.Json.Strings
import BatAudit.Lib.Json.Guarded
import BatAudit.Lib.Json.Sides
import BatAudit.Lib.Json.Members
import BatAudit.Lib.Json.Stream
import BatAudit.Lib.Jsonb
import BatAudit.Lib.GoTime
import BatAudit.Lib.Float64
import BatAudit.Lib.GoFormats
import BatAudit.Lib.NetIP
import BatAudit.Lib.Js
import BatAudit.Lib.Fetch
import BatAudit.Lib.Origins
import BatAudit.Audit.Table
import BatAudit.Audit.Event
import BatAudit.Audit.Codec
import BatAudit.Audit.Sanitizer
import BatAudit.Audit.Masking
import BatAudit.Audit.Harmless
import BatAudit.Audit.Pieces
import BatAudit.Audit.Gate
import BatAudit.Audit.CardRuns
import BatAudit.Audit.MemberPass
import BatAudit.Audit.CardPass
import BatAudit.Audit.WellFormed
import BatAudit.Audit.MaskedColumns
import BatAudit.Audit.Secrets
import BatAudit.Audit.Twice
import BatAudit.Lib.GoHtml
import BatAudit.Audit.Once
import BatAudit.Audit.SafeText
import BatAudit.Audit.Ranging
import BatAudit.Audit.SanitizedOnce
import BatAudit.Audit.Validator
import BatAudit.Audit.Addresses
import BatAudit.Lib.Double
import BatAudit.Lib.KeyedMap
import BatAudit.Worker.Pool
import BatAudit.Worker.Cooldown
import BatAudit.Worker.Pipeline
import BatAudit.Sdk.Delivery
import BatAudit.Anomaly.Window
import BatAudit.Anomaly.Trimming
import BatAudit.Anomaly.Rules
import BatAudit.Anomaly.Detector
import BatAudit.Anomaly.Cooldown
import BatAudit.Anomaly.Isolation
import BatAudit.Healthcheck.Model
import BatAudit.Healthcheck.Transitions
import BatAudit.Healthcheck.Poller
import BatAudit.Tiering.Model
import BatAudit.Tiering.RawToHourly
import BatAudit.Tiering.HourlyToDaily
import BatAudit.Tiering.History
import BatAudit.Tiering.Totals
import BatAudit.Auth.Model
import BatAudit.Auth.Schema
import BatAudit.Auth.Service
import BatAudit.Audit.Ingest
import BatAudit.Audit.ProjectBinding
import BatAudit.Audit.Delivery
import BatAudit.Audit.Storage
import BatAudit.Audit.Hygiene
import BatAudit.Sdk.Express
import BatAudit.Sdk.XHR
import BatAudit.Sdk.PatchFetch
import BatAudit.Sdk.RequestId
import BatAudit.Sdk.OwnTraffic
import BatAudit.Sdk.Lambda
import BatAudit.Auth.Handler
import BatAudit.Auth.Ownership
import BatAudit.Auth.ProjectRace
import BatAudit.Auth.Seeding
import BatAudit.Auth.Viewer
import BatAudit.Auth.InviteRuns
import BatAudit.Auth.Token
import BatAudit.Auth.Sessions
import BatAudit.Wallboard.Access
import BatAudit.Wallboard.Refresh
import BatAudit.Wallboard.Data
import BatAudit.Audit.Reader
import BatAudit.Audit.Isolation
import BatAudit.Tiering.TwoSteps
import BatAudit.Lib.Calendar
import BatAudit.Tiering.Schedule
import BatAudit.Audit.ExportList
import BatAudit.Audit.SessionDetails
import BatAudit.Audit.StatusClasses
import BatAudit.Anomaly.RuleWindow
import BatAudit.Audit.Console
import BatAudit.Audit.DerivedSessions
import BatAudit.Audit.Paging
import BatAudit.Audit.Timeline
import BatAudit.Lib.OrderStatistics
import BatAudit.Tiering.MergedP95
import BatAudit.Healthcheck.Reload
import BatAudit.Healthcheck.Downtime
import BatAudit.Healthcheck.Limit
import BatAudit.Anomaly.Families
import BatAudit.Anomaly.Muted
import BatAudit.Lib.Rounding
import BatAudit.Anomaly.Minutes
import BatAudit.Anomaly.Silence
import BatAudit.Worker.Retry
import BatAudit.Worker.Progress
import BatAudit.Auth.KeyLinks
import BatAudit.Lib.Deviation
import BatAudit.Lib.RoundingError
import BatAudit.Anomaly.MeanStddev
import BatAudit.Anomaly.VolumeSpike
import BatAudit.Notification.Sender
import BatAudit.Lib.Joins
import BatAudit.Wallboard.Views
import BatAudit.Wallboard.Grid
import BatAudit.Lib.SoftDelete
import BatAudit.Auth.KeyLives
import BatAudit.Anomaly.RuleLives
import BatAudit.Notification.Channels
import BatAudit.Notification.Dispatch
import BatAudit.Lib.Csv
import BatAudit.Lib.CalendarText
import BatAudit.Audit.ExportFile
import BatAudit.Sdk.BrowserClient
import BatAudit.Sdk.Traced
import BatAudit.Sdk.Correlation
import BatAudit.Sdk.Instances
import BatAudit.Sdk.Unpatch
import BatAudit.Lib.FormUrlencoded
import BatAudit.Audit.Wire
import BatAudit.Lib.JsonbText
import BatAudit.Worker.Sinks
import BatAudit.Healthcheck.Reported
import BatAudit.Tiering.Retention
