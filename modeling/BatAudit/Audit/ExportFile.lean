import BatAudit.Audit.Reader
import BatAudit.Lib.CalendarText
import BatAudit.Lib.Csv
import BatAudit.Lib.Json.Numbers
import BatAudit.Notification.Sender

/-!
# The file of an export

The lines of a CSV export as the characters that are sent, and back: the header, then a record
for each line, with the numbers in decimal and the time in RFC 3339.
-/

namespace BatAudit.Reader

open AuditRow (newestFirst)
open Calendar (HasFourDigits)
open Notification (appendYear formatRFC3339)

/-! ## Times -/

theorem length_toDigits {n : ℕ} (h : 10 ^ 4 ≤ n) : 5 ≤ (Nat.toDigits 10 n).length := by
  have hsplit {m : ℕ} (hm : 10 ≤ m) :
      (Nat.toDigits 10 m).length = (Nat.toDigits 10 (m / 10)).length + 1 := by
    rw [Nat.toDigits_of_base_le (by decide) hm, List.length_append, List.length_singleton]
  have hlast : 1 ≤ (Nat.toDigits 10 (n / 10 / 10 / 10 / 10)).length :=
    List.length_pos_iff.mpr Nat.toDigits_ne_nil
  rw [hsplit (by omega), hsplit (by omega), hsplit (by omega), hsplit (by omega)]
  omega

/-- A time with a year of five digits or more, or before the year 0, does not read back. -/
theorem parse_appendYear {year : ℤ} (h : ¬(0 ≤ year ∧ year < 10 ^ 4)) (s : List Char) :
    GoTime.parse (appendYear year ++ '-' :: s) = none := by
  by_cases hneg : year < 0
  · have hnone (s : List Char) : GoTime.number 4 ('-' :: s) = none := by
      rw [GoTime.number, if_neg]
      rintro ⟨-, hall⟩
      have hhyphen := List.all_eq_true.mp hall '-' List.mem_cons_self
      revert hhyphen
      decide
    rw [appendYear, if_pos hneg, List.append_assoc, List.singleton_append, GoTime.parse, hnone]
    rfl
  · have hbig : 10 ^ 4 ≤ year.natAbs := by omega
    rw [appendYear, if_neg hneg, if_neg (by omega), List.nil_append]
    have hdigits : ∀ c ∈ Nat.toDigits 10 year.natAbs, GoTime.isDigit c = true := fun c hc =>
      Json.isDigit_of_mem_toDigits hc
    have hlength := length_toDigits hbig
    generalize Nat.toDigits 10 year.natAbs = digits at hdigits hlength
    obtain _ | ⟨a, _ | ⟨b, _ | ⟨c, _ | ⟨d, _ | ⟨e, rest⟩⟩⟩⟩⟩ := digits
    iterate 5 · simp at hlength
    simp only [List.forall_mem_cons] at hdigits
    obtain ⟨ha, hb, hc, hd, he, -⟩ := hdigits
    have hhyphen : ('-' : Char) ≠ e := by
      rintro rfl
      revert he
      decide
    have hyear : GoTime.number 4 (a :: b :: c :: d :: e :: (rest ++ '-' :: s)) =
        some (Nat.ofDigitChars 10 [a, b, c, d] 0, e :: (rest ++ '-' :: s)) := by
      refine if_pos ⟨rfl, List.all_eq_true.mpr ?_⟩
      simp only [List.take_succ_cons, List.take_zero, List.forall_mem_cons, ha, hb, hc, hd,
        true_and, List.not_mem_nil, false_imp_iff, implies_true]
    have hskip : GoTime.skip '-' (e :: (rest ++ '-' :: s)) = none := if_neg hhyphen
    rw [List.cons_append, List.cons_append, List.cons_append, List.cons_append, List.cons_append,
      GoTime.parse, hyear, Option.bind_eq_bind, Option.bind_some]
    dsimp only
    rw [hskip]
    rfl

theorem format_timeOf {t : ℤ} (h : HasFourDigits t) :
    (Calendar.timeOf t h).format = formatRFC3339 t := by
  have hyear : appendYear (Calendar.dateOf t).year =
      GoTime.pad 4 (Calendar.dateOf t).year.toNat := by
    have hpos := h.1
    have hlt := h.2
    rw [appendYear, if_neg (by omega), if_pos (by omega), List.nil_append]
    congr 1
    omega
  rw [formatRFC3339, hyear]
  rfl

theorem parse_formatRFC3339 (t : ℤ) :
    GoTime.parse (formatRFC3339 t) =
      if h : HasFourDigits t then some (Calendar.timeOf t h) else none := by
  split_ifs with h
  · have hzone : (Calendar.timeOf t h).offset.natAbs < 24 * 60 := show 0 < 24 * 60 by decide
    rw [← format_timeOf h]
    exact GoTime.parse_format (Calendar.timeOf t h) hzone
  · rw [formatRFC3339]
    exact parse_appendYear h _

/-! ## Lines -/

def csvHeader : List String :=
  ["id", "event_type", "timestamp", "service_name", "method", "path", "status_code",
    "response_time_ms", "identifier", "user_email", "user_name"]

def CsvLine.fields (l : CsvLine) : List Csv.Field :=
  [l.id.toList, l.eventType.toList, formatRFC3339 (l.timestamp * Calendar.second),
    l.serviceName.toList, l.method.toList, l.path.toList, Json.decimal l.statusCode,
    Json.decimal l.responseTimeMs, l.identifier.toList, l.userEmail.toList, l.userName.toList]

def csvFile (lines : List CsvLine) : List Char :=
  Csv.write (csvHeader.map String.toList :: lines.map CsvLine.fields)

/-- What a record says. -/
def readFields : List Csv.Field → Option CsvLine
  | [id, eventType, timestamp, serviceName, method, path, statusCode, responseTimeMs, identifier,
      userEmail, userName] => do
    let t ← GoTime.parse timestamp
    let statusCode ← Json.parseInt64 statusCode
    let responseTimeMs ← Json.parseInt64 responseTimeMs
    return ⟨String.ofList id, String.ofList eventType, t.instant / Calendar.second,
      String.ofList serviceName, String.ofList method, String.ofList path, statusCode,
      responseTimeMs, String.ofList identifier, String.ofList userEmail, String.ofList userName⟩
  | _ => none

def readLines : List (List Csv.Field) → Option (List CsvLine)
  | [] => none
  | header :: records =>
    if header = csvHeader.map String.toList then records.mapM readFields else none

def readCsvFile (s : List Char) : Option (List CsvLine) := (Csv.read s).bind readLines

/-- What the columns of the table allow. -/
def CsvLine.InRange (l : CsvLine) : Prop :=
  (-2 ^ 63 ≤ l.statusCode ∧ l.statusCode < 2 ^ 63) ∧
    (-2 ^ 63 ≤ l.responseTimeMs ∧ l.responseTimeMs < 2 ^ 63)

/-- Its year in UTC has four digits. -/
def CsvLine.Dated (l : CsvLine) : Prop := HasFourDigits (l.timestamp * Calendar.second)

instance (l : CsvLine) : Decidable l.Dated := inferInstanceAs (Decidable (HasFourDigits _))

theorem readFields_fields {l : CsvLine} (h : l.InRange) :
    readFields l.fields = if l.Dated then some l else none := by
  have hstatus := Json.parseInt64_decimal h.1.1 h.1.2
  have htime := Json.parseInt64_decimal h.2.1 h.2.2
  simp only [CsvLine.fields, readFields, parse_formatRFC3339, hstatus, htime, String.ofList_toList,
    Option.bind_eq_bind, Option.bind_some]
  by_cases hdated : HasFourDigits (l.timestamp * Calendar.second)
  · have hsecond : (Calendar.timeOf _ hdated).instant / Calendar.second = l.timestamp := by
      rw [Calendar.instant_timeOf]
      simp only [Calendar.second]
      omega
    rw [dif_pos hdated, if_pos (show l.Dated from hdated), Option.bind_some, hsecond]
    rfl
  · rw [dif_neg hdated, if_neg (show ¬l.Dated from hdated)]
    rfl

theorem mapM_readFields {lines : List CsvLine} (h : ∀ l ∈ lines, l.InRange) :
    (lines.map CsvLine.fields).mapM readFields =
      if ∀ l ∈ lines, l.Dated then some lines else none := by
  induction lines with
  | nil => rfl
  | cons l lines ih =>
    obtain ⟨hl, hlines⟩ := List.forall_mem_cons.mp h
    rw [List.map_cons, List.mapM_cons, ih hlines, readFields_fields hl]
    simp only [List.forall_mem_cons]
    by_cases hdated : l.Dated
    · rw [if_pos hdated]
      by_cases hrest : ∀ l ∈ lines, l.Dated
      · rw [if_pos hrest, if_pos ⟨hdated, hrest⟩]
        rfl
      · rw [if_neg hrest, if_neg (fun hall => hrest hall.2)]
        rfl
    · have hnot : ¬(l.Dated ∧ ∀ l ∈ lines, l.Dated) := fun hall => hdated hall.1
      rw [if_neg hdated, if_neg hnot]
      rfl

theorem read_csvFile (lines : List CsvLine) :
    Csv.read (csvFile lines) =
      some (csvHeader.map String.toList :: lines.map CsvLine.fields) := by
  refine Csv.read_write fun fields hfields => ?_
  rcases List.mem_cons.mp hfields with rfl | hfields
  · exact ⟨List.cons_ne_nil _ _, by decide⟩
  · obtain ⟨l, -, rfl⟩ := List.mem_map.mp hfields
    exact ⟨List.cons_ne_nil _ _, by simp [CsvLine.fields]⟩

/-- The file reads back as the lines it was made of, or not at all. -/
theorem readCsvFile_csvFile {lines : List CsvLine} (h : ∀ l ∈ lines, l.InRange) :
    readCsvFile (csvFile lines) = if ∀ l ∈ lines, l.Dated then some lines else none := by
  rw [readCsvFile, read_csvFile, Option.bind_some, readLines, if_pos rfl, mapM_readFields h]

theorem inRange_csvLine {r : AuditRow} (h : Fits r) : (csvLine (summaryOf r)).InRange := by
  obtain ⟨hlow, hhigh⟩ := h.statusCode
  exact ⟨⟨by simp only [csvLine, summaryOf]; omega, by simp only [csvLine, summaryOf]; omega⟩,
    h.responseTime⟩

/-- The lines of an export are those of all rows that its filters select, the newest first. -/
theorem lines_of_exported {now : ℤ} {db : Database} {q : Query} {day : ℤ} {lines : List CsvLine}
    (h : handleExport now db.audits q = .exported (.csv day lines)) :
    lines = (newestFirst (db.audits.filter q.exportFilters.selects)).map
      fun r => csvLine (summaryOf r) := by
  unfold handleExport at h
  cases herror : q.exportFilters.error with
  | some e =>
    rw [herror] at h
    cases h
  | none =>
    rw [herror] at h
    simp only [answer, Response.exported.injEq, exportRows, exportUpTo] at h
    split_ifs at h with hmany hjson
    cases h
    rw [List.length_map, List.length_take] at hmany
    rw [List.take_of_length_le (by omega), List.map_map]
    rfl

/-- A CSV file reads back as the lines of the rows that the filters of the export select, exactly
when every one of these has a year from 0 to 9999. -/
theorem exported_file_reads_back (db : Database) (now : ℤ) (q : Query) {day : ℤ}
    {lines : List CsvLine} (h : handleExport now db.audits q = .exported (.csv day lines)) :
    readCsvFile (csvFile lines) =
        some ((newestFirst (db.audits.filter q.exportFilters.selects)).map
          fun r => csvLine (summaryOf r)) ↔
      ∀ r ∈ db.audits, q.exportFilters.selects r = true → (csvLine (summaryOf r)).Dated := by
  have hmem {r : AuditRow} : r ∈ newestFirst (db.audits.filter q.exportFilters.selects) ↔
      r ∈ db.audits ∧ q.exportFilters.selects r = true := by
    rw [newestFirst, List.mem_mergeSort, List.mem_filter]
  rw [lines_of_exported h, readCsvFile_csvFile]
  · simp only [List.forall_mem_map, hmem, and_imp]
    split_ifs with hdated
    · exact iff_of_true rfl hdated
    · exact iff_of_false (fun hsome => by cases hsome) hdated
  · intro l hl
    obtain ⟨r, hr, rfl⟩ := List.mem_map.mp hl
    exact inRange_csvLine (db.fits r (hmem.mp hr).1)

/-- A path that has to be quoted. -/
def quotedEvent : Database where
  members := []
  audits := [{ id := "a", timestamp := 0, path := "/a,\"b\"" }]
  fits r hr := List.mem_singleton.mp hr ▸ { fits_plain with path := by decide }
  nodup_ids := by decide

theorem quoted_path_reads_back :
    let lines : List CsvLine := [⟨"a", "http", 0, "", "GET", "/a,\"b\"", 0, 0, "", "", ""⟩]
    handleExport 0 quotedEvent.audits {} = .exported (.csv 0 lines) ∧
      readCsvFile (csvFile lines) = some lines := by
  intro lines
  have hexport : handleExport 0 quotedEvent.audits {} = .exported (.csv 0 lines) := by
    decide +kernel
  refine ⟨hexport, ((exported_file_reads_back quotedEvent 0 {} hexport).mpr ?_).trans ?_⟩
  · decide +kernel
  · decide +kernel

end BatAudit.Reader
