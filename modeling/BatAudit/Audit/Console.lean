import Mathlib.Data.List.Infix
import BatAudit.Auth.Schema
import BatAudit.Lib.GoText
import BatAudit.Lib.GoTime

/-!
# The query console

`RunQuery` with the checks before it, the statement it sends and the rows it reads. A `LIMIT` that
the statement does not have is appended to its text, and the reading stops after as many rows.
-/

namespace BatAudit.Console

open Auth (bind_eq_ok)

def defaultMaxRows : ℕ := 1000

/-! ## The statement -/

/-- `strings.TrimRight(q, "; \t\r\n")`. -/
def trimRight (q : List Char) : List Char := q.rdropWhile fun c => "; \t\r\n".toList.contains c

def validateQuery (raw : String) : Except String String :=
  let q := trimRight (GoText.trimSpace raw.toList)
  let lower := GoText.toLower q
  if q = [] then .error "empty query"
  else if q.contains ';' then .error "only a single statement is allowed (remove ';')"
  else if !"select".toList.isPrefixOf lower && !"with".toList.isPrefixOf lower then
    .error "only SELECT queries are allowed"
  else .ok (String.ofList q)

/-- `\w`. -/
def isWord (c : Char) : Bool := GoText.isAlnum c || c = '_'

/-- `\s`. -/
def isBlank (c : Char) : Bool := c = '\t' || c = '\n' || c = '\x0C' || c = '\r' || c = ' '

/-- `(?i)limit\s+\d+` at the start of a text. -/
def limitAt (s : List Char) : Bool :=
  let rest := s.drop 5
  (s.take 5).map GoText.foldRune = "LIMIT".toList && rest.head?.any isBlank &&
    (rest.dropWhile isBlank).head?.any GoText.isDigit

/-- A match anywhere in a text after a character, where the word begins. -/
def limitAfter : Option Char → List Char → Bool
  | _, [] => false
  | p, c :: s => (!p.any isWord && limitAt (c :: s)) || limitAfter (some c) s

def hasLimit (q : String) : Bool := limitAfter none q.toList

def limitClause (max : ℕ) : String := " LIMIT " ++ toString max

def enforceLimit (q : String) (max : ℕ) : String :=
  if hasLimit q then q else q ++ limitClause max

/-! ## The rows -/

/-- A value of the driver. A text of Go is its bytes. -/
inductive Value
  | null
  | int (i : ℤ)
  | float (bits : BitVec 64)
  | bool (b : Bool)
  | bytes (b : List UInt8)
  | text (s : List UInt8)
  | time (t : GoTime.Time)
deriving DecidableEq

/-- `Format(time.RFC3339)`, without the fraction of the second. -/
def rfc3339 (t : GoTime.Time) : List Char :=
  GoTime.pad 4 t.year ++ '-' :: (GoTime.pad 2 t.month ++ '-' :: (GoTime.pad 2 t.day ++
    'T' :: (GoTime.pad 2 t.hour ++ ':' :: (GoTime.pad 2 t.minute ++
      ':' :: (GoTime.pad 2 t.second ++ GoTime.formatZone t.offset)))))

def normalizeValue : Value → Value
  | .bytes b => .text b
  | .time t => .text (String.ofList (rfc3339 t)).toUTF8.toList
  | v => v

abbrev Row := List Value

def normalizeRow (row : Row) : Row := row.map normalizeValue

/-- What the driver hands out: rows, and at the end nothing more, a failure, or a row that is not
scanned. -/
inductive Rows
  | done
  | failed (msg : String)
  | unscanned (msg : String)
  | row (scan : Row) (rest : Rows)

def friendlyDBError (msg : String) : String :=
  if "read-only".toList <:+: msg.toList ∨ "permission denied".toList <:+: msg.toList then
    "query rejected: " ++ msg
  else "query error: " ++ msg

/-- The loop over the rows, with those of the result so far. -/
def readRows (max : ℕ) (rows : List Row) : Rows → Except String (List Row × Bool)
  | .done => .ok (rows, false)
  | .failed msg => .error (friendlyDBError msg)
  | .unscanned msg => if max ≤ rows.length then .ok (rows, true) else .error msg
  | .row scan rest =>
    if max ≤ rows.length then .ok (rows, true)
    else readRows max (rows ++ [normalizeRow scan]) rest

/-! ## The transaction -/

inductive Role
  | own
  | readonly
deriving DecidableEq

structure Opened where
  columns : Except String (List String)
  rows : Rows

/-- What a run meets: whether there is a handle and a transaction, whether the savepoint and the
role are set in it, how a statement is answered, and the clock in nanoseconds. -/
structure Conn where
  handle : Except String Unit := .ok ()
  beginTx : Except String Unit := .ok ()
  savepoint : Bool
  setRole : Bool
  query : String → Except String Opened
  start : ℤ := 0
  stop : ℤ := 0

/-- The role is only set behind the savepoint. -/
def Conn.role (c : Conn) : Role := if c.savepoint && c.setRole then .readonly else .own

structure QueryResult where
  columns : List String
  rows : List Row
  rowCount : ℕ
  elapsedMs : ℤ
  truncated : Bool

def runQuery (c : Conn) (raw : String) : Except String QueryResult := do
  let q ← validateQuery raw
  let q := enforceLimit q defaultMaxRows
  c.handle.mapError ("db handle: " ++ ·)
  c.beginTx.mapError ("begin read-only tx: " ++ ·)
  let opened ← (c.query q).mapError friendlyDBError
  let columns ← opened.columns
  let (rows, truncated) ← readRows defaultMaxRows [] opened.rows
  return { columns, rows, truncated
           rowCount := rows.length
           elapsedMs := (c.stop - c.start).tdiv 1000000 }

/-! ## The database -/

/-- The rows that a statement has in a role, in each order they may come in, none when it is
refused. -/
structure Database where
  answers : Role → String → List Row → Prop
  /-- A text that ends in a comment, which goes on in what is appended. -/
  EndsInComment : String → Prop

/-- A `LIMIT` at the end of a statement leaves the first rows, if the statement is not refused
with it. -/
def Database.Limits (db : Database) : Prop :=
  ∀ role q rows, (∃ rows', db.answers role q rows') →
    db.answers role (q ++ limitClause defaultMaxRows) rows →
      (db.EndsInComment q ∧ db.answers role q rows) ∨
        (¬db.EndsInComment q ∧
          ∃ rows', db.answers role q rows' ∧ rows = rows'.take defaultMaxRows)

/-- The rows of an answer are handed out in order, as far as nothing fails. -/
inductive HandsOut : List Row → Rows → Prop
  | done : HandsOut [] .done
  | failed (rows : List Row) (msg : String) : HandsOut rows (.failed msg)
  | unscanned (row : Row) (rows : List Row) (msg : String) :
      HandsOut (row :: rows) (.unscanned msg)
  | row (row : Row) {rows : List Row} {rest : Rows} (h : HandsOut rows rest) :
      HandsOut (row :: rows) (.row row rest)

/-- A run against a database. -/
def Conn.Of (db : Database) (c : Conn) : Prop :=
  ∀ q opened, c.query q = .ok opened → ∃ rows, db.answers c.role q rows ∧ HandsOut rows opened.rows

/-- Run as it is, the statement has so many rows. -/
structure Database.Produces (db : Database) (role : Role) (q : String) (n : ℕ) : Prop where
  answered : ∃ rows, db.answers role q rows
  length : ∀ rows, db.answers role q rows → rows.length = n

/-- A run that does not fail has the first rows, their number, and whether there are more. -/
def Database.Truthful (db : Database) (role : Role) (raw q : String) (n : ℕ) : Prop :=
  ∀ c : Conn, c.Of db → c.role = role → ∀ result, runQuery c raw = .ok result →
    (∃ rows, db.answers role q rows ∧
      result.rows = (rows.take (min n defaultMaxRows)).map normalizeRow) ∧
    result.rowCount = result.rows.length ∧ (result.truncated = true ↔ defaultMaxRows < n)

/-! ## What a run reads -/

variable {db : Database} {role : Role} {raw q : String} {n max : ℕ} {rows : List Row} {c : Conn}

/-- A row more than the cap ends the loop, whatever comes after it. -/
theorem stops_at_cap {read out : List Row} {truncated : Bool} (hle : max ≤ read.length)
    (hne : rows ≠ []) (h : (Except.ok (read, true) : Except String _) = .ok (out, truncated)) :
    out = read ++ (rows.take (max - read.length)).map normalizeRow ∧
      (truncated = true ↔ max < read.length + rows.length) := by
  have hpos := List.length_pos_of_ne_nil hne
  cases h
  rw [Nat.sub_eq_zero_of_le hle, List.take_zero, List.map_nil, List.append_nil]
  exact ⟨rfl, iff_of_true rfl (by omega)⟩

/-- The loop adds the first rows up to the cap, and notes a row beyond it. -/
theorem readRows_spec {read out : List Row} {stream : Rows} {truncated : Bool}
    (h : HandsOut rows stream) (hread : read.length ≤ max)
    (hrun : readRows max read stream = .ok (out, truncated)) :
    out = read ++ (rows.take (max - read.length)).map normalizeRow ∧
      (truncated = true ↔ max < read.length + rows.length) := by
  induction h generalizing read with
  | done =>
    cases hrun
    exact ⟨by simp, by simpa using hread⟩
  | failed => cases hrun
  | unscanned row rows msg =>
    rw [readRows] at hrun
    split_ifs at hrun with hle
    exact stops_at_cap hle (List.cons_ne_nil row rows) hrun
  | @row row rows rest h ih =>
    rw [readRows] at hrun
    split_ifs at hrun with hle
    · exact stops_at_cap hle (List.cons_ne_nil row rows) hrun
    · have hlength : (read ++ [normalizeRow row]).length = read.length + 1 := List.length_append
      have hleft : max - read.length = max - (read.length + 1) + 1 := by omega
      obtain ⟨hout, htruncated⟩ := ih (by omega) hrun
      rw [hlength] at hout htruncated
      rw [hleft, List.take_succ_cons, List.map_cons, List.length_cons, hout, htruncated,
        List.append_assoc, List.singleton_append]
      exact ⟨rfl, by omega⟩

/-- All rows, and then nothing more. -/
def handOut (rows : List Row) : Rows := rows.foldr Rows.row .done

theorem handsOut_handOut (rows : List Row) : HandsOut rows (handOut rows) := by
  induction rows with
  | nil => exact .done
  | cons row rows ih => exact .row row ih

/-- A run in which nothing fails comes to an end. -/
theorem exists_readRows (max : ℕ) (read rows : List Row) :
    ∃ out truncated, readRows max read (handOut rows) = .ok (out, truncated) := by
  induction rows generalizing read with
  | nil => exact ⟨read, false, rfl⟩
  | cons row rows ih =>
    rw [handOut, List.foldr_cons, readRows]
    split_ifs
    · exact ⟨read, true, rfl⟩
    · exact ih _

theorem mapError_eq_ok {α : Type} {f : String → String} {x : Except String α} {a : α} :
    x.mapError f = .ok a ↔ x = .ok a := by
  cases x with
  | error e => exact ⟨nofun, nofun⟩
  | ok b => exact Iff.rfl

/-- A run that does not fail, with the parts of its result. -/
theorem runQuery_eq_ok {result : QueryResult} (hq : validateQuery raw = .ok q)
    (h : runQuery c raw = .ok result) :
    ∃ opened, c.query (enforceLimit q defaultMaxRows) = .ok opened ∧
      readRows defaultMaxRows [] opened.rows = .ok (result.rows, result.truncated) ∧
      result.rowCount = result.rows.length := by
  unfold runQuery at h
  obtain ⟨q', hq', h⟩ := bind_eq_ok.mp h
  obtain rfl := Except.ok.inj (hq'.symm.trans hq)
  obtain ⟨-, -, h⟩ := bind_eq_ok.mp h
  obtain ⟨-, -, h⟩ := bind_eq_ok.mp h
  obtain ⟨opened, hopened, h⟩ := bind_eq_ok.mp h
  obtain ⟨columns, -, h⟩ := bind_eq_ok.mp h
  obtain ⟨⟨out, truncated⟩, hread, h⟩ := bind_eq_ok.mp h
  cases h
  exact ⟨opened, mapError_eq_ok.mp hopened, hread, rfl⟩

/-! ## The statement that is sent -/

/-- What a run reads of an answer to the statement it sends. -/
theorem rows_of_readRows {result : QueryResult} {stream : Rows}
    (hread : readRows defaultMaxRows [] stream = .ok (result.rows, result.truncated))
    (hout : HandsOut rows stream) : result.rows = (rows.take defaultMaxRows).map normalizeRow ∧
      (result.truncated = true ↔ defaultMaxRows < rows.length) := by
  have hspec := readRows_spec hout (Nat.zero_le defaultMaxRows : ([] : List Row).length ≤ _) hread
  rwa [List.nil_append, List.length_nil, Nat.sub_zero, Nat.zero_add] at hspec

/-- The cap on the reading alone is truthful. -/
theorem truthful_of_answers (hq : validateQuery raw = .ok q) (hn : db.Produces role q n)
    (hall : ∀ rows, db.answers role (enforceLimit q defaultMaxRows) rows →
      db.answers role q rows) : db.Truthful role raw q n := by
  intro c hof hrole result hrun
  obtain ⟨opened, hopened, hread, hcount⟩ := runQuery_eq_ok hq hrun
  obtain ⟨rows, hrows, hout⟩ := hof _ _ hopened
  obtain ⟨hresult, htruncated⟩ := rows_of_readRows hread hout
  have hanswer := hall rows (hrole ▸ hrows)
  have hlength := hn.length rows hanswer
  refine ⟨⟨rows, hanswer, ?_⟩, hcount, hlength ▸ htruncated⟩
  rw [hresult, ← hlength, Nat.min_comm, ← List.take_eq_take_min]

/-- A run in which nothing fails, on an answer to the statement it sends. -/
def through (role : Role) (sent : String) (rows : List Row) : Conn where
  savepoint := role = .readonly
  setRole := true
  query s := if s = sent then .ok ⟨.ok [], handOut rows⟩ else .error "syntax error"

theorem role_through (role : Role) (sent : String) (rows : List Row) :
    (through role sent rows).role = role := by
  cases role <;> rfl

theorem of_through {sent : String} (h : db.answers role sent rows) :
    (through role sent rows).Of db := by
  intro s opened hopened
  change (if s = sent then Except.ok _ else _) = _ at hopened
  split_ifs at hopened with hs
  cases hopened
  rw [role_through, hs]
  exact ⟨rows, h, handsOut_handOut rows⟩

theorem exists_result (hq : validateQuery raw = .ok q) (role : Role) (rows : List Row) :
    ∃ result, runQuery (through role (enforceLimit q defaultMaxRows) rows) raw = .ok result := by
  obtain ⟨out, truncated, hread⟩ := exists_readRows defaultMaxRows [] rows
  refine ⟨⟨[], out, out.length, 0, truncated⟩, ?_⟩
  unfold runQuery
  refine bind_eq_ok.mpr ⟨q, hq, bind_eq_ok.mpr ⟨(), rfl, bind_eq_ok.mpr ⟨(), rfl, ?_⟩⟩⟩
  refine bind_eq_ok.mpr ⟨⟨.ok [], handOut rows⟩, mapError_eq_ok.mpr (if_pos rfl), ?_⟩
  exact bind_eq_ok.mpr ⟨[], rfl, bind_eq_ok.mpr ⟨(out, truncated), hread, rfl⟩⟩

/-- An answer that the database has cut off does not look cut off to the loop. -/
theorem not_truthful_of_cut (hq : validateQuery raw = .ok q) (hmany : defaultMaxRows < n)
    (hanswer : db.answers role (enforceLimit q defaultMaxRows) rows)
    (hcut : rows.length ≤ defaultMaxRows) : ¬db.Truthful role raw q n := by
  intro h
  obtain ⟨result, hrun⟩ := exists_result hq role rows
  have htruthful := (h _ (of_through hanswer) (role_through _ _ _) result hrun).2.2
  obtain ⟨opened, hopened, hread, -⟩ := runQuery_eq_ok hq hrun
  obtain rfl : _ = opened := Except.ok.inj ((if_pos rfl).symm.trans hopened)
  have htruncated := (rows_of_readRows hread (handsOut_handOut rows)).2
  exact absurd (htruncated.mp (htruthful.mpr hmany)) (not_lt.mpr hcut)

/-- The console says the truth exactly when the rows are few enough, the statement is sent as it
is, or the `LIMIT` is not read or not taken. -/
theorem truthful_iff (hlimits : db.Limits) (hq : validateQuery raw = .ok q)
    (hn : db.Produces role q n) : db.Truthful role raw q n ↔
      n ≤ defaultMaxRows ∨ hasLimit q = true ∨ db.EndsInComment q ∨
        ∀ rows, ¬db.answers role (q ++ limitClause defaultMaxRows) rows := by
  constructor
  · intro h
    by_contra hnot
    obtain ⟨hmany, hlimit, hcomment, hanswered⟩ := by simpa only [not_or] using hnot
    obtain ⟨rows, hrows⟩ := not_forall_not.mp hanswered
    have hsent : enforceLimit q defaultMaxRows = q ++ limitClause defaultMaxRows := if_neg hlimit
    rcases hlimits role q rows hn.answered hrows with ⟨hends, -⟩ | ⟨-, rows', -, rfl⟩
    · exact hcomment hends
    · exact not_truthful_of_cut hq (not_le.mp hmany) (hsent ▸ hrows) (List.length_take_le _ _) h
  · intro hcases
    refine truthful_of_answers hq hn fun rows hrows => ?_
    by_cases hlimit : hasLimit q = true
    · rwa [enforceLimit, if_pos hlimit] at hrows
    · rw [enforceLimit, if_neg hlimit] at hrows
      rcases hlimits role q rows hn.answered hrows with ⟨-, hanswer⟩ | ⟨hends, rows', hanswer, rfl⟩
      · exact hanswer
      · rcases hcases with hfew | h | h | h
        · rwa [List.take_of_length_le (hn.length rows' hanswer ▸ hfew)]
        · exact absurd h hlimit
        · exact absurd h hends
        · exact absurd hrows (h _)

/-! ## A table of audits -/

/-- Knows one statement, and that with the `LIMIT`. -/
def audited (all : List Row) : Database where
  answers _ q rows := (q = "SELECT * FROM audits" ∧ rows = all) ∨
    (q = "SELECT * FROM audits LIMIT 1000" ∧ rows = all.take defaultMaxRows)
  EndsInComment _ := False

theorem limits_audited (all : List Row) : (audited all).Limits := by
  rintro role q rows ⟨rows', hq⟩ hrows
  refine Or.inr ⟨not_false, ?_⟩
  rcases hq with ⟨rfl, -⟩ | ⟨rfl, -⟩
  · rcases hrows with ⟨heq, -⟩ | ⟨-, hrows⟩
    · exact absurd heq (by decide)
    · exact ⟨all, Or.inl ⟨rfl, rfl⟩, hrows⟩
  · rcases hrows with ⟨heq, -⟩ | ⟨heq, -⟩
    · exact absurd heq (by decide)
    · exact absurd heq (by decide)

theorem produces_audited (all : List Row) (role : Role) :
    (audited all).Produces role "SELECT * FROM audits" all.length where
  answered := ⟨all, Or.inl ⟨rfl, rfl⟩⟩
  length rows hrows := by
    rcases hrows with ⟨-, rfl⟩ | ⟨heq, -⟩
    · rfl
    · exact absurd heq (by decide)

theorem validate_audited :
    validateQuery " SELECT * FROM audits;" = .ok "SELECT * FROM audits" := by
  decide

theorem truthful_two_rows : (audited [[.int 1], [.int 2]]).Truthful .readonly
    " SELECT * FROM audits;" "SELECT * FROM audits" 2 :=
  (truthful_iff (limits_audited _) validate_audited (produces_audited _ .readonly)).mpr
    (Or.inl (by decide))

/-- Of 1001 rows the database leaves 1000, and the console says that these are all. -/
theorem cut_not_told : ¬(audited (List.replicate 1001 [.int 1])).Truthful .readonly
    " SELECT * FROM audits;" "SELECT * FROM audits" 1001 :=
  not_truthful_of_cut validate_audited (by decide) (Or.inr ⟨by decide, rfl⟩)
    (List.length_take_le _ _)

end BatAudit.Console
