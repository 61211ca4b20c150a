import Mathlib.Data.List.Basic
import Mathlib.Tactic.SplitIfs

/-!
# Comma-separated values

`write` is what the writer of Go's `encoding/csv` puts out: a line feed ends a record, and a
field is quoted when it has to be, or looks as if. `read` reads a file as RFC 4180 has it, with
either kind of line end and blank lines skipped. What was written reads back, but for a record
of one empty field, which is written as a blank line.
-/

namespace Csv

abbrev Field := List Char

/-! ## Writing -/

/-- `unicode.IsSpace`. -/
def isSpace (c : Char) : Bool :=
  ('\t' ≤ c && c ≤ '\r') || c = ' ' || c.toNat = 0x85 || c.toNat = 0xA0 || c.toNat = 0x1680 ||
    (0x2000 ≤ c.toNat && c.toNat ≤ 0x200A) || c.toNat = 0x2028 || c.toNat = 0x2029 ||
      c.toNat = 0x202F || c.toNat = 0x205F || c.toNat = 0x3000

def isSpecial (c : Char) : Bool := c = ',' || c = '"' || c = '\n' || c = '\r'

def needsQuotes (f : Field) : Bool :=
  f = ['\\', '.'] || f.any isSpecial || f.head?.any isSpace

def escape (f : Field) : List Char := f.flatMap fun c => if c = '"' then ['"', '"'] else [c]

def writeField (f : Field) : List Char :=
  if needsQuotes f then '"' :: (escape f ++ ['"']) else f

def writeFields : List Field → List Char
  | [] => ['\n']
  | [f] => writeField f ++ ['\n']
  | f :: fs => writeField f ++ ',' :: writeFields fs

def write (records : List (List Field)) : List Char := records.flatMap writeFields

/-! ## Reading -/

/-- At the start of a field, in a field without quotes, between quotes, or after a quote that
closes the field unless it is the first of two. -/
inductive Mode
  | start
  | plain
  | quoted
  | closed
deriving DecidableEq, Repr

/-- The record that ends here, unless the line is blank. -/
def endRecord (m : Mode) (record : List Field) (f : Field) : List (List Field) :=
  if m = .start ∧ record = [] then [] else [record ++ [f]]

/-- `f` and `record` are what has been read of the field and of the record. -/
def readFrom : Mode → List Field → Field → List Char → Option (List (List Field))
  | .quoted, _, _, [] => none
  | m, record, f, [] => some (endRecord m record f)
  | .quoted, record, f, c :: s =>
    if c = '"' then readFrom .closed record f s else readFrom .quoted record (f ++ [c]) s
  | .start, record, f, '"' :: s => readFrom .quoted record f s
  | .closed, record, f, '"' :: s => readFrom .quoted record (f ++ ['"']) s
  | _, record, f, ',' :: s => readFrom .start (record ++ [f]) [] s
  | m, record, f, '\n' :: s => (readFrom .start [] [] s).map (endRecord m record f ++ ·)
  | m, record, f, '\r' :: '\n' :: s => (readFrom .start [] [] s).map (endRecord m record f ++ ·)
  | .plain, _, _, '"' :: _ => none
  | .closed, _, _, _ :: _ => none
  | _, record, f, c :: s => readFrom .plain record (f ++ [c]) s

def read (s : List Char) : Option (List (List Field)) := readFrom .start [] [] s

/-! ## What was written reads back -/

variable {record : List Field} {f g : Field} {s : List Char}

@[simp] theorem readFrom_quoted (record : List Field) (f : Field) (c : Char) (s : List Char) :
    readFrom .quoted record f (c :: s) =
      if c = '"' then readFrom .closed record f s else readFrom .quoted record (f ++ [c]) s := rfl

@[simp] theorem readFrom_opening (record : List Field) (f : Field) (s : List Char) :
    readFrom .start record f ('"' :: s) = readFrom .quoted record f s := rfl

theorem readFrom_escape (record : List Field) (f g : Field) (s : List Char) :
    readFrom .quoted record f (escape g ++ s) = readFrom .quoted record (f ++ g) s := by
  induction g generalizing f with
  | nil => rw [List.append_nil, escape, List.flatMap_nil, List.nil_append]
  | cons c g ih =>
    rw [escape, List.flatMap_cons, List.append_assoc, ← escape, List.append_cons f c g]
    by_cases hc : c = '"'
    · subst hc
      exact ih (f ++ ['"'])
    · rw [if_neg hc, List.singleton_append, readFrom_quoted, if_neg hc]
      exact ih (f ++ [c])

/-- Outside quotes a character without a meaning of its own goes into the field. -/
theorem readFrom_ordinary {m : Mode} (hm : m = .start ∨ m = .plain) (record : List Field)
    (f : Field) {c : Char} (hc : isSpecial c = false) (s : List Char) :
    readFrom m record f (c :: s) = readFrom .plain record (f ++ [c]) s := by
  simp only [isSpecial, Bool.or_eq_false_iff, decide_eq_false_iff_not] at hc
  obtain ⟨⟨⟨hcomma, hquote⟩, hfeed⟩, hreturn⟩ := hc
  rcases hm with rfl | rfl
  all_goals rw [readFrom] <;> simp_all

theorem readFrom_plain (record : List Field) (f : Field) (hg : ∀ c ∈ g, isSpecial c = false)
    (s : List Char) : readFrom .plain record f (g ++ s) = readFrom .plain record (f ++ g) s := by
  induction g generalizing f with
  | nil => rw [List.append_nil, List.nil_append]
  | cons c g ih =>
    obtain ⟨hc, hg⟩ := List.forall_mem_cons.mp hg
    rw [List.cons_append, List.append_cons f c g, ← ih (f ++ [c]) hg]
    exact readFrom_ordinary (Or.inr rfl) record f hc _

theorem readFrom_start (record : List Field) {c : Char} (hc : isSpecial c = false)
    (s : List Char) : readFrom .start record [] (c :: s) = readFrom .plain record [c] s :=
  readFrom_ordinary (Or.inl rfl) record [] hc s

/-- A field reads back up to where it ends. -/
theorem readFrom_writeField (record : List Field) (f : Field) (s : List Char) :
    readFrom .start record [] (writeField f ++ s) =
      if needsQuotes f then readFrom .closed record f s
      else if f = [] then readFrom .start record [] s else readFrom .plain record f s := by
  unfold writeField
  split_ifs with hquotes hempty
  · rw [List.cons_append, List.append_assoc, List.singleton_append, readFrom_opening,
      readFrom_escape, List.nil_append, readFrom_quoted, if_pos rfl]
  · rw [hempty, List.nil_append]
  · obtain ⟨c, g, rfl⟩ := List.exists_cons_of_ne_nil hempty
    have hplain : ∀ d ∈ c :: g, isSpecial d = false := by
      simp only [needsQuotes, Bool.or_eq_true, not_or] at hquotes
      intro d hd
      by_contra hspecial
      exact hquotes.1.2 (List.any_eq_true.mpr ⟨d, hd, (Bool.not_eq_false _).mp hspecial⟩)
    obtain ⟨hc, hg⟩ := List.forall_mem_cons.mp hplain
    rw [List.cons_append, readFrom_start record hc, readFrom_plain record [c] hg]
    rfl

theorem readFrom_comma (record : List Field) (f : Field) (s : List Char) :
    readFrom .start record [] (writeField f ++ ',' :: s) =
      readFrom .start (record ++ [f]) [] s := by
  rw [readFrom_writeField]
  split_ifs with hquotes hempty
  · rfl
  · rw [hempty]
    rfl
  · rfl

theorem readFrom_feed (h : record = [] → f ≠ []) (s : List Char) :
    readFrom .start record [] (writeField f ++ '\n' :: s) =
      (readFrom .start [] [] s).map ((record ++ [f]) :: ·) := by
  rw [readFrom_writeField]
  split_ifs with hquotes hempty
  · rfl
  · have hrecord : record ≠ [] := fun hnil => h hnil hempty
    have hend : endRecord .start record [] = [record ++ [f]] := by
      rw [endRecord, if_neg fun hstart => hrecord hstart.2, hempty]
    change (readFrom .start [] [] s).map (endRecord .start record [] ++ ·) = _
    rw [hend]
    rfl
  · rfl

/-- A record that is not written as a blank line. -/
def IsShown (fields : List Field) : Prop := fields ≠ [] ∧ fields ≠ [[]]

theorem readFrom_writeFields {fields : List Field} (hne : fields ≠ [])
    (h : record = [] → fields ≠ [[]]) (s : List Char) :
    readFrom .start record [] (writeFields fields ++ s) =
      (readFrom .start [] [] s).map ((record ++ fields) :: ·) := by
  induction fields generalizing record with
  | nil => exact absurd rfl hne
  | cons f fields ih =>
    cases fields with
    | nil =>
      rw [writeFields, List.append_assoc, List.singleton_append]
      exact readFrom_feed (fun hnil hempty => h hnil (by rw [hempty])) s
    | cons f' fields =>
      rw [writeFields, List.append_assoc, List.cons_append, readFrom_comma,
        ih (List.cons_ne_nil _ _) (fun hnil => absurd hnil (by simp)), List.append_assoc]
      · rfl
      · exact List.cons_ne_nil _ _

theorem read_write {records : List (List Field)} (h : ∀ fields ∈ records, IsShown fields) :
    read (write records) = some records := by
  unfold read write
  induction records with
  | nil => rfl
  | cons fields records ih =>
    obtain ⟨hfields, hrecords⟩ := List.forall_mem_cons.mp h
    rw [List.flatMap_cons, readFrom_writeFields hfields.1 (fun _ => hfields.2), ih hrecords]
    rfl

end Csv
