import BatAudit.Lib.GoText

/-!
# Character references of HTML

`html.UnescapeString` of Go's standard library. A reference is a number or a name; a number need
not end in a semicolon, and neither need the oldest of the names. The two tables of names are a
parameter, of which only the names are known that `html.EscapeString` writes.
-/

namespace GoHtml

open GoText (isAlnum isDigit)

/-- The tables `entity` and `entity2`: names with their semicolon, if they have one. -/
structure Entities where
  entity : List Char → Option Char
  entity2 : List Char → Option (Char × Char)
  entity_amp : entity ['a', 'm', 'p', ';'] = some '&'
  entity_lt : entity ['l', 't', ';'] = some '<'
  entity_gt : entity ['g', 't', ';'] = some '>'

instance : Inhabited Entities where
  default :=
    { entity := fun name =>
        if name = ['a', 'm', 'p', ';'] then some '&'
        else if name = ['l', 't', ';'] then some '<'
        else if name = ['g', 't', ';'] then some '>'
        else none
      entity2 := fun _ => none
      entity_amp := rfl
      entity_lt := rfl
      entity_gt := rfl }

/-! ## Numbers -/

/-- What Windows-1252 has at 0x80 to 0x9F. -/
def replacementTable : List Char :=
  ['\u20AC', '\u0081', '\u201A', '\u0192', '\u201E', '\u2026', '\u2020', '\u2021',
    '\u02C6', '\u2030', '\u0160', '\u2039', '\u0152', '\u008D', '\u017D', '\u008F',
    '\u0090', '\u2018', '\u2019', '\u201C', '\u201D', '\u2022', '\u2013', '\u2014',
    '\u02DC', '\u2122', '\u0161', '\u203A', '\u0153', '\u009D', '\u017E', '\u0178']

def isHexDigit (c : Char) : Bool := isDigit c || ('a' ≤ c && c ≤ 'f') || ('A' ≤ c && c ≤ 'F')

def digitValue (c : Char) : ℕ :=
  if isDigit c then c.toNat - '0'.toNat
  else if 'a' ≤ c then c.toNat - 'a'.toNat + 10
  else c.toNat - 'A'.toNat + 10

/-- Numbers wrap around at 32 bits. -/
def number (base : ℕ) (digits : List Char) : ℕ :=
  digits.foldl (fun x c => (base * x + digitValue c) % 2 ^ 32) 0

def charAt (x : ℕ) : Char :=
  if 0x80 ≤ x ∧ x ≤ 0x9F then replacementTable.getD (x - 0x80) '\uFFFD'
  else if x = 0 ∨ ¬ x.isValidChar then '\uFFFD'
  else Char.ofNat x

/-! ## References -/

/-- What stands for a reference, and how many characters it takes after the ampersand. -/
abbrev Reference := List Char × ℕ

def semicolon (s : List Char) : List Char := if s.head? = some ';' then [';'] else []

/-- After `&#`. -/
def numericReference (s : List Char) : Reference :=
  let hex := s.head? = some 'x' || s.head? = some 'X'
  let body := if hex then s.tail else s
  let isBaseDigit := if hex then isHexDigit else isDigit
  let digits := body.takeWhile isBaseDigit
  let i := 2 + (if hex then 1 else 0) + digits.length +
    (semicolon (body.dropWhile isBaseDigit)).length
  if i ≤ 3 then (['&'], 0) else ([charAt (number (if hex then 16 else 10) digits)], i - 1)

/-- The longest of the first letters of a name that are a name without semicolon. -/
def prefixReference (e : Entities) (name : List Char) : ℕ → Option Reference
  | 0 => none
  | j + 1 =>
    if j = 0 then none
    else match e.entity (name.take (j + 1)) with
      | some c => some ([c], j + 1)
      | none => prefixReference e name j

/-- After `&`, where no `#` follows. -/
def namedReference (e : Entities) (s : List Char) : Reference :=
  let name := s.takeWhile isAlnum ++ semicolon (s.dropWhile isAlnum)
  if name = [] then (['&'], 0)
  else match e.entity name, e.entity2 name with
    | some c, _ => ([c], name.length)
    | none, some (c, d) => ([c, d], name.length)
    | none, none =>
      (prefixReference e name (min (name.length - 1) 6)).getD ('&' :: name, name.length)

def unescapeEntity (e : Entities) (s : List Char) : Reference :=
  if s.head? = some '#' then numericReference s.tail else namedReference e s

/-- The first `k` characters belong to a reference that is already replaced. -/
def unescapeFrom (e : Entities) : ℕ → List Char → List Char
  | _, [] => []
  | k + 1, _ :: s => unescapeFrom e k s
  | 0, c :: s =>
    if c = '&' then (unescapeEntity e s).1 ++ unescapeFrom e (unescapeEntity e s).2 s
    else c :: unescapeFrom e 0 s

def unescapeString (e : Entities) (s : String) : String := String.ofList (unescapeFrom e 0 s.toList)

/-! ## What is written for a character -/

variable {e : Entities} {rest : List Char}

theorem unescapeFrom_eq_drop (k : ℕ) (s : List Char) :
    unescapeFrom e k s = unescapeFrom e 0 (s.drop k) := by
  induction s generalizing k with
  | nil => cases k <;> rfl
  | cons c s ih =>
    cases k with
    | zero => rfl
    | succ k => exact ih k

theorem unescapeFrom_cons {c : Char} (hc : c ≠ '&') (s : List Char) :
    unescapeFrom e 0 (c :: s) = c :: unescapeFrom e 0 s := if_neg hc

theorem unescapeFrom_reference {s : List Char} {c : Char}
    (h : unescapeEntity e (s ++ rest) = ([c], s.length)) :
    unescapeFrom e 0 ('&' :: (s ++ rest)) = c :: unescapeFrom e 0 rest := by
  rw [unescapeFrom, if_pos rfl, h, unescapeFrom_eq_drop, List.drop_left, List.singleton_append]

theorem takeWhile_semicolon {p : Char → Bool} {word : List Char} (hword : word.all p = true)
    (hend : p ';' = false) (rest : List Char) :
    (word ++ ';' :: rest).takeWhile p = word ∧ (word ++ ';' :: rest).dropWhile p = ';' :: rest := by
  have hp := List.all_eq_true.mp hword
  rw [List.takeWhile_append_of_pos hp, List.dropWhile_append_of_pos hp,
    List.takeWhile_cons_of_neg (by simp [hend]), List.dropWhile_cons_of_neg (by simp [hend]),
    List.append_nil]
  exact ⟨rfl, rfl⟩

theorem namedReference_semicolon {name : List Char} {c : Char}
    (hname : name.all isAlnum = true) (hentity : e.entity (name ++ [';']) = some c) :
    namedReference e (name ++ ';' :: rest) = ([c], (name ++ [';']).length) := by
  obtain ⟨htake, hdrop⟩ := takeWhile_semicolon hname rfl rest
  have hsemicolon : semicolon (';' :: rest) = [';'] := rfl
  simp only [namedReference, htake, hdrop, hsemicolon, hentity, List.append_eq_nil_iff,
    List.cons_ne_nil, and_false, if_false]

theorem unescapeFrom_name (name : List Char) {c : Char} (hname : name.all isAlnum = true)
    (hentity : e.entity (name ++ [';']) = some c) :
    unescapeFrom e 0 ('&' :: (name ++ [';'] ++ rest)) = c :: unescapeFrom e 0 rest := by
  refine unescapeFrom_reference ?_
  have hhash : ¬(name ++ ';' :: rest).head? = some '#' := by
    cases name with
    | nil => simp
    | cons d name =>
      rw [List.cons_append, List.head?_cons]
      intro h
      obtain rfl := Option.some.inj h
      exact absurd (List.all_eq_true.mp hname '#' List.mem_cons_self) (by decide)
  rw [← List.append_cons, unescapeEntity, if_neg hhash, namedReference_semicolon hname hentity]

theorem numericReference_semicolon {digits : List Char} (hne : digits ≠ [])
    (hdigits : digits.all isDigit = true) :
    numericReference (digits ++ ';' :: rest) =
      ([charAt (number 10 digits)], digits.length + 2) := by
  obtain ⟨htake, hdrop⟩ := takeWhile_semicolon hdigits rfl rest
  have hsemicolon : semicolon (';' :: rest) = [';'] := rfl
  have hdecimal : ¬(digits ++ ';' :: rest).head? = some 'x' ∧
      ¬(digits ++ ';' :: rest).head? = some 'X' := by
    cases digits with
    | nil => exact absurd rfl hne
    | cons d digits =>
      have hd := List.all_eq_true.mp hdigits d List.mem_cons_self
      rw [List.cons_append, List.head?_cons]
      refine ⟨fun h => ?_, fun h => ?_⟩
      · obtain rfl := Option.some.inj h
        exact absurd hd (by decide)
      · obtain rfl := Option.some.inj h
        exact absurd hd (by decide)
  have hlen := List.length_pos_of_ne_nil hne
  simp only [numericReference, hdecimal, decide_false, Bool.or_false, Bool.false_eq_true, if_false,
    htake, hdrop, hsemicolon, List.length_singleton]
  rw [if_neg (by omega)]
  exact congrArg (Prod.mk _) (by omega)

theorem unescapeFrom_number (digits : List Char) (hne : digits ≠ [])
    (hdigits : digits.all isDigit = true) :
    unescapeFrom e 0 ('&' :: ('#' :: (digits ++ [';']) ++ rest)) =
      charAt (number 10 digits) :: unescapeFrom e 0 rest := by
  refine unescapeFrom_reference ?_
  have hcons : '#' :: (digits ++ [';']) ++ rest = '#' :: (digits ++ ';' :: rest) := by simp
  rw [hcons, unescapeEntity, List.head?_cons, if_pos rfl, List.tail_cons,
    numericReference_semicolon hne hdigits]
  simp

end GoHtml
