import Mathlib.Data.List.Basic
import Mathlib.Data.Nat.Notation

/-!
# Forms in a query

`application/x-www-form-urlencoded`, as the `URLSearchParams` of a browser write it and as Go's
`url.ParseQuery` reads it. Texts are written in UTF-8. The reader takes bytes for what they are
and passes over the parts that it cannot read.
-/

namespace FormUrlencoded

abbrev Text := List Char

abbrev Bytes := List UInt8

def utf8 (s : Text) : Bytes := s.flatMap String.utf8EncodeChar

def text? (bytes : Bytes) : Option Text := bytes.toByteArray.utf8Decode?.map Array.toList

/-! ## Writing -/

def percent : UInt8 := 0x25

def ampersand : UInt8 := 0x26

def plus : UInt8 := 0x2B

def semicolon : UInt8 := 0x3B

def equals : UInt8 := 0x3D

def hexDigit (n : ℕ) : UInt8 := if n < 10 then .ofNat (48 + n) else .ofNat (55 + n)

def escapeByte (b : UInt8) : Bytes := [percent, hexDigit (b.toNat / 16), hexDigit (b.toNat % 16)]

def isKept (c : Char) : Bool := c.isAlphanum || c = '*' || c = '-' || c = '.' || c = '_'

def escapeChar (c : Char) : Bytes :=
  if c = ' ' then [plus]
  else if isKept c then String.utf8EncodeChar c
  else (String.utf8EncodeChar c).flatMap escapeByte

def escape (s : Text) : Bytes := s.flatMap escapeChar

/-- `toString` of `URLSearchParams`. -/
def serialize (entries : List (Text × Text)) : Bytes :=
  [ampersand].intercalate (entries.map fun e => escape e.1 ++ equals :: escape e.2)

/-! ## Reading -/

def unhex (b : UInt8) : Option ℕ :=
  let n := b.toNat
  if 48 ≤ n ∧ n ≤ 57 then some (n - 48)
  else if 65 ≤ n ∧ n ≤ 70 then some (n - 55)
  else if 97 ≤ n ∧ n ≤ 102 then some (n - 87)
  else none

/-- `url.QueryUnescape`. -/
def unescape : Bytes → Option Bytes
  | [] => some []
  | b :: s =>
    if b = percent then
      match s with
      | hi :: lo :: rest => do
        let hi ← unhex hi
        let lo ← unhex lo
        (unescape rest).map fun bytes => .ofNat (hi * 16 + lo) :: bytes
      | _ => none
    else (unescape s).map fun bytes => (if b = plus then 0x20 else b) :: bytes

/-- A part of the query, before or after the first equals sign of it. -/
def readPart (part : Bytes) : Option (Bytes × Bytes) :=
  if semicolon ∈ part ∨ part = [] then none
  else do
    let key ← unescape (part.takeWhile (· ≠ equals))
    let value ← unescape (part.dropWhile (· ≠ equals)).tail
    return (key, value)

def parseQuery (query : Bytes) : List (Bytes × Bytes) :=
  (query.splitOn ampersand).filterMap readPart

/-- The first value of a name. -/
def get (values : List (Bytes × Bytes)) (name : Bytes) : Bytes := (values.lookup name).getD []

/-! ## What was written reads back -/

theorem text?_utf8 (s : Text) : text? (utf8 s) = some s := by
  have hencode : (utf8 s).toByteArray = s.utf8Encode := rfl
  rw [text?, hencode, List.utf8Decode?_utf8Encode, Option.map_some]

theorem utf8_injective : Function.Injective utf8 := fun s t h => by
  have htext := congrArg text? h
  rwa [text?_utf8, text?_utf8, Option.some.injEq] at htext

/-- What a text is written with: no bytes with a meaning of their own but those of an escape. -/
def IsPlain (b : UInt8) : Prop := b ≠ ampersand ∧ b ≠ semicolon ∧ b ≠ equals

instance : DecidablePred IsPlain := fun _ => inferInstanceAs (Decidable (_ ∧ _))

theorem hexDigit_spec : ∀ n < 16, unhex (hexDigit n) = some n ∧ IsPlain (hexDigit n) := by
  decide

theorem digits_lt (b : UInt8) : b.toNat / 16 < 16 ∧ b.toNat % 16 < 16 := by
  have hlt := b.toNat_lt
  omega

theorem unescape_cons {b : UInt8} (hpercent : b ≠ percent) (hplus : b ≠ plus) (s : Bytes) :
    unescape (b :: s) = (unescape s).map fun bytes => b :: bytes := by
  rw [unescape.eq_def]
  simp only [if_neg hpercent, if_neg hplus]

theorem unescape_plus (s : Bytes) :
    unescape (plus :: s) = (unescape s).map fun bytes => 0x20 :: bytes := by
  have hne : plus ≠ percent := by decide
  rw [unescape.eq_def]
  simp only [if_neg hne, if_true]

theorem unescape_escapeByte (b : UInt8) (s : Bytes) :
    unescape (escapeByte b ++ s) = (unescape s).map fun bytes => b :: bytes := by
  obtain ⟨hhigh, hlow⟩ := digits_lt b
  have hbyte : UInt8.ofNat (b.toNat / 16 * 16 + b.toNat % 16) = b := by
    rw [Nat.div_add_mod', UInt8.ofNat_toNat]
  simp only [escapeByte, List.cons_append, List.nil_append, unescape, if_true,
    (hexDigit_spec _ hhigh).1, (hexDigit_spec _ hlow).1, Option.bind_eq_bind, Option.bind_some, hbyte]

theorem unescape_flatMap (bytes s : Bytes) :
    unescape (bytes.flatMap escapeByte ++ s) = (unescape s).map fun rest => bytes ++ rest := by
  induction bytes with
  | nil => simp
  | cons b bytes ih =>
    rw [List.flatMap_cons, List.append_assoc, unescape_escapeByte, ih, Option.map_map]
    rfl

theorem toNat_of_isKept {c : Char} (h : isKept c = true) : c.toNat < 128 ∧
    c.toNat ≠ 0x25 ∧ c.toNat ≠ 0x26 ∧ c.toNat ≠ 0x2B ∧ c.toNat ≠ 0x3B ∧ c.toNat ≠ 0x3D := by
  simp only [isKept, Bool.or_eq_true, decide_eq_true_eq] at h
  rcases h with (((halnum | rfl) | rfl) | rfl) | rfl
  · change (decide (c.val ≥ 65 ∧ c.val ≤ 90) || decide (c.val ≥ 97) && decide (c.val ≤ 122)
      || decide (c.val ≥ 48) && decide (c.val ≤ 57)) = true at halnum
    simp only [Bool.or_eq_true, Bool.and_eq_true, decide_eq_true_eq, ge_iff_le,
      UInt32.le_iff_toNat_le] at halnum
    change ((65 ≤ c.toNat ∧ c.toNat ≤ 90) ∨ (97 ≤ c.toNat ∧ c.toNat ≤ 122)) ∨
      (48 ≤ c.toNat ∧ c.toNat ≤ 57) at halnum
    omega
  all_goals decide

/-- A character that is kept is one byte. -/
theorem utf8EncodeChar_of_isKept {c : Char} (h : isKept c = true) :
    ∃ b, String.utf8EncodeChar c = [b] ∧ b ≠ percent ∧ b ≠ plus ∧ IsPlain b := by
  obtain ⟨hlt, hpercent, hampersand, hplus, hsemicolon, hequals⟩ := toNat_of_isKept h
  have hsize : c.utf8Size = 1 := Char.utf8Size_eq_one_iff.mpr (Nat.le_of_lt_succ hlt)
  have hbyte : c.val.toUInt8.toNat = c.toNat := by
    rw [UInt32.toNat_toUInt8]
    exact Nat.mod_eq_of_lt (Nat.lt_trans hlt (by decide))
  have hne {b : UInt8} (hb : c.toNat ≠ b.toNat) : c.val.toUInt8 ≠ b := fun heq =>
    hb (by rw [← hbyte, heq])
  exact ⟨_, String.utf8EncodeChar_eq_singleton hsize, hne hpercent, hne hplus, hne hampersand,
    hne hsemicolon, hne hequals⟩

theorem unescape_escapeChar (c : Char) (s : Bytes) : unescape (escapeChar c ++ s) =
    (unescape s).map fun rest => String.utf8EncodeChar c ++ rest := by
  unfold escapeChar
  split_ifs with hspace hkept
  · rw [hspace, List.singleton_append, unescape_plus]
    rfl
  · obtain ⟨b, hb, hpercent, hplus, -⟩ := utf8EncodeChar_of_isKept hkept
    rw [hb, List.singleton_append, unescape_cons hpercent hplus]
    rfl
  · exact unescape_flatMap _ s

theorem unescape_escape (s : Text) : unescape (escape s) = some (utf8 s) := by
  induction s with
  | nil => rfl
  | cons c s ih =>
    rw [escape, List.flatMap_cons, unescape_escapeChar]
    rw [escape] at ih
    rw [ih, Option.map_some, utf8, utf8, List.flatMap_cons]

theorem isPlain_of_mem_escape {s : Text} {b : UInt8} (h : b ∈ escape s) : IsPlain b := by
  obtain ⟨c, -, hb⟩ := List.mem_flatMap.mp h
  unfold escapeChar at hb
  split_ifs at hb with hspace hkept
  · rw [List.mem_singleton.mp hb]
    decide
  · obtain ⟨b', hb', -, -, hplain⟩ := utf8EncodeChar_of_isKept hkept
    rw [hb', List.mem_singleton] at hb
    rwa [hb]
  · obtain ⟨b', -, hb⟩ := List.mem_flatMap.mp hb
    obtain ⟨hhigh, hlow⟩ := digits_lt b'
    simp only [escapeByte, List.mem_cons, List.not_mem_nil, or_false] at hb
    rcases hb with rfl | rfl | rfl
    · decide
    · exact (hexDigit_spec _ hhigh).2
    · exact (hexDigit_spec _ hlow).2

theorem readPart_escape (name value : Text) :
    readPart (escape name ++ equals :: escape value) = some (utf8 name, utf8 value) := by
  have hne : ∀ b ∈ escape name, decide (b ≠ equals) = true := fun b hb =>
    decide_eq_true (isPlain_of_mem_escape hb).2.2
  have hsemicolon : semicolon ∉ escape name ++ equals :: escape value := by
    rw [List.mem_append, List.mem_cons]
    rintro (h | h | h)
    · exact (isPlain_of_mem_escape h).2.1 rfl
    · revert h
      decide
    · exact (isPlain_of_mem_escape h).2.1 rfl
  have hnil : escape name ++ equals :: escape value ≠ [] :=
    List.append_ne_nil_of_right_ne_nil _ (List.cons_ne_nil _ _)
  have hstop : decide (equals ≠ equals) = false := by decide
  rw [readPart, if_neg (not_or.mpr ⟨hsemicolon, hnil⟩), List.takeWhile_append_of_pos hne,
    List.dropWhile_append_of_pos hne, List.takeWhile_cons_of_neg (by simp),
    List.dropWhile_cons_of_neg (by simp), List.append_nil, List.tail_cons, unescape_escape,
    unescape_escape]
  rfl

/-- Every text reads back as its bytes. -/
theorem parseQuery_serialize (entries : List (Text × Text)) :
    parseQuery (serialize entries) = entries.map fun e => (utf8 e.1, utf8 e.2) := by
  cases entries with
  | nil => rfl
  | cons e es =>
    have hplain : ∀ part ∈ (e :: es).map fun e => escape e.1 ++ equals :: escape e.2,
        ampersand ∉ part := by
      intro part hpart hmem
      obtain ⟨e, -, rfl⟩ := List.mem_map.mp hpart
      rcases List.mem_append.mp hmem with h | h
      · exact (isPlain_of_mem_escape h).1 rfl
      · rcases List.mem_cons.mp h with h | h
        · revert h
          decide
        · exact (isPlain_of_mem_escape h).1 rfl
    rw [parseQuery, serialize, List.splitOn_intercalate _ hplain (by simp), List.filterMap_map]
    refine (List.filterMap_congr fun e _ => readPart_escape e.1 e.2).trans ?_
    exact congrFun List.filterMap_eq_map _

theorem get_parseQuery_serialize (entries : List (Text × Text)) (name : Text) :
    get (parseQuery (serialize entries)) (utf8 name) =
      utf8 ((entries.lookup name).getD []) := by
  rw [get, parseQuery_serialize]
  induction entries with
  | nil => rfl
  | cons e es ih =>
    rw [List.map_cons, List.lookup_cons, List.lookup_cons]
    by_cases hname : name = e.1
    · rw [hname, beq_self_eq_true, beq_self_eq_true]
      rfl
    · have hutf8 : (utf8 name == utf8 e.1) = false :=
        beq_eq_false_iff_ne.mpr (utf8_injective.ne hname)
      rw [hutf8, beq_eq_false_iff_ne.mpr hname]
      exact ih

end FormUrlencoded
