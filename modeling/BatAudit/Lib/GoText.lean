import Mathlib.Algebra.Group.Int.Defs
import Mathlib.Algebra.Group.Nat.Defs
import Mathlib.Data.List.Basic

/-!
# Text functions of Go's standard library

`strings` and `unicode` on lists of characters. Case mapping is given where it
can reach an ASCII letter; the other letters map to letters that are not ASCII,
which no comparison with an ASCII word tells apart.
-/

namespace GoText

def isAsciiUpper (c : Char) : Bool := 'A' ≤ c && c ≤ 'Z'

def isAsciiLower (c : Char) : Bool := 'a' ≤ c && c ≤ 'z'

def isDigit (c : Char) : Bool := '0' ≤ c && c ≤ '9'

def isAlnum (c : Char) : Bool := isAsciiUpper c || isAsciiLower c || isDigit c

/-- `unicode.IsSpace`. -/
def isSpace (c : Char) : Bool :=
  let n := c.toNat
  (9 ≤ n && n ≤ 13) || n = 32 || n = 0x85 || n = 0xA0 || n = 0x1680 ||
    (0x2000 ≤ n && n ≤ 0x200A) || n = 0x2028 || n = 0x2029 || n = 0x202F || n = 0x205F ||
      n = 0x3000

/-- The long s and the dotless i have ASCII capitals. -/
def upperRune (c : Char) : Char :=
  if isAsciiLower c then Char.ofNat (c.toNat - 32)
  else if c = 'ſ' then 'S'
  else if c = 'ı' then 'I'
  else c

/-- The Kelvin sign and the dotted capital I have ASCII small letters. -/
def lowerRune (c : Char) : Char :=
  if isAsciiUpper c then Char.ofNat (c.toNat + 32)
  else if c = '\u212A' then 'k'
  else if c = 'İ' then 'i'
  else c

/-- The member of a case-folding class that `encoding/json` compares keys by. -/
def foldRune (c : Char) : Char :=
  if isAsciiLower c then Char.ofNat (c.toNat - 32)
  else if c = 'ſ' then 'S'
  else if c = '\u212A' then 'K'
  else c

def toUpper (s : List Char) : List Char := s.map upperRune

def toLower (s : List Char) : List Char := s.map lowerRune

def trimSpace (s : List Char) : List Char :=
  ((s.dropWhile isSpace).reverse.dropWhile isSpace).reverse

/-- `fmt.Sscanf(s, "%d", &i)`: nothing when `i` keeps its value. What follows the digits is not
looked at. -/
def sscanInt (s : List Char) : Option ℤ :=
  let s := s.dropWhile fun c => isSpace c && c ≠ '\n'
  let digits := (if s.head? = some '+' || s.head? = some '-' then s.tail else s).takeWhile isDigit
  let n : ℤ := Nat.ofDigitChars 10 digits 0
  let i := if s.head? = some '-' then -n else n
  if digits = [] || i < -2 ^ 63 || 2 ^ 63 ≤ i then none else some i

/-- `strconv.Atoi`, nothing when it returns an error. -/
def atoi (s : List Char) : Option ℤ :=
  let digits := if s.head? = some '+' || s.head? = some '-' then s.tail else s
  let n : ℤ := Nat.ofDigitChars 10 digits 0
  let i := if s.head? = some '-' then -n else n
  if digits = [] || !digits.all isDigit || i < -2 ^ 63 || 2 ^ 63 ≤ i then none else some i

theorem mem_of_mem_trimSpace {s : List Char} {c : Char} (h : c ∈ trimSpace s) : c ∈ s := by
  rw [trimSpace, List.mem_reverse] at h
  have hback := (List.dropWhile_suffix _).subset h
  exact (List.dropWhile_suffix _).subset (List.mem_reverse.mp hback)

/-- A trimmed text ends in no space. -/
theorem trimSpace_eq_nil_or_concat (s : List Char) :
    trimSpace s = [] ∨ ∃ t c, trimSpace s = t ++ [c] ∧ isSpace c = false := by
  unfold trimSpace
  have hhead := List.head?_dropWhile_not isSpace (s.dropWhile isSpace).reverse
  cases h : (s.dropWhile isSpace).reverse.dropWhile isSpace with
  | nil => exact Or.inl rfl
  | cons c t =>
    rw [h] at hhead
    exact Or.inr ⟨t.reverse, c, by simp, hhead⟩

theorem dropWhile_isSpace {s : List Char} (h : ∀ c ∈ s, isSpace c = false) :
    s.dropWhile isSpace = s := by
  cases s with
  | nil => rfl
  | cons c s => rw [List.dropWhile_cons_of_neg (by simp [h c List.mem_cons_self])]

/-- A text without spaces is trimmed. -/
theorem trimSpace_eq_self {s : List Char} (h : ∀ c ∈ s, isSpace c = false) : trimSpace s = s := by
  rw [trimSpace, dropWhile_isSpace h,
    dropWhile_isSpace fun c hc => h c (List.mem_reverse.mp hc), List.reverse_reverse]

theorem trimSpace_sublist (s : List Char) : (trimSpace s).Sublist s := by
  have hinner : ((s.dropWhile isSpace).reverse.dropWhile isSpace).Sublist
      (s.dropWhile isSpace).reverse := (List.dropWhile_suffix isSpace).sublist
  have hends := List.reverse_sublist.mpr hinner
  rw [List.reverse_reverse] at hends
  exact hends.trans (List.dropWhile_suffix isSpace).sublist

theorem filter_dropWhile {p q : Char → Bool} (h : ∀ c, q c = true → p c = false) (s : List Char) :
    (s.dropWhile p).filter q = s.filter q := by
  induction s with
  | nil => rfl
  | cons c s ih =>
    by_cases hp : p c = true
    · have hq : ¬q c = true := fun hq => Bool.false_ne_true ((h c hq).symm.trans hp)
      rw [List.dropWhile_cons_of_pos hp, ih, List.filter_cons_of_neg hq]
    · rw [List.dropWhile_cons_of_neg hp]

/-- Trimming takes no character that is not a space. -/
theorem filter_trimSpace {q : Char → Bool} (h : ∀ c, q c = true → isSpace c = false)
    (s : List Char) : (trimSpace s).filter q = s.filter q := by
  rw [trimSpace, List.filter_reverse, filter_dropWhile h, List.filter_reverse,
    filter_dropWhile h, List.reverse_reverse]

/-! ## Fields -/

theorem splitOn_append {α : Type*} [DecidableEq α] {a : α} {s : List α} (h : a ∉ s) (t : List α) :
    (s ++ t).splitOn a = (t.splitOn a).modifyHead (s ++ ·) := by
  induction s with
  | nil => cases h : t.splitOn a <;> simp [h]
  | cons c s ih =>
    obtain ⟨hne, hs⟩ := not_or.mp (mt List.mem_cons.mpr h)
    rw [List.cons_append, List.splitOn_cons_eq_if_modifyHead, if_neg (by simpa using Ne.symm hne),
      ih hs, List.modifyHead_modifyHead]
    rfl

/-- Characters are replaced field by field. -/
theorem splitOn_flatMap {α : Type*} [DecidableEq α] {a : α} {f : α → List α} (hself : f a = [a])
    (hother : ∀ c, c ≠ a → a ∉ f c) (s : List α) :
    (s.flatMap f).splitOn a = (s.splitOn a).map fun t => t.flatMap f := by
  induction s with
  | nil => simp
  | cons c s ih =>
    rw [List.flatMap_cons, List.splitOn_cons_eq_if_modifyHead]
    by_cases hc : c = a
    · subst hc
      rw [if_pos (beq_self_eq_true c), hself, List.map_cons, ← ih]
      exact List.splitOn_append_cons_self [] _
    · rw [if_neg (by simpa using hc), splitOn_append (hother c hc), ih]
      cases s.splitOn a with
      | nil => rfl
      | cons t ts => simp

theorem splitOn_filter {α : Type*} [DecidableEq α] {a : α} {p : α → Bool} (ha : p a = true)
    (s : List α) :
    (s.filter p).splitOn a = (s.splitOn a).map fun t => t.filter p := by
  have hfilter (t : List α) : t.filter p = t.flatMap fun c => if p c then [c] else [] := by
    induction t with
    | nil => rfl
    | cons c t ih => by_cases hc : p c <;> simp [hc, ih]
  simp only [hfilter]
  refine splitOn_flatMap (by simp [ha]) (fun c hc => ?_) s
  split_ifs
  · simpa using Ne.symm hc
  · simp

end GoText
