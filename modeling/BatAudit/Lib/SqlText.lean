import Mathlib.Data.Int.Notation
import Mathlib.Data.Nat.Notation
import Mathlib.Data.List.Basic

/-!
# Character columns

What PostgreSQL does with a text on its way into a column. No text column takes
the NUL character. A `VARCHAR(n)` counts characters, refuses a longer text, and
drops an excess that consists of spaces only.
-/

namespace SqlText

def hasNul (s : String) : Bool := s.toList.contains '\x00'

/-- A `TEXT` column. -/
def text (s : String) : Option String :=
  if hasNul s then none else some s

/-- A `VARCHAR(n)` column. -/
def varchar (n : ℕ) (s : String) : Option String :=
  if hasNul s then none
  else if s.toList.length ≤ n then some s
  else if (s.toList.drop n).all (· = ' ') then some (String.ofList (s.toList.take n))
  else none

/-- The value of a `UUID` column, as its `n` bytes in hexadecimal digits. A hyphen may follow
every second byte but the last. -/
def uuidBytes : ℕ → List Char → Option (List Char)
  | 0, s => if s = [] then some [] else none
  | n + 1, a :: b :: s =>
    if isHex a && isHex b then
      let rest := match s with
        | '-' :: rest => if n % 2 = 0 && 0 < n then rest else s
        | _ => s
      (uuidBytes n rest).map fun digits => a.toLower :: b.toLower :: digits
    else none
  | _ + 1, _ => none
where
  isHex (c : Char) : Bool := c.isDigit || ('a' ≤ c && c ≤ 'f') || ('A' ≤ c && c ≤ 'F')

/-- A text on its way into a `UUID` column, which may stand in braces. -/
def uuid (s : String) : Option (List Char) :=
  match s.toList with
  | '\x7b' :: rest => if rest.getLast? = some '\x7d' then uuidBytes 16 rest.dropLast else none
  | rest => uuidBytes 16 rest

/-- What depends on the settings of a database: the order of texts, and `TO_CHAR` of an instant
in the format of a time in whole seconds. -/
structure Session where
  collate : String → String → Bool
  toChar : ℤ → String

def plainSession : Session := ⟨fun s t => s ≤ t, toString⟩

theorem varchar_of_le {n : ℕ} {s : String} (h : s.toList.length ≤ n) (hn : hasNul s = false) :
    varchar n s = some s := by
  simp [varchar, hn, h]

theorem varchar_isSome {n : ℕ} {s : String} :
    (varchar n s).isSome ↔
      hasNul s = false ∧ (s.toList.length ≤ n ∨ (s.toList.drop n).all (· = ' ')) := by
  unfold varchar
  cases hasNul s with
  | true => simp
  | false =>
    by_cases hl : s.toList.length ≤ n
    · simp [hl]
    · rw [if_neg Bool.false_ne_true, if_neg hl]
      cases (s.toList.drop n).all (· = ' ') <;> simp [hl]

theorem varchar_eq_some {n : ℕ} {s t : String} (h : varchar n s = some t) :
    hasNul t = false ∧ t.toList.length ≤ n := by
  unfold varchar at h
  split_ifs at h with hn hl hsp
  · cases h
    exact ⟨(Bool.not_eq_true _).mp hn, hl⟩
  · cases h
    refine ⟨?_, by rw [String.toList_ofList]; exact List.length_take_le n _⟩
    rw [hasNul, String.toList_ofList, ← Bool.not_eq_true, List.contains_iff_mem]
    exact fun hmem => hn (List.contains_iff_mem.mpr (List.mem_of_mem_take hmem))

/-- What a column holds can be stored in it again. -/
theorem varchar_of_varchar {n : ℕ} {s t : String} (h : varchar n s = some t) :
    varchar n t = some t :=
  varchar_of_le (varchar_eq_some h).2 (varchar_eq_some h).1

/-- A text that does not end in a space is never shortened. -/
theorem varchar_isSome_of_last {n : ℕ} {s : String} (hlast : s.toList.getLast? ≠ some ' ') :
    (varchar n s).isSome ↔ hasNul s = false ∧ s.toList.length ≤ n := by
  rw [varchar_isSome]
  refine and_congr_right fun _ => ⟨?_, Or.inl⟩
  rintro (h | h)
  · exact h
  · by_contra hlt
    have hne : s.toList.drop n ≠ [] := by
      simp only [ne_eq, List.drop_eq_nil_iff]
      omega
    have hmem := List.getLast_mem hne
    have hsp : (s.toList.drop n).getLast hne = ' ' := by
      simpa using List.all_eq_true.mp h _ hmem
    apply hlast
    rw [← hsp, List.getLast_drop, List.getLast?_eq_some_getLast]

end SqlText
