import BatAudit.Lib.GoText
import Mathlib.Tactic.Common

/-!
# Formats that Go packages recognize

UUIDs as `google/uuid` parses them, addresses as `net.ParseIP` does on digits, dots and
colons, and the mail addresses that `net/mail` accepts among texts without quotes,
brackets and spaces.
-/

namespace GoFormats

open GoText

def isAscii (c : Char) : Bool := c.toNat < 128

def isHex (c : Char) : Bool := isDigit c || ('a' ≤ c && c ≤ 'f') || ('A' ≤ c && c ≤ 'F')

/-! ## UUIDs -/

/-- Hexadecimal digits, with dashes where they stand in the usual form. -/
def isDashed (s : List Char) : Bool :=
  s.length = 36 && s.zipIdx.all fun p =>
    if p.2 = 8 || p.2 = 13 || p.2 = 18 || p.2 = 23 then p.1 = '-' else isHex p.1

theorem mem_isDashed {s : List Char} (h : isDashed s = true) {c : Char} (hc : c ∈ s) :
    c = '-' ∨ isHex c = true := by
  simp only [isDashed, Bool.and_eq_true] at h
  obtain ⟨i, hi, rfl⟩ := List.mem_iff_getElem.mp hc
  have hmem : (s[i], i) ∈ s.zipIdx := List.mem_zipIdx_iff_getElem?.mpr (List.getElem?_eq_getElem hi)
  have hchar := List.all_eq_true.mp h.2 _ hmem
  split at hchar
  · exact Or.inl (of_decide_eq_true hchar)
  · exact Or.inr hchar

/-- Lengths are in bytes, and a character of several bytes has no place in any form. The
characters around a braced form are not looked at. -/
def isUuid (s : List Char) : Bool :=
  s.all isAscii &&
    if s.length = 36 then isDashed s
    else if s.length = 45 then toLower (s.take 9) = "urn:uuid:".toList && isDashed (s.drop 9)
    else if s.length = 38 then isDashed ((s.drop 1).take 36)
    else s.length = 32 && s.all isHex

/-- `uuid.New().String()`. -/
structure Uuid where
  text : String
  dashed : isDashed text.toList = true

theorem isAscii_of_isHex {c : Char} (h : c = '-' ∨ isHex c = true) : isAscii c = true := by
  rcases h with rfl | h
  · decide
  · simp only [isHex, isDigit, Bool.or_eq_true, Bool.and_eq_true, decide_eq_true_eq] at h
    have hle : c ≤ 'f' := by
      rcases h with (h | h) | h
      · exact Nat.le_trans h.2 (by decide)
      · exact h.2
      · exact Nat.le_trans h.2 (by decide)
    exact decide_eq_true (Nat.lt_of_le_of_lt hle (by decide))

theorem isUuid_of_isDashed {s : List Char} (h : isDashed s = true) : isUuid s = true := by
  have hlen : s.length = 36 := by
    simp only [isDashed, Bool.and_eq_true] at h
    exact of_decide_eq_true h.1
  have hascii : s.all isAscii = true :=
    List.all_eq_true.mpr fun c hc => isAscii_of_isHex (mem_isDashed h hc)
  rw [isUuid, if_pos hlen, hascii, h]
  rfl

theorem length_of_isUuid {s : List Char} (h : isUuid s = true) : s.length ≤ 45 := by
  simp only [isUuid, Bool.and_eq_true] at h
  split_ifs at h <;> first | omega | skip
  simp at h
  omega

/-! ## IP addresses -/

/-- Up to three digits without a leading zero, and at most 255. -/
def isOctet (s : List Char) : Bool :=
  s ≠ [] && s.length ≤ 3 && s.all isDigit && (s.length = 1 || s.head? ≠ some '0') &&
    Nat.ofDigitChars 10 s 0 ≤ 255

def isIPv4 (s : List Char) : Bool :=
  let fields := s.splitOn '.'
  fields.length = 4 && fields.all isOctet

/-- The groups of an IPv6 address from the `i`-th on, and whether `::` has come: nothing
more, a last IPv4 address, or a colon and what follows. -/
def isGroups : ℕ → ℕ → Bool → List Char → Bool
  | 0, _, _, _ => false
  | fuel + 1, i, ellipsis, s =>
    let group := s.takeWhile isDigit
    let rest := s.dropWhile isDigit
    if group = [] then false
    else if rest.head? = some '.' then
      isIPv4 s && if ellipsis then i < 6 else i = 6
    else if 4 < group.length then false
    else
      match rest with
      | [] => if ellipsis then i + 1 < 8 else i + 1 = 8
      | ':' :: ':' :: rest =>
        !ellipsis && if rest = [] then i + 1 < 8 else isGroups fuel (i + 1) true rest
      | ':' :: rest => isGroups fuel (i + 1) ellipsis rest
      | _ => false

def isIPv6 (s : List Char) : Bool :=
  match s with
  | ':' :: ':' :: rest => rest = [] || isGroups 8 0 true rest
  | s => isGroups 8 0 false s

/-- The first dot or colon decides. -/
def isIP (s : List Char) : Bool :=
  match s.find? fun c => c = '.' || c = ':' with
  | some '.' => isIPv4 s
  | some _ => isIPv6 s
  | none => false

/-- Atoms joined by single dots. -/
def isDotAtom (s : List Char) : Bool := (s.splitOn '.').all (· ≠ [])

/-- `mail.ParseAddress`, on the characters of atoms, dots and `@`. -/
def isAddress (s : List Char) : Bool :=
  match s.splitOn '@' with
  | [localPart, domain] => isDotAtom localPart && isDotAtom domain
  | _ => false

end GoFormats
