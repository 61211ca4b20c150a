import BatAudit.Audit.Sanitizer

/-!
# Sensitive data

Detection and masking are regular expressions over the text of a column. Each of them is
deterministic, so a matcher returns what follows the match. Case is ignored by folding,
under which the long s and the Kelvin sign are letters.
-/

namespace BatAudit

open Json (Text Rune)

def Rune.is (p : Char → Bool) : Rune → Bool
  | .char c => p c
  | .bad _ => false

def dropRunes (p : Char → Bool) (s : Text) : Text := s.dropWhile (Rune.is p)

def skipRune (c : Char) : Text → Option Text
  | [] => none
  | r :: s => if r = .char c then some s else none

/-- A word in capitals: the text that matched it, and what follows. -/
def matchWord : List Char → Text → Option (Text × Text)
  | [], s => some ([], s)
  | _ :: _, [] => none
  | c :: w, r :: s =>
    if Rune.is (fun d => GoText.foldRune d = c) r then
      (matchWord w s).map fun p => (r :: p.1, p.2)
    else none

/-! ## Patterns -/

def isCardGap (c : Char) : Bool := c = ' ' || c = '-'

/-- Digits with spaces and dashes between them. -/
def matchDigits : ℕ → Text → Option (List Char × Text)
  | 0, s => some ([], s)
  | n + 1, .char c :: s =>
    if GoText.isDigit c then
      (matchDigits n (if n = 0 then s else dropRunes isCardGap s)).map fun p => (c :: p.1, p.2)
    else none
  | _ + 1, _ => none

def isKeyChar (c : Char) : Bool := GoText.isAlnum c || c = 'ſ' || c = '\u212A'

/-- `key[-_]?[0-9a-zA-Z]{16,}` -/
def matchesKey (s : Text) : Bool :=
  match matchWord ['K', 'E', 'Y'] s with
  | none => false
  | some (_, s) =>
    let s := if (s.head?.any (Rune.is fun c => c = '-' || c = '_')) then s.tail else s
    (s.take 16).length = 16 && (s.take 16).all (Rune.is isKeyChar)

def passwordNames : List String := ["PASSWORD", "PASSWD", "SENHA", "SECRET", "PWD"]

def tokenNames : List String :=
  ["APIKEY", "API-KEY", "API_KEY", "TOKEN", "REFRESHTOKEN", "REFRESH-TOKEN", "REFRESH_TOKEN",
    "ACCESSTOKEN", "ACCESS-TOKEN", "ACCESS_TOKEN", "SECRETKEY", "SECRET-KEY", "SECRET_KEY",
    "AUTHORIZATION"]

/-- A quoted name and a colon: the name as it is written, and what follows. -/
def matchKey (names : List String) (s : Text) : Option (Text × Text) := do
  let s ← skipRune '"' s
  names.findSome? fun name => do
    let (name, s) ← matchWord name.toList s
    let s ← skipRune '"' s
    let s ← skipRune ':' (dropRunes isBlank s)
    return (name, s)

/-- The same with a quoted text after it, up to the next quote. -/
def matchMember (names : List String) (s : Text) : Option (Text × Text) := do
  let (name, s) ← matchKey names s
  let s ← skipRune '"' (dropRunes isBlank s)
  let s ← skipRune '"' (s.dropWhile fun r => r ≠ .char '"')
  return (name, s)

def mask (n : ℕ) : Text := List.replicate n (.char '*')

def maskedCard (s : Text) : Option (Text × Text) :=
  (matchDigits 16 s).map fun p => (mask 12 ++ Json.text (p.1.drop 12), p.2)

def maskedMember (names : List String) (s : Text) : Option (Text × Text) :=
  (matchMember names s).map fun p =>
    (.char '"' :: (p.1 ++ Json.text ['"', ':', '"'] ++ mask 8 ++ [.char '"']), p.2)

/-- Replaces the matches from left to right; `skip` runes belong to the last one. -/
def replaceFrom (m : Text → Option (Text × Text)) : (skip : ℕ) → Text → Text
  | _, [] => []
  | skip + 1, _ :: s => replaceFrom m skip s
  | 0, r :: s =>
    match m (r :: s) with
    | none => r :: replaceFrom m 0 s
    | some (out, rest) => out ++ replaceFrom m (s.length - rest.length) s

def replaceAll (m : Text → Option (Text × Text)) (s : Text) : Text := replaceFrom m 0 s

/-! ## Detection and masking -/

def isSensitive (column : Text) : Bool :=
  column.tails.any fun s =>
    (matchDigits 13 s).isSome || matchesKey s || (matchKey passwordNames s).isSome

def detectSensitiveData (audit : Audit) : Bool :=
  isSensitive audit.requestBody || isSensitive audit.queryParams

def maskJSON (data : Text) : Text :=
  replaceAll (maskedMember tokenNames)
    (replaceAll (maskedMember passwordNames) (replaceAll maskedCard data))

def maskSensitiveData (audit : Audit) : Audit :=
  { audit with
    requestBody := maskJSON audit.requestBody
    responseBody := maskJSON audit.responseBody
    queryParams := maskJSON audit.queryParams }

@[simp] theorem replaceAll_nil (m : Text → Option (Text × Text)) : replaceAll m [] = [] := rfl

/-- An absent column stays absent. -/
@[simp] theorem maskJSON_nil : maskJSON [] = [] := rfl

theorem maskSensitiveData_get (a : Audit) {f : Field} (hf : f.kind ≠ .column) :
    f.get (maskSensitiveData a) = f.get a := by
  cases f <;> first | exact absurd rfl hf | rfl

end BatAudit
