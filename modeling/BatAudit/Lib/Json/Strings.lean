import BatAudit.Lib.Json.Syntax
import Mathlib.Data.List.Infix

/-!
# Strings of JSON texts

`encoding/json` reads a literal into characters and writes characters as a literal: what
was written reads back. Between the two, a raw value loses its white space and has the
characters that matter to HTML escaped, which changes no string it holds.
-/

namespace Json

/-! ## Reading a literal -/

def hexValue (c : Char) : Nat :=
  if isDigit c then c.toNat - '0'.toNat
  else if 'a' ≤ c && c ≤ 'f' then c.toNat - 'a'.toNat + 10
  else c.toNat - 'A'.toNat + 10

def unit (a b c d : Char) : Nat :=
  ((hexValue a * 16 + hexValue b) * 16 + hexValue c) * 16 + hexValue d

def isSurrogate (u : Nat) : Bool := 0xD800 ≤ u && u < 0xE000

/-- `utf16.DecodeRune`, for a high and a low surrogate. -/
def surrogatePair (hi lo : Nat) : Option Char :=
  if 0xD800 ≤ hi && hi < 0xDC00 && 0xDC00 ≤ lo && lo < 0xE000 then
    some (Char.ofNat ((hi - 0xD800) * 0x400 + (lo - 0xDC00) + 0x10000))
  else none

def escaped (c : Char) : Char :=
  if c = 'b' then '\x08' else if c = 'f' then '\x0c' else if c = 'n' then '\n'
  else if c = 'r' then '\r' else if c = 't' then '\t' else c

/-- A surrogate that no other completes is read as U+FFFD. -/
def flush (pending : Option Nat) : List Char :=
  match pending with
  | none => []
  | some _ => [replacement]

def readItem (pending : Option Nat) (i : Item) : List Char × Option Nat :=
  match i with
  | .plain r _ => (flush pending ++ [r.decode], none)
  | .escape c _ => (flush pending ++ [escaped c], none)
  | .unicode a b c d _ =>
    let u := unit a b c d
    match pending.bind fun hi => surrogatePair hi u with
    | some ch => ([ch], none)
    | none =>
      if isSurrogate u then (flush pending, some u)
      else (flush pending ++ [Char.ofNat u], none)

def unquoteFrom : Option Nat → StrLit → List Char
  | pending, [] => flush pending
  | pending, i :: s => (readItem pending i).1 ++ unquoteFrom (readItem pending i).2 s

def unquote (s : StrLit) : List Char := unquoteFrom none s

/-! ## Writing a literal -/

def isHtml (c : Char) : Bool :=
  c = '<' || c = '>' || c = '&' || c = '\u2028' || c = '\u2029'

/-- The escapes of the characters that a script or a page would act on. -/
def htmlItem (c : Char) : Item :=
  if c = '<' then .unicode '0' '0' '3' 'c' (by decide)
  else if c = '>' then .unicode '0' '0' '3' 'e' (by decide)
  else if c = '&' then .unicode '0' '0' '2' '6' (by decide)
  else if c = '\u2028' then .unicode '2' '0' '2' '8' (by decide)
  else .unicode '2' '0' '2' '9' (by decide)

def hexDigit (n : Nat) : Char := if n < 10 then Char.ofNat (n + 48) else Char.ofNat (n + 87)

theorem isHex_hexDigit : ∀ n < 16, isHex (hexDigit n) = true := by decide

theorem mod_lt_16 (n : Nat) : n % 16 < 16 := Nat.mod_lt n (by decide)

/-- `\u00xx`, for a control character. -/
def controlItem (c : Char) : Item :=
  .unicode '0' '0' (hexDigit (c.toNat / 16 % 16)) (hexDigit (c.toNat % 16))
    ⟨rfl, rfl, isHex_hexDigit _ (mod_lt_16 _), isHex_hexDigit _ (mod_lt_16 _)⟩

def quoteChar (c : Char) : Item :=
  if isHtml c then htmlItem c
  else if c = '"' then .escape '"' rfl
  else if c = '\\' then .escape '\\' rfl
  else if c = '\x08' then .escape 'b' rfl
  else if c = '\x0c' then .escape 'f' rfl
  else if c = '\n' then .escape 'n' rfl
  else if c = '\r' then .escape 'r' rfl
  else if c = '\t' then .escape 't' rfl
  else if h : isPlain (.char c) = true then .plain (.char c) h
  else controlItem c

def quote (s : List Char) : StrLit := s.map quoteChar

def Item.htmlEscape : Item → Item
  | .plain (.char c) h => if isHtml c then htmlItem c else .plain (.char c) h
  | i => i

def htmlEscape (s : StrLit) : StrLit := s.map Item.htmlEscape

/-! ## Reading what was written -/

theorem readItem_unicode {a b c d : Char}
    {h : isHex a = true ∧ isHex b = true ∧ isHex c = true ∧ isHex d = true}
    (hu : unit a b c d < 0xD800) (pending : Option Nat) :
    readItem pending (.unicode a b c d h) =
      (flush pending ++ [Char.ofNat (unit a b c d)], none) := by
  have hpair : (pending.bind fun hi => surrogatePair hi (unit a b c d)) = none := by
    cases pending with
    | none => rfl
    | some hi =>
      have hlo : ¬0xDC00 ≤ unit a b c d := by omega
      simp [surrogatePair, hlo]
  have hsingle : isSurrogate (unit a b c d) = false := by
    have hlo : ¬0xD800 ≤ unit a b c d := by omega
    simp [isSurrogate, hlo]
  simp only [readItem, hpair, hsingle]
  rfl

theorem readItem_htmlItem {c : Char} (h : isHtml c = true) (pending : Option Nat) :
    readItem pending (htmlItem c) = (flush pending ++ [c], none) := by
  simp only [isHtml, Bool.or_eq_true, decide_eq_true_eq] at h
  rcases h with (((rfl | rfl) | rfl) | rfl) | rfl <;> exact readItem_unicode (by decide) pending

theorem control_of_not_plain {c : Char} (hquote : c ≠ '"') (hback : c ≠ '\\')
    (h : ¬isPlain (.char c) = true) : c.toNat < 32 := by
  have hspace : ¬ ' ' ≤ c := by simpa [isPlain, hquote, hback] using h
  have hnat : ¬ ' '.toNat ≤ c.toNat := hspace
  simpa using hnat

theorem unit_control : ∀ n < 32, unit '0' '0' (hexDigit (n / 16 % 16)) (hexDigit (n % 16)) = n := by
  decide

theorem readItem_controlItem {c : Char} (h : c.toNat < 32) (pending : Option Nat) :
    readItem pending (controlItem c) = (flush pending ++ [c], none) := by
  have hunit := unit_control c.toNat h
  rw [controlItem, readItem_unicode (by omega), hunit, Char.ofNat_toNat]

theorem readItem_quoteChar (c : Char) (pending : Option Nat) :
    readItem pending (quoteChar c) = (flush pending ++ [c], none) := by
  unfold quoteChar
  split_ifs with h1 h2 h3 h4 h5 h6 h7 h8 h9
  · exact readItem_htmlItem h1 pending
  · subst c; rfl
  · subst c; rfl
  · subst c; rfl
  · subst c; rfl
  · subst c; rfl
  · subst c; rfl
  · subst c; rfl
  · rfl
  · exact readItem_controlItem (control_of_not_plain h2 h3 h9) pending

theorem quoteChar_of_plain {c : Char} (hhtml : isHtml c = false) (h : isPlain (.char c) = true) :
    quoteChar c = .plain (.char c) h := by
  have hplain : c ≠ '"' ∧ c ≠ '\\' ∧ c ≠ '\x08' ∧ c ≠ '\x0c' ∧ c ≠ '\n' ∧ c ≠ '\r' ∧ c ≠ '\t' := by
    refine ⟨?_, ?_, ?_, ?_, ?_, ?_, ?_⟩ <;> (rintro rfl; revert h; decide)
  obtain ⟨h1, h2, h3, h4, h5, h6, h7⟩ := hplain
  simp [quoteChar, hhtml, h1, h2, h3, h4, h5, h6, h7, h]

theorem unquoteFrom_quote (pending : Option Nat) (s : List Char) :
    unquoteFrom pending (quote s) = flush pending ++ s := by
  induction s generalizing pending with
  | nil => simp [quote, unquoteFrom]
  | cons c s ih =>
    rw [quote, List.map_cons, ← quote, unquoteFrom, readItem_quoteChar, ih]
    simp [flush]

/-- A string that was written reads back. -/
theorem unquote_quote (s : List Char) : unquote (quote s) = s := unquoteFrom_quote none s

theorem readItem_htmlEscape (i : Item) (pending : Option Nat) :
    readItem pending i.htmlEscape = readItem pending i := by
  cases i with
  | plain r h =>
    cases r with
    | bad b => rfl
    | char c =>
      simp only [Item.htmlEscape]
      split_ifs with hc
      · exact readItem_htmlItem hc pending
      · rfl
  | escape | unicode => rfl

theorem unquoteFrom_htmlEscape (pending : Option Nat) (s : StrLit) :
    unquoteFrom pending (htmlEscape s) = unquoteFrom pending s := by
  induction s generalizing pending with
  | nil => rfl
  | cons i s ih =>
    rw [htmlEscape, List.map_cons, ← htmlEscape, unquoteFrom, unquoteFrom, readItem_htmlEscape, ih]

theorem unquote_htmlEscape (s : StrLit) : unquote (htmlEscape s) = unquote s :=
  unquoteFrom_htmlEscape none s

/-! ## Values -/

/-- A JSON value: a tree whose strings are read. -/
inductive Value
  | word (w : Word)
  | num (n : NumLit)
  | str (s : List Char)
  | arr (items : List Value)
  | obj (members : List (List Char × Value))

mutual

def Tree.value : Tree → Value
  | .word w => .word w
  | .num n => .num n
  | .str s => .str (unquote s)
  | .arr items => .arr (itemValues items)
  | .obj members => .obj (memberValues members)

def itemValues : List Tree → List Value
  | [] => []
  | v :: vs => v.value :: itemValues vs

def memberValues : List (StrLit × Tree) → List (List Char × Value)
  | [] => []
  | m :: ms => pairValue m :: memberValues ms

def pairValue : StrLit × Tree → List Char × Value
  | (k, v) => (unquote k, v.value)

end

mutual

def Tree.mapStr (f : StrLit → StrLit) : Tree → Tree
  | .word w => .word w
  | .num n => .num n
  | .str s => .str (f s)
  | .arr items => .arr (itemsMapStr f items)
  | .obj members => .obj (membersMapStr f members)

def itemsMapStr (f : StrLit → StrLit) : List Tree → List Tree
  | [] => []
  | v :: vs => v.mapStr f :: itemsMapStr f vs

def membersMapStr (f : StrLit → StrLit) : List (StrLit × Tree) → List (StrLit × Tree)
  | [] => []
  | m :: ms => pairMapStr f m :: membersMapStr f ms

def pairMapStr (f : StrLit → StrLit) : StrLit × Tree → StrLit × Tree
  | (k, v) => (f k, v.mapStr f)

end

section
variable {f : StrLit → StrLit}

mutual

theorem Tree.value_mapStr (hf : ∀ s, unquote (f s) = unquote s) (v : Tree) :
    (v.mapStr f).value = v.value := by
  cases v with
  | word w => rfl
  | num n => rfl
  | str s => simp only [Tree.mapStr, Tree.value, hf]
  | arr items => simp only [Tree.mapStr, Tree.value, itemValues_mapStr hf items]
  | obj members => simp only [Tree.mapStr, Tree.value, memberValues_mapStr hf members]

theorem itemValues_mapStr (hf : ∀ s, unquote (f s) = unquote s) (vs : List Tree) :
    itemValues (itemsMapStr f vs) = itemValues vs := by
  cases vs with
  | nil => rfl
  | cons v vs => simp only [itemsMapStr, itemValues, v.value_mapStr hf, itemValues_mapStr hf vs]

theorem memberValues_mapStr (hf : ∀ s, unquote (f s) = unquote s) (ms : List (StrLit × Tree)) :
    memberValues (membersMapStr f ms) = memberValues ms := by
  cases ms with
  | nil => rfl
  | cons m ms =>
    simp only [membersMapStr, memberValues, pairValue_mapStr hf m, memberValues_mapStr hf ms]

theorem pairValue_mapStr (hf : ∀ s, unquote (f s) = unquote s) (m : StrLit × Tree) :
    pairValue (pairMapStr f m) = pairValue m := by
  obtain ⟨k, v⟩ := m
  simp only [pairMapStr, pairValue, hf, v.value_mapStr hf]

end

mutual

theorem Tree.depth_mapStr (v : Tree) : (v.mapStr f).depth = v.depth := by
  cases v with
  | word w => rfl
  | num n => rfl
  | str s => rfl
  | arr items => simp only [Tree.mapStr, Tree.depth, itemsDepth_mapStr items]
  | obj members => simp only [Tree.mapStr, Tree.depth, membersDepth_mapStr members]

theorem itemsDepth_mapStr (vs : List Tree) : itemsDepth (itemsMapStr f vs) = itemsDepth vs := by
  cases vs with
  | nil => rfl
  | cons v vs => simp only [itemsMapStr, itemsDepth, v.depth_mapStr, itemsDepth_mapStr vs]

theorem membersDepth_mapStr (ms : List (StrLit × Tree)) :
    membersDepth (membersMapStr f ms) = membersDepth ms := by
  cases ms with
  | nil => rfl
  | cons m ms =>
    simp only [membersMapStr, membersDepth, pairDepth_mapStr m, membersDepth_mapStr ms]

theorem pairDepth_mapStr (m : StrLit × Tree) : pairDepth (pairMapStr f m) = pairDepth m := by
  obtain ⟨k, v⟩ := m
  simp only [pairMapStr, pairDepth, v.depth_mapStr]

end

end

/-! ## Texts of values -/

/-- The nesting beyond which `encoding/json` gives a text up. -/
def maxNesting : Nat := 10000

theorem maxNesting_pos : 0 < maxNesting := by decide

def readWithin (limit : Nat) (s : Text) : Option Tree :=
  (parse s).filter fun v => v.depth ≤ limit

/-- What a decoder reads of a stream: it stops where the first value ends. -/
def firstValue (s : Text) : Option Text := s.inits.find? fun p => (parse p).isSome

/-- Two texts of one JSON value. -/
def SameValue (s s' : Text) : Prop :=
  ∃ v v', parse s = some v ∧ parse s' = some v' ∧ v.value = v'.value

theorem sameValue_htmlEscape {s : Text} {v : Tree} (h : parse s = some v) :
    SameValue s (v.mapStr htmlEscape).print :=
  ⟨v, v.mapStr htmlEscape, h, parse_print _, (v.value_mapStr unquote_htmlEscape).symm⟩

end Json
