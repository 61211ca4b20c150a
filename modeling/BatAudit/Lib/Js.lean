import BatAudit.Lib.GoTime
import BatAudit.Lib.Json.Numbers
import BatAudit.Lib.Json.Strings

/-!
# Values of JavaScript as JSON

`JSON.stringify` on strings and objects, and `Date.prototype.toISOString`. A string is a
sequence of code points, of which a surrogate that no other completes is one. Of any other
value only what `JSON.stringify` makes of it counts, which is nothing for `undefined`.
-/

namespace Js

open Json (Item StrLit Tree)

inductive CodePoint
  | scalar (c : Char)
  | lone (u : Fin 0x800)
deriving DecidableEq, Repr

abbrev Str := List CodePoint

abbrev Value := Option Tree

def ofChars (s : List Char) : Str := s.map .scalar

def ofString (s : String) : Str := ofChars s.toList

theorem ofChars_injective : Function.Injective ofChars :=
  List.map_injective_iff.mpr fun _ _ => CodePoint.scalar.inj

/-- A lone surrogate is written as an escape, and so are quotes, backslashes and controls. -/
def quotePoint : CodePoint → Item
  | .scalar c =>
    if c = '"' then .escape '"' (Eq.refl true)
    else if c = '\\' then .escape '\\' (Eq.refl true)
    else if c = '\x08' then .escape 'b' (Eq.refl true)
    else if c = '\x0c' then .escape 'f' (Eq.refl true)
    else if c = '\n' then .escape 'n' (Eq.refl true)
    else if c = '\r' then .escape 'r' (Eq.refl true)
    else if c = '\t' then .escape 't' (Eq.refl true)
    else if h : Json.isPlain (.char c) = true then .plain (.char c) h
    else Json.controlItem c
  | .lone u =>
    .unicode 'd' (Json.hexDigit (8 + u.val / 256)) (Json.hexDigit (u.val / 16 % 16))
      (Json.hexDigit (u.val % 16))
      ⟨rfl, Json.isHex_hexDigit _ (by omega), Json.isHex_hexDigit _ (Json.mod_lt_16 _),
        Json.isHex_hexDigit _ (Json.mod_lt_16 _)⟩

def quote (s : Str) : StrLit := s.map quotePoint

/-- What a reader of the literal makes of it. -/
def read (s : Str) : String := String.ofList (Json.unquote (quote s))

def stringifyString (s : Str) : Value := some (.str (quote s))

def stringifyInt (i : ℤ) : Value := some (.num (Json.NumLit.ofInt i))

/-- The members of an object; one whose value is `undefined` is left out. -/
def members (entries : List (Str × Value)) : List (StrLit × Tree) :=
  entries.filterMap fun e => e.2.map fun v => (quote e.1, v)

def stringifyObject (entries : List (Str × Value)) : Value := some (.obj (members entries))

/-! ## Reading strings -/

theorem readItem_scalar (c : Char) (pending : Option ℕ) :
    Json.readItem pending (quotePoint (.scalar c)) = (Json.flush pending ++ [c], none) := by
  rw [quotePoint]
  split_ifs with h1 h2 h3 h4 h5 h6 h7 h8
  · subst c; rfl
  · subst c; rfl
  · subst c; rfl
  · subst c; rfl
  · subst c; rfl
  · subst c; rfl
  · subst c; rfl
  · rfl
  · exact Json.readItem_controlItem (Json.control_of_not_plain h1 h2 h8) pending

theorem unquoteFrom_ofChars (pending : Option ℕ) (s : List Char) :
    Json.unquoteFrom pending (quote (ofChars s)) = Json.flush pending ++ s := by
  induction s generalizing pending with
  | nil => simp [quote, ofChars, Json.unquoteFrom]
  | cons c s ih =>
    have hcons : quote (ofChars (c :: s)) = quotePoint (.scalar c) :: quote (ofChars s) := rfl
    rw [hcons, Json.unquoteFrom, readItem_scalar, ih]
    simp [Json.flush]

/-- A string without lone surrogates reads back. -/
theorem read_ofChars (s : List Char) : read (ofChars s) = String.ofList s := by
  rw [read, Json.unquote, unquoteFrom_ofChars]
  rfl

theorem read_ofString (s : String) : read (ofString s) = s := by
  rw [ofString, read_ofChars, String.ofList_toList]

/-- The two languages differ in the characters that matter to HTML. -/
theorem quotePoint_scalar {c : Char} (h : Json.isHtml c = false) :
    quotePoint (.scalar c) = Json.quoteChar c := by
  rw [quotePoint, Json.quoteChar, h]
  rfl

theorem quote_ofChars {s : List Char} (h : ∀ c ∈ s, Json.isHtml c = false) :
    quote (ofChars s) = Json.quote s := by
  rw [quote, ofChars, List.map_map, Json.quote]
  exact List.map_congr_left fun c hc => quotePoint_scalar (h c hc)

/-! ## Times -/

/-- A `Date`: UTC, and whole milliseconds. -/
structure Date where
  time : GoTime.Time
  utc : time.offset = 0
  millis : time.nano % 10 ^ 6 = 0

open GoTime (pad)

/-- For years of four digits. -/
def Date.toISOString (d : Date) : List Char :=
  pad 4 d.time.year ++ '-' :: (pad 2 d.time.month ++ '-' :: (pad 2 d.time.day ++ 'T' ::
    (pad 2 d.time.hour ++ ':' :: (pad 2 d.time.minute ++ ':' :: (pad 2 d.time.second ++
      '.' :: (pad 3 (d.time.nano / 10 ^ 6) ++ ['Z']))))))

theorem fraction_millis {n : ℕ} (h : n < 10 ^ 9) (hmillis : n % 10 ^ 6 = 0) :
    GoTime.fraction ('.' :: (pad 3 (n / 10 ^ 6) ++ ['Z'])) = (n, ['Z']) := by
  have hlt : n / 10 ^ 6 < 10 ^ 3 := by omega
  have hnano : GoTime.nanoseconds (pad 3 (n / 10 ^ 6)) = n := by
    rw [GoTime.nanoseconds, List.take_of_length_le (by simp), GoTime.ofDigitChars_pad hlt,
      GoTime.length_pad]
    omega
  have hdigits : ∀ c ∈ pad 3 (n / 10 ^ 6), GoTime.isDigit c = true :=
    fun c hc => GoTime.isDigit_of_mem_pad hc
  have hzone : GoTime.EndsClock ['Z'] := by
    intro c rest hc
    obtain ⟨rfl, -⟩ := List.cons.inj hc
    decide
  have hspan := GoTime.takeWhile_digits hdigits hzone
  obtain ⟨d, ds, hds⟩ : ∃ d ds, pad 3 (n / 10 ^ 6) = d :: ds :=
    List.exists_cons_of_ne_nil (List.ne_nil_of_length_pos (by simp))
  rw [hds] at hnano hdigits hspan ⊢
  simp only [List.cons_append] at hspan ⊢
  rw [GoTime.fraction, if_pos ⟨Or.inl rfl, hdigits d List.mem_cons_self⟩, hspan.1, hspan.2, hnano]

/-- The Go parser of RFC 3339 reads what JavaScript writes. -/
theorem parse_toISOString (d : Date) : GoTime.parse d.toISOString = some d.time := by
  obtain ⟨t, hutc, hmillis⟩ := d
  obtain ⟨-, -, -, -, -, -, hnano⟩ := t.valid
  have hzone : GoTime.zone ['Z'] = some t.offset := by
    rw [hutc]
    rfl
  exact GoTime.parse_pad t (fraction_millis hnano hmillis) hzone

theorem mem_toISOString {d : Date} {c : Char} (h : c ∈ d.toISOString) :
    GoTime.isDigit c = true ∨ c ∈ ['-', 'T', ':', '.', 'Z'] := by
  simp only [Date.toISOString, List.mem_append, List.mem_cons, List.not_mem_nil, or_false] at h ⊢
  have hpad : ∀ {k n : ℕ}, c ∈ pad k n → GoTime.isDigit c = true :=
    fun hc => GoTime.isDigit_of_mem_pad hc
  tauto

end Js
