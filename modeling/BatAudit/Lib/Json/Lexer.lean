import Mathlib.Data.Nat.Notation
import Mathlib.Data.List.Basic

/-!
# Tokens of JSON texts

A text is a byte string read as UTF-8: a list of characters and of bytes that
belong to none. The lexer is a state machine over its runes, and loses nothing:
strings keep their escapes, numbers their digits, and white space is a token.
Printing the tokens of a text gives the text back, and lexing a printed sequence of
tokens gives back the tokens as long as a number is followed by a delimiter.
-/

namespace Json

inductive Rune
  | char (c : Char)
  | bad (b : UInt8)
deriving DecidableEq, Repr

abbrev Text := List Rune

def text (s : List Char) : Text := s.map Rune.char

/-- U+FFFD, which a byte that is not UTF-8 decodes to. -/
def replacement : Char := '\uFFFD'

def Rune.decode : Rune → Char
  | .char c => c
  | .bad _ => replacement

def isWs (c : Char) : Bool := c = ' ' || c = '\t' || c = '\n' || c = '\r'

def isDigit (c : Char) : Bool := '0' ≤ c && c ≤ '9'

def isHex (c : Char) : Bool := isDigit c || ('a' ≤ c && c ≤ 'f') || ('A' ≤ c && c ≤ 'F')

/-! ## String literals -/

def isPlain : Rune → Bool
  | .char c => c ≠ '"' && c ≠ '\\' && ' ' ≤ c
  | .bad _ => true

def isEscape (c : Char) : Bool :=
  c = '"' || c = '\\' || c = '/' || c = 'b' || c = 'f' || c = 'n' || c = 'r' || c = 't'

/-- A piece of a string literal: a rune, a short escape or a `\u` escape. -/
inductive Item
  | plain (r : Rune) (h : isPlain r = true)
  | escape (c : Char) (h : isEscape c = true)
  | unicode (a b c d : Char)
      (h : isHex a = true ∧ isHex b = true ∧ isHex c = true ∧ isHex d = true)
deriving DecidableEq

def Item.text : Item → Text
  | .plain r _ => [r]
  | .escape c _ => [.char '\\', .char c]
  | .unicode a b c d _ => [.char '\\', .char 'u', .char a, .char b, .char c, .char d]

abbrev StrLit := List Item

def StrLit.text (s : StrLit) : Text := .char '"' :: (s.flatMap Item.text ++ [.char '"'])

/-! ## Number literals -/

inductive NumState
  | neg
  | zero
  | int
  | dot
  | frac
  | e
  | sign
  | exp
deriving DecidableEq, Repr

def NumState.accepting : NumState → Bool
  | .zero | .int | .frac | .exp => true
  | .neg | .dot | .e | .sign => false

def numStart (c : Char) : Option NumState :=
  if c = '-' then some .neg
  else if c = '0' then some .zero
  else if isDigit c then some .int
  else none

def isExpMark (c : Char) : Bool := c = 'e' || c = 'E'

def numNext (st : NumState) (c : Char) : Option NumState :=
  match st with
  | .neg => if c = '0' then some .zero else if isDigit c then some .int else none
  | .zero => if c = '.' then some .dot else if isExpMark c then some .e else none
  | .int =>
    if isDigit c then some .int else if c = '.' then some .dot
    else if isExpMark c then some .e else none
  | .dot => if isDigit c then some .frac else none
  | .frac => if isDigit c then some .frac else if isExpMark c then some .e else none
  | .e => if c = '+' || c = '-' then some .sign else if isDigit c then some .exp else none
  | .sign => if isDigit c then some .exp else none
  | .exp => if isDigit c then some .exp else none

def numRun : NumState → List Char → Option NumState
  | st, [] => some st
  | st, c :: s => (numNext st c).bind fun st' => numRun st' s

def isNumber : List Char → Bool
  | [] => false
  | c :: s => ((numStart c).bind fun st => numRun st s).any NumState.accepting

structure NumLit where
  raw : List Char
  ok : isNumber raw = true
deriving DecidableEq

/-! ## Tokens -/

inductive Word
  | null
  | true
  | false
deriving DecidableEq, Repr

def Word.letters : Word → List Char
  | .null => ['n', 'u', 'l', 'l']
  | .true => ['t', 'r', 'u', 'e']
  | .false => ['f', 'a', 'l', 's', 'e']

inductive Token
  | ws (c : Char) (h : isWs c = true)
  | lbrace
  | rbrace
  | lbrack
  | rbrack
  | comma
  | colon
  | word (w : Word)
  | num (n : NumLit)
  | str (s : StrLit)
deriving DecidableEq

def Token.text : Token → Text
  | .ws c _ => [.char c]
  | .lbrace => [.char '{']
  | .rbrace => [.char '}']
  | .lbrack => [.char '[']
  | .rbrack => [.char ']']
  | .comma => [.char ',']
  | .colon => [.char ':']
  | .word w => Json.text w.letters
  | .num n => Json.text n.raw
  | .str s => s.text

def untokenize (ts : List Token) : Text := ts.flatMap Token.text

/-! ## The machine -/

inductive Mode
  | start
  | body (s : StrLit)
  | escape (s : StrLit)
  | hex (s : StrLit) (digits : List Char)
  | num (st : NumState) (raw : List Char)
  | word (w : Word) (rest : List Char)

/-- A rune at which a token starts: the tokens it completes, and what follows. -/
def begin (r : Rune) : Option (List Token × Mode) :=
  match r with
  | .bad _ => none
  | .char c =>
    if h : isWs c = true then some ([.ws c h], .start)
    else if c = '{' then some ([.lbrace], .start)
    else if c = '}' then some ([.rbrace], .start)
    else if c = '[' then some ([.lbrack], .start)
    else if c = ']' then some ([.rbrack], .start)
    else if c = ',' then some ([.comma], .start)
    else if c = ':' then some ([.colon], .start)
    else if c = '"' then some ([], .body [])
    else if c = 'n' then some ([], .word .null ['u', 'l', 'l'])
    else if c = 't' then some ([], .word .true ['r', 'u', 'e'])
    else if c = 'f' then some ([], .word .false ['a', 'l', 's', 'e'])
    else (numStart c).map fun st => ([], .num st [c])

/-- A literal is complete, and the rune after it may already start a token. -/
def finishNum (st : NumState) (raw : List Char) : Option Token :=
  if h : isNumber raw = true then if st.accepting then some (.num ⟨raw, h⟩) else none else none

def nextMode (m : Mode) (r : Rune) : Option (List Token × Mode) :=
  match m with
  | .start => begin r
  | .body s =>
    if r = .char '"' then some ([.str s], .start)
    else if r = .char '\\' then some ([], .escape s)
    else if h : isPlain r = true then some ([], .body (s ++ [.plain r h]))
    else none
  | .escape s =>
    match r with
    | .bad _ => none
    | .char c =>
      if h : isEscape c = true then some ([], .body (s ++ [.escape c h]))
      else if c = 'u' then some ([], .hex s [])
      else none
  | .hex s digits =>
    match r, digits with
    | .bad _, _ => none
    | .char d, [a, b, c] =>
      if h : isHex a = true ∧ isHex b = true ∧ isHex c = true ∧ isHex d = true then
        some ([], .body (s ++ [.unicode a b c d h]))
      else none
    | .char d, _ => if isHex d then some ([], .hex s (digits ++ [d])) else none
  | .num st raw =>
    match r with
    | .bad _ => none
    | .char c =>
      match numNext st c with
      | some st' => some ([], .num st' (raw ++ [c]))
      | none => do
        let t ← finishNum st raw
        let (ts, m) ← begin r
        return (t :: ts, m)
  | .word w rest =>
    match rest with
    | [] => none
    | [d] => if r = .char d then some ([.word w], .start) else none
    | d :: ds => if r = .char d then some ([], .word w ds) else none

def lexFrom : Mode → Text → Option (List Token)
  | .start, [] => some []
  | .num st raw, [] => (finishNum st raw).map fun t => [t]
  | _, [] => none
  | m, r :: s => do
    let (ts, m') ← nextMode m r
    let rest ← lexFrom m' s
    return ts ++ rest

def lex (s : Text) : Option (List Token) := lexFrom .start s

/-! ## Lexing what was printed -/

theorem lexFrom_cons {m m' : Mode} {r : Rune} {s : Text} {ts : List Token}
    (h : nextMode m r = some (ts, m')) :
    lexFrom m (r :: s) = (lexFrom m' s).map fun rest => ts ++ rest := by
  rw [lexFrom, h]
  · simp only [Option.bind_eq_bind, Option.bind_some]
    cases lexFrom m' s <;> rfl

@[simp] theorem nextMode_start (r : Rune) : nextMode .start r = begin r := rfl

@[simp] theorem nextMode_body_backslash (s : StrLit) :
    nextMode (.body s) (.char '\\') = some ([], .escape s) := rfl

@[simp] theorem nextMode_body_quote (s : StrLit) :
    nextMode (.body s) (.char '"') = some ([.str s], .start) := rfl

theorem lexFrom_item (s : StrLit) (i : Item) (rest : Text) :
    lexFrom (.body s) (i.text ++ rest) = lexFrom (.body (s ++ [i])) rest := by
  cases i with
  | plain r h =>
    have hquote : r ≠ .char '"' := by
      rintro rfl
      simp [isPlain] at h
    have hback : r ≠ .char '\\' := by
      rintro rfl
      simp [isPlain] at h
    have hnext : nextMode (.body s) r = some ([], .body (s ++ [.plain r h])) :=
      (if_neg hquote).trans ((if_neg hback).trans (dif_pos h))
    rw [Item.text, List.singleton_append, lexFrom_cons hnext]
    simp
  | escape c h =>
    have hnext : nextMode (.escape s) (.char c) = some ([], .body (s ++ [.escape c h])) :=
      dif_pos h
    rw [Item.text, List.cons_append, lexFrom_cons (nextMode_body_backslash s)]
    rw [List.cons_append, lexFrom_cons hnext]
    simp
  | unicode a b c d h =>
    have hdigit : ∀ x ds, isHex x = true → ds.length < 3 →
        nextMode (.hex s ds) (.char x) = some ([], .hex s (ds ++ [x])) := by
      intro x ds hx hlen
      match ds, hlen with
      | [], _ => exact if_pos hx
      | [_], _ => exact if_pos hx
      | [_, _], _ => exact if_pos hx
    have hlast : nextMode (.hex s [a, b, c]) (.char d) =
        some ([], .body (s ++ [.unicode a b c d h])) := dif_pos h
    have hu : nextMode (.escape s) (.char 'u') = some ([], .hex s []) := rfl
    simp only [Item.text, List.cons_append, List.nil_append]
    rw [lexFrom_cons (nextMode_body_backslash s), lexFrom_cons hu,
      lexFrom_cons (hdigit a [] h.1 (by simp)), lexFrom_cons (hdigit b _ h.2.1 (by simp)),
      lexFrom_cons (hdigit c _ h.2.2.1 (by simp))]
    simp only [List.nil_append, List.cons_append]
    rw [lexFrom_cons hlast]
    simp

theorem lexFrom_str (s items : StrLit) (rest : Text) :
    lexFrom (.body s) (items.flatMap Item.text ++ .char '"' :: rest) =
      (lexFrom .start rest).map fun ts => .str (s ++ items) :: ts := by
  induction items generalizing s with
  | nil =>
    rw [List.flatMap_nil, List.nil_append, lexFrom_cons (nextMode_body_quote s)]
    simp
  | cons i items ih =>
    rw [List.flatMap_cons, List.append_assoc, lexFrom_item, ih]
    simp

def isDelimiter (c : Char) : Bool := c = ',' || c = ']' || c = '}'

/-- Nothing, or a rune that ends a number. -/
def Delimited (s : Text) : Prop := s = [] ∨ ∃ c rest, s = .char c :: rest ∧ isDelimiter c = true

theorem numNext_delimiter {st : NumState} {c : Char} (h : isDelimiter c = true) :
    numNext st c = none := by
  simp only [isDelimiter, Bool.or_eq_true, decide_eq_true_eq] at h
  rcases h with (rfl | rfl) | rfl <;> cases st <;> rfl

/-- Nothing, or a rune that no number goes on with. -/
def EndsNum (s : Text) : Prop := s = [] ∨ ∃ c rest, s = .char c :: rest ∧ ∀ st, numNext st c = none

theorem Delimited.endsNum {s : Text} (h : Delimited s) : EndsNum s := by
  rcases h with rfl | ⟨c, rest, rfl, hc⟩
  · exact Or.inl rfl
  · exact Or.inr ⟨c, rest, rfl, fun _ => numNext_delimiter hc⟩

theorem numNext_ws {st : NumState} {c : Char} (h : isWs c = true) : numNext st c = none := by
  simp only [isWs, Bool.or_eq_true, decide_eq_true_eq] at h
  rcases h with ((rfl | rfl) | rfl) | rfl <;> cases st <;> rfl

theorem lexFrom_num {st st' : NumState} {done raw : List Char} {rest : Text}
    (hrun : numRun st raw = some st') (hacc : st'.accepting = true)
    (hok : isNumber (done ++ raw) = true) (hrest : EndsNum rest) :
    lexFrom (.num st done) (text raw ++ rest) =
      (lexFrom .start rest).map fun ts => .num ⟨done ++ raw, hok⟩ :: ts := by
  induction raw generalizing st done with
  | nil =>
    cases hrun
    have hok' : isNumber done = true := by simpa using hok
    have hfinish : finishNum st' done = some (.num ⟨done, hok'⟩) := by
      simp only [finishNum, dif_pos hok', hacc, if_true]
    rcases hrest with rfl | ⟨c, s, rfl, hc⟩
    · simp [text, lexFrom, hfinish]
    · simp only [text, List.map_nil, List.nil_append, lexFrom, nextMode, hc,
        hfinish, List.append_nil]
      cases hb : begin (.char c) with
      | none => simp
      | some p =>
        obtain ⟨ts, m⟩ := p
        simp [Option.map_bind, Function.comp_def]
  | cons c raw ih =>
    obtain ⟨st₁, hnext, hrun⟩ := Option.bind_eq_some_iff.mp hrun
    have hmode : nextMode (.num st done) (.char c) = some ([], .num st₁ (done ++ [c])) := by
      simp only [nextMode, hnext]
    have hok' : isNumber ((done ++ [c]) ++ raw) = true := by simpa using hok
    simp only [text, List.map_cons, List.cons_append]
    rw [lexFrom_cons hmode]
    simp only [List.nil_append, Option.map_id']
    rw [← text, ih hrun hok']
    simp

/-! A printed sequence of tokens reads back, as long as a number is followed by a delimiter. -/

def Token.isNum : Token → Bool
  | .num _ => true
  | _ => false

def Token.delimits : Token → Bool
  | .comma | .rbrack | .rbrace => true
  | _ => false

/-- No number is followed by a token that could be read as part of it. -/
def Spaced : List Token → Prop
  | [] => True
  | [_] => True
  | t :: u :: ts => (t.isNum = true → u.delimits = true) ∧ Spaced (u :: ts)

theorem delimited_untokenize {t : Token} {ts : List Token} (h : Spaced (t :: ts))
    (hnum : t.isNum = true) : Delimited (untokenize ts) := by
  cases ts with
  | nil => exact Or.inl rfl
  | cons u ts =>
    have hu := h.1 hnum
    cases u with
    | comma | rbrack | rbrace => exact Or.inr ⟨_, _, rfl, by decide⟩
    | ws | lbrace | lbrack | colon | word | num | str => cases hu

theorem Spaced.tail {t : Token} {ts : List Token} (h : Spaced (t :: ts)) : Spaced ts := by
  cases ts with
  | nil => trivial
  | cons u ts => exact h.2

/-- What is left of a word reads as the word. -/
theorem lexFrom_letters (w : Word) (d : Char) (ds : List Char) (rest : Text) :
    lexFrom (.word w (d :: ds)) (text (d :: ds) ++ rest) =
      (lexFrom .start rest).map fun ts => .word w :: ts := by
  induction ds generalizing d with
  | nil =>
    have hlast : nextMode (.word w [d]) (.char d) = some ([.word w], .start) := if_pos rfl
    exact lexFrom_cons hlast
  | cons d' ds ih =>
    have hnext : nextMode (.word w (d :: d' :: ds)) (.char d) = some ([], .word w (d' :: ds)) :=
      if_pos rfl
    have hread := lexFrom_cons (s := text (d' :: ds) ++ rest) hnext
    rw [ih d'] at hread
    exact hread.trans (by simp only [List.nil_append, Option.map_id'])

theorem lexFrom_word (w : Word) (rest : Text) :
    lexFrom .start ((Token.word w).text ++ rest) =
      (lexFrom .start rest).map fun ts => .word w :: ts := by
  have hfirst : ∀ (c d : Char) (ds : List Char),
      nextMode .start (.char c) = some ([], .word w (d :: ds)) →
        lexFrom .start (text (c :: d :: ds) ++ rest) =
          (lexFrom .start rest).map fun ts => .word w :: ts := by
    intro c d ds hnext
    have hread := lexFrom_cons (s := text (d :: ds) ++ rest) hnext
    rw [lexFrom_letters] at hread
    exact hread.trans (by simp only [List.nil_append, Option.map_id'])
  cases w with
  | null | true | false => exact hfirst _ _ _ rfl

theorem nextMode_numStart {c : Char} {st : NumState} (h : numStart c = some st) :
    nextMode .start (.char c) = some ([], .num st [c]) := by
  have hstart : c = '-' ∨ isDigit c = true := by
    unfold numStart at h
    split at h
    · exact Or.inl ‹_›
    · split at h
      · subst c
        exact Or.inr rfl
      · split at h
        · exact Or.inr ‹_›
        · cases h
  have hother : isWs c = false ∧ c ≠ '{' ∧ c ≠ '}' ∧ c ≠ '[' ∧ c ≠ ']' ∧ c ≠ ',' ∧ c ≠ ':' ∧
      c ≠ '"' ∧ c ≠ 'n' ∧ c ≠ 't' ∧ c ≠ 'f' := by
    refine ⟨?_, ?_, ?_, ?_, ?_, ?_, ?_, ?_, ?_, ?_, ?_⟩
    · apply (Bool.not_eq_true _).mp
      intro hws
      simp only [isWs, Bool.or_eq_true, decide_eq_true_eq] at hws
      rcases hws with ((rfl | rfl) | rfl) | rfl <;>
        rcases hstart with hstart | hstart <;> revert hstart <;> decide
    all_goals
      rintro rfl
      rcases hstart with hstart | hstart <;> revert hstart <;> decide
  obtain ⟨hws, h1, h2, h3, h4, h5, h6, h7, h8, h9, h10⟩ := hother
  rw [nextMode_start]
  simp [begin, hws, h1, h2, h3, h4, h5, h6, h7, h8, h9, h10, h]

theorem lexFrom_token {t : Token} {rest : Text}
    (hrest : t.isNum = true → EndsNum rest) :
    lexFrom .start (t.text ++ rest) = (lexFrom .start rest).map fun ts => t :: ts := by
  cases t with
  | ws c h =>
    have hbegin : nextMode .start (.char c) = some ([.ws c h], .start) := dif_pos h
    exact lexFrom_cons hbegin
  | lbrace => exact lexFrom_cons (show nextMode .start (.char '{') = some ([.lbrace], .start) from rfl)
  | rbrace => exact lexFrom_cons (show nextMode .start (.char '}') = some ([.rbrace], .start) from rfl)
  | lbrack => exact lexFrom_cons (show nextMode .start (.char '[') = some ([.lbrack], .start) from rfl)
  | rbrack => exact lexFrom_cons (show nextMode .start (.char ']') = some ([.rbrack], .start) from rfl)
  | comma => exact lexFrom_cons (show nextMode .start (.char ',') = some ([.comma], .start) from rfl)
  | colon => exact lexFrom_cons (show nextMode .start (.char ':') = some ([.colon], .start) from rfl)
  | word w => exact lexFrom_word w rest
  | num n =>
    obtain ⟨raw, ok⟩ := n
    cases raw with
    | nil => cases ok
    | cons c raw =>
      obtain ⟨st', hrun, hacc⟩ : ∃ st', ((numStart c).bind fun st => numRun st raw) = some st' ∧
          st'.accepting = true := by
        simpa only [isNumber, Option.any_eq_true] using ok
      obtain ⟨st, hstart, hrun⟩ := Option.bind_eq_some_iff.mp hrun
      simp only [Token.text, Json.text, List.map_cons, List.cons_append]
      rw [lexFrom_cons (nextMode_numStart hstart), ← Json.text]
      have hread := @lexFrom_num _ _ [c] _ _ hrun hacc ok (hrest rfl)
      rw [hread]
      simp [Function.comp_def]
  | str s =>
    have hquote : nextMode .start (.char '"') = some ([], .body []) := rfl
    simp only [Token.text, StrLit.text, List.cons_append, List.append_assoc, List.nil_append]
    rw [lexFrom_cons hquote, lexFrom_str]
    simp [Function.comp_def]

theorem lex_untokenize {ts : List Token} (h : Spaced ts) : lex (untokenize ts) = some ts := by
  induction ts with
  | nil => rfl
  | cons t ts ih =>
    have hread := lexFrom_token fun hnum => (delimited_untokenize h hnum).endsNum
    rw [lex, untokenize, List.flatMap_cons, ← untokenize, hread, ← lex, ih h.tail]
    rfl

end Json
