import Mathlib.Data.List.DropRight
import Mathlib.Data.List.TakeWhile
import Mathlib.Data.Option.Basic

/-!
# Origins of URLs

What the parser of the URL Standard makes of a text, as far as the origin goes: a text is
cleaned, its scheme is split off, and for the schemes of the network an authority is read
after any number of slashes and backslashes. Paths, queries and fragments are always
accepted. Hosts are parsed by the platform, which knows the tables of Unicode, and so are
URLs of other schemes, whose origins have no text of their own.
-/

namespace Origins

abbrev Text := List Char

/-! ## Parts of a URL -/

def isBlank (c : Char) : Bool := c.toNat ≤ 32

def isTabOrNewline (c : Char) : Bool := c = '\t' || c = '\n' || c = '\r'

def cleanEnd (s : Text) : Text := (s.rdropWhile isBlank).filter fun c => !isTabOrNewline c

/-- Blanks at the ends go, and tabs and ends of line anywhere. -/
def clean (s : Text) : Text := cleanEnd (s.dropWhile isBlank)

inductive Scheme
  | ftp
  | http
  | https
  | ws
  | wss
deriving DecidableEq, Repr

namespace Scheme

def text : Scheme → Text
  | ftp => ['f', 't', 'p']
  | http => ['h', 't', 't', 'p']
  | https => ['h', 't', 't', 'p', 's']
  | ws => ['w', 's']
  | wss => ['w', 's', 's']

def defaultPort : Scheme → ℕ
  | ftp => 21
  | http => 80
  | https => 443
  | ws => 80
  | wss => 443

def ofText? (name : Text) : Option Scheme :=
  [ftp, http, https, ws, wss].find? fun s => s.text = name

end Scheme

def isSchemeChar (c : Char) : Bool := c.isAlphanum || c = '+' || c = '-' || c = '.'

/-- The scheme in lower case, and what follows its colon. -/
def splitScheme (s : Text) : Option (Text × Text) :=
  match s.takeWhile isSchemeChar, s.dropWhile isSchemeChar with
  | c :: name, ':' :: rest => if c.isAlpha then some ((c :: name).map Char.toLower, rest) else none
  | _, _ => none

def isSlash (c : Char) : Bool := c = '/' || c = '\\'

def startsWithTwoSlashes : Text → Bool
  | c :: d :: _ => isSlash c && isSlash d
  | _ => false

def endsAuthority (c : Char) : Bool := c = '/' || c = '\\' || c = '?' || c = '#'

def authorityPart (s : Text) : Text := s.takeWhile fun c => !endsAuthority c

/-- What follows the last `@`. -/
def afterCredentials : Text → Text
  | [] => []
  | c :: s => if '@' ∈ s then afterCredentials s else if c = '@' then s else c :: s

/-- The host is what is before the first colon that is not in brackets. -/
def splitPort (inside : Bool) : Text → Text × Option Text
  | [] => ([], none)
  | c :: s =>
    if c = ':' && !inside then ([], some s)
    else
      let (host, port) := splitPort (c = '[' || (inside && c ≠ ']')) s
      (c :: host, port)

def readPort (s : Scheme) : Option Text → Option (Option ℕ)
  | none => some none
  | some digits =>
    if digits = [] then some none
    else if digits.all Char.isDigit then
      let n := Nat.ofDigitChars 10 digits 0
      if n = s.defaultPort then some none else if n < 65536 then some (some n) else none
    else none

/-! ## Origins -/

def isAuthorityChar (c : Char) : Bool := 32 < c.toNat && !endsAuthority c && c ≠ '@'

def isDomainChar (c : Char) : Bool := isAuthorityChar c && c ≠ ':' && c ≠ '[' && c ≠ ']'

def isAddressChar (c : Char) : Bool := c.isDigit || ('a' ≤ c && c ≤ 'f') || c = ':'

/-- A host as it is written out. -/
structure Host where
  text : Text
  wellFormed : (text ≠ [] ∧ text.all isDomainChar = true) ∨
    ∃ address, text = '[' :: address ++ [']'] ∧ address.all isAddressChar = true

instance : DecidableEq Host := fun h h' =>
  decidable_of_iff (h.text = h'.text) ⟨fun heq => by cases h; cases h'; cases heq; rfl, congrArg _⟩

def validPort (s : Scheme) : Option ℕ → Bool
  | none => true
  | some n => n ≠ s.defaultPort && n < 65536

/-- The port of a scheme is not written. -/
structure Origin where
  scheme : Scheme
  host : Host
  port : Option ℕ
  valid : validPort scheme port = true
deriving DecidableEq

def portText : Option ℕ → Text
  | none => []
  | some n => ':' :: Nat.toDigits 10 n

def Origin.authority (o : Origin) : Text := o.host.text ++ portText o.port

def Origin.text (o : Origin) : Text := o.scheme.text ++ ':' :: '/' :: '/' :: o.authority

/-- The origin of a URL: that of most other schemes has no text. -/
def originText : Option Origin → Text
  | none => ['n', 'u', 'l', 'l']
  | some o => o.text

/-! ## The parser -/

/-- The parser of hosts gives back a host that is written out. `others` are the URLs with
another scheme, and `relatives` are the texts without one on a page whose own URL has
another scheme: `none` is a failure, and `some none` a URL whose origin has no text. -/
structure Platform where
  parseHost : Text → Option Host
  others : Text → Option (Option Origin)
  relatives : Text → Option (Option Origin)
  parseHost_text : ∀ t h, parseHost t = some h → parseHost h.text = some h
  parseHost_others : ∀ t o, others t = some (some o) → parseHost o.host.text = some o.host

/-- What a text is resolved against. -/
inductive Base
  | nothing
  | network (o : Origin)
  | other
deriving DecidableEq

def Base.scheme : Base → Option Scheme
  | network o => some o.scheme
  | _ => none

/-- Where a text finds its origin. -/
inductive Reference
  | base (o : Origin)
  | authority (s : Scheme) (t : Text)
  | other (u : Option (Option Origin))
deriving DecidableEq

/-- A path, a query or a fragment alone. -/
def Base.reference : Base → Reference
  | network o => .base o
  | _ => .other none

section

variable (p : Platform)

def reference (base : Base) (s : Text) : Reference :=
  match splitScheme (clean s) with
  | some (name, rest) =>
    match Scheme.ofText? name with
    | none => .other (p.others (clean s))
    | some scheme =>
      -- `http:path` is a path on a page of the same scheme
      if base.scheme = some scheme ∧ startsWithTwoSlashes rest = false then base.reference
      else .authority scheme (rest.dropWhile isSlash)
  | none =>
    match base with
    | .network o =>
      if startsWithTwoSlashes (clean s) then .authority o.scheme ((clean s).dropWhile isSlash)
      else base.reference
    | .other => .other (p.relatives (clean s))
    | .nothing => base.reference

def Origin.make? (s : Scheme) (h : Host) (port : Option ℕ) : Option Origin :=
  if hvalid : validPort s port = true then some ⟨s, h, port, hvalid⟩ else none

def parseHostAndPort (s : Scheme) (a : Text) : Option Origin :=
  let (host, port) := splitPort false a
  if host = [] then none
  else (p.parseHost host).bind fun h => (readPort s port).bind fun n => Origin.make? s h n

def parseAuthority (s : Scheme) (t : Text) : Option Origin :=
  parseHostAndPort p s (afterCredentials (authorityPart t))

/-- `new URL(s, base).origin`. -/
def parse (base : Base) (s : Text) : Option (Option Origin) :=
  match reference p base s with
  | .base o => some (some o)
  | .authority scheme t => (parseAuthority p scheme t).map some
  | .other u => u

end

/-! ## Hosts and ports -/

theorem toNat_of_isAddressChar {c : Char} (h : isAddressChar c = true) :
    48 ≤ c.toNat ∧ c.toNat ≤ 58 ∨ 97 ≤ c.toNat ∧ c.toNat ≤ 102 := by
  simp only [isAddressChar, Char.isDigit, Bool.or_eq_true, Bool.and_eq_true, decide_eq_true_eq]
    at h
  rcases h with (⟨hlow, hhigh⟩ | ⟨hlow, hhigh⟩) | rfl
  · exact Or.inl ⟨hlow, Nat.le_succ_of_le hhigh⟩
  · exact Or.inr ⟨hlow, hhigh⟩
  · exact Or.inl ⟨by decide, by decide⟩

theorem isAuthorityChar_of_toNat {c : Char}
    (h : 48 ≤ c.toNat ∧ c.toNat ≤ 58 ∨ 97 ≤ c.toNat ∧ c.toNat ≤ 102) :
    isAuthorityChar c = true := by
  have hne (d : Char) (hd : d.toNat < 48 ∨ 58 < d.toNat ∧ d.toNat < 97) : c ≠ d := by
    rintro rfl
    omega
  have hslash : c ≠ '/' := hne '/' (by decide)
  have hback : c ≠ '\\' := hne '\\' (by decide)
  have hquery : c ≠ '?' := hne '?' (by decide)
  have hhash : c ≠ '#' := hne '#' (by decide)
  have hat : c ≠ '@' := hne '@' (by decide)
  have hblank : 32 < c.toNat := by omega
  simp [isAuthorityChar, endsAuthority, hslash, hback, hquery, hhash, hat, hblank]

theorem isAuthorityChar_of_isDigit {c : Char} (h : c.isDigit = true) : isAuthorityChar c = true :=
  isAuthorityChar_of_toNat (toNat_of_isAddressChar (by simp [isAddressChar, h]))

theorem Host.text_ne_nil (h : Host) : h.text ≠ [] := by
  rcases h.wellFormed with ⟨hne, -⟩ | ⟨address, heq, -⟩
  · exact hne
  · simp [heq]

theorem Host.isAuthorityChar_of_mem (h : Host) : ∀ c ∈ h.text, isAuthorityChar c = true := by
  intro c hc
  rcases h.wellFormed with ⟨-, hall⟩ | ⟨address, heq, hall⟩
  · have hdomain := List.all_eq_true.mp hall c hc
    simp only [isDomainChar, Bool.and_eq_true] at hdomain
    exact hdomain.1.1.1
  · rw [heq, List.cons_append, List.mem_cons, List.mem_append, List.mem_singleton] at hc
    rcases hc with rfl | hc | rfl
    · decide
    · exact isAuthorityChar_of_toNat (toNat_of_isAddressChar (List.all_eq_true.mp hall c hc))
    · decide

theorem splitPort_kept {inside : Bool} {c : Char} (h : (decide (c = ':') && !inside) = false)
    (s : Text) :
    splitPort inside (c :: s) =
      (c :: (splitPort (c = '[' || (inside && c ≠ ']')) s).1,
        (splitPort (c = '[' || (inside && c ≠ ']')) s).2) :=
  if_neg (Bool.eq_false_iff.mp h)

theorem splitPort_colon (s : Text) : splitPort false (':' :: s) = ([], some s) := rfl

theorem splitPort_domain {domain : Text} (h : ∀ c ∈ domain, isDomainChar c = true) (e : Text) :
    splitPort false (domain ++ e) = (domain ++ (splitPort false e).1, (splitPort false e).2) := by
  induction domain with
  | nil => rfl
  | cons c domain ih =>
    have hc := h c (List.mem_cons_self ..)
    simp only [isDomainChar, Bool.and_eq_true, decide_eq_true_eq] at hc
    have hrest := ih fun d hd => h d (List.mem_cons_of_mem c hd)
    rw [List.cons_append, splitPort_kept (by simp [hc.1.1.2])]
    simp [hc.1.2, hrest]

theorem splitPort_address {address : Text} (h : ∀ c ∈ address, isAddressChar c = true) (e : Text) :
    splitPort true (address ++ ']' :: e) =
      (address ++ ']' :: (splitPort false e).1, (splitPort false e).2) := by
  induction address with
  | nil => rfl
  | cons c address ih =>
    have hclose : c ≠ ']' := by
      rintro rfl
      exact absurd (h ']' (List.mem_cons_self ..)) (by decide)
    have hrest := ih fun d hd => h d (List.mem_cons_of_mem c hd)
    rw [List.cons_append, splitPort_kept (Bool.and_false _)]
    simp [hclose, hrest]

/-- The text of a host is all host, whatever follows it. -/
theorem Host.splitPort_append (h : Host) (e : Text) :
    splitPort false (h.text ++ e) = (h.text ++ (splitPort false e).1, (splitPort false e).2) := by
  rcases h.wellFormed with ⟨-, hall⟩ | ⟨address, heq, hall⟩
  · exact splitPort_domain (List.all_eq_true.mp hall) e
  · have hrest := splitPort_address (List.all_eq_true.mp hall) e
    simp only [heq, List.cons_append, List.append_assoc, List.nil_append]
    rw [splitPort_kept rfl]
    simp [hrest]

theorem isDigit_of_mem_toDigits {n : ℕ} {c : Char} (h : c ∈ Nat.toDigits 10 n) :
    c.isDigit = true :=
  Nat.isDigit_of_mem_toDigits (by decide) (by decide) h

theorem range_of_isDigit {c : Char} (h : c.isDigit = true) : 48 ≤ c.toNat ∧ c.toNat ≤ 57 := by
  simp only [Char.isDigit, Bool.and_eq_true, decide_eq_true_eq] at h
  exact h

theorem ofDigitChars_eq_zero_iff {digits : Text} (h : ∀ c ∈ digits, c.isDigit = true) :
    Nat.ofDigitChars 10 digits 0 = 0 ↔ ∀ c ∈ digits, c = '0' := by
  induction digits with
  | nil => simp
  | cons c digits ih =>
    have hc : 48 ≤ c.toNat := (range_of_isDigit (h c (List.mem_cons_self ..))).1
    have hzero : c.toNat = 48 ↔ c = '0' := Char.toNat_inj (d := '0')
    have hpow : 0 < 10 ^ digits.length := Nat.pow_pos (by decide)
    rw [Nat.ofDigitChars_cons, Nat.ofDigitChars_eq_ofDigitChars_zero, Nat.add_eq_zero_iff,
      ih fun d hd => h d (List.mem_cons_of_mem c hd), List.forall_mem_cons, Nat.mul_eq_zero,
      ← hzero]
    refine and_congr_left fun _ => ⟨fun hor => ?_, fun heq => Or.inr (by simp [heq])⟩
    rcases hor with hor | hor
    · omega
    · have hdiff : c.toNat - 48 = 0 := by simpa using hor
      omega

/-- The digits of a number with others behind them. -/
theorem readPort_toDigits_append {s : Scheme} {n : ℕ} (hvalid : validPort s (some n) = true)
    (a : Text) :
    readPort s (some (Nat.toDigits 10 n ++ a)) = some (some n) ↔
      a = [] ∨ n = 0 ∧ ∀ c ∈ a, c = '0' := by
  simp only [validPort, Bool.and_eq_true, decide_eq_true_eq] at hvalid
  have hne : Nat.toDigits 10 n ++ a ≠ [] := by simp [Nat.toDigits_ne_nil]
  by_cases hall : ∀ c ∈ a, c.isDigit = true
  · have hdigits : (Nat.toDigits 10 n ++ a).all Char.isDigit = true :=
      List.all_eq_true.mpr (List.forall_mem_append.mpr ⟨fun c => isDigit_of_mem_toDigits, hall⟩)
    have hvalue : Nat.ofDigitChars 10 (Nat.toDigits 10 n ++ a) 0 =
        10 ^ a.length * n + Nat.ofDigitChars 10 a 0 := by
      rw [Nat.ofDigitChars_append, Nat.ofDigitChars_ten_toDigits,
        Nat.ofDigitChars_eq_ofDigitChars_zero]
    have hsame : Nat.ofDigitChars 10 (Nat.toDigits 10 n ++ a) 0 = n ↔
        a = [] ∨ n = 0 ∧ ∀ c ∈ a, c = '0' := by
      rw [hvalue, ← ofDigitChars_eq_zero_iff hall]
      cases a with
      | nil => simp
      | cons c a =>
        have hpow : 1 < 10 ^ (c :: a).length := Nat.one_lt_pow (by simp) (by decide)
        constructor
        · intro heq
          have hn : n = 0 := by
            by_contra hn
            have hlt := Nat.mul_lt_mul_of_pos_right hpow (Nat.pos_of_ne_zero hn)
            omega
          subst hn
          exact Or.inr ⟨rfl, by simpa using heq⟩
        · rintro (hnil | ⟨rfl, hzero⟩)
          · cases hnil
          · simp [hzero]
    rw [← hsame]
    simp only [readPort, if_neg hne, if_pos hdigits]
    constructor
    · intro h
      split at h
      · cases h
      · split at h
        · simpa using h
        · cases h
    · intro h
      rw [h, if_neg hvalid.1, if_pos hvalid.2]
  · have hdigits : ¬ (Nat.toDigits 10 n ++ a).all Char.isDigit = true := fun h =>
      hall (List.forall_mem_append.mp (List.all_eq_true.mp h)).2
    simp only [readPort, if_neg hne, if_neg hdigits, false_iff, reduceCtorEq]
    rintro (rfl | ⟨-, hzero⟩)
    · exact hall nofun
    · exact hall fun c hc => (hzero c hc) ▸ rfl

/-! ## Authorities -/

theorem afterCredentials_append {h : Text} (hat : '@' ∉ h) (a : Text) :
    afterCredentials (h ++ a) = if '@' ∈ a then afterCredentials a else h ++ a := by
  induction h with
  | nil =>
    split
    · rfl
    · rename_i ha
      cases a with
      | nil => rfl
      | cons c a =>
        simp only [List.mem_cons, not_or] at ha
        simp [afterCredentials, ha.2, Ne.symm ha.1]
  | cons c h ih =>
    simp only [List.mem_cons, not_or] at hat
    simp only [List.cons_append, afterCredentials, List.mem_append, hat.2, false_or, ih hat.2]
    split
    · rfl
    · rw [if_neg (Ne.symm hat.1)]

theorem Origin.isAuthorityChar_of_mem (o : Origin) : ∀ c ∈ o.authority, isAuthorityChar c = true := by
  refine List.forall_mem_append.mpr ⟨o.host.isAuthorityChar_of_mem, ?_⟩
  cases o.port with
  | none => exact nofun
  | some n =>
    refine List.forall_mem_cons.mpr ⟨by decide, fun c hc => ?_⟩
    exact isAuthorityChar_of_isDigit (isDigit_of_mem_toDigits hc)

theorem Origin.notMem_authority (o : Origin) {c : Char} (h : isAuthorityChar c = false) :
    c ∉ o.authority := fun hc => by
  rw [o.isAuthorityChar_of_mem c hc] at h
  cases h

theorem authorityPart_append (o : Origin) (t : Text) :
    authorityPart (o.authority ++ t) = o.authority ++ authorityPart t := by
  refine List.takeWhile_append_of_pos fun c hc => ?_
  have hchar := o.isAuthorityChar_of_mem c hc
  simp only [isAuthorityChar, Bool.and_eq_true] at hchar
  exact hchar.1.2

section

variable {p : Platform} {base : Base} {o : Origin}

/-- An authority without credentials that gives the origin. -/
def Names (p : Platform) (o : Origin) (s : Scheme) (a : Text) : Prop :=
  s = o.scheme ∧ (splitPort false a).1 ≠ [] ∧
    p.parseHost (splitPort false a).1 = some o.host ∧
      readPort s (splitPort false a).2 = some o.port

theorem Origin.make?_eq_some_iff {s : Scheme} {h : Host} {port : Option ℕ} :
    Origin.make? s h port = some o ↔ s = o.scheme ∧ h = o.host ∧ port = o.port := by
  unfold Origin.make?
  constructor
  · intro heq
    split at heq
    · cases heq
      exact ⟨rfl, rfl, rfl⟩
    · cases heq
  · rintro ⟨rfl, rfl, rfl⟩
    rw [dif_pos o.valid]

theorem parseHostAndPort_eq_some_iff {s : Scheme} {a : Text} :
    parseHostAndPort p s a = some o ↔ Names p o s a := by
  unfold parseHostAndPort Names
  by_cases hnil : (splitPort false a).1 = []
  · simp [hnil]
  · simp only [if_neg hnil, Option.bind_eq_some_iff, Origin.make?_eq_some_iff]
    constructor
    · rintro ⟨h, hhost, n, hport, rfl, rfl, rfl⟩
      exact ⟨rfl, hnil, hhost, hport⟩
    · rintro ⟨rfl, -, hhost, hport⟩
      exact ⟨o.host, hhost, o.port, hport, rfl, rfl, rfl⟩

/-- A text gives the origin: as that of the page, by an authority or by another scheme. -/
def Reaches (p : Platform) (base : Base) (o : Origin) (s : Text) : Prop :=
  match reference p base s with
  | .base o' => o' = o
  | .authority scheme t => Names p o scheme (afterCredentials (authorityPart t))
  | .other u => u = some (some o)

theorem parse_eq_some_iff {s : Text} : parse p base s = some (some o) ↔ Reaches p base o s := by
  unfold parse Reaches
  cases reference p base s with
  | base o' => simp
  | authority scheme t => simp [parseAuthority, parseHostAndPort_eq_some_iff]
  | other u => rfl

/-- What may follow the text of an origin up to the end of the authority. -/
def Continues (p : Platform) (o : Origin) (a : Text) : Prop :=
  if '@' ∈ a then Names p o o.scheme (afterCredentials a)
  else
    match o.port with
    | some n => a = [] ∨ n = 0 ∧ ∀ c ∈ a, c = '0'
    | none =>
      p.parseHost (o.host.text ++ (splitPort false a).1) = some o.host ∧
        readPort o.scheme (splitPort false a).2 = some none

theorem names_authority_append (hhost : p.parseHost o.host.text = some o.host) (a : Text) :
    Names p o o.scheme (o.authority ++ a) ↔
      match o.port with
      | some n => a = [] ∨ n = 0 ∧ ∀ c ∈ a, c = '0'
      | none =>
        p.parseHost (o.host.text ++ (splitPort false a).1) = some o.host ∧
          readPort o.scheme (splitPort false a).2 = some none := by
  obtain ⟨s, h, port, hvalid⟩ := o
  have hne : h.text ≠ [] := h.text_ne_nil
  simp only [Names, Origin.authority, List.append_assoc, h.splitPort_append]
  cases port with
  | none => simp [portText, hne]
  | some n =>
    have hport := readPort_toDigits_append hvalid a
    simp [portText, splitPort_colon, hne, hhost, hport]

theorem parseAuthority_append (hhost : p.parseHost o.host.text = some o.host) (t : Text) :
    parseAuthority p o.scheme (o.authority ++ t) = some o ↔ Continues p o (authorityPart t) := by
  have hat : '@' ∉ o.authority := o.notMem_authority (by decide)
  rw [parseAuthority, parseHostAndPort_eq_some_iff, authorityPart_append,
    afterCredentials_append hat, Continues]
  split
  · exact Iff.rfl
  · exact names_authority_append hhost _

/-! ## Texts of origins -/

theorem splitScheme_text (s : Scheme) (rest : Text) :
    splitScheme (s.text ++ ':' :: rest) = some (s.text, rest) := by
  cases s <;> rfl

theorem Scheme.ofText?_text (s : Scheme) : Scheme.ofText? s.text = some s := by
  cases s <;> rfl

theorem Scheme.plain (s : Scheme) : ∀ c ∈ s.text, c.isAlpha = true := by
  cases s <;> exact List.all_eq_true.mp (by decide)

theorem cleanEnd_append {s : Text} (h : ∀ c ∈ s, 32 < c.toNat) (t : Text) :
    cleanEnd (s ++ t) = s ++ cleanEnd t := by
  have hblank : (s ++ t).rdropWhile isBlank = s ++ t.rdropWhile isBlank := by
    induction t using List.reverseRecOn with
    | nil =>
      rw [List.append_nil, List.rdropWhile_nil, List.append_nil, List.rdropWhile_eq_self_iff]
      intro hne
      have hlast := h _ (List.getLast_mem hne)
      simpa [isBlank] using hlast
    | append_singleton t c ih =>
      rw [← List.append_assoc, List.rdropWhile_concat, List.rdropWhile_concat, ih]
      split
      · rfl
      · exact List.append_assoc ..
  have hkept : s.filter (fun c => !isTabOrNewline c) = s := by
    refine List.filter_eq_self.mpr fun c hc => ?_
    have hlow := h c hc
    have hne (d : Char) (hd : d.toNat ≤ 32) : c ≠ d := by
      rintro rfl
      omega
    have htab : c ≠ '\t' := hne '\t' (by decide)
    have hlf : c ≠ '\n' := hne '\n' (by decide)
    have hcr : c ≠ '\r' := hne '\r' (by decide)
    simp [isTabOrNewline, htab, hlf, hcr]
  rw [cleanEnd, hblank, List.filter_append, hkept, cleanEnd]

theorem clean_text (s : Scheme) (rest : Text) :
    clean (s.text ++ ':' :: rest) = s.text ++ ':' :: cleanEnd rest := by
  have hplain : ∀ c ∈ s.text ++ [':'], 32 < c.toNat := by
    cases s <;> simp [Scheme.text]
  have hfront : (s.text ++ ':' :: rest).dropWhile isBlank = s.text ++ ':' :: rest := by
    cases s <;> rfl
  rw [clean, hfront]
  simpa using cleanEnd_append hplain rest

theorem reference_of_clean {s rest : Text} {scheme : Scheme}
    (hclean : clean s = scheme.text ++ ':' :: rest) :
    reference p base s =
      if base.scheme = some scheme ∧ startsWithTwoSlashes rest = false then base.reference
      else .authority scheme (rest.dropWhile isSlash) := by
  simp only [reference, hclean, splitScheme_text, Scheme.ofText?_text]

/-- A scheme with no host after it is not accepted. -/
theorem parse_scheme {s : Scheme} {rest : Text} (h : rest = [] ∨ rest = ['/']) :
    parse p .nothing (s.text ++ ':' :: rest) = none := by
  have hrest : cleanEnd rest = rest ∧ rest.dropWhile isSlash = [] := by
    rcases h with rfl | rfl <;> exact ⟨rfl, rfl⟩
  have hreference : reference p .nothing (s.text ++ ':' :: rest) = .authority s [] := by
    rw [reference_of_clean (clean_text s rest), if_neg nofun, hrest.1, hrest.2]
  rw [parse, hreference]
  rfl

theorem dropWhile_authority (o : Origin) (t : Text) :
    (o.authority ++ t).dropWhile isSlash = o.authority ++ t := by
  have hmem : ∀ c ∈ o.authority, isSlash c = false := by
    intro c hc
    by_contra hslash
    refine o.notMem_authority (c := c) ?_ hc
    simp only [isSlash, Bool.not_eq_false, Bool.or_eq_true, decide_eq_true_eq] at hslash
    rcases hslash with rfl | rfl <;> decide
  obtain ⟨c, rest, hcons⟩ := List.exists_cons_of_ne_nil o.host.text_ne_nil
  have hc : isSlash c = false := hmem c (by simp [Origin.authority, hcons])
  simp [Origin.authority, hcons, hc]

/-- The text of an origin is read as such on every page. -/
theorem reference_text_append (base : Base) (o : Origin) (t : Text) :
    reference p base (o.text ++ t) = .authority o.scheme (o.authority ++ cleanEnd t) := by
  have hclean : clean (o.text ++ t) =
      o.scheme.text ++ ':' :: '/' :: '/' :: (o.authority ++ cleanEnd t) := by
    have hplain : ∀ c ∈ '/' :: '/' :: o.authority, 32 < c.toNat := by
      refine List.forall_mem_cons.mpr ⟨by decide, List.forall_mem_cons.mpr ⟨by decide, ?_⟩⟩
      intro c hc
      have hchar := o.isAuthorityChar_of_mem c hc
      simp only [isAuthorityChar, Bool.and_eq_true, decide_eq_true_eq] at hchar
      exact hchar.1.1
    have hend := cleanEnd_append hplain t
    simp only [List.cons_append] at hend
    simp [Origin.text, clean_text, hend]
  have hslashes : ('/' :: '/' :: (o.authority ++ cleanEnd t)).dropWhile isSlash =
      o.authority ++ cleanEnd t := by
    simpa [isSlash] using dropWhile_authority o (cleanEnd t)
  rw [reference_of_clean hclean, hslashes]
  exact if_neg fun h => Bool.noConfusion h.2

theorem parse_text_append (hhost : p.parseHost o.host.text = some o.host) (t : Text) :
    parse p base (o.text ++ t) = some (some o) ↔ Continues p o (authorityPart (cleanEnd t)) := by
  rw [parse, reference_text_append, ← parseAuthority_append hhost]
  simp

theorem reference_nothing (s : Text) :
    (∃ scheme t, reference p .nothing s = .authority scheme t) ∨
      reference p .nothing s = .other none ∨ reference p .nothing s = .other (p.others (clean s)) := by
  unfold reference
  split
  · split
    · exact Or.inr (Or.inr rfl)
    · simp [Base.scheme]
  · exact Or.inr (Or.inl rfl)

/-- The host of a URL that is resolved against nothing comes from the parser of hosts. -/
theorem parseHost_of_parse {s : Text} (h : parse p .nothing s = some (some o)) :
    p.parseHost o.host.text = some o.host := by
  unfold parse at h
  rcases reference_nothing (p := p) s with ⟨scheme, t, href⟩ | href | href
  · rw [href] at h
    obtain ⟨o', ho', heq⟩ := Option.map_eq_some_iff.mp h
    cases heq
    obtain ⟨-, -, hhost, -⟩ := parseHostAndPort_eq_some_iff.mp ho'
    exact p.parseHost_text _ _ hhost
  · rw [href] at h
    cases h
  · rw [href] at h
    exact p.parseHost_others _ _ h

/-- Where the text of an origin can be cut before a slash. -/
theorem Origin.text_eq_append_slash {w t : Text} (h : o.text = w ++ '/' :: t) :
    ∃ rest, (rest = [] ∨ rest = ['/']) ∧ w = o.scheme.text ++ ':' :: rest := by
  have hslash : '/' ∉ o.authority := o.notMem_authority (by decide)
  have hscheme : '/' ∉ o.scheme.text ++ [':'] := by cases o.scheme <;> decide
  have heq : o.scheme.text ++ [':'] ++ '/' :: '/' :: o.authority = w ++ '/' :: t := by
    simpa [Origin.text] using h
  rcases List.append_eq_append_iff.mp heq with ⟨rest, rfl, hrest⟩ | ⟨rest, hw, hrest⟩
  · refine ⟨rest, ?_, by simp⟩
    match rest, hrest with
    | [], _ => exact Or.inl rfl
    | [c], hrest => exact Or.inr (by rw [← (List.cons.inj hrest).1])
    | c :: d :: rest, hrest =>
      refine absurd ?_ hslash
      simp at hrest
      rw [hrest.2.2]
      simp
  · cases rest with
    | nil => exact ⟨[], Or.inl rfl, by simpa using hw.symm⟩
    | cons c rest =>
      obtain rfl : '/' = c := (List.cons.inj hrest).1
      exact absurd (hw ▸ by simp) hscheme

/-- A path written after a URL that is accepted does not make it one of its origin. -/
theorem originText_prefix_append_iff {s : Text} {u : Option Origin}
    (h : parse p .nothing s = some u) (path : Text) :
    originText u <+: s ++ '/' :: path ↔ originText u <+: s := by
  refine ⟨fun hprefix => ?_, fun hprefix => hprefix.trans (List.prefix_append ..)⟩
  rcases List.prefix_or_prefix_of_prefix hprefix (List.prefix_append s _) with hs | ⟨t, ht⟩
  · exact hs
  · rw [← ht, List.prefix_append_right_inj] at hprefix
    cases t with
    | nil => simp [← ht]
    | cons c t =>
      obtain ⟨rfl, -⟩ := List.cons_prefix_cons.mp hprefix
      cases u with
      | none =>
        have hmem : '/' ∈ originText none := by simp [← ht]
        exact absurd hmem (by decide)
      | some o =>
        obtain ⟨rest, hrest, rfl⟩ := Origin.text_eq_append_slash ht.symm
        rw [parse_scheme hrest] at h
        cases h

theorem Scheme.text_injective : Function.Injective Scheme.text := fun s s' h => by
  simpa [Scheme.ofText?_text] using congrArg Scheme.ofText? h

theorem Origin.text_eq_text_append_iff {o' : Origin} {t : Text} :
    o.text = o'.text ++ t ↔ o.scheme = o'.scheme ∧ o.authority = o'.authority ++ t := by
  constructor
  · intro h
    have hsplit := splitScheme_text o.scheme ('/' :: '/' :: o.authority)
    have hsplit' := splitScheme_text o'.scheme ('/' :: '/' :: (o'.authority ++ t))
    have heq : o.scheme.text ++ ':' :: '/' :: '/' :: o.authority =
        o'.scheme.text ++ ':' :: '/' :: '/' :: (o'.authority ++ t) := by
      simpa [Origin.text] using h
    rw [heq, hsplit'] at hsplit
    obtain ⟨hscheme, hrest⟩ := Prod.mk.inj (Option.some.inj hsplit)
    exact ⟨(Scheme.text_injective hscheme).symm, by simpa using hrest.symm⟩
  · rintro ⟨hscheme, hauthority⟩
    simp [Origin.text, hscheme, hauthority]

/-- The hosts and ports that an origin is the beginning of. -/
theorem Origin.text_prefix_iff {o' : Origin} :
    o.text <+: o'.text ↔ o.scheme = o'.scheme ∧ o.authority <+: o'.authority := by
  constructor
  · rintro ⟨t, ht⟩
    obtain ⟨hscheme, hauthority⟩ := Origin.text_eq_text_append_iff.mp ht.symm
    exact ⟨hscheme.symm, t, hauthority.symm⟩
  · rintro ⟨hscheme, t, ht⟩
    exact ⟨t, (Origin.text_eq_text_append_iff.mpr ⟨hscheme.symm, ht.symm⟩).symm⟩

/-- Nothing after an authority takes part in the beginning of another origin. -/
theorem text_prefix_append_iff {o' : Origin} {t : Text}
    (h : ∀ c, t.head? = some c → endsAuthority c = true) :
    o.text <+: o'.text ++ t ↔ o.text <+: o'.text := by
  refine ⟨fun hprefix => ?_, fun hprefix => hprefix.trans (List.prefix_append ..)⟩
  rcases List.prefix_or_prefix_of_prefix hprefix (List.prefix_append o'.text t) with hs | ⟨s, hs⟩
  · exact hs
  · rw [← hs, List.prefix_append_right_inj] at hprefix
    cases s with
    | nil => simp [← hs]
    | cons c s =>
      obtain ⟨rest, rfl⟩ := hprefix
      have hc : isAuthorityChar c = false := by simp [isAuthorityChar, h c rfl]
      refine absurd ?_ (o.notMem_authority hc)
      simp [(Origin.text_eq_text_append_iff.mp hs.symm).2]

theorem authorityPart_cleanEnd {t : Text} (h : ∀ c, t.head? = some c → endsAuthority c = true) :
    authorityPart (cleanEnd t) = [] := by
  cases t with
  | nil => rfl
  | cons c t =>
    have hc : endsAuthority c = true := h c rfl
    have hlow : 32 < c.toNat := by
      simp only [endsAuthority, Bool.or_eq_true, decide_eq_true_eq] at hc
      rcases hc with ((rfl | rfl) | rfl) | rfl <;> decide
    have hclean : cleanEnd (c :: t) = c :: cleanEnd t :=
      cleanEnd_append (s := [c]) (by simpa using hlow) t
    rw [hclean]
    exact List.takeWhile_cons_of_neg (by simp [hc])

/-- The text of an origin is read as that origin, with any path, query or fragment. -/
theorem parse_text (hhost : p.parseHost o.host.text = some o.host) {t : Text}
    (h : ∀ c, t.head? = some c → endsAuthority c = true) :
    parse p base (o.text ++ t) = some (some o) := by
  rw [parse_text_append hhost, authorityPart_cleanEnd h]
  unfold Continues
  rw [if_neg List.not_mem_nil]
  cases o.port with
  | none => exact ⟨by simpa [splitPort] using hhost, rfl⟩
  | some n => exact Or.inl rfl

end

end Origins
