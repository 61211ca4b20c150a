import Mathlib.Data.List.DropRight
import Mathlib.Data.Int.Notation
import Mathlib.Tactic.Common
import Mathlib.Tactic.Ring

/-!
# Times of Go's standard library

A `time.Time` is a valid reading of calendar and clock, with the offset of its zone in
minutes. `time.Parse` takes more than RFC 3339 does (an hour of one digit, a comma before
the fraction, offsets up to 24:60), and what `AppendFormat` writes reads back.
-/

namespace GoTime

def isDigit (c : Char) : Bool := '0' ≤ c && c ≤ '9'

def isLeap (year : ℕ) : Bool := year % 4 = 0 && (year % 100 ≠ 0 || year % 400 = 0)

def daysIn (year month : ℕ) : ℕ :=
  if month = 2 then if isLeap year then 29 else 28
  else if month = 4 || month = 6 || month = 9 || month = 11 then 30
  else 31

def Valid (year month day hour minute second nano : ℕ) : Prop :=
  year < 10 ^ 4 ∧ (1 ≤ month ∧ month ≤ 12) ∧ (1 ≤ day ∧ day ≤ daysIn year month) ∧
    hour < 24 ∧ minute < 60 ∧ second < 60 ∧ nano < 10 ^ 9

instance {year month day hour minute second nano : ℕ} :
    Decidable (Valid year month day hour minute second nano) :=
  inferInstanceAs (Decidable (_ ∧ _))

structure Time where
  year : ℕ
  month : ℕ
  day : ℕ
  hour : ℕ
  minute : ℕ
  second : ℕ
  nano : ℕ
  offset : ℤ
  valid : Valid year month day hour minute second nano
deriving DecidableEq

/-- Days from 1970-01-01, in the proleptic Gregorian calendar. -/
def epochDay (year month day : ℕ) : ℤ :=
  let y : ℤ := if month ≤ 2 then year - 1 else year
  let era := y / 400
  let yearOfEra := y % 400
  let monthOfYear : ℤ := if month ≤ 2 then month + 9 else month - 3
  let dayOfYear := (153 * monthOfYear + 2) / 5 + day - 1
  let dayOfEra := yearOfEra * 365 + yearOfEra / 4 - yearOfEra / 100 + dayOfYear
  era * 146097 + dayOfEra - 719468

/-- The nanoseconds of the calendar and the clock, whatever the zone. -/
def Time.wall (t : Time) : ℤ :=
  ((epochDay t.year t.month t.day * 24 + t.hour) * 60 + t.minute) * 60000000000 +
    t.second * 1000000000 + t.nano

/-- Nanoseconds since the epoch. -/
def Time.instant (t : Time) : ℤ := t.wall - t.offset * 60000000000

/-- January 1, year 1, 00:00:00 UTC. -/
def Time.zero : Time := ⟨1, 1, 1, 0, 0, 0, 0, 0, by decide⟩

def Time.isZero (t : Time) : Bool := t.instant = Time.zero.instant

/-! ## Reading -/

def number (k : ℕ) (s : List Char) : Option (ℕ × List Char) :=
  if (s.take k).length = k ∧ (s.take k).all isDigit then
    some (Nat.ofDigitChars 10 (s.take k) 0, s.drop k)
  else none

/-- One digit or two. -/
def shortNumber (s : List Char) : Option (ℕ × List Char) := (number 2 s).or (number 1 s)

def skip (c : Char) (s : List Char) : Option (List Char) :=
  match s with
  | [] => none
  | d :: s => if c = d then some s else none

/-- Digits after the ninth are not read. -/
def nanoseconds (digits : List Char) : ℕ :=
  Nat.ofDigitChars 10 (digits.take 9) 0 * 10 ^ (9 - (digits.take 9).length)

def fraction (s : List Char) : ℕ × List Char :=
  match s with
  | c :: d :: s =>
    if (c = '.' ∨ c = ',') ∧ isDigit d then
      (nanoseconds ((d :: s).takeWhile isDigit), (d :: s).dropWhile isDigit)
    else (0, c :: d :: s)
  | s => (0, s)

def zone (s : List Char) : Option ℤ :=
  match s with
  | ['Z'] => some 0
  | sign :: s => do
    let (hours, s) ← number 2 s
    let s ← skip ':' s
    let (minutes, s) ← number 2 s
    if s ≠ [] ∨ 24 < hours ∨ 60 < minutes then none
    else if sign = '+' then some (hours * 60 + minutes)
    else if sign = '-' then some (-(hours * 60 + minutes))
    else none
  | [] => none

/-- `time.Parse(time.RFC3339, s)`. -/
def parse (s : List Char) : Option Time := do
  let (year, s) ← number 4 s
  let s ← skip '-' s
  let (month, s) ← number 2 s
  let s ← skip '-' s
  let (day, s) ← number 2 s
  let s ← skip 'T' s
  let (hour, s) ← shortNumber s
  let s ← skip ':' s
  let (minute, s) ← number 2 s
  let s ← skip ':' s
  let (second, s) ← number 2 s
  let (nano, s) := fraction s
  let offset ← zone s
  if h : Valid year month day hour minute second nano then
    some ⟨year, month, day, hour, minute, second, nano, offset, h⟩
  else none

/-! ## Writing -/

def pad : ℕ → ℕ → List Char
  | 0, _ => []
  | k + 1, n => pad k (n / 10) ++ [Nat.digitChar (n % 10)]

def formatFraction (nano : ℕ) : List Char :=
  if nano = 0 then [] else '.' :: (pad 9 nano).rdropWhile (· = '0')

def formatZone (offset : ℤ) : List Char :=
  if offset = 0 then ['Z']
  else
    (if offset < 0 then '-' else '+') ::
      (pad 2 (offset.natAbs / 60) ++ ':' :: pad 2 (offset.natAbs % 60))

/-- `AppendFormat(time.RFC3339Nano)`. -/
def Time.format (t : Time) : List Char :=
  pad 4 t.year ++ '-' :: (pad 2 t.month ++ '-' :: (pad 2 t.day ++ 'T' :: (pad 2 t.hour ++
    ':' :: (pad 2 t.minute ++ ':' :: (pad 2 t.second ++
      (formatFraction t.nano ++ formatZone t.offset))))))

/-! ## What was written reads back -/

theorem digitChar_digit : ∀ d < 10, isDigit (Nat.digitChar d) = true ∧ Nat.digitChar d ≠ '-' := by
  decide

@[simp] theorem length_pad (k n : ℕ) : (pad k n).length = k := by
  induction k generalizing n with
  | zero => rfl
  | succ k ih => simp [pad, ih]

theorem isDigit_of_mem_pad {k n : ℕ} {c : Char} (h : c ∈ pad k n) : isDigit c = true := by
  induction k generalizing n with
  | zero => cases h
  | succ k ih =>
    rcases List.mem_append.mp h with h | h
    · exact ih h
    · rw [List.mem_singleton.mp h]
      exact (digitChar_digit _ (Nat.mod_lt n (by decide))).1

theorem ofDigitChars_pad {k n : ℕ} (h : n < 10 ^ k) : Nat.ofDigitChars 10 (pad k n) 0 = n := by
  induction k generalizing n with
  | zero =>
    have hn : n = 0 := by simpa using h
    simp [pad, hn]
  | succ k ih =>
    have hdiv : n / 10 < 10 ^ k := Nat.div_lt_of_lt_mul (by rwa [pow_succ'] at h)
    rw [pad, Nat.ofDigitChars_append, ih hdiv,
      Nat.ofDigitChars_cons_digitChar_of_lt_ten (Nat.mod_lt n (by decide)), Nat.ofDigitChars_nil]
    omega

theorem number_pad {k n : ℕ} (h : n < 10 ^ k) (s : List Char) :
    number k (pad k n ++ s) = some (n, s) := by
  have htake : (pad k n ++ s).take k = pad k n := by simp
  have hall : (pad k n).all isDigit = true :=
    List.all_eq_true.mpr fun c hc => isDigit_of_mem_pad hc
  rw [number, htake, if_pos ⟨length_pad k n, hall⟩, ofDigitChars_pad h]
  simp

theorem shortNumber_pad {n : ℕ} (h : n < 10 ^ 2) (s : List Char) :
    shortNumber (pad 2 n ++ s) = some (n, s) := by
  rw [shortNumber, number_pad h]
  rfl

@[simp] theorem skip_cons (c : Char) (s : List Char) : skip c (c :: s) = some s := if_pos rfl

/-- Zeros at the end of a fraction say nothing. -/
theorem scale_rdropWhile (k : ℕ) (ds : List Char) (h : ds.length ≤ k) :
    Nat.ofDigitChars 10 (ds.rdropWhile (· = '0')) 0 *
        10 ^ (k - (ds.rdropWhile (· = '0')).length) =
      Nat.ofDigitChars 10 ds 0 * 10 ^ (k - ds.length) := by
  induction ds using List.reverseRecOn with
  | nil => rfl
  | append_singleton ds c ih =>
    by_cases hc : c = '0'
    · subst c
      rw [List.length_append, List.length_singleton] at h
      have hk : k - ds.length = k - (ds.length + 1) + 1 := by omega
      rw [List.rdropWhile_concat_pos _ _ _ (by simp), ih (by omega), hk, pow_succ]
      simp only [Nat.ofDigitChars_append, Nat.ofDigitChars_cons, Nat.ofDigitChars_nil,
        List.length_append, List.length_singleton, Nat.sub_self, Nat.add_zero]
      ring
    · rw [List.rdropWhile_concat_neg _ _ _ (by simpa using hc)]

/-- No digit comes first, and nothing that opens a fraction. -/
def EndsClock (s : List Char) : Prop :=
  ∀ c rest, s = c :: rest → isDigit c = false ∧ c ≠ '.' ∧ c ≠ ','

theorem endsClock_formatZone (offset : ℤ) : EndsClock (formatZone offset) := by
  intro c rest h
  unfold formatZone at h
  split_ifs at h <;> rw [← (List.cons.inj h).1] <;> decide

theorem fraction_of_endsClock {s : List Char} (h : EndsClock s) : fraction s = (0, s) := by
  match s with
  | [] => rfl
  | [_] => rfl
  | c :: d :: s =>
    obtain ⟨-, hdot, hcomma⟩ := h c (d :: s) rfl
    rw [fraction, if_neg]
    rintro ⟨rfl | rfl, -⟩
    · exact hdot rfl
    · exact hcomma rfl

theorem takeWhile_digits {ds s : List Char} (hds : ∀ c ∈ ds, isDigit c = true)
    (hs : EndsClock s) :
    (ds ++ s).takeWhile isDigit = ds ∧ (ds ++ s).dropWhile isDigit = s := by
  have hstop : s.takeWhile isDigit = [] ∧ s.dropWhile isDigit = s := by
    cases s with
    | nil => exact ⟨rfl, rfl⟩
    | cons c rest =>
      have hc := (hs c rest rfl).1
      simp [hc]
  rw [List.takeWhile_append_of_pos hds, List.dropWhile_append_of_pos hds, hstop.1, hstop.2]
  simp

theorem nanoseconds_format {n : ℕ} (h : n < 10 ^ 9) :
    nanoseconds ((pad 9 n).rdropWhile (· = '0')) = n := by
  have hlen : ((pad 9 n).rdropWhile (· = '0')).length ≤ 9 := by
    have hprefix := (List.rdropWhile_prefix (fun c => decide (c = '0')) (l := pad 9 n)).length_le
    rwa [length_pad] at hprefix
  rw [nanoseconds, List.take_of_length_le hlen, scale_rdropWhile 9 _ (length_pad 9 n).le,
    ofDigitChars_pad h]
  simp

theorem fraction_format {n : ℕ} (h : n < 10 ^ 9) {s : List Char} (hs : EndsClock s) :
    fraction (formatFraction n ++ s) = (n, s) := by
  by_cases hn : n = 0
  · subst n
    exact fraction_of_endsClock hs
  · have hnano := nanoseconds_format h
    have hdigits : ∀ c ∈ (pad 9 n).rdropWhile (· = '0'), isDigit c = true := fun c hc =>
      isDigit_of_mem_pad ((List.rdropWhile_prefix _ _).subset hc)
    obtain ⟨d, ds, hds⟩ : ∃ d ds, (pad 9 n).rdropWhile (· = '0') = d :: ds := by
      apply List.exists_cons_of_ne_nil
      intro hnil
      rw [hnil] at hnano
      exact hn hnano.symm
    have hspan := takeWhile_digits hdigits hs
    rw [formatFraction, if_neg hn]
    rw [hds] at hnano hdigits hspan ⊢
    simp only [List.cons_append] at hspan ⊢
    rw [fraction, if_pos ⟨Or.inl rfl, hdigits d (by simp)⟩, hspan.1, hspan.2, hnano]

theorem zone_sign {sign : Char} (hsign : sign ≠ 'Z') {hours minutes : ℕ} (hh : hours ≤ 24)
    (hm : minutes ≤ 60) :
    zone (sign :: (pad 2 hours ++ ':' :: pad 2 minutes)) =
      if sign = '+' then some ((hours : ℤ) * 60 + minutes)
      else if sign = '-' then some (-((hours : ℤ) * 60 + minutes)) else none := by
  have hminutes : number 2 (pad 2 minutes) = some (minutes, []) := by
    simpa using number_pad (k := 2) (n := minutes) (by omega) []
  have hrange : ¬(([] : List Char) ≠ [] ∨ 24 < hours ∨ 60 < minutes) := by
    rintro (h | h | h)
    · exact h rfl
    · omega
    · omega
  unfold zone
  split
  · rename_i heq
    exact absurd (List.cons.inj heq).1 hsign
  · rename_i heq
    obtain ⟨rfl, rfl⟩ := List.cons.inj heq
    simp only [number_pad (k := 2) (n := hours) (by omega), skip_cons, hminutes,
      Option.bind_eq_bind, Option.bind_some, if_neg hrange]
  · rename_i heq
    cases heq

theorem zone_format {offset : ℤ} (h : offset.natAbs < 24 * 60) :
    zone (formatZone offset) = some offset := by
  have hh : offset.natAbs / 60 ≤ 24 := by omega
  have hm : offset.natAbs % 60 ≤ 60 := by omega
  unfold formatZone
  split_ifs with hzero hneg
  · rw [hzero]
    rfl
  · rw [zone_sign (by decide) hh hm, if_neg (by decide), if_pos rfl]
    congr 1
    omega
  · rw [zone_sign (by decide) hh hm, if_pos rfl]
    congr 1
    omega

/-- A date and a clock of fixed width, with any text that is read as the rest. -/
theorem parse_pad (t : Time) {tail rest : List Char} (hfrac : fraction tail = (t.nano, rest))
    (hzone : zone rest = some t.offset) :
    parse (pad 4 t.year ++ '-' :: (pad 2 t.month ++ '-' :: (pad 2 t.day ++ 'T' ::
      (pad 2 t.hour ++ ':' :: (pad 2 t.minute ++ ':' :: (pad 2 t.second ++ tail)))))) =
        some t := by
  obtain ⟨hyear, ⟨hmonth, hmonth'⟩, ⟨hday, hday'⟩, hhour, hminute, hsecond, hnano⟩ := t.valid
  have hdays : t.day < 10 ^ 2 := by
    have hle : daysIn t.year t.month ≤ 31 := by
      unfold daysIn
      split_ifs <;> decide
    omega
  refine Option.bind_eq_some_iff.mpr ⟨_, number_pad hyear _, ?_⟩
  refine Option.bind_eq_some_iff.mpr ⟨_, skip_cons '-' _, ?_⟩
  refine Option.bind_eq_some_iff.mpr ⟨_, number_pad (by omega) _, ?_⟩
  refine Option.bind_eq_some_iff.mpr ⟨_, skip_cons '-' _, ?_⟩
  refine Option.bind_eq_some_iff.mpr ⟨_, number_pad hdays _, ?_⟩
  refine Option.bind_eq_some_iff.mpr ⟨_, skip_cons 'T' _, ?_⟩
  refine Option.bind_eq_some_iff.mpr ⟨_, shortNumber_pad (by omega) _, ?_⟩
  refine Option.bind_eq_some_iff.mpr ⟨_, skip_cons ':' _, ?_⟩
  refine Option.bind_eq_some_iff.mpr ⟨_, number_pad (by omega) _, ?_⟩
  refine Option.bind_eq_some_iff.mpr ⟨_, skip_cons ':' _, ?_⟩
  refine Option.bind_eq_some_iff.mpr ⟨_, number_pad (by omega) _, ?_⟩
  simp only [hfrac]
  exact Option.bind_eq_some_iff.mpr ⟨_, hzone, dif_pos t.valid⟩

theorem parse_format (t : Time) (h : t.offset.natAbs < 24 * 60) : parse t.format = some t := by
  obtain ⟨-, -, -, -, -, -, hnano⟩ := t.valid
  exact parse_pad t (fraction_format hnano (endsClock_formatZone t.offset)) (zone_format h)

end GoTime
