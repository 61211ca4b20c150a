import BatAudit.Lib.Json.Reading

/-!
# Inside and outside of strings

A scan that knows of a text no more than its quotes, its backslashes and the characters that
stand outside of strings. What the lexer reads passes the scan and ends outside.
-/

namespace Json

inductive Side
  | out
  | str
  | esc
deriving DecidableEq

/-- What can stand outside of strings, quotes apart. -/
def isBare (c : Char) : Bool :=
  isWs c || isDigit c ||
    decide (c ∈ ['{', '}', '[', ']', ',', ':', '+', '-', '.', 'e', 'E', 't', 'r', 'u', 'f', 'a',
      'l', 's', 'n'])

def Rune.isBare : Rune → Bool
  | .char c => Json.isBare c
  | .bad _ => false

def Side.next : Side → Rune → Option Side
  | .out, r => if r = .char '"' then some .str else if r.isBare then some .out else none
  | .str, r =>
    if r = .char '"' then some .out else if r = .char '\\' then some .esc else some .str
  | .esc, _ => some .str

def Side.run : Side → Text → Option Side
  | d, [] => some d
  | d, r :: s => (d.next r).bind fun d' => d'.run s

theorem Side.run_append (d : Side) (s t : Text) :
    d.run (s ++ t) = (d.run s).bind fun d' => d'.run t := by
  induction s generalizing d with
  | nil => rfl
  | cons r s ih =>
    rw [List.cons_append, Side.run, Side.run, Option.bind_assoc]
    exact congrArg _ (funext fun d' => ih d')

/-! ## The lexer -/

def Mode.side : Mode → Side
  | .start | .num _ _ | .word _ _ => .out
  | .body _ | .hex _ _ => .str
  | .escape _ => .esc

theorem next_out_of_bare {r : Rune} (hr : r.isBare = true) : Side.out.next r = some .out := by
  have hquote : r ≠ .char '"' := by
    rintro rfl
    revert hr
    decide
  rw [Side.next, if_neg hquote, if_pos hr]

theorem next_str_of_isHex {c : Char} (hc : isHex c = true) :
    Side.str.next (.char c) = some .str := by
  have hquote : Rune.char c ≠ .char '"' := fun heq => by
    rw [Rune.char.inj heq] at hc
    revert hc
    decide
  have hback : Rune.char c ≠ .char '\\' := fun heq => by
    rw [Rune.char.inj heq] at hc
    revert hc
    decide
  rw [Side.next, if_neg hquote, if_neg hback]

theorem run_str_of_isHex {c : Char} (hc : isHex c = true) (s : Text) :
    Side.str.run (.char c :: s) = Side.str.run s := by
  rw [Side.run, next_str_of_isHex hc]
  rfl

/-- The lexer and the scan go on to the same side. -/
def Follows (d : Side) (r : Rune) (o : Option (List Token × Mode)) : Prop :=
  ∀ ts m, o = some (ts, m) → d.next r = some m.side

theorem follows_none {d : Side} {r : Rune} : Follows d r none := by
  intro ts m heq
  cases heq

theorem follows_some {d : Side} {r : Rune} {ts : List Token} {m : Mode}
    (h : d.next r = some m.side) : Follows d r (some (ts, m)) := by
  intro ts' m' heq
  cases heq
  exact h

theorem isDigit_or_of_numStart {c : Char} {st : NumState} (h : numStart c = some st) :
    c = '-' ∨ isDigit c = true := by
  unfold numStart at h
  split_ifs at h with h1 h2 h3
  · exact Or.inl h1
  · exact Or.inr (h2 ▸ rfl)
  · exact Or.inr h3

theorem isBare_of_isDigit {c : Char} (h : isDigit c = true) : isBare c = true := by
  simp [isBare, h]

theorem isBare_of_numStart {c : Char} {st : NumState} (h : numStart c = some st) :
    isBare c = true := by
  rcases isDigit_or_of_numStart h with rfl | hc
  · decide
  · exact isBare_of_isDigit hc

theorem isBare_of_numNext {st st' : NumState} {c : Char} (h : numNext st c = some st') :
    isBare c = true := by
  have hmark (hc : isExpMark c = true) : isBare c = true := by
    simp only [isExpMark, Bool.or_eq_true, decide_eq_true_eq] at hc
    rcases hc with rfl | rfl <;> decide
  cases st <;> simp only [numNext] at h <;> split_ifs at h <;>
    first
      | exact isBare_of_isDigit ‹_›
      | exact hmark ‹_›
      | (subst c; decide)
      | (rename_i hc; rcases Bool.or_eq_true _ _ ▸ hc with hc | hc <;>
          (rw [of_decide_eq_true hc]; decide))

theorem follows_begin (r : Rune) : Follows .out r (begin r) := by
  cases r with
  | bad b => exact follows_none
  | char c =>
    have hbare {ts : List Token} {m : Mode} (hm : m.side = .out) (hc : isBare c = true) :
        Follows .out (.char c) (some (ts, m)) :=
      follows_some (hm ▸ next_out_of_bare (r := .char c) hc)
    rw [begin]
    by_cases hws : isWs c = true
    · rw [dif_pos hws]
      exact hbare rfl (by simp [isBare, hws])
    rw [dif_neg hws]
    refine iteInduction (fun h => hbare rfl (h ▸ by decide)) fun _ => ?_
    refine iteInduction (fun h => hbare rfl (h ▸ by decide)) fun _ => ?_
    refine iteInduction (fun h => hbare rfl (h ▸ by decide)) fun _ => ?_
    refine iteInduction (fun h => hbare rfl (h ▸ by decide)) fun _ => ?_
    refine iteInduction (fun h => hbare rfl (h ▸ by decide)) fun _ => ?_
    refine iteInduction (fun h => hbare rfl (h ▸ by decide)) fun _ => ?_
    refine iteInduction (fun h => follows_some (h ▸ rfl)) fun _ => ?_
    refine iteInduction (fun h => hbare rfl (h ▸ by decide)) fun _ => ?_
    refine iteInduction (fun h => hbare rfl (h ▸ by decide)) fun _ => ?_
    refine iteInduction (fun h => hbare rfl (h ▸ by decide)) fun _ => ?_
    cases hstart : numStart c with
    | none => exact follows_none
    | some st => exact hbare rfl (isBare_of_numStart hstart)

theorem isBare_of_mem_letters {w : Word} {c : Char} (h : c ∈ w.letters) : isBare c = true := by
  have hall : w.letters.all isBare = true := by cases w <;> decide
  exact List.all_eq_true.mp hall c h

theorem side_nextMode {m m' : Mode} {r : Rune} {x : Text} {ts : List Token} (hm : m.Read x)
    (h : nextMode m r = some (ts, m')) : m.side.next r = some m'.side := by
  cases m with
  | start => exact follows_begin r ts m' h
  | body s =>
    simp only [nextMode] at h
    split_ifs at h with hquote hback hplain
    · cases h
      exact hquote ▸ rfl
    · cases h
      exact hback ▸ rfl
    · cases h
      rw [Mode.side, Side.next, if_neg hquote, if_neg hback]
      rfl
  | escape s =>
    simp only [nextMode] at h
    split at h
    · cases h
    · split_ifs at h <;> cases h <;> rfl
  | hex s digits =>
    simp only [nextMode] at h
    split at h
    · cases h
    · split at h
      · cases h
        exact next_str_of_isHex (by tauto)
      · cases h
    · split at h
      · cases h
        exact next_str_of_isHex ‹_›
      · cases h
  | num st raw =>
    simp only [nextMode] at h
    split at h
    · cases h
    · split at h
      · cases h
        exact next_out_of_bare (isBare_of_numNext ‹_›)
      · obtain ⟨t, ht, h⟩ := Option.bind_eq_some_iff.mp h
        obtain ⟨⟨ts', m''⟩, hbegin, h⟩ := Option.bind_eq_some_iff.mp h
        cases h
        exact follows_begin _ _ _ hbegin
  | word w rest =>
    obtain ⟨done, hletters, -⟩ := hm
    simp only [nextMode] at h
    split at h
    · cases h
    · split_ifs at h with hr
      cases h
      refine hr ▸ next_out_of_bare (isBare_of_mem_letters (w := w) ?_)
      exact hletters ▸ List.mem_append_right _ List.mem_cons_self
    · split_ifs at h with hr
      cases h
      refine hr ▸ next_out_of_bare (isBare_of_mem_letters (w := w) ?_)
      exact hletters ▸ List.mem_append_right _ List.mem_cons_self

theorem side_lexFrom {m : Mode} {s x : Text} {ts : List Token} (hm : m.Read x)
    (h : lexFrom m s = some ts) : m.side.run s = some .out := by
  induction s generalizing m x ts with
  | nil =>
    cases m with
    | start | num => rfl
    | body | escape | hex | word => cases h
  | cons r s ih =>
    rw [lexFrom] at h
    obtain ⟨⟨us, m'⟩, hnext, h⟩ := Option.bind_eq_some_iff.mp h
    obtain ⟨rest, hrest, -⟩ := Option.bind_eq_some_iff.mp h
    obtain ⟨x', hx', -⟩ := read_nextMode hm hnext
    rw [Side.run, side_nextMode hm hnext]
    exact ih hx' hrest

theorem side_lex {s : Text} {ts : List Token} (h : lex s = some ts) : Side.out.run s = some .out :=
  side_lexFrom (m := .start) rfl h

theorem isBare_of_numRun {st st' : NumState} {raw : List Char} (h : numRun st raw = some st') :
    ∀ c ∈ raw, isBare c = true := by
  induction raw generalizing st with
  | nil => exact fun _ hc => absurd hc List.not_mem_nil
  | cons c raw ih =>
    obtain ⟨st₁, hnext, hrun⟩ := Option.bind_eq_some_iff.mp h
    exact List.forall_mem_cons.mpr ⟨isBare_of_numNext hnext, ih hrun⟩

theorem NumLit.isBare (n : NumLit) : ∀ c ∈ n.raw, isBare c = true := by
  obtain ⟨raw, ok⟩ := n
  cases raw with
  | nil => cases ok
  | cons c raw =>
    obtain ⟨st', hrun, -⟩ := (Option.any_eq_true _ _).mp ok
    obtain ⟨st, hstart, hrun⟩ := Option.bind_eq_some_iff.mp hrun
    exact List.forall_mem_cons.mpr ⟨isBare_of_numStart hstart, isBare_of_numRun hrun⟩

/-- What is no string has no quotes and no backslashes. -/
theorem Token.isBare {t : Token} (ht : ∀ s, t ≠ .str s) : ∀ r ∈ t.text, r.isBare = true := by
  have htext {s : List Char} (h : ∀ c ∈ s, Json.isBare c = true) :
      ∀ r ∈ Json.text s, r.isBare = true := by
    intro r hr
    obtain ⟨c, hc, rfl⟩ := List.mem_map.mp hr
    exact h c hc
  cases t with
  | ws c h => exact htext (s := [c]) (by simp [Json.isBare, h])
  | lbrace | rbrace | lbrack | rbrack | comma | colon =>
    intro r hr
    cases List.mem_singleton.mp hr
    decide
  | word w => exact htext fun c hc => isBare_of_mem_letters hc
  | num n => exact htext n.isBare
  | str s => exact absurd rfl (ht s)

theorem Token.quote_not_mem {t : Token} (ht : ∀ s, t ≠ .str s) : Rune.char '"' ∉ t.text :=
  fun hmem => absurd (t.isBare ht _ hmem) (by decide)

/-! ## Parts of a text without quotes -/

theorem bare_of_run_out {s : Text} (hs : Rune.char '"' ∉ s) {d : Side}
    (h : Side.out.run s = some d) : d = .out ∧ ∀ r ∈ s, r.isBare = true := by
  induction s with
  | nil =>
    cases h
    exact ⟨rfl, fun _ hr => absurd hr List.not_mem_nil⟩
  | cons r s ih =>
    obtain ⟨hr, hrest⟩ := not_or.mp (mt List.mem_cons.mpr hs)
    rw [Side.run, Side.next, if_neg (Ne.symm hr)] at h
    by_cases hbare : r.isBare = true
    · rw [if_pos hbare] at h
      obtain ⟨hd, hall⟩ := ih hrest h
      exact ⟨hd, List.forall_mem_cons.mpr ⟨hbare, hall⟩⟩
    · rw [if_neg hbare] at h
      cases h

theorem run_str_of_no_backslash {s : Text} (hquote : Rune.char '"' ∉ s) (hback : Rune.char '\\' ∉ s) :
    Side.str.run s = some .str := by
  induction s with
  | nil => rfl
  | cons r s ih =>
    obtain ⟨hr, hrest⟩ := not_or.mp (mt List.mem_cons.mpr hquote)
    obtain ⟨hr', hrest'⟩ := not_or.mp (mt List.mem_cons.mpr hback)
    rw [Side.run, Side.next, if_neg (Ne.symm hr), if_neg (Ne.symm hr')]
    exact ih hrest hrest'

/-- Without quotes a part of a string stays within it. -/
theorem run_str_or {s : Text} (hs : Rune.char '"' ∉ s) {d : Side} (hd : d ≠ .out) :
    d.run s = some .str ∨ d.run s = some .esc := by
  induction s generalizing d with
  | nil =>
    cases d with
    | out => exact absurd rfl hd
    | str => exact Or.inl rfl
    | esc => exact Or.inr rfl
  | cons r s ih =>
    obtain ⟨hr, hrest⟩ := not_or.mp (mt List.mem_cons.mpr hs)
    cases d with
    | out => exact absurd rfl hd
    | str =>
      rw [Side.run, Side.next, if_neg (Ne.symm hr)]
      split_ifs
      · exact ih hrest (by decide)
      · exact ih hrest (by decide)
    | esc => exact ih hrest (by decide)

end Json
