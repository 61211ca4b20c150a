import BatAudit.Lib.Json.Strings

/-!
# What the strings of a text can hold

A scan of a text, without regard to where its literals begin, that bounds the characters of
every string in it: outside of literals a backslash is no JSON, so the escapes that the scan
sees are those that the lexer sees.
-/

namespace Json

variable {p : Char → Bool}

/-! ## Texts -/

/-- Four runes after `\u`; what is no hexadecimal number is no JSON either. -/
def guardsUnit (p : Char → Bool) : Text → Bool
  | [.char a, .char b, .char c, .char d] =>
    !(isHex a && isHex b && isHex c && isHex d) ||
      (!isSurrogate (unit a b c d) && p (Char.ofNat (unit a b c d)))
  | _ => true

/-- Quotes apart, the text has only characters with `p`, as they are written or escaped. -/
def guarded (p : Char → Bool) : Text → Bool
  | .char '\\' :: r :: s =>
    (if r = .char 'u' then guardsUnit p (s.take 4)
      else isEscape r.decode && p (escaped r.decode)) && guarded p s
  | r :: s => (r = .char '"' || p r.decode) && guarded p s
  | [] => true

theorem guarded_escape (r : Rune) (s : Text) :
    guarded p (.char '\\' :: r :: s) =
      ((if r = .char 'u' then guardsUnit p (s.take 4)
        else isEscape r.decode && p (escaped r.decode)) && guarded p s) := by
  rw [guarded]

theorem guarded_cons {r : Rune} (h : r ≠ .char '\\') (s : Text) :
    guarded p (r :: s) = ((r = .char '"' || p r.decode) && guarded p s) := by
  rw [guarded]
  rintro _ _ rfl
  exact absurd rfl h

theorem guarded_of_cons {r : Rune} {s : Text} (h : r ≠ .char '\\') (hs : guarded p (r :: s) = true) :
    guarded p s = true := by
  rw [guarded_cons h, Bool.and_eq_true] at hs
  exact hs.2

/-! ## Literals -/

def Item.guarded (p : Char → Bool) : Item → Bool
  | .plain r _ => p r.decode
  | .escape c _ => p (escaped c)
  | .unicode a b c d _ => !isSurrogate (unit a b c d) && p (Char.ofNat (unit a b c d))

theorem of_mem_unquote {s : StrLit} (hs : ∀ i ∈ s, i.guarded p = true) :
    ∀ c ∈ unquote s, p c = true := by
  unfold unquote
  induction s with
  | nil => exact fun c hc => absurd hc List.not_mem_nil
  | cons i s ih =>
    have hi := hs i List.mem_cons_self
    have hrest := ih fun j hj => hs j (List.mem_cons_of_mem i hj)
    have hread : ∃ c, readItem none i = ([c], none) ∧ p c = true := by
      cases i with
      | plain r h => exact ⟨r.decode, rfl, hi⟩
      | escape c h => exact ⟨escaped c, rfl, hi⟩
      | unicode a b c d h =>
        obtain ⟨hsurrogate, hp⟩ := Bool.and_eq_true_iff.mp hi
        refine ⟨_, ?_, hp⟩
        rw [readItem, Option.bind_none, if_neg (by simpa using hsurrogate), flush, List.nil_append]
    obtain ⟨c, hread, hc⟩ := hread
    intro d hd
    rw [unquoteFrom, hread] at hd
    rcases List.mem_append.mp hd with hd | hd
    · exact List.mem_singleton.mp hd ▸ hc
    · exact hrest d hd

def Token.Guarded (p : Char → Bool) (t : Token) : Prop :=
  ∀ s, t = .str s → ∀ i ∈ s, i.guarded p = true

/-! ## The lexer -/

/-- What the scan knows of the rest of a text when the lexer is in this mode. -/
def Mode.Guarded (p : Char → Bool) : Mode → Text → Prop
  | .start, s | .num _ _, s => guarded p s = true
  | .word _ rest, s => '\\' ∉ rest ∧ guarded p s = true
  | .body l, s => (∀ i ∈ l, i.guarded p = true) ∧ guarded p s = true
  | .escape l, s => (∀ i ∈ l, i.guarded p = true) ∧ guarded p (.char '\\' :: s) = true
  | .hex l digits, s => (∀ i ∈ l, i.guarded p = true) ∧
      guardsUnit p ((Json.text digits ++ s).take 4) = true ∧ guarded p s = true

theorem begin_backslash : begin (.char '\\') = none := by decide

theorem numNext_backslash (st : NumState) : numNext st '\\' = none := by
  cases st <;> decide

/-- What a mode was entered with: tokens that are no string, and the scan as it was. -/
def Enters (p : Char → Bool) (o : Option (List Token × Mode)) : Prop :=
  ∀ ts m, o = some (ts, m) →
    (∀ t ∈ ts, t.Guarded p) ∧ ∀ s, guarded p s = true → m.Guarded p s

theorem enters_some {ts : List Token} {m : Mode} (hts : ∀ t ∈ ts, t.Guarded p)
    (hm : ∀ s, guarded p s = true → m.Guarded p s) : Enters p (some (ts, m)) := by
  intro ts' m' h
  cases h
  exact ⟨hts, hm⟩

theorem enters_none : Enters p none := by
  intro ts m h
  cases h

theorem enters_token {t : Token} (ht : ∀ l, t ≠ .str l) : Enters p (some ([t], .start)) :=
  enters_some (fun _ ht' => List.mem_singleton.mp ht' ▸ fun l hl => absurd hl (ht l)) fun _ hs => hs

theorem enters_mode {m : Mode} (hm : ∀ s, guarded p s = true → m.Guarded p s) :
    Enters p (some ([], m)) :=
  enters_some (fun _ ht => absurd ht List.not_mem_nil) hm

theorem enters_begin (r : Rune) : Enters p (begin r) := by
  cases r with
  | bad b => exact enters_none
  | char c =>
    rw [begin]
    by_cases hws : isWs c = true
    · rw [dif_pos hws]
      exact enters_token (by simp)
    rw [dif_neg hws]
    refine iteInduction (fun _ => enters_token (by simp)) fun _ => ?_
    refine iteInduction (fun _ => enters_token (by simp)) fun _ => ?_
    refine iteInduction (fun _ => enters_token (by simp)) fun _ => ?_
    refine iteInduction (fun _ => enters_token (by simp)) fun _ => ?_
    refine iteInduction (fun _ => enters_token (by simp)) fun _ => ?_
    refine iteInduction (fun _ => enters_token (by simp)) fun _ => ?_
    refine iteInduction (fun _ => enters_mode fun _ hs => ⟨fun _ hi => absurd hi List.not_mem_nil, hs⟩)
      fun _ => ?_
    refine iteInduction (fun _ => enters_mode fun _ hs => ⟨by decide, hs⟩) fun _ => ?_
    refine iteInduction (fun _ => enters_mode fun _ hs => ⟨by decide, hs⟩) fun _ => ?_
    refine iteInduction (fun _ => enters_mode fun _ hs => ⟨by decide, hs⟩) fun _ => ?_
    cases numStart c with
    | none => exact enters_none
    | some st => exact enters_mode fun _ hs => hs

theorem guarded_begin {r : Rune} {s : Text} {ts : List Token} {m : Mode}
    (hs : guarded p (r :: s) = true) (h : begin r = some (ts, m)) :
    (∀ t ∈ ts, t.Guarded p) ∧ m.Guarded p s := by
  have hr : r ≠ .char '\\' := by
    rintro rfl
    rw [begin_backslash] at h
    cases h
  obtain ⟨hts, hm⟩ := enters_begin r ts m h
  exact ⟨hts, hm s (guarded_of_cons hr hs)⟩

theorem guarded_append_item {l : StrLit} {i : Item} (hl : ∀ i ∈ l, i.guarded p = true)
    (hi : i.guarded p = true) : ∀ j ∈ l ++ [i], j.guarded p = true := by
  intro j hj
  rcases List.mem_append.mp hj with hj | hj
  · exact hl j hj
  · exact List.mem_singleton.mp hj ▸ hi

theorem ne_backslash_of_isHex {c : Char} (h : isHex c = true) : Rune.char c ≠ .char '\\' := by
  intro heq
  rw [Rune.char.inj heq] at h
  revert h
  decide

theorem guarded_hex {l : StrLit} {digits : List Char} {r : Rune} {s : Text} {ts : List Token}
    {m : Mode} (hl : ∀ i ∈ l, i.guarded p = true)
    (hunit : guardsUnit p ((Json.text digits ++ r :: s).take 4) = true)
    (hs : guarded p (r :: s) = true) (h : nextMode (.hex l digits) r = some (ts, m)) :
    (∀ t ∈ ts, t.Guarded p) ∧ m.Guarded p s := by
  have hnone : ∀ t ∈ ([] : List Token), t.Guarded p := fun _ ht => absurd ht List.not_mem_nil
  simp only [nextMode] at h
  split at h
  · cases h
  · rename_i d a b c
    split at h
    · rename_i hhex
      cases h
      have hrest := guarded_of_cons (ne_backslash_of_isHex hhex.2.2.2) hs
      refine ⟨hnone, guarded_append_item hl ?_, hrest⟩
      simpa [guardsUnit, Json.text, hhex, Item.guarded] using hunit
    · cases h
  · rename_i d _
    split at h
    · rename_i hhex
      cases h
      have hrest := guarded_of_cons (ne_backslash_of_isHex hhex) hs
      refine ⟨hnone, hl, ?_, hrest⟩
      rwa [Json.text, List.map_append, List.append_assoc]
    · cases h

theorem guarded_finishNum {st : NumState} {raw : List Char} {t : Token}
    (h : finishNum st raw = some t) : t.Guarded p := by
  unfold finishNum at h
  split_ifs at h
  cases h
  intro l hl
  cases hl

theorem guarded_nextMode {m m' : Mode} {r : Rune} {s : Text} {ts : List Token}
    (hm : m.Guarded p (r :: s)) (h : nextMode m r = some (ts, m')) :
    (∀ t ∈ ts, t.Guarded p) ∧ m'.Guarded p s := by
  have hnone : ∀ t ∈ ([] : List Token), t.Guarded p := fun _ ht => absurd ht List.not_mem_nil
  cases m with
  | start => exact guarded_begin hm h
  | body l =>
    obtain ⟨hl, hs⟩ := hm
    simp only [nextMode] at h
    split_ifs at h with hquote hback hplain
    · cases h
      refine ⟨fun t ht l' hl' => ?_, guarded_of_cons (by rw [hquote]; decide) hs⟩
      rw [List.mem_singleton.mp ht] at hl'
      exact Token.str.inj hl' ▸ hl
    · cases h
      exact ⟨hnone, hl, hback ▸ hs⟩
    · cases h
      rw [guarded_cons hback, Bool.and_eq_true] at hs
      refine ⟨hnone, guarded_append_item hl ?_, hs.2⟩
      simpa [hquote, Item.guarded] using hs.1
  | escape l =>
    obtain ⟨hl, hs⟩ := hm
    rw [guarded_escape, Bool.and_eq_true] at hs
    simp only [nextMode] at h
    split at h
    · cases h
    · rename_i c
      split_ifs at h with hescape hu
      · cases h
        have hne : Rune.char c ≠ .char 'u' := by
          intro heq
          rw [Rune.char.inj heq] at hescape
          revert hescape
          decide
        rw [if_neg hne, Bool.and_eq_true] at hs
        exact ⟨hnone, guarded_append_item hl hs.1.2, hs.2⟩
      · cases h
        rw [if_pos (by rw [hu])] at hs
        exact ⟨hnone, hl, hs⟩
  | hex l digits =>
    obtain ⟨hl, hunit, hs⟩ := hm
    exact guarded_hex hl hunit hs h
  | num st raw =>
    simp only [nextMode] at h
    split at h
    · cases h
    · rename_i c
      split at h
      · rename_i st' hst'
        cases h
        have hc : Rune.char c ≠ .char '\\' := by
          intro heq
          rw [Rune.char.inj heq, numNext_backslash] at hst'
          cases hst'
        exact ⟨hnone, guarded_of_cons hc hm⟩
      · obtain ⟨t, ht, h⟩ := Option.bind_eq_some_iff.mp h
        obtain ⟨⟨ts', m''⟩, hbegin, h⟩ := Option.bind_eq_some_iff.mp h
        cases h
        obtain ⟨hts, hm'⟩ := guarded_begin hm hbegin
        refine ⟨fun t' ht' => ?_, hm'⟩
        rcases List.mem_cons.mp ht' with rfl | ht'
        · exact guarded_finishNum ht
        · exact hts t' ht'
  | word w rest =>
    obtain ⟨hback, hs⟩ := hm
    have hc : ∀ d, d ∈ rest → r = .char d → r ≠ .char '\\' := fun d hd hr heq =>
      hback (Rune.char.inj (hr.symm.trans heq) ▸ hd)
    simp only [nextMode] at h
    split at h
    · cases h
    · split_ifs at h with hr
      cases h
      refine ⟨fun t ht => ?_, guarded_of_cons (hc _ List.mem_cons_self hr) hs⟩
      rw [List.mem_singleton.mp ht]
      intro l hl
      cases hl
    · split_ifs at h with hr
      cases h
      exact ⟨hnone, fun hd => hback (List.mem_cons_of_mem _ hd),
        guarded_of_cons (hc _ List.mem_cons_self hr) hs⟩

theorem guarded_lexFrom {m : Mode} {s : Text} {ts : List Token} (hm : m.Guarded p s)
    (h : lexFrom m s = some ts) : ∀ t ∈ ts, t.Guarded p := by
  induction s generalizing m ts with
  | nil =>
    cases m with
    | start =>
      cases h
      exact fun _ ht => absurd ht List.not_mem_nil
    | num st raw =>
      obtain ⟨t, ht, rfl⟩ := Option.map_eq_some_iff.mp h
      intro t' ht'
      rw [List.mem_singleton.mp ht']
      exact guarded_finishNum ht
    | body | escape | hex | word => cases h
  | cons r s ih =>
    rw [lexFrom] at h
    obtain ⟨⟨us, m'⟩, hnext, h⟩ := Option.bind_eq_some_iff.mp h
    obtain ⟨rest, hrest, h⟩ := Option.bind_eq_some_iff.mp h
    cases h
    obtain ⟨hus, hm'⟩ := guarded_nextMode hm hnext
    intro t ht
    rcases List.mem_append.mp ht with ht | ht
    · exact hus t ht
    · exact ih hm' hrest t ht

/-! ## Values -/

def Token.string : Token → Option (List Char)
  | .str s => some (unquote s)
  | _ => none

/-- The strings and the keys in a value, at any depth. -/
def Tree.strings (v : Tree) : List (List Char) := v.tokens.filterMap Token.string

theorem guarded_strings {s : Text} {v : Tree} (hs : guarded p s = true) (h : parse s = some v) :
    ∀ str ∈ v.strings, ∀ c ∈ str, p c = true := by
  obtain ⟨ts, hlex, hparse⟩ := Option.bind_eq_some_iff.mp h
  intro str hstr
  obtain ⟨t, ht, htstr⟩ := List.mem_filterMap.mp hstr
  rw [tokens_of_parseTokens hparse] at ht
  have hguarded := guarded_lexFrom (m := .start) hs hlex t (List.mem_filter.mp ht).1
  cases t with
  | str l =>
    cases htstr
    exact of_mem_unquote (hguarded l rfl)
  | ws | lbrace | rbrace | lbrack | rbrack | comma | colon | word | num => cases htstr

end Json
