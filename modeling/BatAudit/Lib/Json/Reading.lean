import BatAudit.Lib.Json.Syntax

/-!
# What a text reads as

The lexer loses nothing: a text is its tokens, one after the other. So a text reads as a tree
exactly when it is the tokens of the tree with white space between them.
-/

namespace Json

/-! ## The tokens of a text are the text -/

/-- What the lexer has read of a token. -/
def Mode.Read : Mode → Text → Prop
  | .start, x => x = []
  | .body s, x => x = .char '"' :: s.flatMap Item.text
  | .escape s, x => x = .char '"' :: s.flatMap Item.text ++ [.char '\\']
  | .hex s digits, x =>
    x = .char '"' :: s.flatMap Item.text ++ .char '\\' :: .char 'u' :: Json.text digits
  | .num _ raw, x => x = Json.text raw
  | .word w rest, x => ∃ done, w.letters = done ++ rest ∧ x = Json.text done

/-- A step from nothing: it reads the rune and no other. -/
def Starts (r : Rune) (o : Option (List Token × Mode)) : Prop :=
  ∀ ts m, o = some (ts, m) → ∃ x, m.Read x ∧ [r] = untokenize ts ++ x

theorem starts_token {r : Rune} {t : Token} (h : t.text = [r]) : Starts r (some ([t], .start)) := by
  intro ts m heq
  cases heq
  exact ⟨[], rfl, by simp [untokenize, h]⟩

theorem starts_mode {r : Rune} {m : Mode} (h : m.Read [r]) : Starts r (some ([], m)) := by
  intro ts m' heq
  cases heq
  exact ⟨[r], h, rfl⟩

theorem starts_none {r : Rune} : Starts r none := by
  intro ts m heq
  cases heq

theorem starts_begin (r : Rune) : Starts r (begin r) := by
  cases r with
  | bad b => exact starts_none
  | char c =>
    rw [begin]
    by_cases hws : isWs c = true
    · rw [dif_pos hws]
      exact starts_token rfl
    rw [dif_neg hws]
    refine iteInduction (fun h => starts_token (h ▸ rfl)) fun _ => ?_
    refine iteInduction (fun h => starts_token (h ▸ rfl)) fun _ => ?_
    refine iteInduction (fun h => starts_token (h ▸ rfl)) fun _ => ?_
    refine iteInduction (fun h => starts_token (h ▸ rfl)) fun _ => ?_
    refine iteInduction (fun h => starts_token (h ▸ rfl)) fun _ => ?_
    refine iteInduction (fun h => starts_token (h ▸ rfl)) fun _ => ?_
    refine iteInduction (fun h => starts_mode (h ▸ rfl)) fun _ => ?_
    refine iteInduction (fun h => starts_mode ⟨['n'], rfl, h ▸ rfl⟩) fun _ => ?_
    refine iteInduction (fun h => starts_mode ⟨['t'], rfl, h ▸ rfl⟩) fun _ => ?_
    refine iteInduction (fun h => starts_mode ⟨['f'], rfl, h ▸ rfl⟩) fun _ => ?_
    cases numStart c with
    | none => exact starts_none
    | some st => exact starts_mode rfl

theorem text_of_finishNum {st : NumState} {raw : List Char} {t : Token}
    (h : finishNum st raw = some t) : t.text = Json.text raw := by
  unfold finishNum at h
  split_ifs at h
  cases h
  rfl

theorem read_nextMode {m m' : Mode} {r : Rune} {x : Text} {ts : List Token} (hm : m.Read x)
    (h : nextMode m r = some (ts, m')) : ∃ x', m'.Read x' ∧ x ++ [r] = untokenize ts ++ x' := by
  cases m with
  | start =>
    obtain rfl : x = [] := hm
    exact starts_begin r ts m' h
  | body s =>
    obtain rfl : x = _ := hm
    simp only [nextMode] at h
    split_ifs at h with hquote hback hplain
    · cases h
      exact ⟨[], rfl, by simp [untokenize, Token.text, StrLit.text, hquote]⟩
    · cases h
      exact ⟨_, rfl, by simp [untokenize, hback]⟩
    · cases h
      exact ⟨_, rfl, by simp [untokenize, Item.text]⟩
  | escape s =>
    obtain rfl : x = _ := hm
    simp only [nextMode] at h
    split at h
    · cases h
    · split_ifs at h with hescape hu
      · cases h
        exact ⟨_, rfl, by simp [untokenize, Item.text]⟩
      · cases h
        exact ⟨_, rfl, by simp [untokenize, hu, Json.text]⟩
  | hex s digits =>
    obtain rfl : x = _ := hm
    simp only [nextMode] at h
    split at h
    · cases h
    · split at h
      · cases h
        exact ⟨_, rfl, by simp [untokenize, Item.text, Json.text]⟩
      · cases h
    · split at h
      · cases h
        exact ⟨_, rfl, by simp [untokenize, Json.text]⟩
      · cases h
  | num st raw =>
    obtain rfl : x = _ := hm
    simp only [nextMode] at h
    split at h
    · cases h
    · split at h
      · cases h
        exact ⟨_, rfl, by simp [untokenize, Json.text]⟩
      · obtain ⟨t, ht, h⟩ := Option.bind_eq_some_iff.mp h
        obtain ⟨⟨ts', m''⟩, hbegin, h⟩ := Option.bind_eq_some_iff.mp h
        cases h
        obtain ⟨x', hx', heq⟩ := starts_begin _ _ _ hbegin
        refine ⟨x', hx', ?_⟩
        rw [heq, ← text_of_finishNum ht]
        exact (List.append_assoc _ _ _).symm
  | word w rest =>
    obtain ⟨done, hletters, rfl⟩ := hm
    simp only [nextMode] at h
    split at h
    · cases h
    · split_ifs at h with hr
      cases h
      exact ⟨[], rfl, by simp [untokenize, Token.text, hletters, hr, Json.text]⟩
    · split_ifs at h with hr
      cases h
      exact ⟨_, ⟨_, hletters.trans (List.append_cons _ _ _), rfl⟩, by simp [untokenize, hr, Json.text]⟩

theorem untokenize_of_lexFrom {m : Mode} {s x : Text} {ts : List Token} (hm : m.Read x)
    (h : lexFrom m s = some ts) : untokenize ts = x ++ s := by
  induction s generalizing m x ts with
  | nil =>
    cases m with
    | start =>
      cases h
      obtain rfl : x = [] := hm
      rfl
    | num st raw =>
      obtain rfl : x = _ := hm
      obtain ⟨t, ht, rfl⟩ := Option.map_eq_some_iff.mp h
      simp [untokenize, text_of_finishNum ht]
    | body | escape | hex | word => cases h
  | cons r s ih =>
    rw [lexFrom] at h
    obtain ⟨⟨us, m'⟩, hnext, h⟩ := Option.bind_eq_some_iff.mp h
    obtain ⟨rest, hrest, h⟩ := Option.bind_eq_some_iff.mp h
    cases h
    obtain ⟨x', hx', heq⟩ := read_nextMode hm hnext
    rw [untokenize, List.flatMap_append, ← untokenize, ← untokenize, ih hx' hrest,
      ← List.append_assoc, ← heq, List.append_assoc]
    rfl

theorem untokenize_of_lex {s : Text} {ts : List Token} (h : lex s = some ts) : untokenize ts = s :=
  untokenize_of_lexFrom (m := .start) rfl h

/-! ## Reading tokens with white space between them -/

/-- After a number comes white space, or what ends a value. -/
def Apart : List Token → Prop
  | [] => True
  | t :: ts => (t.isNum = true → ∀ u ∈ ts.head?, u.isWs = true ∨ u.delimits = true) ∧ Apart ts

theorem endsNum_untokenize {t : Token} {ts : List Token} (h : Apart (t :: ts))
    (hnum : t.isNum = true) : EndsNum (untokenize ts) := by
  cases ts with
  | nil => exact Or.inl rfl
  | cons u ts =>
    rcases h.1 hnum u rfl with hu | hu
    · cases u with
      | ws c hc => exact Or.inr ⟨c, _, rfl, fun _ => numNext_ws hc⟩
      | lbrace | rbrace | lbrack | rbrack | comma | colon | word | num | str => cases hu
    · cases u with
      | comma | rbrack | rbrace =>
        exact Or.inr ⟨_, _, rfl, fun _ => numNext_delimiter (by decide)⟩
      | ws | lbrace | lbrack | colon | word | num | str => cases hu

theorem lex_of_apart {ts : List Token} (h : Apart ts) : lex (untokenize ts) = some ts := by
  induction ts with
  | nil => rfl
  | cons t ts ih =>
    have hread := lexFrom_token (endsNum_untokenize h)
    rw [lex, untokenize, List.flatMap_cons, ← untokenize, hread, ← lex, ih h.2]
    rfl

theorem squeeze_cons (t : Token) (ts : List Token) :
    squeeze (t :: ts) = if t.isWs then squeeze ts else t :: squeeze ts := by
  rw [squeeze, List.filter_cons, ← squeeze]
  cases t.isWs <;> rfl

theorem apart_of_spaced {ts : List Token} (h : Spaced (squeeze ts)) : Apart ts := by
  induction ts with
  | nil => trivial
  | cons t ts ih =>
    rw [squeeze_cons] at h
    by_cases hws : t.isWs = true
    · rw [if_pos hws] at h
      refine ⟨fun hnum => ?_, ih h⟩
      cases t with
      | ws c hc => cases hnum
      | lbrace | rbrace | lbrack | rbrack | comma | colon | word | num | str => cases hws
    · rw [if_neg hws] at h
      refine ⟨fun hnum u hu => ?_, ih h.tail⟩
      obtain ⟨us, rfl⟩ := List.head?_eq_some_iff.mp hu
      by_cases huws : u.isWs = true
      · exact Or.inl huws
      · rw [squeeze_cons, if_neg huws] at h
        exact Or.inr (h.1 hnum)

/-- A text reads as the tree whose tokens it has, white space apart. -/
theorem parse_eq_some_iff {s : Text} {v : Tree} :
    parse s = some v ↔ ∃ ts, untokenize ts = s ∧ squeeze ts = v.tokens := by
  constructor
  · intro h
    obtain ⟨ts, hlex, hparse⟩ := Option.bind_eq_some_iff.mp h
    exact ⟨ts, untokenize_of_lex hlex, (tokens_of_parseTokens hparse).symm⟩
  · rintro ⟨ts, rfl, hts⟩
    have hspaced := State.spaced_of_run v.run_tokens
    rw [parse, lex_of_apart (apart_of_spaced (hts ▸ hspaced)), Option.bind_some, hts,
      parseTokens_tokens]

end Json
