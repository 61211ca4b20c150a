import BatAudit.Lib.Json.Strings

/-!
# The first value of a stream

A decoder that reads a stream stops at the first prefix that is a value. No proper prefix of
an object is one, so a body that holds an object and nothing else is read whole.
-/

namespace Json

/-- Tokens of a part of a text, and the mode after it. -/
def lexPart : Mode → Text → Option (List Token × Mode)
  | m, [] => some ([], m)
  | m, r :: s => do
    let (ts, m') ← nextMode m r
    let (us, m'') ← lexPart m' s
    return (ts ++ us, m'')

theorem lexFrom_append (m : Mode) (s t : Text) :
    lexFrom m (s ++ t) =
      (lexPart m s).bind fun p => (lexFrom p.2 t).map fun us => p.1 ++ us := by
  induction s generalizing m with
  | nil => simp [lexPart]
  | cons r s ih =>
    rw [List.cons_append, lexPart]
    cases hnext : nextMode m r with
    | none =>
      rw [lexFrom, hnext]
      rfl
    | some p =>
      obtain ⟨ts, m'⟩ := p
      rw [lexFrom_cons hnext, ih]
      cases hpart : lexPart m' s <;> simp [hpart, Function.comp_def]

/-! ## Where a text can end -/

/-- Whatever brings the lexer back to the start has completed a token. -/
def Completes (o : Option (List Token × Mode)) : Prop := ∀ ts, o = some (ts, .start) → ts ≠ []

theorem completes_token (t : Token) (ts : List Token) (m : Mode) : Completes (some (t :: ts, m)) := by
  intro us h
  cases h
  exact List.cons_ne_nil t ts

theorem completes_none : Completes none := by
  intro ts h
  cases h

theorem completes_begin (r : Rune) : Completes (begin r) := by
  have hmode : ∀ m : Mode, m ≠ .start → Completes (some ([], m)) := by
    intro m hm ts h
    cases h
    exact absurd rfl hm
  cases r with
  | bad b => exact completes_none
  | char c =>
    rw [begin]
    by_cases hws : isWs c = true
    · rw [dif_pos hws]
      exact completes_token _ _ _
    rw [dif_neg hws]
    refine iteInduction (fun _ => completes_token _ _ _) fun _ => ?_
    refine iteInduction (fun _ => completes_token _ _ _) fun _ => ?_
    refine iteInduction (fun _ => completes_token _ _ _) fun _ => ?_
    refine iteInduction (fun _ => completes_token _ _ _) fun _ => ?_
    refine iteInduction (fun _ => completes_token _ _ _) fun _ => ?_
    refine iteInduction (fun _ => completes_token _ _ _) fun _ => ?_
    refine iteInduction (fun _ => hmode _ (by simp)) fun _ => ?_
    refine iteInduction (fun _ => hmode _ (by simp)) fun _ => ?_
    refine iteInduction (fun _ => hmode _ (by simp)) fun _ => ?_
    refine iteInduction (fun _ => hmode _ (by simp)) fun _ => ?_
    cases numStart c with
    | none => exact completes_none
    | some st => exact hmode _ (by simp)

theorem completes_nextMode (m : Mode) (r : Rune) : Completes (nextMode m r) := by
  cases m with
  | start => exact completes_begin r
  | body l =>
    intro ts h
    simp only [nextMode] at h
    split_ifs at h <;> cases h
    exact List.cons_ne_nil _ _
  | escape l =>
    intro ts h
    simp only [nextMode] at h
    split at h
    · cases h
    · split_ifs at h <;> cases h
  | hex l digits =>
    intro ts h
    simp only [nextMode] at h
    split at h
    · cases h
    · split at h <;> cases h
    · split at h <;> cases h
  | num st raw =>
    intro ts h
    simp only [nextMode] at h
    split at h
    · cases h
    · split at h
      · cases h
      · obtain ⟨t, -, h⟩ := Option.bind_eq_some_iff.mp h
        obtain ⟨⟨us, m'⟩, -, h⟩ := Option.bind_eq_some_iff.mp h
        cases h
        exact List.cons_ne_nil _ _
  | word w rest =>
    intro ts h
    simp only [nextMode] at h
    split at h
    · cases h
    · split_ifs at h
      cases h
      exact List.cons_ne_nil _ _
    · split_ifs at h
      cases h

theorem eq_nil_of_lexFrom_nil {m : Mode} {s : Text} (h : lexFrom m s = some []) :
    m = .start ∧ s = [] := by
  induction s generalizing m with
  | nil =>
    cases m with
    | start => exact ⟨rfl, rfl⟩
    | num st raw =>
      obtain ⟨t, -, ht⟩ := Option.map_eq_some_iff.mp h
      cases ht
    | body | escape | hex | word => cases h
  | cons r s ih =>
    rw [lexFrom] at h
    obtain ⟨⟨ts, m'⟩, hnext, h⟩ := Option.bind_eq_some_iff.mp h
    obtain ⟨rest, hrest, h⟩ := Option.bind_eq_some_iff.mp h
    obtain ⟨rfl, rfl⟩ := List.append_eq_nil_iff.mp (Option.some.inj h)
    obtain ⟨rfl, -⟩ := ih hrest
    exact absurd rfl (completes_nextMode m r [] hnext)

theorem lexPart_obj {ms : List (StrLit × Tree)} {s t : Text} {us : List Token} {m : Mode}
    (hne : s ≠ []) (heq : s ++ t = (Tree.obj ms).print) (h : lexPart .start s = some (us, m)) :
    ∃ us', us = .lbrace :: us' := by
  cases s with
  | nil => exact absurd rfl hne
  | cons r s =>
    have hr : r = .char '{' := (List.cons.inj heq).1
    subst hr
    have hrest : (lexPart .start s).bind (fun p => some (.lbrace :: p.1, p.2)) = some (us, m) := h
    obtain ⟨⟨us', m'⟩, -, h⟩ := Option.bind_eq_some_iff.mp hrest
    cases h
    exact ⟨us', rfl⟩

theorem num_of_finishNum {st : NumState} {raw : List Char} {t : Token}
    (h : finishNum st raw = some t) : ∃ n, t = .num n := by
  unfold finishNum at h
  split_ifs at h
  cases h
  exact ⟨_, rfl⟩

/-- A value is over when its tokens are. -/
theorem eq_nil_of_run_after {v w : Tree} {ts : List Token}
    (h : State.run (.after v []) ts = some (.after w [])) : ts = [] := by
  cases ts with
  | nil => rfl
  | cons t ts => cases h

/-- No object ends in a number. -/
theorem tokens_ne_num (v : Tree) (ts : List Token) (n : NumLit) :
    v.tokens ≠ .lbrace :: (ts ++ [.num n]) := by
  intro h
  cases v with
  | obj ms =>
    have hlast := List.append_inj_right' (List.cons.inj h).2 rfl
    cases hlast
  | word | num | str | arr => cases h

/-- The only prefix of an object that is a value is the object. -/
theorem eq_nil_of_parse_append {ms : List (StrLit × Tree)} {s t : Text} {v : Tree}
    (hs : parse s = some v) (heq : s ++ t = (Tree.obj ms).print) : t = [] := by
  obtain ⟨ts, hlex, hparse⟩ := Option.bind_eq_some_iff.mp hs
  have htokens := tokens_of_parseTokens hparse
  have hne : s ≠ [] := by
    rintro rfl
    cases hlex
    cases hparse
  have hwhole := lex_print (.obj ms)
  rw [← heq, lex, lexFrom_append] at hwhole
  rw [lex, ← List.append_nil s, lexFrom_append] at hlex
  obtain ⟨⟨us, m⟩, hpart, hlex⟩ := Option.bind_eq_some_iff.mp hlex
  rw [hpart, Option.bind_some] at hwhole
  obtain ⟨ws, hws, hts⟩ := Option.map_eq_some_iff.mp hlex
  obtain ⟨xs, hxs, hall⟩ := Option.map_eq_some_iff.mp hwhole
  simp only at hws hts hxs hall
  obtain ⟨us', rfl⟩ := lexPart_obj hne heq hpart
  subst hts
  cases m with
  | start =>
    obtain rfl := Option.some.inj hws
    rw [List.append_nil] at htokens
    have hsqueeze : v.tokens ++ squeeze xs = (Tree.obj ms).tokens := by
      rw [htokens, squeeze, squeeze, ← List.filter_append, hall]
      exact squeeze_tokens _
    have hrun := State.run_tree v [] (squeeze xs)
    rw [hsqueeze, Tree.run_tokens] at hrun
    have hnil : squeeze xs = [] := eq_nil_of_run_after hrun.symm
    have hxs' : xs = [] := by
      rw [← hnil]
      refine (List.filter_eq_self.mpr fun u hu => ?_).symm
      simp [Tree.not_isWs (.obj ms) u (hall ▸ List.mem_append_right _ hu)]
    exact (eq_nil_of_lexFrom_nil (hxs' ▸ hxs)).2
  | num st raw =>
    obtain ⟨t', ht', rfl⟩ := Option.map_eq_some_iff.mp hws
    obtain ⟨n, rfl⟩ := num_of_finishNum ht'
    refine absurd (htokens.trans ?_) (tokens_ne_num v (squeeze us') n)
    rw [squeeze, List.cons_append, List.filter_cons_of_pos (by rfl), List.filter_append]
    rfl
  | body | escape | hex | word => cases hws

theorem firstValue_print (ms : List (StrLit × Tree)) :
    firstValue (Tree.obj ms).print = some (Tree.obj ms).print := by
  have hsome : (firstValue (Tree.obj ms).print).isSome = true := by
    refine List.find?_isSome.mpr ⟨_, (List.mem_inits _ _).mpr (List.prefix_refl _), ?_⟩
    rw [parse_print]
    rfl
  obtain ⟨s, hs⟩ := Option.isSome_iff_exists.mp hsome
  obtain ⟨t, ht⟩ := (List.mem_inits _ _).mp (List.mem_of_find?_eq_some hs)
  have hvalue : (parse s).isSome = true :=
    List.find?_some (p := fun s => (parse s).isSome) hs
  obtain ⟨v, hv⟩ := Option.isSome_iff_exists.mp hvalue
  have hnil := eq_nil_of_parse_append hv ht
  rw [hs, ← ht, hnil, List.append_nil]

end Json
