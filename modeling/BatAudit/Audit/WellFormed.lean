import BatAudit.Audit.CardPass
import BatAudit.Audit.MemberPass

/-!
# Documents after masking

Which documents masking leaves readable, and what they then read as. When a value is cut at a
quote in it, what was inside of strings is outside from there on, and nothing that masking does
brings the two together again.
-/

namespace BatAudit

open Json (Text Rune Item StrLit Token Tree Side squeeze untokenize)

def secretNames : List String := passwordNames ++ tokenNames

/-! ## Sides -/

/-- What all the passes make of a piece. -/
def PieceChanged (p q : Text) : Prop :=
  q = maskCards p ∨ q = mask 8 ∨ isColonPiece p = true ∧ q = colonPiece

theorem PieceMasked.changed {p q : Text} (h : PieceMasked p q) : PieceChanged p (maskCards q) := by
  rcases h with rfl | rfl | ⟨hcolon, rfl⟩
  · exact Or.inl rfl
  · exact Or.inr (Or.inl (maskCards_mask 8))
  · exact Or.inr (Or.inr ⟨hcolon, maskCards_colonPiece⟩)

theorem forall₂_changed {ps qs : List Text} (h : List.Forall₂ PieceMasked ps qs) :
    List.Forall₂ PieceChanged ps (qs.map maskCards) := by
  induction h with
  | nil => exact .nil
  | cons hp _ ih => exact .cons hp.changed ih

/-- Runes that mean nothing to the scan of a string. -/
theorem run_of_plain {r : Rune} {s : Text}
    (h : ∀ r' ∈ r :: s, r' ≠ quoteMark ∧ r' ≠ .char '\\') {d : Side} (hd : d ≠ .out) (t : Text) :
    d.run (r :: (s ++ t)) = Side.str.run t := by
  have hnext {d : Side} (hd : d ≠ .out) {r' : Rune} (hr' : r' ≠ quoteMark ∧ r' ≠ .char '\\') :
      d.next r' = some .str := by
    cases d with
    | out => exact absurd rfl hd
    | str => rw [Side.next, if_neg hr'.1, if_neg hr'.2]
    | esc => rfl
  obtain ⟨hr, hs⟩ := List.forall_mem_cons.mp h
  rw [Side.run, hnext hd hr, Option.bind_some]
  induction s with
  | nil => rfl
  | cons r' s ih =>
    obtain ⟨hr', hs⟩ := List.forall_mem_cons.mp hs
    rw [List.cons_append, Side.run, hnext (by decide) hr', Option.bind_some,
      ih (List.forall_mem_cons.mpr ⟨hr, hs⟩) hs]

theorem plain_of_isRunRune {r : Rune} (h : isRunRune r = true) :
    r ≠ quoteMark ∧ r ≠ .char '\\' := by
  constructor <;> (rintro rfl; revert h; decide)

/-- Within a string the scan does not see that numbers are masked. -/
theorem run_maskCards {p : Text} (hp : quoteMark ∉ p) {d : Side} (hd : d ≠ .out) :
    d.run (maskCards p) = d.run p := by
  induction p using maskCards_induction generalizing d with
  | nil => rfl
  | none r p hnone ih =>
    obtain ⟨hr, hrest⟩ := not_or.mp (mt List.mem_cons.mpr hp)
    rw [maskCards_of_none hnone, Side.run, Side.run]
    cases d with
    | out => exact absurd rfl hd
    | str =>
      rw [Side.next, if_neg (Ne.symm hr)]
      split_ifs
      · exact ih hrest (by decide)
      · exact ih hrest (by decide)
    | esc => exact ih hrest (by decide)
  | some p out rest hsome ih =>
    obtain ⟨⟨ds, rest'⟩, hmatch, heq⟩ := Option.map_eq_some_iff.mp hsome
    obtain ⟨r, run, rfl, hrun⟩ := exists_consumed hmatch
    obtain ⟨hds, -⟩ := mem_of_matchDigits hmatch
    have hdigits := (passes_matchDigits hmatch).2
    cases heq
    have hrest : quoteMark ∉ rest' := fun hmem =>
      hp (List.mem_cons_of_mem r (List.mem_append_right run hmem))
    have hout : ∀ r' ∈ mask 12 ++ Json.text (ds.drop 12), r' ≠ quoteMark ∧ r' ≠ .char '\\' := by
      refine List.forall_mem_append.mpr ⟨fun r' hr' => ?_, fun r' hr' => ?_⟩
      · rw [List.eq_of_mem_replicate hr']
        decide
      · obtain ⟨c, hc, rfl⟩ := List.mem_map.mp hr'
        refine plain_of_isRunRune ?_
        have hdigit : isDigitRune (.char c) = true := hdigits c (List.mem_of_mem_drop hc)
        rw [isRunRune, hdigit, Bool.true_or]
    rw [maskCards_of_some hsome, run_of_plain (fun r' hr' => plain_of_isRunRune (hrun r' hr')) hd,
      ← ih hrest (by decide)]
    exact run_of_plain hout hd (maskCards rest')

instance (p : Text) : Decidable (Escaping p) := inferInstanceAs (Decidable (_ = _))

theorem Escaping.of_changed {p q : Text} (hp : quoteMark ∉ p) (h : PieceChanged p q) :
    Escaping q → Escaping p := by
  rintro hq
  rcases h with rfl | rfl | ⟨-, rfl⟩
  · rwa [Escaping, run_maskCards hp (by decide)] at hq
  · exact absurd hq (by decide)
  · exact absurd hq (by decide)

theorem not_escaping_of_colon {p : Text} (h : isColonPiece p = true) : ¬Escaping p := by
  have hnot {r : Rune} (hr : r ∈ p) : r ≠ .char '\\' ∧ r ≠ quoteMark := by
    rcases mem_of_isColonPiece h hr with rfl | hblank
    · decide
    · obtain ⟨c, rfl, hc⟩ := exists_of_is hblank
      simp only [isBlank, Bool.or_eq_true, decide_eq_true_eq] at hc
      rcases hc with (((rfl | rfl) | rfl) | rfl) | rfl <;> decide
  intro hescaping
  exact (hnot (hescaping.backslash_mem fun hmem => (hnot hmem).2 rfl)).1 rfl

theorem not_escaping_of_bare {p : Text} (h : ∀ r ∈ p, r.isBare = true) : ¬Escaping p := by
  intro hescaping
  have hquote : quoteMark ∉ p := fun hmem => absurd (h _ hmem) (by decide)
  exact absurd (h _ (hescaping.backslash_mem hquote)) (by decide)

/-- Only a mask can end where an escaped quote stood. -/
theorem eq_mask_of_escaping {p q : Text} (hp : quoteMark ∉ p) (h : PieceChanged p q)
    (hescaping : Escaping p) (hq : ¬Escaping q) : q = mask 8 := by
  rcases h with rfl | rfl | ⟨hcolon, -⟩
  · rw [Escaping, run_maskCards hp (by decide)] at hq
    exact absurd hescaping hq
  · rfl
  · exact absurd hescaping (not_escaping_of_colon hcolon)

/-- How the scan goes on behind a piece and its quote. -/
def afterPiece (d : Side) (p : Text) : Side :=
  if d = .out then .str else if Escaping p then .str else .out

@[simp] theorem afterPiece_out (p : Text) : afterPiece .out p = .str := rfl

theorem afterPiece_of_escaping {p : Text} (h : Escaping p) : afterPiece .str p = .str := by
  rw [afterPiece, if_neg (by decide), if_pos h]

theorem afterPiece_of_not_escaping {p : Text} (h : ¬Escaping p) : afterPiece .str p = .out := by
  rw [afterPiece, if_neg (by decide), if_neg h]

theorem bare_of_run_joinPieces {p : Text} (hp : quoteMark ∉ p) {ps : List Text}
    (h : Side.out.run (joinPieces (p :: ps)) = some .out) : ∀ r ∈ p, r.isBare = true := by
  by_cases hne : ps = []
  · rw [hne, joinPieces_singleton] at h
    exact (Json.bare_of_run_out hp h).2
  · rw [joinPieces_cons p hne, Side.run_append] at h
    obtain ⟨d, hrun, -⟩ := Option.bind_eq_some_iff.mp h
    exact (Json.bare_of_run_out hp hrun).2

theorem run_afterPiece {d : Side} (hd : d = .out ∨ d = .str) {p : Text} (hp : quoteMark ∉ p)
    {ps : List Text} (hne : ps ≠ []) (h : d.run (joinPieces (p :: ps)) = some .out) :
    (afterPiece d p).run (joinPieces ps) = some .out := by
  rw [joinPieces_cons p hne, Side.run_append] at h
  rcases hd with rfl | rfl
  · obtain ⟨d', hrun, h⟩ := Option.bind_eq_some_iff.mp h
    obtain ⟨rfl, -⟩ := Json.bare_of_run_out hp hrun
    exact h
  · rcases Json.run_str_or hp (d := .str) (by decide) with hrun | hrun
    · have hescaping : ¬Escaping p := by simp [Escaping, hrun]
      rw [hrun] at h
      rw [afterPiece_of_not_escaping hescaping]
      exact h
    · rw [hrun] at h
      rw [afterPiece_of_escaping hrun]
      exact h

theorem ne_nil_of_run_str {p : Text} (hp : quoteMark ∉ p) {ps : List Text}
    (h : Side.str.run (joinPieces (p :: ps)) = some .out) : ps ≠ [] := by
  rintro rfl
  rw [joinPieces_singleton] at h
  rcases Json.run_str_or hp (d := .str) (by decide) with hrun | hrun <;> (rw [hrun] at h; cases h)

/-- Inside and outside once exchanged, one of the texts never ends outside. -/
theorem not_flipped {ps fs : List Text} (h : List.Forall₂ PieceChanged ps fs) (hps : Unquoted ps)
    (hfs : Unquoted fs) (hne : ps ≠ []) {d e : Side}
    (hde : d = .out ∧ e = .str ∨ d = .str ∧ e = .out) (hd : d.run (joinPieces ps) = some .out)
    (he : e.run (joinPieces fs) = some .out) : False := by
  induction h generalizing d e with
  | nil => exact hne rfl
  | @cons p f ps fs hp hrest ih =>
    obtain ⟨hqp, hps⟩ := unquoted_cons.mp hps
    obtain ⟨hqf, hfs⟩ := unquoted_cons.mp hfs
    have hlen : ps = [] ↔ fs = [] := by
      rw [← List.length_eq_zero_iff, hrest.length_eq, List.length_eq_zero_iff]
    rcases hde with ⟨rfl, rfl⟩ | ⟨rfl, rfl⟩
    · have hnefs := ne_nil_of_run_str hqf he
      have hneps : ps ≠ [] := mt hlen.mp hnefs
      have hescaping : ¬Escaping f := fun hf =>
        not_escaping_of_bare (bare_of_run_joinPieces hqp hd) (hf.of_changed hqp hp)
      have hd' := run_afterPiece (Or.inl rfl) hqp hneps hd
      have he' := run_afterPiece (Or.inr rfl) hqf hnefs he
      rw [afterPiece_of_not_escaping hescaping] at he'
      exact ih hps hfs hneps (Or.inr ⟨rfl, rfl⟩) hd' he'
    · have hneps := ne_nil_of_run_str hqp hd
      have hnefs : fs ≠ [] := mt hlen.mpr hneps
      have hbare := bare_of_run_joinPieces hqf he
      have hescaping : ¬Escaping p := fun hpe => by
        rw [eq_mask_of_escaping hqp hp hpe (not_escaping_of_bare hbare)] at hbare
        exact absurd (hbare (.char '*') (by decide)) (by decide)
      have hd' := run_afterPiece (Or.inr rfl) hqp hneps hd
      have he' := run_afterPiece (Or.inl rfl) hqf hnefs he
      rw [afterPiece_of_not_escaping hescaping] at hd'
      exact ih hps hfs hneps (Or.inl ⟨rfl, rfl⟩) hd' he'

/-- When both texts end outside, no value was cut. -/
theorem not_escaping_of_masked {ps fs : List Text} (h : List.Forall₂ PieceChanged ps fs)
    (hps : Unquoted ps) (hfs : Unquoted fs) {d : Side} (hside : d = .out ∨ d = .str)
    (hd : d.run (joinPieces ps) = some .out) (hf : d.run (joinPieces fs) = some .out) {i : ℕ}
    {p : Text} (hp : ps[i]? = some p) (hmask : fs[i]? = some (mask 8)) : ¬Escaping p := by
  induction h generalizing d i with
  | nil => cases hp
  | @cons p₀ f ps fs hchanged hrest ih =>
    obtain ⟨hqp, hps⟩ := unquoted_cons.mp hps
    obtain ⟨hqf, hfs⟩ := unquoted_cons.mp hfs
    have hsame : (Escaping p₀ ↔ Escaping f) ∨ d = .out := by
      by_contra hdiffer
      obtain ⟨hiff, hout⟩ := not_or.mp hdiffer
      obtain rfl : d = .str := hside.resolve_left hout
      have hpf : Escaping p₀ ∧ ¬Escaping f := by
        by_contra hnot
        exact hiff ⟨fun hpe => by_contra fun hfe => hnot ⟨hpe, hfe⟩,
          Escaping.of_changed hqp hchanged⟩
      have hneps := ne_nil_of_run_str hqp hd
      have hnefs := ne_nil_of_run_str hqf hf
      have hd' := run_afterPiece (Or.inr rfl) hqp hneps hd
      have hf' := run_afterPiece (Or.inr rfl) hqf hnefs hf
      rw [afterPiece_of_escaping hpf.1] at hd'
      rw [afterPiece_of_not_escaping hpf.2] at hf'
      exact not_flipped hrest hps hfs hneps (Or.inr ⟨rfl, rfl⟩) hd' hf'
    rcases i with _ | i
    · obtain rfl := Option.some.inj hp
      obtain rfl := Option.some.inj hmask
      rcases hsame with hiff | rfl
      · exact fun hpe => absurd (hiff.mp hpe) (by decide)
      · exact not_escaping_of_bare (bare_of_run_joinPieces hqp hd)
    · have hneps : ps ≠ [] := by
        rintro rfl
        cases hp
      have hnefs : fs ≠ [] := by
        rintro rfl
        cases hmask
      have hafter : afterPiece d f = afterPiece d p₀ := by
        rcases hsame with hiff | rfl
        · rw [afterPiece, afterPiece, if_congr Iff.rfl rfl (if_congr hiff rfl rfl)]
        · rfl
      have hd' := run_afterPiece hside hqp hneps hd
      have hf' := run_afterPiece hside hqf hnefs hf
      rw [hafter] at hf'
      refine ih hps hfs ?_ hd' hf' hp hmask
      unfold afterPiece
      split_ifs <;> simp

section Cut

variable {names : List String}

theorem getElem?_maskPieces {ps : List Text} {i : ℕ} (h : isValuePiece names ps i = true) :
    (maskPieces names ps)[i]? = some (mask 8) := by
  induction ps using maskPieces.induct names generalizing i with
  | case1 before name colon value after rest hmatch ih =>
    rw [isValuePiece, if_pos hmatch, Bool.or_eq_true, Bool.and_eq_true, decide_eq_true_eq,
      decide_eq_true_eq] at h
    rw [maskPieces, if_pos hmatch]
    rcases h with rfl | ⟨hle, h⟩
    · rfl
    · obtain ⟨j, rfl⟩ : ∃ j, i = j + 4 := ⟨i - 4, by omega⟩
      exact ih h
  | case2 before name colon value after rest hmatch ih =>
    rw [isValuePiece, if_neg hmatch, Bool.and_eq_true, decide_eq_true_eq] at h
    rw [maskPieces, if_neg hmatch]
    obtain ⟨j, rfl⟩ : ∃ j, i = j + 1 := ⟨i - 1, by omega⟩
    exact ih h.2
  | case3 ps hshape =>
    rw [isValuePiece] at h
    · cases h
    · exact hshape

/-- A pass that cuts a value leaves no document, whatever the later passes do. -/
theorem not_cut {s t : Text} {v : Tree} {ts : List Token} (hplain : PlainNames names)
    (hdistinct : Distinct names) (hs : Json.parse s = some v) (ht : Json.lex t = some ts)
    (hchanged : List.Forall₂ PieceChanged (pieces s) (pieces t))
    (hmask : ∀ i, isValuePiece names (pieces s) i = true → (pieces t)[i]? = some (mask 8)) :
    v.allMembers.any (isCut names) = false := by
  rw [← Bool.not_eq_true]
  intro hcut
  obtain ⟨i, p, hvalue, hp, hescaping⟩ := exists_cut hplain hdistinct hs hcut
  obtain ⟨us, hlex, -⟩ := Option.bind_eq_some_iff.mp hs
  have hd := Json.side_lex hlex
  have hf := Json.side_lex ht
  rw [← joinPieces_pieces s] at hd
  rw [← joinPieces_pieces t] at hf
  exact not_escaping_of_masked hchanged (unquoted_pieces s) (unquoted_pieces t) (Or.inl rfl) hd hf
    hp (hmask i hvalue) hescaping

end Cut

/-! ## The passes together -/

theorem isKeyed_append (names names' : List String) (k : StrLit) :
    isKeyed (names ++ names') k = (isKeyed names k || isKeyed names' k) := List.any_append

/-- The members of both lists can be masked at once. -/
theorem maskMembers_append (names names' : List String) (v : Tree) :
    maskMembers names' (maskMembers names v) = maskMembers (names ++ names') v := by
  have htwice : (v.rewrite id (maskValue names) none).rewrite id (maskValue names') none =
      v.rewrite (id ∘ id) (fun key s => maskValue names' (key.map id) (maskValue names key s))
        none := v.rewrite_rewrite none
  have hvalue : (fun key s => maskValue names' (Option.map id key) (maskValue names key s)) =
      maskValue (names ++ names') := by
    funext key s
    cases key with
    | none => rfl
    | some k =>
      simp only [maskValue, Option.map_some, id, Option.any_some, isKeyed_append, Bool.or_eq_true]
      split_ifs <;> first | rfl | tauto
  rw [hvalue] at htwice
  exact htwice

theorem isCut_append (names names' : List String) (m : StrLit × Tree) :
    isCut (names ++ names') m =
      (isCut names m || isCut names' (Json.pairRewrite id (maskValue names) m)) := by
  obtain ⟨k, v⟩ := m
  cases v with
  | str s =>
    have hstars : quoteMark ∉ starsLit.content := by decide
    simp only [isCut, Json.pairRewrite, Tree.rewrite, maskValue, id, Option.any_some, isKeyed_append]
    by_cases hkey : isKeyed names k = true <;> simp [hkey, hstars]
  | word | num | arr | obj => simp [isCut, Json.pairRewrite, Tree.rewrite]

theorem any_isCut_append (names names' : List String) (v : Tree) :
    v.allMembers.any (isCut (names ++ names')) =
      (v.allMembers.any (isCut names) || (maskMembers names v).allMembers.any (isCut names')) := by
  rw [maskMembers, v.allMembers_rewrite, List.any_map]
  induction v.allMembers with
  | nil => rfl
  | cons m ms ih =>
    rw [List.any_cons, List.any_cons, List.any_cons, ih, isCut_append, Function.comp_apply,
      Bool.or_assoc, Bool.or_assoc]
    congr 1
    rw [Bool.or_left_comm]

/-- A document with its numbers masked, literal by literal. -/
def maskNumbers (v : Tree) : Tree := v.rewrite maskLit (fun _ => maskLit) none

theorem parse_maskCards {s : Text} {v : Tree} (h : Json.parse s = some v) :
    (v.tokens.all isSafe = true → Json.parse (maskCards s) = some (maskNumbers v)) ∧
      (v.tokens.all isSafe = false → Json.lex (maskCards s) = none) := by
  obtain ⟨ts, rfl, hts⟩ := Json.parse_eq_some_iff.mp h
  have hspaced : Json.Spaced (squeeze ts) := hts ▸ Json.State.spaced_of_run v.run_tokens
  have hlex := lex_maskCards hspaced
  have hall : ts.all isSafe = v.tokens.all isSafe := by
    rw [← hts, squeeze, List.all_filter]
    refine congrArg (fun f => ts.all f) (funext fun t => ?_)
    cases t <;> simp [Token.isWs, isSafe]
  constructor
  · intro hsafe
    rw [hall, if_pos hsafe] at hlex
    have hsqueeze : squeeze (ts.map (Token.mapStr maskLit)) = (maskNumbers v).tokens := by
      rw [maskNumbers, v.tokens_rewrite, ← hts, squeeze, squeeze, List.filter_map]
      refine congrArg (List.map _) (List.filter_congr fun t _ => ?_)
      cases t <;> rfl
    rw [Json.parse, hlex, Option.bind_some, hsqueeze, Json.parseTokens_tokens]
  · intro hunsafe
    rw [hall, hunsafe, if_neg Bool.false_ne_true] at hlex
    exact hlex

/-- The documents that masking leaves readable. -/
structure Maskable (v : Tree) : Prop where
  values : ∀ m ∈ v.allMembers, isCut secretNames m = false
  literals : ∀ t ∈ (maskMembers secretNames v).tokens, isSafe t = true

/-- What a document reads as after masking. -/
def maskTree (v : Tree) : Tree := maskNumbers (maskMembers secretNames v)

theorem getElem?_kept {ps qs : List Text} (h : List.Forall₂ PieceMasked ps qs) {i : ℕ}
    (hi : ps[i]? = some (mask 8)) : qs[i]? = some (mask 8) := by
  induction h generalizing i with
  | nil => cases hi
  | cons hp _ ih =>
    rcases i with _ | i
    · obtain rfl := Option.some.inj hi
      rcases hp with rfl | rfl | ⟨hcolon, -⟩
      · rfl
      · rfl
      · rw [not_isColonPiece_mask] at hcolon
        cases hcolon
    · exact ih hi

theorem getElem?_map_maskCards {ps : List Text} {i : ℕ} (hi : ps[i]? = some (mask 8)) :
    (ps.map maskCards)[i]? = some (mask 8) := by
  rw [List.getElem?_map, hi, Option.map_some, maskCards_mask]

theorem parse_passwords {s : Text} {v : Tree} (h : Json.parse s = some v)
    (hcut : v.allMembers.any (isCut passwordNames) = false) :
    Json.parse (replaceAll (maskedMember passwordNames) s) = some (maskMembers passwordNames v) :=
  parse_maskedMember plain_passwordNames distinct_passwordNames h hcut

theorem maskable_iff {v : Tree} :
    Maskable v ↔ v.allMembers.any (isCut passwordNames) = false ∧
      (maskMembers passwordNames v).allMembers.any (isCut tokenNames) = false ∧
      (maskMembers tokenNames (maskMembers passwordNames v)).tokens.all isSafe = true := by
  rw [maskMembers_append, List.all_eq_true, ← and_assoc, ← Bool.or_eq_false_iff,
    ← any_isCut_append, List.any_eq_false]
  simp only [Bool.not_eq_true]
  exact ⟨fun h => ⟨h.values, h.literals⟩, fun h => ⟨h.1, h.2⟩⟩

/-- Masking reads as masking of the tree, or leaves no document. -/
theorem parse_maskJSON {s : Text} {v : Tree} (h : Json.parse s = some v) :
    (Maskable v → Json.parse (maskJSON s) = some (maskTree v)) ∧
      (¬Maskable v → Json.lex (maskJSON s) = none) := by
  rw [maskable_iff, maskTree, secretNames, ← maskMembers_append]
  constructor
  · rintro ⟨hpasswords, htokens, hsafe⟩
    have hfirst := parse_passwords h hpasswords
    have hsecond := parse_maskedMember plain_tokenNames distinct_tokenNames hfirst htokens
    rw [maskJSON_eq]
    exact (parse_maskCards hsecond).1 hsafe
  · intro hnot
    rw [Option.eq_none_iff_forall_ne_some]
    intro ts hlex
    refine hnot ?_
    have hpasswords : v.allMembers.any (isCut passwordNames) = false := by
      refine not_cut plain_passwordNames distinct_passwordNames h hlex ?_ fun i hi => ?_
      · rw [pieces_maskJSON]
        exact forall₂_changed (pieceMasked_twice _)
      · rw [pieces_maskJSON]
        exact getElem?_map_maskCards (getElem?_kept (pieceMasked_maskPieces _ _)
          (getElem?_maskPieces hi))
    have hfirst := parse_passwords h hpasswords
    have hpieces := replaceAll_maskedMember_pieces plain_passwordNames s
    have htokens : (maskMembers passwordNames v).allMembers.any (isCut tokenNames) = false := by
      refine not_cut plain_tokenNames distinct_tokenNames hfirst hlex ?_ fun i hi => ?_
      · rw [pieces_maskJSON, hpieces]
        exact forall₂_changed (pieceMasked_maskPieces _ _)
      · rw [pieces_maskJSON, ← hpieces]
        exact getElem?_map_maskCards (getElem?_maskPieces hi)
    have hsecond := parse_maskedMember plain_tokenNames distinct_tokenNames hfirst htokens
    refine ⟨hpasswords, htokens, ?_⟩
    by_contra hunsafe
    rw [maskJSON_eq, (parse_maskCards hsecond).2 ((Bool.not_eq_true _).mp hunsafe)] at hlex
    cases hlex

end BatAudit
