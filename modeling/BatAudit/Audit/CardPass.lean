import BatAudit.Audit.CardRuns
import BatAudit.Lib.Json.Members
import BatAudit.Lib.Json.Sides

/-!
# The numbers of a document under masking

Stars are no part of a number, and no hexadecimal digits. So the pass over card numbers leaves a
document readable unless it meets sixteen digits in a number, or counts the digits of an escape
among the sixteen. In other strings it puts stars for digits.
-/

namespace BatAudit

open Json (Text Rune Item StrLit Token Tree Side squeeze untokenize)

/-- Sixteen digits are counted from within an escape on. -/
def cutsEscape : StrLit → Bool
  | [] => false
  | .unicode a b c d _ :: s =>
    ([0, 1, 2, 3].any fun k =>
      (matchDigits 16 (Json.text ([a, b, c, d].drop k) ++ StrLit.content s)).isSome) ||
      cutsEscape s
  | .plain _ _ :: s | .escape _ _ :: s => cutsEscape s

def isSafe : Token → Bool
  | .num n => !hasCard (Json.text n.raw)
  | .str s => !cutsEscape s
  | _ => true

/-- What is left of a literal. -/
def maskLit (s : StrLit) : StrLit :=
  match Json.lex (maskCards s.text) with
  | some [.str l] => l
  | _ => s

/-! ## Literals -/

def starItem : Item := .plain (.char '*') (by decide)

/-- The first change puts twelve stars for a digit and what follows it. -/
def Starred (s s' : StrLit) : Prop :=
  ∃ l c h r r', s = l ++ .plain (.char c) h :: r ∧ s' = l ++ (List.replicate 12 starItem ++ r') ∧
    GoText.isDigit c = true

theorem Starred.cons {s s' : StrLit} (h : Starred s s') (i : Item) : Starred (i :: s) (i :: s') := by
  obtain ⟨l, c, hc, r, r', rfl, rfl, hdigit⟩ := h
  exact ⟨i :: l, c, hc, r, r', rfl, rfl, hdigit⟩

def plainItems (s : List Char) (h : ∀ c ∈ s, Json.isPlain (.char c) = true) : StrLit :=
  s.pmap (fun c hc => .plain (.char c) hc) h

theorem content_plainItems (s : List Char) (h : ∀ c ∈ s, Json.isPlain (.char c) = true) :
    (plainItems s h).content = Json.text s := by
  induction s with
  | nil => rfl
  | cons c s ih =>
    have hrest := ih fun d hd => h d (List.mem_cons_of_mem c hd)
    rw [plainItems, List.pmap, StrLit.content, List.flatMap_cons]
    exact congrArg (Rune.char c :: ·) hrest

theorem content_append (s t : StrLit) :
    StrLit.content (s ++ t) = StrLit.content s ++ StrLit.content t := List.flatMap_append

theorem lexFrom_items (l s : StrLit) (rest : Text) :
    Json.lexFrom (.body l) (s.content ++ rest) = Json.lexFrom (.body (l ++ s)) rest := by
  induction s generalizing l with
  | nil => rw [List.append_nil]; rfl
  | cons i s ih =>
    have hrest := ih (l ++ [i])
    rw [StrLit.content, List.flatMap_cons, List.append_assoc, Json.lexFrom_item, ← StrLit.content,
      hrest, List.append_assoc, List.singleton_append]

/-- A run at the head of a literal is spelled by plain runes. -/
theorem exists_items {s : StrLit} {run rest : Text} (h : s.content = run ++ rest)
    (hrun : ∀ r ∈ run, isRunRune r = true) :
    ∃ s₁ s₂, s = s₁ ++ s₂ ∧ StrLit.content s₁ = run ∧ StrLit.content s₂ = rest ∧
      cutsEscape s = cutsEscape s₂ ∧ s₁.length = run.length := by
  induction run generalizing s with
  | nil => exact ⟨[], s, rfl, rfl, h, rfl, rfl⟩
  | cons r run ih =>
    obtain ⟨hr, hrest⟩ := List.forall_mem_cons.mp hrun
    cases s with
    | nil => cases h
    | cons i s =>
      rw [StrLit.content, List.flatMap_cons, ← StrLit.content] at h
      cases i with
      | plain r' hr' =>
        obtain ⟨rfl, htail⟩ := List.cons.inj h
        obtain ⟨s₁, s₂, rfl, h₁, h₂, hcuts, hlen⟩ := ih htail hrest
        refine ⟨.plain r' hr' :: s₁, s₂, rfl, ?_, h₂, hcuts, by rw [List.length_cons, hlen]; rfl⟩
        rw [StrLit.content, List.flatMap_cons, ← StrLit.content, h₁]
        rfl
      | escape c hc =>
        obtain ⟨rfl, -⟩ := List.cons.inj h
        exact absurd hr (by decide)
      | unicode a b c d hc =>
        obtain ⟨rfl, -⟩ := List.cons.inj h
        exact absurd hr (by decide)

theorem isPlain_of_isDigit {c : Char} (h : GoText.isDigit c = true) :
    Json.isPlain (.char c) = true := by
  have hspace : ' ' ≤ c := by
    simp only [GoText.isDigit, Bool.and_eq_true, decide_eq_true_eq] at h
    exact Char.le_trans (by decide) h.1
  have hquote : c ≠ '"' ∧ c ≠ '\\' := by
    constructor <;> (rintro rfl; revert h; decide)
  simp [Json.isPlain, hspace, hquote]

/-- A match at the head of a literal: what it takes, and the stars for it. -/
theorem exists_match {i : Item} {s : StrLit} {out rest : Text}
    (h : maskedCard (StrLit.content (i :: s)) = some (out, rest)) :
    ∃ c hc t o, i = .plain (.char c) hc ∧ GoText.isDigit c = true ∧ StrLit.content t = rest ∧
      StrLit.content (List.replicate 12 starItem ++ o) = out ∧ t.length ≤ s.length ∧
      cutsEscape (i :: s) = cutsEscape t := by
  obtain ⟨⟨ds, rest'⟩, hmatch, heq⟩ := Option.map_eq_some_iff.mp h
  obtain ⟨r, run, hcontent, hrun⟩ := exists_consumed hmatch
  obtain ⟨c, t, -, hhead, hc, -⟩ := matchDigits_succ hmatch
  have hds := (passes_matchDigits hmatch).2
  cases heq
  have hread : StrLit.content (i :: s) = (r :: run) ++ rest' := hcontent
  obtain ⟨s₁, s₂, hsplit, h₁, h₂, hcuts, hlen⟩ := exists_items hread hrun
  obtain ⟨rfl, -⟩ := List.cons.inj (hhead.symm.trans hcontent)
  have hi : ∃ hc, i = .plain (.char c) hc := by
    rw [StrLit.content, List.flatMap_cons] at hhead
    cases i with
    | plain r' hr' =>
      obtain ⟨rfl, -⟩ := List.cons.inj hhead
      exact ⟨hr', rfl⟩
    | escape d hd =>
      rw [← Rune.char.inj (List.cons.inj hhead).1] at hc
      exact absurd hc (by decide)
    | unicode a b c' d hd =>
      rw [← Rune.char.inj (List.cons.inj hhead).1] at hc
      exact absurd hc (by decide)
  have hplain : ∀ d ∈ ds.drop 12, Json.isPlain (.char d) = true := fun d hd =>
    isPlain_of_isDigit (hds d (List.mem_of_mem_drop hd))
  obtain ⟨hc', rfl⟩ := hi
  refine ⟨c, hc', s₂, plainItems _ hplain, rfl, hc, h₂, ?_, ?_, hcuts⟩
  · rw [content_append, content_plainItems]
    rfl
  · have hlength := congrArg List.length hsplit
    rw [List.length_cons, List.length_append, hlen, List.length_cons] at hlength
    omega

theorem maskCards_escape {c : Char} (hc : Json.isEscape c = true) (t : Text) :
    maskCards (Item.text (.escape c hc) ++ t) = Item.text (.escape c hc) ++ maskCards t := by
  have hdigit : GoText.isDigit c = false := by
    rw [← Bool.not_eq_true]
    intro h
    simp only [Json.isEscape, Bool.or_eq_true, decide_eq_true_eq] at hc
    rcases hc with ((((((rfl | rfl) | rfl) | rfl) | rfl) | rfl) | rfl) | rfl <;>
      revert h <;> decide
  refine maskCards_append_of_no_digit (fun r hr => ?_) t
  simp only [Item.text, List.mem_cons, List.not_mem_nil, or_false] at hr
  rcases hr with rfl | rfl
  · decide
  · exact hdigit

/-- Digits of an escape that begin no match. -/
theorem maskCards_hex {ds : List Char} {t : Text}
    (h : ∀ k < ds.length, matchDigits 16 (Json.text (ds.drop k) ++ t) = none) :
    maskCards (Json.text ds ++ t) = Json.text ds ++ maskCards t := by
  induction ds with
  | nil => rfl
  | cons c ds ih =>
    have hnone : maskedCard (.char c :: (Json.text ds ++ t)) = none :=
      Option.map_eq_none_iff.mpr (h 0 (Nat.zero_lt_succ _))
    rw [Json.text, List.map_cons, ← Json.text, List.cons_append, maskCards_of_none hnone,
      ih fun k hk => h (k + 1) (Nat.succ_lt_succ hk)]
    rfl

theorem lexFrom_eq_none {m : Json.Mode} {r : Rune} (h : Json.nextMode m r = none) (s : Text) :
    Json.lexFrom m (r :: s) = none := by
  rw [Json.lexFrom, h]
  rfl

theorem nextMode_hex {l : StrLit} {done : List Char} {c : Char} (hlen : done.length < 3) :
    Json.nextMode (.hex l done) (.char c) =
      if Json.isHex c then some ([], .hex l (done ++ [c])) else none := by
  match done, hlen with
  | [], _ | [_], _ | [_, _], _ => rfl

theorem nextMode_hex_star (l : StrLit) (done : List Char) :
    Json.nextMode (.hex l done) (.char '*') = none := by
  have hstar : Json.isHex '*' = false := by decide
  simp only [Json.nextMode]
  split
  · cases ‹_›
  · rename_i heq
    cases heq
    rw [dif_neg (by simp [hstar])]
  · rename_i heq _
    cases heq
    rw [hstar, if_neg Bool.false_ne_true]

/-- A match among them leaves no escape. -/
theorem lexFrom_hex_none {ds done : List Char} {t : Text} {k : ℕ} (hk : k < ds.length)
    (hlen : done.length + ds.length = 4)
    (h : (matchDigits 16 (Json.text (ds.drop k) ++ t)).isSome = true) (l : StrLit) (rest : Text) :
    Json.lexFrom (.hex l done) (maskCards (Json.text ds ++ t) ++ rest) = none := by
  induction ds generalizing done k with
  | nil => exact absurd hk (Nat.not_lt_zero k)
  | cons c ds ih =>
    rw [Json.text, List.map_cons, ← Json.text, List.cons_append]
    cases hmatch : maskedCard (.char c :: (Json.text ds ++ t)) with
    | some p =>
      obtain ⟨out, rest'⟩ := p
      have hout : ∃ o, out = .char '*' :: o := by
        obtain ⟨⟨es, u⟩, -, heq⟩ := Option.map_eq_some_iff.mp hmatch
        cases heq
        exact ⟨_, rfl⟩
      obtain ⟨o, rfl⟩ := hout
      rw [maskCards_of_some hmatch]
      exact lexFrom_eq_none (nextMode_hex_star l done) _
    | none =>
      rw [maskCards_of_none hmatch, List.cons_append]
      rcases k with _ | k
      · rw [Option.isSome_iff_ne_none] at h
        exact absurd (Option.map_eq_none_iff.mp hmatch) h
      · have hk' : k < ds.length := Nat.lt_of_succ_lt_succ hk
        rw [List.length_cons] at hlen
        have hnext := nextMode_hex (l := l) (c := c) (show done.length < 3 by omega)
        by_cases hhex : Json.isHex c = true
        · rw [if_pos hhex] at hnext
          rw [Json.lexFrom_cons hnext, ih hk' (by rw [List.length_append]; simp; omega) h]
          rfl
        · rw [if_neg hhex] at hnext
          exact lexFrom_eq_none hnext _

/-- What masking leaves of a literal: a literal, unless an escape is cut. -/
theorem maskCards_content (s : StrLit) :
    (cutsEscape s = true → ∀ l rest,
      Json.lexFrom (.body l) (maskCards s.content ++ rest) = none) ∧
    (cutsEscape s = false → ∃ s', StrLit.content s' = maskCards s.content ∧
      (s' = s ∨ Starred s s')) := by
  induction hn : s.length using Nat.strong_induction_on generalizing s with
  | h n ih =>
    rcases s with _ | ⟨i, s⟩
    · exact ⟨nofun, fun _ => ⟨[], rfl, Or.inl rfl⟩⟩
    · have hs := ih s.length (hn ▸ Nat.lt_succ_self _) s rfl
      have hcontent : StrLit.content (i :: s) = i.text ++ StrLit.content s := List.flatMap_cons
      -- an item that is passed as it stands
      have hpass (hmask : maskCards (StrLit.content (i :: s)) = i.text ++ maskCards (StrLit.content s))
          (hcuts : cutsEscape (i :: s) = cutsEscape s) :
          (cutsEscape (i :: s) = true → ∀ l rest,
            Json.lexFrom (.body l) (maskCards (StrLit.content (i :: s)) ++ rest) = none) ∧
          (cutsEscape (i :: s) = false → ∃ s', StrLit.content s' = maskCards (StrLit.content (i :: s)) ∧
            (s' = i :: s ∨ Starred (i :: s) s')) := by
        rw [hcuts, hmask]
        refine ⟨fun hc l rest => ?_, fun hc => ?_⟩
        · rw [List.append_assoc, Json.lexFrom_item, hs.1 hc]
        · obtain ⟨s', heq, hs'⟩ := hs.2 hc
          refine ⟨i :: s', ?_, ?_⟩
          · rw [← heq]
            exact List.flatMap_cons
          · rcases hs' with rfl | hstarred
            · exact Or.inl rfl
            · exact Or.inr (hstarred.cons i)
      cases i with
      | plain r hr =>
        cases hmatch : maskedCard (StrLit.content (.plain r hr :: s)) with
        | none =>
          refine hpass ?_ rfl
          rw [hcontent] at hmatch ⊢
          exact maskCards_of_none hmatch
        | some p =>
          obtain ⟨c, hplain, t, o, hi, hdigit, hrest, hout, hlen, hcuts⟩ := exists_match hmatch
          have ht := ih t.length (by rw [← hn, List.length_cons]; omega) t rfl
          rw [maskCards_of_some hmatch, hcuts, ← hrest, ← hout]
          refine ⟨fun hc l rest => ?_, fun hc => ?_⟩
          · rw [List.append_assoc, lexFrom_items, ht.1 hc]
          · obtain ⟨s', heq, -⟩ := ht.2 hc
            refine ⟨List.replicate 12 starItem ++ (o ++ s'), ?_, Or.inr ?_⟩
            · rw [← heq, ← content_append, List.append_assoc]
            · exact ⟨[], c, hplain, s, o ++ s', by rw [hi]; rfl, rfl, hdigit⟩
      | escape c hc =>
        refine hpass ?_ rfl
        rw [hcontent, maskCards_escape]
      | unicode a b c d hc =>
        have hmask : maskCards (StrLit.content (.unicode a b c d hc :: s)) =
            .char '\\' :: .char 'u' ::
              maskCards (Json.text [a, b, c, d] ++ StrLit.content s) := by
          rw [hcontent]
          exact maskCards_append_of_no_digit (t := [.char '\\', .char 'u']) (by decide) _
        by_cases hcut : ([0, 1, 2, 3].any fun k =>
            (matchDigits 16 (Json.text ([a, b, c, d].drop k) ++ StrLit.content s)).isSome) = true
        · refine ⟨fun _ l rest => ?_, fun hno => ?_⟩
          · obtain ⟨k, hk, hmatch⟩ := List.any_eq_true.mp hcut
            have hlt : k < [a, b, c, d].length := by
              simp only [List.mem_cons, List.not_mem_nil, or_false] at hk
              change k < 4
              omega
            have hu : Json.nextMode (.escape l) (.char 'u') = some ([], .hex l []) := rfl
            rw [hmask, List.cons_append, List.cons_append,
              Json.lexFrom_cons (Json.nextMode_body_backslash l), Json.lexFrom_cons hu,
              lexFrom_hex_none hlt rfl hmatch]
            rfl
          · rw [cutsEscape, hcut, Bool.true_or] at hno
            cases hno
        · refine hpass ?_ ?_
          · rw [hmask, maskCards_hex]
            · rfl
            · intro k hk
              by_contra hne
              refine hcut (List.any_eq_true.mpr ⟨k, ?_, Option.ne_none_iff_isSome.mp hne⟩)
              have hlt : k < 4 := hk
              interval_cases k <;> decide
          · rw [cutsEscape, (Bool.not_eq_true _).mp hcut, Bool.false_or]

theorem text_eq (s : StrLit) :
    StrLit.text s = quoteMark :: (StrLit.content s ++ quoteMark :: []) := rfl

theorem maskCards_text (s : StrLit) (t : Text) :
    maskCards (s.text ++ t) = quoteMark :: (maskCards s.content ++ quoteMark :: maskCards t) := by
  rw [text_eq, List.cons_append, maskCards_quote_cons, List.append_assoc, List.cons_append,
    List.nil_append, maskCards_append (by rfl), maskCards_quote_cons]

/-- A safe literal is left as one. -/
theorem content_maskLit {s : StrLit} (h : cutsEscape s = false) :
    (maskLit s).content = maskCards s.content ∧ (maskLit s = s ∨ Starred s (maskLit s)) := by
  obtain ⟨s', heq, hs'⟩ := (maskCards_content s).2 h
  have htext : maskCards s.text = s'.text := by
    have hmask := maskCards_text s []
    rw [List.append_nil] at hmask
    rw [hmask, text_eq, heq]
    rfl
  have hlex : Json.lex s'.text = some [.str s'] := by
    have hone : Json.lex (untokenize [.str s']) = some [.str s'] :=
      Json.lex_of_apart ⟨nofun, trivial⟩
    rwa [untokenize, List.flatMap_singleton] at hone
  have hlit : maskLit s = s' := by
    rw [maskLit, htext, hlex]
  rw [hlit]
  exact ⟨heq, hs'⟩

theorem Starred.digit_mem {s s' : StrLit} (h : Starred s s') :
    ∃ c ∈ Json.unquote s, GoText.isDigit c = true := by
  obtain ⟨l, c, hc, r, r', rfl, -, hdigit⟩ := h
  obtain ⟨x, hx⟩ := Json.exists_unquoteFrom l none
  exact ⟨c, by rw [Json.unquote, hx]; exact List.mem_append_right _ List.mem_cons_self, hdigit⟩

theorem unquote_stars (n : ℕ) (s : StrLit) :
    Json.unquote (List.replicate n starItem ++ s) = List.replicate n '*' ++ Json.unquote s := by
  induction n with
  | zero => rfl
  | succ n ih =>
    rw [List.replicate_succ, List.cons_append, List.replicate_succ, List.cons_append, ← ih]
    rfl

theorem Starred.exists_stars {s s' : StrLit} (h : Starred s s') :
    ∃ x y, Json.unquote s' = x ++ (List.replicate 12 '*' ++ y) ∧
      Json.unquote s ≠ Json.unquote s' := by
  obtain ⟨l, c, hc, r, r', rfl, rfl, hdigit⟩ := h
  obtain ⟨x, hx⟩ := Json.exists_unquoteFrom l none
  have hstars : Json.unquote (l ++ (List.replicate 12 starItem ++ r')) =
      x ++ (List.replicate 12 '*' ++ Json.unquote r') := by
    rw [← unquote_stars]
    exact hx _ _ _
  refine ⟨x, _, hstars, fun heq => ?_⟩
  rw [hstars, Json.unquote, hx, List.append_cancel_left_eq] at heq
  have hstar : c = '*' := (List.cons.inj heq).1
  rw [hstar] at hdigit
  revert hdigit
  decide

/-- A safe literal reads as before exactly when it has no sixteen digits. -/
theorem unquote_maskLit_iff {s : StrLit} (h : cutsEscape s = false) :
    Json.unquote (maskLit s) = Json.unquote s ↔ hasCard s.content = false := by
  obtain ⟨hcontent, hcases⟩ := content_maskLit h
  rw [← maskCards_eq_self_iff, ← hcontent]
  constructor
  · intro heq
    rcases hcases with hself | hstarred
    · rw [hself]
    · obtain ⟨-, -, -, hne⟩ := hstarred.exists_stars
      exact absurd heq.symm hne
  · exact fun heq => congrArg Json.unquote (Json.content_injective heq)

/-! ## Documents -/

theorem maskCards_cons_of_not_digit {r : Rune} (hr : Rune.is GoText.isDigit r = false) (s : Text) :
    maskCards (r :: s) = r :: maskCards s := maskCards_of_none (maskedCard_of_not_digit hr s)

theorem not_isDigit_of_isWs {c : Char} (h : Json.isWs c = true) : GoText.isDigit c = false := by
  simp only [Json.isWs, Bool.or_eq_true, decide_eq_true_eq] at h
  rcases h with ((rfl | rfl) | rfl) | rfl <;> decide

/-- What stands after a number: no digits that go on with it. -/
theorem ends_of_delimits {ts : List Token} (h : ∀ u ∈ (squeeze ts).head?, u.delimits = true) :
    opensRun (untokenize ts) = false ∧ Json.EndsNum (maskCards (untokenize ts)) := by
  induction ts with
  | nil => exact ⟨rfl, Or.inl rfl⟩
  | cons t ts ih =>
    rw [Json.squeeze_cons] at h
    have hone {c : Char} (hgap : isCardGap c = false) (hdigit : GoText.isDigit c = false) (s : Text) :
        opensRun (.char c :: s) = false := by
      rw [opensRun, dropRunes, List.dropWhile_cons_of_neg (by simp [Rune.is, hgap])]
      exact hdigit
    cases t with
    | ws c hc =>
      have hdigit := not_isDigit_of_isWs hc
      constructor
      · by_cases hgap : isCardGap c = true
        · exact (congrArg (fun s : Text => s.head?.any _) (List.dropWhile_cons_of_pos hgap)).trans
            (ih h).1
        · exact hone ((Bool.not_eq_true _).mp hgap) hdigit _
      · have hmask : maskCards (untokenize (.ws c hc :: ts)) =
            .char c :: maskCards (untokenize ts) := maskCards_cons_of_not_digit (r := .char c) hdigit _
        exact Or.inr ⟨c, _, hmask, fun _ => Json.numNext_ws hc⟩
    | comma | rbrack | rbrace =>
      refine ⟨hone (by decide) (by decide) _, Or.inr ⟨_, _,
        maskCards_cons_of_not_digit (by decide) _, fun _ => Json.numNext_delimiter (by decide)⟩⟩
    | lbrace | lbrack | colon | word | num | str => cases h _ rfl

theorem not_isDigit_of_other {t : Token} (hstr : ∀ s, t ≠ .str s) (hnum : t.isNum = false) :
    ∀ r ∈ t.text, Rune.is GoText.isDigit r = false := by
  cases t with
  | ws c h =>
    intro r hr
    cases List.mem_singleton.mp hr
    exact not_isDigit_of_isWs h
  | lbrace | rbrace | lbrack | rbrack | comma | colon =>
    intro r hr
    cases List.mem_singleton.mp hr
    decide
  | word w => cases w <;> decide
  | num n => cases hnum
  | str s => exact absurd rfl (hstr s)

theorem lex_append_of_star {x y : Text} (hx : quoteMark ∉ x) (hstar : Rune.char '*' ∈ x) :
    Json.lex (x ++ y) = none := by
  rw [Option.eq_none_iff_forall_ne_some]
  intro ts h
  have hside := Json.side_lex h
  rw [Side.run_append] at hside
  obtain ⟨d, hrun, -⟩ := Option.bind_eq_some_iff.mp hside
  exact absurd ((Json.bare_of_run_out hx hrun).2 _ hstar) (by decide)

/-- The pass over a document, token by token. -/
theorem lex_maskCards {ts : List Token} (h : Json.Spaced (squeeze ts)) :
    Json.lex (maskCards (untokenize ts)) =
      if ts.all isSafe then some (ts.map (Token.mapStr maskLit)) else none := by
  induction ts with
  | nil => rfl
  | cons t ts ih =>
    have hrest : Json.Spaced (squeeze ts) := by
      rw [Json.squeeze_cons] at h
      split_ifs at h
      · exact h
      · exact h.tail
    -- once the first token is read, the others are read as before
    have hgo {t' : Token} (hsafe : isSafe t = true) (ht' : Token.mapStr maskLit t = t')
        (hread : Json.lex (maskCards (untokenize (t :: ts))) =
          (Json.lex (maskCards (untokenize ts))).map fun us => t' :: us) :
        Json.lex (maskCards (untokenize (t :: ts))) =
          if (t :: ts).all isSafe then some ((t :: ts).map (Token.mapStr maskLit)) else none := by
      rw [hread, ih hrest, List.all_cons, hsafe, Bool.true_and, List.map_cons, ht']
      split_ifs <;> rfl
    by_cases hstr : ∃ s, t = .str s
    · obtain ⟨s, rfl⟩ := hstr
      have hmask := maskCards_text s (untokenize ts)
      have hbody : Json.lex (maskCards (untokenize (.str s :: ts))) = Json.lexFrom (.body [])
          (maskCards s.content ++ quoteMark :: maskCards (untokenize ts)) := by
        rw [untokenize, List.flatMap_cons, ← untokenize]
        refine (congrArg Json.lex hmask).trans ?_
        rw [Json.lex, Json.lexFrom_cons (show Json.nextMode .start quoteMark = _ from rfl)]
        exact Option.map_id'
      by_cases hcuts : cutsEscape s = true
      · rw [hbody, (maskCards_content s).1 hcuts, List.all_cons, isSafe, hcuts]
        rfl
      · have hsafe := (Bool.not_eq_true _).mp hcuts
        refine hgo (by rw [isSafe, hsafe]; rfl) rfl ?_
        rw [hbody, ← (content_maskLit hsafe).1]
        exact Json.lexFrom_str [] (maskLit s) _
    · have ht : ∀ s, t ≠ .str s := fun s heq => hstr ⟨s, heq⟩
      have hself : Token.mapStr maskLit t = t := by
        cases t with
        | str s => exact absurd rfl (ht s)
        | ws | lbrace | rbrace | lbrack | rbrack | comma | colon | word | num => rfl
      by_cases hnum : t.isNum = true
      · obtain ⟨n, rfl⟩ : ∃ n, t = .num n := by
          cases t with
          | num n => exact ⟨n, rfl⟩
          | ws | lbrace | rbrace | lbrack | rbrack | comma | colon | word | str => cases hnum
        have hdelimits : ∀ u ∈ (squeeze ts).head?, u.delimits = true := fun u hu => by
          obtain ⟨us, hus⟩ := List.head?_eq_some_iff.mp hu
          rw [Json.squeeze_cons, if_neg (show ¬Token.isWs (.num n) = true from Bool.false_ne_true), hus] at h
          exact h.1 rfl
        have hends := ends_of_delimits hdelimits
        have hmask : maskCards (untokenize (.num n :: ts)) =
            maskCards (Json.text n.raw) ++ maskCards (untokenize ts) := maskCards_append hends.1
        by_cases hcard : hasCard (Json.text n.raw) = true
        · have hquote : quoteMark ∉ Json.text n.raw := Token.quote_not_mem (t := .num n) (by simp)
          rcases maskCards_eq_or (Json.text n.raw) with heq | ⟨hstar, -⟩
          · rw [maskCards_eq_self_iff, hcard] at heq
            cases heq
          · rw [hmask, lex_append_of_star (fun hmem => ?_) hstar, List.all_cons, isSafe, hcard]
            · rfl
            · rcases mem_maskCards hmem with hmem | heq
              · exact hquote hmem
              · exact absurd heq (by decide)
        · have hsafe := (Bool.not_eq_true _).mp hcard
          refine hgo (by rw [isSafe, hsafe]; rfl) hself ?_
          rw [hmask, (maskCards_eq_self_iff _).mpr hsafe]
          exact Json.lexFrom_token (t := .num n) fun _ => hends.2
      · have hother := (Bool.not_eq_true _).mp hnum
        have hsafe : isSafe t = true := by
          cases t with
          | str s => exact absurd rfl (ht s)
          | num n => cases hother
          | ws | lbrace | rbrace | lbrack | rbrack | comma | colon | word => rfl
        refine hgo hsafe hself ?_
        rw [untokenize, List.flatMap_cons, ← untokenize,
          maskCards_append_of_no_digit (not_isDigit_of_other ht hother)]
        exact Json.lexFrom_token fun h => absurd h hnum

end BatAudit
