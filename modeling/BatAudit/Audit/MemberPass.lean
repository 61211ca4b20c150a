import BatAudit.Audit.Pieces
import BatAudit.Lib.Json.Members
import BatAudit.Lib.Json.Sides

/-!
# The members of a document under masking

A pass over the members works on the text. On a document that reads, it changes the strings that
are the values of its keys, unless such a string has a quote in it: then the pass takes the
escaped quote for the end of the value.
-/

namespace BatAudit

open Json (Text Rune Item StrLit Token Tree Side squeeze untokenize)

/-- The literal ends with one of the names between quotes. -/
def isKeyed (names : List String) (k : StrLit) : Bool :=
  isKeyPiece names ((pieces k.content).getLastD [])

def starsLit : StrLit := List.replicate 8 (.plain (.char '*') (Eq.refl true))

/-- What the value of a key becomes. -/
def maskValue (names : List String) (key : Option StrLit) (s : StrLit) : StrLit :=
  if key.any (isKeyed names) then starsLit else s

def maskMembers (names : List String) (v : Tree) : Tree := v.rewrite id (maskValue names) none

/-- A value that is masked up to a quote in it. -/
def isCut (names : List String) (m : StrLit × Tree) : Bool :=
  isKeyed names m.1 &&
    match m.2 with
    | .str s => decide (quoteMark ∈ s.content)
    | _ => false

/-! ## Tokens -/

def maskTokens (names : List String) : List Token → List Token
  | .str k :: .colon :: .str s :: ts =>
    if isKeyed names k then .str k :: .colon :: .str starsLit :: maskTokens names ts
    else .str k :: maskTokens names (.colon :: .str s :: ts)
  | t :: ts => t :: maskTokens names ts
  | [] => []

def hasCut (names : List String) : List Token → Bool
  | .str k :: .colon :: .str s :: ts =>
    if isKeyed names k then decide (quoteMark ∈ s.content) || hasCut names ts
    else hasCut names (.colon :: .str s :: ts)
  | _ :: ts => hasCut names ts
  | [] => false

section Tokens

variable {names : List String}

@[simp] theorem maskTokens_nil : maskTokens names [] = [] := rfl

@[simp] theorem hasCut_nil : hasCut names [] = false := rfl

@[simp] theorem maskTokens_keyed (k s : StrLit) (ts : List Token) :
    maskTokens names (.str k :: .colon :: .str s :: ts) =
      if isKeyed names k then .str k :: .colon :: .str starsLit :: maskTokens names ts
      else .str k :: maskTokens names (.colon :: .str s :: ts) := rfl

@[simp] theorem hasCut_keyed (k s : StrLit) (ts : List Token) :
    hasCut names (.str k :: .colon :: .str s :: ts) =
      if isKeyed names k then decide (quoteMark ∈ s.content) || hasCut names ts
      else hasCut names (.colon :: .str s :: ts) := rfl

/-- The first token begins no member whose value is a string. -/
def Lone (t : Token) (ts : List Token) : Prop :=
  ∀ k s us, t = .str k → ts ≠ .colon :: .str s :: us

theorem maskTokens_lone {t : Token} {ts : List Token} (h : Lone t ts) :
    maskTokens names (t :: ts) = t :: maskTokens names ts := by
  rw [maskTokens]
  exact h

theorem hasCut_lone {t : Token} {ts : List Token} (h : Lone t ts) :
    hasCut names (t :: ts) = hasCut names ts := by
  rw [hasCut]
  exact h

theorem maskTokens_cons {t : Token} (ht : ∀ k, t ≠ .str k) (ts : List Token) :
    maskTokens names (t :: ts) = t :: maskTokens names ts :=
  maskTokens_lone fun k _ _ heq _ => ht k heq

theorem hasCut_cons {t : Token} (ht : ∀ k, t ≠ .str k) (ts : List Token) :
    hasCut names (t :: ts) = hasCut names ts :=
  hasCut_lone fun k _ _ heq _ => ht k heq

/-- A string that is no masked key. -/
theorem maskTokens_skip {k : StrLit} {ts : List Token}
    (h : isKeyed names k = true → ∀ s us, ts ≠ .colon :: .str s :: us) :
    maskTokens names (.str k :: ts) = .str k :: maskTokens names ts := by
  by_cases hshape : ∃ s us, ts = .colon :: .str s :: us
  · obtain ⟨s, us, rfl⟩ := hshape
    rw [maskTokens_keyed, if_neg fun hkey => h hkey s us rfl]
  · exact maskTokens_lone fun _ s us _ heq => hshape ⟨s, us, heq⟩

theorem hasCut_skip {k : StrLit} {ts : List Token}
    (h : isKeyed names k = true → ∀ s us, ts ≠ .colon :: .str s :: us) :
    hasCut names (.str k :: ts) = hasCut names ts := by
  by_cases hshape : ∃ s us, ts = .colon :: .str s :: us
  · obtain ⟨s, us, rfl⟩ := hshape
    rw [hasCut_keyed, if_neg fun hkey => h hkey s us rfl]
  · exact hasCut_lone fun _ s us _ heq => hshape ⟨s, us, heq⟩

theorem ne_of_head? {ts : List Token} (h : ts.head? ≠ some .colon) (s : StrLit) (us : List Token) :
    ts ≠ .colon :: .str s :: us := by
  rintro rfl
  exact h rfl

theorem maskTokens_str {ts : List Token} (h : ts.head? ≠ some .colon) (k : StrLit) :
    maskTokens names (.str k :: ts) = .str k :: maskTokens names ts :=
  maskTokens_skip fun _ => ne_of_head? h

theorem hasCut_str {ts : List Token} (h : ts.head? ≠ some .colon) (k : StrLit) :
    hasCut names (.str k :: ts) = hasCut names ts := hasCut_skip fun _ => ne_of_head? h

/-- A key, its colon and what does not begin with a string. -/
theorem maskTokens_key {t : Token} (ht : ∀ s, t ≠ .str s) (k : StrLit) (ts : List Token) :
    maskTokens names (.str k :: .colon :: t :: ts) =
      .str k :: .colon :: maskTokens names (t :: ts) := by
  rw [maskTokens_skip, maskTokens_cons (t := .colon) nofun]
  rintro - s us heq
  exact ht s (List.cons.inj (List.cons.inj heq).2).1

theorem hasCut_key {t : Token} (ht : ∀ s, t ≠ .str s) (k : StrLit) (ts : List Token) :
    hasCut names (.str k :: .colon :: t :: ts) = hasCut names (t :: ts) := by
  rw [hasCut_skip, hasCut_cons (t := .colon) nofun]
  rintro - s us heq
  exact ht s (List.cons.inj (List.cons.inj heq).2).1

theorem maskTokens_pair {ts : List Token} (h : ts.head? ≠ some .colon) (k s : StrLit) :
    maskTokens names (.str k :: .colon :: .str s :: ts) =
      .str k :: .colon :: .str (maskValue names (some k) s) :: maskTokens names ts := by
  rw [maskTokens_keyed, maskValue, Option.any_some]
  split_ifs
  · rfl
  · rw [maskTokens_cons (t := .colon) nofun, maskTokens_str h]

theorem hasCut_pair {ts : List Token} (h : ts.head? ≠ some .colon) (k s : StrLit) :
    hasCut names (.str k :: .colon :: .str s :: ts) =
      (isCut names (k, .str s) || hasCut names ts) := by
  rw [hasCut_keyed, isCut]
  split_ifs with hkey
  · rw [hkey, Bool.true_and]
  · rw [(Bool.not_eq_true _).mp hkey, Bool.false_and, Bool.false_or,
      hasCut_cons (t := .colon) nofun, hasCut_str h]

end Tokens

section Tree

variable {names : List String}

/-- A value begins with a token that is no colon, and with a string only if it is one. -/
theorem tokens_cases (v : Tree) :
    (∃ s, v = .str s) ∨ ∃ t ts, v.tokens = t :: ts ∧ t ≠ .colon ∧ ∀ s, t ≠ .str s := by
  cases v with
  | str s => exact Or.inl ⟨s, rfl⟩
  | word w => exact Or.inr ⟨.word w, [], rfl, nofun, nofun⟩
  | num n => exact Or.inr ⟨.num n, [], rfl, nofun, nofun⟩
  | arr items => exact Or.inr ⟨.lbrack, _, rfl, nofun, nofun⟩
  | obj members => exact Or.inr ⟨.lbrace, _, rfl, nofun, nofun⟩

theorem rewrite_some {k : StrLit} {g : Option StrLit → StrLit → StrLit} {v : Tree}
    (h : ∀ s, v ≠ .str s) : v.rewrite id g (some k) = v.rewrite id g none := by
  cases v with
  | str s => exact absurd rfl (h s)
  | word | num | arr | obj => rfl

theorem head?_moreItems (vs : List Tree) (rest : List Token) :
    (Json.moreItems vs ++ .rbrack :: rest).head? ≠ some .colon := by
  cases vs <;> exact nofun

theorem head?_moreMembers (ms : List (StrLit × Tree)) (rest : List Token) :
    (Json.moreMembers ms ++ .rbrace :: rest).head? ≠ some .colon := by
  cases ms <;> exact nofun

mutual

theorem maskTokens_tree (v : Tree) {rest : List Token} (hrest : rest.head? ≠ some .colon) :
    maskTokens names (v.tokens ++ rest) =
      (v.rewrite id (maskValue names) none).tokens ++ maskTokens names rest := by
  cases v with
  | word w => exact maskTokens_cons (by nofun) rest
  | num n => exact maskTokens_cons (by nofun) rest
  | str s => exact maskTokens_str hrest s
  | arr items =>
    have hitems := maskTokens_items items rest
    simp only [Tree.rewrite, Tree.tokens, List.cons_append, List.append_assoc, List.nil_append]
    rw [maskTokens_cons (by nofun), hitems]
  | obj members =>
    have hmembers := maskTokens_members members rest
    simp only [Tree.rewrite, Tree.tokens, List.cons_append, List.append_assoc, List.nil_append]
    rw [maskTokens_cons (by nofun), hmembers]

theorem maskTokens_items (vs : List Tree) (rest : List Token) :
    maskTokens names (Json.itemTokens vs ++ .rbrack :: rest) =
      Json.itemTokens (Json.itemsRewrite id (maskValue names) vs) ++
        .rbrack :: maskTokens names rest := by
  cases vs with
  | nil => exact maskTokens_cons (by nofun) rest
  | cons v vs =>
    simp only [Json.itemTokens, Json.itemsRewrite, List.append_assoc]
    rw [maskTokens_tree v (head?_moreItems vs rest), maskTokens_moreItems vs rest]

theorem maskTokens_moreItems (vs : List Tree) (rest : List Token) :
    maskTokens names (Json.moreItems vs ++ .rbrack :: rest) =
      Json.moreItems (Json.itemsRewrite id (maskValue names) vs) ++
        .rbrack :: maskTokens names rest := by
  cases vs with
  | nil => exact maskTokens_cons (by nofun) rest
  | cons v vs =>
    simp only [Json.moreItems, Json.itemsRewrite, List.cons_append, List.append_assoc]
    rw [maskTokens_cons (by nofun), maskTokens_tree v (head?_moreItems vs rest),
      maskTokens_moreItems vs rest]

theorem maskTokens_members (ms : List (StrLit × Tree)) (rest : List Token) :
    maskTokens names (Json.memberTokens ms ++ .rbrace :: rest) =
      Json.memberTokens (Json.membersRewrite id (maskValue names) ms) ++
        .rbrace :: maskTokens names rest := by
  cases ms with
  | nil => exact maskTokens_cons (by nofun) rest
  | cons m ms =>
    simp only [Json.memberTokens, Json.membersRewrite, List.append_assoc]
    rw [maskTokens_member m (head?_moreMembers ms rest), maskTokens_moreMembers ms rest]

theorem maskTokens_moreMembers (ms : List (StrLit × Tree)) (rest : List Token) :
    maskTokens names (Json.moreMembers ms ++ .rbrace :: rest) =
      Json.moreMembers (Json.membersRewrite id (maskValue names) ms) ++
        .rbrace :: maskTokens names rest := by
  cases ms with
  | nil => exact maskTokens_cons (by nofun) rest
  | cons m ms =>
    simp only [Json.moreMembers, Json.membersRewrite, List.cons_append, List.append_assoc]
    rw [maskTokens_cons (by nofun), maskTokens_member m (head?_moreMembers ms rest),
      maskTokens_moreMembers ms rest]

theorem maskTokens_member (m : StrLit × Tree) {rest : List Token}
    (hrest : rest.head? ≠ some .colon) :
    maskTokens names (Json.pairTokens m ++ rest) =
      Json.pairTokens (Json.pairRewrite id (maskValue names) m) ++ maskTokens names rest := by
  obtain ⟨k, v⟩ := m
  have hv := maskTokens_tree v hrest
  simp only [Json.pairTokens, Json.pairRewrite, id, List.cons_append]
  rcases tokens_cases v with ⟨s, rfl⟩ | ⟨t, ts, htokens, -, ht⟩
  · exact maskTokens_pair hrest k s
  · have hother : ∀ s, v ≠ .str s := by
      rintro s rfl
      cases htokens
      exact ht s rfl
    rw [htokens, List.cons_append] at hv ⊢
    rw [maskTokens_key ht, hv, rewrite_some hother]

end

mutual

theorem hasCut_tree (v : Tree) {rest : List Token} (hrest : rest.head? ≠ some .colon) :
    hasCut names (v.tokens ++ rest) = (v.allMembers.any (isCut names) || hasCut names rest) := by
  cases v with
  | word w => exact hasCut_cons (by nofun) rest
  | num n => exact hasCut_cons (by nofun) rest
  | str s => exact hasCut_str hrest s
  | arr items =>
    have hitems := hasCut_items items rest
    simp only [Tree.allMembers, Tree.tokens, List.cons_append, List.append_assoc, List.nil_append]
    rw [hasCut_cons (by nofun), hitems]
  | obj members =>
    have hmembers := hasCut_members members rest
    simp only [Tree.allMembers, Tree.tokens, List.cons_append, List.append_assoc, List.nil_append]
    rw [hasCut_cons (by nofun), hmembers]

theorem hasCut_items (vs : List Tree) (rest : List Token) :
    hasCut names (Json.itemTokens vs ++ .rbrack :: rest) =
      ((Json.itemsMembers vs).any (isCut names) || hasCut names rest) := by
  cases vs with
  | nil => exact hasCut_cons (by nofun) rest
  | cons v vs =>
    simp only [Json.itemTokens, Json.itemsMembers, List.append_assoc, List.any_append]
    rw [hasCut_tree v (head?_moreItems vs rest), hasCut_moreItems vs rest, Bool.or_assoc]

theorem hasCut_moreItems (vs : List Tree) (rest : List Token) :
    hasCut names (Json.moreItems vs ++ .rbrack :: rest) =
      ((Json.itemsMembers vs).any (isCut names) || hasCut names rest) := by
  cases vs with
  | nil => exact hasCut_cons (by nofun) rest
  | cons v vs =>
    simp only [Json.moreItems, Json.itemsMembers, List.cons_append, List.append_assoc,
      List.any_append]
    rw [hasCut_cons (by nofun), hasCut_tree v (head?_moreItems vs rest), hasCut_moreItems vs rest,
      Bool.or_assoc]

theorem hasCut_members (ms : List (StrLit × Tree)) (rest : List Token) :
    hasCut names (Json.memberTokens ms ++ .rbrace :: rest) =
      ((Json.membersMembers ms).any (isCut names) || hasCut names rest) := by
  cases ms with
  | nil => exact hasCut_cons (by nofun) rest
  | cons m ms =>
    simp only [Json.memberTokens, Json.membersMembers, List.append_assoc, List.any_append,
      List.any_cons]
    rw [hasCut_member m (head?_moreMembers ms rest), hasCut_moreMembers ms rest, Bool.or_assoc,
      Bool.or_assoc]

theorem hasCut_moreMembers (ms : List (StrLit × Tree)) (rest : List Token) :
    hasCut names (Json.moreMembers ms ++ .rbrace :: rest) =
      ((Json.membersMembers ms).any (isCut names) || hasCut names rest) := by
  cases ms with
  | nil => exact hasCut_cons (by nofun) rest
  | cons m ms =>
    simp only [Json.moreMembers, Json.membersMembers, List.cons_append, List.append_assoc,
      List.any_append, List.any_cons]
    rw [hasCut_cons (by nofun), hasCut_member m (head?_moreMembers ms rest),
      hasCut_moreMembers ms rest, Bool.or_assoc, Bool.or_assoc]

theorem hasCut_member (m : StrLit × Tree) {rest : List Token} (hrest : rest.head? ≠ some .colon) :
    hasCut names (Json.pairTokens m ++ rest) =
      (isCut names m || ((Json.pairMembers m).any (isCut names) || hasCut names rest)) := by
  obtain ⟨k, v⟩ := m
  have hv := hasCut_tree v hrest
  simp only [Json.pairTokens, Json.pairMembers, List.cons_append]
  rcases tokens_cases v with ⟨s, rfl⟩ | ⟨t, ts, htokens, -, ht⟩
  · exact hasCut_pair hrest k s
  · have hother : isCut names (k, v) = false := by
      cases v with
      | str s =>
        cases htokens
        exact absurd rfl (ht s)
      | word | num | arr | obj => exact Bool.and_false _
    rw [htokens, List.cons_append] at hv ⊢
    rw [hasCut_key ht, hv, hother, Bool.false_or]

end

theorem maskTokens_tokens (v : Tree) : maskTokens names v.tokens = (maskMembers names v).tokens := by
  have htree : maskTokens names (v.tokens ++ []) = _ := maskTokens_tree v nofun
  rwa [List.append_nil, maskTokens_nil, List.append_nil] at htree

theorem hasCut_tokens (v : Tree) : hasCut names v.tokens = v.allMembers.any (isCut names) := by
  have htree : hasCut names (v.tokens ++ []) = _ := hasCut_tree v nofun
  rwa [List.append_nil, hasCut_nil, Bool.or_false] at htree

end Tree

/-! ## Pieces of a document -/

section Pieces

variable {names : List String}

/-- What stands outside of strings spells no name. -/
def Distinct (names : List String) : Prop :=
  ∀ name ∈ names, ∃ c ∈ name.toList, c ∈ ['P', 'O', 'H', 'C']

theorem distinct_of_all
    (h : names.all (fun name => name.toList.any fun c => c ∈ ['P', 'O', 'H', 'C']) = true) :
    Distinct names := by
  intro name hname
  obtain ⟨c, hc, hmem⟩ := List.any_eq_true.mp (List.all_eq_true.mp h name hname)
  exact ⟨c, hc, of_decide_eq_true hmem⟩

theorem distinct_passwordNames : Distinct passwordNames := distinct_of_all (by decide)

theorem distinct_tokenNames : Distinct tokenNames := distinct_of_all (by decide)

theorem foldRune_of_isBare {c : Char} (h : Json.isBare c = true) :
    GoText.foldRune c ∉ ['P', 'O', 'H', 'C'] := by
  simp only [Json.isBare, Bool.or_eq_true, decide_eq_true_eq] at h
  rcases h with (h | h) | h
  · simp only [Json.isWs, Bool.or_eq_true, decide_eq_true_eq] at h
    rcases h with ((rfl | rfl) | rfl) | rfl <;> decide
  · rw [foldRune_of_isDigit h]
    intro hmem
    simp only [List.mem_cons, List.not_mem_nil, or_false] at hmem
    rcases hmem with rfl | rfl | rfl | rfl <;> revert h <;> decide
  · have hall : (['{', '}', '[', ']', ',', ':', '+', '-', '.', 'e', 'E', 't', 'r', 'u', 'f', 'a',
        'l', 's', 'n'].all fun c => GoText.foldRune c ∉ ['P', 'O', 'H', 'C']) = true := by decide
    exact of_decide_eq_true (List.all_eq_true.mp hall c h)

theorem exists_of_matchWord {w : List Char} {s name rest : Text}
    (h : matchWord w s = some (name, rest)) {c : Char} (hc : c ∈ w) :
    ∃ d, Rune.char d ∈ name ∧ GoText.foldRune d = c := by
  induction w generalizing s name with
  | nil => exact absurd hc List.not_mem_nil
  | cons c' w ih =>
    cases s with
    | nil => cases h
    | cons r s =>
      rw [matchWord] at h
      split_ifs at h with hfold
      obtain ⟨⟨name', rest'⟩, hmatch, heq⟩ := Option.map_eq_some_iff.mp h
      cases heq
      rcases List.mem_cons.mp hc with rfl | hc
      · obtain ⟨d, rfl, hd⟩ := exists_of_is hfold
        exact ⟨d, List.mem_cons_self, of_decide_eq_true hd⟩
      · obtain ⟨d, hd, hmem⟩ := ih hmatch hc
        exact ⟨d, List.mem_cons_of_mem r hd, hmem⟩

theorem not_isKeyPiece_of_bare (h : Distinct names) {p : Text} (hp : ∀ r ∈ p, r.isBare = true) :
    isKeyPiece names p = false := by
  rw [← Bool.not_eq_true]
  intro hkey
  obtain ⟨name, hname, hmatch⟩ := List.any_eq_true.mp hkey
  obtain ⟨c, hc, hmem⟩ := h name hname
  obtain ⟨d, hd, rfl⟩ := exists_of_matchWord (of_decide_eq_true hmatch) hc
  exact foldRune_of_isBare (hp _ hd) hmem

/-- A piece of a string that goes on behind an escaped quote. -/
def Escaping (p : Text) : Prop := Side.str.run p = some .esc

theorem Escaping.backslash_mem {p : Text} (h : Escaping p) (hp : quoteMark ∉ p) :
    Rune.char '\\' ∈ p := by
  by_contra hback
  rw [Escaping, Json.run_str_of_no_backslash hp hback] at h
  cases h

theorem not_isKeyPiece_of_escaping (h : PlainNames names) {p : Text} (hp : quoteMark ∉ p)
    (hescaping : Escaping p) : isKeyPiece names p = false := by
  rw [← Bool.not_eq_true]
  intro hkey
  obtain ⟨d, hd, hname⟩ := foldRune_mem_of_isKeyPiece h hkey (hescaping.backslash_mem hp)
  rw [← Rune.char.inj hd] at hname
  exact absurd hname (by decide)

/-- The pieces of a literal: each but the last ends with the backslash of an escaped quote. -/
structure LiteralPieces (ps : List Text) : Prop where
  ne_nil : ps ≠ []
  escaping : ∀ p ∈ ps.dropLast, Escaping p

theorem literalPieces_append {p : Text} (hp : quoteMark ∉ p) (hrun : Side.str.run p = some .str)
    (s : StrLit) : LiteralPieces (pieces (p ++ s.content)) := by
  induction s generalizing p with
  | nil =>
    rw [StrLit.content, List.flatMap_nil, List.append_nil, pieces_of_unquoted hp]
    exact ⟨List.cons_ne_nil _ _, fun _ hq => absurd hq List.not_mem_nil⟩
  | cons i s ih =>
    have hgo {t : Text} (hq : quoteMark ∉ t) (ht : Side.str.run t = some .str) :
        LiteralPieces (pieces (p ++ (t ++ StrLit.content s))) := by
      rw [← List.append_assoc]
      refine ih (fun hmem => ?_) ?_
      · rcases List.mem_append.mp hmem with hmem | hmem
        · exact hp hmem
        · exact hq hmem
      · rw [Side.run_append, hrun]
        exact ht
    rw [StrLit.content, List.flatMap_cons, ← StrLit.content]
    cases i with
    | plain r h =>
      have hquote : r ≠ quoteMark := by
        rintro rfl
        revert h
        decide
      have hback : r ≠ .char '\\' := by
        rintro rfl
        revert h
        decide
      refine hgo (t := [r]) (by simpa using Ne.symm hquote) ?_
      rw [Side.run, Side.next, if_neg hquote, if_neg hback]
      rfl
    | escape c h =>
      by_cases hc : c = '"'
      · subst hc
        have hpiece : quoteMark ∉ p ++ [.char '\\'] := by simpa using hp
        have hescaping : Escaping (p ++ [.char '\\']) := by
          rw [Escaping, Side.run_append, hrun]
          rfl
        have hrest : LiteralPieces (pieces (StrLit.content s)) := ih (p := []) List.not_mem_nil rfl
        have heq : p ++ (Item.text (.escape '"' h) ++ StrLit.content s) =
            (p ++ [.char '\\']) ++ quoteMark :: StrLit.content s := by simp [Item.text]
        rw [heq, pieces_append_quote, pieces_of_unquoted hpiece]
        refine ⟨List.cons_ne_nil _ _, fun q hq => ?_⟩
        rw [List.singleton_append, List.dropLast_cons_of_ne_nil hrest.ne_nil] at hq
        rcases List.mem_cons.mp hq with rfl | hq
        · exact hescaping
        · exact hrest.escaping q hq
      · refine hgo (t := [.char '\\', .char c]) ?_ rfl
        simpa using Ne.symm hc
    | unicode a b c d h =>
      have hquote {x : Char} (hx : Json.isHex x = true) : x ≠ '"' := by
        rintro rfl
        revert hx
        decide
      refine hgo (t := Item.text (.unicode a b c d h)) ?_ ?_
      · simp [Item.text, (hquote h.1).symm, (hquote h.2.1).symm, (hquote h.2.2.1).symm,
          (hquote h.2.2.2).symm]
      · change Side.str.run [.char a, .char b, .char c, .char d] = some .str
        rw [Json.run_str_of_isHex h.1, Json.run_str_of_isHex h.2.1, Json.run_str_of_isHex h.2.2.1,
          Json.run_str_of_isHex h.2.2.2]
        rfl

theorem literalPieces (s : StrLit) : LiteralPieces (pieces s.content) :=
  literalPieces_append List.not_mem_nil rfl s

/-! The first piece is not looked at, so that a pass is told by what it makes of the others. -/

def maskTail (names : List String) (ps : List Text) : List Text := (maskPieces names ([] :: ps)).tail

theorem maskPieces_eq_cons (p : Text) (ps : List Text) :
    maskPieces names (p :: ps) = p :: maskTail names ps := maskPieces_cons p [] ps

theorem maskTail_skip {q : Text} {ps : List Text} (h : startsMember names ([] :: q :: ps) = false) :
    maskTail names (q :: ps) = q :: maskTail names ps := by
  rw [maskTail, maskPieces_skip h, maskPieces_eq_cons]
  rfl

theorem startsMember_of_not_key {p q : Text} {ps : List Text} (h : isKeyPiece names q = false) :
    startsMember names (p :: q :: ps) = false := by
  rcases ps with _ | ⟨_, _ | ⟨_, _ | ⟨_, ps⟩⟩⟩ <;> simp [startsMember, h]

/-- The pieces of a literal before its last one hold no name. -/
theorem maskTail_append {qs : List Text} (h : ∀ q ∈ qs, isKeyPiece names q = false)
    (ps : List Text) : maskTail names (qs ++ ps) = qs ++ maskTail names ps := by
  induction qs with
  | nil => rfl
  | cons q qs ih =>
    obtain ⟨hq, hqs⟩ := List.forall_mem_cons.mp h
    rw [List.cons_append, maskTail_skip (startsMember_of_not_key hq), ih hqs, List.cons_append]

theorem maskTail_member {name colon value after : Text} {rest : List Text}
    (h : (isKeyPiece names name && isColonPiece colon) = true) :
    maskTail names (name :: colon :: value :: after :: rest) =
      name :: colonPiece :: mask 8 :: after :: maskTail names rest := by
  rw [maskTail, maskPieces, if_pos h, maskPieces_eq_cons]
  rfl

/-- A value is masked up to an escaped quote in it. -/
def CutTail (names : List String) (ps : List Text) : Prop :=
  ∃ i p, isValuePiece names ([] :: ps) (i + 1) = true ∧ ps[i]? = some p ∧ Escaping p

theorem CutTail.skip {q : Text} {ps : List Text} (h : startsMember names ([] :: q :: ps) = false)
    (hcut : CutTail names ps) : CutTail names (q :: ps) := by
  obtain ⟨i, p, hvalue, hp, hescaping⟩ := hcut
  refine ⟨i + 1, p, ?_, hp, hescaping⟩
  rw [isValuePiece_skip h, isValuePiece_cons q [], hvalue]

theorem CutTail.append {qs ps : List Text} (h : ∀ q ∈ qs, isKeyPiece names q = false)
    (hcut : CutTail names ps) : CutTail names (qs ++ ps) := by
  induction qs with
  | nil => exact hcut
  | cons q qs ih =>
    obtain ⟨hq, hqs⟩ := List.forall_mem_cons.mp h
    exact (ih hqs).skip (startsMember_of_not_key hq)

theorem CutTail.member {name colon value after : Text} {rest : List Text}
    (h : (isKeyPiece names name && isColonPiece colon) = true)
    (hcut : Escaping value ∨ CutTail names rest) :
    CutTail names (name :: colon :: value :: after :: rest) := by
  rcases hcut with hescaping | ⟨i, p, hvalue, hp, hescaping⟩
  · exact ⟨2, value, by rw [isValuePiece, if_pos h]; rfl, rfl, hescaping⟩
  · refine ⟨i + 4, p, ?_, hp, hescaping⟩
    rw [isValuePiece, if_pos h, isValuePiece_cons after []]
    simpa using hvalue

end Pieces

/-! ## A pass over a document -/

theorem pieces_cons {t : Token} (ht : ∀ s, t ≠ .str s) {ts : List Token} {h : Text}
    {tl : List Text} (hpieces : pieces (untokenize ts) = h :: tl) :
    pieces (untokenize (t :: ts)) = (t.text ++ h) :: tl :=
  pieces_append (Token.quote_not_mem ht) hpieces

theorem pieces_str (k : StrLit) (ts : List Token) :
    pieces (untokenize (.str k :: ts)) = [] :: (pieces k.content ++ pieces (untokenize ts)) := by
  have heq : untokenize (.str k :: ts) =
      [] ++ quoteMark :: (k.content ++ quoteMark :: untokenize ts) := by
    simp [untokenize, Token.text, StrLit.text, StrLit.content]
  rw [heq, pieces_append_quote, pieces_append_quote, pieces_nil]
  rfl

theorem isBlank_of_isWs {c : Char} (h : Json.isWs c = true) : isBlank c = true := by
  simp only [Json.isWs, Bool.or_eq_true, decide_eq_true_eq] at h
  rcases h with ((rfl | rfl) | rfl) | rfl <;> decide

theorem dropRunes_blank {c : Char} (h : isBlank c = true) (p : Text) :
    dropRunes isBlank (.char c :: p) = dropRunes isBlank p := List.dropWhile_cons_of_pos h

theorem isColonPiece_blank {c : Char} (h : isBlank c = true) (p : Text) :
    isColonPiece (.char c :: p) = isColonPiece p := by
  rw [isColonPiece, dropRunes_blank h, isColonPiece]

/-- A token that is no string, no white space and no colon does not begin like one. -/
theorem head_text {t : Token} (hstr : ∀ s, t ≠ .str s) (hws : t.isWs = false) (hcolon : t ≠ .colon) :
    ∃ c x, t.text = .char c :: x ∧ isBlank c = false ∧ c ≠ ':' := by
  cases t with
  | ws c h => cases hws
  | str s => exact absurd rfl (hstr s)
  | colon => exact absurd rfl hcolon
  | lbrace | rbrace | lbrack | rbrack | comma => exact ⟨_, _, rfl, by decide, by decide⟩
  | word w => cases w <;> exact ⟨_, _, rfl, by decide, by decide⟩
  | num n =>
    obtain ⟨raw, ok⟩ := n
    cases raw with
    | nil => cases ok
    | cons c raw =>
      obtain ⟨st', hrun, -⟩ := (Option.any_eq_true _ _).mp ok
      obtain ⟨st, hstart, -⟩ := Option.bind_eq_some_iff.mp hrun
      refine ⟨c, _, rfl, ?_⟩
      rcases Json.isDigit_or_of_numStart hstart with rfl | hdigit
      · decide
      · constructor
        · rw [← Bool.not_eq_true]
          intro hblank
          simp only [isBlank, Bool.or_eq_true, decide_eq_true_eq] at hblank
          rcases hblank with (((rfl | rfl) | rfl) | rfl) | rfl <;> revert hdigit <;> decide
        · rintro rfl
          revert hdigit
          decide

theorem squeeze_of_blank {ts : List Token} {h : Text} {tl : List Text}
    (hpieces : pieces (untokenize ts) = h :: tl) (hblank : dropRunes isBlank h = [])
    (htl : tl ≠ []) : ∃ s us, squeeze ts = .str s :: us := by
  induction ts generalizing h with
  | nil =>
    cases (pieces_nil.symm.trans hpieces)
    exact absurd rfl htl
  | cons t ts ih =>
    obtain ⟨h', tl', hrest⟩ := List.exists_cons_of_ne_nil (pieces_ne_nil (untokenize ts))
    by_cases hstr : ∃ s, t = .str s
    · obtain ⟨s, rfl⟩ := hstr
      exact ⟨s, squeeze ts, rfl⟩
    · have ht : ∀ s, t ≠ .str s := fun s heq => hstr ⟨s, heq⟩
      obtain ⟨rfl, rfl⟩ := List.cons.inj ((pieces_cons ht hrest).symm.trans hpieces)
      rw [Json.squeeze_cons]
      cases t with
      | ws c hc =>
        exact ih hrest ((dropRunes_blank (isBlank_of_isWs hc) h').symm.trans hblank)
      | colon => exact absurd hblank (by simp [Token.text, dropRunes, Rune.is, isBlank])
      | lbrace | rbrace | lbrack | rbrack | comma | word | num | str =>
        obtain ⟨c, x, htext, hc, -⟩ := head_text ht rfl (by simp)
        rw [htext, List.cons_append, dropRunes, List.dropWhile_cons_of_neg (by simp [Rune.is, hc])]
          at hblank
        cases hblank

/-- A colon between blanks, and a quote after them. -/
theorem squeeze_of_isColonPiece {ts : List Token} {h : Text} {tl : List Text}
    (hpieces : pieces (untokenize ts) = h :: tl) (hcolon : isColonPiece h = true) (htl : tl ≠ []) :
    ∃ s us, squeeze ts = .colon :: .str s :: us := by
  induction ts generalizing h with
  | nil =>
    cases (pieces_nil.symm.trans hpieces)
    exact absurd rfl htl
  | cons t ts ih =>
    obtain ⟨h', tl', hrest⟩ := List.exists_cons_of_ne_nil (pieces_ne_nil (untokenize ts))
    by_cases hstr : ∃ s, t = .str s
    · obtain ⟨s, rfl⟩ := hstr
      cases (pieces_str s ts).symm.trans hpieces
      cases hcolon
    · have ht : ∀ s, t ≠ .str s := fun s heq => hstr ⟨s, heq⟩
      obtain ⟨rfl, rfl⟩ := List.cons.inj ((pieces_cons ht hrest).symm.trans hpieces)
      rw [Json.squeeze_cons]
      cases t with
      | ws c hc => exact ih hrest ((isColonPiece_blank (isBlank_of_isWs hc) h').symm.trans hcolon)
      | colon =>
        obtain ⟨s, us, hus⟩ := squeeze_of_blank hrest (of_decide_eq_true hcolon) htl
        exact ⟨s, us, by rw [hus]; rfl⟩
      | lbrace | rbrace | lbrack | rbrack | comma | word | num | str =>
        obtain ⟨c, x, htext, hc, hne⟩ := head_text ht rfl (by simp)
        have hskip : dropRunes isBlank (.char c :: (x ++ h')) = .char c :: (x ++ h') :=
          List.dropWhile_cons_of_neg (by simp [Rune.is, hc])
        rw [htext, List.cons_append, isColonPiece, hskip, skipRune,
          if_neg fun heq => hne (Rune.char.inj heq)] at hcolon
        cases hcolon

theorem exists_blank_pieces {ts us : List Token} {s : StrLit} (h : squeeze ts = .str s :: us) :
    ∃ w rest, pieces (untokenize ts) = w :: (pieces s.content ++ pieces (untokenize rest)) ∧
      dropRunes isBlank w = [] ∧ squeeze rest = us ∧ rest.length < ts.length := by
  induction ts with
  | nil => cases h
  | cons t ts ih =>
    rw [Json.squeeze_cons] at h
    cases t with
    | ws c hc =>
      obtain ⟨w, rest, hpieces, hblank, hrest, hlen⟩ := ih h
      exact ⟨_, rest, pieces_cons (by nofun) hpieces,
        (dropRunes_blank (isBlank_of_isWs hc) w).trans hblank, hrest, hlen.trans (Nat.lt_succ_self _)⟩
    | str s' =>
      cases h
      exact ⟨[], ts, pieces_str _ ts, rfl, rfl, Nat.lt_succ_self _⟩
    | lbrace | rbrace | lbrack | rbrack | comma | colon | word | num => cases h

theorem exists_colon_pieces {ts us : List Token} {s : StrLit}
    (h : squeeze ts = .colon :: .str s :: us) :
    ∃ w rest, pieces (untokenize ts) = w :: (pieces s.content ++ pieces (untokenize rest)) ∧
      isColonPiece w = true ∧ squeeze rest = us ∧ rest.length < ts.length := by
  induction ts with
  | nil => cases h
  | cons t ts ih =>
    rw [Json.squeeze_cons] at h
    cases t with
    | ws c hc =>
      obtain ⟨w, rest, hpieces, hcolon, hrest, hlen⟩ := ih h
      exact ⟨_, rest, pieces_cons (by nofun) hpieces,
        (isColonPiece_blank (isBlank_of_isWs hc) w).trans hcolon, hrest,
        hlen.trans (Nat.lt_succ_self _)⟩
    | colon =>
      obtain ⟨w, rest, hpieces, hblank, hrest, hlen⟩ := exists_blank_pieces (List.cons.inj h).2
      exact ⟨_, rest, pieces_cons (by nofun) hpieces, decide_eq_true hblank, hrest,
        hlen.trans (Nat.lt_succ_self _)⟩
    | lbrace | rbrace | lbrack | rbrack | comma | word | num | str => cases h

/-- What a pass does to a document: it cuts a value, or masks the members. -/
structure Passed (names : List String) (ts : List Token) : Prop where
  cut : hasCut names (squeeze ts) = true →
    ∃ h tl, pieces (untokenize ts) = h :: tl ∧ CutTail names tl
  masked : hasCut names (squeeze ts) = false →
    ∃ ts', pieces (untokenize ts') = maskPieces names (pieces (untokenize ts)) ∧
      squeeze ts' = maskTokens names (squeeze ts)

section Pass

variable {names : List String}

theorem Passed.cons {t : Token} {ts : List Token} (ht : ∀ s, t ≠ .str s) (h : Passed names ts) :
    Passed names (t :: ts) := by
  have hcut : hasCut names (squeeze (t :: ts)) = hasCut names (squeeze ts) := by
    rw [Json.squeeze_cons]
    split_ifs
    · rfl
    · exact hasCut_cons ht _
  constructor
  · intro hc
    obtain ⟨p, tl, hpieces, htail⟩ := h.cut (hcut ▸ hc)
    exact ⟨_, tl, pieces_cons ht hpieces, htail⟩
  · intro hc
    obtain ⟨ts', hpieces, hsqueeze⟩ := h.masked (hcut ▸ hc)
    obtain ⟨p, tl, hrest⟩ := List.exists_cons_of_ne_nil (pieces_ne_nil (untokenize ts))
    rw [hrest, maskPieces_eq_cons] at hpieces
    refine ⟨t :: ts', ?_, ?_⟩
    · rw [pieces_cons ht hpieces, pieces_cons ht hrest, maskPieces_eq_cons]
    · rw [Json.squeeze_cons, Json.squeeze_cons, hsqueeze]
      split_ifs
      · rfl
      · exact (maskTokens_cons ht _).symm

theorem bare_head {ts : List Token} {h : Text} {tl : List Text}
    (hpieces : pieces (untokenize ts) = h :: tl) : ∀ r ∈ h, r.isBare = true := by
  induction ts generalizing h tl with
  | nil =>
    cases pieces_nil.symm.trans hpieces
    exact fun _ hr => absurd hr List.not_mem_nil
  | cons t ts ih =>
    by_cases hstr : ∃ s, t = .str s
    · obtain ⟨s, rfl⟩ := hstr
      cases (pieces_str s ts).symm.trans hpieces
      exact fun _ hr => absurd hr List.not_mem_nil
    · have ht : ∀ s, t ≠ .str s := fun s heq => hstr ⟨s, heq⟩
      obtain ⟨h', tl', hrest⟩ := List.exists_cons_of_ne_nil (pieces_ne_nil (untokenize ts))
      obtain ⟨rfl, rfl⟩ := List.cons.inj ((pieces_cons ht hrest).symm.trans hpieces)
      exact List.forall_mem_append.mpr ⟨Token.isBare ht, ih hrest⟩

/-- A literal in pieces: those before the last hold no name. -/
theorem exists_literal_pieces (hplain : PlainNames names) (k : StrLit) :
    ∃ qs last, pieces k.content = qs ++ [last] ∧ (∀ q ∈ qs, isKeyPiece names q = false) ∧
      isKeyed names k = isKeyPiece names last := by
  have hliteral := literalPieces k
  have hsplit := (List.dropLast_append_getLast (pieces_ne_nil k.content)).symm
  refine ⟨_, _, hsplit, fun q hq => ?_, ?_⟩
  · exact not_isKeyPiece_of_escaping hplain (unquoted_pieces _ q (List.mem_of_mem_dropLast hq))
      (hliteral.escaping q hq)
  · rw [isKeyed, List.getLastD_eq_getLast?, List.getLast?_eq_some_getLast (pieces_ne_nil _),
      Option.getD_some]

/-- A string that is not masked with what follows it. -/
theorem Passed.str (hplain : PlainNames names) (hdistinct : Distinct names) {k : StrLit}
    {ts : List Token} (h : Passed names ts)
    (hkey : isKeyed names k = true → ∀ s us, squeeze ts ≠ .colon :: .str s :: us) :
    Passed names (.str k :: ts) := by
  obtain ⟨qs, last, hk, hqs, hkeyed⟩ := exists_literal_pieces hplain k
  obtain ⟨p, tl, hrest⟩ := List.exists_cons_of_ne_nil (pieces_ne_nil (untokenize ts))
  have hpieces : pieces (untokenize (.str k :: ts)) = [] :: (qs ++ last :: p :: tl) := by
    rw [pieces_str, hk, hrest, List.append_assoc, List.singleton_append]
  have hp : startsMember names ([] :: p :: tl) = false :=
    startsMember_of_not_key (not_isKeyPiece_of_bare hdistinct (bare_head hrest))
  have hlast : startsMember names ([] :: last :: p :: tl) = false := by
    rw [← Bool.not_eq_true]
    intro hstarts
    match tl, hstarts with
    | _ :: _ :: _, hstarts =>
      obtain ⟨hname, hcolon⟩ := Bool.and_eq_true_iff.mp hstarts
      obtain ⟨s, us, hts⟩ := squeeze_of_isColonPiece hrest hcolon (List.cons_ne_nil _ _)
      exact hkey (hkeyed.trans hname) s us hts
  constructor
  · intro hc
    obtain ⟨p', tl', hrest', htail⟩ := h.cut (hasCut_skip hkey ▸ hc)
    obtain ⟨rfl, rfl⟩ := List.cons.inj (hrest'.symm.trans hrest)
    exact ⟨_, _, hpieces, .append hqs ((htail.skip hp).skip hlast)⟩
  · intro hc
    obtain ⟨ts', hmasked, hsqueeze⟩ := h.masked (hasCut_skip hkey ▸ hc)
    rw [hrest, maskPieces_eq_cons] at hmasked
    refine ⟨.str k :: ts', ?_, ?_⟩
    · rw [hpieces, maskPieces_eq_cons, maskTail_append hqs, maskTail_skip hlast, maskTail_skip hp,
        pieces_str, hk, hmasked, List.append_assoc, List.singleton_append]
    · exact (congrArg _ hsqueeze).trans (maskTokens_skip hkey).symm

/-- A member that is masked. -/
theorem Passed.member (hplain : PlainNames names) {k s : StrLit} {ts us : List Token}
    (hkey : isKeyed names k = true) (hts : squeeze ts = .colon :: .str s :: us)
    (h : ∀ rest, rest.length < ts.length → Passed names rest) : Passed names (.str k :: ts) := by
  obtain ⟨qs, last, hk, hqs, hkeyed⟩ := exists_literal_pieces hplain k
  obtain ⟨w, rest, hrest, hcolon, hus, hlen⟩ := exists_colon_pieces hts
  obtain ⟨after, tl, hafter⟩ := List.exists_cons_of_ne_nil (pieces_ne_nil (untokenize rest))
  have hmatch : (isKeyPiece names last && isColonPiece w) = true := by
    rw [← hkeyed, hkey, hcolon]
    rfl
  have hpieces : pieces (untokenize (.str k :: ts)) =
      [] :: (qs ++ last :: w :: (pieces s.content ++ after :: tl)) := by
    rw [pieces_str, hk, hrest, hafter, List.append_assoc, List.singleton_append]
  have hsqueeze : squeeze (.str k :: ts) = .str k :: .colon :: .str s :: squeeze rest := by
    rw [hus, ← hts]
    rfl
  by_cases hquote : quoteMark ∈ s.content
  · have hcut : hasCut names (squeeze (.str k :: ts)) = true := by
      rw [hsqueeze, hasCut, if_pos hkey, decide_eq_true hquote, Bool.true_or]
    refine ⟨fun _ => ⟨_, _, hpieces, .append hqs ?_⟩, fun hc => absurd hcut (by simp [hc])⟩
    have hliteral := literalPieces s
    match hvalue : pieces s.content, hliteral with
    | [v], _ =>
      have hunquoted := unquoted_pieces s.content v (hvalue ▸ List.mem_cons_self)
      have hjoin := joinPieces_pieces s.content
      rw [hvalue, joinPieces_singleton] at hjoin
      exact absurd (hjoin ▸ hquote) hunquoted
    | v :: b :: vs, hliteral =>
      exact .member hmatch (Or.inl (hliteral.escaping v List.mem_cons_self))
  · rw [pieces_of_unquoted hquote, List.singleton_append] at hpieces
    have hcut : hasCut names (squeeze (.str k :: ts)) = hasCut names (squeeze rest) := by
      rw [hsqueeze, hasCut, if_pos hkey, decide_eq_false hquote, Bool.false_or]
    constructor
    · intro hc
      obtain ⟨p', tl', hafter', htail⟩ := (h rest hlen).cut (hcut ▸ hc)
      obtain ⟨rfl, rfl⟩ := List.cons.inj (hafter'.symm.trans hafter)
      exact ⟨_, _, hpieces, .append hqs (.member hmatch (Or.inr htail))⟩
    · intro hc
      obtain ⟨ts', hmasked, hsqueeze'⟩ := (h rest hlen).masked (hcut ▸ hc)
      rw [hafter, maskPieces_eq_cons] at hmasked
      have hstars : pieces starsLit.content = [mask 8] := pieces_of_unquoted (by decide)
      refine ⟨.str k :: .colon :: .str starsLit :: ts', ?_, ?_⟩
      · rw [hpieces, maskPieces_eq_cons, maskTail_append hqs, maskTail_member hmatch, pieces_str,
          pieces_cons (by nofun) (pieces_str starsLit ts'), hmasked, hstars, hk, List.append_assoc,
          List.singleton_append, List.singleton_append]
        rfl
      · rw [hsqueeze, maskTokens, if_pos hkey, ← hsqueeze']
        rfl

theorem passed (hplain : PlainNames names) (hdistinct : Distinct names) (ts : List Token) :
    Passed names ts := by
  induction hn : ts.length using Nat.strong_induction_on generalizing ts with
  | h n ih =>
    rcases ts with _ | ⟨t, ts⟩
    · exact ⟨nofun, fun _ => ⟨[], rfl, rfl⟩⟩
    · have hrest : Passed names ts := ih ts.length (hn ▸ Nat.lt_succ_self _) ts rfl
      by_cases hstr : ∃ k, t = .str k
      · obtain ⟨k, rfl⟩ := hstr
        by_cases hmember : isKeyed names k = true ∧ ∃ s us, squeeze ts = .colon :: .str s :: us
        · obtain ⟨hkey, s, us, hts⟩ := hmember
          exact .member hplain hkey hts fun rest hlen =>
            ih rest.length (hn ▸ hlen.trans (Nat.lt_succ_self _)) rest rfl
        · exact hrest.str hplain hdistinct fun hkey s us hts => hmember ⟨hkey, s, us, hts⟩
      · exact hrest.cons fun s heq => hstr ⟨s, heq⟩

/-- A pass over a document without a cut value masks its members. -/
theorem parse_maskedMember (hplain : PlainNames names) (hdistinct : Distinct names) {s : Text}
    {v : Tree} (h : Json.parse s = some v) (hcut : v.allMembers.any (isCut names) = false) :
    Json.parse (replaceAll (maskedMember names) s) = some (maskMembers names v) := by
  obtain ⟨ts, rfl, hts⟩ := Json.parse_eq_some_iff.mp h
  obtain ⟨ts', hpieces, hsqueeze⟩ := (passed hplain hdistinct ts).masked (by
    rw [hts, hasCut_tokens, hcut])
  refine Json.parse_eq_some_iff.mpr ⟨ts', pieces_injective ?_, ?_⟩
  · rw [hpieces, replaceAll_maskedMember_pieces hplain]
  · rw [hsqueeze, hts, maskTokens_tokens]

/-- A cut value is a value piece that ends at an escaped quote. -/
theorem exists_cut (hplain : PlainNames names) (hdistinct : Distinct names) {s : Text}
    {v : Tree} (h : Json.parse s = some v) (hcut : v.allMembers.any (isCut names) = true) :
    ∃ i p, isValuePiece names (pieces s) i = true ∧ (pieces s)[i]? = some p ∧ Escaping p := by
  obtain ⟨ts, rfl, hts⟩ := Json.parse_eq_some_iff.mp h
  obtain ⟨p, tl, hpieces, i, q, hvalue, hq, hescaping⟩ := (passed hplain hdistinct ts).cut (by
    rw [hts, hasCut_tokens, hcut])
  refine ⟨i + 1, q, ?_, hpieces ▸ hq, hescaping⟩
  rw [hpieces, isValuePiece_cons p [], hvalue]

end Pass

end BatAudit
