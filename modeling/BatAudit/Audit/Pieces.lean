import BatAudit.Audit.Harmless

/-!
# Masking between quotes

The patterns see a text as the pieces between its quotes. A card number lies within one piece.
A member takes a name, a colon and a value, each of them a whole piece, and only the two pieces
after the name change.
-/

namespace BatAudit

open Json (Text Rune)

/-! ## Pieces -/

abbrev quoteMark : Rune := .char '"'

def pieces (s : Text) : List Text := s.splitOn quoteMark

def joinPieces (ps : List Text) : Text := [quoteMark].intercalate ps

/-- No piece has a quote. -/
def Unquoted (ps : List Text) : Prop := ∀ p ∈ ps, quoteMark ∉ p

theorem joinPieces_pieces (s : Text) : joinPieces (pieces s) = s := List.intercalate_splitOn _

theorem pieces_joinPieces {ps : List Text} (hps : Unquoted ps) (hne : ps ≠ []) :
    pieces (joinPieces ps) = ps := List.splitOn_intercalate quoteMark hps hne

theorem pieces_ne_nil (s : Text) : pieces s ≠ [] := List.splitOn_ne_nil _ _

theorem joinPieces_cons {ps : List Text} (p : Text) (hne : ps ≠ []) :
    joinPieces (p :: ps) = p ++ quoteMark :: joinPieces ps := by
  rw [joinPieces, List.intercalate_cons_of_ne_nil hne, List.append_assoc, List.singleton_append]
  rfl

theorem joinPieces_singleton (p : Text) : joinPieces [p] = p := List.intercalate_singleton

theorem unquoted_pieces (s : Text) : Unquoted (pieces s) := by
  intro p hp
  induction s generalizing p with
  | nil =>
    rw [pieces, List.splitOn_nil, List.mem_singleton] at hp
    exact hp ▸ List.not_mem_nil
  | cons r s ih =>
    have hsplit := List.splitOn_cons_eq_if_modifyHead (a := quoteMark) r s
    rw [pieces, hsplit] at hp
    split_ifs at hp with hr
    · rcases List.mem_cons.mp hp with rfl | hp
      · exact List.not_mem_nil
      · exact ih p hp
    · rw [pieces] at ih
      cases hrest : s.splitOn quoteMark with
      | nil => exact absurd hrest (List.splitOn_ne_nil _ _)
      | cons q qs =>
        rw [hrest] at hp ih
        rcases List.mem_cons.mp hp with rfl | hp
        · have hq := ih q List.mem_cons_self
          intro hmem
          rcases List.mem_cons.mp hmem with heq | hmem
          · exact hr (beq_iff_eq.mpr heq.symm)
          · exact hq hmem
        · exact ih p (List.mem_cons_of_mem q hp)

theorem unquoted_append {ps qs : List Text} :
    Unquoted (ps ++ qs) ↔ Unquoted ps ∧ Unquoted qs := List.forall_mem_append

theorem joinPieces_append_quote {ps qs : List Text} (hps : ps ≠ []) (hqs : qs ≠ []) :
    joinPieces (ps ++ qs) = joinPieces ps ++ quoteMark :: joinPieces qs := by
  induction ps with
  | nil => exact absurd rfl hps
  | cons p ps ih =>
    by_cases hnil : ps = []
    · subst hnil
      rw [List.singleton_append, joinPieces_cons p hqs, joinPieces_singleton]
    · rw [List.cons_append, joinPieces_cons p (by simp [hnil]), joinPieces_cons p hnil, ih hnil,
        List.append_assoc, List.cons_append]

theorem pieces_append_quote (s t : Text) :
    pieces (s ++ quoteMark :: t) = pieces s ++ pieces t := by
  have hjoin := joinPieces_append_quote (pieces_ne_nil s) (pieces_ne_nil t)
  rw [joinPieces_pieces, joinPieces_pieces] at hjoin
  rw [← hjoin, pieces_joinPieces]
  · exact unquoted_append.mpr ⟨unquoted_pieces s, unquoted_pieces t⟩
  · simp [pieces_ne_nil]

theorem pieces_append {s : Text} (hs : quoteMark ∉ s) {t p : Text} {ps : List Text}
    (ht : pieces t = p :: ps) : pieces (s ++ t) = (s ++ p) :: ps := by
  rw [pieces, GoText.splitOn_append hs, ← pieces, ht, List.modifyHead_cons]

theorem pieces_nil : pieces [] = [[]] := List.splitOn_nil _

theorem pieces_of_unquoted {s : Text} (hs : quoteMark ∉ s) : pieces s = [s] := by
  have happend := pieces_append hs pieces_nil
  rwa [List.append_nil] at happend

/-! ## Members -/

/-- The whole piece spells one of the names. -/
def isKeyPiece (names : List String) (p : Text) : Bool :=
  names.any fun name => matchWord name.toList p = some (p, [])

/-- `\s*:\s*` -/
def isColonPiece (p : Text) : Bool :=
  match skipRune ':' (dropRunes isBlank p) with
  | some s => dropRunes isBlank s = []
  | none => false

def colonPiece : Text := Json.text [':']

/-- The pieces after masking the members with these names. -/
def maskPieces (names : List String) : List Text → List Text
  | before :: name :: colon :: value :: after :: rest =>
    if isKeyPiece names name && isColonPiece colon then
      before :: name :: colonPiece :: mask 8 :: maskPieces names (after :: rest)
    else before :: maskPieces names (name :: colon :: value :: after :: rest)
  | ps => ps

/-- The `i`-th piece is the value of a member that is masked. -/
def isValuePiece (names : List String) : List Text → ℕ → Bool
  | _ :: name :: colon :: value :: after :: rest, i =>
    if isKeyPiece names name && isColonPiece colon then
      i = 3 || (4 ≤ i && isValuePiece names (after :: rest) (i - 4))
    else 1 ≤ i && isValuePiece names (name :: colon :: value :: after :: rest) (i - 1)
  | _, _ => false

section Match

variable {names : List String}

theorem matchWord_eq_some {w : List Char} {s name rest : Text}
    (h : matchWord w s = some (name, rest)) : s = name ++ rest ∧ name.length = w.length := by
  induction w generalizing s name with
  | nil =>
    cases h
    exact ⟨rfl, rfl⟩
  | cons c w ih =>
    cases s with
    | nil => cases h
    | cons r s =>
      rw [matchWord] at h
      split_ifs at h
      obtain ⟨⟨name', rest'⟩, hmatch, heq⟩ := Option.map_eq_some_iff.mp h
      cases heq
      obtain ⟨rfl, hlen⟩ := ih hmatch
      exact ⟨rfl, by rw [List.length_cons, List.length_cons, hlen]⟩

/-- A word without a quote ends before the next quote. -/
theorem matchWord_append {w : List Char} (hw : '"' ∉ w) (p s : Text) :
    matchWord w (p ++ quoteMark :: s) =
      (matchWord w p).map fun m => (m.1, m.2 ++ quoteMark :: s) := by
  induction w generalizing p with
  | nil => rfl
  | cons c w ih =>
    obtain ⟨hc, hw⟩ := not_or.mp (mt List.mem_cons.mpr hw)
    cases p with
    | nil =>
      have hfold : ¬Rune.is (fun d => GoText.foldRune d = c) quoteMark = true :=
        fun heq => hc (Eq.trans (by decide) (of_decide_eq_true heq))
      exact if_neg hfold
    | cons r p =>
      rw [List.cons_append, matchWord, matchWord, ih hw]
      split_ifs
      · cases matchWord w p <;> rfl
      · rfl

theorem skipRune_quote_append {p s t : Text} (hp : quoteMark ∉ p) :
    skipRune '"' (p ++ quoteMark :: s) = some t ↔ p = [] ∧ t = s := by
  cases p with
  | nil =>
    rw [List.nil_append, skipRune, if_pos rfl, Option.some.injEq]
    exact ⟨fun h => ⟨rfl, h.symm⟩, fun h => h.2.symm⟩
  | cons r p =>
    have hr : r ≠ .char '"' := fun heq => hp (List.mem_cons.mpr (Or.inl heq.symm))
    rw [List.cons_append, skipRune, if_neg hr]
    exact iff_of_false (by simp) (by simp)

theorem dropRunes_append_quote {q : Char → Bool} (hq : q '"' = false) (p s : Text) :
    dropRunes q (p ++ quoteMark :: s) = dropRunes q p ++ quoteMark :: s := by
  unfold dropRunes
  induction p with
  | nil => exact List.dropWhile_cons_of_neg (by simp [Rune.is, hq])
  | cons r p ih =>
    rw [List.cons_append, List.dropWhile_cons, List.dropWhile_cons, ih]
    split_ifs <;> rfl

theorem dropWhile_append_quote {p : Text} (hp : quoteMark ∉ p) (s : Text) :
    (p ++ quoteMark :: s).dropWhile (fun r => r ≠ .char '"') = quoteMark :: s := by
  induction p with
  | nil => exact List.dropWhile_cons_of_neg (by simp [quoteMark])
  | cons r p ih =>
    obtain ⟨hr, hp⟩ := not_or.mp (mt List.mem_cons.mpr hp)
    have hne : r ≠ .char '"' := Ne.symm hr
    rw [List.cons_append, List.dropWhile_cons_of_pos (by simp [hne]), ih hp]

theorem matchWord_cases {w : List Char} (hw : '"' ∉ w) {p : Text} (hp : quoteMark ∉ p) (s : Text) :
    (matchWord w (p ++ quoteMark :: s)).bind (fun m =>
      (skipRune '"' m.2).map fun s => (m.1, s)) =
      if matchWord w p = some (p, []) then some (p, s) else none := by
  rw [matchWord_append hw]
  cases hmatch : matchWord w p with
  | none => simp
  | some m =>
    obtain ⟨name, rest⟩ := m
    obtain ⟨heq, -⟩ := matchWord_eq_some hmatch
    have hrest : quoteMark ∉ rest := fun hmem => hp (heq ▸ List.mem_append_right name hmem)
    by_cases hnil : rest = []
    · subst hnil
      rw [List.append_nil] at heq
      simp [heq, skipRune]
    · have hskip : skipRune '"' (rest ++ quoteMark :: s) = none := by
        rw [Option.eq_none_iff_forall_ne_some]
        exact fun t ht => hnil ((skipRune_quote_append hrest).mp ht).1
      simp [hskip, hnil]

theorem findSome?_const {α β : Type*} {f : α → Option β} {c : α → Bool} {o : Option β}
    {l : List α} (h : ∀ a ∈ l, f a = if c a then o else none) :
    l.findSome? f = if l.any c then o else none := by
  induction l with
  | nil => rfl
  | cons a l ih =>
    have hrest := ih fun b hb => h b (List.mem_cons_of_mem a hb)
    rw [List.findSome?_cons, h a List.mem_cons_self, hrest, List.any_cons]
    by_cases hc : c a = true
    · rw [if_pos hc, hc, Bool.true_or, if_pos rfl]
      cases o with
      | some b => rfl
      | none =>
        simp only
        split_ifs <;> rfl
    · rw [if_neg hc, (Bool.not_eq_true _).mp hc, Bool.false_or]

/-- A key with its colon, from the quote on. -/
theorem matchKey_piece (hnames : ∀ name ∈ names, '"' ∉ name.toList) {p : Text}
    (hp : quoteMark ∉ p) (s : Text) :
    matchKey names (quoteMark :: (p ++ quoteMark :: s)) =
      if isKeyPiece names p then (skipRune ':' (dropRunes isBlank s)).map fun s => (p, s)
      else none := by
  rw [isKeyPiece]
  refine findSome?_const fun name hname => ?_
  have hcases := congrArg (fun o => o.bind fun m : Text × Text =>
    (skipRune ':' (dropRunes isBlank m.2)).map fun t => (m.1, t))
    (matchWord_cases (hnames name hname) hp s)
  simp only [decide_eq_true_eq]
  refine Eq.trans ?_ (hcases.trans ?_)
  · cases matchWord name.toList (p ++ quoteMark :: s) with
    | none => rfl
    | some m =>
      cases hskip : skipRune '"' m.2 with
      | none => simp [hskip]
      | some t => simp [hskip, Option.map_eq_bind]
  · split_ifs <;> rfl

/-- The last piece has no quote after it. -/
theorem matchKey_last {p : Text} (hp : quoteMark ∉ p) :
    matchKey names (quoteMark :: p) = none := by
  rw [Option.eq_none_iff_forall_ne_some]
  rintro ⟨name, rest⟩ h
  rw [matchKey, Option.bind_eq_bind] at h
  obtain ⟨t, ht, h⟩ := Option.bind_eq_some_iff.mp h
  obtain rfl : p = t := by simpa [skipRune] using ht
  obtain ⟨w, -, h⟩ := List.exists_of_findSome?_eq_some h
  obtain ⟨⟨name', s₁⟩, hword, h⟩ := Option.bind_eq_some_iff.mp h
  obtain ⟨s₂, hs₂, -⟩ := Option.bind_eq_some_iff.mp h
  obtain ⟨heq, -⟩ := matchWord_eq_some hword
  have hmem : quoteMark ∈ s₁ := eq_of_skipRune hs₂ ▸ List.mem_cons_self
  exact hp (heq ▸ List.mem_append_right name' hmem)

theorem skipRune_append {c : Char} (hc : c ≠ '"') (p s : Text) :
    skipRune c (p ++ quoteMark :: s) = (skipRune c p).map fun t => t ++ quoteMark :: s := by
  cases p with
  | nil =>
    have hne : quoteMark ≠ .char c := fun heq => hc (Rune.char.inj heq).symm
    exact if_neg hne
  | cons r p =>
    rw [List.cons_append, skipRune, skipRune]
    split_ifs <;> rfl

theorem skipRune_eq_none {c : Char} {s : Text} (h : Rune.char c ∉ s) : skipRune c s = none := by
  rw [Option.eq_none_iff_forall_ne_some]
  exact fun t ht => h (eq_of_skipRune ht ▸ List.mem_cons_self)

/-- What a member needs after its key. -/
def afterKey (s : Text) : Option Text := do
  let s ← skipRune ':' (dropRunes isBlank s)
  let s ← skipRune '"' (dropRunes isBlank s)
  skipRune '"' (s.dropWhile fun r => r ≠ .char '"')

theorem afterColon_piece {p : Text} (hp : quoteMark ∉ p) (s : Text) :
    ((skipRune ':' (dropRunes isBlank (p ++ quoteMark :: s))).bind fun t =>
      skipRune '"' (dropRunes isBlank t)) = if isColonPiece p then some s else none := by
  rw [dropRunes_append_quote (by decide), skipRune_append (by decide), isColonPiece]
  have hsuffix : (dropRunes isBlank p).Sublist p := (List.dropWhile_suffix _).sublist
  cases hskip : skipRune ':' (dropRunes isBlank p) with
  | none => rfl
  | some t =>
    have ht : t.Sublist p := (eq_of_skipRune hskip ▸ List.sublist_cons_self _ t).trans hsuffix
    have hrest : quoteMark ∉ dropRunes isBlank t := fun hmem =>
      hp (ht.subset ((List.dropWhile_suffix _).subset hmem))
    rw [Option.map_some, Option.bind_some, dropRunes_append_quote (by decide)]
    by_cases hnil : dropRunes isBlank t = []
    · simp [hnil, skipRune]
    · rw [Option.eq_none_iff_forall_ne_some.mpr fun u hu =>
        hnil ((skipRune_quote_append hrest).mp hu).1]
      simp [hnil]

theorem afterKey_pieces {colon value : Text} (hcolon : quoteMark ∉ colon)
    (hvalue : quoteMark ∉ value) (s : Text) :
    afterKey (colon ++ quoteMark :: (value ++ quoteMark :: s)) =
      if isColonPiece colon then some s else none := by
  have hafter := congrArg (fun o => o.bind fun t : Text =>
    skipRune '"' (t.dropWhile fun r => r ≠ .char '"'))
    (afterColon_piece hcolon (value ++ quoteMark :: s))
  refine Eq.trans ?_ (hafter.trans ?_)
  · rw [afterKey, Option.bind_eq_bind, Option.bind_assoc]
  · split_ifs
    · rw [Option.bind_some, dropWhile_append_quote hvalue]
      rfl
    · rfl

theorem afterKey_two {colon value : Text} (hcolon : quoteMark ∉ colon)
    (hvalue : quoteMark ∉ value) : afterKey (colon ++ quoteMark :: value) = none := by
  have hafter := congrArg (fun o => o.bind fun t : Text =>
    skipRune '"' (t.dropWhile fun r => r ≠ .char '"')) (afterColon_piece hcolon value)
  refine Eq.trans ?_ (hafter.trans ?_)
  · rw [afterKey, Option.bind_eq_bind, Option.bind_assoc]
  · split_ifs
    · exact skipRune_eq_none fun hmem => hvalue ((List.dropWhile_suffix _).subset hmem)
    · rfl

theorem afterKey_one {colon : Text} (hcolon : quoteMark ∉ colon) : afterKey colon = none := by
  rw [afterKey, Option.bind_eq_bind]
  cases hskip : skipRune ':' (dropRunes isBlank colon) with
  | none => rfl
  | some t =>
    have ht : t.Sublist colon := (eq_of_skipRune hskip ▸ List.sublist_cons_self _ t).trans
      (List.dropWhile_suffix _).sublist
    have hquote : skipRune '"' (dropRunes isBlank t) = none :=
      skipRune_eq_none fun hmem => hcolon (ht.subset ((List.dropWhile_suffix _).subset hmem))
    rw [Option.bind_some, hquote]
    rfl

theorem matchMember_eq (s : Text) :
    matchMember names s = (matchKey names s).bind fun m =>
      (skipRune '"' (dropRunes isBlank m.2)).bind fun t =>
        (skipRune '"' (t.dropWhile fun r => r ≠ .char '"')).map fun t => (m.1, t) := by
  rw [matchMember, Option.bind_eq_bind]
  refine congrArg (Option.bind _) (funext fun m => ?_)
  simp [Option.map_eq_bind]

theorem matchMember_piece (hnames : ∀ name ∈ names, '"' ∉ name.toList) {p : Text}
    (hp : quoteMark ∉ p) (s : Text) :
    matchMember names (quoteMark :: (p ++ quoteMark :: s)) =
      if isKeyPiece names p then (afterKey s).map fun s => (p, s) else none := by
  rw [matchMember_eq, matchKey_piece hnames hp, afterKey]
  split_ifs
  · cases skipRune ':' (dropRunes isBlank s) with
    | none => rfl
    | some t =>
      cases hskip : skipRune '"' (dropRunes isBlank t) with
      | none => simp [hskip]
      | some u => simp [hskip]
  · rfl

end Match

section Mask

variable {names : List String}

/-- What names are spelled with, in capitals. -/
def isNameLetter (c : Char) : Bool := ('A' ≤ c && c ≤ 'Z') || c = '-' || c = '_'

def PlainNames (names : List String) : Prop :=
  ∀ name ∈ names, ∀ c ∈ name.toList, isNameLetter c = true

theorem plainNames_of_all (h : names.all (fun name => name.toList.all isNameLetter) = true) :
    PlainNames names := fun name hname =>
  List.all_eq_true.mp (List.all_eq_true.mp h name hname)

theorem plain_passwordNames : PlainNames passwordNames := plainNames_of_all (by decide)

theorem plain_tokenNames : PlainNames tokenNames := plainNames_of_all (by decide)

theorem PlainNames.not_mem (h : PlainNames names) {c : Char} (hc : isNameLetter c = false) :
    ∀ name ∈ names, c ∉ name.toList := by
  intro name hname hmem
  rw [h name hname c hmem] at hc
  cases hc

theorem PlainNames.masks (h : PlainNames names) : Masks (maskedMember names) :=
  masks_maskedMember (h.not_mem (by decide))

theorem replaceFrom_append {m : Text → Option (Text × Text)} {p : Text}
    (h : ∀ r ∈ p, ∀ t, m (r :: t) = none) (s : Text) :
    replaceFrom m 0 (p ++ s) = p ++ replaceFrom m 0 s := by
  induction p with
  | nil => rfl
  | cons r p ih =>
    rw [List.cons_append, replaceFrom_of_none (h r List.mem_cons_self _),
      ih fun r' hr' => h r' (List.mem_cons_of_mem r hr'), List.cons_append]

theorem maskedMember_cons {r : Rune} (hr : r ≠ quoteMark) (t : Text) :
    maskedMember names (r :: t) = none := by
  have hkey : matchKey names (r :: t) = none := by
    rw [matchKey, skipRune, if_neg hr]
    rfl
  rw [maskedMember, matchMember_eq, hkey]
  rfl

theorem replaceFrom_piece {p : Text} (hp : quoteMark ∉ p) (s : Text) :
    replaceFrom (maskedMember names) 0 (p ++ s) = p ++ replaceFrom (maskedMember names) 0 s :=
  replaceFrom_append (fun _ hr t => maskedMember_cons (fun heq => hp (heq ▸ hr)) t) s

theorem maskedMember_pieces (h : PlainNames names) {name colon value : Text}
    (hname : quoteMark ∉ name) (hcolon : quoteMark ∉ colon) (hvalue : quoteMark ∉ value)
    (s : Text) :
    maskedMember names
        (quoteMark :: (name ++ quoteMark :: (colon ++ quoteMark :: (value ++ quoteMark :: s)))) =
      if isKeyPiece names name && isColonPiece colon then
        some (quoteMark :: (name ++ quoteMark :: (colonPiece ++ quoteMark ::
          (mask 8 ++ [quoteMark]))), s)
      else none := by
  rw [maskedMember, matchMember_piece (h.not_mem (by decide)) hname,
    afterKey_pieces hcolon hvalue]
  by_cases hkey : isKeyPiece names name = true
  · by_cases hcol : isColonPiece colon = true
    · simp [hkey, hcol, colonPiece, Json.text]
    · simp [hkey, hcol]
  · simp [hkey]

theorem maskedMember_few (h : PlainNames names) {ps : List Text} (hps : Unquoted ps)
    (hlen : ps.length ≤ 3) : maskedMember names (quoteMark :: joinPieces ps) = none := by
  have hquotes : ∀ n ∈ names, '"' ∉ n.toList := h.not_mem (by decide)
  have hnone {s : Text} (hs : matchMember names s = none) : maskedMember names s = none := by
    rw [maskedMember, hs]
    rfl
  apply hnone
  match ps, hps, hlen with
  | [], _, _ =>
    rw [matchMember_eq]
    exact Option.bind_eq_none_iff.mpr fun m hm => absurd hm (matchKey_last List.not_mem_nil ▸ nofun)
  | [name], hps, _ =>
    rw [joinPieces_singleton, matchMember_eq, matchKey_last (hps name List.mem_cons_self)]
    rfl
  | [name, colon], hps, _ =>
    rw [joinPieces_cons _ (List.cons_ne_nil _ _), joinPieces_singleton,
      matchMember_piece hquotes (hps name (by simp)), afterKey_one (hps colon (by simp))]
    split_ifs <;> rfl
  | [name, colon, value], hps, _ =>
    rw [joinPieces_cons _ (List.cons_ne_nil _ _), joinPieces_cons _ (List.cons_ne_nil _ _),
      joinPieces_singleton, matchMember_piece hquotes (hps name (by simp)),
      afterKey_two (hps colon (by simp)) (hps value (by simp))]
    split_ifs <;> rfl

theorem maskPieces_ne_nil {ps : List Text} (h : ps ≠ []) : maskPieces names ps ≠ [] := by
  unfold maskPieces
  split
  · split_ifs <;> exact List.cons_ne_nil _ _
  · exact h

theorem replaceAll_few (h : PlainNames names) {ps : List Text} (hps : Unquoted ps)
    (hlen : ps.length ≤ 4) : replaceAll (maskedMember names) (joinPieces ps) = joinPieces ps := by
  unfold replaceAll
  induction ps with
  | nil => rfl
  | cons p ps ih =>
    have hp := hps p List.mem_cons_self
    have hrest : Unquoted ps := fun q hq => hps q (List.mem_cons_of_mem p hq)
    by_cases hnil : ps = []
    · subst hnil
      have hone : replaceFrom (maskedMember names) 0 (p ++ []) =
          p ++ replaceFrom (maskedMember names) 0 [] := replaceFrom_piece hp []
      rw [List.append_nil] at hone
      rw [joinPieces_singleton, hone]
      exact List.append_nil p
    · have hlen' : ps.length ≤ 3 := Nat.le_of_succ_le_succ hlen
      rw [joinPieces_cons p hnil, replaceFrom_piece hp,
        replaceFrom_of_none (maskedMember_few h hrest hlen'), ih hrest (by omega)]

theorem unquoted_cons {p : Text} {ps : List Text} :
    Unquoted (p :: ps) ↔ quoteMark ∉ p ∧ Unquoted ps := List.forall_mem_cons

/-- Masking works on pieces. -/
theorem replaceAll_maskedMember (h : PlainNames names) {ps : List Text} (hps : Unquoted ps) :
    replaceAll (maskedMember names) (joinPieces ps) = joinPieces (maskPieces names ps) := by
  induction ps using maskPieces.induct names with
  | case1 before name colon value after rest hmatch ih =>
    obtain ⟨hbefore, hname, hcolon, hvalue, hrest⟩ : _ ∧ _ ∧ _ ∧ _ ∧ Unquoted (after :: rest) := by
      simpa only [unquoted_cons] using hps
    have hmasked := maskedMember_pieces h hname hcolon hvalue (joinPieces (after :: rest))
    rw [if_pos hmatch] at hmasked
    have hrec : replaceFrom (maskedMember names) 0 (joinPieces (after :: rest)) =
        joinPieces (maskPieces names (after :: rest)) := ih hrest
    rw [maskPieces, if_pos hmatch, replaceAll]
    simp only [joinPieces_cons _ (List.cons_ne_nil _ _),
      joinPieces_cons _ (maskPieces_ne_nil (List.cons_ne_nil _ _))]
    rw [replaceFrom_piece hbefore, replaceFrom_of_some h.masks hmasked, hrec]
    simp only [List.cons_append, List.append_assoc, List.nil_append]
  | case2 before name colon value after rest hmatch ih =>
    obtain ⟨hbefore, hrest⟩ := unquoted_cons.mp hps
    have hne : name :: colon :: value :: after :: rest ≠ [] := List.cons_ne_nil _ _
    have hmasked : maskedMember names (quoteMark :: joinPieces (name :: colon :: value :: after ::
        rest)) = none := by
      obtain ⟨hname, hcolon, hvalue, -⟩ : _ ∧ _ ∧ _ ∧ Unquoted (after :: rest) := by
        simpa only [unquoted_cons] using hrest
      simp only [joinPieces_cons _ (List.cons_ne_nil _ _)]
      rw [maskedMember_pieces h hname hcolon hvalue, if_neg hmatch]
    have hrec : replaceFrom (maskedMember names) 0 (joinPieces (name :: colon :: value :: after ::
        rest)) = joinPieces (maskPieces names (name :: colon :: value :: after :: rest)) := ih hrest
    rw [maskPieces, if_neg hmatch, joinPieces_cons _ hne, joinPieces_cons _ (maskPieces_ne_nil hne),
      replaceAll, replaceFrom_piece hbefore, replaceFrom_of_none hmasked, hrec]
  | case3 ps hshape =>
    have hlen : ps.length ≤ 4 := by
      match ps, hshape with
      | [], _ | [_], _ | [_, _], _ | [_, _, _], _ | [_, _, _, _], _ => simp
      | _ :: _ :: _ :: _ :: _ :: _, hshape => exact (hshape _ _ _ _ _ _ rfl).elim
    rw [replaceAll_few h hps hlen, maskPieces]
    exact hshape

/-- A member begins with the piece after the first. -/
def startsMember (names : List String) : List Text → Bool
  | _ :: name :: colon :: _ :: _ :: _ => isKeyPiece names name && isColonPiece colon
  | _ => false

theorem maskPieces_skip {p : Text} {ps : List Text} (h : startsMember names (p :: ps) = false) :
    maskPieces names (p :: ps) = p :: maskPieces names ps := by
  match ps, h with
  | [], _ | [_], _ | [_, _], _ | [_, _, _], _ => rfl
  | _ :: _ :: _ :: _ :: _, h =>
    rw [startsMember, ← Bool.not_eq_true] at h
    rw [maskPieces, if_neg h]

theorem isValuePiece_skip {p : Text} {ps : List Text} (h : startsMember names (p :: ps) = false)
    (i : ℕ) : isValuePiece names (p :: ps) (i + 1) = isValuePiece names ps i := by
  match ps, h with
  | [], _ | [_], _ | [_, _], _ | [_, _, _], _ => rfl
  | _ :: _ :: _ :: _ :: _, h =>
    rw [startsMember, ← Bool.not_eq_true] at h
    rw [isValuePiece, if_neg h, Nat.add_sub_cancel]
    simp

/-- The first piece is not looked at. -/
theorem maskPieces_cons (p q : Text) (ps : List Text) :
    maskPieces names (p :: ps) = p :: (maskPieces names (q :: ps)).tail := by
  match ps with
  | [] | [_] | [_, _] | [_, _, _] => rfl
  | _ :: _ :: _ :: _ :: _ =>
    rw [maskPieces, maskPieces]
    split_ifs <;> rfl

theorem isValuePiece_cons (p q : Text) (ps : List Text) (i : ℕ) :
    isValuePiece names (p :: ps) i = isValuePiece names (q :: ps) i := by
  match ps with
  | [] | [_] | [_, _] | [_, _, _] => rfl
  | _ :: _ :: _ :: _ :: _ => rw [isValuePiece, isValuePiece]

end Mask

/-! ## Card numbers -/

def maskCards (s : Text) : Text := replaceAll maskedCard s

/-- A run of digits before this text would go on. -/
def opensRun (s : Text) : Bool := (dropRunes isCardGap s).head?.any (Rune.is GoText.isDigit)

section Cards

theorem isCardGap_of_isDigit {c : Char} (h : GoText.isDigit c = true) : isCardGap c = false := by
  rw [← Bool.not_eq_true]
  intro hgap
  simp only [isCardGap, Bool.or_eq_true, decide_eq_true_eq] at hgap
  rcases hgap with rfl | rfl <;> revert h <;> decide

theorem opensRun_dropRunes (s : Text) : opensRun (dropRunes isCardGap s) = opensRun s := by
  rw [opensRun, opensRun, dropRunes, dropRunes, List.dropWhile_idempotent]

theorem matchDigits_eq_none {n : ℕ} {s : Text} (h : opensRun s = false) :
    matchDigits (n + 1) s = none := by
  rcases s with _ | ⟨c | b, s⟩
  · rfl
  · rw [matchDigits, if_neg]
    intro hc
    have hgap : Rune.is isCardGap (.char c) = false := isCardGap_of_isDigit hc
    rw [opensRun, dropRunes, List.dropWhile_cons_of_neg (by simp [hgap])] at h
    exact absurd h (by simp [Rune.is, hc])
  · rfl

/-- Digits are not matched across what does not go on with them. -/
theorem matchDigits_append {n : ℕ} {t g : Text} (hg : opensRun g = false) :
    matchDigits n (t ++ g) = (matchDigits n t).map fun p => (p.1, p.2 ++ g) := by
  induction n generalizing t g with
  | zero => rfl
  | succ n ih =>
    rcases t with _ | ⟨c | b, t⟩
    · exact matchDigits_eq_none hg
    · rw [List.cons_append, matchDigits, matchDigits]
      by_cases hc : GoText.isDigit c = true
      · rw [if_pos hc, if_pos hc]
        rcases n with _ | n
        · rfl
        · simp only [Nat.add_eq_zero_iff, one_ne_zero, and_false, if_false]
          have hdrop : (t ++ g).dropWhile (Rune.is isCardGap) = _ := List.dropWhile_append
          by_cases hgaps : (dropRunes isCardGap t).isEmpty = true
          · have hnil : dropRunes isCardGap t = [] := List.isEmpty_iff.mp hgaps
            rw [dropRunes, hdrop, ← dropRunes, if_pos hgaps, hnil, ← dropRunes,
              matchDigits_eq_none ((opensRun_dropRunes g).trans hg)]
            rfl
          · rw [dropRunes, hdrop, ← dropRunes, if_neg hgaps, ih hg, Option.map_map, Option.map_map]
            rfl
      · rw [if_neg hc, if_neg hc]
        rfl
    · rfl

theorem maskedCard_append {t g : Text} (hg : opensRun g = false) :
    maskedCard (t ++ g) = (maskedCard t).map fun p => (p.1, p.2 ++ g) := by
  rw [maskedCard, maskedCard, matchDigits_append hg, Option.map_map, Option.map_map]
  rfl

theorem maskCards_of_none {r : Rune} {s : Text} (h : maskedCard (r :: s) = none) :
    maskCards (r :: s) = r :: maskCards s := replaceFrom_of_none h

theorem maskCards_of_some {s out rest : Text} (h : maskedCard s = some (out, rest)) :
    maskCards s = out ++ maskCards rest := by
  obtain ⟨c, t, rfl, -, -⟩ := (masks_maskedCard _ _ _ h).start
  exact replaceFrom_of_some masks_maskedCard h

theorem length_lt_of_maskedCard {s out rest : Text} (h : maskedCard s = some (out, rest)) :
    rest.length < s.length := by
  obtain ⟨c, t, rfl, -, hrest⟩ := (masks_maskedCard _ _ _ h).start
  exact Nat.lt_succ_of_le hrest.length_le

/-- Masking by the numbers in a text: a number is masked, or one rune is passed. -/
theorem maskCards_induction {motive : Text → Prop} (nil : motive [])
    (none : ∀ r s, maskedCard (r :: s) = none → motive s → motive (r :: s))
    (some : ∀ s out rest, maskedCard s = some (out, rest) → motive rest → motive s) (s : Text) :
    motive s := by
  induction hn : s.length using Nat.strong_induction_on generalizing s with
  | h n ih =>
    rcases s with _ | ⟨r, s⟩
    · exact nil
    · cases h : maskedCard (r :: s) with
      | none => exact none r s h (ih _ (hn ▸ Nat.lt_succ_self _) s rfl)
      | some p =>
        have hlen : p.2.length < (r :: s).length := length_lt_of_maskedCard h
        exact some _ p.1 p.2 h (ih _ (hn ▸ hlen) p.2 rfl)

/-- Nothing is masked across what does not go on with a run. -/
theorem maskCards_append {t g : Text} (hg : opensRun g = false) :
    maskCards (t ++ g) = maskCards t ++ maskCards g := by
  induction t using maskCards_induction with
  | nil => rfl
  | none r t hnone ih =>
    have happend : maskedCard (r :: (t ++ g)) = Option.none := by
      rw [← List.cons_append, maskedCard_append hg, hnone]
      rfl
    rw [List.cons_append, maskCards_of_none happend, maskCards_of_none hnone, ih, List.cons_append]
  | some t out rest hsome ih =>
    have happend : maskedCard (t ++ g) = Option.some (out, rest ++ g) := by
      rw [maskedCard_append hg, hsome]
      rfl
    rw [maskCards_of_some happend, maskCards_of_some hsome, ih, List.append_assoc]

theorem maskedCard_of_not_digit {r : Rune} (hr : Rune.is GoText.isDigit r = false) (s : Text) :
    maskedCard (r :: s) = none := by
  rcases r with c | b
  · have hc : ¬GoText.isDigit c = true := by simpa [Rune.is] using hr
    rw [maskedCard, matchDigits, if_neg hc]
    rfl
  · rfl

/-- What has no digits is passed. -/
theorem maskCards_append_of_no_digit {t : Text} (ht : ∀ r ∈ t, Rune.is GoText.isDigit r = false)
    (s : Text) : maskCards (t ++ s) = t ++ maskCards s :=
  replaceFrom_append (fun r hr => maskedCard_of_not_digit (ht r hr)) s

theorem maskCards_of_no_digit {t : Text} (ht : ∀ r ∈ t, Rune.is GoText.isDigit r = false) :
    maskCards t = t := by
  have happend := maskCards_append_of_no_digit ht []
  rwa [List.append_nil, show maskCards [] = [] from rfl, List.append_nil] at happend

theorem maskCards_quote_cons (s : Text) : maskCards (quoteMark :: s) = quoteMark :: maskCards s :=
  maskCards_of_none (maskedCard_of_not_digit (by decide) s)

theorem maskCards_joinPieces (ps : List Text) :
    maskCards (joinPieces ps) = joinPieces (ps.map maskCards) := by
  induction ps with
  | nil => rfl
  | cons p ps ih =>
    by_cases hnil : ps = []
    · subst hnil
      rw [joinPieces_singleton, List.map_singleton, joinPieces_singleton]
    · rw [joinPieces_cons p hnil, maskCards_append (by rfl), maskCards_quote_cons, ih,
        List.map_cons, joinPieces_cons _ (by simpa using hnil)]

end Cards

/-! ## Masking a text

The passes do not touch what another one looks at, so that the numbers can be masked last. -/

section Text

variable {names : List String}

theorem maskCards_eq_or (s : Text) :
    maskCards s = s ∨ .char '*' ∈ maskCards s ∧ ∃ r ∈ s, Rune.is GoText.isDigit r = true := by
  induction s using maskCards_induction with
  | nil => exact Or.inl rfl
  | none r s hnone ih =>
    rw [maskCards_of_none hnone]
    rcases ih with heq | ⟨hstar, d, hd, hdigit⟩
    · exact Or.inl (by rw [heq])
    · exact Or.inr ⟨List.mem_cons_of_mem r hstar, d, List.mem_cons_of_mem r hd, hdigit⟩
  | some s out rest hsome _ =>
    refine Or.inr ?_
    rw [maskCards_of_some hsome]
    obtain ⟨⟨ds, rest'⟩, hmatch, heq⟩ := Option.map_eq_some_iff.mp hsome
    obtain ⟨c, t, -, rfl, hc, -⟩ := matchDigits_succ hmatch
    cases heq
    exact ⟨List.mem_append_left _ (List.mem_append_left _ (by decide)), .char c,
      List.mem_cons_self, hc⟩

theorem mem_of_matchWord {w : List Char} {s name rest : Text}
    (h : matchWord w s = some (name, rest)) {r : Rune} (hr : r ∈ name) :
    ∃ d, r = .char d ∧ GoText.foldRune d ∈ w := by
  induction w generalizing s name with
  | nil =>
    cases h
    exact absurd hr List.not_mem_nil
  | cons c w ih =>
    cases s with
    | nil => cases h
    | cons r' s =>
      rw [matchWord] at h
      split_ifs at h with hfold
      obtain ⟨⟨name', rest'⟩, hmatch, heq⟩ := Option.map_eq_some_iff.mp h
      cases heq
      rcases List.mem_cons.mp hr with rfl | hr
      · obtain ⟨d, rfl, hd⟩ := exists_of_is hfold
        exact ⟨d, rfl, List.mem_cons.mpr (Or.inl (of_decide_eq_true hd))⟩
      · obtain ⟨d, hd, hmem⟩ := ih hmatch hr
        exact ⟨d, hd, List.mem_cons_of_mem c hmem⟩

theorem foldRune_mem_of_isKeyPiece (h : PlainNames names) {p : Text}
    (hp : isKeyPiece names p = true) {r : Rune} (hr : r ∈ p) :
    ∃ d, r = .char d ∧ isNameLetter (GoText.foldRune d) = true := by
  obtain ⟨name, hname, hmatch⟩ := List.any_eq_true.mp hp
  obtain ⟨d, hd, hmem⟩ := mem_of_matchWord (of_decide_eq_true hmatch) hr
  exact ⟨d, hd, h name hname _ hmem⟩

theorem foldRune_of_isDigit {c : Char} (h : GoText.isDigit c = true) : GoText.foldRune c = c := by
  have hlower : GoText.isAsciiLower c = false := by
    rw [← Bool.not_eq_true]
    intro hl
    simp only [GoText.isDigit, GoText.isAsciiLower, Bool.and_eq_true, decide_eq_true_eq] at h hl
    exact absurd (Char.le_trans hl.1 h.2) (by decide)
  rw [GoText.foldRune, hlower, if_neg (by decide), if_neg, if_neg]
  all_goals
    rintro rfl
    revert h
    decide

theorem isNameLetter_of_isDigit {c : Char} (h : GoText.isDigit c = true) : isNameLetter c = false := by
  rw [← Bool.not_eq_true]
  intro hname
  simp only [isNameLetter, GoText.isDigit, Bool.or_eq_true, Bool.and_eq_true, decide_eq_true_eq]
    at h hname
  rcases hname with (hname | rfl) | rfl
  · exact absurd (Char.le_trans hname.1 h.2) (by decide)
  · revert h
    decide
  · revert h
    decide

theorem not_isDigit_of_isKeyPiece (h : PlainNames names) {p : Text}
    (hp : isKeyPiece names p = true) : ∀ r ∈ p, Rune.is GoText.isDigit r = false := by
  intro r hr
  obtain ⟨d, rfl, hd⟩ := foldRune_mem_of_isKeyPiece h hp hr
  rw [← Bool.not_eq_true]
  intro hdigit
  rw [foldRune_of_isDigit hdigit, isNameLetter_of_isDigit hdigit] at hd
  cases hd

theorem isKeyPiece_maskCards (h : PlainNames names) (p : Text) :
    isKeyPiece names (maskCards p) = isKeyPiece names p := by
  rcases maskCards_eq_or p with heq | ⟨hstar, r, hr, hdigit⟩
  · rw [heq]
  · have hleft : ¬isKeyPiece names (maskCards p) = true := fun hp => by
      obtain ⟨d, hd, hname⟩ := foldRune_mem_of_isKeyPiece h hp hstar
      rw [← Rune.char.inj hd] at hname
      exact absurd hname (by decide)
    have hright : ¬isKeyPiece names p = true := fun hp => by
      rw [not_isDigit_of_isKeyPiece h hp r hr] at hdigit
      cases hdigit
    rw [(Bool.not_eq_true _).mp hleft, (Bool.not_eq_true _).mp hright]

/-- A colon between blanks has nothing else. -/
theorem mem_of_isColonPiece {p : Text} (hp : isColonPiece p = true) {r : Rune} (hr : r ∈ p) :
    r = .char ':' ∨ Rune.is isBlank r = true := by
  have hblank {s : Text} (hr : r ∈ s) : Rune.is isBlank r = true ∨ r ∈ dropRunes isBlank s := by
    rw [← List.takeWhile_append_dropWhile (p := Rune.is isBlank) (l := s), List.mem_append] at hr
    exact hr.imp_left fun hmem => List.mem_takeWhile_imp hmem
  rcases hblank hr with hr | hr
  · exact Or.inr hr
  · rw [isColonPiece] at hp
    cases hskip : skipRune ':' (dropRunes isBlank p) with
    | none => simp [hskip] at hp
    | some t =>
      have ht : dropRunes isBlank t = [] := by simpa [hskip] using hp
      rw [eq_of_skipRune hskip] at hr
      rcases List.mem_cons.mp hr with hr | hr
      · exact Or.inl hr
      · rcases hblank hr with hr | hr
        · exact Or.inr hr
        · exact absurd (ht ▸ hr) List.not_mem_nil

theorem not_isDigit_of_isColonPiece {p : Text} (hp : isColonPiece p = true) :
    ∀ r ∈ p, Rune.is GoText.isDigit r = false := by
  intro r hr
  rcases mem_of_isColonPiece hp hr with rfl | hblank
  · decide
  · obtain ⟨c, rfl, hc⟩ := exists_of_is hblank
    simp only [isBlank, Bool.or_eq_true, decide_eq_true_eq] at hc
    rcases hc with (((rfl | rfl) | rfl) | rfl) | rfl <;> decide

theorem isColonPiece_maskCards (p : Text) : isColonPiece (maskCards p) = isColonPiece p := by
  rcases maskCards_eq_or p with heq | ⟨hstar, r, hr, hdigit⟩
  · rw [heq]
  · have hleft : ¬isColonPiece (maskCards p) = true := fun hp => by
      rcases mem_of_isColonPiece hp hstar with heq | hblank
      · exact absurd heq (by decide)
      · exact absurd hblank (by decide)
    have hright : ¬isColonPiece p = true := fun hp => by
      rw [not_isDigit_of_isColonPiece hp r hr] at hdigit
      cases hdigit
    rw [(Bool.not_eq_true _).mp hleft, (Bool.not_eq_true _).mp hright]

theorem maskCards_colonPiece : maskCards colonPiece = colonPiece :=
  maskCards_of_no_digit (by decide)

theorem maskCards_mask (n : ℕ) : maskCards (mask n) = mask n :=
  maskCards_of_no_digit fun r hr => by rw [List.eq_of_mem_replicate hr]; decide

theorem maskPieces_map (h : PlainNames names) (ps : List Text) :
    maskPieces names (ps.map maskCards) = (maskPieces names ps).map maskCards := by
  induction ps using maskPieces.induct names with
  | case1 before name colon value after rest hmatch ih =>
    obtain ⟨hkey, hcolon⟩ := Bool.and_eq_true_iff.mp hmatch
    have hkept := maskCards_of_no_digit (not_isDigit_of_isKeyPiece h hkey)
    simp only [List.map_cons] at ih ⊢
    rw [maskPieces, maskPieces, isKeyPiece_maskCards h, isColonPiece_maskCards, if_pos hmatch,
      if_pos hmatch, ih]
    simp only [List.map_cons, maskCards_colonPiece, maskCards_mask, hkept]
  | case2 before name colon value after rest hmatch ih =>
    simp only [List.map_cons] at ih ⊢
    rw [maskPieces, maskPieces, isKeyPiece_maskCards h, isColonPiece_maskCards, if_neg hmatch,
      if_neg hmatch, ih, List.map_cons]
  | case3 ps hshape =>
    match ps, hshape with
    | [], _ | [_], _ | [_, _], _ | [_, _, _], _ | [_, _, _, _], _ => rfl
    | _ :: _ :: _ :: _ :: _ :: _, hshape => exact (hshape _ _ _ _ _ _ rfl).elim

theorem mem_of_matchDigits {n : ℕ} {s rest : Text} {ds : List Char}
    (h : matchDigits n s = some (ds, rest)) : (∀ d ∈ ds, Rune.char d ∈ s) ∧ rest <:+ s := by
  refine ⟨?_, (passes_matchDigits h).1.suffix⟩
  induction n generalizing s ds with
  | zero =>
    cases h
    exact fun d hd => absurd hd List.not_mem_nil
  | succ n ih =>
    obtain ⟨c, t, ds', rfl, -, hmatch, rfl⟩ := matchDigits_succ h
    intro d hd
    rcases List.mem_cons.mp hd with rfl | hd
    · exact List.mem_cons_self
    · refine List.mem_cons_of_mem _ ?_
      have hmem := ih hmatch d hd
      split_ifs at hmem
      · exact hmem
      · exact (List.dropWhile_suffix _).subset hmem

theorem mem_maskCards {s : Text} {r : Rune} (h : r ∈ maskCards s) : r ∈ s ∨ r = .char '*' := by
  induction s using maskCards_induction with
  | nil => exact absurd h List.not_mem_nil
  | none r' s hnone ih =>
    rw [maskCards_of_none hnone] at h
    rcases List.mem_cons.mp h with rfl | h
    · exact Or.inl List.mem_cons_self
    · exact (ih h).imp_left (List.mem_cons_of_mem r')
  | some s out rest hsome ih =>
    rw [maskCards_of_some hsome] at h
    obtain ⟨⟨ds, rest'⟩, hmatch, heq⟩ := Option.map_eq_some_iff.mp hsome
    obtain ⟨hds, hrest⟩ := mem_of_matchDigits hmatch
    cases heq
    rcases List.mem_append.mp h with h | h
    · rcases List.mem_append.mp h with h | h
      · exact Or.inr (List.eq_of_mem_replicate h)
      · obtain ⟨d, hd, rfl⟩ := List.mem_map.mp h
        exact Or.inl (hds d (List.mem_of_mem_drop hd))
    · exact (ih h).imp_left fun hmem => hrest.subset hmem

theorem unquoted_map {ps : List Text} (hps : Unquoted ps) : Unquoted (ps.map maskCards) := by
  intro p hp hquote
  obtain ⟨q, hq, rfl⟩ := List.mem_map.mp hp
  rcases mem_maskCards hquote with hmem | heq
  · exact hps q hq hmem
  · exact absurd heq (by decide)

theorem unquoted_maskPieces {ps : List Text} (hps : Unquoted ps) :
    Unquoted (maskPieces names ps) := by
  induction ps using maskPieces.induct names with
  | case1 before name colon value after rest hmatch ih =>
    obtain ⟨hbefore, hname, -, -, hrest⟩ : _ ∧ _ ∧ _ ∧ _ ∧ Unquoted (after :: rest) := by
      simpa only [unquoted_cons] using hps
    rw [maskPieces, if_pos hmatch]
    simp only [unquoted_cons]
    exact ⟨hbefore, hname, by decide, by decide, ih hrest⟩
  | case2 before name colon value after rest hmatch ih =>
    obtain ⟨hbefore, hrest⟩ := unquoted_cons.mp hps
    rw [maskPieces, if_neg hmatch]
    exact unquoted_cons.mpr ⟨hbefore, ih hrest⟩
  | case3 ps hshape =>
    rw [maskPieces]
    · exact hps
    · exact hshape

theorem replaceAll_maskedMember_pieces (h : PlainNames names) (s : Text) :
    pieces (replaceAll (maskedMember names) s) = maskPieces names (pieces s) := by
  have hps := unquoted_pieces s
  have hmask := replaceAll_maskedMember h hps
  rw [joinPieces_pieces] at hmask
  rw [hmask, pieces_joinPieces (unquoted_maskPieces hps) (maskPieces_ne_nil (pieces_ne_nil s))]

theorem pieces_maskCards (s : Text) : pieces (maskCards s) = (pieces s).map maskCards := by
  have hcards := maskCards_joinPieces (pieces s)
  rw [joinPieces_pieces] at hcards
  rw [hcards, pieces_joinPieces (unquoted_map (unquoted_pieces s)) (by simp [pieces_ne_nil])]

theorem pieces_injective {s t : Text} (h : pieces s = pieces t) : s = t := by
  rw [← joinPieces_pieces s, h, joinPieces_pieces]

/-- What masking makes of a piece. -/
def PieceMasked (p q : Text) : Prop :=
  q = p ∨ q = mask 8 ∨ isColonPiece p = true ∧ q = colonPiece

theorem PieceMasked.refl (p : Text) : PieceMasked p p := Or.inl rfl

theorem not_isColonPiece_mask : isColonPiece (mask 8) = false := by decide

theorem pieceMasked_maskPieces (names : List String) (ps : List Text) :
    List.Forall₂ PieceMasked ps (maskPieces names ps) := by
  induction ps using maskPieces.induct names with
  | case1 before name colon value after rest hmatch ih =>
    rw [maskPieces, if_pos hmatch]
    have hcolon := (Bool.and_eq_true_iff.mp hmatch).2
    exact .cons (.refl _) (.cons (.refl _) (.cons (Or.inr (Or.inr ⟨hcolon, rfl⟩))
      (.cons (Or.inr (Or.inl rfl)) ih)))
  | case2 before name colon value after rest hmatch ih =>
    rw [maskPieces, if_neg hmatch]
    exact .cons (.refl _) ih
  | case3 ps hshape =>
    rw [maskPieces]
    · exact List.forall₂_same.mpr fun p _ => .refl p
    · exact hshape

theorem PieceMasked.trans {p q r : Text} (h : PieceMasked p q) (h' : PieceMasked q r) :
    PieceMasked p r := by
  rcases h' with rfl | rfl | ⟨hcolon, rfl⟩
  · exact h
  · exact Or.inr (Or.inl rfl)
  · rcases h with rfl | rfl | ⟨hcolon', rfl⟩
    · exact Or.inr (Or.inr ⟨hcolon, rfl⟩)
    · rw [not_isColonPiece_mask] at hcolon
      cases hcolon
    · exact Or.inr (Or.inr ⟨hcolon', rfl⟩)

theorem PieceMasked.antisymm {p q : Text} (h : PieceMasked p q) (h' : PieceMasked q p) : q = p := by
  rcases h with rfl | rfl | ⟨hcolon, rfl⟩
  · rfl
  · rcases h' with heq | heq | ⟨hcolon, -⟩
    · exact heq.symm
    · exact heq.symm
    · rw [not_isColonPiece_mask] at hcolon
      cases hcolon
  · rcases h' with heq | heq | ⟨-, heq⟩
    · exact heq.symm
    · rw [heq, not_isColonPiece_mask] at hcolon
      cases hcolon
    · exact heq.symm

/-- A piece that is no longer its own is not touched by the numbers' pass. -/
theorem PieceMasked.eq_or_kept {p q : Text} (h : PieceMasked p q) :
    q = p ∨ maskCards q = q := by
  rcases h with h | rfl | ⟨-, rfl⟩
  · exact Or.inl h
  · exact Or.inr (maskCards_mask 8)
  · exact Or.inr maskCards_colonPiece

theorem pieceMasked_twice {names' : List String} (ps : List Text) :
    List.Forall₂ PieceMasked ps (maskPieces names' (maskPieces names ps)) := by
  have hboth := pieceMasked_maskPieces names' (maskPieces names ps)
  have hone := pieceMasked_maskPieces names ps
  revert hboth hone
  generalize maskPieces names' (maskPieces names ps) = rs
  generalize maskPieces names ps = qs
  intro hboth hone
  induction hone generalizing rs with
  | nil => exact hboth
  | cons hp _ ih =>
    cases hboth with
    | cons hq hqs => exact .cons (hp.trans hq) (ih _ hqs)

/-- The pieces after masking a text. -/
theorem pieces_maskJSON (s : Text) :
    pieces (maskJSON s) =
      (maskPieces tokenNames (maskPieces passwordNames (pieces s))).map maskCards := by
  rw [maskJSON, replaceAll_maskedMember_pieces plain_tokenNames,
    replaceAll_maskedMember_pieces plain_passwordNames, ← maskCards, pieces_maskCards,
    maskPieces_map plain_passwordNames, maskPieces_map plain_tokenNames]

/-- The numbers can be masked last. -/
theorem maskJSON_eq (s : Text) :
    maskJSON s = maskCards (replaceAll (maskedMember tokenNames)
      (replaceAll (maskedMember passwordNames) s)) := by
  refine pieces_injective ?_
  rw [pieces_maskJSON, pieces_maskCards, replaceAll_maskedMember_pieces plain_tokenNames,
    replaceAll_maskedMember_pieces plain_passwordNames]

end Text

end BatAudit
