import BatAudit.Lib.Json.Lexer
import Mathlib.Data.List.DropRight
import Mathlib.Tactic.Common

/-!
# JSON values as syntax trees

The parser is a stack machine over the tokens of a text that are not white space. A tree
has one sequence of tokens, and the machine accepts a sequence exactly when it is that of
the tree it returns. Nesting is counted on the tree.
-/

namespace Json

inductive Tree
  | word (w : Word)
  | num (n : NumLit)
  | str (s : StrLit)
  | arr (items : List Tree)
  | obj (members : List (StrLit × Tree))

mutual

def Tree.tokens : Tree → List Token
  | .word w => [.word w]
  | .num n => [.num n]
  | .str s => [.str s]
  | .arr items => .lbrack :: (itemTokens items ++ [.rbrack])
  | .obj members => .lbrace :: (memberTokens members ++ [.rbrace])

def itemTokens : List Tree → List Token
  | [] => []
  | v :: vs => v.tokens ++ moreItems vs

def moreItems : List Tree → List Token
  | [] => []
  | v :: vs => .comma :: (v.tokens ++ moreItems vs)

def memberTokens : List (StrLit × Tree) → List Token
  | [] => []
  | m :: ms => pairTokens m ++ moreMembers ms

def moreMembers : List (StrLit × Tree) → List Token
  | [] => []
  | m :: ms => .comma :: (pairTokens m ++ moreMembers ms)

def pairTokens : StrLit × Tree → List Token
  | (k, v) => .str k :: .colon :: v.tokens

end

def Tree.print (t : Tree) : Text := untokenize t.tokens

mutual

def Tree.depth : Tree → Nat
  | .word _ | .num _ | .str _ => 0
  | .arr items => itemsDepth items + 1
  | .obj members => membersDepth members + 1

def itemsDepth : List Tree → Nat
  | [] => 0
  | v :: vs => max v.depth (itemsDepth vs)

def membersDepth : List (StrLit × Tree) → Nat
  | [] => 0
  | m :: ms => max (pairDepth m) (membersDepth ms)

def pairDepth : StrLit × Tree → Nat
  | (_, v) => v.depth

end

theorem depth_obj_le_iff {n : Nat} (hn : 0 < n) {ms : List (StrLit × Tree)} :
    (Tree.obj ms).depth ≤ n ↔ ∀ m ∈ ms, m.2.depth < n := by
  rw [Tree.depth, Nat.succ_le_iff]
  induction ms with
  | nil => simp [membersDepth, hn]
  | cons m ms ih =>
    obtain ⟨k, v⟩ := m
    rw [List.forall_mem_cons, ← ih, membersDepth, pairDepth]
    exact Nat.max_lt

/-! ## The parser -/

/-- A value that is being read: its finished part, and the key whose value comes next. -/
inductive Frame
  | arr (done : List Tree)
  | obj (done : List (StrLit × Tree)) (key : StrLit)

inductive State
  | value (st : List Frame)
  | first (st : List Frame)
  | firstKey (st : List Frame)
  | key (done : List (StrLit × Tree)) (st : List Frame)
  | colon (done : List (StrLit × Tree)) (key : StrLit) (st : List Frame)
  | after (v : Tree) (st : List Frame)

def startValue (t : Token) (st : List Frame) : Option State :=
  match t with
  | .word w => some (.after (.word w) st)
  | .num n => some (.after (.num n) st)
  | .str s => some (.after (.str s) st)
  | .lbrack => some (.first st)
  | .lbrace => some (.firstKey st)
  | .rbrack | .rbrace | .comma | .colon | .ws _ _ => none

def State.next (s : State) (t : Token) : Option State :=
  match s with
  | .value st => startValue t st
  | .first st =>
    match t with
    | .rbrack => some (.after (.arr []) st)
    | t => startValue t (.arr [] :: st)
  | .firstKey st =>
    match t with
    | .rbrace => some (.after (.obj []) st)
    | .str k => some (.colon [] k st)
    | _ => none
  | .key done st =>
    match t with
    | .str k => some (.colon done k st)
    | _ => none
  | .colon done k st =>
    match t with
    | .colon => some (.value (.obj done k :: st))
    | _ => none
  | .after _ [] => none
  | .after v (.arr done :: st) =>
    match t with
    | .comma => some (.value (.arr (done ++ [v]) :: st))
    | .rbrack => some (.after (.arr (done ++ [v])) st)
    | _ => none
  | .after v (.obj done k :: st) =>
    match t with
    | .comma => some (.key (done ++ [(k, v)]) st)
    | .rbrace => some (.after (.obj (done ++ [(k, v)])) st)
    | _ => none

def State.run : State → List Token → Option State
  | s, [] => some s
  | s, t :: ts => (s.next t).bind fun s' => s'.run ts

def parseTokens (ts : List Token) : Option Tree :=
  match State.run (.value []) ts with
  | some (.after v []) => some v
  | _ => none

def Token.isWs : Token → Bool
  | .ws _ _ => true
  | _ => false

/-- The tokens of a text without the white space between them. -/
def squeeze (ts : List Token) : List Token := ts.filter fun t => !t.isWs

def parse (s : Text) : Option Tree := (lex s).bind fun ts => parseTokens (squeeze ts)

theorem State.run_append (s : State) (ts us : List Token) :
    s.run (ts ++ us) = (s.run ts).bind fun s' => s'.run us := by
  induction ts generalizing s with
  | nil => rfl
  | cons t ts ih =>
    simp only [List.cons_append, State.run]
    cases s.next t with
    | none => rfl
    | some s' => simpa using ih s'

/-! ## What the parser accepts it has read -/

def itemsDone (vs : List Tree) : List Token := vs.flatMap fun v => v.tokens ++ [.comma]

def membersDone (ms : List (StrLit × Tree)) : List Token :=
  ms.flatMap fun m => pairTokens m ++ [.comma]

theorem moreItems_concat (vs : List Tree) (v : Tree) :
    .comma :: (itemsDone vs ++ v.tokens) = moreItems (vs ++ [v]) := by
  induction vs with
  | nil => simp [itemsDone, moreItems]
  | cons w vs ih => simp [itemsDone, moreItems, ← ih]

theorem itemTokens_concat (vs : List Tree) (v : Tree) :
    itemsDone vs ++ v.tokens = itemTokens (vs ++ [v]) := by
  cases vs with
  | nil => simp [itemsDone, itemTokens, moreItems]
  | cons w vs => simp [itemsDone, itemTokens, ← moreItems_concat]

theorem moreMembers_concat (ms : List (StrLit × Tree)) (m : StrLit × Tree) :
    .comma :: (membersDone ms ++ pairTokens m) = moreMembers (ms ++ [m]) := by
  induction ms with
  | nil => simp [membersDone, moreMembers]
  | cons n ms ih => simp [membersDone, moreMembers, ← ih]

theorem memberTokens_concat (ms : List (StrLit × Tree)) (m : StrLit × Tree) :
    membersDone ms ++ pairTokens m = memberTokens (ms ++ [m]) := by
  cases ms with
  | nil => simp [membersDone, memberTokens, moreMembers]
  | cons n ms => simp [membersDone, memberTokens, ← moreMembers_concat]

def opened : List Frame → List Token
  | [] => []
  | .arr done :: st => opened st ++ .lbrack :: itemsDone done
  | .obj done k :: st => opened st ++ .lbrace :: (membersDone done ++ [.str k, .colon])

/-- The tokens that lead the machine to a state. -/
def State.consumed : State → List Token
  | .value st => opened st
  | .first st => opened st ++ [.lbrack]
  | .firstKey st => opened st ++ [.lbrace]
  | .key done st => opened st ++ .lbrace :: membersDone done
  | .colon done k st => opened st ++ .lbrace :: (membersDone done ++ [.str k])
  | .after v st => opened st ++ v.tokens

theorem startValue_consumed {t : Token} {st : List Frame} {s : State}
    (h : startValue t st = some s) : s.consumed = opened st ++ [t] := by
  cases t <;> cases h <;> rfl

theorem State.next_first {t : Token} {st : List Frame} (ht : t ≠ .rbrack) :
    State.next (.first st) t = startValue t (.arr [] :: st) := by
  cases t <;> first | exact absurd rfl ht | rfl

theorem State.next_consumed {s s' : State} {t : Token} (h : s.next t = some s') :
    s'.consumed = s.consumed ++ [t] := by
  cases s with
  | value st => exact startValue_consumed h
  | first st =>
    by_cases ht : t = .rbrack
    · subst t
      cases h
      simp [State.consumed, Tree.tokens, itemTokens]
    · rw [State.next_first ht] at h
      simpa [State.consumed, opened, itemsDone] using startValue_consumed h
  | firstKey st =>
    cases t <;> cases h
    · simp [State.consumed, Tree.tokens, memberTokens]
    · simp [State.consumed, membersDone]
  | key done st =>
    cases t <;> cases h
    simp [State.consumed]
  | colon done k st =>
    cases t <;> cases h
    simp [State.consumed, opened]
  | after v st =>
    match st with
    | [] => cases h
    | .arr done :: st =>
      cases t <;> cases h
      · simp [State.consumed, opened, Tree.tokens, ← itemTokens_concat]
      · simp [State.consumed, opened, itemsDone]
    | .obj done k :: st =>
      cases t <;> cases h
      · simp [State.consumed, opened, Tree.tokens, ← memberTokens_concat, pairTokens]
      · simp [State.consumed, opened, membersDone, pairTokens]

theorem State.run_consumed {s s' : State} {ts : List Token} (h : s.run ts = some s') :
    s'.consumed = s.consumed ++ ts := by
  induction ts generalizing s with
  | nil =>
    cases h
    simp
  | cons t ts ih =>
    obtain ⟨s₁, hnext, hrun⟩ := Option.bind_eq_some_iff.mp h
    rw [ih hrun, State.next_consumed hnext]
    simp

theorem tokens_of_parseTokens {ts : List Token} {v : Tree} (h : parseTokens ts = some v) :
    v.tokens = ts := by
  unfold parseTokens at h
  split at h
  · rename_i w hrun
    cases h
    simpa [State.consumed, opened] using State.run_consumed hrun
  · cases h

/-! ## The tokens of a tree are read -/

theorem Tree.tokens_head (v : Tree) : ∃ t ts, v.tokens = t :: ts ∧ t ≠ .rbrack := by
  cases v <;> exact ⟨_, _, rfl, by simp⟩

theorem State.run_first {st : List Frame} {v : Tree} {rest : List Token} :
    State.run (.first st) (v.tokens ++ rest) =
      State.run (.value (.arr [] :: st)) (v.tokens ++ rest) := by
  obtain ⟨t, ts, hv, ht⟩ := v.tokens_head
  rw [hv, List.cons_append, State.run, State.run, State.next_first ht]
  rfl

mutual

theorem State.run_tree (v : Tree) (st : List Frame) (rest : List Token) :
    State.run (.value st) (v.tokens ++ rest) = State.run (.after v st) rest := by
  cases v with
  | word w => rfl
  | num n => rfl
  | str s => rfl
  | arr items =>
    cases items with
    | nil => rfl
    | cons v vs =>
      have hopen : State.run (.value st) ((Tree.arr (v :: vs)).tokens ++ rest) =
          State.run (.first st) (v.tokens ++ (moreItems vs ++ .rbrack :: rest)) := by
        simp [Tree.tokens, itemTokens, State.run, State.next, startValue]
      rw [hopen, State.run_first, State.run_tree v, State.run_moreItems vs]
      rfl
  | obj members =>
    cases members with
    | nil => rfl
    | cons m ms =>
      obtain ⟨k, v⟩ := m
      have hopen : State.run (.value st) ((Tree.obj ((k, v) :: ms)).tokens ++ rest) =
          State.run (.value (.obj [] k :: st))
            (v.tokens ++ (moreMembers ms ++ .rbrace :: rest)) := by
        simp [Tree.tokens, memberTokens, pairTokens, State.run, State.next, startValue]
      rw [hopen, State.run_tree v, State.run_moreMembers ms]
      rfl

theorem State.run_moreItems (vs : List Tree) (done : List Tree) (w : Tree) (st : List Frame)
    (rest : List Token) :
    State.run (.after w (.arr done :: st)) (moreItems vs ++ .rbrack :: rest) =
      State.run (.after (.arr (done ++ w :: vs)) st) rest := by
  cases vs with
  | nil => rfl
  | cons v vs =>
    have hcomma : State.run (.after w (.arr done :: st)) (moreItems (v :: vs) ++ .rbrack :: rest) =
        State.run (.value (.arr (done ++ [w]) :: st))
          (v.tokens ++ (moreItems vs ++ .rbrack :: rest)) := by
      simp [moreItems, State.run, State.next]
    rw [hcomma, State.run_tree v, State.run_moreItems vs, List.append_assoc]
    rfl

theorem State.run_moreMembers (ms done : List (StrLit × Tree)) (k : StrLit) (w : Tree)
    (st : List Frame) (rest : List Token) :
    State.run (.after w (.obj done k :: st)) (moreMembers ms ++ .rbrace :: rest) =
      State.run (.after (.obj (done ++ (k, w) :: ms)) st) rest := by
  cases ms with
  | nil => rfl
  | cons m ms =>
    obtain ⟨l, v⟩ := m
    have hcomma : State.run (.after w (.obj done k :: st))
          (moreMembers ((l, v) :: ms) ++ .rbrace :: rest) =
        State.run (.value (.obj (done ++ [(k, w)]) l :: st))
          (v.tokens ++ (moreMembers ms ++ .rbrace :: rest)) := by
      simp [moreMembers, pairTokens, State.run, State.next]
    rw [hcomma, State.run_tree v, State.run_moreMembers ms, List.append_assoc]
    rfl

end

theorem parseTokens_tokens (v : Tree) : parseTokens v.tokens = some v := by
  have hrun := State.run_tree v [] []
  rw [List.append_nil] at hrun
  rw [parseTokens, hrun]
  rfl

/-! ## Reading a printed tree -/

theorem State.next_ws (s : State) {c : Char} {h : Json.isWs c = true} :
    s.next (.ws c h) = none := by
  cases s with
  | after v st => rcases st with _ | ⟨_ | _, st⟩ <;> rfl
  | value | first | firstKey | key | colon => rfl

theorem State.not_isWs_of_run {s s' : State} {ts : List Token} (h : s.run ts = some s') :
    ∀ t ∈ ts, t.isWs = false := by
  induction ts generalizing s with
  | nil => simp
  | cons u ts ih =>
    obtain ⟨s₁, hnext, hrun⟩ := Option.bind_eq_some_iff.mp h
    intro t ht
    rcases List.mem_cons.mp ht with rfl | ht
    · cases t with
      | ws c hc => simp [State.next_ws] at hnext
      | lbrace | rbrace | lbrack | rbrack | comma | colon | word | num | str => rfl
    · exact ih hrun t ht

theorem State.next_num {s s' : State} {n : NumLit} (h : s.next (.num n) = some s') :
    ∃ st, s' = .after (.num n) st := by
  cases s with
  | value st => cases h; exact ⟨st, rfl⟩
  | first st => cases h; exact ⟨_, rfl⟩
  | firstKey | key | colon => cases h
  | after v st => rcases st with _ | ⟨_ | _, st⟩ <;> cases h

theorem State.delimits_of_next {v : Tree} {st : List Frame} {t : Token} {s' : State}
    (h : (State.after v st).next t = some s') : t.delimits = true := by
  rcases st with _ | ⟨_ | _, st⟩ <;> cases t <;> first | rfl | cases h

theorem State.spaced_of_run {s s' : State} {ts : List Token} (h : s.run ts = some s') :
    Spaced ts := by
  induction ts generalizing s with
  | nil => trivial
  | cons t ts ih =>
    obtain ⟨s₁, hnext, hrun⟩ := Option.bind_eq_some_iff.mp h
    cases ts with
    | nil => trivial
    | cons u ts =>
      refine ⟨fun hnum => ?_, ih hrun⟩
      obtain ⟨s₂, hnext', -⟩ := Option.bind_eq_some_iff.mp hrun
      cases t with
      | num n =>
        obtain ⟨st, rfl⟩ := State.next_num hnext
        exact State.delimits_of_next hnext'
      | ws | lbrace | rbrace | lbrack | rbrack | comma | colon | word | str => cases hnum

theorem Tree.run_tokens (v : Tree) : State.run (.value []) v.tokens = some (.after v []) := by
  have hrun := State.run_tree v [] []
  rwa [List.append_nil] at hrun

theorem Tree.not_isWs (v : Tree) : ∀ t ∈ v.tokens, t.isWs = false :=
  State.not_isWs_of_run v.run_tokens

theorem squeeze_tokens (v : Tree) : squeeze v.tokens = v.tokens :=
  List.filter_eq_self.mpr fun t ht => by simp [v.not_isWs t ht]

theorem lex_print (v : Tree) : lex v.print = some v.tokens :=
  lex_untokenize (State.spaced_of_run v.run_tokens)

theorem parse_print (v : Tree) : parse v.print = some v := by
  rw [parse, lex_print, Option.bind_some, squeeze_tokens, parseTokens_tokens]

/-! ## The members of an object as they are written

The tokens of an object are cut at its own commas, so that a member keeps the text of its
value. -/

def Token.nest (d : Nat) : Token → Nat
  | .lbrace | .lbrack => d + 1
  | .rbrace | .rbrack => d - 1
  | _ => d

def cut : Nat → List Token → List Token × List (List Token)
  | _, [] => ([], [])
  | d, t :: ts =>
    if d = 0 ∧ t = .rbrace then ([], [])
    else if d = 0 ∧ t = .comma then ([], (cut 0 ts).1 :: (cut 0 ts).2)
    else (t :: (cut (t.nest d) ts).1, (cut (t.nest d) ts).2)

def trimWs (ts : List Token) : List Token := (ts.dropWhile Token.isWs).rdropWhile Token.isWs

def readMember (piece : List Token) : Option (StrLit × List Token) :=
  match piece.dropWhile Token.isWs with
  | .str k :: ts =>
    match ts.dropWhile Token.isWs with
    | .colon :: value => some (k, trimWs value)
    | _ => none
  | _ => none

def rawMembers (ts : List Token) : List (StrLit × List Token) :=
  match ts.dropWhile Token.isWs with
  | .lbrace :: inner => ((cut 0 inner).1 :: (cut 0 inner).2).filterMap readMember
  | _ => []

theorem cut_cons {d : Nat} {t : Token} (ts : List Token)
    (h : d = 0 → t ≠ .rbrace ∧ t ≠ .comma) :
    cut d (t :: ts) = (t :: (cut (t.nest d) ts).1, (cut (t.nest d) ts).2) := by
  rw [cut, if_neg fun hd => (h hd.1).1 hd.2, if_neg fun hd => (h hd.1).2 hd.2]

mutual

theorem cut_tree (v : Tree) (d : Nat) (rest : List Token) :
    cut d (v.tokens ++ rest) = (v.tokens ++ (cut d rest).1, (cut d rest).2) := by
  cases v with
  | word w => exact cut_cons rest (by simp)
  | num n => exact cut_cons rest (by simp)
  | str s => exact cut_cons rest (by simp)
  | arr items =>
    simp only [Tree.tokens, List.cons_append, List.append_assoc, List.nil_append]
    rw [cut_cons _ (by simp)]
    have hinner : cut (d + 1) (itemTokens items ++ .rbrack :: rest) =
        (itemTokens items ++ (cut (d + 1) (.rbrack :: rest)).1,
          (cut (d + 1) (.rbrack :: rest)).2) := by
      cases items with
      | nil => rfl
      | cons v vs =>
        rw [itemTokens, List.append_assoc, cut_tree v, cut_moreItems vs]
        simp
    rw [Token.nest, hinner, cut_cons _ (by simp)]
    rfl
  | obj members =>
    simp only [Tree.tokens, List.cons_append, List.append_assoc, List.nil_append]
    rw [cut_cons _ (by simp)]
    have hinner : cut (d + 1) (memberTokens members ++ .rbrace :: rest) =
        (memberTokens members ++ (cut (d + 1) (.rbrace :: rest)).1,
          (cut (d + 1) (.rbrace :: rest)).2) := by
      cases members with
      | nil => rfl
      | cons m ms =>
        rw [memberTokens, List.append_assoc, cut_pair m, cut_moreMembers ms]
        simp
    rw [Token.nest, hinner, cut_cons _ (by simp)]
    rfl

theorem cut_moreItems (vs : List Tree) (d : Nat) (rest : List Token) :
    cut (d + 1) (moreItems vs ++ rest) =
      (moreItems vs ++ (cut (d + 1) rest).1, (cut (d + 1) rest).2) := by
  cases vs with
  | nil => rfl
  | cons v vs =>
    rw [moreItems, List.cons_append, cut_cons _ (by simp), Token.nest, List.append_assoc,
      cut_tree v, cut_moreItems vs]
    all_goals simp

theorem cut_pair (m : StrLit × Tree) (d : Nat) (rest : List Token) :
    cut d (pairTokens m ++ rest) = (pairTokens m ++ (cut d rest).1, (cut d rest).2) := by
  obtain ⟨k, v⟩ := m
  rw [pairTokens, List.cons_append, List.cons_append, cut_cons _ (by simp),
    cut_cons _ (by simp)]
  simp only [Token.nest]
  rw [cut_tree v]
  rfl

theorem cut_moreMembers (ms : List (StrLit × Tree)) (d : Nat) (rest : List Token) :
    cut (d + 1) (moreMembers ms ++ rest) =
      (moreMembers ms ++ (cut (d + 1) rest).1, (cut (d + 1) rest).2) := by
  cases ms with
  | nil => rfl
  | cons m ms =>
    rw [moreMembers, List.cons_append, cut_cons _ (by simp), Token.nest, List.append_assoc,
      cut_pair m, cut_moreMembers ms]
    all_goals simp

end

theorem cut_members (ms : List (StrLit × Tree)) :
    cut 0 (moreMembers ms ++ [.rbrace]) = ([], ms.map pairTokens) := by
  induction ms with
  | nil => rfl
  | cons m ms ih =>
    rw [moreMembers, List.cons_append, cut, if_neg (by simp), if_pos (by simp),
      List.append_assoc, cut_pair, ih]
    simp

theorem trimWs_tokens (v : Tree) : trimWs v.tokens = v.tokens := by
  have hhead : v.tokens.dropWhile Token.isWs = v.tokens := by
    obtain ⟨t, ts, hv, -⟩ := v.tokens_head
    rw [hv, List.dropWhile_cons_of_neg]
    simp [v.not_isWs t (by simp [hv])]
  rw [trimWs, hhead, List.rdropWhile_eq_self_iff]
  intro hne
  simp [v.not_isWs _ (List.getLast_mem hne)]

theorem readMember_pair (k : StrLit) (v : Tree) :
    readMember (pairTokens (k, v)) = some (k, v.tokens) := by
  simp [readMember, pairTokens, Token.isWs, trimWs_tokens]

theorem rawMembers_obj (ms : List (StrLit × Tree)) :
    rawMembers (Tree.obj ms).tokens = ms.map fun m => (m.1, m.2.tokens) := by
  have hread : ∀ ms : List (StrLit × Tree), (ms.map pairTokens).filterMap readMember =
      ms.map fun m => (m.1, m.2.tokens) := by
    intro ms
    induction ms with
    | nil => rfl
    | cons m ms ih =>
      rw [List.map_cons, List.filterMap_cons_some (readMember_pair m.1 m.2), ih, List.map_cons]
  cases ms with
  | nil => rfl
  | cons m ms =>
    have hcut : cut 0 (memberTokens (m :: ms) ++ [.rbrace]) =
        (pairTokens m, ms.map pairTokens) := by
      rw [memberTokens, List.append_assoc, cut_pair, cut_members]
      simp
    have hraw : rawMembers (Tree.obj (m :: ms)).tokens =
        ((cut 0 (memberTokens (m :: ms) ++ [.rbrace])).1 ::
          (cut 0 (memberTokens (m :: ms) ++ [.rbrace])).2).filterMap readMember := rfl
    rw [hraw, hcut]
    exact hread (m :: ms)

end Json
