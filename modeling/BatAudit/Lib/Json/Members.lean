import BatAudit.Lib.Json.Strings

/-!
# The members of a tree

The members of all the objects in a tree, its shape, and trees whose literals are rewritten: a
key by itself, a string with the key whose value it is.
-/

namespace Json

/-- What a literal has between its quotes. -/
def StrLit.content (s : StrLit) : Text := s.flatMap Item.text

mutual

/-- The members of the objects in a tree, at any depth. -/
def Tree.allMembers : Tree → List (StrLit × Tree)
  | .word _ | .num _ | .str _ => []
  | .arr items => itemsMembers items
  | .obj members => membersMembers members

def itemsMembers : List Tree → List (StrLit × Tree)
  | [] => []
  | v :: vs => v.allMembers ++ itemsMembers vs

def membersMembers : List (StrLit × Tree) → List (StrLit × Tree)
  | [] => []
  | m :: ms => m :: (pairMembers m ++ membersMembers ms)

def pairMembers : StrLit × Tree → List (StrLit × Tree)
  | (_, v) => v.allMembers

end

/-! ## Shapes -/

/-- What is left of a value without its scalars. -/
inductive Shape
  | leaf
  | arr (items : List Shape)
  | obj (members : List (List Char × Shape))

mutual

def Tree.shape : Tree → Shape
  | .word _ | .num _ | .str _ => .leaf
  | .arr items => .arr (itemShapes items)
  | .obj members => .obj (memberShapes members)

def itemShapes : List Tree → List Shape
  | [] => []
  | v :: vs => v.shape :: itemShapes vs

def memberShapes : List (StrLit × Tree) → List (List Char × Shape)
  | [] => []
  | m :: ms => pairShape m :: memberShapes ms

def pairShape : StrLit × Tree → List Char × Shape
  | (k, v) => (unquote k, v.shape)

end

/-! ## Rewriting literals -/

section
variable (f : StrLit → StrLit) (g : Option StrLit → StrLit → StrLit)

mutual

def Tree.rewrite : Tree → Option StrLit → Tree
  | .word w, _ => .word w
  | .num n, _ => .num n
  | .str s, key => .str (g key s)
  | .arr items, _ => .arr (itemsRewrite items)
  | .obj members, _ => .obj (membersRewrite members)

def itemsRewrite : List Tree → List Tree
  | [] => []
  | v :: vs => v.rewrite none :: itemsRewrite vs

def membersRewrite : List (StrLit × Tree) → List (StrLit × Tree)
  | [] => []
  | m :: ms => pairRewrite m :: membersRewrite ms

def pairRewrite : StrLit × Tree → StrLit × Tree
  | (k, v) => (f k, v.rewrite (some k))

end

def Token.mapStr : Token → Token
  | .str s => .str (f s)
  | t => t

end

section
variable {f f' : StrLit → StrLit} {g g' : Option StrLit → StrLit → StrLit}

mutual

theorem Tree.shape_rewrite_iff (v : Tree) (key : Option StrLit) :
    (v.rewrite f g key).shape = v.shape ↔ ∀ m ∈ v.allMembers, unquote (f m.1) = unquote m.1 := by
  cases v with
  | word | num | str => exact iff_of_true rfl fun _ hm => absurd hm List.not_mem_nil
  | arr items =>
    simp only [Tree.rewrite, Tree.shape, Tree.allMembers, Shape.arr.injEq, itemShapes_iff items]
  | obj members =>
    simp only [Tree.rewrite, Tree.shape, Tree.allMembers, Shape.obj.injEq,
      memberShapes_iff members]

theorem itemShapes_iff (vs : List Tree) :
    itemShapes (itemsRewrite f g vs) = itemShapes vs ↔
      ∀ m ∈ itemsMembers vs, unquote (f m.1) = unquote m.1 := by
  cases vs with
  | nil => exact iff_of_true rfl fun _ hm => absurd hm List.not_mem_nil
  | cons v vs =>
    simp only [itemsRewrite, itemShapes, itemsMembers, List.cons.injEq, v.shape_rewrite_iff none,
      itemShapes_iff vs, List.forall_mem_append]

theorem memberShapes_iff (ms : List (StrLit × Tree)) :
    memberShapes (membersRewrite f g ms) = memberShapes ms ↔
      ∀ m ∈ membersMembers ms, unquote (f m.1) = unquote m.1 := by
  cases ms with
  | nil => exact iff_of_true rfl fun _ hm => absurd hm List.not_mem_nil
  | cons m ms =>
    simp only [membersRewrite, memberShapes, membersMembers, List.cons.injEq, pairShape_iff m,
      memberShapes_iff ms, List.forall_mem_cons, List.forall_mem_append, and_assoc]

theorem pairShape_iff (m : StrLit × Tree) :
    pairShape (pairRewrite f g m) = pairShape m ↔
      unquote (f m.1) = unquote m.1 ∧ ∀ m' ∈ pairMembers m, unquote (f m'.1) = unquote m'.1 := by
  obtain ⟨k, v⟩ := m
  simp only [pairRewrite, pairShape, pairMembers, Prod.mk.injEq, v.shape_rewrite_iff (some k)]

end

mutual

theorem Tree.allMembers_rewrite (v : Tree) (key : Option StrLit) :
    (v.rewrite f g key).allMembers = v.allMembers.map (pairRewrite f g) := by
  cases v with
  | word | num | str => rfl
  | arr items => simp only [Tree.rewrite, Tree.allMembers, itemsMembers_rewrite items]
  | obj members => simp only [Tree.rewrite, Tree.allMembers, membersMembers_rewrite members]

theorem itemsMembers_rewrite (vs : List Tree) :
    itemsMembers (itemsRewrite f g vs) = (itemsMembers vs).map (pairRewrite f g) := by
  cases vs with
  | nil => rfl
  | cons v vs =>
    simp only [itemsRewrite, itemsMembers, v.allMembers_rewrite none, itemsMembers_rewrite vs,
      List.map_append]

theorem membersMembers_rewrite (ms : List (StrLit × Tree)) :
    membersMembers (membersRewrite f g ms) = (membersMembers ms).map (pairRewrite f g) := by
  cases ms with
  | nil => rfl
  | cons m ms =>
    simp only [membersRewrite, membersMembers, pairMembers_rewrite m, membersMembers_rewrite ms,
      List.map_append, List.map_cons]

theorem pairMembers_rewrite (m : StrLit × Tree) :
    pairMembers (pairRewrite f g m) = (pairMembers m).map (pairRewrite f g) := by
  obtain ⟨k, v⟩ := m
  simp only [pairRewrite, pairMembers, v.allMembers_rewrite (some k)]

end

mutual

/-- Rewriting twice: the second time a string is met with the key as the first time left it. -/
theorem Tree.rewrite_rewrite (v : Tree) (key : Option StrLit) :
    (v.rewrite f g key).rewrite f' g' (key.map f) =
      v.rewrite (f' ∘ f) (fun k s => g' (k.map f) (g k s)) key := by
  cases v with
  | word | num | str => rfl
  | arr items => simp only [Tree.rewrite, itemsRewrite_rewrite items]
  | obj members => simp only [Tree.rewrite, membersRewrite_rewrite members]

theorem itemsRewrite_rewrite (vs : List Tree) :
    itemsRewrite f' g' (itemsRewrite f g vs) =
      itemsRewrite (f' ∘ f) (fun k s => g' (k.map f) (g k s)) vs := by
  cases vs with
  | nil => rfl
  | cons v vs =>
    have hv := v.rewrite_rewrite none
    simp only [Option.map_none] at hv
    simp only [itemsRewrite, hv, itemsRewrite_rewrite vs]

theorem membersRewrite_rewrite (ms : List (StrLit × Tree)) :
    membersRewrite f' g' (membersRewrite f g ms) =
      membersRewrite (f' ∘ f) (fun k s => g' (k.map f) (g k s)) ms := by
  cases ms with
  | nil => rfl
  | cons m ms =>
    simp only [membersRewrite, pairRewrite_rewrite m, membersRewrite_rewrite ms]

theorem pairRewrite_rewrite (m : StrLit × Tree) :
    pairRewrite f' g' (pairRewrite f g m) =
      pairRewrite (f' ∘ f) (fun k s => g' (k.map f) (g k s)) m := by
  obtain ⟨k, v⟩ := m
  have hv := v.rewrite_rewrite (some k)
  simp only [Option.map_some] at hv
  simp only [pairRewrite, hv, Function.comp_apply]

end

mutual

theorem Tree.depth_rewrite (v : Tree) (key : Option StrLit) :
    (v.rewrite f g key).depth = v.depth := by
  cases v with
  | word | num | str => rfl
  | arr items => simp only [Tree.rewrite, Tree.depth, itemsDepth_rewrite items]
  | obj members => simp only [Tree.rewrite, Tree.depth, membersDepth_rewrite members]

theorem itemsDepth_rewrite (vs : List Tree) :
    itemsDepth (itemsRewrite f g vs) = itemsDepth vs := by
  cases vs with
  | nil => rfl
  | cons v vs =>
    simp only [itemsRewrite, itemsDepth, v.depth_rewrite none, itemsDepth_rewrite vs]

theorem membersDepth_rewrite (ms : List (StrLit × Tree)) :
    membersDepth (membersRewrite f g ms) = membersDepth ms := by
  cases ms with
  | nil => rfl
  | cons m ms =>
    simp only [membersRewrite, membersDepth, pairDepth_rewrite m, membersDepth_rewrite ms]

theorem pairDepth_rewrite (m : StrLit × Tree) : pairDepth (pairRewrite f g m) = pairDepth m := by
  obtain ⟨k, v⟩ := m
  simp only [pairRewrite, pairDepth, v.depth_rewrite (some k)]

end

mutual

/-- With one rule for keys and strings, rewriting goes through the tokens. -/
theorem Tree.tokens_rewrite (v : Tree) (key : Option StrLit) :
    (v.rewrite f (fun _ => f) key).tokens = v.tokens.map (Token.mapStr f) := by
  cases v with
  | word | num | str => rfl
  | arr items =>
    simp only [Tree.rewrite, Tree.tokens, itemTokens_rewrite items, List.map_cons,
      List.map_append, List.map_nil, Token.mapStr]
  | obj members =>
    simp only [Tree.rewrite, Tree.tokens, memberTokens_rewrite members, List.map_cons,
      List.map_append, List.map_nil, Token.mapStr]

theorem itemTokens_rewrite (vs : List Tree) :
    itemTokens (itemsRewrite f (fun _ => f) vs) = (itemTokens vs).map (Token.mapStr f) := by
  cases vs with
  | nil => rfl
  | cons v vs =>
    simp only [itemsRewrite, itemTokens, v.tokens_rewrite none, moreItems_rewrite vs,
      List.map_append]

theorem moreItems_rewrite (vs : List Tree) :
    moreItems (itemsRewrite f (fun _ => f) vs) = (moreItems vs).map (Token.mapStr f) := by
  cases vs with
  | nil => rfl
  | cons v vs =>
    simp only [itemsRewrite, moreItems, v.tokens_rewrite none, moreItems_rewrite vs,
      List.map_append, List.map_cons, Token.mapStr]

theorem memberTokens_rewrite (ms : List (StrLit × Tree)) :
    memberTokens (membersRewrite f (fun _ => f) ms) = (memberTokens ms).map (Token.mapStr f) := by
  cases ms with
  | nil => rfl
  | cons m ms =>
    simp only [membersRewrite, memberTokens, pairTokens_rewrite m, moreMembers_rewrite ms,
      List.map_append]

theorem moreMembers_rewrite (ms : List (StrLit × Tree)) :
    moreMembers (membersRewrite f (fun _ => f) ms) = (moreMembers ms).map (Token.mapStr f) := by
  cases ms with
  | nil => rfl
  | cons m ms =>
    simp only [membersRewrite, moreMembers, pairTokens_rewrite m, moreMembers_rewrite ms,
      List.map_append, List.map_cons, Token.mapStr]

theorem pairTokens_rewrite (m : StrLit × Tree) :
    pairTokens (pairRewrite f (fun _ => f) m) = (pairTokens m).map (Token.mapStr f) := by
  obtain ⟨k, v⟩ := m
  simp only [pairRewrite, pairTokens, v.tokens_rewrite (some k), List.map_cons, Token.mapStr]

end

end

/-! ## Tokens of members -/

theorem mem_moreItems_of {t : Token} {vs : List Tree} (h : ∃ v ∈ vs, t ∈ v.tokens) :
    t ∈ moreItems vs := by
  induction vs with
  | nil => simp at h
  | cons v vs ih =>
    rw [moreItems, List.mem_cons, List.mem_append]
    rcases List.exists_mem_cons_iff _ _ _ |>.mp h with h | h
    · exact Or.inr (Or.inl h)
    · exact Or.inr (Or.inr (ih h))

theorem mem_itemTokens_of {t : Token} {vs : List Tree} (h : ∃ v ∈ vs, t ∈ v.tokens) :
    t ∈ itemTokens vs := by
  cases vs with
  | nil => simp at h
  | cons v vs =>
    rw [itemTokens, List.mem_append]
    exact (List.exists_mem_cons_iff _ _ _ |>.mp h).imp_right mem_moreItems_of

theorem mem_moreMembers_of {t : Token} {ms : List (StrLit × Tree)}
    (h : ∃ m ∈ ms, t ∈ pairTokens m) : t ∈ moreMembers ms := by
  induction ms with
  | nil => simp at h
  | cons m ms ih =>
    rw [moreMembers, List.mem_cons, List.mem_append]
    rcases List.exists_mem_cons_iff _ _ _ |>.mp h with h | h
    · exact Or.inr (Or.inl h)
    · exact Or.inr (Or.inr (ih h))

theorem mem_memberTokens_of {t : Token} {ms : List (StrLit × Tree)}
    (h : ∃ m ∈ ms, t ∈ pairTokens m) : t ∈ memberTokens ms := by
  cases ms with
  | nil => simp at h
  | cons m ms =>
    rw [memberTokens, List.mem_append]
    exact (List.exists_mem_cons_iff _ _ _ |>.mp h).imp_right mem_moreMembers_of

section
variable {m : StrLit × Tree} {t : Token}

mutual

theorem Tree.mem_tokens_of_member (v : Tree) (hm : m ∈ v.allMembers) (ht : t ∈ pairTokens m) :
    t ∈ v.tokens := by
  cases v with
  | word | num | str => exact absurd hm List.not_mem_nil
  | arr items =>
    have hitem := mem_itemTokens_of (exists_item items hm ht)
    exact List.mem_cons_of_mem _ (List.mem_append_left _ hitem)
  | obj members =>
    have hmember := mem_memberTokens_of (exists_member members hm ht)
    exact List.mem_cons_of_mem _ (List.mem_append_left _ hmember)

theorem exists_item (vs : List Tree) (hm : m ∈ itemsMembers vs) (ht : t ∈ pairTokens m) :
    ∃ v ∈ vs, t ∈ v.tokens := by
  cases vs with
  | nil => exact absurd hm List.not_mem_nil
  | cons v vs =>
    rcases List.mem_append.mp hm with hm | hm
    · exact ⟨v, List.mem_cons_self, v.mem_tokens_of_member hm ht⟩
    · obtain ⟨w, hw, hmem⟩ := exists_item vs hm ht
      exact ⟨w, List.mem_cons_of_mem v hw, hmem⟩

theorem exists_member (ms : List (StrLit × Tree)) (hm : m ∈ membersMembers ms)
    (ht : t ∈ pairTokens m) : ∃ p ∈ ms, t ∈ pairTokens p := by
  cases ms with
  | nil => exact absurd hm List.not_mem_nil
  | cons p ms =>
    rcases List.mem_cons.mp hm with rfl | hm
    · exact ⟨m, List.mem_cons_self, ht⟩
    · rcases List.mem_append.mp hm with hm | hm
      · exact ⟨p, List.mem_cons_self, mem_pair p hm ht⟩
      · obtain ⟨q, hq, hmem⟩ := exists_member ms hm ht
        exact ⟨q, List.mem_cons_of_mem p hq, hmem⟩

theorem mem_pair (p : StrLit × Tree) (hm : m ∈ pairMembers p) (ht : t ∈ pairTokens m) :
    t ∈ pairTokens p := by
  obtain ⟨k, v⟩ := p
  exact List.mem_cons_of_mem _ (List.mem_cons_of_mem _ (v.mem_tokens_of_member hm ht))

end

end

/-! ## Reading literals with one item apart -/

/-- What comes before a plain item is read without regard to it. -/
theorem exists_unquoteFrom (l : StrLit) (pending : Option Nat) :
    ∃ x, ∀ r h s, unquoteFrom pending (l ++ .plain r h :: s) = x ++ r.decode :: unquote s := by
  induction l generalizing pending with
  | nil => exact ⟨flush pending, fun r h s => by simp [unquoteFrom, readItem, unquote]⟩
  | cons i l ih =>
    obtain ⟨x, hx⟩ := ih (readItem pending i).2
    exact ⟨(readItem pending i).1 ++ x, fun r h s => by
      rw [List.cons_append, unquoteFrom, hx, List.append_assoc]⟩

theorem content_injective {s t : StrLit} (h : s.content = t.content) : s = t := by
  have htext : s.text = t.text := by
    rw [StrLit.text, StrLit.text, ← StrLit.content, ← StrLit.content, h]
  have hlex (l : StrLit) : lex l.text = some [.str l] := by
    have hone : lex (untokenize [.str l]) = some [.str l] := lex_untokenize trivial
    rwa [untokenize, List.flatMap_singleton] at hone
  have hboth := (hlex s).symm.trans ((congrArg lex htext).trans (hlex t))
  cases hboth
  rfl

end Json
