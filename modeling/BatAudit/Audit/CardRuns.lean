import BatAudit.Audit.Gate

/-!
# Card numbers after masking

A run of digits is seen through masking by what the masked text depends on: two texts that
differ in one run only, with the same layout and the same last four digits, must become the
same text when no more than these digits are to show.
-/

namespace BatAudit

open Json (Text Rune)

def isDigitRune (r : Rune) : Bool := Rune.is GoText.isDigit r

def isRunRune (r : Rune) : Bool := isDigitRune r || Rune.is isCardGap r

def digitsOf (s : Text) : Text := s.filter isDigitRune

/-- Digits with gaps between them, and none that go on before or after. -/
structure IsRun (before run after : Text) : Prop where
  first : run.head?.any isDigitRune = true
  last : run.getLast?.any isDigitRune = true
  all : ∀ r ∈ run, isRunRune r = true
  left : opensRun before.reverse = false
  right : opensRun after = false

def hideDigit (r : Rune) : Rune := if isDigitRune r then .char '0' else r

def lastFour (s : Text) : Text := (digitsOf s).drop ((digitsOf s).length - 4)

/-- Digits and gaps at the same places, and the same last four digits. -/
structure SameLayout (run run' : Text) : Prop where
  layout : run'.map hideDigit = run.map hideDigit
  lastFour : lastFour run' = lastFour run

/-- The masked text depends on no more than the layout and the last four digits. -/
def ShowsLastFour (before run after : Text) : Prop :=
  ∀ run', SameLayout run run' →
    maskJSON (before ++ run' ++ after) = maskJSON (before ++ run ++ after)

/-- The run is in the value of a member that is masked. -/
def inMaskedValue (before s : Text) : Bool :=
  isValuePiece passwordNames (pieces s) (before.count quoteMark) ||
    isValuePiece tokenNames (maskPieces passwordNames (pieces s)) (before.count quoteMark)

/-! ## Digits -/

theorem isDigitRune_iff {r : Rune} :
    isDigitRune r = true ↔ ∃ c, r = .char c ∧ GoText.isDigit c = true :=
  ⟨exists_of_is, by rintro ⟨c, rfl, hc⟩; exact hc⟩

@[simp] theorem digitsOf_append (s t : Text) : digitsOf (s ++ t) = digitsOf s ++ digitsOf t :=
  List.filter_append s t

theorem digitsOf_cons_of_digit {r : Rune} (hr : isDigitRune r = true) (s : Text) :
    digitsOf (r :: s) = r :: digitsOf s := List.filter_cons_of_pos hr

theorem not_isDigitRune_of_gap {r : Rune} (hr : Rune.is isCardGap r = true) :
    isDigitRune r = false := by
  obtain ⟨c, rfl, hc⟩ := exists_of_is hr
  rw [← Bool.not_eq_true]
  intro hdigit
  rw [isCardGap_of_isDigit (c := c) hdigit] at hc
  cases hc

theorem digitsOf_dropRunes (s : Text) : digitsOf (dropRunes isCardGap s) = digitsOf s := by
  have hsplit := List.takeWhile_append_dropWhile (p := Rune.is isCardGap) (l := s)
  have hgaps : digitsOf (s.takeWhile (Rune.is isCardGap)) = [] := by
    refine List.filter_eq_nil_iff.mpr fun r hr => ?_
    rw [not_isDigitRune_of_gap (List.mem_takeWhile_imp hr)]
    decide
  conv_rhs => rw [← hsplit, digitsOf_append, hgaps]
  rfl

theorem digitsOf_matchDigits {n : ℕ} {s rest : Text} {ds : List Char}
    (h : matchDigits n s = some (ds, rest)) :
    digitsOf s = Json.text ds ++ digitsOf rest ∧ ds.length = n := by
  induction n generalizing s ds with
  | zero =>
    cases h
    exact ⟨rfl, rfl⟩
  | succ n ih =>
    obtain ⟨c, t, ds', rfl, hc, hmatch, rfl⟩ := matchDigits_succ h
    obtain ⟨hdigits, hlen⟩ := ih hmatch
    refine ⟨?_, by rw [List.length_cons, hlen]⟩
    rw [digitsOf_cons_of_digit (r := .char c) hc]
    split_ifs at hdigits
    · rw [hdigits]
      rfl
    · rw [digitsOf_dropRunes] at hdigits
      rw [hdigits]
      rfl

theorem not_is_of_dropRunes {q : Char → Bool} {r : Rune} {s t : Text}
    (h : dropRunes q s = r :: t) : Rune.is q r = false := by
  have hnot := List.head?_dropWhile_not (Rune.is q) s
  unfold dropRunes at h
  rwa [h] at hnot

/-- Of a run, as many digits match as it has. -/
theorem exists_matchDigits {n : ℕ} {s : Text} (hall : ∀ r ∈ s, isRunRune r = true)
    (hfirst : s.head?.any isDigitRune = true) (hn : n ≤ (digitsOf s).length) :
    ∃ ds rest, matchDigits n s = some (ds, rest) := by
  induction n generalizing s with
  | zero => exact ⟨[], s, rfl⟩
  | succ n ih =>
    rcases s with _ | ⟨r, t⟩
    · cases hfirst
    · obtain ⟨c, rfl, hc⟩ := isDigitRune_iff.mp hfirst
      have ht : ∀ r ∈ t, isRunRune r = true := fun r hr => hall r (List.mem_cons_of_mem _ hr)
      rw [digitsOf_cons_of_digit hfirst, List.length_cons] at hn
      rw [matchDigits, if_pos hc]
      rcases n with _ | n
      · exact ⟨[c], t, rfl⟩
      · rw [if_neg (Nat.succ_ne_zero n)]
        have hrest : ∀ r ∈ dropRunes isCardGap t, isRunRune r = true := fun r hr =>
          ht r ((List.dropWhile_suffix _).subset hr)
        have hdigits := digitsOf_dropRunes t
        have hhead : (dropRunes isCardGap t).head?.any isDigitRune = true := by
          cases hdrop : dropRunes isCardGap t with
          | nil =>
            rw [hdrop] at hdigits
            rw [← hdigits] at hn
            exact absurd hn (by simp [digitsOf])
          | cons r u =>
            have hrun := hrest r (hdrop ▸ List.mem_cons_self)
            rw [isRunRune, not_is_of_dropRunes hdrop, Bool.or_false] at hrun
            exact hrun
        obtain ⟨ds, rest, hmatch⟩ := ih hrest hhead (by rw [hdigits]; omega)
        exact ⟨c :: ds, rest, by rw [hmatch]; rfl⟩

/-- A match takes a run of digits and gaps. -/
theorem exists_consumed {n : ℕ} {s rest : Text} {ds : List Char}
    (h : matchDigits (n + 1) s = some (ds, rest)) :
    ∃ r run, s = r :: (run ++ rest) ∧ ∀ r' ∈ r :: run, isRunRune r' = true := by
  induction n generalizing s ds with
  | zero =>
    obtain ⟨c, t, ds', rfl, hc, hmatch, -⟩ := matchDigits_succ h
    cases hmatch
    exact ⟨.char c, [], rfl, by simp [isRunRune, isDigitRune, Rune.is, hc]⟩
  | succ n ih =>
    obtain ⟨c, t, ds', rfl, hc, hmatch, -⟩ := matchDigits_succ h
    rw [if_neg (Nat.succ_ne_zero n)] at hmatch
    obtain ⟨r, run, heq, hrun⟩ := ih hmatch
    refine ⟨.char c, t.takeWhile (Rune.is isCardGap) ++ r :: run, ?_, ?_⟩
    · rw [List.append_assoc, List.cons_append, ← heq, dropRunes, List.takeWhile_append_dropWhile]
    · rw [List.forall_mem_cons, List.forall_mem_append]
      refine ⟨by simp [isRunRune, isDigitRune, Rune.is, hc], fun r' hr' => ?_, hrun⟩
      rw [isRunRune, List.mem_takeWhile_imp hr', Bool.or_true]

/-! ## What becomes of a run -/

/-- With fewer than sixteen digits nothing is masked. -/
theorem maskCards_of_few {s : Text} (h : (digitsOf s).length < 16) : maskCards s = s := by
  rw [maskCards_eq_self_iff, hasCard_eq_false]
  intro t ht
  by_contra hne
  obtain ⟨⟨ds, rest⟩, hmatch⟩ := Option.ne_none_iff_exists'.mp hne
  obtain ⟨hdigits, hlen⟩ := digitsOf_matchDigits hmatch
  have hle := (ht.sublist.filter isDigitRune).length_le
  rw [← digitsOf, ← digitsOf, hdigits, List.length_append, Json.text, List.length_map, hlen] at hle
  omega

/-- From sixteen digits on, the last four of the first sixteen stand after the stars. -/
theorem maskCards_of_many {s : Text} (hall : ∀ r ∈ s, isRunRune r = true)
    (hfirst : s.head?.any isDigitRune = true) (hn : 16 ≤ (digitsOf s).length) :
    ∃ rest, rest <:+ s ∧ (digitsOf s).drop 16 = digitsOf rest ∧
      maskCards s = mask 12 ++ ((digitsOf s).take 16).drop 12 ++ maskCards rest := by
  obtain ⟨ds, rest, hmatch⟩ := exists_matchDigits hall hfirst hn
  obtain ⟨hdigits, hlen⟩ := digitsOf_matchDigits hmatch
  have hcard : maskedCard s = some (mask 12 ++ Json.text (ds.drop 12), rest) := by
    rw [maskedCard, hmatch]
    rfl
  have hlen' : (Json.text ds).length = 16 := (List.length_map _).trans hlen
  refine ⟨rest, (mem_of_matchDigits hmatch).2, ?_, ?_⟩
  · rw [hdigits, List.drop_left' hlen']
  · rw [maskCards_of_some hcard, hdigits, List.take_left' hlen', Json.text, Json.text, List.map_drop]

/-- A digit with so many digits before it. -/
theorem exists_digit {k : ℕ} {s : Text} (hk : k < (digitsOf s).length) :
    ∃ u d w, s = u ++ d :: w ∧ isDigitRune d = true ∧ (digitsOf u).length = k := by
  induction s generalizing k with
  | nil => exact absurd hk (by simp [digitsOf])
  | cons r s ih =>
    by_cases hr : isDigitRune r = true
    · rcases k with _ | k
      · exact ⟨[], r, s, rfl, hr, rfl⟩
      · rw [digitsOf_cons_of_digit hr, List.length_cons] at hk
        obtain ⟨u, d, w, rfl, hd, hu⟩ := ih (Nat.lt_of_succ_lt_succ hk)
        exact ⟨r :: u, d, w, rfl, hd, by rw [digitsOf_cons_of_digit hr, List.length_cons, hu]⟩
    · rw [digitsOf, List.filter_cons_of_neg hr, ← digitsOf] at hk
      obtain ⟨u, d, w, rfl, hd, hu⟩ := ih hk
      refine ⟨r :: u, d, w, rfl, hd, ?_⟩
      rw [digitsOf, List.filter_cons_of_neg hr, ← digitsOf, hu]

/-- Another digit at a place before the last four. -/
theorem sameLayout_set {k : ℕ} {u w : Text} {d d' : Rune} (hd : isDigitRune d = true)
    (hd' : isDigitRune d' = true) (hu : (digitsOf u).length = k)
    (hk : k + 4 < (digitsOf (u ++ d :: w)).length) : SameLayout (u ++ d :: w) (u ++ d' :: w) := by
  constructor
  · rw [List.map_append, List.map_append, List.map_cons, List.map_cons, hideDigit, if_pos hd',
      hideDigit, if_pos hd]
  · have hdrop (e : Rune) (he : isDigitRune e = true) :
        lastFour (u ++ e :: w) = (digitsOf w).drop ((digitsOf w).length - 4) := by
      rw [digitsOf_append, digitsOf_cons_of_digit hd, List.length_append, List.length_cons] at hk
      have hlen : (digitsOf u).length + ((digitsOf w).length + 1) - 4 =
          (digitsOf u ++ [e]).length + ((digitsOf w).length - 4) := by
        rw [List.length_append, List.length_singleton]
        omega
      rw [lastFour, digitsOf_append, digitsOf_cons_of_digit he, List.length_append,
        List.length_cons, hlen, List.append_cons (digitsOf u) e (digitsOf w),
        List.drop_length_add_append]
    rw [hdrop d' hd', hdrop d hd]

theorem isDigitRune_hideDigit (r : Rune) : isDigitRune (hideDigit r) = isDigitRune r := by
  unfold hideDigit
  split_ifs with hr
  · exact hr.symm
  · rfl

theorem isRunRune_hideDigit (r : Rune) : isRunRune (hideDigit r) = isRunRune r := by
  by_cases hr : isDigitRune r = true
  · rw [isRunRune, isDigitRune_hideDigit, isRunRune, hr, Bool.true_or, Bool.true_or]
  · rw [hideDigit, if_neg hr]

theorem length_digitsOf_hide (s : Text) :
    (digitsOf (s.map hideDigit)).length = (digitsOf s).length := by
  rw [digitsOf, List.filter_map, List.length_map, digitsOf]
  exact congrArg List.length (List.filter_congr fun r _ => isDigitRune_hideDigit r)

namespace SameLayout

variable {run run' before after : Text}

theorem length_digitsOf (h : SameLayout run run') :
    (digitsOf run').length = (digitsOf run).length := by
  rw [← length_digitsOf_hide, h.layout, length_digitsOf_hide]

theorem isRun (h : SameLayout run run') (hrun : IsRun before run after) :
    IsRun before run' after := by
  have hhead := congrArg (fun s => s.head?.any isDigitRune) h.layout
  have hlast := congrArg (fun s => s.getLast?.any isDigitRune) h.layout
  have hall := congrArg (fun s => s.all isRunRune) h.layout
  simp only [List.head?_map, List.getLast?_map, List.all_map, Option.any_map,
    Function.comp_def, isDigitRune_hideDigit, isRunRune_hideDigit] at hhead hlast hall
  exact ⟨hhead.trans hrun.first, hlast.trans hrun.last,
    List.all_eq_true.mp (hall.trans (List.all_eq_true.mpr hrun.all)), hrun.left, hrun.right⟩

end SameLayout

theorem exists_other_digit (r : Rune) : ∃ d, isDigitRune d = true ∧ d ≠ r := by
  by_cases hr : r = .char '0'
  · exact ⟨.char '1', by decide, hr ▸ by decide⟩
  · exact ⟨.char '0', by decide, Ne.symm hr⟩

theorem maskCards_sixteen {before run after : Text} (hrun : IsRun before run after)
    (h : (digitsOf run).length = 16) : maskCards run = mask 12 ++ lastFour run := by
  obtain ⟨rest, ⟨pre, hpre⟩, hdigits, hcards⟩ := maskCards_of_many hrun.all hrun.first h.ge
  have hnil : rest = [] := by
    by_contra hne
    have hlast := hrun.last
    rw [← hpre, List.getLast?_append_of_ne_nil pre hne] at hlast
    obtain ⟨r, hr, hdigit⟩ := (Option.any_eq_true _ _).mp hlast
    have hmem : r ∈ digitsOf rest := List.mem_filter.mpr ⟨List.mem_of_getLast? hr, hdigit⟩
    rw [← hdigits, List.drop_of_length_le h.le] at hmem
    exact List.not_mem_nil hmem
  rw [hcards, hnil, lastFour, h, List.take_of_length_le h.le]
  exact List.append_nil _

/-- The thirteenth digit stands after the stars. -/
theorem getElem?_maskCards {before run after : Text} (hrun : IsRun before run after)
    (hmany : 16 ≤ (digitsOf run).length) : (maskCards run)[12]? = (digitsOf run)[12]? := by
  obtain ⟨rest, -, -, hcards⟩ := maskCards_of_many hrun.all hrun.first hmany
  have hlen : (mask 12).length = 12 := List.length_replicate
  have hfour : (((digitsOf run).take 16).drop 12).length = 4 := by
    rw [List.length_drop, List.length_take, min_eq_left hmany]
  rw [hcards, List.append_assoc, List.getElem?_append_right hlen.le, hlen,
    List.getElem?_append_left (by omega), List.getElem?_drop, List.getElem?_take_of_lt (by decide)]

theorem getElem?_digitsOf {u w : Text} {d : Rune} (hd : isDigitRune d = true) :
    (digitsOf (u ++ d :: w))[(digitsOf u).length]? = some d := by
  rw [digitsOf_append, digitsOf_cons_of_digit hd, List.getElem?_append_right le_rfl, Nat.sub_self]
  rfl

/-- Any other run of thirteen digits or more shows a digit before its last four. -/
theorem exists_shown {before run after : Text} (hrun : IsRun before run after)
    (hlong : 13 ≤ (digitsOf run).length) (hne : (digitsOf run).length ≠ 16) :
    ∃ run', SameLayout run run' ∧ maskCards run' ≠ maskCards run := by
  by_cases hfew : (digitsOf run).length < 16
  · obtain ⟨u, d, w, rfl, hd, hu⟩ := exists_digit (s := run) (k := 0) (by omega)
    obtain ⟨d', hd', hother⟩ := exists_other_digit d
    have hlayout := sameLayout_set (w := w) hd hd' hu (by omega)
    refine ⟨_, hlayout, ?_⟩
    rw [maskCards_of_few hfew, maskCards_of_few (hlayout.length_digitsOf.trans_lt hfew)]
    simpa using hother
  · obtain ⟨u, d, w, rfl, hd, hu⟩ := exists_digit (s := run) (k := 12) (by omega)
    obtain ⟨d', hd', hother⟩ := exists_other_digit d
    have hlayout := sameLayout_set (w := w) hd hd' hu (by omega)
    refine ⟨_, hlayout, fun heq => hother ?_⟩
    have hshown := congrArg (fun s => s[12]?) heq
    rw [getElem?_maskCards hrun (by omega),
      getElem?_maskCards (hlayout.isRun hrun) (by rw [hlayout.length_digitsOf]; omega),
      ← hu, getElem?_digitsOf hd, getElem?_digitsOf hd'] at hshown
    exact Option.some.inj hshown

/-! ## The piece that holds a run -/

theorem joinPieces_append (A : List Text) (x y : Text) (B : List Text) :
    joinPieces (A ++ [x]) ++ joinPieces (y :: B) = joinPieces (A ++ (x ++ y) :: B) := by
  induction A with
  | nil =>
    rcases B with _ | ⟨z, B⟩
    · simp [joinPieces_singleton]
    · have hne : z :: B ≠ [] := List.cons_ne_nil z B
      rw [List.nil_append, List.nil_append, joinPieces_singleton, joinPieces_cons _ hne,
        joinPieces_cons _ hne, List.append_assoc]
  | cons a A ih =>
    have hleft : A ++ [x] ≠ [] := by simp
    have hright : A ++ (x ++ y) :: B ≠ [] := by simp
    rw [List.cons_append, List.cons_append, joinPieces_cons a hleft, joinPieces_cons a hright,
      ← ih, List.append_assoc, List.cons_append]

theorem count_joinPieces {ps : List Text} (hps : Unquoted ps) :
    (joinPieces ps).count quoteMark = ps.length - 1 := by
  induction ps with
  | nil => rfl
  | cons p ps ih =>
    obtain ⟨hp, hrest⟩ := unquoted_cons.mp hps
    have hcount : p.count quoteMark = 0 := List.count_eq_zero.mpr hp
    by_cases hnil : ps = []
    · subst hnil
      rw [joinPieces_singleton, hcount]
      rfl
    · have hlen : 0 < ps.length := List.length_pos_of_ne_nil hnil
      rw [joinPieces_cons p hnil, List.count_append, List.count_cons_self, hcount, ih hrest,
        List.length_cons]
      omega

theorem suffix_joinPieces (A : List Text) (x : Text) : x <:+ joinPieces (A ++ [x]) := by
  induction A with
  | nil => exact (joinPieces_singleton x).symm ▸ List.suffix_refl x
  | cons a A ih =>
    rw [List.cons_append, joinPieces_cons _ (by simp)]
    exact (ih.trans (List.suffix_cons _ _)).trans (List.suffix_append _ _)

theorem prefix_joinPieces (y : Text) (B : List Text) : y <+: joinPieces (y :: B) := by
  rcases B with _ | ⟨z, B⟩
  · exact (joinPieces_singleton y).symm ▸ List.prefix_refl y
  · rw [joinPieces_cons y (List.cons_ne_nil z B)]
    exact List.prefix_append _ _

theorem exists_pieces_around (before after : Text) :
    ∃ A x y B, A.length = before.count quoteMark ∧ x <:+ before ∧ y <+: after ∧
      ∀ run, quoteMark ∉ run → pieces (before ++ run ++ after) = A ++ (x ++ run ++ y) :: B := by
  obtain ⟨A, x, hbefore⟩ : ∃ A x, pieces before = A ++ [x] :=
    ⟨_, _, (List.dropLast_append_getLast (pieces_ne_nil before)).symm⟩
  obtain ⟨y, B, hafter⟩ := List.exists_cons_of_ne_nil (pieces_ne_nil after)
  have hx := unquoted_pieces before
  have hy := unquoted_pieces after
  have hjoin := joinPieces_pieces before
  have hjoin' := joinPieces_pieces after
  rw [hbefore] at hx hjoin
  rw [hafter] at hy hjoin'
  refine ⟨A, x, y, B, ?_, hjoin ▸ suffix_joinPieces A x, hjoin' ▸ prefix_joinPieces y B, ?_⟩
  · rw [← hjoin, count_joinPieces hx]
    simp
  · intro run hrun
    have hall : Unquoted (A ++ (x ++ run ++ y) :: B) := by
      rw [unquoted_append, unquoted_cons] at hx ⊢
      rw [unquoted_cons] at hy
      refine ⟨hx.1, fun hmem => ?_, hy.2⟩
      rcases List.mem_append.mp hmem with hmem | hmem
      · rcases List.mem_append.mp hmem with hmem | hmem
        · exact hx.2.1 hmem
        · exact hrun hmem
      · exact hy.1 hmem
    have heq : before ++ run ++ after = joinPieces (A ++ (x ++ run ++ y) :: B) := by
      rw [← joinPieces_append A (x ++ run) y B, hjoin', ← joinPieces_append A x run [], hjoin,
        joinPieces_singleton]
    rw [heq, pieces_joinPieces hall (by simp)]

theorem opensRun_of_prefix {s t : Text} (h : s <+: t) (hs : opensRun s = true) :
    opensRun t = true := by
  obtain ⟨u, rfl⟩ := h
  unfold opensRun dropRunes at hs ⊢
  rw [List.dropWhile_append]
  cases hdrop : s.dropWhile (Rune.is isCardGap) with
  | nil =>
    rw [hdrop] at hs
    cases hs
  | cons r v =>
    rw [hdrop] at hs
    exact hs

/-- A text that does not end within a run is masked on its own. -/
theorem maskCards_append_left {x : Text} (hx : opensRun x.reverse = false) (s : Text) :
    maskCards (x ++ s) = maskCards x ++ maskCards s := by
  have hgaps : ∀ r ∈ x.reverse.takeWhile (Rune.is isCardGap), isDigitRune r = false := fun r hr =>
    not_isDigitRune_of_gap (List.mem_takeWhile_imp hr)
  have hsplit := List.takeWhile_append_dropWhile (p := Rune.is isCardGap) (l := x.reverse)
  revert hgaps hsplit
  generalize x.reverse.takeWhile (Rune.is isCardGap) = gaps
  intro hgaps hsplit
  have hrev : ∀ r ∈ gaps.reverse, isDigitRune r = false := fun r hr =>
    hgaps r (List.mem_reverse.mp hr)
  cases hdrop : dropRunes isCardGap x.reverse with
  | nil =>
    unfold dropRunes at hdrop
    rw [hdrop, List.append_nil] at hsplit
    rw [← List.reverse_reverse x, ← hsplit, maskCards_append_of_no_digit hrev,
      maskCards_of_no_digit hrev]
  | cons r u =>
    have hr : isDigitRune r = false := by
      rw [opensRun, hdrop] at hx
      exact hx
    have hgap := not_is_of_dropRunes hdrop
    unfold dropRunes at hdrop
    rw [hdrop] at hsplit
    have heq : x = u.reverse ++ r :: gaps.reverse := by
      rw [← List.reverse_reverse x, ← hsplit]
      simp
    have htail : ∀ r' ∈ r :: gaps.reverse, isDigitRune r' = false :=
      List.forall_mem_cons.mpr ⟨hr, hrev⟩
    have hblocked (t : Text) : opensRun (r :: t) = false := by
      rw [opensRun, dropRunes, List.dropWhile_cons_of_neg (by simp [hgap])]
      exact hr
    rw [heq, List.append_assoc, List.cons_append, maskCards_append (hblocked _),
      maskCards_append (hblocked _), ← List.cons_append, maskCards_append_of_no_digit htail,
      maskCards_of_no_digit htail, List.append_assoc]

/-! ## The piece under the passes -/

section Around

variable {names : List String}

/-- No name and no colon. -/
structure Other (names : List String) (p : Text) : Prop where
  key : isKeyPiece names p = false
  colon : isColonPiece p = false

theorem Other.of_digit (h : PlainNames names) {p : Text} {r : Rune} (hr : r ∈ p)
    (hdigit : isDigitRune r = true) : Other names p := by
  constructor
  · rw [← Bool.not_eq_true]
    intro hkey
    rw [isDigitRune, not_isDigit_of_isKeyPiece h hkey r hr] at hdigit
    cases hdigit
  · rw [← Bool.not_eq_true]
    intro hcolon
    rw [isDigitRune, not_isDigit_of_isColonPiece hcolon r hr] at hdigit
    cases hdigit

/-- What becomes of the pieces around does not depend on a piece that is no name and no colon. -/
structure Around (names : List String) (A B A' B' : List Text) (value : Bool) (p : Text) : Prop where
  masked : maskPieces names (A ++ p :: B) = A' ++ (if value then mask 8 else p) :: B'
  isValue : isValuePiece names (A ++ p :: B) A.length = value

theorem Around.skip {a p : Text} {A B A' B' : List Text} {value : Bool}
    (h : startsMember names (a :: (A ++ p :: B)) = false) (hp : Around names A B A' B' value p) :
    Around names (a :: A) B (a :: A') B' value p := by
  constructor
  · rw [List.cons_append, maskPieces_skip h, hp.masked, List.cons_append]
  · rw [List.cons_append, List.length_cons, isValuePiece_skip h, hp.isValue]

theorem Around.member {a name colon v p : Text} {A B A' B' : List Text} {value : Bool}
    (h : (isKeyPiece names name && isColonPiece colon) = true)
    (hp : Around names A B A' B' value p) :
    Around names (a :: name :: colon :: v :: A) B (a :: name :: colonPiece :: mask 8 :: A') B'
      value p := by
  obtain ⟨after, rest, heq⟩ : ∃ after rest, A ++ p :: B = after :: rest :=
    List.exists_cons_of_ne_nil (by simp)
  have hmasked := hp.masked
  have hvalue := hp.isValue
  rw [heq] at hmasked hvalue
  constructor
  · simp only [List.cons_append, heq]
    rw [maskPieces, if_pos h, hmasked]
  · simp only [List.cons_append, List.length_cons, heq]
    rw [isValuePiece, if_pos h, Nat.add_sub_cancel (n := A.length) (m := 4), hvalue]
    simp

theorem exists_around (names : List String) (A B : List Text) :
    ∃ A' B' value, A'.length = A.length ∧ ∀ p, Other names p → Around names A B A' B' value p := by
  induction hn : A.length using Nat.strong_induction_on generalizing A with
  | h n ih =>
    match A, hn with
    | [], hn =>
      refine ⟨[], (maskPieces names ([] :: B)).tail, false, hn, fun p _ => ⟨?_, ?_⟩⟩
      · exact maskPieces_cons p [] B
      · exact isValuePiece_zero _
    | a :: A, hn =>
      by_cases hstart : ∀ p, Other names p → startsMember names (a :: (A ++ p :: B)) = false
      · obtain ⟨A', B', value, hlen, hskip⟩ := ih A.length (hn ▸ Nat.lt_succ_self _) A rfl
        refine ⟨a :: A', B', value, ?_, fun p hp => (hskip p hp).skip (hstart p hp)⟩
        rw [List.length_cons, hlen, ← hn, List.length_cons]
      · obtain ⟨p, hp, hmatch⟩ : ∃ p, Other names p ∧
            startsMember names (a :: (A ++ p :: B)) = true := by simpa using hstart
        match A, B, hn, hmatch with
        | [], B, _, hmatch =>
          rcases B with _ | ⟨_, _ | ⟨_, _ | ⟨_, B⟩⟩⟩ <;> simp [startsMember, hp.key] at hmatch
        | [_], B, _, hmatch =>
          rcases B with _ | ⟨_, _ | ⟨_, B⟩⟩ <;> simp [startsMember, hp.colon] at hmatch
        | [_, _], [], _, hmatch => cases hmatch
        | [name, colon], after :: rest, hn, hmatch =>
          refine ⟨[a, name, colonPiece], maskPieces names (after :: rest), true, hn, fun q _ => ?_⟩
          constructor
          · exact if_pos hmatch
          · exact (if_pos hmatch).trans (by simp)
        | name :: colon :: value :: A, B, hn, hmatch =>
          obtain ⟨A', B', v, hlen, hrest⟩ := ih A.length (by simp at hn; omega) A rfl
          have hmatch' : (isKeyPiece names name && isColonPiece colon) = true := by
            rcases A with _ | ⟨_, A⟩ <;> exact hmatch
          refine ⟨a :: name :: colonPiece :: mask 8 :: A', B', v, ?_, fun q hq => ?_⟩
          · rw [← hn]
            simp [hlen]
          · exact (hrest q hq).member hmatch'

end Around

/-! ## What masking shows of a run -/

theorem IsRun.not_mem_quote {before run after : Text} (h : IsRun before run after) :
    quoteMark ∉ run := fun hmem => absurd (h.all _ hmem) (by decide)

theorem IsRun.exists_digit {before run after : Text} (h : IsRun before run after) :
    ∃ r ∈ run, isDigitRune r = true := by
  obtain ⟨r, hr, hdigit⟩ := (Option.any_eq_true _ _).mp h.first
  exact ⟨r, List.mem_of_head? hr, hdigit⟩

theorem IsRun.maskCards_around {before run after x y : Text} (h : IsRun before run after)
    (hx : x <:+ before) (hy : y <+: after) :
    maskCards (x ++ run ++ y) = maskCards x ++ maskCards run ++ maskCards y := by
  have hleft : opensRun x.reverse = false := by
    rw [← Bool.not_eq_true]
    intro hopens
    have hbefore := opensRun_of_prefix (List.reverse_prefix.mpr hx) hopens
    rw [h.left] at hbefore
    cases hbefore
  have hright : opensRun y = false := by
    rw [← Bool.not_eq_true]
    intro hopens
    have hafter := opensRun_of_prefix hy hopens
    rw [h.right] at hafter
    cases hafter
  rw [maskCards_append hright, maskCards_append_left hleft]

/-- Only the piece with the run depends on it, and only when it is not a masked value. -/
theorem exists_pieces_maskJSON (before after : Text) :
    ∃ A B x y hidden, x <:+ before ∧ y <+: after ∧ ∀ run, IsRun before run after →
      inMaskedValue before (before ++ run ++ after) = hidden ∧
      pieces (maskJSON (before ++ run ++ after)) =
        A ++ (if hidden then mask 8 else maskCards (x ++ run ++ y)) :: B := by
  obtain ⟨A, x, y, B, hlen, hx, hy, hpieces⟩ := exists_pieces_around before after
  obtain ⟨A₁, B₁, v₁, hlen₁, hfirst⟩ := exists_around passwordNames A B
  obtain ⟨A₂, B₂, v₂, hlen₂, hsecond⟩ := exists_around tokenNames A₁ B₁
  have hother {names : List String} (h : PlainNames names) {run : Text}
      (hrun : IsRun before run after) : Other names (x ++ run ++ y) := by
    obtain ⟨r, hr, hdigit⟩ := hrun.exists_digit
    exact .of_digit h (List.mem_append_left _ (List.mem_append_right _ hr)) hdigit
  rcases v₁ with _ | _
  · refine ⟨A₂.map maskCards, B₂.map maskCards, x, y, v₂, hx, hy, fun run hrun => ?_⟩
    have hp := hfirst _ (hother plain_passwordNames hrun)
    have ht := hsecond _ (hother plain_tokenNames hrun)
    have hmasked := hp.masked
    rw [if_neg Bool.false_ne_true] at hmasked
    constructor
    · rw [inMaskedValue, hpieces run hrun.not_mem_quote, ← hlen, hp.isValue, hmasked, ← hlen₁,
        ht.isValue, Bool.false_or]
    · rw [pieces_maskJSON, hpieces run hrun.not_mem_quote, hmasked, ht.masked, List.map_append,
        List.map_cons]
      rcases v₂ with _ | _
      · rfl
      · rw [if_pos rfl, if_pos rfl, maskCards_mask]
  · refine ⟨A₂.map maskCards, B₂.map maskCards, x, y, true, hx, hy, fun run hrun => ?_⟩
    have hp := hfirst _ (hother plain_passwordNames hrun)
    have ht := hsecond (mask 8) ⟨by decide, by decide⟩
    have hmasked := hp.masked
    rw [if_pos rfl] at hmasked
    constructor
    · rw [inMaskedValue, hpieces run hrun.not_mem_quote, ← hlen, hp.isValue, Bool.true_or]
    · rw [pieces_maskJSON, hpieces run hrun.not_mem_quote, hmasked, ht.masked, ite_self,
        List.map_append, List.map_cons, maskCards_mask, if_pos rfl]

/-- A run of thirteen digits or more shows no more than its last four when there are sixteen of
them, or when it is masked as a part of a value. -/
theorem IsRun.showsLastFour_iff {before run after : Text} (h : IsRun before run after)
    (hlong : 13 ≤ (digitsOf run).length) :
    ShowsLastFour before run after ↔ (digitsOf run).length = 16 ∨
      inMaskedValue before (before ++ run ++ after) = true := by
  obtain ⟨A, B, x, y, hidden, hx, hy, hmask⟩ := exists_pieces_maskJSON before after
  have hsame (run' : Text) (h' : IsRun before run' after) :
      maskJSON (before ++ run' ++ after) = maskJSON (before ++ run ++ after) ↔
        hidden = true ∨ maskCards run' = maskCards run := by
    have hinj : maskJSON (before ++ run' ++ after) = maskJSON (before ++ run ++ after) ↔
        pieces (maskJSON (before ++ run' ++ after)) = pieces (maskJSON (before ++ run ++ after)) :=
      ⟨congrArg pieces, pieces_injective⟩
    rw [hinj, (hmask run' h').2, (hmask run h).2, List.append_cancel_left_eq, List.cons.injEq]
    rcases hidden with _ | _
    · rw [if_neg Bool.false_ne_true, if_neg Bool.false_ne_true, h'.maskCards_around hx hy,
        h.maskCards_around hx hy, List.append_cancel_right_eq, List.append_cancel_left_eq]
      simp
    · simp
  rw [(hmask run h).1]
  constructor
  · intro hshows
    by_contra hneither
    obtain ⟨hne, hvisible⟩ := not_or.mp hneither
    obtain ⟨run', hlayout, hdiffer⟩ := exists_shown h hlong hne
    rcases (hsame run' (hlayout.isRun h)).mp (hshows run' hlayout) with hhidden | heq
    · exact hvisible hhidden
    · exact hdiffer heq
  · rintro hcases run' hlayout
    have h' := hlayout.isRun h
    refine (hsame run' h').mpr ?_
    rcases hcases with hlen | hhidden
    · right
      rw [maskCards_sixteen h hlen, maskCards_sixteen h' (hlayout.length_digitsOf.trans hlen),
        hlayout.lastFour]
    · exact Or.inl hhidden

/-- In a text, every run of thirteen digits or more. -/
theorem runs_show_last_four_iff (s : Text) :
    (∀ before run after, before ++ run ++ after = s → IsRun before run after →
        13 ≤ (digitsOf run).length → ShowsLastFour before run after) ↔
      ∀ before run after, before ++ run ++ after = s → IsRun before run after →
        13 ≤ (digitsOf run).length →
          (digitsOf run).length = 16 ∨ inMaskedValue before s = true := by
  refine forall_congr' fun before => forall_congr' fun run => forall_congr' fun after => ?_
  refine forall_congr' fun heq => forall_congr' fun hrun => forall_congr' fun hlong => ?_
  rw [hrun.showsLastFour_iff hlong, heq]

/-- Thirteen digits are detected, and all of them show; so does one of seventeen. -/
theorem thirteen_digits_show :
    isSensitive (Json.text "4111111111111".toList) = true ∧
      IsRun [] (Json.text "4111111111111".toList) [] ∧
      ¬ShowsLastFour [] (Json.text "4111111111111".toList) [] ∧
      IsRun [] (Json.text "41111111111111111".toList) [] ∧
      ¬ShowsLastFour [] (Json.text "41111111111111111".toList) [] := by
  refine ⟨rfl, ⟨?_, ?_, ?_, ?_, ?_⟩, fun h => ?_, ⟨?_, ?_, ?_, ?_, ?_⟩, fun h => ?_⟩
  case refine_6 =>
    have hsame := h (Json.text "5111111111111".toList) ⟨by decide +kernel, by decide +kernel⟩
    revert hsame
    decide +kernel
  case refine_12 =>
    have hsame := h (Json.text "41111111111121111".toList) ⟨by decide +kernel, by decide +kernel⟩
    revert hsame
    decide +kernel
  all_goals decide +kernel

end BatAudit
