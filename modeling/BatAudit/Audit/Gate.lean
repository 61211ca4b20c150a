import BatAudit.Audit.Pieces

/-!
# The detection gate

An event is masked only when its request body or its query parameters look sensitive. Detection
does not look at the response body and does not know the token names, so masking every event
would change more of them.
-/

namespace BatAudit

open Json (Text Rune)

/-- Sixteen digits somewhere. -/
def hasCard (s : Text) : Bool := s.tails.any fun t => (matchDigits 16 t).isSome

/-- Every member with these names already reads `"name":"********"`. -/
def MembersMasked (names : List String) (s : Text) : Prop :=
  ∀ i, isValuePiece names (pieces s) (i + 1) = true →
    (pieces s)[i]? = some colonPiece ∧ (pieces s)[i + 1]? = some (mask 8)

/-- What detection overlooks is not there. -/
structure NothingMissed (a : Audit) : Prop where
  requestBody : MembersMasked tokenNames a.requestBody
  queryParams : MembersMasked tokenNames a.queryParams
  responseCards : hasCard a.responseBody = false
  responsePasswords : MembersMasked passwordNames a.responseBody
  responseTokens : MembersMasked tokenNames a.responseBody

/-- `Create` masks what is detected. -/
def maskDetected (audit : Audit) : Audit :=
  if detectSensitiveData audit then maskSensitiveData audit else audit

/-! ## Texts that masking leaves as they are -/

theorem hasCard_cons (r : Rune) (s : Text) :
    hasCard (r :: s) = ((matchDigits 16 (r :: s)).isSome || hasCard s) := by
  rw [hasCard, hasCard, List.tails_cons, List.any_cons]

theorem hasCard_eq_false {s : Text} :
    hasCard s = false ↔ ∀ t, t <:+ s → matchDigits 16 t = none := by
  simp [hasCard, List.any_eq_false]

theorem maskCards_eq_self_iff (s : Text) : maskCards s = s ↔ hasCard s = false := by
  induction s using maskCards_induction with
  | nil => exact iff_of_true rfl rfl
  | none r s hnone ih =>
    have hdigits : matchDigits 16 (r :: s) = none := Option.map_eq_none_iff.mp hnone
    rw [maskCards_of_none hnone, hasCard_cons, hdigits, List.cons_inj_right, ih]
    rfl
  | some s out rest hsome _ =>
    obtain ⟨⟨ds, rest'⟩, hmatch, heq⟩ := Option.map_eq_some_iff.mp hsome
    obtain ⟨c, t, ds', rfl, hc, -⟩ := matchDigits_succ hmatch
    rw [maskCards_of_some hsome, hasCard_cons, hmatch]
    refine iff_of_false (fun hself => ?_) (by simp)
    cases heq
    have hstar : Rune.char '*' = .char c := (List.cons.inj hself).1
    rw [← Rune.char.inj hstar] at hc
    revert hc
    decide

section Members

variable {names : List String}

theorem isValuePiece_zero (ps : List Text) : isValuePiece names ps 0 = false := by
  unfold isValuePiece
  split
  · split_ifs <;> simp
  · rfl

theorem maskPieces_eq_self_iff (ps : List Text) :
    maskPieces names ps = ps ↔ ∀ i, isValuePiece names ps (i + 1) = true →
      ps[i]? = some colonPiece ∧ ps[i + 1]? = some (mask 8) := by
  induction ps using maskPieces.induct names with
  | case1 before name colon value after rest hmatch ih =>
    rw [maskPieces, if_pos hmatch]
    simp only [List.cons.injEq, true_and, ih]
    constructor
    · rintro ⟨rfl, rfl, hrest⟩ i hi
      rw [isValuePiece, if_pos hmatch, Bool.or_eq_true, Bool.and_eq_true] at hi
      rcases hi with hi | ⟨hle, hi⟩
      · obtain rfl : i = 2 := by simpa using hi
        exact ⟨rfl, rfl⟩
      · obtain ⟨j, rfl⟩ : ∃ j, i = j + 3 := ⟨i - 3, by simp at hle; omega⟩
        rcases j with _ | j
        · rw [isValuePiece_zero] at hi
          cases hi
        · exact hrest j hi
    · intro h
      have hvalue := h 2 (by rw [isValuePiece, if_pos hmatch]; rfl)
      refine ⟨(Option.some.inj hvalue.1).symm, (Option.some.inj hvalue.2).symm, fun i hi => ?_⟩
      exact h (i + 4) (by rw [isValuePiece, if_pos hmatch]; simpa using hi)
  | case2 before name colon value after rest hmatch ih =>
    rw [maskPieces, if_neg hmatch, List.cons_inj_right, ih]
    constructor
    · intro h i hi
      rw [isValuePiece, if_neg hmatch] at hi
      rcases i with _ | i
      · rw [Nat.zero_add, Nat.sub_self, isValuePiece_zero] at hi
        simp at hi
      · exact h i (by simpa using hi)
    · intro h i hi
      exact h (i + 1) (by rw [isValuePiece, if_neg hmatch]; simpa using hi)
  | case3 ps hshape =>
    have hself : maskPieces names ps = ps := by
      rw [maskPieces]
      exact hshape
    refine iff_of_true hself fun i hi => ?_
    rw [isValuePiece] at hi
    · cases hi
    · exact hshape

theorem replaceAll_maskedMember_eq_self_iff (h : PlainNames names) (s : Text) :
    replaceAll (maskedMember names) s = s ↔ MembersMasked names s := by
  rw [MembersMasked, ← maskPieces_eq_self_iff, ← replaceAll_maskedMember_pieces h]
  exact ⟨congrArg pieces, pieces_injective⟩

end Members

theorem eq_of_forall₂_trans {ps qs : List Text} (h : List.Forall₂ PieceMasked ps qs)
    (h' : List.Forall₂ PieceMasked qs ps) : qs = ps := by
  induction h with
  | nil => rfl
  | cons hp _ ih =>
    cases h' with
    | cons hp' hps' => rw [hp.antisymm hp', ih hps']

theorem eq_of_map_maskCards {ps qs : List Text} (h : List.Forall₂ PieceMasked ps qs)
    (hmap : qs.map maskCards = ps) : qs = ps := by
  induction h with
  | nil => rfl
  | cons hp _ ih =>
    obtain ⟨hhead, htail⟩ := List.cons.inj hmap
    rcases hp.eq_or_kept with heq | heq
    · rw [heq, ih htail]
    · rw [← hhead, heq, ih htail]

/-- No pass undoes what another one did. -/
theorem maskJSON_eq_self_iff (s : Text) :
    maskJSON s = s ↔ hasCard s = false ∧ MembersMasked passwordNames s ∧
      MembersMasked tokenNames s := by
  rw [← maskCards_eq_self_iff, ← replaceAll_maskedMember_eq_self_iff plain_passwordNames,
    ← replaceAll_maskedMember_eq_self_iff plain_tokenNames]
  constructor
  · intro h
    have hmap : (maskPieces tokenNames (maskPieces passwordNames (pieces s))).map maskCards =
        pieces s := by rw [← pieces_maskJSON, h]
    have hall := eq_of_map_maskCards (pieceMasked_twice _) hmap
    have hpasswords : maskPieces passwordNames (pieces s) = pieces s := by
      have hback := pieceMasked_maskPieces tokenNames (maskPieces passwordNames (pieces s))
      rw [hall] at hback
      exact eq_of_forall₂_trans (pieceMasked_maskPieces _ _) hback
    rw [hpasswords] at hall hmap
    rw [hall] at hmap
    refine ⟨pieces_injective ?_, pieces_injective ?_, pieces_injective ?_⟩
    · rw [pieces_maskCards, hmap]
    · rw [replaceAll_maskedMember_pieces plain_passwordNames, hpasswords]
    · rw [replaceAll_maskedMember_pieces plain_tokenNames, hall]
  · rintro ⟨hcards, hpasswords, htokens⟩
    rw [maskJSON_eq, hpasswords, htokens, hcards]

/-! ## What detection finds -/

theorem isSensitive_eq_false {s : Text} :
    isSensitive s = false ↔ ∀ t, t <:+ s →
      matchDigits 13 t = none ∧ matchesKey t = false ∧ matchKey passwordNames t = none := by
  simp only [isSensitive, List.any_eq_false, List.mem_tails, Bool.or_eq_true, not_or,
    Bool.not_eq_true, Option.isSome_eq_false_iff, Option.isNone_iff_eq_none, and_assoc]

/-- Fewer digits match, too. -/
theorem isSome_matchDigits {m n : ℕ} (hle : m ≤ n) {s : Text}
    (h : (matchDigits n s).isSome = true) : (matchDigits m s).isSome = true := by
  induction m generalizing n s with
  | zero => rfl
  | succ m ih =>
    obtain ⟨n, rfl⟩ : ∃ n', n = n' + 1 := ⟨n - 1, by omega⟩
    obtain ⟨⟨ds, rest⟩, hmatch⟩ := Option.isSome_iff_exists.mp h
    obtain ⟨c, t, ds', rfl, hc, hmatch, -⟩ := matchDigits_succ hmatch
    rw [matchDigits, if_pos hc, Option.isSome_map]
    rcases m with _ | m
    · rfl
    · have hn : n ≠ 0 := by omega
      rw [if_neg hn] at hmatch
      rw [if_neg (Nat.succ_ne_zero m)]
      exact ih (Nat.le_of_succ_le_succ hle) (hmatch ▸ rfl)

theorem hasCard_of_not_sensitive {s : Text} (h : isSensitive s = false) : hasCard s = false := by
  rw [hasCard_eq_false]
  intro t ht
  have hnone := (isSensitive_eq_false.mp h t ht).1
  by_contra hcard
  have hsome := isSome_matchDigits (m := 13) (by decide) (Option.ne_none_iff_isSome.mp hcard)
  rw [hnone] at hsome
  cases hsome

theorem replaceAll_of_none {m : Text → Option (Text × Text)} {s : Text}
    (h : ∀ t, t <:+ s → m t = none) : replaceAll m s = s := by
  induction s with
  | nil => rfl
  | cons r s ih =>
    have hrest : replaceFrom m 0 s = s := ih fun t ht => h t (ht.trans (List.suffix_cons r s))
    rw [replaceAll, replaceFrom_of_none (h _ (List.suffix_refl _)), hrest]

theorem passwordsMasked_of_not_sensitive {s : Text} (h : isSensitive s = false) :
    MembersMasked passwordNames s := by
  rw [← replaceAll_maskedMember_eq_self_iff plain_passwordNames]
  refine replaceAll_of_none fun t ht => ?_
  rw [maskedMember, matchMember_eq, (isSensitive_eq_false.mp h t ht).2.2]
  rfl

theorem maskJSON_eq_self_of_not_sensitive {s : Text} (h : isSensitive s = false) :
    maskJSON s = s ↔ MembersMasked tokenNames s := by
  rw [maskJSON_eq_self_iff]
  simp [hasCard_of_not_sensitive h, passwordsMasked_of_not_sensitive h]

theorem maskSensitiveData_eq_self_iff (a : Audit) :
    maskSensitiveData a = a ↔ maskJSON a.requestBody = a.requestBody ∧
      maskJSON a.responseBody = a.responseBody ∧ maskJSON a.queryParams = a.queryParams := by
  constructor
  · intro h
    exact ⟨congrArg Audit.requestBody h, congrArg Audit.responseBody h,
      congrArg Audit.queryParams h⟩
  · rintro ⟨hrequest, hresponse, hquery⟩
    rw [maskSensitiveData, hrequest, hresponse, hquery]

/-- The gate hides nothing exactly when it is open, or when what it overlooks is not there. -/
theorem maskDetected_eq_iff (audit : Audit) :
    maskDetected audit = maskSensitiveData audit ↔
      detectSensitiveData audit = true ∨ NothingMissed audit := by
  by_cases hdetect : detectSensitiveData audit = true
  · rw [maskDetected, if_pos hdetect]
    exact iff_of_true rfl (Or.inl hdetect)
  · have hquiet := (Bool.not_eq_true _).mp hdetect
    rw [detectSensitiveData, Bool.or_eq_false_iff] at hquiet
    rw [maskDetected, if_neg hdetect, eq_comm, maskSensitiveData_eq_self_iff,
      maskJSON_eq_self_of_not_sensitive hquiet.1, maskJSON_eq_self_of_not_sensitive hquiet.2,
      maskJSON_eq_self_iff]
    constructor
    · rintro ⟨hrequest, ⟨hcards, hpasswords, htokens⟩, hquery⟩
      exact Or.inr ⟨hrequest, hquery, hcards, hpasswords, htokens⟩
    · rintro (h | h)
      · exact absurd h hdetect
      · exact ⟨h.requestBody, ⟨h.responseCards, h.responsePasswords, h.responseTokens⟩,
          h.queryParams⟩

/-- A token in the request body, a password in the response body. -/
theorem gate_hides_token :
    maskDetected { requestBody := Json.text "\x7b\"token\":\"abc\"\x7d".toList } ≠
        maskSensitiveData { requestBody := Json.text "\x7b\"token\":\"abc\"\x7d".toList } ∧
      maskDetected { responseBody := Json.text "\x7b\"password\":\"abc\"\x7d".toList } ≠
        maskSensitiveData
          { responseBody := Json.text "\x7b\"password\":\"abc\"\x7d".toList } := by
  decide +kernel

end BatAudit
