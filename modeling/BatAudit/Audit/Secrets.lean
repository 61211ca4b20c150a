import BatAudit.Audit.MaskedColumns

/-!
# Secret members

The members whose keys are names of secrets, and when masking puts stars for all of them. The
pattern for a value wants quotes, so a secret that is a number, an array or an object is kept.
-/

namespace BatAudit

open Json (Text StrLit Token Tree)

/-- The names that the documentation and the patterns list, in capitals. -/
def listedNames : List String :=
  ["PASSWORD", "PASSWD", "SENHA", "SECRET", "PWD", "API_KEY", "TOKEN", "REFRESH_TOKEN",
    "ACCESS_TOKEN", "SECRET_KEY", "AUTHORIZATION"]

/-- A listed name, but for case. -/
def isListed (key : List Char) : Bool :=
  listedNames.any fun name => key.map GoText.foldRune = name.toList

def stars : List Char := List.replicate 8 '*'

/-- Every secret member has stars for its value. -/
def SecretsMasked (v : Tree) : Prop :=
  ∀ m ∈ v.allMembers, isListed (Json.unquote m.1) = true → ∃ s, m.2 = .str s ∧ Json.unquote s = stars

/-- The secret members that the patterns reach, or that have stars already. -/
def SecretsReached (v : Tree) : Prop :=
  ∀ m ∈ v.allMembers, isListed (Json.unquote m.1) = true →
    ∃ s, m.2 = .str s ∧ (isKeyed secretNames m.1 = true ∨ Json.unquote s = stars)

/-! ## Keys and values under masking -/

theorem isNameLetter_of_isListed {key : List Char} (h : isListed key = true) {c : Char}
    (hc : c ∈ key) : isNameLetter (GoText.foldRune c) = true := by
  obtain ⟨name, hname, heq⟩ := List.any_eq_true.mp h
  rw [decide_eq_true_eq] at heq
  have hletters : listedNames.all (fun name => name.toList.all isNameLetter) = true := by decide
  refine List.all_eq_true.mp (List.all_eq_true.mp hletters name hname) _ ?_
  rw [← heq]
  exact List.mem_map_of_mem hc

theorem not_isListed_of_digit {key : List Char} {c : Char} (hc : c ∈ key)
    (hdigit : GoText.isDigit c = true) : isListed key = false := by
  rw [← Bool.not_eq_true]
  intro hlisted
  have hletter := isNameLetter_of_isListed hlisted hc
  rw [foldRune_of_isDigit hdigit, isNameLetter_of_isDigit hdigit] at hletter
  cases hletter

theorem not_isListed_of_star {key : List Char} (hc : '*' ∈ key) : isListed key = false := by
  rw [← Bool.not_eq_true]
  intro hlisted
  exact absurd (isNameLetter_of_isListed hlisted hc) (by decide)

/-- Masking makes no key a name, and hides none. -/
theorem isListed_maskLit {k : StrLit} (h : cutsEscape k = false) :
    isListed (Json.unquote (maskLit k)) = isListed (Json.unquote k) := by
  rcases (content_maskLit h).2 with hself | hstarred
  · rw [hself]
  · obtain ⟨c, hc, hdigit⟩ := hstarred.digit_mem
    obtain ⟨x, y, hstars, -⟩ := hstarred.exists_stars
    have hstar : '*' ∈ Json.unquote (maskLit k) := by
      rw [hstars]
      exact List.mem_append_right x (List.mem_append_left y (by decide))
    rw [not_isListed_of_digit hc hdigit, not_isListed_of_star hstar]

/-- Twelve stars are more than eight. -/
theorem unquote_maskLit_eq_stars {s : StrLit} (h : cutsEscape s = false) :
    Json.unquote (maskLit s) = stars ↔ Json.unquote s = stars := by
  rcases (content_maskLit h).2 with hself | hstarred
  · rw [hself]
  · refine iff_of_false (fun heq => ?_) fun heq => ?_
    · obtain ⟨x, y, hstars, -⟩ := hstarred.exists_stars
      have hlen := congrArg List.length (hstars.symm.trans heq)
      simp only [stars, List.length_append, List.length_replicate] at hlen
      omega
    · obtain ⟨c, hc, hdigit⟩ := hstarred.digit_mem
      rw [heq] at hc
      rw [List.eq_of_mem_replicate hc] at hdigit
      revert hdigit
      decide

theorem maskLit_starsLit : maskLit starsLit = starsLit := by
  have hnone : hasCard starsLit.content = false := by decide
  refine Json.content_injective ?_
  rw [(content_maskLit (by decide)).1]
  exact (maskCards_eq_self_iff _).mpr hnone

theorem unquote_starsLit : Json.unquote starsLit = stars := by decide

/-- A string that is the value of no secret key is safe. -/
theorem Maskable.not_cutsEscape_value {v : Tree} (h : Maskable v) {k s : StrLit}
    (hm : (k, Tree.str s) ∈ v.allMembers) (hkey : isKeyed secretNames k = false) :
    cutsEscape s = false := by
  have hmember : Json.pairRewrite id (maskValue secretNames) (k, .str s) ∈
      (maskMembers secretNames v).allMembers := by
    rw [maskMembers, v.allMembers_rewrite]
    exact List.mem_map_of_mem hm
  have hsame : Json.pairRewrite id (maskValue secretNames) (k, .str s) = (k, .str s) := by
    simp [Json.pairRewrite, Tree.rewrite, maskValue, hkey]
  rw [hsame] at hmember
  have htoken : Token.str s ∈ (maskMembers secretNames v).tokens :=
    Tree.mem_tokens_of_member _ hmember (by simp [Json.pairTokens, Tree.tokens])
  simpa [isSafe] using h.literals _ htoken

/-- What masking makes of the value of a member. -/
theorem maskedValue_eq_stars {v : Tree} (h : Maskable v) {m : StrLit × Tree}
    (hm : m ∈ v.allMembers) :
    (∃ s, (Json.pairRewrite maskLit (fun key s => maskLit (maskValue secretNames key s)) m).2 =
        .str s ∧ Json.unquote s = stars) ↔
      ∃ s, m.2 = .str s ∧ (isKeyed secretNames m.1 = true ∨ Json.unquote s = stars) := by
  obtain ⟨k, w⟩ := m
  cases w with
  | word | num | arr | obj => refine iff_of_false ?_ ?_ <;> (rintro ⟨s, heq, -⟩; cases heq)
  | str s =>
    simp only [Json.pairRewrite, Tree.rewrite, Tree.str.injEq, exists_eq_left', maskValue,
      Option.any_some]
    by_cases hkey : isKeyed secretNames k = true
    · rw [if_pos hkey, maskLit_starsLit]
      exact iff_of_true unquote_starsLit (Or.inl hkey)
    · rw [if_neg hkey, or_iff_right hkey]
      exact unquote_maskLit_eq_stars
        (h.not_cutsEscape_value hm ((Bool.not_eq_true _).mp hkey))

theorem secretsMasked_maskTree {v : Tree} (h : Maskable v) :
    SecretsMasked (maskTree v) ↔ SecretsReached v := by
  rw [SecretsMasked, maskTree_eq, v.allMembers_rewrite, List.forall_mem_map]
  refine forall₂_congr fun m hm => ?_
  rw [maskedValue_eq_stars h hm]
  obtain ⟨k, w⟩ := m
  rw [Json.pairRewrite, isListed_maskLit (h.not_cutsEscape hm)]

/-! ## Columns -/

/-- After masking a document has stars for its secrets exactly when it is left a document and
each of its secret members is a string behind a plain key. -/
theorem secrets_masked_iff (a : Audit) {column : Audit → Text} (hcolumn : column ∈ maskedColumns)
    {v : Tree} (h : Reads (column a) v) :
    (∃ v', Reads (column (maskSensitiveData a)) v' ∧ SecretsMasked v') ↔
      Maskable v ∧ SecretsReached v := by
  rw [maskSensitiveData_column hcolumn]
  simp only [reads_maskJSON_iff h]
  constructor
  · rintro ⟨-, ⟨hmaskable, rfl⟩, hmasked⟩
    exact ⟨hmaskable, (secretsMasked_maskTree hmaskable).mp hmasked⟩
  · rintro ⟨hmaskable, hreached⟩
    exact ⟨_, ⟨hmaskable, rfl⟩, (secretsMasked_maskTree hmaskable).mpr hreached⟩

def passwordTree (value : Tree) : Tree := .obj [(Json.quote "password".toList, value)]

def bodyAudit (body : Tree) : Audit := { requestBody := body.print }

theorem secrets_masked_password :
    ∃ v', Reads (maskSensitiveData (bodyAudit
      (passwordTree (.str (Json.quote "hunter2".toList))))).requestBody v' ∧ SecretsMasked v' := by
  have hcolumn : Audit.requestBody ∈ maskedColumns := List.mem_cons_self
  refine (secrets_masked_iff (bodyAudit _) hcolumn (reads_print (by decide))).mpr
    ⟨⟨by decide +kernel, by decide +kernel⟩, ?_⟩
  intro m hm _
  obtain rfl := List.mem_singleton.mp hm
  exact ⟨_, rfl, Or.inl rfl⟩

/-- The old passwords of a request, as the sanitizer writes them. -/
theorem listed_passwords_kept :
    let body := passwordTree (.arr [.str (Json.quote "hunter2".toList)])
    sanitizeJSON (.visits [("password".toList, .items [.leaf])]) body.print =
        some (bodyAudit body).requestBody ∧
      Reads (bodyAudit body).requestBody body ∧
      ¬∃ v', Reads (maskSensitiveData (bodyAudit body)).requestBody v' ∧ SecretsMasked v' := by
  intro body
  have hkept : (maskSensitiveData (bodyAudit body)).requestBody = body.print := rfl
  have hreads : Reads body.print body := reads_print (by decide)
  refine ⟨by decide +kernel, hreads, ?_⟩
  rintro ⟨v', hv', hmasked⟩
  rw [hkept] at hv'
  obtain rfl := Option.some.inj (hreads.symm.trans hv')
  obtain ⟨s, heq, -⟩ := hmasked _ List.mem_cons_self rfl
  cases heq

end BatAudit
