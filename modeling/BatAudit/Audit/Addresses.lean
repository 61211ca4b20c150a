import BatAudit.Audit.Sanitizer
import BatAudit.Audit.Validator
import BatAudit.Lib.NetIP

/-!
# Addresses

What the filters of `sanitizeIP` and `sanitizeEmail` make of addresses. The first keeps digits,
dots and colons, but no hexadecimal letters. The second comes after the escaping for HTML, and
keeps the letters and digits of the entities.
-/

namespace BatAudit

/-! ## Internet addresses -/

/-- `net.ParseIP` accepts the result, and the address is the same. -/
def KeepsIP (s : String) : Prop :=
  NetIP.parseIP (sanitizeIP s).toList = true ∧
    NetIP.address (sanitizeIP s).toList = NetIP.address s.toList

theorem isWordCode_of_isTextChar {c : Char} (h : NetIP.isTextChar c = true) :
    isWordCode c.toNat := by
  simp only [NetIP.isTextChar, GoFormats.isHex, Bool.or_eq_true, Bool.and_eq_true,
    decide_eq_true_eq, GoText.isDigit] at h
  rcases h with (((⟨h0, h9⟩ | ⟨ha, hf⟩) | ⟨hA, hF⟩) | rfl) | rfl
  · have h0 : 48 ≤ c.toNat := h0
    have h9 : c.toNat ≤ 57 := h9
    exact Or.inl (by omega)
  · have ha : 97 ≤ c.toNat := ha
    have hf : c.toNat ≤ 102 := hf
    exact Or.inr (by omega)
  · have hA : 65 ≤ c.toNat := hA
    have hF : c.toNat ≤ 70 := hF
    exact Or.inr (by omega)
  · exact Or.inl (by decide)
  · exact Or.inl (by decide)

/-- Only letters are taken out. -/
theorem toList_sanitizeIP {s : String} (h : NetIP.parseIP s.toList = true) :
    (sanitizeIP s).toList = s.toList.filter isIPChar := by
  rw [sanitizeIP, String.toList_ofList, sanitizeChars_eq_self fun c hc =>
    isWordCode_of_isTextChar (NetIP.isTextChar_of_parseIP h c hc)]

theorem digitValue_pos {c : Char} (hnot : isIPChar c = false) : 0 < NetIP.digitValue c := by
  simp only [isIPChar, Bool.or_eq_false_iff] at hnot
  obtain ⟨⟨hdigit, hdot⟩, hcolon⟩ := hnot
  unfold NetIP.digitValue
  rw [if_neg (by simp [hdigit])]
  split_ifs <;> omega

/-- An address stays the same if and only if it has no hexadecimal letters. -/
theorem keepsIP_iff {s : String} (h : NetIP.parseIP s.toList = true) :
    KeepsIP s ↔ ∀ c ∈ s.toList, isIPChar c = true := by
  rw [KeepsIP, toList_sanitizeIP h]
  constructor
  · rintro ⟨-, haddress⟩ c hc
    have hlost := NetIP.lost_eq_zero (p := isIPChar) (by decide) (by decide) h haddress
    by_contra hnot
    rw [Bool.not_eq_true] at hnot
    exact absurd hlost ((digitValue_pos hnot).trans_le (NetIP.digitValue_le_lost hc hnot)).ne'
  · intro hall
    rw [List.filter_eq_self.mpr hall]
    exact ⟨h, rfl⟩

theorem keepsIP_mapped : KeepsIP "::192.0.2.1" :=
  (keepsIP_iff (by decide)).mpr (List.all_eq_true.mp (by decide))

/-- The result is an address, and another one. -/
theorem not_keepsIP_documentation :
    ¬∀ s : String, NetIP.parseIP s.toList = true → KeepsIP s := by
  intro hclaim
  have hkeeps := (hclaim "2001:db8::1" (by decide)).2
  revert hkeeps
  decide

/-! ## Mail addresses -/

/-- RFC 5322. -/
def isAtext (c : Char) : Bool := GoText.isAlnum c || c ∈ "!#$%&'*+-/=?^_`\x7b|\x7d~".toList

/-- A bare address whose two parts are dot-atoms, which `mail.ParseAddress` accepts. -/
def isDotAtomAddress (s : List Char) : Bool :=
  GoFormats.isAddress s && s.all fun c => isAtext c || c = '.' || c = '@'

def validateEmail (email : String) : Bool := Tag.validEmail.holds .string email

def isEscaped (c : Char) : Bool := c ∈ ['&', '\x27', '<', '>', '"']

/-- What is left of a character, the letters and digits of its entity if it has one. -/
def keptOf (c : Char) : List Char := (escapeChar c).filter isEmailChar

/-- The atoms of the two parts. -/
def atoms (s : List Char) : List (List Char) := (s.splitOn '@').flatMap fun t => t.splitOn '.'

structure NeverAnotherEmail (s : String) : Prop where
  address : isDotAtomAddress s.toList = true →
    sanitizeEmail s = s ∨ validateEmail (sanitizeEmail s) = false
  subsequence : (sanitizeEmail s).toList.Sublist s.toList

/-- Nothing is escaped, and an address has no other characters either or has an atom of
nothing else. -/
structure LosesCharsOnly (s : String) : Prop where
  plain : ∀ c ∈ s.toList, isEscaped c = false
  address : isDotAtomAddress s.toList = true →
    (∀ c ∈ s.toList, isEmailChar c = true) ∨ ∃ t ∈ atoms s.toList, ∀ c ∈ t, keptOf c = []

/-! ### What is kept -/

/-- The characters in between are neither control characters nor spaces. -/
theorem plain_of_range {c : Char} (h : 33 ≤ c.toNat ∧ c.toNat ≤ 126) :
    isControl c = false ∧ GoText.isSpace c = false := by
  obtain ⟨hlow, hhigh⟩ := h
  constructor
  · have hcontrol : ¬c.toNat < 32 ∧ ¬c.toNat = 127 := ⟨by omega, by omega⟩
    simp [isControl, hcontrol]
  · simp only [GoText.isSpace, Bool.or_eq_false_iff, Bool.and_eq_false_iff, decide_eq_false_iff_not]
    omega

theorem range_of_isAlnum {c : Char} (h : GoText.isAlnum c = true) :
    33 ≤ c.toNat ∧ c.toNat ≤ 126 := by
  simp only [GoText.isAlnum, GoText.isAsciiUpper, GoText.isAsciiLower, GoText.isDigit,
    Bool.or_eq_true, Bool.and_eq_true, decide_eq_true_eq] at h
  rcases h with (⟨hA, hZ⟩ | ⟨ha, hz⟩) | ⟨h0, h9⟩
  · have hA : 65 ≤ c.toNat := hA
    have hZ : c.toNat ≤ 90 := hZ
    omega
  · have ha : 97 ≤ c.toNat := ha
    have hz : c.toNat ≤ 122 := hz
    omega
  · have h0 : 48 ≤ c.toNat := h0
    have h9 : c.toNat ≤ 57 := h9
    omega

theorem range_of_isEmailChar {c : Char} (h : isEmailChar c = true) :
    33 ≤ c.toNat ∧ c.toNat ≤ 126 := by
  simp only [isEmailChar, Bool.or_eq_true, decide_eq_true_eq] at h
  rcases h with ((((h | rfl) | rfl) | rfl) | rfl) | rfl
  · exact range_of_isAlnum h
  all_goals decide

theorem range_of_mem {s : List Char} {c : Char} (hc : c ∈ s)
    (hs : s.all (fun c => 33 ≤ c.toNat && c.toNat ≤ 126) = true) :
    33 ≤ c.toNat ∧ c.toNat ≤ 126 := by
  simpa using List.all_eq_true.mp hs c hc

theorem range_of_isEscaped {c : Char} (h : isEscaped c = true) :
    33 ≤ c.toNat ∧ c.toNat ≤ 126 :=
  range_of_mem (of_decide_eq_true h) (by decide)

theorem range_of_isAtext {c : Char} (h : isAtext c = true) : 33 ≤ c.toNat ∧ c.toNat ≤ 126 := by
  rcases Bool.or_eq_true_iff.mp h with h | h
  · exact range_of_isAlnum h
  · exact range_of_mem (of_decide_eq_true h) (by decide)

/-- The text before it is escaped. -/
def trimmed (s : List Char) : List Char := GoText.trimSpace (s.filter fun c => !isControl c)

theorem isEmailChar_of_isBlank {c : Char} (h : isBlank c = true) : isEmailChar c = false := by
  simp only [isBlank, Bool.or_eq_true, decide_eq_true_eq] at h
  rcases h with (((rfl | rfl) | rfl) | rfl) | rfl
  all_goals decide

theorem filter_collapse {q : Char → Bool} (hq : ∀ c, isBlank c = true → q c = false) (inRun : Bool)
    (s : List Char) : (collapse inRun s).filter q = s.filter q := by
  induction s generalizing inRun with
  | nil => rfl
  | cons c s ih =>
    rw [collapse]
    by_cases hblank : isBlank c = true
    · rw [if_pos hblank, List.filter_cons_of_neg (by simp [hq c hblank])]
      split_ifs
      · exact ih true
      · rw [List.filter_cons_of_neg (by simp [hq ' ' (by decide)]), ih]
    · rw [if_neg hblank, List.filter_cons, ih, ← List.filter_cons]

theorem toList_sanitizeEmail (s : String) :
    (sanitizeEmail s).toList = (trimmed s.toList).flatMap keptOf := by
  rw [sanitizeEmail, String.toList_ofList, sanitizeChars,
    filter_collapse fun _ => isEmailChar_of_isBlank, List.filter_flatMap]
  rfl

theorem keptOf_of_plain {c : Char} (h : isEscaped c = false) :
    keptOf c = if isEmailChar c then [c] else [] := by
  have hne : c ≠ '&' ∧ c ≠ '\x27' ∧ c ≠ '<' ∧ c ≠ '>' ∧ c ≠ '"' := by simpa [isEscaped] using h
  obtain ⟨h1, h2, h3, h4, h5⟩ := hne
  simp [keptOf, escapeChar, h1, h2, h3, h4, h5, List.filter_cons]

theorem length_keptOf_of_isEscaped {c : Char} (h : isEscaped c = true) :
    2 ≤ (keptOf c).length ∧ isEmailChar c = false := by
  have hmem : c ∈ ['&', '\x27', '<', '>', '"'] := of_decide_eq_true h
  simp only [List.mem_cons, List.not_mem_nil, or_false] at hmem
  rcases hmem with rfl | rfl | rfl | rfl | rfl
  all_goals decide

theorem keptOf_of_isEmailChar {c : Char} (h : isEmailChar c = true) : keptOf c = [c] := by
  have hplain : isEscaped c = false := by
    by_contra hescaped
    rw [Bool.not_eq_false] at hescaped
    exact Bool.false_ne_true ((length_keptOf_of_isEscaped hescaped).2.symm.trans h)
  rw [keptOf_of_plain hplain, if_pos h]

theorem isEmailChar_of_mem_keptOf {c d : Char} (h : d ∈ keptOf c) : isEmailChar d = true :=
  (List.mem_filter.mp h).2

/-! ### Subsequences -/

theorem filter_trimmed {q : Char → Bool} (hq : ∀ c, q c = true → 33 ≤ c.toNat ∧ c.toNat ≤ 126)
    (s : List Char) : (trimmed s).filter q = s.filter q := by
  rw [trimmed, GoText.filter_trimSpace fun c hc => (plain_of_range (hq c hc)).2, List.filter_filter]
  refine List.filter_congr fun c _ => ?_
  by_cases hc : q c = true
  · simp [hc, (plain_of_range (hq c hc)).1]
  · simp [hc]

theorem trimmed_sublist (s : List Char) : (trimmed s).Sublist s :=
  (GoText.trimSpace_sublist _).trans List.filter_sublist

theorem trimmed_eq_self {s : List Char} (h : ∀ c ∈ s, 33 ≤ c.toNat ∧ c.toNat ≤ 126) :
    trimmed s = s := by
  have hfilter : s.filter (fun c => !isControl c) = s :=
    List.filter_eq_self.mpr fun c hc => by simp [(plain_of_range (h c hc)).1]
  rw [trimmed, hfilter, GoText.trimSpace_eq_self fun c hc => (plain_of_range (h c hc)).2]

theorem flatMap_keptOf_of_plain {s : List Char} (h : ∀ c ∈ s, isEscaped c = false) :
    s.flatMap keptOf = s.filter isEmailChar := by
  induction s with
  | nil => rfl
  | cons c s ih =>
    rw [List.flatMap_cons, keptOf_of_plain (h c List.mem_cons_self),
      ih fun d hd => h d (List.mem_cons_of_mem c hd), List.filter_cons]
    split_ifs <;> rfl

/-- Each entity adds two characters or more. -/
theorem le_length_flatMap_keptOf (s : List Char) :
    s.countP isEmailChar + 2 * s.countP isEscaped ≤ (s.flatMap keptOf).length := by
  induction s with
  | nil => exact le_refl _
  | cons c s ih =>
    rw [List.flatMap_cons, List.length_append, List.countP_cons, List.countP_cons]
    by_cases hescaped : isEscaped c = true
    · obtain ⟨hlen, hnot⟩ := length_keptOf_of_isEscaped hescaped
      rw [if_pos hescaped, hnot, if_neg Bool.false_ne_true]
      omega
    · rw [keptOf_of_plain ((Bool.not_eq_true _).mp hescaped), if_neg hescaped]
      split_ifs
      · rw [List.length_singleton]
        omega
      · rw [List.length_nil]
        omega

theorem subsequence_iff (s : String) :
    (sanitizeEmail s).toList.Sublist s.toList ↔ ∀ c ∈ s.toList, isEscaped c = false := by
  rw [toList_sanitizeEmail]
  constructor
  · intro hsub c hc
    by_contra hescaped
    rw [Bool.not_eq_false] at hescaped
    have hall : ((trimmed s.toList).flatMap keptOf).countP isEmailChar =
        ((trimmed s.toList).flatMap keptOf).length :=
      List.countP_eq_length.mpr fun d hd => by
        obtain ⟨e, -, hd⟩ := List.mem_flatMap.mp hd
        exact isEmailChar_of_mem_keptOf hd
    have hle := hsub.countP_le (p := isEmailChar)
    have hlen := le_length_flatMap_keptOf (trimmed s.toList)
    have hpos : 0 < s.toList.countP isEscaped := List.countP_pos_iff.mpr ⟨c, hc, hescaped⟩
    rw [List.countP_eq_length_filter, List.countP_eq_length_filter,
      filter_trimmed (q := isEmailChar) fun _ => range_of_isEmailChar,
      filter_trimmed (q := isEscaped) fun _ => range_of_isEscaped,
      ← List.countP_eq_length_filter, ← List.countP_eq_length_filter] at hlen
    omega
  · intro hplain
    have hsub := trimmed_sublist s.toList
    rw [flatMap_keptOf_of_plain fun c hc => hplain c (hsub.subset hc)]
    exact List.filter_sublist.trans hsub

/-! ### Addresses -/

theorem mem_keptOf {c d : Char} (h : d ∈ keptOf c) : d = c ∨ GoText.isAlnum d = true := by
  by_cases hescaped : isEscaped c = true
  · right
    have hmem : c ∈ ['&', '\x27', '<', '>', '"'] := of_decide_eq_true hescaped
    have hall : ∀ {c : Char}, (keptOf c).all GoText.isAlnum = true → d ∈ keptOf c →
        GoText.isAlnum d = true := fun hall hd => List.all_eq_true.mp hall d hd
    simp only [List.mem_cons, List.not_mem_nil, or_false] at hmem
    rcases hmem with rfl | rfl | rfl | rfl | rfl
    all_goals exact hall (by decide) h
  · left
    rw [keptOf_of_plain ((Bool.not_eq_true _).mp hescaped)] at h
    split_ifs at h
    · exact List.mem_singleton.mp h
    · cases h

theorem splitOn_flatMap_keptOf {a : Char} (hkept : keptOf a = [a])
    (halnum : GoText.isAlnum a = false) (s : List Char) :
    (s.flatMap keptOf).splitOn a = (s.splitOn a).map fun t => t.flatMap keptOf := by
  refine GoText.splitOn_flatMap hkept (fun c hne hmem => ?_) s
  rcases mem_keptOf hmem with heq | hother
  · exact hne heq.symm
  · exact Bool.false_ne_true (halnum.symm.trans hother)

theorem isDotAtom_flatMap_keptOf (s : List Char) :
    GoFormats.isDotAtom (s.flatMap keptOf) = true ↔
      ∀ t ∈ s.splitOn '.', ¬∀ c ∈ t, keptOf c = [] := by
  rw [GoFormats.isDotAtom, splitOn_flatMap_keptOf (by decide) (by decide), List.all_map,
    List.all_eq_true]
  simp [List.flatMap_eq_nil_iff]

/-- A dot-atom address stays one unless it loses an atom. -/
theorem isAddress_flatMap_keptOf {s : List Char} (h : GoFormats.isAddress s = true) :
    GoFormats.isAddress (s.flatMap keptOf) = true ↔ ∀ t ∈ atoms s, ¬∀ c ∈ t, keptOf c = [] := by
  unfold GoFormats.isAddress at h ⊢
  rw [splitOn_flatMap_keptOf (by decide) (by decide), atoms]
  split at h
  · rename_i localPart domain hsplit
    rw [hsplit]
    simp only [List.map_cons, List.map_nil, Bool.and_eq_true, isDotAtom_flatMap_keptOf,
      List.flatMap_cons, List.flatMap_nil, List.append_nil, List.forall_mem_append]
  · cases h

theorem mem_of_isAddress {s : List Char} (h : GoFormats.isAddress s = true) : '@' ∈ s := by
  by_contra hnot
  rw [GoFormats.isAddress, List.splitOn_eq_singleton hnot] at h
  cases h

theorem sanitizeEmail_eq_iff {s : String}
    (hs : ∀ c ∈ s.toList, 33 ≤ c.toNat ∧ c.toNat ≤ 126) :
    sanitizeEmail s = s ↔ ∀ c ∈ s.toList, isEmailChar c = true := by
  have hkept := toList_sanitizeEmail s
  rw [trimmed_eq_self hs] at hkept
  constructor
  · intro heq c hc
    rw [heq] at hkept
    obtain ⟨d, -, hd⟩ := List.mem_flatMap.mp (hkept ▸ hc)
    exact isEmailChar_of_mem_keptOf hd
  · intro hall
    have hsame : s.toList.flatMap keptOf = s.toList := by
      rw [List.flatMap_congr fun c hc => keptOf_of_isEmailChar (hall c hc)]
      exact List.flatMap_singleton' _
    exact String.toList_inj.mp (hkept.trans hsame)

theorem address_iff {s : String} (h : isDotAtomAddress s.toList = true) :
    sanitizeEmail s = s ∨ validateEmail (sanitizeEmail s) = false ↔
      (∀ c ∈ s.toList, isEmailChar c = true) ∨ ∃ t ∈ atoms s.toList, ∀ c ∈ t, keptOf c = [] := by
  obtain ⟨haddress, hchars⟩ := Bool.and_eq_true_iff.mp h
  have hs : ∀ c ∈ s.toList, 33 ≤ c.toNat ∧ c.toNat ≤ 126 := by
    intro c hc
    have hchar := List.all_eq_true.mp hchars c hc
    simp only [Bool.or_eq_true, decide_eq_true_eq] at hchar
    rcases hchar with (hatext | rfl) | rfl
    · exact range_of_isAtext hatext
    · decide
    · decide
  have hkept := toList_sanitizeEmail s
  rw [trimmed_eq_self hs] at hkept
  have hvalid : validateEmail (sanitizeEmail s) = false ↔
      ¬GoFormats.isAddress (s.toList.flatMap keptOf) = true := by
    rw [← hkept, validateEmail, Bool.not_eq_true]
    simp only [Tag.holds, Bool.or_eq_false_iff, decide_eq_false_iff_not, and_iff_right_iff_imp]
    intro _ hempty
    have hat : '@' ∈ (sanitizeEmail s).toList := by
      rw [hkept]
      exact List.mem_flatMap.mpr ⟨'@', mem_of_isAddress haddress, by decide⟩
    rw [hempty] at hat
    cases hat
  rw [sanitizeEmail_eq_iff hs, hvalid, isAddress_flatMap_keptOf haddress]
  push Not
  rfl

/-- Sanitizing only takes characters away, and makes no other address, under exactly these
conditions. -/
theorem neverAnotherEmail_iff (s : String) : NeverAnotherEmail s ↔ LosesCharsOnly s := by
  constructor
  · rintro ⟨haddress, hsub⟩
    exact ⟨(subsequence_iff s).mp hsub, fun h => (address_iff h).mp (haddress h)⟩
  · rintro ⟨hplain, haddress⟩
    exact ⟨fun h => (address_iff h).mpr (haddress h), (subsequence_iff s).mpr hplain⟩

/-- An apostrophe becomes two digits, of another address. -/
theorem apostrophe_makes_another : ¬∀ s : String, NeverAnotherEmail s := by
  intro hclaim
  have haddress := (hclaim "o'brien@example.com").address (by decide)
  revert haddress
  decide

end BatAudit
