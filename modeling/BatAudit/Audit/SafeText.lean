import BatAudit.Audit.Harmless
import BatAudit.Audit.Twice
import BatAudit.Lib.GoHtml
import Mathlib.Data.List.Destutter

/-!
# What a sanitized text says

Sanitizing removes control characters and superfluous spaces, and writes a reference for every
character that HTML gives a meaning. Read as HTML, the text is what it was before escaping.
-/

namespace BatAudit

open GoHtml (Entities unescapeFrom unescapeString)

/-! ## Spaces -/

/-- Not both a space. -/
def Spaced (a b : Char) : Prop := ¬(a = ' ' ∧ b = ' ')

instance : DecidableRel Spaced := fun a b => inferInstanceAs (Decidable (¬(a = ' ' ∧ b = ' ')))

/-- Control characters gone, no spaces around it, and one space for a run of them. -/
def readable (s : List Char) : List Char :=
  (GoText.trimSpace (s.filter fun c => !isControl c)).destutter Spaced

theorem isBlank_iff {c : Char} (hcontrol : isControl c = false) : isBlank c = true ↔ c = ' ' := by
  constructor
  · intro h
    simp only [isBlank, Bool.or_eq_true, decide_eq_true_eq] at h
    rcases h with (((rfl | rfl) | rfl) | rfl) | h
    · exact absurd hcontrol (by decide)
    · exact absurd hcontrol (by decide)
    · exact absurd hcontrol (by decide)
    · exact absurd hcontrol (by decide)
    · exact h
  · rintro rfl
    decide

theorem destutter'_eq_collapse {s : List Char} (h : ∀ c ∈ s, isControl c = false) (a : Char) :
    s.destutter' Spaced a = a :: collapse (a = ' ') s := by
  induction s generalizing a with
  | nil => rfl
  | cons c s ih =>
    obtain ⟨hc, hs⟩ := List.forall_mem_cons.mp h
    simp only [List.destutter'_cons, ih hs, collapse, isBlank_iff hc, Spaced, decide_eq_true_eq]
    by_cases hspace : c = ' '
    · by_cases ha : a = ' ' <;> simp [hspace, ha]
    · simp [hspace]

/-- Without control characters, the only blanks are spaces. -/
theorem collapse_eq_destutter {s : List Char} (h : ∀ c ∈ s, isControl c = false) :
    collapse false s = s.destutter Spaced := by
  cases s with
  | nil => rfl
  | cons c s =>
    obtain ⟨hc, hs⟩ := List.forall_mem_cons.mp h
    simp only [List.destutter_cons', destutter'_eq_collapse hs, collapse, isBlank_iff hc]
    by_cases hspace : c = ' ' <;> simp [hspace]

theorem isControl_trimmed {s : List Char} : ∀ c ∈ trimmed s, isControl c = false := by
  intro c hc
  simpa using (List.mem_filter.mp (GoText.mem_of_mem_trimSpace hc)).2

theorem tidy_eq_readable (s : List Char) : tidy s = readable s :=
  collapse_eq_destutter isControl_trimmed

theorem isChain_sanitizeChars (s : List Char) : (sanitizeChars s).IsChain Spaced := by
  have hcontrol : ∀ c ∈ (trimmed s).flatMap escapeChar, isControl c = false := by
    intro c hc
    obtain ⟨d, hd, hc⟩ := List.mem_flatMap.mp hc
    exact isControl_escapeChar (isControl_trimmed d hd) hc
  have hcollapse : sanitizeChars s = ((trimmed s).flatMap escapeChar).destutter Spaced :=
    collapse_eq_destutter hcontrol
  rw [hcollapse]
  exact List.isChain_destutter Spaced _

theorem trimmed_sanitizeChars (s : List Char) : Trimmed (sanitizeChars s) := by
  have htidy : GoText.trimSpace (tidy s) = tidy s :=
    trimSpace_of_trimmed (trimmed_trimSpace _).collapse
  rw [sanitizeChars_eq, ← htidy, ← trimSpace_flatMap_escapeChar]
  exact trimmed_trimSpace _

/-! ## Ampersands -/

/-- What `html.EscapeString` writes for a character. -/
def entities : List (List Char) :=
  [['&', 'a', 'm', 'p', ';'], ['&', '#', '3', '9', ';'], ['&', 'l', 't', ';'],
    ['&', 'g', 't', ';'], ['&', '#', '3', '4', ';']]

theorem suffix_of_not_mem {a : Char} {t u s : List Char} (ha : a ∉ u) (h : a :: t <:+ u ++ s) :
    a :: t <:+ s := by
  induction u with
  | nil => exact h
  | cons b u ih =>
    obtain ⟨hb, hu⟩ := not_or.mp (mt List.mem_cons.mpr ha)
    rcases List.suffix_cons_iff.mp h with heq | htail
    · exact absurd (List.cons.inj heq).1 hb
    · exact ih hu htail

/-- An escaped character is one of the five, and has its ampersand in front only. -/
theorem escapeChar_entity (c : Char) :
    c ≠ '&' ∧ escapeChar c = [c] ∨ escapeChar c ∈ entities ∧
      ∃ u, escapeChar c = '&' :: u ∧ '&' ∉ u := by
  unfold escapeChar
  split_ifs with hamp
  · exact Or.inr ⟨by decide, _, rfl, by decide⟩
  · exact Or.inr ⟨by decide, _, rfl, by decide⟩
  · exact Or.inr ⟨by decide, _, rfl, by decide⟩
  · exact Or.inr ⟨by decide, _, rfl, by decide⟩
  · exact Or.inr ⟨by decide, _, rfl, by decide⟩
  · exact Or.inl ⟨hamp, rfl⟩

theorem entity_of_suffix {s t : List Char} (h : '&' :: t <:+ s.flatMap escapeChar) :
    ∃ e ∈ entities, e <+: '&' :: t := by
  induction s with
  | nil => exact absurd (List.eq_nil_of_suffix_nil h) (List.cons_ne_nil _ _)
  | cons c s ih =>
    rw [List.flatMap_cons] at h
    rcases escapeChar_entity c with ⟨hne, hself⟩ | ⟨hentity, u, hu, hplain⟩
    · rw [hself] at h
      exact ih (suffix_of_not_mem (by simpa using hne.symm) h)
    · rw [hu, List.cons_append] at h
      rcases List.suffix_cons_iff.mp h with heq | htail
      · refine ⟨escapeChar c, hentity, s.flatMap escapeChar, ?_⟩
        rw [hu, heq, List.cons_append]
      · exact ih (suffix_of_not_mem hplain htail)

/-! ## Reading it as HTML -/

theorem unescapeFrom_escapeChar (e : Entities) (c : Char) (s : List Char) :
    unescapeFrom e 0 (escapeChar c ++ s) = c :: unescapeFrom e 0 s := by
  unfold escapeChar
  split_ifs with hamp hquote hlt hgt hdouble
  · rw [hamp]
    exact GoHtml.unescapeFrom_name ['a', 'm', 'p'] (by decide) e.entity_amp
  · rw [hquote]
    exact GoHtml.unescapeFrom_number ['3', '9'] (by decide) (by decide)
  · rw [hlt]
    exact GoHtml.unescapeFrom_name ['l', 't'] (by decide) e.entity_lt
  · rw [hgt]
    exact GoHtml.unescapeFrom_name ['g', 't'] (by decide) e.entity_gt
  · rw [hdouble]
    exact GoHtml.unescapeFrom_number ['3', '4'] (by decide) (by decide)
  · exact GoHtml.unescapeFrom_cons hamp s

theorem unescapeFrom_flatMap_escapeChar (e : Entities) (s : List Char) :
    unescapeFrom e 0 (s.flatMap escapeChar) = s := by
  induction s with
  | nil => rfl
  | cons c s ih => rw [List.flatMap_cons, unescapeFrom_escapeChar, ih]

/-! ## The whole -/

structure SafeText (r : List Char) : Prop where
  printable : ∀ c ∈ r, isControl c = false
  plain : ∀ c ∈ r, c ≠ '<' ∧ c ≠ '>' ∧ c ≠ '\x27' ∧ c ≠ '"'
  ampersand : ∀ t, '&' :: t <:+ r → ∃ e ∈ entities, e <+: '&' :: t
  trimmed : Trimmed r
  spaced : r.IsChain Spaced

theorem safeText_sanitizeChars (s : List Char) : SafeText (sanitizeChars s) where
  printable c hc := isControl_sanitizeChars hc
  plain c hc := by
    have hharmless := harmless_sanitizeChars s c hc
    simp only [isHarmless, isMarkup, Bool.and_eq_true, Bool.not_eq_true', Bool.or_eq_false_iff,
      decide_eq_false_iff_not] at hharmless
    tauto
  ampersand t ht := by
    rw [sanitizeChars_eq] at ht
    exact entity_of_suffix ht
  trimmed := trimmed_sanitizeChars s
  spaced := isChain_sanitizeChars s

/-- A sanitized text is safe in HTML, where it reads as the text with its spaces put in order. -/
theorem sanitizeString_safe (e : Entities) (s : String) :
    SafeText (sanitizeString s).toList ∧
      unescapeString e (sanitizeString s) = String.ofList (readable s.toList) := by
  rw [unescapeString, sanitizeString, String.toList_ofList]
  refine ⟨safeText_sanitizeChars s.toList, ?_⟩
  rw [sanitizeChars_eq, unescapeFrom_flatMap_escapeChar, tidy_eq_readable]

end BatAudit
