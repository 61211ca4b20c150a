import BatAudit.Audit.Addresses

/-!
# Sanitizing twice

A sanitized text is tidy, and has only escaping left to be done. So sanitizing it again escapes
the ampersands of the first time, and changes nothing when there are none.
-/

namespace BatAudit

/-- Nothing in the text is escaped. -/
def EscapeFree (s : List Char) : Prop := ∀ c ∈ s, isEscaped c = false

/-- All of sanitizing but the escaping. -/
def tidy (s : List Char) : List Char := collapse false (trimmed s)

/-! ## Escaping -/

theorem escapeChar_of_not_isEscaped {c : Char} (h : isEscaped c = false) : escapeChar c = [c] := by
  have hne : c ≠ '&' ∧ c ≠ '\x27' ∧ c ≠ '<' ∧ c ≠ '>' ∧ c ≠ '"' := by simpa [isEscaped] using h
  obtain ⟨h1, h2, h3, h4, h5⟩ := hne
  simp [escapeChar, h1, h2, h3, h4, h5]

/-- What stands for an escaped character has neither spaces nor control characters. -/
theorem escapeChar_cases (c : Char) :
    isEscaped c = false ∧ escapeChar c = [c] ∨
      isEscaped c = true ∧ '&' ∈ escapeChar c ∧ 2 ≤ (escapeChar c).length ∧
        ∀ d ∈ c :: escapeChar c, isControl d = false ∧ GoText.isSpace d = false ∧
          isBlank d = false := by
  by_cases h : isEscaped c = true
  · have hmem : c ∈ ['&', '\x27', '<', '>', '"'] := of_decide_eq_true h
    have hplain : (c :: escapeChar c).all (fun d => !isControl d && !GoText.isSpace d &&
        !isBlank d) = true := by
      simp only [List.mem_cons, List.not_mem_nil, or_false] at hmem
      rcases hmem with rfl | rfl | rfl | rfl | rfl <;> decide
    refine Or.inr ⟨h, ?_, ?_, fun d hd => ?_⟩
    · simp only [List.mem_cons, List.not_mem_nil, or_false] at hmem
      rcases hmem with rfl | rfl | rfl | rfl | rfl <;> decide
    · simp only [List.mem_cons, List.not_mem_nil, or_false] at hmem
      rcases hmem with rfl | rfl | rfl | rfl | rfl <;> decide
    · simpa [and_assoc] using List.all_eq_true.mp hplain d hd
  · rw [Bool.not_eq_true] at h
    exact Or.inl ⟨h, escapeChar_of_not_isEscaped h⟩

theorem escapeFree_cons {c : Char} {s : List Char} :
    EscapeFree (c :: s) ↔ isEscaped c = false ∧ EscapeFree s := List.forall_mem_cons

theorem flatMap_escapeChar {s : List Char} (h : EscapeFree s) : s.flatMap escapeChar = s := by
  induction s with
  | nil => rfl
  | cons c s ih =>
    obtain ⟨hc, hs⟩ := escapeFree_cons.mp h
    rw [List.flatMap_cons, escapeChar_of_not_isEscaped hc, ih hs, List.singleton_append]

theorem length_le_flatMap_escapeChar (s : List Char) : s.length ≤ (s.flatMap escapeChar).length := by
  induction s with
  | nil => exact Nat.le_refl 0
  | cons c s ih =>
    rw [List.flatMap_cons, List.length_append, List.length_cons]
    rcases escapeChar_cases c with ⟨-, hc⟩ | ⟨-, -, hlen, -⟩
    · rw [hc, List.length_singleton]
      omega
    · omega

theorem length_lt_flatMap_escapeChar {s : List Char} (h : ¬EscapeFree s) :
    s.length < (s.flatMap escapeChar).length := by
  induction s with
  | nil => exact absurd (fun _ hc => absurd hc List.not_mem_nil) h
  | cons c s ih =>
    rw [List.flatMap_cons, List.length_append, List.length_cons]
    rcases escapeChar_cases c with ⟨hfree, hc⟩ | ⟨-, -, hlen, -⟩
    · have hs := ih fun hs => h (escapeFree_cons.mpr ⟨hfree, hs⟩)
      rw [hc, List.length_singleton]
      omega
    · have hs := length_le_flatMap_escapeChar s
      omega

theorem escapeFree_flatMap_escapeChar {s : List Char} :
    EscapeFree (s.flatMap escapeChar) ↔ EscapeFree s := by
  constructor
  · intro h c hc
    rcases escapeChar_cases c with ⟨hfree, -⟩ | ⟨-, hamp, -⟩
    · exact hfree
    · exact absurd (h '&' (List.mem_flatMap.mpr ⟨c, hc, hamp⟩)) (by decide)
  · intro h
    rwa [flatMap_escapeChar h]

/-! ## Tidying and escaping commute -/

theorem filter_flatMap_escapeChar (s : List Char) :
    (s.flatMap escapeChar).filter (fun c => !isControl c) =
      (s.filter fun c => !isControl c).flatMap escapeChar := by
  induction s with
  | nil => rfl
  | cons c s ih =>
    rw [List.flatMap_cons, List.filter_append, ih]
    rcases escapeChar_cases c with ⟨-, hc⟩ | ⟨-, -, -, hplain⟩
    · rw [hc, List.filter_cons, List.filter_cons]
      split_ifs
      · rw [List.flatMap_cons, hc]
        rfl
      · rfl
    · have hkept : (escapeChar c).filter (fun d => !isControl d) = escapeChar c :=
        List.filter_eq_self.mpr fun d hd => by simp [(hplain d (List.mem_cons_of_mem c hd)).1]
      rw [hkept, List.filter_cons_of_pos (by simp [(hplain c List.mem_cons_self).1]),
        List.flatMap_cons]

/-- Spaces are dropped from either end, so the entities may be turned around. -/
theorem dropWhile_flatMap {f : Char → List Char}
    (hf : ∀ c, f c = [c] ∨ GoText.isSpace c = false ∧ f c ≠ [] ∧
      ∀ d ∈ f c, GoText.isSpace d = false) (s : List Char) :
    (s.flatMap f).dropWhile GoText.isSpace = (s.dropWhile GoText.isSpace).flatMap f := by
  induction s with
  | nil => rfl
  | cons c s ih =>
    rw [List.flatMap_cons]
    by_cases hspace : GoText.isSpace c = true
    · have hself : f c = [c] := (hf c).resolve_right fun h =>
        Bool.false_ne_true (h.1.symm.trans hspace)
      rw [hself, List.singleton_append, List.dropWhile_cons_of_pos hspace,
        List.dropWhile_cons_of_pos hspace, ih]
    · rw [List.dropWhile_cons_of_neg hspace, List.flatMap_cons]
      obtain ⟨d, ds, heq, hd⟩ : ∃ d ds, f c = d :: ds ∧ ¬GoText.isSpace d = true := by
        rcases hf c with hself | ⟨-, hne, hall⟩
        · exact ⟨c, [], hself, hspace⟩
        · obtain ⟨d, ds, heq⟩ := List.exists_cons_of_ne_nil hne
          exact ⟨d, ds, heq, by simp [hall d (heq ▸ List.mem_cons_self)]⟩
      rw [heq, List.cons_append, List.dropWhile_cons_of_neg hd]

theorem reverse_flatMap (f : Char → List Char) (s : List Char) :
    (s.flatMap f).reverse = s.reverse.flatMap fun c => (f c).reverse := by
  rw [List.reverse_flatMap]
  rfl

theorem trimSpace_flatMap_escapeChar (s : List Char) :
    GoText.trimSpace (s.flatMap escapeChar) = (GoText.trimSpace s).flatMap escapeChar := by
  have hfront : ∀ c, escapeChar c = [c] ∨ GoText.isSpace c = false ∧ escapeChar c ≠ [] ∧
      ∀ d ∈ escapeChar c, GoText.isSpace d = false := by
    intro c
    rcases escapeChar_cases c with ⟨-, hc⟩ | ⟨-, hamp, -, hplain⟩
    · exact Or.inl hc
    · exact Or.inr ⟨(hplain c List.mem_cons_self).2.1, List.ne_nil_of_mem hamp,
        fun d hd => (hplain d (List.mem_cons_of_mem c hd)).2.1⟩
  have hback : ∀ c, (escapeChar c).reverse = [c] ∨ GoText.isSpace c = false ∧
      (escapeChar c).reverse ≠ [] ∧ ∀ d ∈ (escapeChar c).reverse, GoText.isSpace d = false := by
    intro c
    rcases hfront c with hc | ⟨hspace, hne, hall⟩
    · exact Or.inl (by rw [hc]; rfl)
    · exact Or.inr ⟨hspace, by simpa using hne, fun d hd => hall d (List.mem_reverse.mp hd)⟩
  rw [GoText.trimSpace, GoText.trimSpace, dropWhile_flatMap hfront, reverse_flatMap,
    dropWhile_flatMap hback, reverse_flatMap]
  simp only [List.reverse_reverse]

theorem collapse_append {s : List Char} (h : ∀ c ∈ s, isBlank c = false) (hne : s ≠ [])
    (inRun : Bool) (t : List Char) : collapse inRun (s ++ t) = s ++ collapse false t := by
  induction s generalizing inRun with
  | nil => exact absurd rfl hne
  | cons c s ih =>
    obtain ⟨hc, hs⟩ := List.forall_mem_cons.mp h
    rw [List.cons_append, collapse, if_neg (by simp [hc]), List.cons_append]
    by_cases hnil : s = []
    · rw [hnil, List.nil_append, List.nil_append]
    · rw [ih hs hnil]

theorem collapse_flatMap_escapeChar (inRun : Bool) (s : List Char) :
    collapse inRun (s.flatMap escapeChar) = (collapse inRun s).flatMap escapeChar := by
  have hspace : escapeChar ' ' = [' '] := by decide
  induction s generalizing inRun with
  | nil => rfl
  | cons c s ih =>
    rw [List.flatMap_cons]
    rcases escapeChar_cases c with ⟨-, hc⟩ | ⟨-, hamp, -, hplain⟩
    · rw [hc, List.singleton_append, collapse, collapse]
      split_ifs
      · exact ih true
      · rw [List.flatMap_cons, hspace, ih, List.singleton_append]
      · rw [List.flatMap_cons, hc, ih, List.singleton_append]
    · have hblank : ¬isBlank c = true := by simp [(hplain c List.mem_cons_self).2.2]
      rw [collapse_append (fun d hd => (hplain d (List.mem_cons_of_mem c hd)).2.2)
        (List.ne_nil_of_mem hamp), ih, collapse, if_neg hblank, List.flatMap_cons]

theorem sanitizeChars_eq (s : List Char) : sanitizeChars s = (tidy s).flatMap escapeChar :=
  collapse_flatMap_escapeChar false (trimmed s)

theorem tidy_flatMap_escapeChar (s : List Char) :
    tidy (s.flatMap escapeChar) = (tidy s).flatMap escapeChar := by
  rw [tidy, trimmed, filter_flatMap_escapeChar, trimSpace_flatMap_escapeChar,
    collapse_flatMap_escapeChar]
  rfl

/-! ## Tidying once -/

theorem collapse_collapse (inRun : Bool) (s : List Char) :
    collapse inRun (collapse inRun s) = collapse inRun s := by
  induction s generalizing inRun with
  | nil => rfl
  | cons c s ih =>
    rw [collapse]
    split_ifs with hblank hrun
    · rw [hrun, ih]
    · rw [collapse, if_pos (by decide), if_neg hrun, ih]
    · rw [collapse, if_neg hblank, ih]

/-- Neither end is a space. -/
def Trimmed (s : List Char) : Prop :=
  (∀ c ∈ s.head?, GoText.isSpace c = false) ∧ ∀ c ∈ s.getLast?, GoText.isSpace c = false

theorem trimSpace_of_trimmed {s : List Char} (h : Trimmed s) : GoText.trimSpace s = s := by
  have hkept {t : List Char} (ht : ∀ c ∈ t.head?, GoText.isSpace c = false) :
      t.dropWhile GoText.isSpace = t := by
    cases t with
    | nil => rfl
    | cons c t => rw [List.dropWhile_cons_of_neg (by simp [ht c rfl])]
  rw [GoText.trimSpace, hkept h.1, hkept (by rw [List.head?_reverse]; exact h.2),
    List.reverse_reverse]

theorem trimmed_trimSpace (s : List Char) : Trimmed (GoText.trimSpace s) := by
  have hdropped (t : List Char) :
      ∀ c ∈ (t.dropWhile GoText.isSpace).head?, GoText.isSpace c = false := by
    intro c hc
    have hhead := List.head?_dropWhile_not GoText.isSpace t
    rw [hc] at hhead
    exact hhead
  constructor
  · intro c hc
    have hsuffix : (s.dropWhile GoText.isSpace).reverse.dropWhile GoText.isSpace <:+
        (s.dropWhile GoText.isSpace).reverse := List.dropWhile_suffix _
    obtain ⟨t, ht⟩ := List.reverse_prefix.mpr hsuffix
    rw [List.reverse_reverse] at ht
    refine hdropped s c ?_
    obtain ⟨u, hu⟩ := List.head?_eq_some_iff.mp hc
    rw [← ht, ← GoText.trimSpace, hu]
    rfl
  · intro c hc
    rw [GoText.trimSpace, List.getLast?_reverse] at hc
    exact hdropped _ c hc

theorem isBlank_of_not_isSpace {c : Char} (h : GoText.isSpace c = false) : isBlank c = false := by
  rw [← Bool.not_eq_true]
  intro hblank
  simp only [isBlank, Bool.or_eq_true, decide_eq_true_eq] at hblank
  rcases hblank with (((rfl | rfl) | rfl) | rfl) | rfl <;> revert h <;> decide

theorem Trimmed.collapse {s : List Char} (h : Trimmed s) : Trimmed (collapse false s) := by
  constructor
  · cases s with
    | nil =>
      intro c hc
      cases hc
    | cons c s =>
      have hc := h.1 c rfl
      rw [BatAudit.collapse, if_neg (by simp [isBlank_of_not_isSpace hc])]
      rintro d hd
      obtain rfl := Option.some.inj hd
      exact hc
  · rcases List.eq_nil_or_concat s with rfl | ⟨t, c, rfl⟩
    · intro c hc
      cases hc
    · have hc := h.2 c (by rw [List.concat_eq_append, List.getLast?_concat]; rfl)
      obtain ⟨u, hu⟩ := collapse_concat false t (isBlank_of_not_isSpace hc)
      rw [List.concat_eq_append, hu, List.getLast?_concat]
      rintro d hd
      obtain rfl := Option.some.inj hd
      exact hc

theorem tidy_tidy (s : List Char) : tidy (tidy s) = tidy s := by
  have hcontrol : (tidy s).filter (fun c => !isControl c) = tidy s := by
    refine List.filter_eq_self.mpr fun c hc => ?_
    rcases mem_collapse hc with rfl | hmem
    · decide
    · exact (List.mem_filter.mp (GoText.mem_of_mem_trimSpace hmem)).2
  have htrimmed : Trimmed (tidy s) := (trimmed_trimSpace _).collapse
  rw [tidy, trimmed, hcontrol, trimSpace_of_trimmed htrimmed, tidy, collapse_collapse]

/-! ## Twice -/

/-- Sanitizing again escapes again. -/
theorem sanitizeChars_sanitizeChars (s : List Char) :
    sanitizeChars (sanitizeChars s) = (sanitizeChars s).flatMap escapeChar := by
  rw [sanitizeChars_eq (sanitizeChars s), sanitizeChars_eq s, tidy_flatMap_escapeChar, tidy_tidy]

theorem escapeFree_iff_filter {s : List Char} : EscapeFree s ↔ s.filter isEscaped = [] := by
  rw [List.filter_eq_nil_iff]
  exact forall₂_congr fun c _ => (Bool.not_eq_true _).symm.to_iff

theorem escapeFree_sanitizeChars {s : List Char} : EscapeFree (sanitizeChars s) ↔ EscapeFree s := by
  have hblank : ∀ c, isBlank c = true → isEscaped c = false := by
    intro c hc
    simp only [isBlank, Bool.or_eq_true, decide_eq_true_eq] at hc
    rcases hc with (((rfl | rfl) | rfl) | rfl) | rfl <;> decide
  rw [sanitizeChars_eq, escapeFree_flatMap_escapeChar, escapeFree_iff_filter,
    escapeFree_iff_filter, tidy, filter_collapse hblank, filter_trimmed fun _ => range_of_isEscaped]

/-- Sanitizing is done after one time exactly when nothing is escaped. -/
theorem sanitizeChars_twice_iff {s : List Char} :
    sanitizeChars (sanitizeChars s) = sanitizeChars s ↔ EscapeFree s := by
  rw [sanitizeChars_sanitizeChars, ← escapeFree_sanitizeChars]
  constructor
  · intro heq
    by_contra hnot
    have hlen := length_lt_flatMap_escapeChar hnot
    rw [heq] at hlen
    omega
  · exact flatMap_escapeChar

theorem length_lt_sanitizeChars {s : List Char} (h : ¬EscapeFree s) :
    (sanitizeChars s).length < (sanitizeChars (sanitizeChars s)).length := by
  rw [sanitizeChars_sanitizeChars]
  exact length_lt_flatMap_escapeChar (mt escapeFree_sanitizeChars.mp h)

theorem escapeFree_of_fixed {s : List Char} (h : sanitizeChars s = s) : EscapeFree s :=
  sanitizeChars_twice_iff.mp (congrArg sanitizeChars h)

end BatAudit
