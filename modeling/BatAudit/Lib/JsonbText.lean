import BatAudit.Lib.Jsonb
import BatAudit.Lib.Json.Numbers

/-!
# Texts for JSONB columns

Of what `encoding/json` writes, a JSONB column takes every string without NUL and every machine
integer.
-/

namespace Jsonb

open Json (Tree StrLit)

theorem accepts_print (v : Tree) : accepts v.print = takes v := by
  rw [accepts, Json.parse_print]
  rfl

/-! ## Strings -/

theorem takesItem_unicode {a b c d : Char}
    {h : Json.isHex a = true ∧ Json.isHex b = true ∧ Json.isHex c = true ∧ Json.isHex d = true}
    (hpos : Json.unit a b c d ≠ 0) (hsmall : Json.unit a b c d < 0xD800) :
    takesItem none (.unicode a b c d h) = some none := by
  have hsingle : Json.isSurrogate (Json.unit a b c d) = false := by
    have hlo : ¬0xD800 ≤ Json.unit a b c d := by omega
    simp [Json.isSurrogate, hlo]
  simp only [takesItem, if_neg hpos, hsingle]
  rfl

theorem takesItem_htmlItem {c : Char} (h : Json.isHtml c = true) :
    takesItem none (Json.htmlItem c) = some none := by
  simp only [Json.isHtml, Bool.or_eq_true, decide_eq_true_eq] at h
  rcases h with (((rfl | rfl) | rfl) | rfl) | rfl <;> exact takesItem_unicode (by decide) (by decide)

theorem takesItem_quoteChar (c : Char) :
    takesItem none (Json.quoteChar c) = if c = '\x00' then none else some none := by
  by_cases hnul : c = '\x00'
  · subst hnul
    decide
  · rw [if_neg hnul]
    unfold Json.quoteChar
    split_ifs with h1 h2 h3 h4 h5 h6 h7 h8 h9
    · exact takesItem_htmlItem h1
    all_goals try rfl
    -- What is left is a control character, and not the first one.
    have hlt := Json.control_of_not_plain h2 h3 h9
    have hunit := Json.unit_control c.toNat hlt
    have hne : c.toNat ≠ 0 := fun h0 => hnul (Char.toNat_inj.mp h0)
    exact takesItem_unicode (by omega) (by omega)

theorem takesString_quote (s : List Char) :
    takesString none (Json.quote s) = true ↔ '\x00' ∉ s := by
  induction s with
  | nil => exact iff_of_true rfl List.not_mem_nil
  | cons c s ih =>
    rw [Json.quote, List.map_cons, ← Json.quote, takesString, takesItem_quoteChar, List.mem_cons,
      not_or]
    by_cases hnul : c = '\x00'
    · rw [if_pos hnul]
      exact iff_of_false Bool.false_ne_true fun h => h.1 hnul.symm
    · rw [if_neg hnul]
      exact ih.trans (iff_and_self.mpr fun _ => Ne.symm hnul)

/-! ## Integers -/

theorem takesNumber_toDigits {n : ℕ} (h : (Nat.toDigits 10 n).length ≤ 131072) :
    takesNumber (Nat.toDigits 10 n) = true ∧ takesNumber ('-' :: Nat.toDigits 10 n) = true := by
  obtain ⟨c, s, hs, hc⟩ := Json.toDigits_head n
  have hdigits : (Nat.toDigits 10 n).all Json.isDigit = true :=
    List.all_eq_true.mpr fun _ hmem => Json.isDigit_of_mem_toDigits hmem
  have htake : (Nat.toDigits 10 n).takeWhile Json.isDigit = Nat.toDigits 10 n :=
    List.takeWhile_eq_self_iff.mpr (List.all_eq_true.mp hdigits)
  have hdrop : (Nat.toDigits 10 n).dropWhile Json.isDigit = [] :=
    List.dropWhile_eq_nil_iff.mpr (List.all_eq_true.mp hdigits)
  have hhead : (Nat.toDigits 10 n).head? ≠ some '-' := by
    rw [hs]
    exact fun h => hc (Option.some.inj h)
  have hzeros : ((Nat.toDigits 10 n).length : ℤ) -
      ((Nat.toDigits 10 n).takeWhile (· = '0')).length + 0 ≤ 131072 := by
    omega
  constructor
  · simp only [takesNumber, if_neg hhead, htake, hdrop, List.head?_nil, reduceCtorEq, if_false,
      List.append_nil, exponent, decide_eq_true hzeros, Bool.or_true]
    rfl
  · simp only [takesNumber, List.head?_cons, if_true, List.tail_cons, htake, hdrop, List.head?_nil,
      reduceCtorEq, if_false, List.append_nil, exponent, decide_eq_true hzeros, Bool.or_true]
    rfl

theorem takesNumber_ofInt {i : ℤ} (hlow : -2 ^ 63 ≤ i) (hhigh : i < 2 ^ 63) :
    takesNumber (Json.NumLit.ofInt i).raw = true := by
  have hlen : (Nat.toDigits 10 i.natAbs).length ≤ 131072 := by
    refine Nat.le_trans ((Nat.length_toDigits_le_iff (k := 19) (by decide) (by decide)).mpr ?_)
      (by decide)
    have hbound : i.natAbs ≤ 2 ^ 63 := by omega
    exact Nat.lt_of_le_of_lt hbound (by decide)
  obtain ⟨hplain, hneg⟩ := takesNumber_toDigits hlen
  change takesNumber (Json.decimal i) = true
  unfold Json.decimal
  split_ifs
  · exact hneg
  · exact hplain

end Jsonb
