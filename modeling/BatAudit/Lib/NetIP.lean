import Mathlib.Data.List.Induction
import Mathlib.Order.Nat
import Mathlib.Algebra.GroupWithZero.Nat
import BatAudit.Lib.GoFormats

/-!
# Textual addresses

`net.ParseIP` on any text. An address of version 6 has groups of up to four hexadecimal
digits; where it has decimal digits only, the test is that of `GoFormats`. The numbers of a
text are all less when it loses digits.
-/

namespace NetIP

open GoText (isDigit)
open GoFormats (isHex isIPv4)

/-- The groups from the `i`-th on, and whether `::` has come. -/
def isGroups : ℕ → ℕ → Bool → List Char → Bool
  | 0, _, _, _ => false
  | fuel + 1, i, ellipsis, s =>
    let group := s.takeWhile isHex
    let rest := s.dropWhile isHex
    if group = [] then false
    else if rest.head? = some '.' then
      isIPv4 s && if ellipsis then i < 6 else i = 6
    else if 4 < group.length then false
    else
      match rest with
      | [] => if ellipsis then i + 1 < 8 else i + 1 = 8
      | ':' :: ':' :: rest =>
        !ellipsis && if rest = [] then i + 1 < 8 else isGroups fuel (i + 1) true rest
      | ':' :: rest => isGroups fuel (i + 1) ellipsis rest
      | _ => false

def isIPv6 (s : List Char) : Bool :=
  match s with
  | ':' :: ':' :: rest => rest = [] || isGroups 8 0 true rest
  | s => isGroups 8 0 false s

/-- `net.ParseIP` gives an address. The first dot or colon decides, and a zone is an error. -/
def parseIP (s : List Char) : Bool :=
  match s.find? fun c => c = '.' || c = ':' with
  | some '.' => isIPv4 s
  | some _ => isIPv6 s
  | none => false

/-! ## Addresses in decimal digits -/

def isAddressChar (c : Char) : Bool := isDigit c || c = '.' || c = ':'

theorem isHex_eq_isDigit {c : Char} (h : isAddressChar c = true) : isHex c = isDigit c := by
  simp only [isAddressChar, Bool.or_eq_true, decide_eq_true_eq] at h
  rcases h with (h | rfl) | rfl
  · rw [isHex, h]
    rfl
  · decide
  · decide

theorem takeWhile_isHex {s : List Char} (h : ∀ c ∈ s, isAddressChar c = true) :
    s.takeWhile isHex = s.takeWhile isDigit ∧ s.dropWhile isHex = s.dropWhile isDigit := by
  induction s with
  | nil => exact ⟨rfl, rfl⟩
  | cons c s ih =>
    obtain ⟨htake, hdrop⟩ := ih fun d hd => h d (List.mem_cons_of_mem c hd)
    simp only [List.takeWhile_cons, List.dropWhile_cons, isHex_eq_isDigit (h c List.mem_cons_self),
      htake, hdrop, and_self]

theorem isGroups_eq {fuel i : ℕ} {ellipsis : Bool} {s : List Char}
    (h : ∀ c ∈ s, isAddressChar c = true) :
    isGroups fuel i ellipsis s = GoFormats.isGroups fuel i ellipsis s := by
  induction fuel generalizing i ellipsis s with
  | zero => rfl
  | succ fuel ih =>
    have hrest : ∀ c ∈ s.dropWhile isDigit, isAddressChar c = true :=
      fun c hc => h c ((List.dropWhile_suffix _).subset hc)
    obtain ⟨htake, hdrop⟩ := takeWhile_isHex h
    rw [isGroups, GoFormats.isGroups, htake, hdrop]
    generalize s.dropWhile isDigit = rest at hrest
    refine ite_congr rfl (fun _ => rfl) fun _ => ite_congr rfl (fun _ => rfl) fun _ =>
      ite_congr rfl (fun _ => rfl) fun _ => ?_
    rcases rest with _ | ⟨c, _ | ⟨d, rest⟩⟩
    · rfl
    · by_cases hc : c = ':'
      · subst hc
        exact ih fun _ hc => absurd hc List.not_mem_nil
      · simp [hc]
    · have hd : ∀ c ∈ rest, isAddressChar c = true := fun c hc =>
        hrest c (List.mem_cons_of_mem _ (List.mem_cons_of_mem _ hc))
      by_cases hc : c = ':'
      · subst hc
        by_cases hcolon : d = ':'
        · subst hcolon
          simp only [ih hd]
        · have hrest' : ∀ c ∈ d :: rest, isAddressChar c = true := fun c hc =>
            hrest c (List.mem_cons_of_mem _ hc)
          simp [hcolon, ih hrest']
      · simp [hc]

theorem isIPv6_eq {s : List Char} (h : ∀ c ∈ s, isAddressChar c = true) :
    isIPv6 s = GoFormats.isIPv6 s := by
  have htail : ∀ rest, s = ':' :: ':' :: rest →
      isGroups 8 0 true rest = GoFormats.isGroups 8 0 true rest := by
    rintro rest rfl
    exact isGroups_eq fun c hc => h c (List.mem_cons_of_mem _ (List.mem_cons_of_mem _ hc))
  unfold isIPv6
  split
  · rename_i rest
    rw [htail rest rfl]
    rfl
  · rename_i hne
    rw [isGroups_eq h, GoFormats.isIPv6]
    exact fun rest heq => hne rest heq

/-- An address in decimal digits is one for both tests. -/
theorem parseIP_eq {s : List Char} (h : ∀ c ∈ s, isAddressChar c = true) :
    parseIP s = GoFormats.isIP s := by
  rw [parseIP, isIPv6_eq h]
  rfl

/-! ## The characters of an address -/

def isTextChar (c : Char) : Bool := isHex c || c = '.' || c = ':'

theorem isTextChar_of_isIPv4 {s : List Char} (h : isIPv4 s = true) :
    ∀ c ∈ s, isTextChar c = true := by
  have hjoin : ['.'].intercalate (s.splitOn '.') = s := List.intercalate_splitOn '.'
  simp only [isIPv4, Bool.and_eq_true, decide_eq_true_eq] at h
  obtain ⟨hfour, hall⟩ := h
  obtain ⟨a, b, c, d, hfields⟩ := List.length_eq_four.mp hfour
  rw [hfields] at hjoin hall
  have hoctet : ∀ t ∈ [a, b, c, d], ∀ c ∈ t, isTextChar c = true := by
    intro t ht c hc
    have hoct := List.all_eq_true.mp hall t ht
    simp only [GoFormats.isOctet, Bool.and_eq_true] at hoct
    simp [isTextChar, isHex, List.all_eq_true.mp hoct.1.1.2 c hc]
  have hdot : isTextChar '.' = true := by decide
  simp only [List.forall_mem_cons] at hoctet
  intro x hx
  rw [← hjoin] at hx
  simp only [List.intercalate, List.intersperse, List.flatten_cons, List.flatten_nil,
    List.mem_append, List.mem_singleton, List.not_mem_nil, or_false] at hx
  rcases hx with hx | rfl | hx | rfl | hx | rfl | hx
  · exact hoctet.1 x hx
  · exact hdot
  · exact hoctet.2.1 x hx
  · exact hdot
  · exact hoctet.2.2.1 x hx
  · exact hdot
  · exact hoctet.2.2.2.1 x hx

theorem isTextChar_of_isGroups {fuel i : ℕ} {ellipsis : Bool} {s : List Char}
    (h : isGroups fuel i ellipsis s = true) : ∀ c ∈ s, isTextChar c = true := by
  induction fuel generalizing i ellipsis s with
  | zero => cases h
  | succ fuel ih =>
    have hgroup : ∀ c ∈ s.takeWhile isHex, isTextChar c = true := fun c hc => by
      simp [isTextChar, List.all_eq_true.mp List.all_takeWhile c hc]
    have hcolon : isTextChar ':' = true := by decide
    have hall : (∀ c ∈ s.dropWhile isHex, isTextChar c = true) → ∀ c ∈ s, isTextChar c = true := by
      intro hrest c hc
      rw [← List.takeWhile_append_dropWhile (p := isHex) (l := s)] at hc
      exact (List.mem_append.mp hc).elim (hgroup c) (hrest c)
    simp only [isGroups] at h
    split at h
    · cases h
    split at h
    · exact isTextChar_of_isIPv4 (Bool.and_eq_true_iff.mp h).1
    split at h
    · cases h
    refine hall ?_
    split at h
    · rename_i hrest
      rw [hrest]
      exact fun c hc => absurd hc List.not_mem_nil
    · rename_i rest hrest
      obtain ⟨-, h⟩ := Bool.and_eq_true_iff.mp h
      have htail : ∀ c ∈ rest, isTextChar c = true := by
        split at h
        · subst rest
          exact fun c hc => absurd hc List.not_mem_nil
        · exact ih h
      rw [hrest]
      exact List.forall_mem_cons.mpr ⟨hcolon, List.forall_mem_cons.mpr ⟨hcolon, htail⟩⟩
    · rename_i rest _ hrest
      rw [hrest]
      exact List.forall_mem_cons.mpr ⟨hcolon, ih h⟩
    · cases h

theorem isTextChar_of_parseIP {s : List Char} (h : parseIP s = true) :
    ∀ c ∈ s, isTextChar c = true := by
  have hcolon : isTextChar ':' = true := by decide
  unfold parseIP at h
  split at h
  · exact isTextChar_of_isIPv4 h
  · unfold isIPv6 at h
    split at h
    · rename_i rest
      refine List.forall_mem_cons.mpr ⟨hcolon, List.forall_mem_cons.mpr ⟨hcolon, ?_⟩⟩
      rcases Bool.or_eq_true_iff.mp h with h | h
      · rw [of_decide_eq_true h]
        exact fun c hc => absurd hc List.not_mem_nil
      · exact isTextChar_of_isGroups h
    · exact isTextChar_of_isGroups h
  · cases h

theorem exists_of_parseIP {s : List Char} (h : parseIP s = true) :
    ∃ c ∈ s, c = '.' ∨ c = ':' := by
  unfold parseIP at h
  cases hfind : s.find? (fun c => c = '.' || c = ':') with
  | none =>
    rw [hfind] at h
    cases h
  | some c => exact ⟨c, List.mem_of_find?_eq_some hfind, by simpa using List.find?_some hfind⟩

/-! ## The address of a text -/

def digitValue (c : Char) : ℕ :=
  if isDigit c then c.toNat - '0'.toNat
  else if 'a' ≤ c && c ≤ 'f' then c.toNat - 'a'.toNat + 10
  else c.toNat - 'A'.toNat + 10

def readNumber (base acc : ℕ) (s : List Char) : ℕ :=
  s.foldl (fun n c => n * base + digitValue c) acc

/-- Two octets make a group. -/
def pairs : List ℕ → List ℕ
  | a :: b :: rest => (a * 256 + b) :: pairs rest
  | rest => rest

def fieldGroups (t : List Char) : List ℕ :=
  if '.' ∈ t then pairs ((t.splitOn '.').map (readNumber 10 0)) else [readNumber 16 0 t]

def groupsOf (s : List Char) : List ℕ :=
  if s = [] then [] else (s.splitOn ':').flatMap fieldGroups

/-- What stands before and after `::`. -/
def splitEllipsis : List Char → List Char × Option (List Char)
  | ':' :: ':' :: rest => ([], some rest)
  | c :: rest => (c :: (splitEllipsis rest).1, (splitEllipsis rest).2)
  | [] => ([], none)

def ipv6Groups (s : List Char) : List ℕ :=
  match splitEllipsis s with
  | (before, some after) =>
    let before := groupsOf before
    let after := groupsOf after
    before ++ List.replicate (8 - before.length - after.length) 0 ++ after
  | (before, none) => groupsOf before

/-- The address `net.ParseIP` gives, as eight groups of 16 bits. One of version 4 has the form
`::ffff:a.b.c.d`. -/
def address (s : List Char) : Option (List ℕ) :=
  if parseIP s then
    match s.find? fun c => c = '.' || c = ':' with
    | some '.' => some ([0, 0, 0, 0, 0, 0xffff] ++ fieldGroups s)
    | _ => some (ipv6Groups s)
  else none

example : address "::ffff:1.2.3.4".toList = address "1.2.3.4".toList := by decide

example : address "2001:db8::68".toList = some [0x2001, 0xdb8, 0, 0, 0, 0, 0, 0x68] := by decide

theorem isSome_address (s : List Char) : (address s).isSome = parseIP s := by
  unfold address
  split_ifs with h
  · rw [h]
    split <;> rfl
  · rw [(Bool.not_eq_true _).mp h]
    rfl

/-! ### What an address loses with its characters -/

section

variable {p : Char → Bool}

/-- The digits that a filter takes. -/
def lost (p : Char → Bool) (s : List Char) : ℕ := ((s.filter fun c => !p c).map digitValue).sum

def total (s : List Char) : ℕ := ((s.splitOn ':').flatMap fieldGroups).sum

theorem lost_cons (c : Char) (s : List Char) :
    lost p (c :: s) = (if p c then 0 else digitValue c) + lost p s := by
  by_cases hc : p c <;> simp [lost, hc]

theorem digitValue_le_lost {s : List Char} {c : Char} (hc : c ∈ s) (hp : p c = false) :
    digitValue c ≤ lost p s := by
  induction s with
  | nil => cases hc
  | cons d s ih =>
    rw [lost_cons]
    rcases List.mem_cons.mp hc with rfl | hc
    · simp [hp]
    · exact (ih hc).trans (Nat.le_add_left _ _)

theorem readNumber_filter {base : ℕ} (hbase : 0 < base) {acc acc' d : ℕ} (h : acc' + d ≤ acc)
    (s : List Char) :
    readNumber base acc' (s.filter p) + d + lost p s ≤ readNumber base acc s := by
  induction s generalizing acc acc' d with
  | nil => exact h
  | cons c s ih =>
    have hle : acc' + d ≤ acc * base := h.trans (Nat.le_mul_of_pos_right acc hbase)
    rw [lost_cons]
    by_cases hc : p c = true
    · rw [List.filter_cons_of_pos hc, if_pos hc]
      have hmul : acc' * base + d ≤ acc * base :=
        (Nat.add_le_add_left (Nat.le_mul_of_pos_right d hbase) _).trans
          ((Nat.add_mul acc' d base).symm.trans_le (Nat.mul_le_mul_right base h))
      have hrest : readNumber base (acc' * base + digitValue c) (s.filter p) + d + lost p s ≤
          readNumber base (acc * base + digitValue c) s := ih (by omega)
      simpa [readNumber] using hrest
    · rw [List.filter_cons_of_neg hc, if_neg hc]
      have hrest : readNumber base acc' (s.filter p) + (d + digitValue c) + lost p s ≤
          readNumber base (acc * base + digitValue c) s := ih (by omega)
      have hcons : readNumber base acc (c :: s) = readNumber base (acc * base + digitValue c) s :=
        rfl
      omega

theorem sum_pairs_le {α : Type*} {f g h : α → ℕ} {xs : List α}
    (hle : ∀ x ∈ xs, f x + g x ≤ h x) :
    (pairs (xs.map f)).sum + (xs.map g).sum ≤ (pairs (xs.map h)).sum := by
  induction xs using List.twoStepInduction with
  | nil => exact le_refl _
  | singleton x => simpa [pairs] using hle x (List.mem_singleton_self x)
  | cons_cons x y xs ih =>
    have hx := hle x List.mem_cons_self
    have hy := hle y (List.mem_cons_of_mem _ List.mem_cons_self)
    have hrest := ih fun z hz => hle z (List.mem_cons_of_mem _ (List.mem_cons_of_mem _ hz))
    simp only [List.map_cons, pairs, List.sum_cons]
    omega

theorem lost_splitOn {a : Char} (ha : p a = true) (s : List Char) :
    ((s.splitOn a).map (lost p)).sum = lost p s := by
  induction s with
  | nil => simp [lost]
  | cons c s ih =>
    rw [List.splitOn_cons_eq_if_modifyHead]
    by_cases hc : c = a
    · subst hc
      simp [ha, ih, lost]
    · rw [if_neg (by simpa using hc), lost_cons, ← ih]
      cases hsplit : s.splitOn a with
      | nil => exact absurd hsplit (List.splitOn_ne_nil a s)
      | cons t ts => simp [lost_cons, Nat.add_assoc]

theorem sum_fieldGroups_filter (hdot : p '.' = true) (t : List Char) :
    (fieldGroups (t.filter p)).sum + lost p t ≤ (fieldGroups t).sum := by
  have hmem : '.' ∈ t.filter p ↔ '.' ∈ t := by simp [hdot]
  simp only [fieldGroups, hmem]
  split_ifs with h
  · rw [GoText.splitOn_filter hdot, List.map_map, ← lost_splitOn hdot t]
    refine sum_pairs_le fun u _ => ?_
    exact readNumber_filter (d := 0) (by decide) (le_refl 0) u
  · rw [List.sum_singleton, List.sum_singleton]
    exact readNumber_filter (d := 0) (by decide) (le_refl 0) t

theorem total_filter (hdot : p '.' = true) (hcolon : p ':' = true) (s : List Char) :
    total (s.filter p) + lost p s ≤ total s := by
  rw [total, total, GoText.splitOn_filter hcolon, ← lost_splitOn hcolon s]
  induction s.splitOn ':' with
  | nil => exact le_refl _
  | cons t ts ih =>
    have ht := sum_fieldGroups_filter hdot t
    simp only [List.map_cons, List.flatMap_cons, List.sum_append, List.sum_cons]
    omega

theorem total_append (s t : List Char) : total (s ++ ':' :: t) = total s + total t := by
  rw [total, List.splitOn_append_cons_self, List.flatMap_append, List.sum_append, total, total]

theorem sum_groupsOf (s : List Char) : (groupsOf s).sum = total s := by
  unfold groupsOf
  split_ifs with h
  · rw [h]
    rfl
  · rfl

theorem splitEllipsis_eq (s : List Char) :
    match splitEllipsis s with
    | (before, some after) => s = before ++ ':' :: ':' :: after
    | (before, none) => s = before := by
  induction s using splitEllipsis.induct with
  | case1 rest => rfl
  | case2 c rest hne ih =>
    have hcons : splitEllipsis (c :: rest) =
        (c :: (splitEllipsis rest).1, (splitEllipsis rest).2) := by
      rw [splitEllipsis]
      exact hne
    rw [hcons]
    generalize splitEllipsis rest = split at ih
    rcases split with ⟨before, _ | after⟩
    · exact congrArg (c :: ·) ih
    · exact congrArg (c :: ·) ih
  | case3 => rfl

theorem sum_ipv6Groups (s : List Char) : (ipv6Groups s).sum = total s := by
  have hsplit := splitEllipsis_eq s
  unfold ipv6Groups
  generalize splitEllipsis s = split at hsplit
  rcases split with ⟨before, _ | after⟩
  · rw [sum_groupsOf, hsplit]
  · have hcolons : total (':' :: after) = total after := by
      have hnil : total [] = 0 := rfl
      simpa [hnil] using total_append [] after
    rw [hsplit, total_append, hcolons]
    simp [sum_groupsOf]

theorem find?_filter_separator (hdot : p '.' = true) (hcolon : p ':' = true) (s : List Char) :
    (s.filter p).find? (fun c => c = '.' || c = ':') = s.find? fun c => c = '.' || c = ':' := by
  rw [List.find?_filter]
  refine congrFun (congrArg List.find? (funext fun c => ?_)) s
  by_cases hc : p c = true
  · simp [hc]
  · have hne : ∀ d, p d = true → c ≠ d := fun d hd heq => hc (heq ▸ hd)
    simp [hc, hne _ hdot, hne _ hcolon]

/-- An address that is the same without some characters had no digits there but zeros. -/
theorem lost_eq_zero {s : List Char} (hdot : p '.' = true) (hcolon : p ':' = true)
    (hparse : parseIP s = true) (h : address (s.filter p) = address s) : lost p s = 0 := by
  have hparse' : parseIP (s.filter p) = true := by
    rw [← isSome_address, h, isSome_address, hparse]
  have hfields := sum_fieldGroups_filter hdot s
  have htotal := total_filter hdot hcolon s
  rw [address, address, if_pos hparse, if_pos hparse', find?_filter_separator hdot hcolon] at h
  split at h
  · have hsum := congrArg List.sum (List.append_cancel_left (Option.some.inj h))
    omega
  · have hsum := congrArg List.sum (Option.some.inj h)
    rw [sum_ipv6Groups, sum_ipv6Groups] at hsum
    omega

end

end NetIP
