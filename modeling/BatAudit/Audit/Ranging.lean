import Mathlib.Logic.Relation
import BatAudit.Audit.Once

/-!
# Ranging over a map that changes

The loop of `sanitizeJSONValues` inserts into the map that it ranges over, and what it inserts may
come up again. Where no keys meet and nothing that comes up again is escaped, every order of the
visits ends, and leaves every key and every string sanitized once.
-/

namespace BatAudit

/-! ## The loop -/

/-- The keys that are still to come, the keys that were inserted and may come, and the map. -/
structure Loop where
  pending : List (List Char)
  added : List (List Char)
  map : GoMap

namespace Loop

def start (m : GoMap) : Loop := ⟨m.map Prod.fst, [], m⟩

/-- The key and the value that the loop may come to next. -/
structure Offers (l : Loop) (key : List Char) (val : GoValue) : Prop where
  value : lookupKey key l.map = some val
  due : key ∈ l.pending ∨ key ∈ l.added

/-- The body of the loop for a key, once its value has become `w`. -/
def visit (l : Loop) (key : List Char) (w : GoValue) : Loop where
  pending := l.pending.erase key
  added := if (lookupKey (sanitizeChars key) l.map).isNone then
      sanitizeChars key :: l.added.erase key
    else l.added.erase key
  map := if sanitizeChars key ≠ key then deleteKey key (setKey (sanitizeChars key) w l.map)
    else setKey (sanitizeChars key) w l.map

def Step (l l' : Loop) : Prop :=
  ∃ key val p w, l.Offers key val ∧ sanitizeJSONValues p val = some w ∧ l' = l.visit key w

/-- The rest of the loop, in an order that ends it. -/
def run (l : Loop) (vs : List (List Char × Plan)) : Option GoMap :=
  sanitizeEntries vs l.pending l.added l.map

end Loop

/-- There is no infinite run of the function on the value. -/
inductive GoValue.Ends : GoValue → Prop
  | null : Ends .null
  | bool (b : Bool) : Ends (.bool b)
  | num (f : Float64) : Ends (.num f)
  | str (s : List Char) : Ends (.str s)
  | arr (items : List GoValue) (h : ∀ v ∈ items, Ends v) : Ends (.arr items)
  | obj (m : GoMap) (acc : Acc (fun l' l : Loop => l.Step l') (Loop.start m))
      (values : ∀ l, Relation.ReflTransGen Loop.Step (Loop.start m) l → ∀ key val,
        l.Offers key val → Ends val) : Ends (.obj m)

/-- Every run ends, with every key and every string of the value sanitized once. -/
structure SanitizesOnce (v : GoValue) : Prop where
  ends : v.Ends
  once : ∀ p w, sanitizeJSONValues p v = some w → v.once.Same w

/-! ## Values that are settled after one visit -/

mutual

/-- No two keys of a map are sanitized to one, no key is escaped, and what is put under another key
has nothing that is escaped. -/
def GoValue.Settled : GoValue → Prop
  | .null | .bool _ | .num _ | .str _ => True
  | .arr items => ItemsSettled items
  | .obj m => (m.map fun e => sanitizeChars e.1).Nodup ∧ EntriesSettled m

def ItemsSettled : List GoValue → Prop
  | [] => True
  | v :: vs => v.Settled ∧ ItemsSettled vs

def EntriesSettled : GoMap → Prop
  | [] => True
  | e :: m => EntrySettled e ∧ EntriesSettled m

def EntrySettled : List Char × GoValue → Prop
  | (k, v) => EscapeFree k ∧ v.Settled ∧ (sanitizeChars k ≠ k → v.Holds EscapeFree)

end

theorem GoValue.induction {P : GoValue → Prop} (null : P .null) (bool : ∀ b, P (.bool b))
    (num : ∀ f, P (.num f)) (str : ∀ s, P (.str s))
    (arr : ∀ items, (∀ v ∈ items, P v) → P (.arr items))
    (obj : ∀ m : GoMap, (∀ e ∈ m, P e.2) → P (.obj m)) (v : GoValue) : P v :=
  @GoValue.rec P (fun items => ∀ v ∈ items, P v) (fun m => ∀ e ∈ m, P e.2) (fun e => P e.2)
    null bool num str arr obj (fun _ h => absurd h List.not_mem_nil)
    (fun _ _ hv hvs => List.forall_mem_cons.mpr ⟨hv, hvs⟩) (fun _ h => absurd h List.not_mem_nil)
    (fun _ _ he hm => List.forall_mem_cons.mpr ⟨he, hm⟩) (fun _ _ h => h) v

variable {m m' : GoMap} {l l' : Loop} {key k : List Char} {val v w : GoValue}
  {e e' : List Char × GoValue} {items : List GoValue} {q : List Char → Prop}

theorem itemsHold_iff : ItemsHold q items ↔ ∀ v ∈ items, v.Holds q := by
  induction items with
  | nil => exact ⟨fun _ _ hv => absurd hv List.not_mem_nil, fun _ => trivial⟩
  | cons v vs ih => rw [ItemsHold, ih, List.forall_mem_cons]

theorem itemsSettled_iff : ItemsSettled items ↔ ∀ v ∈ items, v.Settled := by
  induction items with
  | nil => exact ⟨fun _ _ hv => absurd hv List.not_mem_nil, fun _ => trivial⟩
  | cons v vs ih => rw [ItemsSettled, ih, List.forall_mem_cons]

theorem entryHolds_iff : EntryHolds q e ↔ q e.1 ∧ e.2.Holds q := by
  cases e
  exact Iff.rfl

theorem entries_hold (h : EntriesHold q m) (he : e ∈ m) : q e.1 ∧ e.2.Holds q :=
  entryHolds_iff.mp (entriesHold_iff.mp h e he)

theorem entriesSettled_iff : EntriesSettled m ↔ ∀ e ∈ m,
    EscapeFree e.1 ∧ e.2.Settled ∧ (sanitizeChars e.1 ≠ e.1 → e.2.Holds EscapeFree) := by
  induction m with
  | nil => exact ⟨fun _ _ he => absurd he List.not_mem_nil, fun _ => trivial⟩
  | cons e m ih =>
    rw [EntriesSettled, ih, List.forall_mem_cons]
    cases e
    exact Iff.rfl

theorem itemsOnce_eq (items : List GoValue) : itemsOnce items = items.map GoValue.once := by
  induction items with
  | nil => rfl
  | cons v vs ih => rw [itemsOnce, ih, List.map_cons]

/-! ## One visit -/

namespace Loop

theorem run_cons {p : Plan} {vs : List (List Char × Plan)} :
    l.run ((key, p) :: vs) = some m' ↔ ∃ val w, l.Offers key val ∧
      sanitizeJSONValues p val = some w ∧ (l.visit key w).run vs = some m' := by
  constructor
  · intro h
    obtain ⟨val, w, hval, hdue, hw, h⟩ := sanitizeEntries_cons_iff.mp h
    exact ⟨val, w, ⟨hval, hdue⟩, hw, h⟩
  · rintro ⟨val, w, ⟨hval, hdue⟩, hw, h⟩
    exact sanitizeEntries_cons_iff.mpr ⟨val, w, hval, hdue, hw, h⟩

theorem run_nil : l.run [] = some m' ↔ l.pending = [] ∧ l.map = m' := by
  rw [run, sanitizeEntries_nil, Option.ite_none_right_eq_some, Option.some.injEq]

theorem lookupKey_visit (l : Loop) (key : List Char) (w : GoValue) (k : List Char) :
    lookupKey k (l.visit key w).map =
      if k = sanitizeChars key then some w else if k = key then none else lookupKey k l.map := by
  rw [visit]
  by_cases hkey : sanitizeChars key = key
  · rw [if_neg (not_not.mpr hkey), lookupKey_setKey, hkey]
    split_ifs <;> rfl
  · rw [if_pos hkey, lookupKey_deleteKey, lookupKey_setKey]
    by_cases hk : k = key
    · rw [if_pos hk, if_pos hk, if_neg fun h => hkey (h.symm.trans hk)]
    · rw [if_neg hk, if_neg hk]

theorem lookupKey_visit_self (l : Loop) (key : List Char) (w : GoValue) :
    lookupKey (sanitizeChars key) (l.visit key w).map = some w := by
  rw [lookupKey_visit, if_pos rfl]

theorem lookupKey_visit_of_ne (hk : k ≠ key) (hk' : k ≠ sanitizeChars key) :
    lookupKey k (l.visit key w).map = lookupKey k l.map := by
  rw [lookupKey_visit, if_neg hk', if_neg hk]

/-- A run changes nothing at a key that it does not come to and puts nothing at. -/
theorem lookupKey_run {vs : List (List Char × Plan)} (h : l.run vs = some m')
    (hvs : ∀ v ∈ vs, k ≠ v.1 ∧ k ≠ sanitizeChars v.1) : lookupKey k m' = lookupKey k l.map := by
  induction vs generalizing l with
  | nil => rw [(run_nil.mp h).2]
  | cons v vs ih =>
    obtain ⟨val, w, -, -, h⟩ := run_cons.mp h
    obtain ⟨hv, hvs⟩ := List.forall_mem_cons.mp hvs
    rw [ih h hvs, lookupKey_visit_of_ne hv.1 hv.2]

end Loop

/-! ## A loop in which no keys meet -/

/-- The keys are distinct as they are and sanitized, and nothing in them is escaped. -/
structure KeysApart (m : GoMap) : Prop where
  nodup : (m.map Prod.fst).Nodup
  sanitized : (m.map fun e => sanitizeChars e.1).Nodup
  escapeFree : ∀ e ∈ m, EscapeFree e.1

theorem KeysApart.twice (h : KeysApart m) (he : e ∈ m) :
    sanitizeChars (sanitizeChars e.1) = sanitizeChars e.1 :=
  sanitizeChars_twice_iff.mpr (h.escapeFree e he)

theorem KeysApart.inj (h : KeysApart m) (he : e ∈ m) (he' : e' ∈ m)
    (heq : sanitizeChars e.1 = sanitizeChars e'.1) : e = e' :=
  List.inj_on_of_nodup_map h.sanitized he he' heq

/-- No key is what another one is sanitized to. -/
theorem KeysApart.ne (h : KeysApart m) (he : e ∈ m) (he' : e' ∈ m) (hne : e ≠ e') :
    e.1 ≠ sanitizeChars e'.1 := by
  intro heq
  exact hne (h.inj he he' ((congrArg sanitizeChars heq).trans (h.twice he')))

namespace Loop

/-- The loop has not come to the entry. -/
structure Untouched (l : Loop) (e : List Char × GoValue) : Prop where
  pending : e.1 ∈ l.pending
  value : lookupKey e.1 l.map = some e.2
  fresh : sanitizeChars e.1 ≠ e.1 → lookupKey (sanitizeChars e.1) l.map = none

/-- The loop has come to the entry, once or more. -/
structure Replaced (l : Loop) (e : List Char × GoValue) : Prop where
  passed : e.1 ∉ l.pending
  value : ∃ w, lookupKey (sanitizeChars e.1) l.map = some w ∧ e.2.once.Same w
  gone : sanitizeChars e.1 ≠ e.1 → lookupKey e.1 l.map = none

/-- What the loop over `m` has come to. -/
structure Ranged (m : GoMap) (l : Loop) : Prop where
  nodup : l.pending.Nodup
  pending : ∀ k ∈ l.pending, ∃ e ∈ m, k = e.1
  entry : ∀ e ∈ m, l.Untouched e ∨ l.Replaced e
  other : ∀ k w, lookupKey k l.map = some w → ∃ e ∈ m, k = e.1 ∨ k = sanitizeChars e.1
  added : ∀ k ∈ l.added, ∃ e ∈ m, e.1 ∉ l.pending ∧ k = sanitizeChars e.1 ∧ sanitizeChars e.1 ≠ e.1

/-- A visit takes away a pending key, or one that was inserted. -/
def size (l : Loop) : ℕ := 2 * l.pending.length + l.added.length

/-- An entry that is visited for the first time, or one that comes up again under its new key. -/
inductive Visiting (m : GoMap) (l : Loop) (key : List Char) (val : GoValue) :
    List Char × GoValue → Prop
  | first {e : List Char × GoValue} (he : e ∈ m) (h : l.Untouched e) (hkey : key = e.1)
      (hval : val = e.2) : Visiting m l key val e
  | again {e : List Char × GoValue} (he : e ∈ m) (h : l.Replaced e)
      (hkey : key = sanitizeChars e.1) (hne : sanitizeChars e.1 ≠ e.1) (hdue : key ∉ l.pending)
      (hadded : key ∈ l.added) (hval : e.2.once.Same val) : Visiting m l key val e

theorem ranged_start (hm : KeysApart m) : Ranged m (start m) where
  nodup := hm.nodup
  pending k hk := by
    obtain ⟨e, he, rfl⟩ := List.mem_map.mp hk
    exact ⟨e, he, rfl⟩
  entry e he := by
    refine Or.inl ⟨List.mem_map_of_mem he, lookupKey_of_mem hm.nodup he, fun hne => ?_⟩
    rw [← Option.not_isSome_iff_eq_none, Option.isSome_iff_exists]
    intro hsome
    obtain ⟨e', he', heq⟩ := List.mem_map.mp (mem_keys_iff.mpr hsome)
    refine hm.ne he' he (fun h => hne ?_) heq
    rw [← heq, h]
  other k w hw := ⟨(k, w), mem_of_lookupKey hw, Or.inl rfl⟩
  added k hk := absurd hk List.not_mem_nil

theorem Ranged.visiting (h : Ranged m l) (hoffer : l.Offers key val) :
    ∃ e, Visiting m l key val e := by
  by_cases hpending : key ∈ l.pending
  · obtain ⟨e, he, rfl⟩ := h.pending key hpending
    rcases h.entry e he with huntouched | hreplaced
    · have hval := Option.some.inj (hoffer.value.symm.trans huntouched.value)
      exact ⟨e, .first he huntouched rfl hval⟩
    · exact absurd hpending hreplaced.passed
  · have hadded := hoffer.due.resolve_left hpending
    obtain ⟨e, he, hpassed, rfl, hne⟩ := h.added key hadded
    have hreplaced := (h.entry e he).resolve_left fun hu => hpassed hu.pending
    obtain ⟨w, hw, hsame⟩ := hreplaced.value
    obtain rfl := Option.some.inj (hoffer.value.symm.trans hw)
    exact ⟨e, .again he hreplaced rfl hne hpending hadded hsame⟩

section Visit

variable (hvisit : Visiting m l key val e)
include hvisit

theorem Visiting.mem : e ∈ m := by
  cases hvisit <;> assumption

theorem Visiting.key_eq : key = e.1 ∨ key = sanitizeChars e.1 ∧ sanitizeChars e.1 ≠ e.1 := by
  cases hvisit with
  | first he hu hkey hval => exact Or.inl hkey
  | again he hr hkey hne hdue hadded hval => exact Or.inr ⟨hkey, hne⟩

/-- What is inserted has a new key. -/
theorem Visiting.inserted (hnone : lookupKey (sanitizeChars key) l.map = none) :
    sanitizeChars e.1 ≠ e.1 := by
  cases hvisit with
  | first he hu hkey hval =>
    subst hkey
    intro heq
    rw [heq, hu.value] at hnone
    cases hnone
  | again he hr hkey hne hdue hadded hval => exact hne

theorem Visiting.passed (h : Ranged m l) : e.1 ∉ (l.visit key w).pending := by
  cases hvisit with
  | first he hu hkey hval =>
    subst hkey
    exact h.nodup.not_mem_erase
  | again he hr hkey hne hdue hadded hval =>
    exact fun hmem => hr.passed (List.mem_of_mem_erase hmem)

variable (hm : KeysApart m)
include hm

theorem Visiting.sanitize_key : sanitizeChars key = sanitizeChars e.1 := by
  have he := hvisit.mem
  rcases hvisit.key_eq with rfl | ⟨rfl, -⟩
  · rfl
  · exact hm.twice he

theorem Visiting.ne_key (he' : e' ∈ m) (hne : e' ≠ e) : e'.1 ≠ key := by
  have he := hvisit.mem
  rcases hvisit.key_eq with rfl | ⟨rfl, -⟩
  · exact fun heq => hne (List.inj_on_of_nodup_map hm.nodup he' he heq)
  · exact hm.ne he' he hne

theorem Visiting.sanitized_ne_key (he' : e' ∈ m) (hne : e' ≠ e) : sanitizeChars e'.1 ≠ key := by
  have he := hvisit.mem
  rcases hvisit.key_eq with rfl | ⟨rfl, -⟩
  · exact (hm.ne he he' hne.symm).symm
  · exact fun heq => hne (hm.inj he' he heq)

theorem Visiting.replaced (h : Ranged m l) (hw : e.2.once.Same w) : (l.visit key w).Replaced e := by
  refine ⟨hvisit.passed h, ⟨w, ?_, hw⟩, fun hne => ?_⟩
  · rw [← hvisit.sanitize_key hm, lookupKey_visit_self]
  · rw [lookupKey_visit, hvisit.sanitize_key hm, if_neg hne.symm]
    split_ifs with hkey
    · rfl
    · cases hvisit with
      | first he hu heq hval => exact absurd heq.symm hkey
      | again he hr heq hne' hdue hadded hval => exact hr.gone hne

theorem Visiting.untouched_of_ne (he' : e' ∈ m) (hne : e' ≠ e) (hu : l.Untouched e') :
    (l.visit key w).Untouched e' := by
  have he := hvisit.mem
  have hkey := hvisit.ne_key hm he' hne
  have hkey' := hvisit.sanitized_ne_key hm he' hne
  have hsanitize := hvisit.sanitize_key hm
  refine ⟨(List.mem_erase_of_ne hkey).mpr hu.pending, ?_, fun hfresh => ?_⟩
  · rw [lookupKey_visit_of_ne hkey (hsanitize ▸ hm.ne he' he hne)]
    exact hu.value
  · rw [lookupKey_visit_of_ne hkey' (hsanitize ▸ fun heq => hne (hm.inj he' he heq))]
    exact hu.fresh hfresh

theorem Visiting.replaced_of_ne (he' : e' ∈ m) (hne : e' ≠ e) (hr : l.Replaced e') :
    (l.visit key w).Replaced e' := by
  have he := hvisit.mem
  have hkey := hvisit.ne_key hm he' hne
  have hkey' := hvisit.sanitized_ne_key hm he' hne
  have hsanitize := hvisit.sanitize_key hm
  refine ⟨fun hmem => hr.passed (List.mem_of_mem_erase hmem), ?_, fun hgone => ?_⟩
  · rw [lookupKey_visit_of_ne hkey' (hsanitize ▸ fun heq => hne (hm.inj he' he heq))]
    exact hr.value
  · rw [lookupKey_visit_of_ne hkey (hsanitize ▸ hm.ne he' he hne)]
    exact hr.gone hgone

theorem Visiting.ranged (h : Ranged m l) (hw : e.2.once.Same w) : Ranged m (l.visit key w) where
  nodup := h.nodup.erase key
  pending k hk := h.pending k (List.mem_of_mem_erase hk)
  entry e' he' := by
    by_cases heq : e' = e
    · exact Or.inr (heq ▸ hvisit.replaced hm h hw)
    · rcases h.entry e' he' with hu | hr
      · exact Or.inl (hvisit.untouched_of_ne hm he' heq hu)
      · exact Or.inr (hvisit.replaced_of_ne hm he' heq hr)
  other k x hx := by
    rw [lookupKey_visit] at hx
    split_ifs at hx with hk
    · exact ⟨e, hvisit.mem, Or.inr (hk.trans (hvisit.sanitize_key hm))⟩
    · exact h.other k x hx
  added k hk := by
    have hold : k ∈ l.added.erase key → ∃ e ∈ m, e.1 ∉ (l.visit key w).pending ∧
        k = sanitizeChars e.1 ∧ sanitizeChars e.1 ≠ e.1 := by
      intro hk
      obtain ⟨e', he', hpassed, hk, hne⟩ := h.added k (List.mem_of_mem_erase hk)
      exact ⟨e', he', fun hmem => hpassed (List.mem_of_mem_erase hmem), hk, hne⟩
    change k ∈ (if (lookupKey (sanitizeChars key) l.map).isNone then _ else _) at hk
    split_ifs at hk with hnone
    · rcases List.mem_cons.mp hk with rfl | hk
      · exact ⟨e, hvisit.mem, hvisit.passed h, hvisit.sanitize_key hm,
          hvisit.inserted (Option.isNone_iff_eq_none.mp hnone)⟩
      · exact hold hk
    · exact hold hk

theorem Visiting.size_lt : (l.visit key w).size < l.size := by
  have herase := List.length_erase_le (a := key) (l := l.added)
  cases hvisit with
  | first he hu hkey hval =>
    have hmem : key ∈ l.pending := hkey ▸ hu.pending
    have hlength := List.length_erase_of_mem hmem
    have hpos := List.length_pos_of_mem hmem
    simp only [size, visit]
    split_ifs
    · rw [List.length_cons]
      omega
    · omega
  | again he hr hkey hne hdue hadded hval =>
    have hlength := List.length_erase_of_mem hadded
    have hpos := List.length_pos_of_mem hadded
    obtain ⟨x, hx, -⟩ := hr.value
    have hsome : ¬(lookupKey (sanitizeChars key) l.map).isNone = true := by
      rw [hkey, hm.twice he, hx]
      exact Bool.false_ne_true
    simp only [size, visit]
    rw [List.erase_of_not_mem hdue, if_neg hsome]
    omega

end Visit

end Loop

/-! ## Values that are visited again -/

/-- A value in which nothing changes when it is sanitized. -/
def Fixed (s : List Char) : Prop := sanitizeChars s = s

theorem once_of_fixed (v : GoValue) (h : v.Holds Fixed) : v.once = v := by
  induction v using GoValue.induction with
  | null | bool | num => rfl
  | str s => exact congrArg GoValue.str h
  | arr items ih =>
    have hitems := itemsHold_iff.mp h
    rw [GoValue.once, itemsOnce_eq, List.map_congr_left fun v hv => ih v hv (hitems v hv),
      List.map_id']
  | obj m ih =>
    have hentry : ∀ e ∈ m, entryOnce e = e := by
      rintro ⟨k, v⟩ he
      obtain ⟨hk, hv⟩ := entries_hold h.2 he
      exact Prod.ext hk (ih _ he hv)
    rw [GoValue.once, entriesOnce_eq, List.map_congr_left hentry, List.map_id']

/-- Sanitized once, a value without anything to be escaped does not change any more. -/
theorem fixed_once (v : GoValue) (hv : v.Settled) (h : v.Holds EscapeFree) :
    v.once.Holds Fixed := by
  induction v using GoValue.induction with
  | null | bool | num => trivial
  | str s => exact sanitizeChars_twice_iff.mpr h
  | arr items ih =>
    have hitems := itemsHold_iff.mp h
    have hsettled := itemsSettled_iff.mp hv
    rw [GoValue.once, itemsOnce_eq]
    refine itemsHold_iff.mpr fun w hw => ?_
    obtain ⟨v, hmem, rfl⟩ := List.mem_map.mp hw
    exact ih v hmem (hsettled v hmem) (hitems v hmem)
  | obj m ih =>
    have hsettled := entriesSettled_iff.mp hv.2
    refine ⟨?_, ?_⟩
    · rw [keys_entriesOnce]
      exact hv.1
    · rw [entriesOnce_eq]
      refine entriesHold_iff.mpr fun d hd => ?_
      obtain ⟨⟨k, v⟩, hmem, rfl⟩ := List.mem_map.mp hd
      obtain ⟨hk, hvalue⟩ := entries_hold h.2 hmem
      exact ⟨sanitizeChars_twice_iff.mpr hk, ih _ hmem (hsettled _ hmem).2.1 hvalue⟩

/-! ## Runs -/

namespace Loop

/-- The entries of a map, and what may come up again, are sanitized once by every run. -/
structure Visitable (m : GoMap) : Prop where
  apart : KeysApart m
  values : ∀ e ∈ m, SanitizesOnce e.2
  again : ∀ e ∈ m, sanitizeChars e.1 ≠ e.1 → ∀ w, e.2.once.Same w →
    SanitizesOnce w ∧ w.once = w

theorem Visitable.offered (hm : Visitable m) (h : Ranged m l) (hoffer : l.Offers key val) :
    val.Ends ∧ ∀ p w, sanitizeJSONValues p val = some w →
      Ranged m (l.visit key w) ∧ (l.visit key w).size < l.size := by
  obtain ⟨e, hvisit⟩ := h.visiting hoffer
  have hsame : val.Ends ∧ ∀ p w, sanitizeJSONValues p val = some w → e.2.once.Same w := by
    cases hvisit with
    | first he hu hkey hval =>
      rw [hval]
      exact ⟨(hm.values e he).ends, (hm.values e he).once⟩
    | again he hr hkey hne hdue hadded hval =>
      obtain ⟨hagain, hfixed⟩ := hm.again e he hne val hval
      refine ⟨hagain.ends, fun p w hw => GoValue.Same.trans _ hval ?_⟩
      exact hfixed ▸ hagain.once p w hw
  exact ⟨hsame.1, fun p w hw =>
    ⟨hvisit.ranged hm.apart h (hsame.2 p w hw), hvisit.size_lt hm.apart⟩⟩

theorem Visitable.step (hm : Visitable m) (h : Ranged m l) (hstep : l.Step l') :
    Ranged m l' ∧ l'.size < l.size := by
  obtain ⟨key, val, p, w, hoffer, hw, rfl⟩ := hstep
  exact (hm.offered h hoffer).2 p w hw

theorem Visitable.ranged (hm : Visitable m) (hreach : Relation.ReflTransGen Step (start m) l) :
    Ranged m l := by
  induction hreach with
  | refl => exact ranged_start hm.apart
  | tail _ hstep ih => exact (hm.step ih hstep).1

theorem Visitable.acc (hm : Visitable m) (h : Ranged m l) :
    Acc (fun l' l : Loop => l.Step l') l := by
  induction hn : l.size using Nat.strong_induction_on generalizing l with
  | h n ih =>
    subst hn
    refine ⟨_, fun l' hstep => ?_⟩
    obtain ⟨hranged, hlt⟩ := hm.step h hstep
    exact ih l'.size hlt hranged rfl

/-- When no key is pending, every entry has been replaced. -/
theorem Ranged.same (h : Ranged m l) (hm : KeysApart m) (hpending : l.pending = [])
    (hnodup : (l.map.map Prod.fst).Nodup) : (GoValue.obj m).once.Same (.obj l.map) := by
  have hreplaced : ∀ e ∈ m, l.Replaced e := fun e he =>
    (h.entry e he).resolve_left fun hu => List.not_mem_nil (hpending ▸ hu.pending)
  have hkeys : ((entriesOnce m).map Prod.fst).Perm (l.map.map Prod.fst) := by
    rw [keys_entriesOnce]
    refine (List.perm_ext_iff_of_nodup hm.sanitized hnodup).mpr fun k => ?_
    rw [mem_keys_iff]
    constructor
    · intro hk
      obtain ⟨e, he, rfl⟩ := List.mem_map.mp hk
      obtain ⟨w, hw, -⟩ := (hreplaced e he).value
      exact ⟨w, hw⟩
    · rintro ⟨w, hw⟩
      obtain ⟨e, he, rfl | rfl⟩ := h.other k w hw
      · refine List.mem_map.mpr ⟨e, he, ?_⟩
        by_contra hne
        cases ((hreplaced e he).gone hne).symm.trans hw
      · exact List.mem_map.mpr ⟨e, he, rfl⟩
  refine ⟨hkeys, entriesSame_iff.mpr fun d hd => ?_⟩
  rw [entriesOnce_eq] at hd
  obtain ⟨⟨k, v⟩, he, rfl⟩ := List.mem_map.mp hd
  exact (hreplaced _ he).value

theorem Visitable.run (hm : Visitable m) (h : Ranged m l) {vs : List (List Char × Plan)}
    (hrun : l.run vs = some m') :
    ∃ l', Ranged m l' ∧ l'.pending = [] ∧ l'.map = m' := by
  induction vs generalizing l with
  | nil =>
    obtain ⟨hpending, hmap⟩ := run_nil.mp hrun
    exact ⟨l, h, hpending, hmap⟩
  | cons v vs ih =>
    obtain ⟨val, w, hoffer, hw, hrun⟩ := run_cons.mp hrun
    exact ih ((hm.offered h hoffer).2 _ w hw).1 hrun

end Loop

/-- A map whose entries are sanitized once is. -/
theorem SanitizesOnce.obj (hv : (GoValue.obj m).Holds fun _ => True) (hm : Loop.Visitable m) :
    SanitizesOnce (.obj m) := by
  have hstart := Loop.ranged_start hm.apart
  refine ⟨.obj m (hm.acc hstart) fun l hreach key val hoffer =>
    (hm.offered (hm.ranged hreach) hoffer).1, fun p w hw => ?_⟩
  have hholds := holds_of_sanitizeJSONValues p hv hw
  cases p with
  | leaf | items => cases hw
  | visits vs =>
    obtain ⟨m', hm', rfl⟩ := Option.map_eq_some_iff.mp hw
    obtain ⟨l, hranged, hpending, rfl⟩ := hm.run hstart hm'
    exact hranged.same hm.apart hpending hholds.1

theorem SanitizesOnce.arr (h : ∀ v ∈ items, SanitizesOnce v) : SanitizesOnce (.arr items) := by
  refine ⟨.arr items fun v hv => (h v hv).ends, fun p w hw => ?_⟩
  cases p with
  | leaf | visits => cases hw
  | items ps =>
    obtain ⟨ws, hws, rfl⟩ := Option.map_eq_some_iff.mp hw
    change ItemsSame (itemsOnce items) ws
    clear hw
    induction items generalizing ps ws with
    | nil =>
      cases ps with
      | nil =>
        cases hws
        trivial
      | cons => cases hws
    | cons v vs ih =>
      cases ps with
      | nil => cases hws
      | cons p ps =>
        obtain ⟨w, hw', hrest⟩ := Option.bind_eq_some_iff.mp hws
        obtain ⟨ws', hws', heq⟩ := Option.bind_eq_some_iff.mp hrest
        cases heq
        obtain ⟨hv, hvs⟩ := List.forall_mem_cons.mp h
        exact ⟨hv.once p w hw', ih hvs ps ws' hws'⟩

theorem sanitizesOnce_str (s : List Char) : SanitizesOnce (.str s) :=
  ⟨.str s, fun p w hw => by cases p <;> cases hw <;> rfl⟩

theorem KeysApart.of_fixed (hm : (m.map Prod.fst).Nodup) (h : ∀ e ∈ m, Fixed e.1) :
    KeysApart m := by
  refine ⟨hm, ?_, fun e he => escapeFree_of_fixed (h e he)⟩
  rwa [List.map_congr_left h]

/-- What does not change is not changed by any run. -/
theorem sanitizesOnce_of_fixed (v : GoValue) (h : v.Holds Fixed) : SanitizesOnce v := by
  induction v using GoValue.induction with
  | null => exact ⟨.null, fun p w hw => by cases p <;> cases hw <;> trivial⟩
  | bool b => exact ⟨.bool b, fun p w hw => by cases p <;> cases hw <;> rfl⟩
  | num f => exact ⟨.num f, fun p w hw => by cases p <;> cases hw <;> rfl⟩
  | str s => exact sanitizesOnce_str s
  | arr items ih =>
    exact .arr fun v hv => ih v hv (itemsHold_iff.mp h v hv)
  | obj m ih =>
    refine .obj (GoValue.Holds.weaken _ h) ⟨.of_fixed h.1 fun e he => (entries_hold h.2 he).1,
      fun e he => ih e he (entries_hold h.2 he).2,
      fun e he hne => absurd (entries_hold h.2 he).1 hne⟩

/-- Settled values are sanitized once by every run. -/
theorem sanitizesOnce_of_settled (v : GoValue) (hv : v.Holds fun _ => True) (h : v.Settled) :
    SanitizesOnce v := by
  induction v using GoValue.induction with
  | null => exact sanitizesOnce_of_fixed _ trivial
  | bool b => exact sanitizesOnce_of_fixed _ trivial
  | num f => exact sanitizesOnce_of_fixed _ trivial
  | str s => exact sanitizesOnce_str s
  | arr items ih =>
    exact .arr fun v hmem => ih v hmem (itemsHold_iff.mp hv v hmem) (itemsSettled_iff.mp h v hmem)
  | obj m ih =>
    have hsettled := entriesSettled_iff.mp h.2
    refine .obj hv ⟨⟨hv.1, h.1, fun e he => (hsettled e he).1⟩,
      fun e he => ih e he (entries_hold hv.2 he).2 (hsettled e he).2.1, fun e he hne w hw => ?_⟩
    have hfixed := GoValue.Same.holds _ hw
      (fixed_once e.2 (hsettled e he).2.1 ((hsettled e he).2.2 hne))
    exact ⟨sanitizesOnce_of_fixed w hfixed, once_of_fixed w hfixed⟩

end BatAudit
