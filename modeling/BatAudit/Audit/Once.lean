import BatAudit.Audit.Harmless
import BatAudit.Audit.Twice

/-!
# Values sanitized once

A value with every key and every string sanitized once, which is what the recursion of
`sanitizeJSONValues` is for, and when two values are the same although their maps list their
entries in different orders.
-/

namespace BatAudit

mutual

def GoValue.once : GoValue → GoValue
  | .null => .null
  | .bool b => .bool b
  | .num f => .num f
  | .str s => .str (sanitizeChars s)
  | .arr items => .arr (itemsOnce items)
  | .obj m => .obj (entriesOnce m)

def itemsOnce : List GoValue → List GoValue
  | [] => []
  | v :: vs => v.once :: itemsOnce vs

def entriesOnce : GoMap → GoMap
  | [] => []
  | e :: m => entryOnce e :: entriesOnce m

def entryOnce : List Char × GoValue → List Char × GoValue
  | (k, v) => (sanitizeChars k, v.once)

end

mutual

/-- Maps are the same when they have the same keys, and the same value for each. -/
def GoValue.Same : GoValue → GoValue → Prop
  | .null, .null => True
  | .bool b, .bool c => b = c
  | .num f, .num g => f = g
  | .str s, .str t => s = t
  | .arr vs, .arr ws => ItemsSame vs ws
  | .obj m, .obj m' => (m.map Prod.fst).Perm (m'.map Prod.fst) ∧ EntriesSame m m'
  | _, _ => False
termination_by structural v => v

def ItemsSame : List GoValue → List GoValue → Prop
  | [], [] => True
  | v :: vs, w :: ws => v.Same w ∧ ItemsSame vs ws
  | _, _ => False
termination_by structural vs => vs

def EntriesSame : GoMap → GoMap → Prop
  | [], _ => True
  | e :: m, m' => EntrySame e m' ∧ EntriesSame m m'
termination_by structural m => m

def EntrySame : List Char × GoValue → GoMap → Prop
  | (k, v), m' => ∃ w, lookupKey k m' = some w ∧ v.Same w
termination_by structural e => e

end

mutual

def GoValue.height : GoValue → ℕ
  | .null | .bool _ | .num _ | .str _ => 0
  | .arr items => itemsHeight items + 1
  | .obj m => entriesHeight m + 1

def itemsHeight : List GoValue → ℕ
  | [] => 0
  | v :: vs => max v.height (itemsHeight vs)

def entriesHeight : GoMap → ℕ
  | [] => 0
  | e :: m => max (entryHeight e) (entriesHeight m)

def entryHeight : List Char × GoValue → ℕ
  | (_, v) => v.height

end

/-! ## Maps -/

variable {m m' : GoMap} {key : List Char}

theorem lookupKey_cons (e : List Char × GoValue) (m : GoMap) (key : List Char) :
    lookupKey key (e :: m) = if e.1 = key then some e.2 else lookupKey key m := by
  rw [lookupKey, List.find?_cons]
  by_cases h : e.1 = key <;> simp [h, lookupKey]

theorem lookupKey_setKey (key key' : List Char) (v : GoValue) (m : GoMap) :
    lookupKey key' (setKey key v m) = if key' = key then some v else lookupKey key' m := by
  induction m with
  | nil => exact (lookupKey_cons (key, v) [] key').trans (if_congr eq_comm rfl rfl)
  | cons e m ih =>
    rw [setKey_cons]
    by_cases he : e.1 = key
    · rw [if_pos he, lookupKey_cons, lookupKey_cons, he]
      by_cases hk : key' = key
      · rw [if_pos hk, if_pos hk.symm]
      · rw [if_neg hk, if_neg (Ne.symm hk), if_neg (Ne.symm hk)]
    · rw [if_neg he, lookupKey_cons, lookupKey_cons, ih]
      by_cases hk : e.1 = key'
      · rw [if_pos hk, if_neg fun heq => he (hk.trans heq), if_pos hk]
      · rw [if_neg hk, if_neg hk]

theorem lookupKey_deleteKey (key key' : List Char) (m : GoMap) :
    lookupKey key' (deleteKey key m) = if key' = key then none else lookupKey key' m := by
  induction m with
  | nil => split_ifs <;> rfl
  | cons e m ih =>
    rw [deleteKey, List.filter_cons]
    by_cases he : e.1 = key
    · rw [if_neg (by simp [he]), ← deleteKey, ih, lookupKey_cons, he]
      by_cases hk : key' = key
      · rw [if_pos hk, if_pos hk]
      · rw [if_neg hk, if_neg hk, if_neg (Ne.symm hk)]
    · rw [if_pos (by simp [he]), ← deleteKey, lookupKey_cons, lookupKey_cons, ih]
      by_cases hk : e.1 = key'
      · rw [if_pos hk, if_neg fun heq => he (hk.trans heq), if_pos hk]
      · rw [if_neg hk, if_neg hk]

theorem lookupKey_of_mem (hm : (m.map Prod.fst).Nodup) {e : List Char × GoValue} (he : e ∈ m) :
    lookupKey e.1 m = some e.2 := by
  induction m with
  | nil => cases he
  | cons d m ih =>
    obtain ⟨hd, hm⟩ := List.nodup_cons.mp hm
    rw [lookupKey_cons]
    rcases List.mem_cons.mp he with rfl | he
    · rw [if_pos rfl]
    · have hne : d.1 ≠ e.1 := fun heq => hd (heq ▸ List.mem_map_of_mem he)
      rw [if_neg hne, ih hm he]

theorem mem_keys_iff : key ∈ m.map Prod.fst ↔ ∃ v, lookupKey key m = some v := by
  constructor
  · intro h
    obtain ⟨e, he, rfl⟩ := List.mem_map.mp h
    rw [← Option.isSome_iff_exists, lookupKey, Option.isSome_map]
    exact List.find?_isSome.mpr ⟨e, he, by simp⟩
  · rintro ⟨v, hv⟩
    exact List.mem_map.mpr ⟨_, mem_of_lookupKey hv, rfl⟩

theorem entriesSame_iff : EntriesSame m m' ↔ ∀ e ∈ m, EntrySame e m' := by
  induction m with
  | nil => exact ⟨fun _ _ he => absurd he List.not_mem_nil, fun _ => trivial⟩
  | cons e m ih => rw [EntriesSame, ih, List.forall_mem_cons]

theorem entriesOnce_eq (m : GoMap) : entriesOnce m = m.map entryOnce := by
  induction m with
  | nil => rfl
  | cons e m ih => rw [entriesOnce, ih, List.map_cons]

theorem keys_entriesOnce (m : GoMap) :
    (entriesOnce m).map Prod.fst = m.map fun e => sanitizeChars e.1 := by
  rw [entriesOnce_eq, List.map_map]
  refine List.map_congr_left fun e _ => ?_
  cases e
  rfl

/-! ## Same values -/

mutual

theorem GoValue.Same.trans (u : GoValue) {v w : GoValue} (h : u.Same v) (h' : v.Same w) :
    u.Same w := by
  cases u with
  | null | bool | num | str =>
    cases v <;> first | exact h.elim | skip
    cases w <;> first | exact h'.elim | skip
    first | trivial | exact Eq.trans h h'
  | arr vs =>
    cases v <;> first | exact h.elim | skip
    cases w <;> first | exact h'.elim | skip
    exact ItemsSame.trans vs h h'
  | obj m =>
    cases v <;> first | exact h.elim | skip
    cases w <;> first | exact h'.elim | skip
    exact ⟨h.1.trans h'.1, EntriesSame.trans m h.2 h'.2⟩

theorem ItemsSame.trans (us : List GoValue) {vs ws : List GoValue} (h : ItemsSame us vs)
    (h' : ItemsSame vs ws) : ItemsSame us ws := by
  cases us with
  | nil =>
    cases vs <;> first | exact h.elim | skip
    cases ws <;> first | exact h'.elim | trivial
  | cons u us =>
    cases vs <;> first | exact h.elim | skip
    cases ws <;> first | exact h'.elim | skip
    exact ⟨GoValue.Same.trans u h.1 h'.1, ItemsSame.trans us h.2 h'.2⟩

theorem EntriesSame.trans (m : GoMap) {m' m'' : GoMap} (h : EntriesSame m m')
    (h' : EntriesSame m' m'') : EntriesSame m m'' := by
  cases m with
  | nil => trivial
  | cons e m => exact ⟨EntrySame.trans e h.1 h', EntriesSame.trans m h.2 h'⟩

theorem EntrySame.trans (e : List Char × GoValue) {m' m'' : GoMap} (h : EntrySame e m')
    (h' : EntriesSame m' m'') : EntrySame e m'' := by
  cases e with
  | mk k v =>
    obtain ⟨w, hw, hsame⟩ := h
    obtain ⟨x, hx, hsame'⟩ := entriesSame_iff.mp h' _ (mem_of_lookupKey hw)
    exact ⟨x, hx, GoValue.Same.trans v hsame hsame'⟩

end

mutual

/-- What holds of the keys and strings of a value holds of those of a same value. -/
theorem GoValue.Same.holds {q : List Char → Prop} (v : GoValue) {w : GoValue} (h : v.Same w)
    (hv : v.Holds q) : w.Holds q := by
  cases v with
  | null | bool | num =>
    cases w <;> first | exact h.elim | trivial
  | str s =>
    cases w <;> first | exact h.elim | skip
    obtain rfl : s = _ := h
    exact hv
  | arr vs =>
    cases w <;> first | exact h.elim | skip
    exact ItemsSame.hold vs h hv
  | obj m =>
    cases w with
    | null | bool | num | str | arr => exact h.elim
    | obj m' =>
      obtain ⟨hkeys, hentries⟩ := h
      have hnodup : (m'.map Prod.fst).Nodup := hkeys.nodup_iff.mp hv.1
      refine ⟨hnodup, entriesHold_iff.mpr fun (k, w) he => ?_⟩
      obtain ⟨d, hd, rfl⟩ := List.mem_map.mp (hkeys.mem_iff.mpr (List.mem_map_of_mem he))
      exact EntriesSame.holds m hentries hv.2 d hd w (lookupKey_of_mem hnodup he)

theorem ItemsSame.hold {q : List Char → Prop} (vs : List GoValue) {ws : List GoValue}
    (h : ItemsSame vs ws) (hvs : ItemsHold q vs) : ItemsHold q ws := by
  cases vs with
  | nil => cases ws <;> first | exact h.elim | trivial
  | cons v vs =>
    cases ws <;> first | exact h.elim | skip
    exact ⟨GoValue.Same.holds v h.1 hvs.1, ItemsSame.hold vs h.2 hvs.2⟩

theorem EntriesSame.holds {q : List Char → Prop} (m : GoMap) {m' : GoMap} (h : EntriesSame m m')
    (hm : EntriesHold q m) :
    ∀ e ∈ m, ∀ w, lookupKey e.1 m' = some w → q e.1 ∧ w.Holds q := by
  cases m with
  | nil => exact fun e he => absurd he List.not_mem_nil
  | cons d m =>
    exact List.forall_mem_cons.mpr ⟨EntrySame.holds d h.1 hm.1, EntriesSame.holds m h.2 hm.2⟩

theorem EntrySame.holds {q : List Char → Prop} (e : List Char × GoValue) {m' : GoMap}
    (h : EntrySame e m') (he : EntryHolds q e) :
    ∀ w, lookupKey e.1 m' = some w → q e.1 ∧ w.Holds q := by
  cases e with
  | mk k v =>
    obtain ⟨x, hx, hsame⟩ := h
    intro w hw
    obtain rfl := Option.some.inj (hx.symm.trans hw)
    exact ⟨he.1, GoValue.Same.holds v hsame he.2⟩

end

end BatAudit
