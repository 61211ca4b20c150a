import Mathlib.Data.List.Nodup

/-!
# Maps with an unspecified order

A map is the list of its entries. Assigning to a key replaces its entry, and a `range` over
the map visits the keys in any order.
-/

abbrev KeyedMap (κ α : Type*) := List (κ × α)

/-- The order in which a `range` visits the keys of a map. -/
structure Range (κ : Type*) where
  order : List κ → List κ
  perm : ∀ keys, (order keys).Perm keys

def Range.inOrder {κ : Type*} : Range κ := ⟨id, fun _ => List.Perm.refl _⟩

namespace KeyedMap

variable {κ α : Type*} [DecidableEq κ]

def keys (m : KeyedMap κ α) : List κ := m.map Prod.fst

def get? (m : KeyedMap κ α) (k : κ) : Option α := (m.find? fun e => e.1 = k).map Prod.snd

def delete (m : KeyedMap κ α) (k : κ) : KeyedMap κ α := m.filter fun e => e.1 ≠ k

def set (m : KeyedMap κ α) (k : κ) (a : α) : KeyedMap κ α := m.delete k ++ [(k, a)]

variable {m : KeyedMap κ α} {k k' : κ} {a : α}

omit [DecidableEq κ] in
theorem length_keys : m.keys.length = m.length := List.length_map _

theorem get?_set_self : (m.set k a).get? k = some a := by
  have hnone : (m.delete k).find? (fun e => e.1 = k) = none :=
    List.find?_eq_none.mpr fun e he => by simpa using (List.mem_filter.mp he).2
  simp [get?, set, List.find?_append, hnone]

theorem get?_set_ne (h : k' ≠ k) : (m.set k a).get? k' = m.get? k' := by
  have hdelete : (m.delete k).find? (fun e => e.1 = k') = m.find? (fun e => e.1 = k') := by
    rw [delete, List.find?_filter]
    congr 1
    funext e
    by_cases he : e.1 = k'
    · simp [he, h]
    · simp [he]
  simp [get?, set, List.find?_append, hdelete, Ne.symm h]

theorem get?_of_mem (hkeys : m.keys.Nodup) (he : (k, a) ∈ m) : m.get? k = some a := by
  unfold get?
  cases hfind : m.find? fun e => e.1 = k with
  | none => simpa using List.find?_eq_none.mp hfind (k, a) he
  | some e =>
    have hkey : e.1 = k := by simpa using List.find?_some hfind
    rw [List.inj_on_of_nodup_map hkeys (List.mem_of_find?_eq_some hfind) he hkey]
    rfl

theorem mem_of_get? (h : m.get? k = some a) : (k, a) ∈ m := by
  obtain ⟨e, hfind, rfl⟩ := Option.map_eq_some_iff.mp h
  have hkey : e.1 = k := by simpa using List.find?_some hfind
  rw [← hkey]
  exact List.mem_of_find?_eq_some hfind

theorem notMem_keys_of_get? (h : m.get? k = none) : k ∉ m.keys := by
  intro hk
  obtain ⟨e, he, hkey⟩ := List.mem_map.mp hk
  simpa [hkey] using List.find?_eq_none.mp (Option.map_eq_none_iff.mp h) e he

theorem mem_delete {e : κ × α} : e ∈ m.delete k ↔ e ∈ m ∧ e.1 ≠ k := by
  simp [delete, List.mem_filter]

theorem mem_keys_delete {k' : κ} : k' ∈ (m.delete k).keys ↔ k' ∈ m.keys ∧ k' ≠ k := by
  simp only [keys, List.mem_map, mem_delete]
  constructor
  · rintro ⟨e, ⟨he, hne⟩, rfl⟩
    exact ⟨⟨e, he, rfl⟩, hne⟩
  · rintro ⟨⟨e, he, rfl⟩, hne⟩
    exact ⟨e, ⟨he, hne⟩, rfl⟩

theorem delete_of_notMem (h : k ∉ m.keys) : m.delete k = m :=
  List.filter_eq_self.mpr fun e he => by
    simpa using fun hkey : e.1 = k => h (hkey ▸ List.mem_map_of_mem he)

theorem keys_set_of_notMem (h : k ∉ m.keys) : (m.set k a).keys = m.keys ++ [k] := by
  rw [set, delete_of_notMem h, keys, List.map_append]
  rfl

theorem length_delete (hkeys : m.keys.Nodup) (h : k ∈ m.keys) :
    (m.delete k).length + 1 = m.length := by
  have hone : m.countP (fun e => e.1 = k) = 1 := by
    have hcount := List.count_eq_one_of_mem hkeys h
    rw [keys, List.count, List.countP_map] at hcount
    rw [← hcount]
    exact List.countP_congr fun e _ => by simp
  have hsplit := List.length_eq_countP_add_countP (fun e : κ × α => decide (e.1 = k)) (l := m)
  rw [hone] at hsplit
  rw [delete, ← List.countP_eq_length_filter]
  simp only [ne_eq, decide_not, Bool.decide_eq_true] at hsplit ⊢
  omega

/-! ## The entries under some of the keys -/

/-- The entries whose key satisfies `P`. -/
def keep (m : KeyedMap κ α) (P : κ → Bool) : KeyedMap κ α := m.filter fun e => P e.1

variable {P : κ → Bool}

theorem get?_keep (h : P k = true) : (m.keep P).get? k = m.get? k := by
  rw [get?, get?, keep, List.find?_filter]
  congr 2
  funext e
  by_cases he : e.1 = k
  · simp [he, h]
  · simp [he]

theorem keep_delete : (m.delete k).keep P = (m.keep P).delete k := by
  simp only [keep, delete, List.filter_filter, Bool.and_comm]

theorem keep_set (h : P k = true) : (m.set k a).keep P = (m.keep P).set k a := by
  have happend : (m.set k a).keep P = (m.delete k).keep P ++ [(k, a)] := by
    rw [set, keep, List.filter_append, List.filter_cons_of_pos (by simpa using h),
      List.filter_nil, keep]
  rw [happend, keep_delete, set]

theorem keep_set_of_not (h : P k = false) : (m.set k a).keep P = m.keep P := by
  rw [set, keep, List.filter_append, List.filter_cons_of_neg (by simpa using h), List.filter_nil,
    List.append_nil, delete, List.filter_filter, keep]
  refine List.filter_congr fun e _ => ?_
  by_cases he : e.1 = k
  · simp [he, h]
  · simp [he]

omit [DecidableEq κ] in
theorem keys_keep : (m.keep P).keys = m.keys.filter P := by
  rw [keys, keys, keep, List.filter_map]
  rfl

end KeyedMap
