import BatAudit.Audit.Ranging

/-!
# Values that every run sanitizes once

Where every order of the visits ends with the same value, a run may be chosen that visits an
inserted key again, and one that does not. So no keys meet, and what may be visited again has
nothing that html escapes.
-/

namespace BatAudit

variable {m m' : GoMap} {l l' : Loop} {key : List Char} {val v w : GoValue}
  {e e' : List Char × GoValue} {items : List GoValue}

/-! ## Runs that come to an end -/

def GoValue.Runs (v : GoValue) : Prop := ∃ p w, sanitizeJSONValues p v = some w

namespace Loop

/-- The pending keys are in the map, each once. -/
structure Sound (l : Loop) : Prop where
  visited : Visited l.pending l.map
  nodup : l.pending.Nodup
  mem : ∀ k ∈ l.pending, ∃ v, lookupKey k l.map = some v

theorem sound_start (hv : (GoValue.obj m).Holds fun _ => True) : (start m).Sound where
  visited := .of_value hv
  nodup := hv.1
  mem _ hk := mem_keys_iff.mp hk

theorem Sound.value (h : l.Sound) (hoffer : l.Offers key val) : val.Holds fun _ => True :=
  (entries_hold h.visited.values (mem_of_lookupKey hoffer.value)).2

theorem Sound.visit (h : l.Sound) (hw : w.Holds Harmless) : (l.visit key w).Sound where
  visited := h.visited.visit hw
  nodup := h.nodup.erase key
  mem k hk := by
    obtain ⟨hne, hmem⟩ := h.nodup.mem_erase_iff.mp hk
    rw [lookupKey_visit, if_neg hne]
    split_ifs
    · exact ⟨w, rfl⟩
    · exact h.mem k hmem

theorem Sound.step (h : l.Sound) (hstep : l.Step l') : l'.Sound := by
  obtain ⟨key, val, p, w, hoffer, hw, rfl⟩ := hstep
  exact h.visit (holds_of_sanitizeJSONValues p (h.value hoffer) hw)

theorem Sound.reach (h : l.Sound) (hreach : Relation.ReflTransGen Step l l') : l'.Sound := by
  induction hreach with
  | refl => exact h
  | tail _ hstep ih => exact ih.step hstep

/-- A loop may come to the pending keys only. -/
theorem exists_run (h : l.Sound) (hvalues : ∀ l', Relation.ReflTransGen Step l l' →
    ∀ key val, l'.Offers key val → val.Runs) :
    ∃ vs m', l.run vs = some m' ∧ ∀ v ∈ vs, v.1 ∈ l.pending := by
  induction hn : l.pending.length generalizing l with
  | zero =>
    refine ⟨[], l.map, run_nil.mpr ⟨List.length_eq_zero_iff.mp hn, rfl⟩, ?_⟩
    exact fun _ hv => absurd hv List.not_mem_nil
  | succ n ih =>
    obtain ⟨key, hkey⟩ := List.exists_mem_of_length_pos (by omega : 0 < l.pending.length)
    obtain ⟨val, hval⟩ := h.mem key hkey
    have hoffer : l.Offers key val := ⟨hval, Or.inl hkey⟩
    obtain ⟨p, w, hw⟩ := hvalues l .refl key val hoffer
    have hstep : l.Step (l.visit key w) := ⟨key, val, p, w, hoffer, hw, rfl⟩
    have hlength : (l.visit key w).pending.length = n := by
      rw [visit, List.length_erase_of_mem hkey, hn, Nat.add_sub_cancel]
    obtain ⟨vs, m', hrun, hvs⟩ :=
      ih (h.step hstep) (fun l' hreach => hvalues l' (.head hstep hreach)) hlength
    refine ⟨(key, p) :: vs, m', run_cons.mpr ⟨val, w, hoffer, hw, hrun⟩, ?_⟩
    exact List.forall_mem_cons.mpr ⟨hkey, fun v hv => List.mem_of_mem_erase (hvs v hv)⟩

end Loop

theorem exists_sanitizeItems (h : ∀ v ∈ items, v.Runs) :
    ∃ ps ws, sanitizeItems ps items = some ws := by
  induction items with
  | nil => exact ⟨[], [], rfl⟩
  | cons v vs ih =>
    obtain ⟨hv, hvs⟩ := List.forall_mem_cons.mp h
    obtain ⟨p, w, hw⟩ := hv
    obtain ⟨ps, ws, hws⟩ := ih hvs
    refine ⟨p :: ps, w :: ws, ?_⟩
    rw [sanitizeItems, hw, hws]
    rfl

theorem GoValue.Ends.runs (h : v.Ends) (hv : v.Holds fun _ => True) : v.Runs := by
  induction h with
  | null | bool | num | str => exact ⟨.leaf, _, rfl⟩
  | arr items _ ih =>
    have hitems := itemsHold_iff.mp hv
    obtain ⟨ps, ws, hws⟩ := exists_sanitizeItems fun v hmem => ih v hmem (hitems v hmem)
    exact ⟨.items ps, .arr ws, Option.map_eq_some_iff.mpr ⟨ws, hws, rfl⟩⟩
  | obj m _ _ ih =>
    have hsound := Loop.sound_start hv
    obtain ⟨vs, m', hrun, -⟩ := Loop.exists_run hsound fun l hreach key val hoffer =>
      ih l hreach key val hoffer ((hsound.reach hreach).value hoffer)
    exact ⟨.visits vs, .obj m', Option.map_eq_some_iff.mpr ⟨m', hrun, rfl⟩⟩

/-! ## Values that every run sanitizes once -/

theorem SanitizesOnce.runs (h : SanitizesOnce v) (hv : v.Holds fun _ => True) : v.Runs :=
  h.ends.runs hv

theorem SanitizesOnce.item (h : SanitizesOnce (.arr items))
    (hv : (GoValue.arr items).Holds fun _ => True) : ∀ v ∈ items, SanitizesOnce v := by
  have hends : ∀ v ∈ items, v.Ends := by
    cases h.ends
    assumption
  have hruns : ∀ v ∈ items, v.Runs := fun v hmem =>
    (hends v hmem).runs (itemsHold_iff.mp hv v hmem)
  have honce : ∀ ps ws, sanitizeItems ps items = some ws → ItemsSame (itemsOnce items) ws :=
    fun ps ws hws => h.once (.items ps) (.arr ws) (Option.map_eq_some_iff.mpr ⟨ws, hws, rfl⟩)
  clear h hv
  suffices hsame : ∀ v ∈ items, ∀ p w, sanitizeJSONValues p v = some w → v.once.Same w from
    fun v hmem => ⟨hends v hmem, hsame v hmem⟩
  clear hends
  induction items with
  | nil => exact fun v hmem => absurd hmem List.not_mem_nil
  | cons v vs ih =>
    obtain ⟨hv, hvs⟩ := List.forall_mem_cons.mp hruns
    have hcons : ∀ p ps w ws, sanitizeJSONValues p v = some w → sanitizeItems ps vs = some ws →
        v.once.Same w ∧ ItemsSame (itemsOnce vs) ws := by
      intro p ps w ws hw hws
      have hall : sanitizeItems (p :: ps) (v :: vs) = some (w :: ws) := by
        rw [sanitizeItems, hw, hws]
        rfl
      exact honce _ _ hall
    obtain ⟨ps, ws, hws⟩ := exists_sanitizeItems hvs
    obtain ⟨p, w, hw⟩ := hv
    exact List.forall_mem_cons.mpr ⟨fun p w hw => (hcons p ps w ws hw hws).1,
      ih hvs fun ps ws hws => (hcons p ps w ws hw hws).2⟩

namespace Loop

/-- Everything that the loop may come to ends, and each run has the entries of the map once. -/
structure Once (m : GoMap) : Prop where
  holds : (GoValue.obj m).Holds fun _ => True
  runs : ∀ l, Relation.ReflTransGen Step (start m) l → ∀ key val, l.Offers key val → val.Runs
  once : ∀ vs m', (start m).run vs = some m' → (GoValue.obj m).once.Same (.obj m')

theorem once_of_sanitizesOnce (h : SanitizesOnce (.obj m))
    (hv : (GoValue.obj m).Holds fun _ => True) : Once m where
  holds := hv
  runs l hreach key val hoffer := by
    cases h.ends with
    | obj _ _ hvalues =>
      exact (hvalues l hreach key val hoffer).runs (((sound_start hv).reach hreach).value hoffer)
  once vs m' hrun := h.once (.visits vs) (.obj m') (Option.map_eq_some_iff.mpr ⟨m', hrun, rfl⟩)

/-- After the first visit the loop may come to the new key, if it is another one. -/
theorem offers_again (hne : sanitizeChars key ≠ key) :
    ((start m).visit key w).Offers (sanitizeChars key) w := by
  refine ⟨lookupKey_visit_self _ _ _, ?_⟩
  by_cases hkey : sanitizeChars key ∈ m.map Prod.fst
  · exact Or.inl ((List.mem_erase_of_ne hne).mpr hkey)
  · have hnone : lookupKey (sanitizeChars key) m = none := by
      rw [← Option.not_isSome_iff_eq_none, Option.isSome_iff_exists, ← mem_keys_iff]
      exact hkey
    right
    change _ ∈ (if (lookupKey (sanitizeChars key) m).isNone then _ else _)
    rw [if_pos (Option.isNone_iff_eq_none.mpr hnone)]
    exact List.mem_cons_self

section

variable (h : Once m)
include h

/-- A loop that has come to some keys may come to the pending ones only, and then it ends. -/
theorem Once.complete (hreach : Relation.ReflTransGen Step (start m) l) :
    ∃ vs m', l.run vs = some m' ∧ ∀ v ∈ vs, v.1 ∈ l.pending :=
  exists_run ((sound_start h.holds).reach hreach) fun l' hreach' => h.runs l' (hreach.trans hreach')

theorem Once.offers (he : e ∈ m) : (start m).Offers e.1 e.2 :=
  ⟨lookupKey_of_mem h.holds.1 he, Or.inl (List.mem_map_of_mem he)⟩

/-- The sanitized keys are those of a map. -/
theorem Once.sanitized : (m.map fun e => sanitizeChars e.1).Nodup := by
  obtain ⟨vs, m', hrun, -⟩ := h.complete .refl
  obtain ⟨hkeys, -⟩ := h.once vs m' hrun
  have hholds := holds_of_sanitizeJSONValues (.visits vs) h.holds
    (Option.map_eq_some_iff.mpr ⟨m', hrun, rfl⟩)
  rw [keys_entriesOnce] at hkeys
  exact hkeys.nodup_iff.mpr hholds.1

theorem Once.ne_sanitized (he : e ∈ m) (hkey : key ∈ m.map Prod.fst) (hne : key ≠ e.1) :
    sanitizeChars e.1 ≠ sanitizeChars key := by
  obtain ⟨e', he', rfl⟩ := List.mem_map.mp hkey
  exact fun heq => hne (congrArg Prod.fst (List.inj_on_of_nodup_map h.sanitized he' he heq.symm))

/-- If the new key came up again and were replaced, nothing would be left there. -/
theorem Once.escapeFree (he : e ∈ m) : EscapeFree e.1 := by
  by_contra hescaped
  have hne : sanitizeChars e.1 ≠ e.1 := fun heq => hescaped (escapeFree_of_fixed heq)
  have hne' : sanitizeChars (sanitizeChars e.1) ≠ sanitizeChars e.1 := fun heq =>
    hescaped (sanitizeChars_twice_iff.mp heq)
  obtain ⟨p, w, hw⟩ := h.runs _ .refl _ _ (h.offers he)
  have hfirst : (start m).Step ((start m).visit e.1 w) := ⟨_, _, p, w, h.offers he, hw, rfl⟩
  obtain ⟨p', w', hw'⟩ := h.runs _ (.single hfirst) _ _ (offers_again hne)
  have hsecond : ((start m).visit e.1 w).Step
      (((start m).visit e.1 w).visit (sanitizeChars e.1) w') :=
    ⟨_, _, p', w', offers_again hne, hw', rfl⟩
  obtain ⟨vs, m', hrun, hvs⟩ := h.complete ((Relation.ReflTransGen.single hfirst).tail hsecond)
  have hsame := h.once _ m' (run_cons.mpr ⟨_, w, h.offers he, hw,
    run_cons.mpr ⟨_, w', offers_again hne, hw', hrun⟩⟩)
  have hgone : lookupKey (sanitizeChars e.1) m' = none := by
    rw [lookupKey_run hrun fun v hv => ?_, lookupKey_visit, if_neg hne'.symm, if_pos rfl]
    have hnodup : ((start m).visit e.1 w).pending.Nodup := h.holds.1.erase e.1
    obtain ⟨hv', hmem⟩ := hnodup.mem_erase_iff.mp (hvs v hv)
    obtain ⟨hv, hmem⟩ := List.Nodup.mem_erase_iff h.holds.1 |>.mp hmem
    exact ⟨hv'.symm, h.ne_sanitized he hmem hv⟩
  obtain ⟨x, hx⟩ := mem_keys_iff.mp (hsame.1.mem_iff.mp (by
    rw [keys_entriesOnce]
    exact List.mem_map_of_mem he))
  cases hgone.symm.trans hx

theorem Once.apart : KeysApart m := ⟨h.holds.1, h.sanitized, fun _ he => h.escapeFree he⟩

/-- What a run leaves at the new key of an entry is the entry's value sanitized once. -/
theorem Once.same_value (he : e ∈ m) {vs : List (List Char × Plan)}
    (hrun : (start m).run vs = some m') (hw : lookupKey (sanitizeChars e.1) m' = some w) :
    e.2.once.Same w := by
  have hentry := entriesSame_iff.mp (h.once vs m' hrun).2 (entryOnce e) (by
    rw [entriesOnce_eq]
    exact List.mem_map_of_mem he)
  obtain ⟨k, v⟩ := e
  obtain ⟨x, hx, hsame⟩ := hentry
  obtain rfl := Option.some.inj (hw.symm.trans hx)
  exact hsame

/-- The pending keys do not touch the new key of an entry that has been visited. -/
theorem Once.untouched (he : e ∈ m) (hkey : key ∈ (m.map Prod.fst).erase e.1) :
    sanitizeChars e.1 ≠ key ∧ sanitizeChars e.1 ≠ sanitizeChars key := by
  obtain ⟨hne, hmem⟩ := (List.Nodup.mem_erase_iff h.holds.1).mp hkey
  refine ⟨?_, h.ne_sanitized he hmem hne⟩
  rintro rfl
  exact h.ne_sanitized he hmem hne (h.apart.twice he).symm

theorem Once.value (he : e ∈ m) {p : Plan} (hw : sanitizeJSONValues p e.2 = some w) :
    e.2.once.Same w := by
  have hfirst : (start m).Step ((start m).visit e.1 w) := ⟨_, _, p, w, h.offers he, hw, rfl⟩
  obtain ⟨vs, m', hrun, hvs⟩ := h.complete (.single hfirst)
  refine h.same_value he (run_cons.mpr ⟨_, w, h.offers he, hw, hrun⟩) ?_
  rw [lookupKey_run hrun fun v hv => h.untouched he (hvs v hv), lookupKey_visit_self]

/-- A value under a new key may be sanitized twice. -/
theorem Once.value_again (he : e ∈ m) (hne : sanitizeChars e.1 ≠ e.1) {p p' : Plan} {w' : GoValue}
    (hw : sanitizeJSONValues p e.2 = some w) (hw' : sanitizeJSONValues p' w = some w') :
    e.2.once.Same w' := by
  have hfirst : (start m).Step ((start m).visit e.1 w) := ⟨_, _, p, w, h.offers he, hw, rfl⟩
  have hsecond : ((start m).visit e.1 w).Step
      (((start m).visit e.1 w).visit (sanitizeChars e.1) w') :=
    ⟨_, _, p', w', offers_again hne, hw', rfl⟩
  obtain ⟨vs, m', hrun, hvs⟩ := h.complete ((Relation.ReflTransGen.single hfirst).tail hsecond)
  refine h.same_value he (run_cons.mpr ⟨_, w, h.offers he, hw,
    run_cons.mpr ⟨_, w', offers_again hne, hw', hrun⟩⟩) ?_
  rw [lookupKey_run hrun fun v hv => h.untouched he (List.mem_of_mem_erase (hvs v hv)),
    lookupKey_visit, h.apart.twice he, if_pos rfl]

end

end Loop

/-! ## Values that are the same as one sanitized once -/

theorem ItemsSame.exists_same : ∀ {vs ws : List GoValue}, ItemsSame vs ws →
    ∀ w ∈ ws, ∃ v ∈ vs, v.Same w
  | [], [], _ => fun _ hw => absurd hw List.not_mem_nil
  | v :: vs, w :: ws, h => by
    refine List.forall_mem_cons.mpr ⟨⟨v, List.mem_cons_self, h.1⟩, fun x hx => ?_⟩
    obtain ⟨u, hu, hsame⟩ := ItemsSame.exists_same h.2 x hx
    exact ⟨u, List.mem_cons_of_mem v hu, hsame⟩

/-- What is at the new key of an entry. -/
theorem EntriesSame.exists_value (h : EntriesSame (entriesOnce m) m') (he : e ∈ m) :
    ∃ w, lookupKey (sanitizeChars e.1) m' = some w ∧ e.2.once.Same w := by
  rw [entriesOnce_eq] at h
  have hentry := entriesSame_iff.mp h (entryOnce e) (List.mem_map_of_mem he)
  cases e
  exact hentry

theorem exists_entry_of_same (h : (GoValue.obj m).once.Same (.obj m'))
    (hm' : (m'.map Prod.fst).Nodup) (he' : e' ∈ m') :
    ∃ e ∈ m, e'.1 = sanitizeChars e.1 ∧ e.2.once.Same e'.2 := by
  have hkey := h.1.mem_iff.mpr (List.mem_map_of_mem he')
  rw [keys_entriesOnce] at hkey
  obtain ⟨e, he, heq⟩ := List.mem_map.mp hkey
  obtain ⟨w, hw, hsame⟩ := EntriesSame.exists_value h.2 he
  rw [heq, lookupKey_of_mem hm' he'] at hw
  exact ⟨e, he, heq.symm, Option.some.inj hw ▸ hsame⟩

/-- Sanitized keys stay as they are, so no value is put under another key. -/
theorem settled_of_same (v : GoValue) (hv : v.Settled) (h : v.once.Same w)
    (hw : w.Holds fun _ => True) : w.Settled := by
  induction v using GoValue.induction generalizing w with
  | null | bool | num | str =>
    cases w <;> first | exact h.elim | trivial
  | arr items ih =>
    cases w <;> first | exact h.elim | skip
    refine itemsSettled_iff.mpr fun w hmem => ?_
    obtain ⟨u, hu, hsame⟩ := ItemsSame.exists_same h w hmem
    rw [itemsOnce_eq] at hu
    obtain ⟨v, hvmem, rfl⟩ := List.mem_map.mp hu
    exact ih v hvmem (itemsSettled_iff.mp hv v hvmem) hsame (itemsHold_iff.mp hw w hmem)
  | obj m ih =>
    cases w <;> first | exact h.elim | skip
    have hsettled := entriesSettled_iff.mp hv.2
    rename_i m'
    have hfixed : ∀ d ∈ m', Fixed d.1 := fun d hd => by
      obtain ⟨e, he, heq, -⟩ := exists_entry_of_same h hw.1 hd
      exact heq ▸ sanitizeChars_twice_iff.mpr (hsettled e he).1
    refine ⟨(KeysApart.of_fixed hw.1 hfixed).sanitized, entriesSettled_iff.mpr fun d hd => ?_⟩
    obtain ⟨e, he, -, hsame⟩ := exists_entry_of_same h hw.1 hd
    exact ⟨escapeFree_of_fixed (hfixed d hd),
      ih e he (hsettled e he).2.1 hsame (entries_hold hw.2 hd).2,
      fun hne => absurd (hfixed d hd) hne⟩

/-- A value that is the same sanitized once and twice has nothing that is escaped. -/
theorem escapeFree_of_same (v : GoValue) (hv : v.Settled) (hkeys : v.Holds fun _ => True)
    {u : GoValue} (h : v.once.Same w) (htwice : w.once.Same u) (honce : v.once.Same u) :
    v.Holds EscapeFree := by
  induction v using GoValue.induction generalizing w u with
  | null | bool | num => trivial
  | str s =>
    cases w <;> first | exact h.elim | skip
    cases u <;> first | exact honce.elim | skip
    obtain rfl : sanitizeChars s = _ := h
    exact sanitizeChars_twice_iff.mp (Eq.trans htwice honce.symm)
  | arr items ih =>
    cases w <;> first | exact h.elim | skip
    cases u <;> first | exact honce.elim | skip
    rename_i ws us
    change ItemsSame (itemsOnce items) ws at h
    change ItemsSame (itemsOnce ws) us at htwice
    change ItemsSame (itemsOnce items) us at honce
    induction items generalizing ws us with
    | nil => trivial
    | cons v vs ihvs =>
      cases ws <;> first | exact h.elim | skip
      cases us <;> first | exact honce.elim | skip
      obtain ⟨ihv, ih⟩ := List.forall_mem_cons.mp ih
      exact ⟨ihv hv.1 hkeys.1 h.1 htwice.1 honce.1,
        ihvs ih hv.2 hkeys.2 _ _ h.2 htwice.2 honce.2⟩
  | obj m ih =>
    cases w <;> first | exact h.elim | skip
    cases u <;> first | exact honce.elim | skip
    have hsettled := entriesSettled_iff.mp hv.2
    refine ⟨hkeys.1, entriesHold_iff.mpr fun e he => entryHolds_iff.mpr ⟨(hsettled e he).1, ?_⟩⟩
    obtain ⟨w, hw, hsame⟩ := EntriesSame.exists_value h.2 he
    obtain ⟨u, hu, hsame'⟩ := EntriesSame.exists_value htwice.2 (mem_of_lookupKey hw)
    obtain ⟨x, hx, hsame''⟩ := EntriesSame.exists_value honce.2 he
    rw [sanitizeChars_twice_iff.mpr (hsettled e he).1, hx] at hu
    obtain rfl := Option.some.inj hu
    exact ih e he (hsettled e he).2.1 (entries_hold hkeys.2 he).2 hsame hsame' hsame''

/-! ## Exactly the settled values -/

theorem settled_of_sanitizesOnce (v : GoValue) (hv : v.Holds fun _ => True)
    (h : SanitizesOnce v) : v.Settled := by
  induction v using GoValue.induction with
  | null | bool | num | str => trivial
  | arr items ih =>
    have hitems := itemsHold_iff.mp hv
    exact itemsSettled_iff.mpr fun v hmem => ih v hmem (hitems v hmem) (h.item hv v hmem)
  | obj m ih =>
    have hm := Loop.once_of_sanitizesOnce h hv
    have hvalue : ∀ e ∈ m, SanitizesOnce e.2 := fun e he => by
      cases h.ends with
      | obj _ _ hvalues =>
        exact ⟨hvalues _ .refl e.1 e.2 (hm.offers he), fun p w hw => hm.value he hw⟩
    have hholds : ∀ e ∈ m, e.2.Holds fun _ => True := fun e he => (entries_hold hv.2 he).2
    have hsettled : ∀ e ∈ m, e.2.Settled := fun e he => ih e he (hholds e he) (hvalue e he)
    refine ⟨hm.sanitized, entriesSettled_iff.mpr fun e he => ⟨hm.escapeFree he, hsettled e he, ?_⟩⟩
    intro hne
    obtain ⟨p, w, hw⟩ := (hvalue e he).runs (hholds e he)
    have hsame := hm.value he hw
    have hwholds := (holds_of_sanitizeJSONValues p (hholds e he) hw).weaken
    have hagain := sanitizesOnce_of_settled w hwholds
      (settled_of_same e.2 (hsettled e he) hsame hwholds)
    obtain ⟨p', w', hw'⟩ := hagain.runs hwholds
    exact escapeFree_of_same e.2 (hsettled e he) (hholds e he) hsame (hagain.once p' w' hw')
      (hm.value_again he hne hw hw')

/-- Every order of the visits ends, with every key and every string sanitized once, if and only if
the value is settled after one visit. -/
theorem sanitized_once_iff (hv : v.Holds fun _ => True) : SanitizesOnce v ↔ v.Settled :=
  ⟨settled_of_sanitizesOnce v hv, sanitizesOnce_of_settled v hv⟩

theorem sanitized_once_member : SanitizesOnce (.obj [(['a'], .str ['<'])]) := by
  have hholds : (GoValue.obj [(['a'], .str ['<'])]).Holds fun _ => True :=
    ⟨List.nodup_singleton _, ⟨trivial, trivial⟩, trivial⟩
  have hfixed : sanitizeChars ['a'] = ['a'] := by decide
  exact (sanitized_once_iff hholds).mpr ⟨List.nodup_singleton _,
    ⟨escapeFree_of_fixed hfixed, trivial, fun hne => absurd hfixed hne⟩, trivial⟩

/-- The key may come up again after it has been escaped, and is escaped again. -/
theorem key_escaped_twice : ¬SanitizesOnce (.obj [(['<'], .null)]) := by
  intro h
  have hrun : sanitizeJSONValues (.visits [(['<'], .leaf), (sanitizeChars ['<'], .leaf)])
      (.obj [(['<'], .null)]) = some (.obj [(sanitizeChars (sanitizeChars ['<']), .null)]) := rfl
  have hkeys := (h.once _ _ hrun).1
  rw [keys_entriesOnce] at hkeys
  exact absurd (List.singleton_perm_singleton.mp hkeys) (by decide)

end BatAudit
