import BatAudit.Healthcheck.Poller

/-!
# What the poller runs

A reload cancels the goroutines of the monitors that are not listed as enabled, and starts
one for each monitor that has none. Between two reloads the poller runs one goroutine for
each monitor that was enabled in the last listing, whatever became of the tables before.
-/

namespace BatAudit.Healthcheck.Poller

/-- The poller with the monitors of the last listing that succeeded. -/
structure Listed where
  poller : State
  listed : List Monitor := []

namespace Listed

def step (s : Listed) (a : Label) : Option Listed :=
  (Poller.step s.poller a).map fun t =>
    ⟨t, match a with
      | .reload true => s.poller.listAllEnabled
      | _ => s.listed⟩

def ids (s : Listed) : List String := s.listed.map Monitor.id

end Listed

def Reloader.reloading : Reloader → Bool
  | .stopping .. | .launching .. => true
  | .starting | .waiting | .stopped => false

/-- The goroutines of a monitor that were started and not cancelled. -/
def State.polling (s : State) (id : String) : List Goroutine :=
  s.goroutines.filter fun g => g.monitorID = id && !g.cancelled

/-- A cancel function and one goroutine for each monitor that was listed, and none for
others. As long as the worker runs, a goroutine that was not cancelled is there. -/
structure RunsListed (s : Listed) : Prop where
  cancels : ∀ id, id ∈ s.poller.cancels.keys ↔ id ∈ s.ids
  polling : ∀ id, (s.poller.polling id).length = if id ∈ s.ids then 1 else 0
  alive : ∀ g ∈ s.poller.goroutines, s.poller.done g = false → g.phase ≠ .stopped

/-- After each reload. -/
def RunsEnabled (s : Listed) : Prop := s.poller.reloader.reloading = false → RunsListed s

/-! ## Goroutines and cancel functions -/

/-- The cancel functions are those of the goroutines that were not cancelled. -/
structure Registered (s : State) : Prop where
  ids : s.cancels.keys.Nodup
  entries : ∀ id i, (id, i) ∈ s.cancels ↔
    ∃ g, s.goroutines[i]? = some g ∧ g.monitorID = id ∧ g.cancelled = false
  alive : ∀ g ∈ s.goroutines, s.done g = false → g.phase ≠ .stopped

theorem registered_init (monitors : List Monitor) : Registered { monitors := monitors } where
  ids := List.nodup_nil
  entries id i := by simp
  alive _ h := absurd h List.not_mem_nil

variable {s t : State}

theorem length_filter_of_unique {α : Type*} {P : α → Bool} {l : List α} {i : ℕ} {x : α}
    (hx : l[i]? = some x) (hP : P x = true)
    (hunique : ∀ j y, l[j]? = some y → P y = true → j = i) : (l.filter P).length = 1 := by
  induction l generalizing i with
  | nil => cases hx
  | cons z l ih =>
    cases i with
    | zero =>
      obtain rfl : z = x := by simpa using hx
      have hnone : l.filter P = [] := by
        refine List.filter_eq_nil_iff.mpr fun y hy hPy => ?_
        obtain ⟨j, hj⟩ := List.mem_iff_getElem?.mp hy
        exact absurd (hunique (j + 1) y (by simpa using hj) hPy) (Nat.succ_ne_zero j)
      rw [List.filter_cons_of_pos hP, hnone]
      rfl
    | succ i =>
      have hz : ¬P z = true := fun hPz =>
        absurd (hunique 0 z rfl hPz) (Nat.succ_ne_zero i).symm
      rw [List.filter_cons_of_neg hz]
      exact ih (by simpa using hx) fun j y hj hy =>
        Nat.succ.inj (hunique (j + 1) y (by simpa using hj) hy)

theorem Registered.length_polling (h : Registered s) (id : String) :
    (s.polling id).length = if id ∈ s.cancels.keys then 1 else 0 := by
  have hentry : ∀ i g, s.goroutines[i]? = some g →
      (decide (g.monitorID = id) && !g.cancelled) = true → (id, i) ∈ s.cancels := by
    intro i g hi hg
    simp only [Bool.and_eq_true, decide_eq_true_eq, Bool.not_eq_true'] at hg
    exact (h.entries id i).mpr ⟨g, hi, hg⟩
  split_ifs with hid
  · obtain ⟨⟨id', i⟩, he, rfl⟩ := List.mem_map.mp hid
    obtain ⟨g, hi, hmonitor, hcancelled⟩ := (h.entries id' i).mp he
    refine length_filter_of_unique hi (by simp [hmonitor, hcancelled]) fun j g' hj hg' => ?_
    have hsame := List.inj_on_of_nodup_map h.ids (hentry j g' hj hg') he rfl
    exact (Prod.mk.inj hsame).2
  · rw [State.polling, List.length_eq_zero_iff]
    refine List.filter_eq_nil_iff.mpr fun g hg hgood => hid ?_
    obtain ⟨i, hi⟩ := List.mem_iff_getElem?.mp hg
    exact List.mem_map_of_mem (f := Prod.fst) (hentry i g hi hgood)

theorem registered_cancel (h : Registered s) (id : String) : Registered (s.cancel id) := by
  cases hget : s.cancels.get? id with
  | none =>
    have hsame : s.cancel id = s := by
      rw [State.cancel, hget, KeyedMap.delete_of_notMem (KeyedMap.notMem_keys_of_get? hget)]
    rw [hsame]
    exact h
  | some i =>
    obtain ⟨g, hi, hmonitor, hcancelled⟩ := (h.entries id i).mp (KeyedMap.mem_of_get? hget)
    simp only [State.cancel, hget]
    refine ⟨h.ids.sublist (List.filter_sublist.map Prod.fst), fun id' j => ?_, fun g' hg' => ?_⟩
    · rw [KeyedMap.mem_delete, h.entries, List.getElem?_modify]
      by_cases hij : i = j
      · subst hij
        rw [hi]
        simp only [Option.some.injEq, exists_eq_left', hmonitor, Option.map_eq_map, Option.map_some,
          if_true, Bool.true_eq_false, and_false, iff_false, not_and, ne_eq, not_not]
        exact fun h => h.1.symm
      · simp only [if_neg hij, Option.map_eq_map, Option.map_id']
        refine and_iff_left_of_imp ?_
        rintro ⟨g', hj, rfl, hg'⟩ rfl
        have hother := (h.entries g'.monitorID j).mpr ⟨g', hj, rfl, hg'⟩
        have := List.inj_on_of_nodup_map h.ids (KeyedMap.mem_of_get? hget) hother rfl
        exact hij (Prod.mk.inj this).2
    · obtain ⟨j, hj⟩ := List.mem_iff_getElem?.mp hg'
      rw [List.getElem?_modify] at hj
      obtain ⟨g₀, hg₀, rfl⟩ := Option.map_eq_some_iff.mp hj
      have halive := h.alive g₀ (List.mem_of_getElem? hg₀)
      split_ifs
      · exact fun hdone => absurd hdone (by simp [State.done])
      · exact halive

theorem registered_start (h : Registered s) {m : Monitor} (hm : m.id ∉ s.cancels.keys) :
    Registered (s.start m) := by
  have hcancels : (s.start m).cancels = s.cancels ++ [(m.id, s.goroutines.length)] := by
    simp only [State.start, KeyedMap.set, KeyedMap.delete_of_notMem hm]
  refine ⟨?_, fun id i => ?_, fun g hg => ?_⟩
  · simp only [State.start, KeyedMap.keys_set_of_notMem hm]
    exact List.nodup_append.mpr ⟨h.ids, List.nodup_singleton _, by
      rintro a ha b hb rfl
      exact hm (List.mem_singleton.mp hb ▸ ha)⟩
  · rw [hcancels, List.mem_append, h.entries, List.mem_singleton, Prod.mk.injEq]
    simp only [State.start]
    rcases Nat.lt_trichotomy i s.goroutines.length with hlt | rfl | hgt
    · rw [List.getElem?_append_left hlt]
      simp [Nat.ne_of_lt hlt]
    · rw [List.getElem?_eq_none (Nat.le_refl _), List.getElem?_append_right (Nat.le_refl _), Nat.sub_self]
      simp [@eq_comm _ id]
    · rw [List.getElem?_eq_none (by omega), List.getElem?_eq_none (by simp; omega)]
      simp [Nat.ne_of_gt hgt]
  · rcases List.mem_append.mp hg with hg | hg
    · exact h.alive g hg
    · rw [List.mem_singleton.mp hg]
      exact fun _ => nofun

/-- What a goroutine does leaves the other goroutines and the cancel functions alone, and it
returns only when its context is done. -/
theorem advance_frame {g : Goroutine} {action : Action} {phase : Phase}
    (hstep : advance s g action = some (phase, t)) :
    t.goroutines = s.goroutines ∧ t.cancels = s.cancels ∧ t.parentDone = s.parentDone ∧
      t.reloader = s.reloader ∧ (phase = .stopped → s.done g = true) := by
  cases advances hstep with
  | skip | request | finish => exact ⟨rfl, rfl, rfl, rfl, by simp⟩
  | saveResult ok | updateStatus ok | pruneResults ok | createHealthEvent ok =>
    cases ok <;> exact ⟨rfl, rfl, rfl, rfl, by simp⟩
  | exit hphase hdone => exact ⟨rfl, rfl, rfl, rfl, fun _ => hdone⟩

theorem registered_poll (h : Registered s) {i : ℕ} {g : Goroutine} {phase : Phase}
    (hi : s.goroutines[i]? = some g) (hgoroutines : t.goroutines = s.goroutines)
    (hcancels : t.cancels = s.cancels) (hparent : t.parentDone = s.parentDone)
    (hstopped : phase = .stopped → s.done g = true) :
    Registered { t with goroutines := t.goroutines.set i { g with phase := phase } } := by
  refine ⟨?_, fun id j => ?_, fun g' hg' => ?_⟩
  · rw [hcancels]
    exact h.ids
  · dsimp only
    rw [hcancels, hgoroutines, h.entries, List.getElem?_set]
    by_cases hij : i = j
    · subst hij
      rw [if_pos rfl, if_pos (List.getElem?_eq_some_iff.mp hi).1, hi]
      simp only [Option.some.injEq, exists_eq_left']
    · rw [if_neg hij]
  · simp only [State.done, hparent]
    rcases List.mem_or_eq_of_mem_set hg' with hg' | rfl
    · exact h.alive g' (hgoroutines ▸ hg')
    · intro hdone hphase
      have := hstopped hphase
      rw [State.done] at this
      rw [this] at hdone
      cases hdone

/-! ## Reloads -/

/-- How far a reload has come. The monitors that remain to be stopped or started are the only
difference to the last listing. -/
def Reached (s : Listed) : Prop :=
  match s.poller.reloader with
  | .stopping active rest =>
    active = s.listed ∧ ∀ id ∈ s.poller.cancels.keys, id ∈ rest ∨ id ∈ s.ids
  | .launching rest =>
    (∀ id ∈ s.poller.cancels.keys, id ∈ s.ids) ∧ (∀ m ∈ rest, m ∈ s.listed) ∧
      ∀ id ∈ s.ids, id ∈ s.poller.cancels.keys ∨ id ∈ rest.map Monitor.id
  | _ => ∀ id, id ∈ s.poller.cancels.keys ↔ id ∈ s.ids

namespace Listed

structure Inv (s : Listed) : Prop where
  registered : Registered s.poller
  reached : Reached s

theorem Inv.runsEnabled {s : Listed} (h : Inv s) : RunsEnabled s := by
  intro hidle
  have hcancels : ∀ id, id ∈ s.poller.cancels.keys ↔ id ∈ s.ids := by
    have hreached := h.reached
    unfold Reached at hreached
    cases hreloader : s.poller.reloader with
    | stopping | launching =>
      rw [hreloader] at hidle
      cases hidle
    | starting | waiting | stopped =>
      rw [hreloader] at hreached
      exact hreached
  refine ⟨hcancels, fun id => ?_, h.registered.alive⟩
  rw [h.registered.length_polling]
  simp only [hcancels]

theorem inv_init (monitors : List Monitor) : Inv ⟨{ monitors := monitors }, []⟩ where
  registered := registered_init monitors
  reached _ := Iff.rfl

variable {s t : Listed}

/-- A step that leaves the goroutines and the cancel functions alone. -/
theorem registered_same {p : State} (h : Registered p) (monitors : List Monitor)
    (reloader : Reloader) : Registered { p with monitors := monitors, reloader := reloader } :=
  ⟨h.ids, h.entries, h.alive⟩

theorem inv_reload {ok : Bool} (h : Inv s) (hstep : step s (.reload ok) = some t) : Inv t := by
  obtain ⟨p, hp, rfl⟩ := Option.map_eq_some_iff.mp hstep
  simp only [Poller.step] at hp
  split at hp
  · rename_i hidle
    cases hp
    cases ok with
    | true => exact ⟨registered_same h.registered _ _, rfl, fun id hid => Or.inl hid⟩
    | false =>
      refine ⟨registered_same h.registered _ _, ?_⟩
      have hreached := h.reached
      unfold Reached at hreached
      rcases hidle with hidle | hidle
      · rw [hidle] at hreached
        exact hreached
      · rw [hidle] at hreached
        exact hreached
  · cases hp

theorem inv_visit {id : String} (h : Inv s) (hstep : step s (.visit id) = some t) : Inv t := by
  obtain ⟨p, hp, rfl⟩ := Option.map_eq_some_iff.mp hstep
  simp only [Poller.step] at hp
  split at hp
  · rename_i active rest hreloader
    have hreached := h.reached
    unfold Reached at hreached
    rw [hreloader] at hreached
    obtain ⟨hactive, hkeys⟩ := hreached
    split at hp
    · cases hp
      have hregistered := registered_same h.registered s.poller.monitors
        (.stopping active (rest.erase id))
      split
      · rename_i hid
        refine ⟨hregistered, hactive, fun id' hid' => ?_⟩
        by_cases hsame : id' = id
        · rw [hactive] at hid
          exact Or.inr (hsame ▸ hid)
        · exact (hkeys id' hid').imp_left (List.mem_erase_of_ne hsame).mpr
      · refine ⟨registered_cancel hregistered id, hactive, fun id' hid' => ?_⟩
        obtain ⟨hid', hne⟩ := KeyedMap.mem_keys_delete.mp hid'
        exact (hkeys id' hid').imp_left (List.mem_erase_of_ne hne).mpr
    · cases hp
  · cases hp

theorem inv_next (h : Inv s) (hstep : step s .next = some t) : Inv t := by
  obtain ⟨p, hp, rfl⟩ := Option.map_eq_some_iff.mp hstep
  have hreached := h.reached
  unfold Reached at hreached
  simp only [Poller.step] at hp
  split at hp
  · rename_i active hreloader
    rw [hreloader] at hreached
    obtain ⟨rfl, hkeys⟩ := hreached
    cases hp
    refine ⟨registered_same h.registered _ _, fun id hid => ?_, fun m hm => hm, fun id hid => ?_⟩
    · exact (hkeys id hid).resolve_left List.not_mem_nil
    · exact Or.inr hid
  · rename_i hreloader
    rw [hreloader] at hreached
    obtain ⟨hkeys, -, hids⟩ := hreached
    cases hp
    refine ⟨registered_same h.registered _ _, fun id => ⟨hkeys id, fun hid => ?_⟩⟩
    exact (hids id hid).resolve_right List.not_mem_nil
  · rename_i m rest hreloader
    rw [hreloader] at hreached
    obtain ⟨hkeys, hlisted, hids⟩ := hreached
    have hrest : ∀ m' ∈ rest, m' ∈ s.listed := fun m' hm' => hlisted m' (List.mem_cons_of_mem m hm')
    have hregistered := registered_same h.registered s.poller.monitors (.launching rest)
    cases hp
    split
    · rename_i hm
      refine ⟨hregistered, hkeys, hrest, fun id hid => ?_⟩
      rcases hids id hid with hid | hid
      · exact Or.inl hid
      · rcases List.mem_cons.mp hid with rfl | hid
        · exact Or.inl hm
        · exact Or.inr hid
    · rename_i hm
      have hset : ({ s.poller with reloader := .launching rest }.start m).cancels.keys =
          s.poller.cancels.keys ++ [m.id] := KeyedMap.keys_set_of_notMem hm
      refine ⟨registered_start hregistered hm, fun id hid => ?_, hrest, fun id hid => ?_⟩
      · rw [hset] at hid
        rcases List.mem_append.mp hid with hid | hid
        · exact hkeys id hid
        · rw [List.mem_singleton.mp hid]
          exact List.mem_map_of_mem (hlisted m List.mem_cons_self)
      · rw [hset]
        rcases hids id hid with hid | hid
        · exact Or.inl (List.mem_append_left _ hid)
        · rcases List.mem_cons.mp hid with rfl | hid
          · exact Or.inl (List.mem_append_right _ (List.mem_singleton_self _))
          · exact Or.inr hid
  · cases hp

theorem inv_poll {i : ℕ} {action : Action} (h : Inv s) (hstep : step s (.poll i action) = some t) :
    Inv t := by
  obtain ⟨p, hp, rfl⟩ := Option.map_eq_some_iff.mp hstep
  obtain ⟨g, hi, hp⟩ := Option.bind_eq_some_iff.mp hp
  obtain ⟨⟨phase, q⟩, hadvance, hp⟩ := Option.bind_eq_some_iff.mp hp
  cases hp
  obtain ⟨hgoroutines, hcancels, hparent, hreloader, hstopped⟩ := advance_frame hadvance
  refine ⟨registered_poll h.registered hi hgoroutines hcancels hparent hstopped, ?_⟩
  have hreached := h.reached
  unfold Reached at hreached ⊢
  dsimp only [ids] at hreached ⊢
  rw [hreloader, hcancels]
  exact hreached

theorem inv_step {a : Label} (h : Inv s) (hstep : step s a = some t) : Inv t := by
  cases a with
  | write rows =>
    obtain ⟨p, hp, rfl⟩ := Option.map_eq_some_iff.mp hstep
    simp only [Poller.step] at hp
    split at hp
    · cases hp
      exact ⟨registered_same h.registered rows s.poller.reloader, h.reached⟩
    · cases hp
  | reload ok => exact inv_reload h hstep
  | visit id => exact inv_visit h hstep
  | next => exact inv_next h hstep
  | quit =>
    obtain ⟨p, hp, rfl⟩ := Option.map_eq_some_iff.mp hstep
    simp only [Poller.step] at hp
    split at hp
    · rename_i hidle
      cases hp
      have hreached := h.reached
      unfold Reached at hreached
      rw [hidle.1] at hreached
      exact ⟨registered_same h.registered _ _, hreached⟩
    · cases hp
  | cancelParent =>
    cases hstep
    refine ⟨⟨h.registered.ids, h.registered.entries, fun g _ hdone => ?_⟩, h.reached⟩
    simp [State.done] at hdone
  | poll i action => exact inv_poll h hstep

end Listed

/-- Whatever the tables between the reloads, and whichever listings fail: after each reload the
poller runs exactly the monitors that the last listing found enabled. -/
theorem runs_exactly_enabled (monitors : List Monitor) (as : List Label) :
    Runs.Along Listed.step (fun _ _ t => RunsEnabled t) ⟨{ monitors := monitors }, []⟩ as :=
  Runs.along_of_invariant
    (fun _ _ _ h hstep => ⟨Listed.inv_step h hstep, (Listed.inv_step h hstep).runsEnabled⟩)
    (Listed.inv_init monitors) as

/-- A monitor that was disabled and is enabled again gets a second goroutine. -/
example :
    (Runs.run Listed.step ⟨{ monitors := [shop] }, []⟩
      [.reload true, .next, .next, .next, .write [{ shop with enabled := false }], .reload true,
        .visit "m1", .next, .next, .write [shop], .reload false, .reload true, .next, .next,
        .next]).map (fun s => (s.poller.cancels, s.poller.goroutines.map Goroutine.cancelled)) =
      some ([("m1", 1)], [true, false]) :=
  rfl

end BatAudit.Healthcheck.Poller
