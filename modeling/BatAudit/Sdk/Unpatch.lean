import BatAudit.Lib.Runs
import Mathlib.Data.List.Nodup

/-!
# Taking an instance off a page

`unpatch` puts back what its instance found when it was initialised, whatever was put there
since. Later instances go with it, and earlier ones come back that were taken off meanwhile.
-/

namespace BatAudit.Sdk.Unpatch

open Runs

/-- What an instance found: the instances that a call went through, the last one first. -/
structure Found where
  originalFetch : List ℕ
  originalXHR : List ℕ
deriving DecidableEq, Repr

/-- `live` are the instances that `init` has returned and that were not taken off. -/
structure State where
  fetch : List ℕ := []
  xhr : List ℕ := []
  instances : List Found := []
  live : List ℕ := []
deriving DecidableEq, Repr

inductive Label
  | init (validUrl : Bool)
  | unpatch (i : ℕ)
deriving DecidableEq, Repr

/-- Without an `XMLHttpRequest` to patch `init` throws when it has patched `fetch`. -/
def step (hasXHR : Bool) (s : State) : Label → Option State
  | .init validUrl =>
    if validUrl then
      let id := s.instances.length
      let s := { s with
        fetch := id :: s.fetch
        instances := s.instances ++ [⟨s.fetch, s.xhr⟩] }
      if hasXHR then some { s with xhr := id :: s.xhr, live := id :: s.live } else some s
    else some s
  | .unpatch i => do
    let found ← s.instances[i]?
    if hasXHR then
      some { s with
        fetch := found.originalFetch
        xhr := found.originalXHR
        live := s.live.erase i }
    else none

/-- A call goes through the instances that are live. -/
def Installed (s : State) : Prop := s.fetch = s.live ∧ s.xhr = s.live

/-- The last instance is taken off first. What was taken off is so again only with the
instances live that it found. -/
def LastFirst (hasXHR : Bool) (s : State) : Label → Prop
  | .init validUrl => validUrl = true → hasXHR = true
  | .unpatch i =>
    if i ∈ s.live then s.live.head? = some i
    else ∀ found, s.instances[i]? = some found → found.originalFetch = s.live

instance (hasXHR : Bool) (s : State) : DecidablePred (LastFirst hasXHR s)
  | .init _ => inferInstanceAs (Decidable (_ → _))
  | .unpatch i =>
    inferInstanceAs (Decidable (if i ∈ s.live then s.live.head? = some i
      else ∀ found, s.instances[i]? = some found → found.originalFetch = s.live))

structure Inv (s : State) : Prop where
  installed : Installed s
  nodup : s.live.Nodup
  lt : ∀ i ∈ s.live, i < s.instances.length
  alike : ∀ found ∈ s.instances, found.originalFetch = found.originalXHR
  found : ∀ newer i older, s.live = newer ++ i :: older →
    ∃ found, s.instances[i]? = some found ∧ found.originalFetch = older

section

variable {hasXHR : Bool} {s t : State}

/-- What a step does. -/
inductive Taken (hasXHR : Bool) (s : State) : Label → State → Prop
  | refused : Taken hasXHR s (.init false) s
  | thrown (h : hasXHR = false) : Taken hasXHR s (.init true) { s with
      fetch := s.instances.length :: s.fetch
      instances := s.instances ++ [⟨s.fetch, s.xhr⟩] }
  | init (h : hasXHR = true) : Taken hasXHR s (.init true) {
      fetch := s.instances.length :: s.fetch
      xhr := s.instances.length :: s.xhr
      instances := s.instances ++ [⟨s.fetch, s.xhr⟩]
      live := s.instances.length :: s.live }
  | unpatch (i : ℕ) (found : Found) (hfound : s.instances[i]? = some found) :
    Taken hasXHR s (.unpatch i) { s with
      fetch := found.originalFetch, xhr := found.originalXHR, live := s.live.erase i }

theorem taken_of_step {a : Label} (h : step hasXHR s a = some t) : Taken hasXHR s a t := by
  cases a with
  | init validUrl =>
    cases validUrl with
    | false =>
      cases h
      exact .refused
    | true =>
      cases hasXHR with
      | false =>
        cases h
        exact .thrown rfl
      | true =>
        cases h
        exact .init rfl
  | unpatch i =>
    obtain ⟨found, hfound, h⟩ := Option.bind_eq_some_iff.mp h
    split at h
    · cases h
      exact .unpatch i found hfound
    · cases h

theorem inv_init (h : Inv s) : Inv {
    fetch := s.instances.length :: s.fetch
    xhr := s.instances.length :: s.xhr
    instances := s.instances ++ [⟨s.fetch, s.xhr⟩]
    live := s.instances.length :: s.live } := by
  obtain ⟨hfetch, hxhr⟩ := h.installed
  have hnew : s.instances.length ∉ s.live := fun hmem => Nat.lt_irrefl _ (h.lt _ hmem)
  refine ⟨⟨by rw [hfetch], by rw [hxhr]⟩, List.nodup_cons.mpr ⟨hnew, h.nodup⟩, ?_, ?_, ?_⟩
  · rw [List.forall_mem_cons, List.length_append]
    exact ⟨Nat.lt_succ_self _, fun i hi => Nat.lt_succ_of_lt (h.lt i hi)⟩
  · refine List.forall_mem_append.mpr ⟨h.alike, fun found hfound => ?_⟩
    rw [List.mem_singleton.mp hfound]
    exact hfetch.trans hxhr.symm
  · intro newer i older hlive
    cases newer with
    | nil =>
      obtain ⟨rfl, rfl⟩ := List.cons.inj hlive
      exact ⟨_, List.getElem?_concat_length, hfetch⟩
    | cons j newer =>
      obtain ⟨-, hlive⟩ := List.cons.inj hlive
      obtain ⟨found, hfound, hold⟩ := h.found newer i older hlive
      exact ⟨found, List.getElem?_append_left (List.getElem?_eq_some_iff.mp hfound).1 ▸ hfound, hold⟩

theorem inv_unpatch (h : Inv s) {i : ℕ} {found : Found} (hfound : s.instances[i]? = some found)
    {live : List ℕ} (hsuffix : live <:+ s.live) (hfetch : found.originalFetch = live) :
    Inv { s with fetch := found.originalFetch, xhr := found.originalXHR, live := live } := by
  have hxhr := h.alike found (List.mem_of_getElem? hfound)
  refine ⟨⟨hfetch, hxhr.symm.trans hfetch⟩, hsuffix.sublist.nodup h.nodup,
    fun j hj => h.lt j (hsuffix.subset hj), h.alike, fun newer j older hlive => ?_⟩
  obtain ⟨later, hlater⟩ := hsuffix
  have hlive : live = newer ++ j :: older := hlive
  exact h.found (later ++ newer) j older (by rw [← hlater, hlive, List.append_assoc])

theorem inv_step {a : Label} (h : Inv s) (hok : LastFirst hasXHR s a)
    (hstep : step hasXHR s a = some t) : Inv t ∧ Installed t := by
  suffices hinv : Inv t from ⟨hinv, hinv.installed⟩
  cases taken_of_step hstep with
  | refused => exact h
  | thrown hnone =>
    rw [hok rfl] at hnone
    cases hnone
  | init => exact inv_init h
  | unpatch i found hfound =>
    simp only [LastFirst] at hok
    split_ifs at hok with hmem
    · obtain ⟨older, hlive⟩ := List.head?_eq_some_iff.mp hok
      obtain ⟨found', hfound', hold⟩ := h.found [] i older hlive
      cases hfound.symm.trans hfound'
      rw [hlive, List.erase_cons_head]
      exact inv_unpatch h hfound (hlive ▸ List.suffix_cons i older) hold
    · rw [List.erase_of_not_mem hmem]
      exact inv_unpatch h hfound (List.suffix_refl _) (hok found hfound)

theorem not_installed_step {a : Label} (h : Inv s) (hbad : ¬ LastFirst hasXHR s a)
    (hstep : step hasXHR s a = some t) : ¬ Installed t := by
  rintro ⟨hfetch, -⟩
  obtain ⟨hsame, -⟩ := h.installed
  refine hbad ?_
  cases taken_of_step hstep with
  | refused => exact fun h => by cases h
  | thrown =>
    have hlength := congrArg List.length hfetch
    rw [List.length_cons, hsame] at hlength
    exact absurd hlength (Nat.succ_ne_self _)
  | init hxhr => exact fun _ => hxhr
  | unpatch i found hfound =>
    simp only [LastFirst]
    split_ifs with hmem
    · obtain ⟨newer, older, hlive⟩ := List.append_of_mem hmem
      obtain ⟨found', hfound', hold⟩ := h.found newer i older hlive
      cases hfound.symm.trans hfound'
      have hnodup := h.nodup
      rw [hlive, List.nodup_append] at hnodup
      have hnot : i ∉ newer := fun hi => hnodup.2.2 i hi i List.mem_cons_self rfl
      simp only at hfetch
      rw [hold, hlive, List.erase_append_right _ hnot, List.erase_cons_head] at hfetch
      rw [hlive, List.append_left_eq_self.mp hfetch.symm]
      rfl
    · intro found' hfound'
      cases hfound.symm.trans hfound'
      simpa only [List.erase_of_not_mem hmem] using hfetch

/-- Calls go through the live instances along a run exactly when each is taken off while it
is the last one. -/
theorem installed_iff (hasXHR : Bool) (as : List Label) :
    Along (step hasXHR) (fun _ _ t => Installed t) {} as ↔
      Meets (step hasXHR) (LastFirst hasXHR) {} as := by
  refine along_iff_meets (I := Inv) (fun _ _ _ => inv_step) (fun _ _ _ => not_installed_step) ?_ as
  exact ⟨⟨rfl, rfl⟩, List.nodup_nil, fun i hi => absurd hi List.not_mem_nil,
    fun found hfound => absurd hfound List.not_mem_nil,
    fun newer i older hlive => absurd hlive.symm (List.append_ne_nil_of_right_ne_nil _ (by simp))⟩

end

/-- The first of two instances is taken off, and the second goes with it. -/
example : (run (step true) {} [.init true, .init true, .unpatch 0]).map
    (fun s => (s.fetch, s.live)) = some ([], [1]) := by decide

end BatAudit.Sdk.Unpatch
