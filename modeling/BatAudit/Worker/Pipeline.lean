import BatAudit.Audit.Codec
import BatAudit.Audit.Storage
import BatAudit.Lib.Runs
import Mathlib.Logic.Function.Basic

/-!
# From the queue to the table

The Redis list, the workers that empty it, and the audits table. A pop on the server and the
delivery of its reply are separate steps, and the context of `Dequeue` may expire before,
between or after them. An item is named by the number of its `RPUSH`, so that equal payloads
are told apart.
-/

namespace BatAudit.Worker.Pipeline

open Auth (AuthDb)
open Json (Text)

/-! ## Workers -/

/-- Where a worker is in its loop. After `received` it counts the queue and decodes the
payload, and while `processing` that many calls of `CreateAudit` have failed. -/
inductive Phase
  | absent
  | selecting
  | waiting
  | inFlight (item : ℕ)
  | received (item : ℕ)
  | processing (item : ℕ) (event : Audit) (failures : ℕ)
  | returned

/-- The item a worker holds, or the server has sent to it. -/
def Phase.item : Phase → Option ℕ
  | .inFlight item | .received item | .processing item _ _ => some item
  | .absent | .selecting | .waiting | .returned => none

def Phase.isProcessing : Phase → Bool
  | .processing .. => true
  | _ => false

theorem Phase.not_processing {phase : Phase} {P : ℕ → Audit → ℕ → Prop}
    (h : phase.isProcessing = false) (item : ℕ) (event : Audit) (failures : ℕ)
    (heq : phase = .processing item event failures) : P item event failures := by
  subst heq
  cases h

/-- `orphans` are calls of BLPOP whose worker has gone on, and `rows` the table with the item
each row came from. `unanswered` are pushes whose reply is still under way. -/
structure State where
  pushed : List Text := []
  unanswered : List ℕ := []
  acknowledged : List ℕ := []
  queue : List ℕ := []
  orphans : ℕ := 0
  workers : ℕ → Phase := fun _ => .absent
  rows : List (ℕ × AuditRow) := []
  discarded : List (ℕ × ℕ) := []
  lost : List ℕ := []

/-- How a call of `CreateAudit` ends: an error may also come after the row was committed. -/
inductive Reply
  | ok
  | failed
  | unconfirmed
deriving DecidableEq, Repr

inductive Label
  | rpush (event : Audit)
  | rpushReply (item : ℕ) (ok : Bool)
  | launch (i : ℕ)
  | exit (i : ℕ)
  | dequeue (i : ℕ)
  | blpop (i : ℕ)
  | blpopNil (i : ℕ)
  | deliver (i : ℕ)
  | expire (i : ℕ)
  | orphanPop
  | orphanNil
  | unmarshal (i : ℕ)
  | createAudit (i : ℕ) (db : AuthDb) (reply : Reply)

namespace State

/-- The list takes the payload. -/
def push (s : State) (payload : Text) : State :=
  { s with
    pushed := s.pushed ++ [payload]
    queue := s.queue ++ [s.pushed.length]
    unanswered := s.unanswered ++ [s.pushed.length] }

def setPhase (s : State) (i : ℕ) (phase : Phase) : State :=
  { s with workers := Function.update s.workers i phase }

/-- What a worker makes of the payload. -/
def decoded (s : State) (item : ℕ) : Option Audit := (s.pushed[item]?).bind unmarshalAudit

theorem workers_setPhase_self (s : State) (i : ℕ) (phase : Phase) :
    (s.setPhase i phase).workers i = phase := Function.update_self ..

theorem workers_setPhase_of_ne {i j : ℕ} (h : j ≠ i) (s : State) (phase : Phase) :
    (s.setPhase i phase).workers j = s.workers j := Function.update_of_ne h ..

/-- The head of the loop of `processWithRetry`. -/
def attempt (s : State) (maxRetries : ℤ) (i item : ℕ) (event : Audit) (failures : ℕ) : State :=
  if failures < maxRetries then s.setPhase i (.processing item event failures)
  else { s.setPhase i .selecting with discarded := s.discarded ++ [(item, failures)] }

/-- The row of the event, when `CreateAudit` can insert it. -/
def commit (s : State) (db : AuthDb) (item : ℕ) (event : Audit) : Option State :=
  match BatAudit.createAudit db (s.rows.map Prod.snd) event with
  | .ok audits => audits.getLast?.map fun row => { s with rows := s.rows ++ [(item, row)] }
  | .error _ => none

end State

/-- A worker that is neither in `Dequeue` nor busy with an item may find its context
cancelled or its stop channel ready, and return. -/
def step (maxRetries : ℤ) (s : State) : Label → Option State
  | .rpush event => (marshalAudit event).map s.push
  | .rpushReply item ok =>
    if item ∈ s.unanswered then
      some { s with
        unanswered := s.unanswered.erase item
        acknowledged := if ok then s.acknowledged ++ [item] else s.acknowledged }
    else none
  | .launch i =>
    match s.workers i with
    | .absent => some (s.setPhase i .selecting)
    | _ => none
  | .exit i =>
    match s.workers i with
    | .selecting => some (s.setPhase i .returned)
    | _ => none
  | .dequeue i =>
    match s.workers i with
    | .selecting => some (s.setPhase i .waiting)
    | _ => none
  | .blpop i =>
    match s.workers i, s.queue with
    | .waiting, item :: queue => some { s.setPhase i (.inFlight item) with queue := queue }
    | _, _ => none
  | .blpopNil i =>
    match s.workers i with
    | .waiting => some (s.setPhase i .selecting)
    | _ => none
  | .deliver i =>
    match s.workers i with
    | .inFlight item => some (s.setPhase i (.received item))
    | _ => none
  | .expire i =>
    match s.workers i with
    | .waiting => some { s.setPhase i .selecting with orphans := s.orphans + 1 }
    | .inFlight item => some { s.setPhase i .selecting with lost := s.lost ++ [item] }
    | _ => none
  | .orphanPop =>
    match s.orphans, s.queue with
    | orphans + 1, item :: queue =>
      some { s with orphans := orphans, queue := queue, lost := s.lost ++ [item] }
    | _, _ => none
  | .orphanNil =>
    match s.orphans with
    | orphans + 1 => some { s with orphans := orphans }
    | 0 => none
  | .unmarshal i =>
    match s.workers i with
    | .received item =>
      match s.decoded item with
      | some event => some (s.attempt maxRetries i item event 0)
      | none => some { s.setPhase i .selecting with lost := s.lost ++ [item] }
    | _ => none
  | .createAudit i db reply =>
    match s.workers i with
    | .processing item event failures =>
      match reply with
      | .ok => (s.commit db item event).map fun s' => s'.setPhase i .selecting
      | .failed => some (s.attempt maxRetries i item event (failures + 1))
      | .unconfirmed =>
        (s.commit db item event).map fun s' => s'.attempt maxRetries i item event (failures + 1)
    | _ => none

/-- What a step can be, with the phase that its worker is in. -/
inductive Moves (maxRetries : ℤ) (s : State) : Label → State → Prop
  | rpush {event : Audit} {payload : Text} (hmarshal : marshalAudit event = some payload) :
      Moves maxRetries s (.rpush event) (s.push payload)
  | rpushReply {item : ℕ} (ok : Bool) (hitem : item ∈ s.unanswered) :
      Moves maxRetries s (.rpushReply item ok)
        { s with
          unanswered := s.unanswered.erase item
          acknowledged := if ok then s.acknowledged ++ [item] else s.acknowledged }
  | launch {i : ℕ} (hi : s.workers i = .absent) :
      Moves maxRetries s (.launch i) (s.setPhase i .selecting)
  | exit {i : ℕ} (hi : s.workers i = .selecting) :
      Moves maxRetries s (.exit i) (s.setPhase i .returned)
  | dequeue {i : ℕ} (hi : s.workers i = .selecting) :
      Moves maxRetries s (.dequeue i) (s.setPhase i .waiting)
  | blpop {i item : ℕ} {rest : List ℕ} (hi : s.workers i = .waiting)
      (hqueue : s.queue = item :: rest) :
      Moves maxRetries s (.blpop i) { s.setPhase i (.inFlight item) with queue := rest }
  | blpopNil {i : ℕ} (hi : s.workers i = .waiting) :
      Moves maxRetries s (.blpopNil i) (s.setPhase i .selecting)
  | deliver {i item : ℕ} (hi : s.workers i = .inFlight item) :
      Moves maxRetries s (.deliver i) (s.setPhase i (.received item))
  | expire {i : ℕ} (hi : s.workers i = .waiting) :
      Moves maxRetries s (.expire i) { s.setPhase i .selecting with orphans := s.orphans + 1 }
  | expireInFlight {i item : ℕ} (hi : s.workers i = .inFlight item) :
      Moves maxRetries s (.expire i) { s.setPhase i .selecting with lost := s.lost ++ [item] }
  | orphanPop {orphans item : ℕ} {rest : List ℕ} (horphans : s.orphans = orphans + 1)
      (hqueue : s.queue = item :: rest) :
      Moves maxRetries s .orphanPop
        { s with orphans := orphans, queue := rest, lost := s.lost ++ [item] }
  | orphanNil {orphans : ℕ} (horphans : s.orphans = orphans + 1) :
      Moves maxRetries s .orphanNil { s with orphans := orphans }
  | unmarshal {i item : ℕ} {event : Audit} (hi : s.workers i = .received item)
      (hevent : s.decoded item = some event) :
      Moves maxRetries s (.unmarshal i) (s.attempt maxRetries i item event 0)
  | unmarshalFailed {i item : ℕ} (hi : s.workers i = .received item)
      (hnone : s.decoded item = none) :
      Moves maxRetries s (.unmarshal i) { s.setPhase i .selecting with lost := s.lost ++ [item] }
  | created {i item failures : ℕ} {event : Audit} {db : AuthDb} {s' : State}
      (hi : s.workers i = .processing item event failures)
      (hcommit : s.commit db item event = some s') :
      Moves maxRetries s (.createAudit i db .ok) (s'.setPhase i .selecting)
  | failed {i item failures : ℕ} {event : Audit} (db : AuthDb)
      (hi : s.workers i = .processing item event failures) :
      Moves maxRetries s (.createAudit i db .failed)
        (s.attempt maxRetries i item event (failures + 1))
  | unconfirmed {i item failures : ℕ} {event : Audit} {db : AuthDb} {s' : State}
      (hi : s.workers i = .processing item event failures)
      (hcommit : s.commit db item event = some s') :
      Moves maxRetries s (.createAudit i db .unconfirmed)
        (s'.attempt maxRetries i item event (failures + 1))

theorem moves {maxRetries : ℤ} {s t : State} {a : Label} (hstep : step maxRetries s a = some t) :
    Moves maxRetries s a t := by
  cases a with
  | rpush event =>
    obtain ⟨payload, hmarshal, rfl⟩ := Option.map_eq_some_iff.mp hstep
    exact .rpush hmarshal
  | rpushReply item ok =>
    simp only [step] at hstep
    split at hstep
    · rename_i hitem
      obtain rfl := Option.some.inj hstep
      exact .rpushReply ok hitem
    · cases hstep
  | launch i =>
    simp only [step] at hstep
    split at hstep
    · rename_i hi
      obtain rfl := Option.some.inj hstep
      exact .launch hi
    · cases hstep
  | exit i =>
    simp only [step] at hstep
    split at hstep
    · rename_i hi
      obtain rfl := Option.some.inj hstep
      exact .exit hi
    · cases hstep
  | dequeue i =>
    simp only [step] at hstep
    split at hstep
    · rename_i hi
      obtain rfl := Option.some.inj hstep
      exact .dequeue hi
    · cases hstep
  | blpop i =>
    simp only [step] at hstep
    split at hstep
    · rename_i hi hqueue
      obtain rfl := Option.some.inj hstep
      exact .blpop hi hqueue
    · cases hstep
  | blpopNil i =>
    simp only [step] at hstep
    split at hstep
    · rename_i hi
      obtain rfl := Option.some.inj hstep
      exact .blpopNil hi
    · cases hstep
  | deliver i =>
    simp only [step] at hstep
    split at hstep
    · rename_i hi
      obtain rfl := Option.some.inj hstep
      exact .deliver hi
    · cases hstep
  | expire i =>
    simp only [step] at hstep
    split at hstep
    · rename_i hi
      obtain rfl := Option.some.inj hstep
      exact .expire hi
    · rename_i hi
      obtain rfl := Option.some.inj hstep
      exact .expireInFlight hi
    · cases hstep
  | orphanPop =>
    simp only [step] at hstep
    split at hstep
    · rename_i horphans hqueue
      obtain rfl := Option.some.inj hstep
      exact .orphanPop horphans hqueue
    · cases hstep
  | orphanNil =>
    simp only [step] at hstep
    split at hstep
    · rename_i horphans
      obtain rfl := Option.some.inj hstep
      exact .orphanNil horphans
    · cases hstep
  | unmarshal i =>
    simp only [step] at hstep
    split at hstep
    · rename_i hi
      split at hstep
      · rename_i hevent
        obtain rfl := Option.some.inj hstep
        exact .unmarshal hi hevent
      · rename_i hnone
        obtain rfl := Option.some.inj hstep
        exact .unmarshalFailed hi hnone
    · cases hstep
  | createAudit i db reply =>
    simp only [step] at hstep
    split at hstep
    · rename_i hi
      cases reply with
      | ok =>
        obtain ⟨s', hcommit, rfl⟩ := Option.map_eq_some_iff.mp hstep
        exact .created hi hcommit
      | failed =>
        obtain rfl := Option.some.inj hstep
        exact .failed db hi
      | unconfirmed =>
        obtain ⟨s', hcommit, rfl⟩ := Option.map_eq_some_iff.mp hstep
        exact .unconfirmed hi hcommit
    · cases hstep

/-! ## Where an item is -/

/-- In the queue, with a worker, in the table, or discarded after all its retries. -/
def Accounted (maxRetries : ℤ) (s : State) (item : ℕ) : Prop :=
  item ∈ s.queue ∨ (∃ i, (s.workers i).item = some item) ∨ item ∈ s.rows.map Prod.fst ∨
    (item, maxRetries.toNat) ∈ s.discarded

/-- No acknowledged event vanishes. -/
def NothingVanishes (maxRetries : ℤ) (s : State) : Prop :=
  ∀ item ∈ s.acknowledged, Accounted maxRetries s item

inductive Place
  | unborn
  | queued
  | held (i : ℕ)
  | finished
  | lost

/-- The item is at this place and nowhere else. -/
structure At (maxRetries : ℤ) (s : State) (item : ℕ) (p : Place) : Prop where
  unborn : s.pushed.length ≤ item ↔ p = .unborn
  queue : item ∈ s.queue ↔ p = .queued
  held : ∀ i, (s.workers i).item = some item ↔ p = .held i
  lost : item ∈ s.lost ↔ p = .lost
  finished : p = .finished →
    item ∈ s.rows.map Prod.fst ∨ (item, maxRetries.toNat) ∈ s.discarded
  rows : item ∈ s.rows.map Prod.fst → p = .finished ∨
    ∃ i, p = .held i ∧ (s.workers i).isProcessing = true
  discarded : ∀ n, (item, n) ∈ s.discarded → p = .finished

structure Located (maxRetries : ℤ) (s : State) (place : ℕ → Place) : Prop where
  located : ∀ item, At maxRetries s item (place item)
  nodup : s.queue.Nodup
  unanswered : ∀ item ∈ s.unanswered, item < s.pushed.length
  acknowledged : ∀ item ∈ s.acknowledged, item < s.pushed.length
  retries : ∀ i item event failures, s.workers i = .processing item event failures →
    failures < maxRetries

/-- The accounts of the pipeline are right, whatever was lost. -/
def Inv (maxRetries : ℤ) (s : State) : Prop := ∃ place, Located maxRetries s place

variable {maxRetries : ℤ} {s t : State} {place : ℕ → Place} {p : Place} {i item x : ℕ}
  {phase : Phase}

theorem At.accounted_iff (h : At maxRetries s item p) (hborn : item < s.pushed.length) :
    Accounted maxRetries s item ↔ item ∉ s.lost := by
  rw [h.lost]
  constructor
  · rintro (hqueue | ⟨i, hi⟩ | hrow | hdiscarded) rfl
    · exact nomatch h.queue.mp hqueue
    · exact nomatch (h.held i).mp hi
    · rcases h.rows hrow with hp | ⟨_, hp, _⟩ <;> exact nomatch hp
    · exact nomatch h.discarded _ hdiscarded
  · intro hlost
    cases p with
    | unborn => exact absurd hborn (Nat.not_lt.mpr (h.unborn.mpr rfl))
    | queued => exact Or.inl (h.queue.mpr rfl)
    | held i => exact Or.inr (Or.inl ⟨i, (h.held i).mpr rfl⟩)
    | finished => exact Or.inr (Or.inr (h.finished rfl))
    | lost => exact absurd rfl hlost

/-- What vanished is what was lost. -/
theorem nothingVanishes_iff (h : Inv maxRetries s) :
    NothingVanishes maxRetries s ↔ ∀ item ∈ s.acknowledged, item ∉ s.lost := by
  obtain ⟨place, h⟩ := h
  exact forall₂_congr fun item hitem =>
    (h.located item).accounted_iff (h.acknowledged item hitem)

/-! ## What the steps do to the places -/

/-- A worker that had nothing to do with the item, and has not now. -/
theorem At.setPhase (h : At maxRetries s x p) (hfrom : (s.workers i).item ≠ some x)
    (hto : phase.item ≠ some x) : At maxRetries (s.setPhase i phase) x p := by
  refine { h with held := fun j => ?_, rows := fun hrow => ?_ }
  · by_cases hj : j = i
    · subst hj
      rw [State.workers_setPhase_self, ← h.held]
      exact iff_of_false hto hfrom
    · rw [State.workers_setPhase_of_ne hj]
      exact h.held j
  · refine (h.rows hrow).imp_right fun ⟨j, hj, hprocessing⟩ => ⟨j, hj, ?_⟩
    have hji : j ≠ i := by
      rintro rfl
      exact hfrom ((h.held j).mpr hj)
    rwa [State.workers_setPhase_of_ne hji]

/-- Before it is processed, an item has no row. -/
theorem At.notMem_rows (h : At maxRetries s item p)
    (hp : p = .queued ∨ p = .held i ∧ (s.workers i).isProcessing = false) :
    item ∉ s.rows.map Prod.fst := by
  intro hrow
  rcases hp with rfl | ⟨rfl, hidle⟩
  · rcases h.rows hrow with hp | ⟨_, hp, _⟩ <;> exact nomatch hp
  · rcases h.rows hrow with hp | ⟨j, hp, hprocessing⟩
    · exact nomatch hp
    · obtain rfl := Place.held.inj hp
      exact absurd hprocessing ((Bool.not_eq_true _).mpr hidle)

namespace Located

/-- One item goes to another place. -/
theorem move (hitem : At maxRetries t item p)
    (hother : ∀ x ≠ item, At maxRetries t x (place x)) (x : ℕ) :
    At maxRetries t x (Function.update place item p x) := by
  by_cases hx : x = item
  · subst hx
    rwa [Function.update_self]
  · rw [Function.update_of_ne hx]
    exact hother x hx

theorem held_ne (h : Located maxRetries s place) (hi : (s.workers i).item = some item)
    {j : ℕ} (hj : (s.workers j).item = some item) : j = i :=
  Place.held.inj ((((h.located item).held j).mp hj).symm.trans (((h.located item).held i).mp hi))

theorem retries_setPhase (h : Located maxRetries s place)
    (hphase : ∀ item event failures, phase = .processing item event failures →
      failures < maxRetries) (j item : ℕ) (event : Audit) (failures : ℕ)
    (hj : (s.setPhase i phase).workers j = .processing item event failures) :
    failures < maxRetries := by
  by_cases heq : j = i
  · subst heq
    rw [State.workers_setPhase_self] at hj
    exact hphase item event failures hj
  · rw [State.workers_setPhase_of_ne heq] at hj
    exact h.retries j item event failures hj

/-- A worker goes on with the item it has, or without one. -/
theorem setPhase (h : Located maxRetries s place) (hitem : phase.item = (s.workers i).item)
    (hprocessing : (s.workers i).isProcessing = true → phase.isProcessing = true)
    (hretries : ∀ item event failures, phase = .processing item event failures →
      failures < maxRetries) : Located maxRetries (s.setPhase i phase) place := by
  refine { h with located := fun x => ?_, retries := h.retries_setPhase hretries }
  have hx := h.located x
  refine { hx with held := fun j => ?_, rows := fun hrow => ?_ }
  · rw [← hx.held]
    by_cases hj : j = i
    · subst hj
      rw [State.workers_setPhase_self, hitem]
    · rw [State.workers_setPhase_of_ne hj]
  · refine (hx.rows hrow).imp_right fun ⟨j, hplace, hj⟩ => ⟨j, hplace, ?_⟩
    by_cases heq : j = i
    · subst heq
      rw [State.workers_setPhase_self]
      exact hprocessing hj
    · rwa [State.workers_setPhase_of_ne heq]

theorem goOn (h : Located maxRetries s place) (hfrom : (s.workers i).item = none)
    (hto : phase.item = none) : Located maxRetries (s.setPhase i phase) place := by
  refine h.setPhase (hto.trans hfrom.symm) (fun hprocessing => ?_) fun item event failures heq => ?_
  · cases hphase : s.workers i with
    | processing => rw [hphase] at hfrom; cases hfrom
    | _ => rw [hphase] at hprocessing; cases hprocessing
  · rw [heq] at hto
    cases hto

/-- An item leaves its worker for good. -/
theorem vacate (h : Located maxRetries s place) (hi : (s.workers i).item = some item)
    {lost : List ℕ} {discarded : List (ℕ × ℕ)}
    (hp : p = .lost ∧ item ∉ s.rows.map Prod.fst ∨
      p = .finished ∧ (item ∈ s.rows.map Prod.fst ∨ (item, maxRetries.toNat) ∈ discarded))
    (hlost : ∀ x, x ∈ lost ↔ x ∈ s.lost ∨ x = item ∧ p = .lost)
    (hkept : s.discarded ⊆ discarded)
    (hdiscarded : ∀ d ∈ discarded, d ∈ s.discarded ∨ d.1 = item ∧ p = .finished) :
    Inv maxRetries { s.setPhase i .selecting with lost := lost, discarded := discarded } := by
  have hat := h.located item
  have hplace : place item = .held i := (hat.held i).mp hi
  refine ⟨Function.update place item p, { h with
    located := Located.move ?_ fun x hx => ?_
    retries := h.retries_setPhase (Phase.not_processing rfl) }⟩
  · have hne : p ≠ .unborn ∧ p ≠ .queued ∧ ∀ j, p ≠ .held j := by
      rcases hp with ⟨rfl, -⟩ | ⟨rfl, -⟩ <;> exact ⟨nofun, nofun, nofun⟩
    refine ⟨?_, ?_, fun j => ?_, ?_, ?_, fun hrow => ?_, fun n hd => ?_⟩
    · exact iff_of_false (fun hborn => nomatch hplace.symm.trans (hat.unborn.mp hborn)) hne.1
    · exact iff_of_false (fun hqueue => nomatch hplace.symm.trans (hat.queue.mp hqueue)) hne.2.1
    · refine iff_of_false (fun hheld => ?_) (hne.2.2 j)
      by_cases hj : j = i
      · subst hj
        rw [State.workers_setPhase_self] at hheld
        cases hheld
      · rw [State.workers_setPhase_of_ne hj] at hheld
        exact hj (h.held_ne hi hheld)
    · rw [hlost]
      refine ⟨fun hl => ?_, fun hl => Or.inr ⟨rfl, hl⟩⟩
      exact (hl.resolve_left fun hl => nomatch hplace.symm.trans (hat.lost.mp hl)).2
    · rintro rfl
      exact (hp.resolve_left fun hl => nomatch hl.1).2
    · exact Or.inl (hp.resolve_left fun hl => hl.2 hrow).1
    · rcases hdiscarded _ hd with hd | ⟨-, hp⟩
      · exact nomatch hplace.symm.trans (hat.discarded n hd)
      · exact hp
  · have hx' : At maxRetries (s.setPhase i .selecting) x (place x) :=
      (h.located x).setPhase (fun heq => hx (Option.some.inj (heq.symm.trans hi))) nofun
    refine { hx' with lost := ?_, finished := fun hfinished => ?_, discarded := fun n hd => ?_ }
    · rw [hlost, or_iff_left fun hl => hx hl.1]
      exact hx'.lost
    · exact (hx'.finished hfinished).imp_right fun hd => hkept hd
    · rcases hdiscarded _ hd with hd | ⟨heq, -⟩
      · exact hx'.discarded n hd
      · exact absurd heq hx

theorem lose (h : Located maxRetries s place) (hi : (s.workers i).item = some item)
    (hidle : (s.workers i).isProcessing = false) :
    Inv maxRetries { s.setPhase i .selecting with lost := s.lost ++ [item] } := by
  have hplace := ((h.located item).held i).mp hi
  refine h.vacate hi (p := .lost) (Or.inl ⟨rfl, ?_⟩) (fun x => by simp) (List.Subset.refl _)
    fun d hd => Or.inl hd
  exact (h.located item).notMem_rows (Or.inr ⟨hplace, hidle⟩)

theorem finish (h : Located maxRetries s place) (hi : (s.workers i).item = some item)
    (hrow : item ∈ s.rows.map Prod.fst) : Inv maxRetries (s.setPhase i .selecting) :=
  h.vacate hi (p := .finished) (Or.inr ⟨rfl, Or.inl hrow⟩) (fun x => by simp)
    (List.Subset.refl _) fun d hd => Or.inl hd

/-- The next call of `CreateAudit`, unless this many failures exhaust the retries. -/
theorem attempt (h : Located maxRetries s place) (hi : (s.workers i).item = some item)
    (event : Audit) {failures : ℕ} (hfailures : failures ≤ maxRetries.toNat) :
    Inv maxRetries (s.attempt maxRetries i item event failures) := by
  unfold State.attempt
  split_ifs with hmore
  · refine ⟨place, h.setPhase hi.symm (fun _ => rfl) fun item' event' failures' heq => ?_⟩
    obtain ⟨-, -, rfl⟩ := Phase.processing.inj heq
    exact hmore
  · have hexact : failures = maxRetries.toNat := by omega
    refine h.vacate hi (p := .finished) ?_ (fun x => by simp [State.setPhase])
      (List.subset_append_left _ _) fun d hd => (List.mem_append.mp hd).imp_right fun hd => ?_
    · refine Or.inr ⟨rfl, Or.inr (List.mem_append_right _ ?_)⟩
      rw [hexact]
      exact List.mem_singleton_self _
    · rw [List.mem_singleton.mp hd]
      exact ⟨rfl, rfl⟩

theorem failures_lt (h : Located maxRetries s place) {event : Audit} {failures : ℕ}
    (hi : s.workers i = .processing item event failures) : failures < maxRetries.toNat := by
  have hlt := h.retries i item event failures hi
  omega

/-- A row is added for the item that is being processed. -/
theorem commit (h : Located maxRetries s place) {event : Audit} {failures : ℕ} {db : AuthDb}
    (hi : s.workers i = .processing item event failures) (hcommit : s.commit db item event = some t) :
    Located maxRetries t place ∧ t.workers = s.workers ∧ item ∈ t.rows.map Prod.fst := by
  unfold State.commit at hcommit
  split at hcommit
  · obtain ⟨row, -, rfl⟩ := Option.map_eq_some_iff.mp hcommit
    have hmem : item ∈ (s.rows ++ [(item, row)]).map Prod.fst := by simp
    refine ⟨{ h with located := fun x => ?_ }, rfl, hmem⟩
    have hx := h.located x
    refine { hx with finished := fun hfinished => ?_, rows := fun hrow => ?_ }
    · refine (hx.finished hfinished).imp_left fun hrow => ?_
      rw [List.map_append]
      exact List.mem_append_left _ hrow
    · rw [List.map_append] at hrow
      rcases List.mem_append.mp hrow with hrow | hrow
      · exact hx.rows hrow
      · obtain rfl := List.mem_singleton.mp hrow
        exact Or.inr ⟨i, (hx.held i).mp (by rw [hi]; rfl), by rw [hi]; rfl⟩
  · cases hcommit

/-- The item at the head of the queue leaves it. -/
theorem unqueue (h : Located maxRetries s place) {rest : List ℕ} (hqueue : s.queue = item :: rest) :
    place item = .queued ∧ item ∉ rest ∧ rest.Nodup ∧
      ∀ x ≠ item, At maxRetries { s with queue := rest } x (place x) := by
  have hnodup := h.nodup
  rw [hqueue] at hnodup
  obtain ⟨hnotin, hnodup⟩ := List.nodup_cons.mp hnodup
  refine ⟨(h.located item).queue.mp (hqueue ▸ List.mem_cons_self), hnotin, hnodup, fun x hx => ?_⟩
  refine { h.located x with queue := ?_ }
  rw [← (h.located x).queue, hqueue, List.mem_cons, or_iff_right hx]

theorem pop (h : Located maxRetries s place) {rest : List ℕ} (hi : s.workers i = .waiting)
    (hqueue : s.queue = item :: rest) :
    Inv maxRetries { s.setPhase i (.inFlight item) with queue := rest } := by
  obtain ⟨hplace, hnotin, hnodup, hothers⟩ := h.unqueue hqueue
  have hat := h.located item
  refine ⟨Function.update place item (.held i), { h with
    located := Located.move ?_ fun x hx => ?_
    nodup := hnodup
    retries := h.retries_setPhase (Phase.not_processing rfl) }⟩
  · refine ⟨?_, iff_of_false hnotin nofun, fun j => ?_, ?_, nofun, fun hrow => ?_, fun n hd => ?_⟩
    · exact iff_of_false (fun hborn => nomatch hplace.symm.trans (hat.unborn.mp hborn)) nofun
    · by_cases hj : j = i
      · subst hj
        rw [State.workers_setPhase_self]
        exact iff_of_true rfl rfl
      · rw [State.workers_setPhase_of_ne hj]
        exact iff_of_false (fun hheld => nomatch hplace.symm.trans ((hat.held j).mp hheld))
          fun heq => hj (Place.held.inj heq).symm
    · exact iff_of_false (fun hl => nomatch hplace.symm.trans (hat.lost.mp hl)) nofun
    · exact absurd hrow (hat.notMem_rows (i := i) (Or.inl hplace))
    · exact nomatch hplace.symm.trans (hat.discarded n hd)
  · refine (hothers x hx).setPhase (i := i) ?_ fun heq => hx (Option.some.inj heq).symm
    rw [hi]
    exact nofun

/-- An orphaned call takes the item at the head of the queue. -/
theorem drop (h : Located maxRetries s place) {rest : List ℕ} {orphans : ℕ}
    (hqueue : s.queue = item :: rest) :
    Inv maxRetries { s with orphans := orphans, queue := rest, lost := s.lost ++ [item] } := by
  obtain ⟨hplace, hnotin, hnodup, hothers⟩ := h.unqueue hqueue
  have hat := h.located item
  refine ⟨Function.update place item .lost, { h with
    located := Located.move ?_ fun x hx => ?_, nodup := hnodup }⟩
  · refine ⟨?_, iff_of_false hnotin nofun, fun j => ?_, iff_of_true (by simp) rfl, nofun,
      fun hrow => ?_, fun n hd => ?_⟩
    · exact iff_of_false (fun hborn => nomatch hplace.symm.trans (hat.unborn.mp hborn)) nofun
    · exact iff_of_false (fun hheld => nomatch hplace.symm.trans ((hat.held j).mp hheld)) nofun
    · exact absurd hrow (hat.notMem_rows (i := 0) (Or.inl hplace))
    · exact nomatch hplace.symm.trans (hat.discarded n hd)
  · refine { hothers x hx with lost := ?_ }
    rw [List.mem_append, List.mem_singleton, or_iff_left hx]
    exact (h.located x).lost

end Located

/-! ## The steps -/

theorem inv_init : Inv maxRetries {} := by
  refine ⟨fun _ => .unborn, fun x => ?_, List.nodup_nil, nofun, nofun,
    fun _ => Phase.not_processing rfl⟩
  exact ⟨iff_of_true (Nat.zero_le x) rfl, by simp, fun i => by simp [Phase.item], by simp, nofun,
    by simp, by simp⟩

theorem inv_push (h : Inv maxRetries s) (payload : Text) : Inv maxRetries (s.push payload) := by
  obtain ⟨place, h⟩ := h
  have hnew := h.located s.pushed.length
  have hplace : place s.pushed.length = .unborn := hnew.unborn.mp (le_refl _)
  have hnotin : s.pushed.length ∉ s.queue := fun hmem =>
    nomatch hplace.symm.trans (hnew.queue.mp hmem)
  have hlength : (s.push payload).pushed.length = s.pushed.length + 1 := List.length_append
  have hqueue : (s.push payload).queue = s.queue ++ [s.pushed.length] := rfl
  refine ⟨Function.update place s.pushed.length .queued, ⟨Located.move ?_ fun x hx => ?_, ?_,
    fun item hitem => ?_, fun item hitem => ?_, h.retries⟩⟩
  · refine { hnew with
      unborn := ?_, queue := ?_, held := fun i => ?_, lost := ?_, finished := nofun,
      rows := fun hrow => ?_, discarded := fun n hd => ?_ }
    · rw [hlength]
      exact iff_of_false (by omega) nofun
    · rw [hqueue]
      exact iff_of_true (by simp) rfl
    · exact iff_of_false (fun hi => nomatch hplace.symm.trans ((hnew.held i).mp hi)) nofun
    · exact iff_of_false (fun hl => nomatch hplace.symm.trans (hnew.lost.mp hl)) nofun
    · rcases hnew.rows hrow with hp | ⟨_, hp, _⟩ <;> exact nomatch hplace.symm.trans hp
    · exact nomatch hplace.symm.trans (hnew.discarded n hd)
  · have hold := h.located x
    refine { hold with unborn := ?_, queue := ?_ }
    · rw [← hold.unborn, hlength]
      omega
    · rw [← hold.queue, hqueue, List.mem_append, List.mem_singleton, or_iff_left hx]
  · exact List.nodup_append.mpr ⟨h.nodup, List.nodup_singleton _, fun x hx y hy heq =>
      hnotin (List.mem_singleton.mp hy ▸ heq ▸ hx)⟩
  · rw [hlength]
    rcases List.mem_append.mp hitem with hitem | hitem
    · exact Nat.lt_succ_of_lt (h.unanswered item hitem)
    · exact List.mem_singleton.mp hitem ▸ Nat.lt_succ_self _
  · rw [hlength]
    exact Nat.lt_succ_of_lt (h.acknowledged item hitem)

theorem inv_rpushReply (h : Inv maxRetries s) (ok : Bool) (hitem : item ∈ s.unanswered) :
    Inv maxRetries { s with
      unanswered := s.unanswered.erase item
      acknowledged := if ok then s.acknowledged ++ [item] else s.acknowledged } := by
  obtain ⟨place, h⟩ := h
  refine ⟨place, { h with
    located := fun x => { h.located x with }
    unanswered := fun x hx => h.unanswered x (List.mem_of_mem_erase hx)
    acknowledged := fun x hx => ?_ }⟩
  cases ok with
  | false => exact h.acknowledged x hx
  | true =>
    rcases List.mem_append.mp hx with hx | hx
    · exact h.acknowledged x hx
    · exact List.mem_singleton.mp hx ▸ h.unanswered item hitem

theorem inv_step {a : Label} (h : Inv maxRetries s) (hstep : step maxRetries s a = some t) :
    Inv maxRetries t := by
  have hinv := h
  obtain ⟨place, h⟩ := h
  cases moves hstep with
  | rpush => exact inv_push hinv _
  | rpushReply ok hitem => exact inv_rpushReply hinv ok hitem
  | launch hi | exit hi | dequeue hi | blpopNil hi => exact ⟨place, h.goOn (by rw [hi]; rfl) rfl⟩
  | deliver hi =>
    refine ⟨place, h.setPhase (by rw [hi]; rfl) (fun hprocessing => ?_) (Phase.not_processing rfl)⟩
    rw [hi] at hprocessing
    cases hprocessing
  | blpop hi hqueue => exact h.pop hi hqueue
  | expire hi =>
    have hs : Located maxRetries { s with orphans := s.orphans + 1 } place :=
      { h with located := fun x => { h.located x with } }
    exact ⟨place, hs.goOn (by rw [hi]; rfl) rfl⟩
  | expireInFlight hi => exact h.lose (by rw [hi]; rfl) (by rw [hi]; rfl)
  | orphanPop _ hqueue => exact h.drop hqueue
  | orphanNil => exact ⟨place, { h with located := fun x => { h.located x with } }⟩
  | unmarshal hi => exact h.attempt (by rw [hi]; rfl) _ (Nat.zero_le _)
  | unmarshalFailed hi => exact h.lose (by rw [hi]; rfl) (by rw [hi]; rfl)
  | created hi hcommit =>
    obtain ⟨hs', hworkers, hrow⟩ := h.commit hi hcommit
    exact hs'.finish (by rw [hworkers, hi]; rfl) hrow
  | failed _ hi => exact h.attempt (by rw [hi]; rfl) _ (h.failures_lt hi)
  | unconfirmed hi hcommit =>
    obtain ⟨hs', hworkers, -⟩ := h.commit hi hcommit
    exact hs'.attempt (by rw [hworkers, hi]; rfl) _ (h.failures_lt hi)

/-! ## When nothing vanishes -/

/-- What the server sends to a worker, or to nobody, is not acknowledged when it is lost; a
worker can decode what is acknowledged; and nothing is acknowledged that is lost already. -/
def Safe (s : State) : Label → Prop
  | .rpushReply item ok => ok = true → item ∉ s.lost
  | .expire i => ∀ item, s.workers i = .inFlight item → item ∉ s.acknowledged
  | .orphanPop => ∀ item, s.queue.head? = some item → item ∉ s.acknowledged
  | .unmarshal i => ∀ item, s.workers i = .received item → item ∈ s.acknowledged →
      (s.decoded item).isSome = true
  | _ => True

/-- What a step adds to the items that are lost or acknowledged. -/
inductive Adds (s : State) (a : Label) (t : State) : Prop
  | nothing (hlost : t.lost = s.lost) (hacknowledged : t.acknowledged = s.acknowledged)
      (hsafe : Safe s a)
  | lost (item : ℕ) (hlost : t.lost = s.lost ++ [item])
      (hacknowledged : t.acknowledged = s.acknowledged)
      (hsafe : Safe s a ↔ item ∉ s.acknowledged)
  | acknowledged (item : ℕ) (hlost : t.lost = s.lost)
      (hacknowledged : t.acknowledged = s.acknowledged ++ [item])
      (hsafe : Safe s a ↔ item ∉ s.lost)

theorem attempt_adds (s : State) (i item : ℕ) (event : Audit) (failures : ℕ) :
    (s.attempt maxRetries i item event failures).lost = s.lost ∧
      (s.attempt maxRetries i item event failures).acknowledged = s.acknowledged := by
  unfold State.attempt
  split <;> exact ⟨rfl, rfl⟩

theorem commit_adds {db : AuthDb} {event : Audit} (h : s.commit db item event = some t) :
    t.lost = s.lost ∧ t.acknowledged = s.acknowledged := by
  unfold State.commit at h
  split at h
  · obtain ⟨row, -, rfl⟩ := Option.map_eq_some_iff.mp h
    exact ⟨rfl, rfl⟩
  · cases h

theorem adds_step {a : Label} (hstep : step maxRetries s a = some t) : Adds s a t := by
  cases moves hstep with
  | rpush | launch | exit | dequeue | blpop | blpopNil | deliver | orphanNil =>
    exact .nothing rfl rfl trivial
  | rpushReply ok hitem =>
    cases ok with
    | false => exact .nothing rfl rfl nofun
    | true => exact .acknowledged _ rfl rfl ⟨fun hsafe => hsafe rfl, fun hnot _ => hnot⟩
  | expire hi => exact .nothing rfl rfl fun item hitem => nomatch hi.symm.trans hitem
  | @expireInFlight i item hi =>
    refine .lost item rfl rfl ⟨fun hsafe => hsafe item hi, fun hnot item' hi' => ?_⟩
    exact Phase.inFlight.inj (hi.symm.trans hi') ▸ hnot
  | @orphanPop orphans item rest _ hqueue =>
    have hhead : s.queue.head? = some item := by rw [hqueue, List.head?_cons]
    refine .lost item rfl rfl ⟨fun hsafe => hsafe item hhead, fun hnot item' hhead' => ?_⟩
    exact Option.some.inj (hhead.symm.trans hhead') ▸ hnot
  | @unmarshal i item event hi hevent =>
    refine .nothing (attempt_adds ..).1 (attempt_adds ..).2 fun item' hi' _ => ?_
    rw [Phase.received.inj (hi'.symm.trans hi), hevent]
    rfl
  | @unmarshalFailed i item hi hnone =>
    refine .lost item rfl rfl ⟨fun hsafe hack => ?_, fun hnot item' hi' hack => ?_⟩
    · have hsome := hsafe item hi hack
      rw [hnone] at hsome
      cases hsome
    · exact absurd (Phase.received.inj (hi'.symm.trans hi) ▸ hack) hnot
  | created _ hcommit =>
    exact .nothing (commit_adds hcommit).1 (commit_adds hcommit).2 trivial
  | failed => exact .nothing (attempt_adds ..).1 (attempt_adds ..).2 trivial
  | unconfirmed _ hcommit =>
    exact .nothing ((attempt_adds ..).1.trans (commit_adds hcommit).1)
      ((attempt_adds ..).2.trans (commit_adds hcommit).2) trivial

/-- Along a run nothing that is acknowledged vanishes exactly when every step is safe. -/
theorem nothing_vanishes_iff_safe (maxRetries : ℤ) (as : List Label) :
    Runs.Along (step maxRetries) (fun _ _ t => NothingVanishes maxRetries t) {} as ↔
      Runs.Meets (step maxRetries) Safe {} as := by
  refine Runs.along_iff_meets (I := fun s => Inv maxRetries s ∧ NothingVanishes maxRetries s)
    (fun s a t h hsafe hstep => ?_) (fun s a t h hnot hstep hkept => ?_) ⟨inv_init, nofun⟩ as
  · have ht := inv_step h.1 hstep
    have hkept := (nothingVanishes_iff h.1).mp h.2
    have hgoal : NothingVanishes maxRetries t := by
      rw [nothingVanishes_iff ht]
      intro item hack
      cases adds_step hstep with
      | nothing hlost hacknowledged =>
        rw [hlost]
        exact hkept item (hacknowledged ▸ hack)
      | lost item' hlost hacknowledged hiff =>
        rw [hlost, List.mem_append, List.mem_singleton]
        rw [hacknowledged] at hack
        rintro (hmem | rfl)
        · exact hkept item hack hmem
        · exact hiff.mp hsafe hack
      | acknowledged item' hlost hacknowledged hiff =>
        rw [hlost]
        rw [hacknowledged] at hack
        rcases List.mem_append.mp hack with hack | hack
        · exact hkept item hack
        · exact List.mem_singleton.mp hack ▸ hiff.mp hsafe
    exact ⟨⟨ht, hgoal⟩, hgoal⟩
  · have hkept := (nothingVanishes_iff (inv_step h.1 hstep)).mp hkept
    cases adds_step hstep with
    | nothing _ _ hsafe => exact hnot hsafe
    | lost item hlost hacknowledged hiff =>
      refine hnot (hiff.mpr fun hack => hkept item (hacknowledged ▸ hack) ?_)
      rw [hlost]
      exact List.mem_append_right _ (List.mem_singleton_self _)
    | acknowledged item hlost hacknowledged hiff =>
      refine hnot (hiff.mpr fun hmem => hkept item ?_ (hlost ▸ hmem))
      rw [hacknowledged]
      exact List.mem_append_right _ (List.mem_singleton_self _)

/-- The context of `Dequeue` expires after the server has popped the only item. -/
def expiredReply : List Label :=
  [.rpush { method := some .GET }, .rpushReply 0 true, .launch 0, .dequeue 0, .blpop 0]

theorem acknowledged_event_vanishes :
    ¬∀ (maxRetries : ℤ) (as : List Label),
      Runs.Along (step maxRetries) (fun _ _ t => NothingVanishes maxRetries t) {} as := by
  intro hclaim
  have hrun : (Runs.run (step 3) {} (expiredReply ++ [.expire 0])).map
      (fun s => (s.acknowledged, s.lost)) = some ([0], [0]) :=
    rfl
  obtain ⟨t, ht, hitems⟩ := Option.map_eq_some_iff.mp hrun
  obtain ⟨hacknowledged, hlost⟩ := Prod.mk.inj hitems
  have hinv : Inv 3 t := Runs.run_invariant (fun _ _ _ h hstep => inv_step h hstep) inv_init ht
  obtain ⟨s, hs, hstep⟩ := Runs.run_concat_eq_some.mp ht
  have hkept := Runs.along_iff.mp (hclaim 3 (expiredReply ++ [.expire 0])) expiredReply (.expire 0)
    s t (List.prefix_refl _) hs hstep
  refine (nothingVanishes_iff hinv).mp hkept 0 ?_ ?_
  · rw [hacknowledged]
    exact List.mem_singleton_self 0
  · rw [hlost]
    exact List.mem_singleton_self 0

/-! ## One row for an event -/

/-- A row has the id of the event its item decodes to, and no other row has that id. -/
structure RowsById (s : State) : Prop where
  nodup : (s.rows.map fun r => r.2.id).Nodup
  decoded : ∀ r ∈ s.rows, ∃ event, s.decoded r.1 = some event ∧ r.2.id = event.id
  processing : ∀ i item event failures, s.workers i = .processing item event failures →
    s.decoded item = some event

theorem decoded_eq_of_append {more : List Text} (hpushed : t.pushed = s.pushed ++ more)
    (hitem : item < s.pushed.length) : t.decoded item = s.decoded item := by
  rw [State.decoded, hpushed, List.getElem?_append_left hitem, ← State.decoded]

theorem decoded_of_append {more : List Text} (hpushed : t.pushed = s.pushed ++ more)
    {event : Audit} (hevent : s.decoded item = some event) : t.decoded item = some event := by
  obtain ⟨text, htext, -⟩ := Option.bind_eq_some_iff.mp hevent
  exact (decoded_eq_of_append hpushed (List.getElem?_eq_some_iff.mp htext).1).trans hevent

theorem decoded_push_self (s : State) (payload : Text) :
    (s.push payload).decoded s.pushed.length = unmarshalAudit payload := by
  simp [State.decoded, State.push]

theorem pushed_attempt (event : Audit) (failures : ℕ) :
    (s.attempt maxRetries i item event failures).pushed = s.pushed := by
  unfold State.attempt
  split <;> rfl

theorem pushed_commit {db : AuthDb} {event : Audit} (h : s.commit db item event = some t) :
    t.pushed = s.pushed := by
  unfold State.commit at h
  split at h
  · obtain ⟨row, -, rfl⟩ := Option.map_eq_some_iff.mp h
    rfl
  · cases h

/-- Payloads are only ever added. -/
theorem pushed_step {a : Label} (hstep : step maxRetries s a = some t) :
    ∃ more, t.pushed = s.pushed ++ more := by
  have hsame : t.pushed = s.pushed → ∃ more, t.pushed = s.pushed ++ more := fun heq =>
    ⟨[], by rw [heq, List.append_nil]⟩
  cases moves hstep with
  | @rpush event payload => exact ⟨[payload], rfl⟩
  | unmarshal | failed => exact hsame (pushed_attempt ..)
  | @created _ _ _ _ _ s' _ hcommit =>
    have hs' : s'.pushed = s.pushed := pushed_commit hcommit
    exact hsame hs'
  | unconfirmed _ hcommit => exact hsame ((pushed_attempt ..).trans (pushed_commit hcommit))
  | _ => exact hsame rfl

namespace RowsById

theorem init : RowsById {} :=
  ⟨List.nodup_nil, fun _ h => absurd h List.not_mem_nil, fun _ => Phase.not_processing rfl⟩

theorem push (h : RowsById s) (payload : Text) : RowsById (s.push payload) := by
  have hpushed : (s.push payload).pushed = s.pushed ++ [payload] := rfl
  refine ⟨h.nodup, fun r hr => ?_, fun i item event failures hi => ?_⟩
  · obtain ⟨event, hevent, hid⟩ := h.decoded r hr
    exact ⟨event, decoded_of_append hpushed hevent, hid⟩
  · exact decoded_of_append hpushed (h.processing i item event failures hi)

theorem setPhase (h : RowsById s)
    (hphase : ∀ item event failures, phase = .processing item event failures →
      s.decoded item = some event) : RowsById (s.setPhase i phase) := by
  refine { h with processing := fun j item event failures hj => ?_ }
  by_cases heq : j = i
  · subst heq
    rw [State.workers_setPhase_self] at hj
    exact hphase item event failures hj
  · rw [State.workers_setPhase_of_ne heq] at hj
    exact h.processing j item event failures hj

/-- What is neither a payload, a row nor a worker plays no part. -/
theorem of_eq (h : RowsById s) (hpushed : t.pushed = s.pushed) (hrows : t.rows = s.rows)
    (hworkers : t.workers = s.workers) : RowsById t where
  nodup := hrows ▸ h.nodup
  decoded r hr := by
    rw [State.decoded, hpushed]
    exact h.decoded r (hrows ▸ hr)
  processing i item event failures hi := by
    rw [State.decoded, hpushed]
    exact h.processing i item event failures (hworkers ▸ hi)

theorem selecting (h : RowsById s) (i : ℕ) : RowsById (s.setPhase i .selecting) :=
  h.setPhase (Phase.not_processing rfl)

theorem attempt (h : RowsById s) {event : Audit} (hevent : s.decoded item = some event)
    (failures : ℕ) : RowsById (s.attempt maxRetries i item event failures) := by
  unfold State.attempt
  split
  · refine h.setPhase fun item' event' failures' heq => ?_
    obtain ⟨rfl, rfl, -⟩ := Phase.processing.inj heq
    exact hevent
  · exact (h.selecting i).of_eq rfl rfl rfl

theorem commit (h : RowsById s) {event : Audit} {db : AuthDb}
    (hevent : s.decoded item = some event) (hcommit : s.commit db item event = some t) :
    RowsById t ∧ t.decoded item = some event := by
  unfold State.commit at hcommit
  split at hcommit
  · rename_i audits hcreate
    obtain ⟨c, rfl, hfresh, hid, -⟩ := createAudit_ok hcreate
    rw [List.getLast?_concat, Option.map_some, Option.some.injEq] at hcommit
    subst hcommit
    refine ⟨⟨?_, fun r hr => ?_, h.processing⟩, hevent⟩
    · rw [List.map_append, List.map_singleton]
      refine List.nodup_append.mpr ⟨h.nodup, List.nodup_singleton _, fun x hx y hy heq => ?_⟩
      obtain ⟨r, hr, rfl⟩ := List.mem_map.mp hx
      exact hfresh r.2 (List.mem_map_of_mem hr) (heq.trans (List.mem_singleton.mp hy))
    · rcases List.mem_append.mp hr with hr | hr
      · exact h.decoded r hr
      · rw [List.mem_singleton.mp hr]
        exact ⟨event, hevent, hid⟩
  · cases hcommit

theorem step {a : Label} (h : RowsById s) (hstep : step maxRetries s a = some t) :
    RowsById t := by
  cases moves hstep with
  | rpush => exact h.push _
  | launch | exit | dequeue | blpopNil | deliver => exact h.setPhase (Phase.not_processing rfl)
  | @blpop i item rest =>
    have hs : RowsById (s.setPhase i (.inFlight item)) := h.setPhase (Phase.not_processing rfl)
    exact hs.of_eq rfl rfl rfl
  | expire | expireInFlight | unmarshalFailed => exact (h.selecting _).of_eq rfl rfl rfl
  | rpushReply | orphanPop | orphanNil => exact h.of_eq rfl rfl rfl
  | unmarshal _ hevent => exact h.attempt hevent 0
  | created hi hcommit =>
    exact (h.commit (h.processing _ _ _ _ hi) hcommit).1.setPhase (Phase.not_processing rfl)
  | failed _ hi => exact h.attempt (h.processing _ _ _ _ hi) _
  | unconfirmed hi hcommit =>
    obtain ⟨hs', hevent⟩ := h.commit (h.processing _ _ _ _ hi) hcommit
    exact hs'.attempt hevent _

end RowsById

end BatAudit.Worker.Pipeline
