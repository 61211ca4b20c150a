import Mathlib.Algebra.Order.Ring.Int
import BatAudit.Lib.Double
import BatAudit.Lib.KeyedMap
import BatAudit.Lib.Runs

/-!
# The worker pool

`scaleWorkers` and `evaluateScaling` on the three representations of the pool: the count,
the map of stop channels and the goroutines. A channel is known by its number on a heap of
channels, so that the map and a goroutine can share one. A `range` over a map visits the
entries in any order. Counts and worker ids stay far below the bound of `int`; queue sizes
and thresholds are `int64`, and wrap.
-/

namespace BatAudit.Worker

structure Config where
  InitialWorkerCount : ℤ
  MinWorkerCount : ℤ
  MaxWorkerCount : ℤ
  ScaleUpThreshold : Int64
  ScaleDownThreshold : Int64
  WorkerScaleFactor : Double

/-- What `DefaultConfig` says of the pool. -/
def DefaultConfig : Config where
  InitialWorkerCount := 2
  MinWorkerCount := 2
  MaxWorkerCount := 10
  ScaleUpThreshold := 15
  ScaleDownThreshold := 5
  WorkerScaleFactor := Double.ofRatio false 2 1

/-- A `chan bool` with a buffer of one. -/
structure Chan where
  buffered : ℕ := 0
  closed : Bool := false
deriving DecidableEq, Repr

/-- A goroutine running `runWorkerWithControl`. -/
structure Goroutine where
  id : ℤ
  stopChan : ℕ
  running : Bool := true
deriving DecidableEq, Repr

structure Service where
  activeWorkers : ℤ := 0
  workerChannels : KeyedMap ℤ ℕ := []
  chans : List Chan := []
  goroutines : List Goroutine := []
deriving DecidableEq, Repr

/-- What would stop the program or the goroutine that scales. -/
inductive Fault
  | sendOnClosedChannel
  | closeOfClosedChannel
  | blockedSend
  | negativeCapacity
deriving DecidableEq, Repr

namespace Service

def ids (s : Service) : List ℤ := s.workerChannels.keys

def makeChan (s : Service) : ℕ × Service :=
  (s.chans.length, { s with chans := s.chans ++ [{}] })

def go (s : Service) (id : ℤ) (stopChan : ℕ) : Service :=
  { s with goroutines := s.goroutines ++ [{ id, stopChan }] }

/-- The channel of a missing key is nil. A send on it, or on a full one, blocks for ever. -/
def send (s : Service) (stopChan : Option ℕ) : Except Fault Service :=
  match stopChan.bind fun c => s.chans[c]?.map fun chan => (c, chan) with
  | none => .error .blockedSend
  | some (c, chan) =>
    if chan.closed then .error .sendOnClosedChannel
    else if 1 ≤ chan.buffered then .error .blockedSend
    else .ok { s with chans := s.chans.set c { chan with buffered := chan.buffered + 1 } }

def close (s : Service) (stopChan : Option ℕ) : Except Fault Service :=
  match stopChan.bind fun c => s.chans[c]?.map fun chan => (c, chan) with
  | none => .error .closeOfClosedChannel
  | some (c, chan) =>
    if chan.closed then .error .closeOfClosedChannel
    else .ok { s with chans := s.chans.set c { chan with closed := true } }

/-! ## scaleUp and scaleDown -/

/-- One more than the largest id, and at least zero. -/
def nextWorkerID (ids : List ℤ) : ℤ :=
  ids.foldl (fun next id => if next ≤ id then id + 1 else next) 0

/-- The body of the loop of `scaleUp`. -/
def startWorker (nextWorkerID : ℤ) (s : Service) : Service :=
  let (stopChan, s) := s.makeChan
  let s := { s with workerChannels := s.workerChannels.set nextWorkerID stopChan }
  let s := s.go nextWorkerID stopChan
  { s with activeWorkers := s.activeWorkers + 1 }

def launch : ℕ → ℤ → Service → Service
  | 0, _, s => s
  | n + 1, nextWorkerID, s => launch n (nextWorkerID + 1) (startWorker nextWorkerID s)

def scaleUp (range : Range ℤ) (targetCount : ℤ) (s : Service) : Service :=
  launch (targetCount - s.activeWorkers).toNat (nextWorkerID (range.order s.ids)) s

/-- The loop that ends once `workersToRemove` ids are collected. -/
def collect (workersToRemove : ℤ) : List ℤ → List ℤ → List ℤ
  | workersToStop, [] => workersToStop
  | workersToStop, id :: ids =>
    let workersToStop := workersToStop ++ [id]
    if workersToRemove ≤ workersToStop.length then workersToStop
    else collect workersToRemove workersToStop ids

def stop : List ℤ → Service → Except Fault Service
  | [], s => .ok s
  | id :: ids, s => do
    let s ← s.send (s.workerChannels.get? id)
    let s ← s.close (s.workerChannels.get? id)
    stop ids { s with workerChannels := s.workerChannels.delete id }

def scaleDown (cfg : Config) (range : Range ℤ) (targetCount : ℤ) (s : Service) :
    Except Fault Service :=
  if s.activeWorkers ≤ cfg.MinWorkerCount then .ok s
  else
    let workersToRemove := s.activeWorkers - targetCount
    if workersToRemove < 0 then .error .negativeCapacity
    else do
      let s ← stop (collect workersToRemove [] (range.order s.ids)) s
      return { s with activeWorkers := s.activeWorkers - workersToRemove }

def clamp (cfg : Config) (targetWorkerCount : ℤ) : ℤ :=
  let target := if targetWorkerCount < cfg.MinWorkerCount then cfg.MinWorkerCount
    else targetWorkerCount
  if cfg.MaxWorkerCount < target then cfg.MaxWorkerCount else target

def scaleWorkers (cfg : Config) (range : Range ℤ) (targetWorkerCount : ℤ) (s : Service) :
    Except Fault Service :=
  let target := clamp cfg targetWorkerCount
  if target = s.activeWorkers then .ok s
  else if s.activeWorkers < target then .ok (scaleUp range target s)
  else scaleDown cfg range target s

/-! ## evaluateScaling -/

variable (beyond : Double → ℤ)

def scaledUp (cfg : Config) (queueSize : Int64) (currentWorkers : ℤ) : ℤ :=
  let current := Double.ofInt currentWorkers
  let needed :=
    if cfg.ScaleUpThreshold * 5 < queueSize then cfg.MaxWorkerCount
    else if cfg.ScaleUpThreshold * 3 < queueSize then
      (((current.mul cfg.WorkerScaleFactor).mul (Double.ofRatio false 3 2)).ceil).toInt beyond
    else ((current.mul cfg.WorkerScaleFactor).ceil).toInt beyond
  let needed := if cfg.MaxWorkerCount < needed then cfg.MaxWorkerCount else needed
  if needed ≤ currentWorkers then currentWorkers + 1 else needed

def scaledDown (cfg : Config) (currentWorkers : ℤ) : ℤ :=
  let needed := (((Double.ofInt currentWorkers).div cfg.WorkerScaleFactor).floor).toInt beyond
  if needed < cfg.MinWorkerCount then cfg.MinWorkerCount else needed

def evaluateScaling (cfg : Config) (range : Range ℤ) (queueSize : Int64) (s : Service) :
    Except Fault Service :=
  let currentWorkers := s.activeWorkers
  if cfg.ScaleUpThreshold < queueSize ∧ currentWorkers < cfg.MaxWorkerCount then
    scaleWorkers cfg range (scaledUp beyond cfg queueSize currentWorkers) s
  else if queueSize < cfg.ScaleDownThreshold ∧ cfg.MinWorkerCount < currentWorkers then
    if scaledDown beyond cfg currentWorkers < currentWorkers then
      scaleWorkers cfg range (scaledDown beyond cfg currentWorkers) s
    else .ok s
  else .ok s

/-! ## Runs -/

def told (s : Service) (g : Goroutine) : Bool :=
  s.chans[g.stopChan]?.any fun chan => chan.closed || 1 ≤ chan.buffered

/-- A worker that was told to stop receives from its channel and returns. -/
def exit (i : ℕ) (s : Service) : Option Service := do
  let g ← s.goroutines[i]?
  let chan ← s.chans[g.stopChan]?
  if g.running && s.told g then
    some { s with
      goroutines := s.goroutines.set i { g with running := false }
      chans := s.chans.set g.stopChan { chan with buffered := chan.buffered - 1 } }
  else none

inductive Label
  | evaluateScaling (range : Range ℤ) (queueSize : Int64)
  | exit (i : ℕ)

def step (cfg : Config) (s : Service) : Label → Option Service
  | .evaluateScaling range queueSize => (evaluateScaling beyond cfg range queueSize s).toOption
  | .exit i => s.exit i

/-- The running workers that were not told to stop. -/
def serving (s : Service) : List Goroutine := s.goroutines.filter fun g => g.running && !s.told g

structure Consistent (cfg : Config) (s : Service) : Prop where
  channels : s.activeWorkers = s.workerChannels.length
  workers : s.activeWorkers = s.serving.length
  min_le : cfg.MinWorkerCount ≤ s.activeWorkers
  le_max : s.activeWorkers ≤ cfg.MaxWorkerCount

/-- The workers told to stop between two states. -/
def signalled (s t : Service) : List Goroutine :=
  s.goroutines.filter fun g => !s.told g && t.told g

/-- What a scaling does: it starts workers under ids that are not registered, or tells
workers to stop. -/
structure Scaled (s t : Service) : Prop where
  started : ∃ new, t.goroutines = s.goroutines ++ new ∧
    (new.length : ℤ) = max 0 (t.activeWorkers - s.activeWorkers) ∧
      (new.map Goroutine.id).Nodup ∧ ∀ g ∈ new, g.id ∉ s.ids
  signalled : ((signalled s t).length : ℤ) = max 0 (s.activeWorkers - t.activeWorkers)
  distinct : (s.goroutines.map Goroutine.stopChan).Nodup

/-! ## The invariant -/

structure Registered (s : Service) : Prop where
  stopChans : s.goroutines.map Goroutine.stopChan = List.range s.chans.length
  running : ∀ g ∈ s.goroutines, s.told g = false → g.running = true
  entries : s.workerChannels.Perm (s.serving.map fun g => (g.id, g.stopChan))
  ids : s.ids.Nodup
  closed : ∀ chan ∈ s.chans, chan = {} ∨ chan.closed = true

variable {cfg : Config} {s t : Service}

theorem Registered.distinct (h : Registered s) :
    (s.goroutines.map Goroutine.stopChan).Nodup := by
  rw [h.stopChans]
  exact List.nodup_range

theorem Registered.length_serving (h : Registered s) :
    s.serving.length = s.workerChannels.length := by
  rw [h.entries.length_eq, List.length_map]

theorem Registered.chan_lt (h : Registered s) {g : Goroutine} (hg : g ∈ s.goroutines) :
    g.stopChan < s.chans.length := by
  rw [← List.mem_range, ← h.stopChans]
  exact List.mem_map_of_mem hg

/-- A registered channel is empty and open, and belongs to a worker. -/
theorem Registered.open_of_mem (h : Registered s) {id : ℤ} {c : ℕ}
    (he : (id, c) ∈ s.workerChannels) :
    s.chans[c]? = some {} ∧ ∃ g ∈ s.goroutines, g.id = id ∧ g.stopChan = c := by
  obtain ⟨g, hg, hpair⟩ := List.mem_map.mp (h.entries.mem_iff.mp he)
  obtain ⟨rfl, rfl⟩ := Prod.mk.inj hpair
  obtain ⟨hmem, hserving⟩ := List.mem_filter.mp hg
  have hlt := h.chan_lt hmem
  refine ⟨?_, g, hmem, rfl, rfl⟩
  have htold : s.told g = false := by simp_all
  rw [told, List.getElem?_eq_getElem hlt, Option.any_some, Bool.or_eq_false_iff] at htold
  rw [List.getElem?_eq_getElem hlt]
  generalize s.chans[g.stopChan] = chan at htold
  obtain ⟨buffered, closed⟩ := chan
  obtain ⟨rfl, hbuffered⟩ := htold
  obtain rfl : buffered = 0 := by simpa using hbuffered
  rfl

theorem registered_empty : Registered {} :=
  ⟨rfl, nofun, List.Perm.refl _, List.nodup_nil, nofun⟩

/-! ## scaleUp -/

theorem told_startWorker {n : ℤ} {g : Goroutine} (hlt : g.stopChan < s.chans.length) :
    (startWorker n s).told g = s.told g := by
  simp only [startWorker, makeChan, go, told]
  rw [List.getElem?_append_left hlt]

theorem registered_startWorker {n : ℤ} (h : Registered s) (hn : n ∉ s.ids) :
    Registered (startWorker n s) ∧ (startWorker n s).ids = s.ids ++ [n] := by
  have hids : (startWorker n s).ids = s.ids ++ [n] := KeyedMap.keys_set_of_notMem hn
  have hnew : (startWorker n s).told ⟨n, s.chans.length, true⟩ = false := by
    simp [startWorker, makeChan, go, told]
  have hold : ∀ g ∈ s.goroutines, (startWorker n s).told g = s.told g := fun g hg =>
    told_startWorker (h.chan_lt hg)
  have hserving : (startWorker n s).serving = s.serving ++ [⟨n, s.chans.length, true⟩] := by
    unfold serving
    change (s.goroutines ++ [_]).filter _ = _
    rw [List.filter_append, List.filter_congr fun g hg => by rw [hold g hg]]
    simp [hnew]
  refine ⟨⟨?_, fun g hg hg' => ?_, ?_, ?_, fun chan hchan => ?_⟩, hids⟩
  · simp [startWorker, makeChan, go, h.stopChans, List.range_succ]
  · rcases List.mem_append.mp hg with hg | hg
    · exact h.running g hg (by rwa [hold g hg] at hg')
    · rw [List.mem_singleton.mp hg]
  · rw [hserving, List.map_append]
    change (s.workerChannels.set n s.chans.length).Perm _
    rw [KeyedMap.set, KeyedMap.delete_of_notMem hn]
    exact h.entries.append_right _
  · rw [hids]
    exact List.nodup_append.mpr ⟨h.ids, List.nodup_singleton n, by
      rintro a ha b hb rfl
      exact hn (List.mem_singleton.mp hb ▸ ha)⟩
  · rcases List.mem_append.mp hchan with hchan | hchan
    · exact h.closed chan hchan
    · exact Or.inl (List.mem_singleton.mp hchan)

theorem launch_spec {k : ℕ} {n : ℤ} (h : Registered s) (hn : ∀ id ∈ s.ids, id < n) :
    Registered (launch k n s) ∧ (launch k n s).activeWorkers = s.activeWorkers + k ∧
      (launch k n s).workerChannels.length = s.workerChannels.length + k ∧
      (∀ g ∈ s.goroutines, (launch k n s).told g = s.told g) ∧
      ∃ new, (launch k n s).goroutines = s.goroutines ++ new ∧ new.length = k ∧
        (new.map Goroutine.id).Nodup ∧ ∀ g ∈ new, n ≤ g.id := by
  induction k generalizing n s with
  | zero => exact ⟨h, by simp [launch], rfl, fun _ _ => rfl, [], by simp [launch]⟩
  | succ k ih =>
    have hfresh : n ∉ s.ids := fun hmem => lt_irrefl n (hn n hmem)
    obtain ⟨hstart, hids⟩ := registered_startWorker h hfresh
    have hnext : ∀ id ∈ (startWorker n s).ids, id < n + 1 := by
      intro id hid
      rw [hids] at hid
      rcases List.mem_append.mp hid with hid | hid
      · have := hn id hid
        omega
      · rw [List.mem_singleton.mp hid]
        omega
    obtain ⟨hreg, hactive, hchannels, htold, new, hgo, hlen, hnodup, hge⟩ := ih hstart hnext
    refine ⟨hreg, ?_, ?_, fun g hg => ?_, ⟨n, s.chans.length, true⟩ :: new, ?_, ?_, ?_, ?_⟩
    · rw [launch, hactive]
      change s.activeWorkers + 1 + (k : ℤ) = _
      push_cast
      omega
    · have hone := congrArg List.length hids
      simp only [ids, List.length_append, List.length_singleton, KeyedMap.length_keys] at hone
      rw [launch, hchannels]
      omega
    · rw [launch, htold g (List.mem_append_left _ hg), told_startWorker (h.chan_lt hg)]
    · rw [launch, hgo]
      exact List.append_assoc _ _ _
    · rw [List.length_cons, hlen]
    · rw [List.map_cons, List.nodup_cons]
      refine ⟨fun hmem => ?_, hnodup⟩
      obtain ⟨g, hg, hid⟩ := List.mem_map.mp hmem
      have := hge g hg
      change g.id = n at hid
      omega
    · intro g hg
      rcases List.mem_cons.mp hg with rfl | hg
      · exact le_refl n
      · have := hge g hg
        omega

theorem lt_nextWorkerID (ids : List ℤ) : ∀ id ∈ ids, id < nextWorkerID ids := by
  have hfold : ∀ (ids : List ℤ) (start : ℤ),
      let next := ids.foldl (fun next id => if next ≤ id then id + 1 else next) start
      start ≤ next ∧ ∀ id ∈ ids, id < next := by
    intro ids
    induction ids with
    | nil => exact fun start => ⟨le_refl start, nofun⟩
    | cons id ids ih =>
      intro start
      obtain ⟨hle, hlt⟩ := ih (if start ≤ id then id + 1 else start)
      refine ⟨le_trans ?_ hle, fun x hx => ?_⟩
      · by_cases hstart : start ≤ id
        · rw [if_pos hstart]
          omega
        · rw [if_neg hstart]
      · rcases List.mem_cons.mp hx with rfl | hx
        · refine lt_of_lt_of_le ?_ hle
          by_cases hstart : start ≤ x
          · rw [if_pos hstart]
            omega
          · rw [if_neg hstart]
            omega
        · exact hlt x hx
  exact (hfold ids 0).2

theorem scaleUp_spec {range : Range ℤ} {target : ℤ} (h : Registered s)
    (htarget : s.activeWorkers < target) :
    Registered (scaleUp range target s) ∧ (scaleUp range target s).activeWorkers = target ∧
      (scaleUp range target s).workerChannels.length =
        s.workerChannels.length + (target - s.activeWorkers).toNat ∧
      Scaled s (scaleUp range target s) := by
  have hnext : ∀ id ∈ s.ids, id < nextWorkerID (range.order s.ids) := fun id hid =>
    lt_nextWorkerID _ id ((range.perm s.ids).mem_iff.mpr hid)
  obtain ⟨hreg, hactive, hchannels, htold, new, hgo, hlen, hnodup, hge⟩ :=
    launch_spec (k := (target - s.activeWorkers).toNat) h hnext
  have htotal : (scaleUp range target s).activeWorkers = target := by
    rw [scaleUp, hactive]
    omega
  refine ⟨hreg, htotal, hchannels, ⟨new, hgo, ?_, hnodup, fun g hg hid => ?_⟩, ?_, h.distinct⟩
  · rw [htotal, hlen]
    omega
  · exact lt_irrefl _ (lt_of_lt_of_le (hnext g.id hid) (hge g hg))
  · have hnone : signalled s (scaleUp range target s) = [] := by
      refine List.filter_eq_nil_iff.mpr fun g hg => ?_
      rw [scaleUp, htold g hg]
      simp
    rw [hnone, htotal, List.length_nil]
    omega

/-! ## scaleDown -/

theorem collect_eq_take {k : ℤ} {picked ids : List ℤ} (hlt : (picked.length : ℤ) < k) :
    collect k picked ids = (picked ++ ids).take k.toNat := by
  induction ids generalizing picked with
  | nil =>
    rw [collect, List.append_nil, List.take_of_length_le]
    omega
  | cons id ids ih =>
    have happend : picked ++ id :: ids = (picked ++ [id]) ++ ids := by simp
    rw [collect, happend]
    by_cases hdone : k ≤ (picked ++ [id]).length
    · have hlen : (picked ++ [id]).length = k.toNat := by
        rw [List.length_append, List.length_singleton] at hdone ⊢
        omega
      rw [if_pos hdone, ← hlen, List.take_left]
    · rw [if_neg hdone]
      exact ih (by omega)

/-- The state after one worker is told to stop. -/
def stopped (s : Service) (id : ℤ) (c : ℕ) : Service :=
  { s with
    chans := s.chans.set c { buffered := 1, closed := true }
    workerChannels := s.workerChannels.delete id }

theorem stop_cons {id : ℤ} {c : ℕ} {ids : List ℤ} (h : Registered s)
    (he : (id, c) ∈ s.workerChannels) : stop (id :: ids) s = stop ids (s.stopped id c) := by
  obtain ⟨hopen, -⟩ := h.open_of_mem he
  have hlt : c < s.chans.length := (List.getElem?_eq_some_iff.mp hopen).1
  have hlookup : s.workerChannels.get? id = some c := KeyedMap.get?_of_mem h.ids he
  have hsend : s.send (some c) = .ok { s with chans := s.chans.set c { buffered := 1 } } := by
    simp [send, hopen]
  simp [stop, hlookup, hsend, close, bind, Except.bind, List.getElem?_set_self hlt, stopped]

theorem told_stopped {id : ℤ} {c : ℕ} {g : Goroutine} (hlt : c < s.chans.length) :
    (s.stopped id c).told g = (s.told g || g.stopChan = c) := by
  unfold told stopped
  by_cases hc : g.stopChan = c
  · simp [hc, List.getElem?_set_self hlt]
  · simp [hc, List.getElem?_set_ne (Ne.symm hc)]

theorem registered_stopped {id : ℤ} {c : ℕ} (h : Registered s)
    (he : (id, c) ∈ s.workerChannels) : Registered (s.stopped id c) := by
  obtain ⟨hopen, g₀, hg₀, hid₀, hc₀⟩ := h.open_of_mem he
  have hlt : c < s.chans.length := (List.getElem?_eq_some_iff.mp hopen).1
  refine ⟨?_, fun g hg hg' => ?_, ?_, ?_, fun chan hchan => ?_⟩
  · simp [stopped, h.stopChans]
  · rw [told_stopped hlt, Bool.or_eq_false_iff] at hg'
    exact h.running g hg hg'.1
  · have hserving : (s.stopped id c).serving = s.serving.filter fun g => g.stopChan ≠ c := by
      unfold serving
      rw [List.filter_filter]
      refine List.filter_congr fun g _ => ?_
      rw [told_stopped hlt]
      by_cases hc : g.stopChan = c <;> simp [hc]
    -- Among the registered workers an id and a channel determine each other.
    have hsame : ∀ g ∈ s.serving, (g.id ≠ id ↔ g.stopChan ≠ c) := by
      intro g hg
      have hentry : (g.id, g.stopChan) ∈ s.workerChannels :=
        h.entries.mem_iff.mpr (List.mem_map_of_mem hg)
      refine not_congr ⟨fun hid => ?_, fun hc => ?_⟩
      · exact congrArg Prod.snd (List.inj_on_of_nodup_map h.ids hentry he hid)
      · have hg₁ := List.inj_on_of_nodup_map h.distinct (List.mem_of_mem_filter hg) hg₀
          (hc.trans hc₀.symm)
        rw [hg₁, hid₀]
    have hentries := h.entries.filter fun e => decide (e.1 ≠ id)
    rw [List.filter_map] at hentries
    rw [hserving]
    refine hentries.trans (List.Perm.of_eq (congrArg _ ?_))
    exact List.filter_congr fun g hg => decide_eq_decide.mpr (hsame g hg)
  · exact h.ids.sublist (List.filter_sublist.map Prod.fst)
  · rcases List.mem_or_eq_of_mem_set hchan with hchan | rfl
    · exact h.closed chan hchan
    · exact Or.inr rfl

/-- Workers that are told to stop leave the map one by one. -/
theorem stop_spec {picked : List ℤ} (h : Registered s) (hids : picked.Nodup)
    (hmem : ∀ id ∈ picked, id ∈ s.ids) :
    ∃ t, stop picked s = .ok t ∧ Registered t ∧ t.goroutines = s.goroutines ∧
      t.activeWorkers = s.activeWorkers ∧
      t.workerChannels.length + picked.length = s.workerChannels.length ∧
      ∀ g ∈ s.goroutines, s.told g = true → t.told g = true := by
  induction picked generalizing s with
  | nil => exact ⟨s, rfl, h, rfl, rfl, rfl, fun _ _ h => h⟩
  | cons id picked ih =>
    obtain ⟨hnot, hrest⟩ := List.nodup_cons.mp hids
    obtain ⟨⟨id', c⟩, he, rfl⟩ := List.mem_map.mp (hmem id List.mem_cons_self)
    have hlt : c < s.chans.length :=
      (List.getElem?_eq_some_iff.mp (h.open_of_mem he).1).1
    have hleft : ∀ x ∈ picked, x ∈ (s.stopped id' c).ids := by
      intro x hx
      obtain ⟨e, hein, hex⟩ := List.mem_map.mp (hmem x (List.mem_cons_of_mem _ hx))
      refine List.mem_map.mpr ⟨e, List.mem_filter.mpr ⟨hein, ?_⟩, hex⟩
      have hne : e.1 ≠ id' := fun hkey => hnot (hkey ▸ hex ▸ hx)
      simpa using hne
    obtain ⟨t, hstop, hreg, hgo, hactive, hlen, htold⟩ :=
      ih (registered_stopped h he) hrest hleft
    refine ⟨t, (stop_cons h he).trans hstop, hreg, hgo, hactive, ?_, fun g hg hg' => ?_⟩
    · have hone := KeyedMap.length_delete h.ids (List.mem_map_of_mem he)
      change _ + (picked.length + 1) = _
      change _ + _ = (s.workerChannels.delete id').length at hlen
      dsimp only at hone
      omega
    · exact htold g hg (by rw [told_stopped hlt, hg', Bool.true_or])

/-- Exactly as many workers are told to stop as leave the count. -/
theorem length_signalled (hs : Registered s) (ht : Registered t)
    (hgo : t.goroutines = s.goroutines)
    (htold : ∀ g ∈ s.goroutines, s.told g = true → t.told g = true) :
    (signalled s t).length + t.workerChannels.length = s.workerChannels.length := by
  have huntold : ∀ {u : Service}, Registered u →
      u.workerChannels.length = u.goroutines.countP fun g => !u.told g := by
    intro u hu
    rw [← hu.length_serving, serving, ← List.countP_eq_length_filter]
    refine List.countP_congr fun g hg => ?_
    cases hg' : u.told g with
    | true => simp
    | false => simp [hu.running g hg hg']
  rw [huntold hs, huntold ht, hgo, signalled, ← List.countP_eq_length_filter,
    List.countP_eq_countP_filter_add s.goroutines (fun g => !s.told g) (fun g => t.told g),
    List.countP_filter, List.countP_filter]
  refine congrArg₂ _ rfl (List.countP_congr fun g hg => ?_)
  have := htold g hg
  cases hs' : s.told g <;> cases ht' : t.told g <;> simp_all

theorem scaleDown_spec {range : Range ℤ} {target : ℤ} (h : Registered s)
    (hactive : s.activeWorkers = s.workerChannels.length)
    (hmin : cfg.MinWorkerCount ≤ target) (hpos : 0 ≤ target) (htarget : target < s.activeWorkers) :
    ∃ t, scaleDown cfg range target s = .ok t ∧ Registered t ∧ t.activeWorkers = target ∧
      t.activeWorkers = t.workerChannels.length ∧ Scaled s t := by
  set picked := collect (s.activeWorkers - target) [] (range.order s.ids) with hpicked
  have htake : picked = (range.order s.ids).take (s.activeWorkers - target).toNat :=
    collect_eq_take (by rw [List.length_nil]; omega)
  have hlen : picked.length = (s.activeWorkers - target).toNat := by
    rw [htake, List.length_take, (range.perm s.ids).length_eq, ids, KeyedMap.length_keys]
    omega
  have hnodup : picked.Nodup := by
    rw [htake]
    exact ((range.perm s.ids).nodup_iff.mpr h.ids).sublist (List.take_sublist _ _)
  have hmem : ∀ id ∈ picked, id ∈ s.ids := by
    rw [htake]
    exact fun id hid => (range.perm s.ids).mem_iff.mp (List.mem_of_mem_take hid)
  obtain ⟨t, hstop, hreg, hgo, hsame, hleft, htold⟩ := stop_spec h hnodup hmem
  refine ⟨{ t with activeWorkers := target }, ?_, ?_, rfl, ?_, ?_⟩
  · rw [scaleDown, if_neg (by omega)]
    simp only [if_neg (show ¬ s.activeWorkers - target < 0 by omega), ← hpicked, hstop, bind,
      Except.bind, pure, Except.pure, hsame]
    simp
  · exact ⟨hreg.stopChans, hreg.running, hreg.entries, hreg.ids, hreg.closed⟩
  · change target = (t.workerChannels.length : ℤ)
    omega
  · refine ⟨⟨[], ?_, ?_, List.nodup_nil, nofun⟩, ?_, h.distinct⟩
    · rw [List.append_nil]
      exact hgo
    · change (0 : ℤ) = max 0 (target - s.activeWorkers)
      omega
    · have hsignalled := length_signalled h hreg hgo htold
      change ((signalled s t).length : ℤ) = max 0 (s.activeWorkers - target)
      omega

/-! ## Runs of the pool -/

structure Good (cfg : Config) (s : Service) : Prop extends Registered s where
  count : s.activeWorkers = s.workerChannels.length
  min_le : cfg.MinWorkerCount ≤ s.activeWorkers
  le_max : s.activeWorkers ≤ cfg.MaxWorkerCount

theorem Good.consistent (h : Good cfg s) : Consistent cfg s :=
  ⟨h.count, by rw [h.count, h.toRegistered.length_serving], h.min_le, h.le_max⟩

theorem clamp_mem (hmax : cfg.MinWorkerCount ≤ cfg.MaxWorkerCount) (n : ℤ) :
    cfg.MinWorkerCount ≤ clamp cfg n ∧ clamp cfg n ≤ cfg.MaxWorkerCount := by
  simp only [clamp]
  split_ifs <;> omega

theorem Scaled.refl (h : Registered s) : Scaled s s :=
  ⟨⟨[], by simp⟩, by simp [Service.signalled], h.distinct⟩

/-- From an empty pool or from a pool within its bounds. -/
theorem scaleWorkers_spec (hmin : 1 ≤ cfg.MinWorkerCount)
    (hmax : cfg.MinWorkerCount ≤ cfg.MaxWorkerCount) (range : Range ℤ) (n : ℤ) (h : Registered s)
    (hcount : s.activeWorkers = s.workerChannels.length) :
    ∃ t, scaleWorkers cfg range n s = .ok t ∧ Good cfg t ∧ Scaled s t := by
  obtain ⟨hlow, hhigh⟩ := clamp_mem hmax n
  simp only [scaleWorkers]
  by_cases hsame : clamp cfg n = s.activeWorkers
  · rw [if_pos hsame]
    exact ⟨s, rfl, ⟨h, hcount, by omega, by omega⟩, Scaled.refl h⟩
  · rw [if_neg hsame]
    by_cases hup : s.activeWorkers < clamp cfg n
    · rw [if_pos hup]
      obtain ⟨hreg, hactive, hchannels, hscaled⟩ := scaleUp_spec h hup
      exact ⟨_, rfl, ⟨hreg, by omega, by omega, by omega⟩, hscaled⟩
    · rw [if_neg hup]
      obtain ⟨t, hdown, hreg, hactive, hcount', hscaled⟩ :=
        scaleDown_spec h hcount hlow (by omega) (by omega)
      exact ⟨t, hdown, ⟨hreg, hcount', by omega, by omega⟩, hscaled⟩

theorem evaluateScaling_spec (hmin : 1 ≤ cfg.MinWorkerCount)
    (hmax : cfg.MinWorkerCount ≤ cfg.MaxWorkerCount) (range : Range ℤ) (queueSize : Int64)
    (h : Good cfg s) :
    ∃ t, evaluateScaling beyond cfg range queueSize s = .ok t ∧ Good cfg t ∧ Scaled s t := by
  simp only [evaluateScaling]
  split_ifs
  · exact scaleWorkers_spec hmin hmax range _ h.toRegistered h.count
  · exact scaleWorkers_spec hmin hmax range _ h.toRegistered h.count
  · exact ⟨s, rfl, h, Scaled.refl h.toRegistered⟩
  · exact ⟨s, rfl, h, Scaled.refl h.toRegistered⟩

/-- The state after the worker at `i` received from its channel and returned. -/
def returned (s : Service) (i : ℕ) (g : Goroutine) (chan : Chan) : Service :=
  { s with
    goroutines := s.goroutines.set i { g with running := false }
    chans := s.chans.set g.stopChan { chan with buffered := chan.buffered - 1 } }

theorem exit_cases {i : ℕ} (ht : s.exit i = some t) :
    ∃ g chan, s.goroutines[i]? = some g ∧ s.chans[g.stopChan]? = some chan ∧
      s.told g = true ∧ t = s.returned i g chan := by
  unfold exit at ht
  obtain ⟨g, hg, ht⟩ := Option.bind_eq_some_iff.mp ht
  obtain ⟨chan, hchan, ht⟩ := Option.bind_eq_some_iff.mp ht
  split at ht
  · rename_i hstop
    exact ⟨g, chan, hg, hchan, (Bool.and_eq_true_iff.mp hstop).2, (Option.some.inj ht).symm⟩
  · cases ht

theorem told_returned {i : ℕ} {g : Goroutine} {chan : Chan} (hchan : s.chans[g.stopChan]? = some chan)
    (hclosed : chan.closed = true) (x : Goroutine) : (s.returned i g chan).told x = s.told x := by
  have hlt : g.stopChan < s.chans.length := (List.getElem?_eq_some_iff.mp hchan).1
  unfold told returned
  by_cases hx : x.stopChan = g.stopChan
  · simp [hx, List.getElem?_set_self hlt, hclosed, hchan]
  · simp [List.getElem?_set_ne (Ne.symm hx)]

theorem filter_set {α : Type*} {p : α → Bool} {l : List α} {i : ℕ} {x y : α}
    (hx : l[i]? = some x) (hpx : p x = false) (hpy : p y = false) :
    (l.set i y).filter p = l.filter p := by
  induction l generalizing i with
  | nil => rfl
  | cons z l ih =>
    cases i with
    | zero =>
      obtain rfl : z = x := by simpa using hx
      simp [hpx, hpy]
    | succ i => rw [List.set_cons_succ, List.filter_cons, List.filter_cons, ih (by simpa using hx)]

/-- A worker that returns was told to, so nothing registered changes. -/
theorem good_exit {i : ℕ} (h : Good cfg s) (ht : s.exit i = some t) : Good cfg t := by
  obtain ⟨g, chan, hg, hchan, htold, rfl⟩ := exit_cases ht
  have hclosed : chan.closed = true := by
    refine (h.closed chan (List.mem_of_getElem? hchan)).resolve_left fun hopen => ?_
    rw [told, hchan, hopen] at htold
    cases htold
  have hsame := told_returned (i := i) hchan hclosed
  refine ⟨⟨?_, fun x hx hx' => ?_, ?_, h.ids, fun x hx => ?_⟩, h.count, h.min_le, h.le_max⟩
  · have hlen : (s.returned i g chan).chans.length = s.chans.length := List.length_set
    have hmap : (s.returned i g chan).goroutines.map Goroutine.stopChan =
        s.goroutines.map Goroutine.stopChan := by
      obtain ⟨hi, rfl⟩ := List.getElem?_eq_some_iff.mp hg
      refine List.ext_getElem (by simp [returned]) fun k _ _ => ?_
      by_cases hk : i = k
      · simp [returned, hk]
      · simp [returned, List.getElem_set_ne hk]
    rw [hlen, hmap]
    exact h.stopChans
  · rw [hsame] at hx'
    rcases List.mem_or_eq_of_mem_set hx with hx | rfl
    · exact h.running x hx hx'
    · exact absurd htold (by rw [show s.told g = false from hx']; decide)
  · have hserving : (s.returned i g chan).serving = s.serving := by
      unfold serving
      rw [List.filter_congr fun x _ => by rw [hsame x]]
      exact filter_set hg (by simp [htold]) rfl
    rw [hserving]
    exact h.entries
  · rcases List.mem_or_eq_of_mem_set hx with hx | rfl
    · exact h.closed x hx
    · exact Or.inr hclosed

theorem good_step {a : Label} (hmin : 1 ≤ cfg.MinWorkerCount)
    (hmax : cfg.MinWorkerCount ≤ cfg.MaxWorkerCount) (h : Good cfg s)
    (ht : step beyond cfg s a = some t) : Good cfg t := by
  cases a with
  | evaluateScaling range queueSize =>
    obtain ⟨u, hu, hgood, -⟩ := evaluateScaling_spec beyond hmin hmax range queueSize h
    rw [step, hu] at ht
    cases ht
    exact hgood
  | exit i => exact good_exit h ht

/-- Whatever the queue sizes, the scale factor and the order in which maps are visited, no
scaling faults and the three representations of the pool stay in step. -/
theorem pool_consistent (hmin : 1 ≤ cfg.MinWorkerCount)
    (hmax : cfg.MinWorkerCount ≤ cfg.MaxWorkerCount) (range : Range ℤ) :
    ∃ s₀, scaleWorkers cfg range cfg.InitialWorkerCount {} = .ok s₀ ∧ Scaled {} s₀ ∧
      ∀ as s, Runs.run (step beyond cfg) s₀ as = some s →
        Consistent cfg s ∧
          (∀ range queueSize, ∃ t, evaluateScaling beyond cfg range queueSize s = .ok t ∧
            Scaled s t) ∧
          ∀ range target, cfg.MinWorkerCount ≤ target → target < s.activeWorkers →
            ∃ t, scaleDown cfg range target s = .ok t ∧ t.activeWorkers = target ∧
              Scaled s t := by
  obtain ⟨s₀, hstart, hgood, hscaled⟩ :=
    scaleWorkers_spec hmin hmax range cfg.InitialWorkerCount registered_empty rfl
  refine ⟨s₀, hstart, hscaled, fun as s hrun => ?_⟩
  have h : Good cfg s := Runs.run_invariant (fun _ _ _ => good_step beyond hmin hmax) hgood hrun
  refine ⟨h.consistent, fun range queueSize => ?_, fun range target hlow hlt => ?_⟩
  · obtain ⟨t, ht, -, hscaled⟩ := evaluateScaling_spec beyond hmin hmax range queueSize h
    exact ⟨t, ht, hscaled⟩
  · obtain ⟨t, ht, -, hactive, -, hscaled⟩ :=
      scaleDown_spec h.toRegistered h.count hlow (by omega) hlt
    exact ⟨t, ht, hactive, hscaled⟩

/-- Two workers, then four under a queue of twenty, of which two leave an empty one. -/
theorem default_pool_consistent :
    ∃ s, (do
      let s ← scaleWorkers DefaultConfig Range.inOrder DefaultConfig.InitialWorkerCount {}
      let s ← evaluateScaling (fun _ => 0) DefaultConfig Range.inOrder 20 s
      evaluateScaling (fun _ => 0) DefaultConfig Range.inOrder 0 s) = .ok s ∧
      s.ids = [2, 3] ∧ Consistent DefaultConfig s := by
  obtain ⟨s₀, hstart, -, hrun⟩ :=
    @pool_consistent (fun _ => 0) DefaultConfig (by decide) (by decide) Range.inOrder
  cases hstart
  exact ⟨_, rfl, by decide, (hrun [.evaluateScaling Range.inOrder 20,
    .evaluateScaling Range.inOrder 0] _ rfl).1⟩

end Service

end BatAudit.Worker
