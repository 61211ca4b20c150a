import Mathlib.Data.List.DropRight
import Mathlib.Data.List.Nodup
import Mathlib.Data.List.Dedup
import Mathlib.Data.List.Lex
import Mathlib.Data.Char

/-!
# Headers and requests of the Fetch standard

A `Headers` object has a list of headers in which a name may occur more than once. It is read
by name, in any letter case, with the values of a name joined. What the constructors of
`Headers` and `Request` make of their arguments is given here; that they throw a `TypeError`
is `none`. The parts of a request that no header is written into are left to the platform.
-/

namespace Fetch

abbrev Text := List Char

/-! ## Names and values -/

def lowerChar (c : Char) : Char := if 'A' ≤ c ∧ c ≤ 'Z' then Char.ofNat (c.toNat + 32) else c

def lower (s : Text) : Text := s.map lowerChar

/-- Letters, digits and the fifteen marks of a token. -/
def isTokenChar (c : Char) : Bool :=
  ('a' ≤ c && c ≤ 'z') || ('A' ≤ c && c ≤ 'Z') || ('0' ≤ c && c ≤ '9') ||
    c.toNat ∈ [33, 35, 36, 37, 38, 39, 42, 43, 45, 46, 94, 95, 96, 124, 126]

def isName (s : Text) : Bool := s ≠ [] && s.all isTokenChar

def isWhitespace (c : Char) : Bool := c = '\t' || c = '\n' || c = '\r' || c = ' '

def normalize (s : Text) : Text := (s.dropWhile isWhitespace).rdropWhile isWhitespace

/-- A byte string without NUL and ends of line. -/
def isValue (s : Text) : Bool :=
  s.all fun c => c.toNat < 256 && c ≠ '\x00' && c ≠ '\n' && c ≠ '\r'

theorem toNat_ofNat {n : ℕ} (h : n < 0xD800) : (Char.ofNat n).toNat = n := by
  have hvalid : n.isValidChar := Or.inl h
  unfold Char.ofNat
  rw [dif_pos hvalid]
  rfl

theorem lowerChar_lowerChar (c : Char) : lowerChar (lowerChar c) = lowerChar c := by
  unfold lowerChar
  by_cases h : 'A' ≤ c ∧ c ≤ 'Z'
  · rw [if_pos h]
    have hlow : 65 ≤ c.toNat := h.1
    have hhigh : c.toNat ≤ 90 := h.2
    refine if_neg fun hup => ?_
    have hnat : (Char.ofNat (c.toNat + 32)).toNat = c.toNat + 32 := toNat_ofNat (by omega)
    have hle : (Char.ofNat (c.toNat + 32)).toNat ≤ 90 := hup.2
    omega
  · rw [if_neg h, if_neg h]

theorem lower_lower (s : Text) : lower (lower s) = lower s := by
  simp [lower, Function.comp_def, lowerChar_lowerChar]

theorem normalize_normalize (s : Text) : normalize (normalize s) = normalize s := by
  have hfront : (normalize s).dropWhile isWhitespace = normalize s := by
    unfold normalize
    generalize hs : s.dropWhile isWhitespace = t
    have hhead := List.head?_dropWhile_not isWhitespace s
    rw [hs] at hhead
    cases hr : t.rdropWhile isWhitespace with
    | nil => rfl
    | cons c u =>
      obtain ⟨v, hv⟩ := List.rdropWhile_prefix isWhitespace (l := t)
      rw [hr] at hv
      rw [← hv] at hhead
      exact List.dropWhile_cons_of_neg (by simpa using hhead)
  rw [normalize, hfront, normalize, List.rdropWhile_idempotent]

theorem normalize_eq_self {s : Text} (h : ∀ c ∈ s, isWhitespace c = false) : normalize s = s := by
  have hfront : s.dropWhile isWhitespace = s := by
    cases s with
    | nil => rfl
    | cons c s => exact List.dropWhile_cons_of_neg (by simp [h c (List.mem_cons_self ..)])
  rw [normalize, hfront, List.rdropWhile_eq_self_iff]
  intro hne
  simp [h _ (List.getLast_mem hne)]

/-! ## Headers -/

/-- Names are kept in lower case. -/
structure Header where
  name : Text
  value : Text
  lower_name : lower name = name
  isName_name : isName name = true
  normalize_value : normalize value = value
  isValue_value : isValue value = true
deriving DecidableEq

/-- `none` is a `TypeError`. -/
def Header.make? (name value : Text) : Option Header :=
  if h : isName (lower name) = true ∧ isValue (normalize value) = true then
    some ⟨lower name, normalize value, lower_lower name, h.1, normalize_normalize value, h.2⟩
  else none

abbrev HeaderList := List Header

def values (hs : HeaderList) (name : Text) : List Text :=
  (hs.filter fun h => h.name = name).map Header.value

def join : List Text → Text
  | [] => []
  | [v] => v
  | v :: vs => v ++ ',' :: ' ' :: join vs

/-- What is read when a name has these values. -/
def combine (vs : List Text) : Option Text := if vs = [] then none else some (join vs)

def get (hs : HeaderList) (name : Text) : Option Text := combine (values hs name)

/-- Which header a list does not take, from the name, the value it has and the new one. -/
abbrev Guard := Text → Option Text → Text → Bool

def appendHeader (g : Guard) (hs : HeaderList) (h : Header) : HeaderList :=
  if g h.name (get hs h.name) h.value then hs else hs ++ [h]

def appendAll (g : Guard) (hs : HeaderList) : HeaderList := hs.foldl (appendHeader g) []

/-- `set`. -/
def set (hs : HeaderList) (h : Header) : HeaderList := hs.filter (fun x => x.name ≠ h.name) ++ [h]

/-! ### Values under a name -/

def appendValue (g : Option Text → Text → Bool) (vs : List Text) (v : Text) : List Text :=
  if g (combine vs) v then vs else vs ++ [v]

/-- The values that are taken one after the other. -/
def appendValues (g : Option Text → Text → Bool) (vs : List Text) : List Text :=
  vs.foldl (appendValue g) []

@[simp] theorem values_nil (name : Text) : values [] name = [] := rfl

theorem values_cons (h : Header) (hs : HeaderList) (name : Text) :
    values (h :: hs) name = if h.name = name then h.value :: values hs name else values hs name := by
  by_cases hname : h.name = name
  · simp [values, hname]
  · simp [values, hname]

theorem values_append (hs hs' : HeaderList) (name : Text) :
    values (hs ++ hs') name = values hs name ++ values hs' name := by
  simp [values]

theorem values_appendHeader (g : Guard) (hs : HeaderList) (h : Header) (name : Text) :
    values (appendHeader g hs h) name =
      if h.name = name then appendValue (g name) (values hs name) h.value else values hs name := by
  unfold appendHeader appendValue get
  by_cases hname : h.name = name
  · subst hname
    rw [if_pos rfl]
    split_ifs
    · rfl
    · rw [values_append, values_cons, if_pos rfl, values_nil]
  · rw [if_neg hname]
    split_ifs
    · rfl
    · rw [values_append, values_cons, if_neg hname, values_nil, List.append_nil]

theorem values_foldl_appendHeader (g : Guard) (hs acc : HeaderList) (name : Text) :
    values (hs.foldl (appendHeader g) acc) name =
      (values hs name).foldl (appendValue (g name)) (values acc name) := by
  induction hs generalizing acc with
  | nil => rfl
  | cons h hs ih =>
    rw [List.foldl_cons, ih, values_appendHeader, values_cons]
    split_ifs with hname
    · rw [List.foldl_cons]
    · rfl

/-- A guard looks at one name at a time. -/
theorem values_appendAll (g : Guard) (hs : HeaderList) (name : Text) :
    values (appendAll g hs) name = appendValues (g name) (values hs name) :=
  values_foldl_appendHeader g hs [] name

theorem values_set (hs : HeaderList) (h : Header) (name : Text) :
    values (set hs h) name = if h.name = name then [h.value] else values hs name := by
  rw [set, values_append, values_cons]
  by_cases hname : h.name = name
  · have hnone : values (hs.filter fun x => x.name ≠ h.name) name = [] := by
      rw [values, List.filter_filter, ← hname]
      simp
    rw [hnone, if_pos hname, if_pos hname, values_nil, List.nil_append]
  · have hsame : values (hs.filter fun x => x.name ≠ h.name) name = values hs name := by
      rw [values, values, List.filter_filter]
      congr 1
      refine List.filter_congr fun x _ => ?_
      by_cases hx : x.name = name
      · simp [hx, Ne.symm hname]
      · simp [hx]
    rw [hsame, if_neg hname, if_neg hname, values_nil, List.append_nil]

theorem values_ne_nil {hs : HeaderList} {name : Text} :
    values hs name ≠ [] ↔ name ∈ hs.map Header.name := by
  simp [values, List.filter_eq_nil_iff]

/-! ## What headers can be given as -/

inductive HeadersInit
  | headers (hs : HeaderList)
  | record (entries : List (Text × Text))
  | pairs (ps : List (List Text))

/-- A pair of a sequence has two members. -/
def pair? : List Text → Option (Text × Text)
  | [name, value] => some (name, value)
  | _ => none

def makeAll (entries : List (Text × Text)) : Option HeaderList :=
  entries.mapM fun e => Header.make? e.1 e.2

def setCookie : Text := "set-cookie".toList

/-- A `Headers` object read in turn: sorted by name, with the values of each name joined. -/
def sortAndCombine (hs : HeaderList) : List (Text × Text) :=
  ((hs.map Header.name).dedup.mergeSort fun a b => a ≤ b).flatMap fun name =>
    if name = setCookie then (values hs name).map fun v => (name, v)
    else [(name, join (values hs name))]

/-- The entries that are appended to the headers of a new request. -/
def HeadersInit.list : HeadersInit → Option HeaderList
  | .headers hs => some hs
  | .record entries => makeAll entries
  | .pairs ps => (ps.mapM pair?).bind makeAll

/-- `new Headers(init)` reads a `Headers` object like any other sequence of pairs. -/
def newHeaders : Option HeadersInit → Option HeaderList
  | none => some []
  | some (.headers hs) => makeAll (sortAndCombine hs)
  | some init => init.list

theorem Header.make?_eq_some {name value : Text} {h : Header} (hmake : make? name value = some h) :
    h.name = lower name ∧ h.value = normalize value := by
  unfold make? at hmake
  split at hmake
  · cases hmake
    exact ⟨rfl, rfl⟩
  · cases hmake

theorem makeAll_cons {e : Text × Text} {es : List (Text × Text)} {hs : HeaderList} :
    makeAll (e :: es) = some hs ↔
      ∃ h hs', Header.make? e.1 e.2 = some h ∧ makeAll es = some hs' ∧ hs = h :: hs' := by
  rw [makeAll, List.mapM_cons]
  constructor
  · intro h
    obtain ⟨h, hh, hrest⟩ := Option.bind_eq_some_iff.mp h
    obtain ⟨hs', hhs', hrest⟩ := Option.bind_eq_some_iff.mp hrest
    exact ⟨h, hs', hh, hhs', (Option.some.inj hrest).symm⟩
  · rintro ⟨h, hs', hh, hhs', rfl⟩
    rw [makeAll] at hhs'
    simp [hh, hhs']

theorem isValue_of_makeAll {es : List (Text × Text)} {hs : HeaderList} (hmake : makeAll es = some hs) :
    ∀ e ∈ es, isValue (normalize e.2) = true := by
  induction es generalizing hs with
  | nil => nofun
  | cons e es ih =>
    rw [makeAll_cons] at hmake
    obtain ⟨h, hs', he, hes, -⟩ := hmake
    intro e' he'
    rcases List.mem_cons.mp he' with rfl | he'
    · rw [← (Header.make?_eq_some he).2]
      exact h.isValue_value
    · exact ih hes e' he'

theorem values_makeAll {es : List (Text × Text)} {hs : HeaderList} (hmake : makeAll es = some hs)
    (name : Text) :
    values hs name = (es.filter fun e => lower e.1 = name).map fun e => normalize e.2 := by
  induction es generalizing hs with
  | nil =>
    cases hmake
    rfl
  | cons e es ih =>
    rw [makeAll_cons] at hmake
    obtain ⟨h, hs', he, hes, rfl⟩ := hmake
    obtain ⟨hname, hvalue⟩ := Header.make?_eq_some he
    rw [values_cons, ih hes, hname, hvalue]
    by_cases heq : lower e.1 = name
    · simp [heq]
    · simp [heq]

theorem makeAll_isSome {es : List (Text × Text)}
    (h : ∀ e ∈ es, isName (lower e.1) = true ∧ isValue (normalize e.2) = true) :
    ∃ hs, makeAll es = some hs := by
  induction es with
  | nil => exact ⟨[], rfl⟩
  | cons e es ih =>
    obtain ⟨hs, hhs⟩ := ih fun e' he' => h e' (List.mem_cons_of_mem e he')
    have he : Header.make? e.1 e.2 = some _ := dif_pos (h e (List.mem_cons_self ..))
    exact ⟨_, makeAll_cons.mpr ⟨_, hs, he, hhs, rfl⟩⟩

theorem isValue_append {s t : Text} (hs : isValue s = true) (ht : isValue t = true) :
    isValue (s ++ t) = true := by
  rw [isValue, List.all_append, Bool.and_eq_true]
  exact ⟨hs, ht⟩

theorem isValue_join {vs : List Text} (h : ∀ v ∈ vs, isValue v = true) :
    isValue (join vs) = true := by
  induction vs with
  | nil => rfl
  | cons v vs ih =>
    have hrest := ih fun w hw => h w (List.mem_cons_of_mem v hw)
    cases vs with
    | nil => exact h v (List.mem_cons_self ..)
    | cons w vs => exact isValue_append (h v (List.mem_cons_self ..)) hrest

theorem isValue_normalize {s : Text} (h : isValue s = true) : isValue (normalize s) = true := by
  rw [isValue, List.all_eq_true] at h ⊢
  intro c hc
  have hfront := (List.rdropWhile_prefix isWhitespace (l := s.dropWhile isWhitespace)).subset hc
  exact h c ((List.dropWhile_suffix _).subset hfront)

theorem isValue_of_mem_values {hs : HeaderList} {name v : Text} (h : v ∈ values hs name) :
    isValue v = true ∧ normalize v = v := by
  obtain ⟨x, -, rfl⟩ := List.mem_map.mp h
  exact ⟨x.isValue_value, x.normalize_value⟩

theorem length_join_cons_cons (v w : Text) (vs : List Text) :
    (join (v :: w :: vs)).length = v.length + 2 + (join (w :: vs)).length := by
  simp only [join, List.length_append, List.length_cons]
  omega

theorem length_le_join {vs : List Text} {v : Text} (hmem : v ∈ vs) :
    v.length ≤ (join vs).length := by
  induction vs with
  | nil => cases hmem
  | cons w vs ih =>
    cases vs with
    | nil =>
      obtain rfl := List.mem_singleton.mp hmem
      exact Nat.le_refl _
    | cons u vs =>
      rw [length_join_cons_cons]
      rcases List.mem_cons.mp hmem with rfl | hmem
      · omega
      · have := ih hmem
        omega

/-- Values joined are longer than each of them, but for a single one. -/
theorem eq_singleton_of_join {vs : List Text} {v : Text} (hmem : v ∈ vs) (hjoin : join vs = v) :
    vs = [v] := by
  cases vs with
  | nil => cases hmem
  | cons w vs =>
    cases vs with
    | nil =>
      obtain rfl := List.mem_singleton.mp hmem
      rfl
    | cons u vs =>
      exfalso
      have hlength := congrArg List.length hjoin
      rw [length_join_cons_cons] at hlength
      rcases List.mem_cons.mp hmem with rfl | hmem
      · omega
      · have := length_le_join hmem
        omega

theorem combine_eq_none {vs : List Text} : combine vs = none ↔ vs = [] := by
  simp [combine]

/-- The values of a name after a `Headers` object was read. -/
def recombined (name : Text) (vs : List Text) : List Text :=
  if vs = [] then [] else if name = setCookie then vs else [normalize (join vs)]

theorem filter_flatMap_of_key {α κ : Type} [DecidableEq κ] {names : List κ} (hnodup : names.Nodup)
    {f : κ → List α} {key : α → κ} (hkey : ∀ n ∈ names, ∀ a ∈ f n, key a = n) (name : κ) :
    (names.flatMap f).filter (fun a => key a = name) = if name ∈ names then f name else [] := by
  induction names with
  | nil => rfl
  | cons n names ih =>
    obtain ⟨hn, hnodup⟩ := List.nodup_cons.mp hnodup
    rw [List.flatMap_cons, List.filter_append,
      ih hnodup fun m hm => hkey m (List.mem_cons_of_mem n hm)]
    have hhead := hkey n (List.mem_cons_self ..)
    by_cases heq : n = name
    · subst heq
      rw [List.filter_eq_self.mpr fun a ha => decide_eq_true (hhead a ha), if_neg hn,
        if_pos (List.mem_cons_self ..), List.append_nil]
    · have hnone : (f n).filter (fun a => key a = name) = [] :=
        List.filter_eq_nil_iff.mpr fun a ha => by simpa [hhead a ha] using heq
      rw [hnone, List.nil_append]
      simp [Ne.symm heq]

/-- The entries that `sortAndCombine` makes of one name. -/
def combinedEntries (hs : HeaderList) (name : Text) : List (Text × Text) :=
  if name = setCookie then (values hs name).map fun v => (name, v)
  else [(name, join (values hs name))]

theorem mem_combinedEntries {hs : HeaderList} {name : Text} {e : Text × Text}
    (he : e ∈ combinedEntries hs name) :
    e.1 = name ∧ isValue (normalize e.2) = true := by
  unfold combinedEntries at he
  split at he
  · obtain ⟨v, hv, rfl⟩ := List.mem_map.mp he
    exact ⟨rfl, isValue_normalize (isValue_of_mem_values hv).1⟩
  · obtain rfl := List.mem_singleton.mp he
    exact ⟨rfl, isValue_normalize (isValue_join fun v hv => (isValue_of_mem_values hv).1)⟩

theorem map_combinedEntries (hs : HeaderList) (name : Text) (hne : values hs name ≠ []) :
    (combinedEntries hs name).map (fun e => normalize e.2) = recombined name (values hs name) := by
  rw [combinedEntries, recombined, if_neg hne]
  split
  · rw [List.map_map]
    exact (List.map_congr_left fun v hv => (isValue_of_mem_values hv).2).trans (List.map_id _)
  · rfl

theorem values_newHeaders_headers (hs : HeaderList) :
    ∃ hs', newHeaders (some (.headers hs)) = some hs' ∧
      ∀ name, values hs' name = recombined name (values hs name) := by
  let names := (hs.map Header.name).dedup.mergeSort fun a b => a ≤ b
  have hperm : names.Perm (hs.map Header.name).dedup := List.mergeSort_perm _ _
  have hmem (name : Text) : name ∈ names ↔ values hs name ≠ [] := by
    rw [hperm.mem_iff, List.mem_dedup, values_ne_nil]
  have hname : ∀ name ∈ names, lower name = name ∧ isName name = true := by
    intro name hn
    obtain ⟨x, -, rfl⟩ := List.mem_map.mp (values_ne_nil.mp ((hmem name).mp hn))
    exact ⟨x.lower_name, x.isName_name⟩
  have hkey : ∀ n ∈ names, ∀ e ∈ combinedEntries hs n, lower e.1 = n := by
    intro n hn e he
    rw [(mem_combinedEntries he).1]
    exact (hname n hn).1
  have hvalid : ∀ e ∈ names.flatMap (combinedEntries hs),
      isName (lower e.1) = true ∧ isValue (normalize e.2) = true := by
    intro e he
    obtain ⟨n, hn, he⟩ := List.mem_flatMap.mp he
    rw [hkey n hn e he]
    exact ⟨(hname n hn).2, (mem_combinedEntries he).2⟩
  obtain ⟨hs', hmake⟩ := makeAll_isSome hvalid
  refine ⟨hs', hmake, fun name => ?_⟩
  rw [values_makeAll hmake, filter_flatMap_of_key (hperm.nodup_iff.mpr (List.nodup_dedup _)) hkey]
  split
  · rename_i hn
    exact map_combinedEntries hs name ((hmem name).mp hn)
  · rename_i hn
    rw [recombined, if_pos (not_not.mp (mt (hmem name).mpr hn))]
    rfl

/-! ## Requests -/

/-- `settings` are what is not part of the other fields: mode, credentials, referrer and so
on. -/
structure Request (β σ : Type) where
  url : Text
  method : Text
  headers : HeaderList
  body : Option β
  settings : σ

/-- A dictionary of which `rest` are the members that go into the settings. -/
structure RequestInit (β μ : Type) where
  method : Option Text := none
  headers : Option HeadersInit := none
  body : Option β := none
  rest : List μ := []

inductive Input (β σ : Type)
  | url (s : Text)
  | request (r : Request β σ)

/-- Names of which a guard looks at the value. -/
def valueGuarded : List Text :=
  ["accept", "accept-language", "content-language", "content-type", "x-http-method",
    "x-http-method-override", "x-method-override"].map String.toList

def contentTypeName : Text := "content-type".toList

/-- What a browser brings along. `reset` is what any member does to the settings of a
request that is given as input, and `apply` what a member does itself. -/
structure Platform (β σ μ : Type) where
  parseURL : Text → Option Text
  defaults : σ
  reset : σ → σ
  apply : σ → μ → Option σ
  guard : σ → Guard
  normalizeMethod : Text → Option Text
  contentType : β → Option Header
  accepts : σ → Text → Option β → Option β → Bool
  reset_defaults : reset defaults = defaults
  name_contentType : ∀ b h, contentType b = some h → h.name = contentTypeName
  guard_eq : ∀ s name, name ∉ valueGuarded → ∀ current current' value value',
    guard s name current value = guard s name current' value'

section

variable {β σ μ : Type} (P : Platform β σ μ)

def RequestInit.isEmpty (init : RequestInit β μ) : Bool :=
  init.method.isNone && init.headers.isNone && init.body.isNone && init.rest.isEmpty

def Input.base : Input β σ → Option (Request β σ)
  | .url s => (P.parseURL s).map fun url => ⟨url, "GET".toList, [], none, P.defaults⟩
  | .request r => some r

def settingsOf (r : Request β σ) (init : RequestInit β μ) : Option σ :=
  init.rest.foldlM P.apply (if init.isEmpty then r.settings else P.reset r.settings)

def methodOf (r : Request β σ) (init : RequestInit β μ) : Option Text :=
  match init.method with
  | none => some r.method
  | some m => P.normalizeMethod m

/-- The request that `init` makes of the one given as input, with its headers as they are. -/
def amend (r : Request β σ) (init : RequestInit β μ) : Option (Request β σ) := do
  let settings ← settingsOf P r init
  let method ← methodOf P r init
  let body := init.body.or r.body
  if body.isSome && (method = "GET".toList || method = "HEAD".toList) then none
  else if P.accepts settings method r.body init.body then
    some { r with method, body, settings }
  else none

/-- Headers given with `init` replace those of a request given as input. -/
def headersOf (g : Guard) (hs : HeaderList) (init : RequestInit β μ) : Option HeaderList :=
  if init.isEmpty then some hs
  else match init.headers with
    | none => some (appendAll g hs)
    | some h => h.list.map (appendAll g)

/-- The type of a body that is given with `init`, unless there is one. -/
def withContentType (g : Guard) (body : Option β) (hs : HeaderList) : HeaderList :=
  match body.bind P.contentType with
  | none => hs
  | some h => if values hs h.name = [] then appendHeader g hs h else hs

def fillHeaders (r : Request β σ) (init : RequestInit β μ) : Option (Request β σ) :=
  (headersOf (P.guard r.settings) r.headers init).map fun hs =>
    { r with headers := withContentType P (P.guard r.settings) init.body hs }

/-- `new Request(input, init)`, where no `init` is the empty one. -/
def newRequest (input : Input β σ) (init : RequestInit β μ) : Option (Request β σ) := do
  let base ← input.base P
  let r ← amend P base init
  fillHeaders P r init

theorem newRequest_eq_some {input : Input β σ} {init : RequestInit β μ} {q : Request β σ} :
    newRequest P input init = some q ↔ ∃ base r hs, input.base P = some base ∧
      amend P base init = some r ∧ headersOf (P.guard r.settings) r.headers init = some hs ∧
      q = { r with headers := withContentType P (P.guard r.settings) init.body hs } := by
  constructor
  · intro h
    obtain ⟨base, hbase, h⟩ := Option.bind_eq_some_iff.mp h
    obtain ⟨r, hr, h⟩ := Option.bind_eq_some_iff.mp h
    obtain ⟨hs, hhs, rfl⟩ := Option.map_eq_some_iff.mp h
    exact ⟨base, r, hs, hbase, hr, hhs, rfl⟩
  · rintro ⟨base, r, hs, hbase, hr, hhs, rfl⟩
    exact Option.bind_eq_some_iff.mpr ⟨base, hbase, Option.bind_eq_some_iff.mpr
      ⟨r, hr, Option.map_eq_some_iff.mpr ⟨hs, hhs, rfl⟩⟩⟩

theorem amend_congr (base : Request β σ) {init init' : RequestInit β μ}
    (hmethod : init.method = init'.method) (hbody : init.body = init'.body)
    (hrest : init.rest = init'.rest)
    (hreset : init.isEmpty = init'.isEmpty ∨ P.reset base.settings = base.settings) :
    amend P base init = amend P base init' := by
  have hsettings : settingsOf P base init = settingsOf P base init' := by
    rcases hreset with hempty | hreset
    · rw [settingsOf, settingsOf, hempty, hrest]
    · simp only [settingsOf, hreset, ite_self, hrest]
  simp only [amend, methodOf, hsettings, hmethod, hbody]

theorem settings_of_amend {base r : Request β σ} {init : RequestInit β μ}
    (h : amend P base init = some r) : settingsOf P base init = some r.settings := by
  obtain ⟨settings, hs, h⟩ := Option.bind_eq_some_iff.mp h
  obtain ⟨method, -, h⟩ := Option.bind_eq_some_iff.mp h
  dsimp only at h
  split at h
  · cases h
  · split at h
    · cases h
      exact hs
    · cases h

/-- The headers of a new request are taken when `new Headers` takes them. -/
theorem isSome_headersOf (g : Guard) (hs : HeaderList) (init : RequestInit β μ) :
    (headersOf g hs init).isSome = (newHeaders init.headers).isSome := by
  unfold headersOf
  split
  · rename_i hempty
    have hnone : init.headers = none := by
      simp only [RequestInit.isEmpty, Bool.and_eq_true, Option.isNone_iff_eq_none] at hempty
      exact hempty.1.1.2
    rw [hnone]
    rfl
  · cases hinit : init.headers with
    | none => rfl
    | some h =>
      cases h with
      | headers ks =>
        obtain ⟨ks', hnew, -⟩ := values_newHeaders_headers ks
        rw [hnew]
        rfl
      | record entries => exact Option.isSome_map
      | pairs ps => exact Option.isSome_map

/-- A type is added where there is none. -/
theorem get_withContentType (g : Guard) (body : Option β) (hs : HeaderList) (name : Text) :
    get (withContentType P g body hs) name =
      (get hs name).or (get (withContentType P g body []) name) := by
  unfold withContentType
  cases htype : body.bind P.contentType with
  | none => simp [get, combine]
  | some h =>
    dsimp only
    by_cases hname : h.name = name
    · subst hname
      by_cases hnone : values hs h.name = []
      · rw [if_pos hnone, if_pos (values_nil _), get, get, get, values_appendHeader, values_appendHeader,
          if_pos rfl, if_pos rfl, hnone, values_nil]
        rfl
      · rw [if_neg hnone]
        simp [get, combine, hnone]
    · have hother (ks : HeaderList) :
          get (if values ks h.name = [] then appendHeader g ks h else ks) name = get ks name := by
        split
        · rw [get, values_appendHeader, if_neg hname, get]
        · rfl
      rw [hother, hother]
      simp [get, combine]

end

end Fetch
