import BatAudit.Audit.Event
import BatAudit.Lib.Float64
import Mathlib.Data.List.Sort

/-!
# Sanitizing and masking

What happens to an event between binding and validation. Texts lose control characters and
are escaped for HTML. A JSON column is decoded, its strings and keys are sanitized, and it
is encoded again; a column that does not decode is left as it is. Masking then works on the
text of a column, not on the value.
-/

namespace BatAudit

open Json (Text Rune Tree StrLit)

/-! ## Texts -/

def isControl (c : Char) : Bool := c.toNat < 0x20 || c.toNat = 0x7F

/-- `html.EscapeString`, on one character. -/
def escapeChar (c : Char) : List Char :=
  if c = '&' then ['&', 'a', 'm', 'p', ';']
  else if c = '\x27' then ['&', '#', '3', '9', ';']
  else if c = '<' then ['&', 'l', 't', ';']
  else if c = '>' then ['&', 'g', 't', ';']
  else if c = '"' then ['&', '#', '3', '4', ';']
  else [c]

/-- `\s` of a regular expression. -/
def isBlank (c : Char) : Bool := c = '\t' || c = '\n' || c = '\x0c' || c = '\r' || c = ' '

/-- Every run of blanks becomes one space; the flag says that a run is going on. -/
def collapse : Bool → List Char → List Char
  | _, [] => []
  | inRun, c :: s =>
    if isBlank c then if inRun then collapse true s else ' ' :: collapse true s
    else c :: collapse false s

def sanitizeChars (input : List Char) : List Char :=
  collapse false ((GoText.trimSpace (input.filter fun c => !isControl c)).flatMap escapeChar)

def sanitizeString (input : String) : String := String.ofList (sanitizeChars input.toList)

def isEmailChar (c : Char) : Bool :=
  GoText.isAlnum c || c = '.' || c = '@' || c = '_' || c = '+' || c = '-'

def sanitizeEmail (email : String) : String :=
  String.ofList ((sanitizeChars email.toList).filter isEmailChar)

def isIPChar (c : Char) : Bool := GoText.isDigit c || c = '.' || c = ':'

def sanitizeIP (ip : String) : String :=
  String.ofList ((sanitizeChars ip.toList).filter isIPChar)

def sanitizeEnvironment (env : String) : String :=
  let env := String.ofList (GoText.toLower (sanitizeChars env.toList))
  if env = "prod" ∨ env = "production" then "production"
  else if env = "staging" ∨ env = "stage" ∨ env = "homolog" ∨ env = "homologation" then "staging"
  else if env = "dev" ∨ env = "development" then "development"
  else if env = "test" ∨ env = "testing" then "testing"
  else if env = "local" then "local"
  else "development"

/-! A sanitized text has no control character and does not end in a space. -/

theorem mem_collapse {inRun : Bool} {s : List Char} {c : Char} (h : c ∈ collapse inRun s) :
    c = ' ' ∨ c ∈ s := by
  induction s generalizing inRun with
  | nil => cases h
  | cons d s ih =>
    have hrest : ∀ {b : Bool}, c ∈ collapse b s → c = ' ' ∨ c ∈ d :: s :=
      fun hc => (ih hc).imp_right (List.mem_cons_of_mem d)
    rw [collapse] at h
    split_ifs at h
    · exact hrest h
    · rcases List.mem_cons.mp h with h | h
      · exact Or.inl h
      · exact hrest h
    · rcases List.mem_cons.mp h with h | h
      · exact Or.inr (List.mem_cons.mpr (Or.inl h))
      · exact hrest h

theorem collapse_concat (inRun : Bool) (s : List Char) {c : Char} (hc : isBlank c = false) :
    ∃ t, collapse inRun (s ++ [c]) = t ++ [c] := by
  induction s generalizing inRun with
  | nil => exact ⟨[], by simp [collapse, hc]⟩
  | cons d s ih =>
    obtain ⟨t, ht⟩ := ih true
    obtain ⟨u, hu⟩ := ih false
    rw [List.cons_append, collapse]
    split_ifs
    · exact ⟨t, ht⟩
    · exact ⟨' ' :: t, by rw [ht, List.cons_append]⟩
    · exact ⟨d :: u, by rw [hu, List.cons_append]⟩

theorem isControl_escapeChar {c d : Char} (hc : isControl c = false) (hd : d ∈ escapeChar c) :
    isControl d = false := by
  have hplain : ∀ {ds : List Char}, ds.all (fun d => !isControl d) = true → d ∈ ds →
      isControl d = false := fun h hd => by simpa using List.all_eq_true.mp h d hd
  unfold escapeChar at hd
  split_ifs at hd
  · exact hplain (by decide) hd
  · exact hplain (by decide) hd
  · exact hplain (by decide) hd
  · exact hplain (by decide) hd
  · exact hplain (by decide) hd
  · rwa [List.mem_singleton.mp hd]

theorem escapeChar_concat {c : Char} (hc : GoText.isSpace c = false) :
    ∃ t d, escapeChar c = t ++ [d] ∧ isBlank d = false := by
  have hblank : isBlank c = false := by
    apply (Bool.not_eq_true _).mp
    intro hb
    simp only [isBlank, Bool.or_eq_true, decide_eq_true_eq] at hb
    rcases hb with (((rfl | rfl) | rfl) | rfl) | rfl <;> revert hc <;> decide
  unfold escapeChar
  split_ifs
  · exact ⟨['&', 'a', 'm', 'p'], ';', rfl, rfl⟩
  · exact ⟨['&', '#', '3', '9'], ';', rfl, rfl⟩
  · exact ⟨['&', 'l', 't'], ';', rfl, rfl⟩
  · exact ⟨['&', 'g', 't'], ';', rfl, rfl⟩
  · exact ⟨['&', '#', '3', '4'], ';', rfl, rfl⟩
  · exact ⟨[], c, rfl, hblank⟩

theorem isControl_sanitizeChars {s : List Char} {c : Char} (h : c ∈ sanitizeChars s) :
    isControl c = false := by
  rcases mem_collapse h with rfl | h
  · decide
  · obtain ⟨d, hd, hc⟩ := List.mem_flatMap.mp h
    have hkept := List.mem_filter.mp (GoText.mem_of_mem_trimSpace hd)
    exact isControl_escapeChar (by simpa using hkept.2) hc

theorem getLast?_sanitizeChars (s : List Char) : (sanitizeChars s).getLast? ≠ some ' ' := by
  unfold sanitizeChars
  rcases GoText.trimSpace_eq_nil_or_concat (s.filter fun c => !isControl c) with
    hnil | ⟨t, c, ht, hc⟩
  · rw [hnil]
    decide
  · obtain ⟨u, d, hu, hd⟩ := escapeChar_concat hc
    obtain ⟨v, hv⟩ := collapse_concat false (t.flatMap escapeChar ++ u) hd
    have hflat : (t ++ [c]).flatMap escapeChar = t.flatMap escapeChar ++ u ++ [d] := by
      simp [hu]
    rw [ht, hflat, hv, List.getLast?_concat]
    intro h
    rw [Option.some.inj h] at hd
    revert hd
    decide

/-! Words and addresses are left as they are. -/

def isWordCode (n : ℕ) : Prop := (45 ≤ n ∧ n ≤ 58) ∨ (65 ≤ n ∧ n ≤ 122)

theorem plain_of_isWordCode {c : Char} (h : isWordCode c.toNat) :
    isControl c = false ∧ GoText.isSpace c = false ∧ isBlank c = false ∧ escapeChar c = [c] := by
  have hne : ∀ d : Char, ¬isWordCode d.toNat → c ≠ d := fun d hd heq => hd (heq ▸ h)
  unfold isWordCode at h hne
  refine ⟨?_, ?_, ?_, ?_⟩
  · have hlow : ¬c.toNat < 32 := by omega
    have hdel : ¬c.toNat = 127 := by omega
    simp [isControl, hlow, hdel]
  · simp only [GoText.isSpace, Bool.or_eq_false_iff, Bool.and_eq_false_iff, decide_eq_false_iff_not]
    omega
  · simp [isBlank, hne '\t' (by decide), hne '\n' (by decide), hne '\x0c' (by decide),
      hne '\r' (by decide), hne ' ' (by decide)]
  · simp [escapeChar, hne '&' (by decide), hne '\x27' (by decide), hne '<' (by decide),
      hne '>' (by decide), hne '"' (by decide)]

theorem collapse_eq_self {s : List Char} (h : ∀ c ∈ s, isBlank c = false) (inRun : Bool) :
    collapse inRun s = s := by
  induction s generalizing inRun with
  | nil => rfl
  | cons c s ih =>
    rw [collapse, if_neg (by simp [h c List.mem_cons_self]),
      ih (fun d hd => h d (List.mem_cons_of_mem c hd))]

theorem sanitizeChars_eq_self {s : List Char} (h : ∀ c ∈ s, isWordCode c.toNat) :
    sanitizeChars s = s := by
  have hfilter : (s.filter fun c => !isControl c) = s :=
    List.filter_eq_self.mpr fun c hc => by simp [(plain_of_isWordCode (h c hc)).1]
  have hescape : s.flatMap escapeChar = s := by
    induction s with
    | nil => rfl
    | cons c s ih =>
      have hs := fun d hd => h d (List.mem_cons_of_mem c hd)
      rw [List.flatMap_cons, (plain_of_isWordCode (h c List.mem_cons_self)).2.2.2,
        ih hs (List.filter_eq_self.mpr fun d hd => by simp [(plain_of_isWordCode (hs d hd)).1])]
      rfl
  rw [sanitizeChars, hfilter,
    GoText.trimSpace_eq_self fun c hc => (plain_of_isWordCode (h c hc)).2.1, hescape,
    collapse_eq_self fun c hc => (plain_of_isWordCode (h c hc)).2.2.1]

/-! ## Columns -/

/-- A value decoded into an empty interface. The keys of a map are distinct. -/
inductive GoValue
  | null
  | bool (b : Bool)
  | num (f : Float64)
  | str (s : List Char)
  | arr (items : List GoValue)
  | obj (entries : List (List Char × GoValue))

abbrev GoMap := List (List Char × GoValue)

def setKey (key : List Char) (v : GoValue) : GoMap → GoMap
  | [] => [(key, v)]
  | e :: m => if e.1 = key then (key, v) :: m else e :: setKey key v m

theorem setKey_cons (key : List Char) (v : GoValue) (e : List Char × GoValue) (m : GoMap) :
    setKey key v (e :: m) = if e.1 = key then (key, v) :: m else e :: setKey key v m := rfl

def lookupKey (key : List Char) (m : GoMap) : Option GoValue :=
  (m.find? fun e => e.1 = key).map Prod.snd

def deleteKey (key : List Char) (m : GoMap) : GoMap := m.filter fun e => e.1 ≠ key

mutual

/-- A number too large for a double is an error; of two equal keys the later stays. -/
def decodeValue : Tree → Option GoValue
  | .word .null => some .null
  | .word .true => some (.bool true)
  | .word .false => some (.bool false)
  | .num n => (Float64.parse n.raw).map .num
  | .str s => some (.str (Json.unquote s))
  | .arr items => (decodeItems items).map .arr
  | .obj members => (decodeEntries members []).map .obj

def decodeItems : List Tree → Option (List GoValue)
  | [] => some []
  | t :: ts => do
    let v ← decodeValue t
    let vs ← decodeItems ts
    return v :: vs

def decodeEntries : List (StrLit × Tree) → GoMap → Option GoMap
  | [], m => some m
  | e :: es, m => do
    let (key, v) ← decodeEntry e
    decodeEntries es (setKey key v m)

def decodeEntry : StrLit × Tree → Option (List Char × GoValue)
  | (k, t) => (decodeValue t).map fun v => (Json.unquote k, v)

end

/-- The order in which a run of the program ranges over the maps in a value, and in the
values it finds there. -/
inductive Plan
  | leaf
  | items (plans : List Plan)
  | visits (visits : List (List Char × Plan))

mutual

/-- `none` when no run ranges in the given order. -/
def sanitizeJSONValues : Plan → GoValue → Option GoValue
  | _, .null => some .null
  | _, .bool b => some (.bool b)
  | _, .num f => some (.num f)
  | _, .str s => some (.str (sanitizeChars s))
  | .items plans, .arr items => (sanitizeItems plans items).map .arr
  | .visits vs, .obj m => (sanitizeEntries vs (m.map Prod.fst) [] m).map .obj
  | _, _ => none

def sanitizeItems : List Plan → List GoValue → Option (List GoValue)
  | [], [] => some []
  | p :: ps, v :: vs => do
    let w ← sanitizeJSONValues p v
    let ws ← sanitizeItems ps vs
    return w :: ws
  | _, _ => none

/-- The loop changes the map it ranges over. A key it started with is visited once; one
that was added on the way may be visited or not. -/
def sanitizeEntries :
    List (List Char × Plan) → (pending added : List (List Char)) → GoMap → Option GoMap
  | [], pending, _, m => if pending = [] then some m else none
  | v :: vs, pending, added, m =>
    match lookupKey v.1 m with
    | none => none
    | some val =>
      if v.1 ∈ pending ∨ v.1 ∈ added then do
        let w ← sanitizeVisit v val
        let sanitizedKey := sanitizeChars v.1
        let isNew := (lookupKey sanitizedKey m).isNone
        let m := setKey sanitizedKey w m
        let m := if sanitizedKey ≠ v.1 then deleteKey v.1 m else m
        let added := added.erase v.1
        sanitizeEntries vs (pending.erase v.1) (if isNew then sanitizedKey :: added else added) m
      else none

def sanitizeVisit : List Char × Plan → GoValue → Option GoValue
  | (_, p), val => sanitizeJSONValues p val

end

theorem sanitizeEntries_nil (pending added : List (List Char)) (m : GoMap) :
    sanitizeEntries [] pending added m = if pending = [] then some m else none := rfl

/-- What one turn of the loop is. -/
theorem sanitizeEntries_cons_iff {v : List Char × Plan} {vs : List (List Char × Plan)}
    {pending added : List (List Char)} {m m' : GoMap} :
    sanitizeEntries (v :: vs) pending added m = some m' ↔ ∃ val w,
      lookupKey v.1 m = some val ∧ (v.1 ∈ pending ∨ v.1 ∈ added) ∧ sanitizeVisit v val = some w ∧
        sanitizeEntries vs (pending.erase v.1)
          (if (lookupKey (sanitizeChars v.1) m).isNone then sanitizeChars v.1 :: added.erase v.1
            else added.erase v.1)
          (if sanitizeChars v.1 ≠ v.1 then deleteKey v.1 (setKey (sanitizeChars v.1) w m)
            else setKey (sanitizeChars v.1) w m) = some m' := by
  rw [sanitizeEntries]
  constructor
  · intro h
    split at h
    · cases h
    · rename_i val hval
      split_ifs at h with hdue
      obtain ⟨w, hw, h⟩ := Option.bind_eq_some_iff.mp h
      exact ⟨val, w, hval, hdue, hw, h⟩
  · rintro ⟨val, w, hval, hdue, hw, h⟩
    rw [hval]
    simp only
    rw [if_pos hdue]
    exact Option.bind_eq_some_iff.mpr ⟨w, hw, h⟩

def keyLe : List Char → List Char → Bool
  | [], _ => true
  | _ :: _, [] => false
  | a :: s, b :: t => a < b || (a = b && keyLe s t)

def joinTexts : List Text → Text
  | [] => []
  | [s] => s
  | s :: ss => s ++ .char ',' :: joinTexts ss

mutual

/-- Keys are sorted. -/
def GoValue.marshal : GoValue → Text
  | .null => Json.text ['n', 'u', 'l', 'l']
  | .bool true => Json.text ['t', 'r', 'u', 'e']
  | .bool false => Json.text ['f', 'a', 'l', 's', 'e']
  | .num f => Json.text f.format
  | .str s => (Json.quote s).text
  | .arr items => .char '[' :: (joinTexts (marshalItems items) ++ [.char ']'])
  | .obj entries =>
    let sorted := (marshalEntries entries).insertionSort fun a b => keyLe a.1 b.1
    .char '{' :: (joinTexts (sorted.map fun e => (Json.quote e.1).text ++ .char ':' :: e.2) ++
      [.char '}'])

def marshalItems : List GoValue → List Text
  | [] => []
  | v :: vs => v.marshal :: marshalItems vs

def marshalEntries : List (List Char × GoValue) → List (List Char × Text)
  | [] => []
  | e :: es => marshalEntry e :: marshalEntries es

def marshalEntry : List Char × GoValue → List Char × Text
  | (k, v) => (k, v.marshal)

end

def sanitizeJSON (plan : Plan) (jsonData : Text) : Option Text :=
  match (Json.readWithin Json.maxNesting jsonData).bind decodeValue with
  | none => some jsonData
  | some data => (sanitizeJSONValues plan data).map GoValue.marshal

def sanitizeColumn (plan : Plan) (column : Text) : Option Text :=
  if column = [] then some [] else sanitizeJSON plan column

def sanitizeTexts (audit : Audit) : Audit :=
  { audit with
    path := sanitizeString audit.path
    identifier := sanitizeString audit.identifier
    userEmail := sanitizeEmail audit.userEmail
    userName := sanitizeString audit.userName
    userType := sanitizeString audit.userType
    tenantId := sanitizeString audit.tenantId
    ip := sanitizeIP audit.ip
    userAgent := sanitizeString audit.userAgent
    requestId := sanitizeString audit.requestId
    errorMessage := sanitizeString audit.errorMessage
    serviceName := sanitizeString audit.serviceName
    environment := sanitizeEnvironment audit.environment }

/-- `SanitizeAudit`, with one plan for each column. -/
def sanitizeAudit (plan : Field → Plan) (audit : Audit) : Option Audit := do
  let userRoles ← sanitizeColumn (plan .userRoles) audit.userRoles
  let queryParams ← sanitizeColumn (plan .queryParams) audit.queryParams
  let pathParams ← sanitizeColumn (plan .pathParams) audit.pathParams
  let requestBody ← sanitizeColumn (plan .requestBody) audit.requestBody
  let responseBody ← sanitizeColumn (plan .responseBody) audit.responseBody
  return (sanitizeTexts audit).withColumns userRoles queryParams pathParams requestBody responseBody

theorem sanitizeAudit_columns {plan : Field → Plan} {a b : Audit} (h : sanitizeAudit plan a = some b) :
    ∃ c₁ c₂ c₃ c₄ c₅, sanitizeColumn (plan .userRoles) a.userRoles = some c₁ ∧
      sanitizeColumn (plan .queryParams) a.queryParams = some c₂ ∧
      sanitizeColumn (plan .pathParams) a.pathParams = some c₃ ∧
      sanitizeColumn (plan .requestBody) a.requestBody = some c₄ ∧
      sanitizeColumn (plan .responseBody) a.responseBody = some c₅ ∧
      b = (sanitizeTexts a).withColumns c₁ c₂ c₃ c₄ c₅ := by
  unfold sanitizeAudit at h
  simp only [Option.bind_eq_bind, Option.bind_eq_some_iff, Option.pure_def,
    Option.some.injEq] at h
  obtain ⟨c₁, h₁, c₂, h₂, c₃, h₃, c₄, h₄, c₅, h₅, rfl⟩ := h
  exact ⟨c₁, c₂, c₃, c₄, c₅, h₁, h₂, h₃, h₄, h₅, rfl⟩

theorem sanitizeAudit_get {plan : Field → Plan} {a b : Audit} (h : sanitizeAudit plan a = some b)
    {f : Field} (hf : f.kind ≠ .column) : f.get b = f.get (sanitizeTexts a) := by
  obtain ⟨c₁, c₂, c₃, c₄, c₅, -, -, -, -, -, rfl⟩ := sanitizeAudit_columns h
  exact Field.get_withColumns hf _ c₁ c₂ c₃ c₄ c₅

end BatAudit
