import BatAudit.Audit.Harmless
import BatAudit.Audit.Storage

/-!
# The hygiene of enqueued events

Which texts and JSON strings of an accepted event a page could be harmed by. The session and
the project that a client names are not sanitized, and neither is a column that does not
decode, which after binding is one with a number too large for a double.
-/

namespace BatAudit

open Auth (AuthDb)
open Json (Text Tree guarded)
open Writer (plainWriter minimalBody)

def clientTexts : List (Audit → String) :=
  [Audit.path, Audit.identifier, Audit.userName, Audit.userType, Audit.tenantId, Audit.userAgent,
    Audit.requestId, Audit.errorMessage, Audit.serviceName, Audit.sessionId, Audit.projectId]

def clientColumns : List (Audit → Text) :=
  [Audit.userRoles, Audit.queryParams, Audit.pathParams, Audit.requestBody, Audit.responseBody]

/-- The strings and the keys in a column, at any depth. -/
def columnStrings (c : Text) : List (List Char) :=
  ((Json.readWithin Json.maxNesting c).map Tree.strings).getD []

/-- The event `a`, made from what the client sent, is safe to show. -/
structure Hygienic (bound a : Audit) : Prop where
  texts : ∀ text ∈ clientTexts, text bound ≠ "" → Harmless (text a).toList
  columns : ∀ column ∈ clientColumns, ∀ s ∈ columnStrings (column a), Harmless s

/-- `json.Unmarshal` into an empty interface fails. -/
def Undecodable (c : Text) : Prop := (Json.readWithin Json.maxNesting c).bind decodeValue = none

namespace Writer

/-- Whether the event is masked. -/
def sensitive (w : Writer) (bound : Audit) : Bool :=
  (sanitizeColumn (w.plan .requestBody) bound.requestBody).any isSensitive ||
    (sanitizeColumn (w.plan .queryParams) bound.queryParams).any isSensitive

def masked (w : Writer) (bound : Audit) : Audit :=
  if w.sensitive bound then maskSensitiveData bound else bound

/-- What is not sanitized is harmless as it is, or is masked out. -/
structure Clean (w : Writer) (bound : Audit) : Prop where
  sessionId : Harmless bound.sessionId.toList
  projectId : Harmless bound.projectId.toList
  columns : ∀ column ∈ clientColumns, Undecodable (column bound) →
    ∀ s ∈ columnStrings (column (w.masked bound)), Harmless s

end Writer

/-! ## Columns -/

theorem mem_moreItems {n : Json.NumLit} {vs : List Tree} :
    .num n ∈ Json.moreItems vs ↔ ∃ v ∈ vs, .num n ∈ v.tokens := by
  induction vs with
  | nil => simp [Json.moreItems]
  | cons v vs ih => simp [Json.moreItems, ih]

theorem mem_itemTokens {n : Json.NumLit} {vs : List Tree} :
    .num n ∈ Json.itemTokens vs ↔ ∃ v ∈ vs, .num n ∈ v.tokens := by
  cases vs with
  | nil => simp [Json.itemTokens]
  | cons v vs => simp [Json.itemTokens, mem_moreItems]

theorem mem_pairTokens {n : Json.NumLit} (e : Json.StrLit × Tree) :
    .num n ∈ Json.pairTokens e ↔ .num n ∈ e.2.tokens := by
  cases e with
  | mk k v => simp [Json.pairTokens]

theorem mem_moreMembers {n : Json.NumLit} {ms : List (Json.StrLit × Tree)} :
    .num n ∈ Json.moreMembers ms ↔ ∃ e ∈ ms, .num n ∈ e.2.tokens := by
  induction ms with
  | nil => simp [Json.moreMembers]
  | cons e ms ih => simp [Json.moreMembers, mem_pairTokens, ih]

theorem mem_memberTokens {n : Json.NumLit} {ms : List (Json.StrLit × Tree)} :
    .num n ∈ Json.memberTokens ms ↔ ∃ e ∈ ms, .num n ∈ e.2.tokens := by
  cases ms with
  | nil => simp [Json.memberTokens]
  | cons e ms => simp [Json.memberTokens, mem_pairTokens, mem_moreMembers]

def TooLarge (n : Json.NumLit) : Prop := Float64.parse n.raw = none

mutual

/-- A JSON value does not decode exactly when a number in it is too large. -/
theorem decodeValue_eq_none (t : Tree) :
    decodeValue t = none ↔ ∃ n, .num n ∈ t.tokens ∧ TooLarge n := by
  cases t with
  | word w => cases w <;> simp [decodeValue, Tree.tokens]
  | num n => simp [decodeValue, Tree.tokens, TooLarge]
  | str s => simp [decodeValue, Tree.tokens]
  | arr items =>
    rw [decodeValue, Option.map_eq_none_iff, decodeItems_eq_none items]
    simp [Tree.tokens, mem_itemTokens]
  | obj members =>
    rw [decodeValue, Option.map_eq_none_iff, decodeEntries_eq_none members]
    simp [Tree.tokens, mem_memberTokens]

theorem decodeItems_eq_none (ts : List Tree) :
    decodeItems ts = none ↔ ∃ n, (∃ t ∈ ts, .num n ∈ t.tokens) ∧ TooLarge n := by
  cases ts with
  | nil => simp [decodeItems]
  | cons t ts =>
    have hsplit : decodeItems (t :: ts) = none ↔ decodeValue t = none ∨ decodeItems ts = none := by
      rw [decodeItems]
      cases decodeValue t <;> cases decodeItems ts <;> simp
    rw [hsplit, decodeValue_eq_none t, decodeItems_eq_none ts]
    simp only [List.exists_mem_cons_iff, or_and_right, exists_or]

theorem decodeEntries_eq_none (es : List (Json.StrLit × Tree)) {m : GoMap} :
    decodeEntries es m = none ↔ ∃ n, (∃ e ∈ es, .num n ∈ e.2.tokens) ∧ TooLarge n := by
  cases es with
  | nil => simp [decodeEntries]
  | cons e es =>
    have hentry := decodeEntry_eq_none e
    rw [decodeEntries]
    simp only [List.exists_mem_cons_iff, or_and_right, exists_or]
    cases hdecode : decodeEntry e with
    | none => exact iff_of_true rfl (Or.inl (hentry.mp hdecode))
    | some d =>
      rw [or_iff_right fun h => nomatch hdecode.symm.trans (hentry.mpr h)]
      exact decodeEntries_eq_none es

theorem decodeEntry_eq_none (e : Json.StrLit × Tree) :
    decodeEntry e = none ↔ ∃ n, .num n ∈ e.2.tokens ∧ TooLarge n := by
  cases e with
  | mk k t => rw [decodeEntry, Option.map_eq_none_iff, decodeValue_eq_none t]

end

theorem undecodable_iff {c : Text} {t : Tree} (h : Json.readWithin Json.maxNesting c = some t) :
    Undecodable c ↔ ∃ n, .num n ∈ t.tokens ∧ TooLarge n := by
  rw [Undecodable, h, Option.bind_some, decodeValue_eq_none]

theorem harmless_columnStrings {c : Text} (hc : guarded isHarmless c = true) :
    ∀ s ∈ columnStrings c, Harmless s := by
  unfold columnStrings
  cases h : Json.readWithin Json.maxNesting c with
  | none => exact fun _ hs => absurd hs List.not_mem_nil
  | some t => exact Json.guarded_strings hc (Option.filter_eq_some_iff.mp h).1

theorem guarded_sanitizeColumn {p : Plan} {c out : Text} (hdecodable : ¬Undecodable c)
    (h : sanitizeColumn p c = some out) : guarded isHarmless out = true := by
  obtain ⟨data, hdata⟩ := Option.ne_none_iff_exists'.mp hdecodable
  unfold sanitizeColumn at h
  split_ifs at h
  · cases h
    rfl
  · exact guarded_sanitizeJSON hdata h

theorem eq_of_undecodable {p : Plan} {c out : Text} (hundecodable : Undecodable c)
    (h : sanitizeColumn p c = some out) : out = c := by
  unfold sanitizeColumn at h
  split_ifs at h with hempty
  · cases h
    exact hempty.symm
  · rw [sanitizeJSON, hundecodable] at h
    cases h
    rfl

namespace Writer

variable {w : Writer} {bound audit : Audit}

theorem sensitive_eq {c₂ c₄ : Text}
    (hquery : sanitizeColumn (w.plan .queryParams) bound.queryParams = some c₂)
    (hbody : sanitizeColumn (w.plan .requestBody) bound.requestBody = some c₄) :
    w.sensitive bound = (isSensitive c₄ || isSensitive c₂) := by
  rw [sensitive, hquery, hbody]
  rfl

/-- A column of an event as it is validated: sanitized, and then masked like the others. -/
theorem column_of_sanitized (h : w.sanitized bound = some audit) {column : Audit → Text}
    (hcolumn : column ∈ clientColumns) :
    ∃ p c, sanitizeColumn p (column bound) = some c ∧
      (column audit = c ∨ column audit = maskJSON c) ∧
      (c = column bound → column audit = column (w.masked bound)) := by
  obtain ⟨b, hb, h⟩ := Option.bind_eq_some_iff.mp h
  obtain ⟨t, ht⟩ : ∃ t, (if bound.timestamp.isZero then { bound with timestamp := w.now }
      else bound) = { bound with timestamp := t } := by
    split_ifs
    · exact ⟨w.now, rfl⟩
    · exact ⟨bound.timestamp, rfl⟩
  rw [ht] at hb
  obtain ⟨c₁, c₂, c₃, c₄, c₅, h₁, h₂, h₃, h₄, h₅, rfl⟩ := sanitizeAudit_columns hb
  have hsensitive : detectSensitiveData ((sanitizeTexts { bound with timestamp := t }).withColumns
      c₁ c₂ c₃ c₄ c₅) = w.sensitive bound := (sensitive_eq h₂ h₄).symm
  rw [hsensitive] at h
  simp only [clientColumns, List.mem_cons, List.not_mem_nil, or_false] at hcolumn
  rw [masked]
  cases hcase : w.sensitive bound with
  | false =>
    rw [hcase] at h
    cases h
    rcases hcolumn with rfl | rfl | rfl | rfl | rfl
    · exact ⟨_, c₁, h₁, Or.inl rfl, fun heq => heq⟩
    · exact ⟨_, c₂, h₂, Or.inl rfl, fun heq => heq⟩
    · exact ⟨_, c₃, h₃, Or.inl rfl, fun heq => heq⟩
    · exact ⟨_, c₄, h₄, Or.inl rfl, fun heq => heq⟩
    · exact ⟨_, c₅, h₅, Or.inl rfl, fun heq => heq⟩
  | true =>
    rw [hcase] at h
    cases h
    rcases hcolumn with rfl | rfl | rfl | rfl | rfl
    · exact ⟨_, c₁, h₁, Or.inl rfl, fun heq => heq⟩
    · exact ⟨_, c₂, h₂, Or.inr rfl, fun heq => congrArg maskJSON heq⟩
    · exact ⟨_, c₃, h₃, Or.inl rfl, fun heq => heq⟩
    · exact ⟨_, c₄, h₄, Or.inr rfl, fun heq => congrArg maskJSON heq⟩
    · exact ⟨_, c₅, h₅, Or.inr rfl, fun heq => congrArg maskJSON heq⟩

/-- The columns of a validated event are harmless, but for those that were never sanitized. -/
theorem harmless_column_iff (h : w.sanitized bound = some audit) {column : Audit → Text}
    (hcolumn : column ∈ clientColumns) :
    (∀ s ∈ columnStrings (column audit), Harmless s) ↔
      (Undecodable (column bound) → ∀ s ∈ columnStrings (column (w.masked bound)), Harmless s) := by
  obtain ⟨p, c, hsanitize, hmasked, hkept⟩ := column_of_sanitized h hcolumn
  by_cases hundecodable : Undecodable (column bound)
  · rw [hkept (eq_of_undecodable hundecodable hsanitize)]
    exact ⟨fun hall _ => hall, fun hall => hall hundecodable⟩
  · have hguarded := guarded_sanitizeColumn hundecodable hsanitize
    refine iff_of_true (harmless_columnStrings ?_) fun h => absurd h hundecodable
    rcases hmasked with heq | heq
    · rw [heq]
      exact hguarded
    · rw [heq]
      exact guarded_maskJSON hguarded

theorem Prepares.column_eq {db db' : AuthDb} {apiKeyID : String} {a : Audit}
    (h : w.Prepares db apiKeyID bound audit a db') {column : Audit → Text}
    (hcolumn : column ∈ clientColumns) : column a = column audit := by
  simp only [clientColumns, List.mem_cons, List.not_mem_nil, or_false] at hcolumn
  rcases hcolumn with rfl | rfl | rfl | rfl | rfl
  · exact h.get_eq (f := .userRoles) (by decide) (by decide) (by decide) (by decide)
  · exact h.get_eq (f := .queryParams) (by decide) (by decide) (by decide) (by decide)
  · exact h.get_eq (f := .pathParams) (by decide) (by decide) (by decide) (by decide)
  · exact h.get_eq (f := .requestBody) (by decide) (by decide) (by decide) (by decide)
  · exact h.get_eq (f := .responseBody) (by decide) (by decide) (by decide) (by decide)

/-! ## Texts -/

theorem harmless_sanitizeString (s : String) : Harmless (sanitizeString s).toList := by
  rw [sanitizeString, String.toList_ofList]
  exact harmless_sanitizeChars s.toList

theorem harmless_uuid (u : GoFormats.Uuid) : Harmless u.text.toList := by
  intro c hc
  rcases GoFormats.mem_isDashed u.dashed hc with rfl | hhex
  · decide
  · exact isHarmless_of_isHex hhex

namespace Prepares

variable {db db' : AuthDb} {apiKeyID : String} {a : Audit}

theorem harmless_requestId (h : w.Prepares db apiKeyID bound audit a db') :
    Harmless a.requestId.toList := by
  have hget : a.requestId =
      if audit.requestId = "" then "bat-" ++ w.requestUuid.text else audit.requestId :=
    resolveProject_get h.resolved (f := .requestId) (by decide)
  have htext : audit.requestId = sanitizeString bound.requestId :=
    sanitized_get h.sanitized (f := .requestId) (by decide) (by decide)
  rw [hget]
  split_ifs
  · intro c hc
    rw [String.toList_append] at hc
    rcases List.mem_append.mp hc with hc | hc
    · exact (by decide : Harmless "bat-".toList) c hc
    · exact harmless_uuid w.requestUuid c hc
  · rw [htext]
    exact harmless_sanitizeString _

theorem sessionId_eq (h : w.Prepares db apiKeyID bound audit a db') :
    a.sessionId = bound.sessionId := by
  have hget : a.sessionId = audit.sessionId :=
    h.get_eq (f := .sessionId) (by decide) (by decide) (by decide) (by decide)
  exact hget.trans (sanitized_get_kept h.sanitized (f := .sessionId) (by decide))

/-- A project that the client names is kept. -/
theorem projectId_eq (h : w.Prepares db apiKeyID bound audit a db') (hne : bound.projectId ≠ "") :
    a.projectId = bound.projectId := by
  have hbound : (w.complete audit).projectId = bound.projectId :=
    sanitized_get_kept h.sanitized (f := .projectId) (by decide)
  have hresolved := h.resolved
  rw [resolveProject, if_neg (by rwa [hbound])] at hresolved
  cases hresolved
  exact hbound

theorem harmless_texts (h : w.Prepares db apiKeyID bound audit a db')
    (hsession : Harmless bound.sessionId.toList) (hproject : Harmless bound.projectId.toList) :
    ∀ text ∈ clientTexts, text bound ≠ "" → Harmless (text a).toList := by
  have hget : ∀ f : Field, (f ≠ .id ∧ f ≠ .requestId ∧ f ≠ .source ∧ f ≠ .projectId ∧
      f.kind ≠ .column ∧ f ≠ .timestamp) → f.get a = f.get (sanitizeTexts bound) :=
    fun f ⟨hid, hrequest, hsource, hproject, hcolumn, htime⟩ =>
      h.get_texts hid hrequest hsource hproject hcolumn htime
  have hplain : ∀ {s t : String}, s = sanitizeString t → Harmless s.toList :=
    fun heq => heq ▸ harmless_sanitizeString _
  intro text htext hne
  simp only [clientTexts, List.mem_cons, List.not_mem_nil, or_false] at htext
  rcases htext with rfl | rfl | rfl | rfl | rfl | rfl | rfl | rfl | rfl | rfl | rfl
  · exact hplain (hget .path (by decide))
  · exact hplain (hget .identifier (by decide))
  · exact hplain (hget .userName (by decide))
  · exact hplain (hget .userType (by decide))
  · exact hplain (hget .tenantId (by decide))
  · exact hplain (hget .userAgent (by decide))
  · exact h.harmless_requestId
  · exact hplain (hget .errorMessage (by decide))
  · exact hplain (hget .serviceName (by decide))
  · rwa [h.sessionId_eq]
  · rwa [h.projectId_eq hne]

end Prepares

/-- Of an accepted event the texts and columns are harmless exactly when those that are not
sanitized were so in the request. -/
theorem hygienic_iff_clean {db db' : AuthDb} {apiKeyID : String} {body payload : Text} {a : Audit}
    (hbound : bindAudit body = some bound)
    (h : w.create db apiKeyID body = some (.accepted a payload, db')) :
    Hygienic bound a ↔ w.Clean bound := by
  obtain ⟨bound', audit, hbound', haudit, hvalid, hresolve⟩ := event_of_create h rfl
  obtain rfl := Option.some.inj (hbound.symm.trans hbound')
  have hprepares : w.Prepares db apiKeyID bound audit a db' := ⟨haudit, hvalid, hresolve⟩
  have hempty : Harmless "".toList := by decide
  constructor
  · intro hhygienic
    refine ⟨?_, ?_, fun column hcolumn => (harmless_column_iff haudit hcolumn).mp ?_⟩
    · by_cases hne : bound.sessionId = ""
      · rw [hne]
        exact hempty
      · rw [← hprepares.sessionId_eq]
        exact hhygienic.texts _ (by simp [clientTexts]) hne
    · by_cases hne : bound.projectId = ""
      · rw [hne]
        exact hempty
      · rw [← hprepares.projectId_eq hne]
        exact hhygienic.texts _ (by simp [clientTexts]) hne
    · rw [← hprepares.column_eq hcolumn]
      exact hhygienic.columns column hcolumn
  · intro hclean
    refine ⟨hprepares.harmless_texts hclean.sessionId hclean.projectId, fun column hcolumn => ?_⟩
    rw [hprepares.column_eq hcolumn]
    exact (harmless_column_iff haudit hcolumn).mpr (hclean.columns column hcolumn)

/-! An event with a tag in a parameter, and one with a tag in its session. -/

def markupBody : Text := minimalBody ",\"method\":\"GET\",\"query_params\":\x7b\"q\":\"<b>\"\x7d"

def markupWriter : Writer := { plainWriter with plan := fun _ => .visits [(['q'], .leaf)] }

/-- The tag as it stands in the bodies. -/
def markupLit : Json.StrLit :=
  [.plain (.char '<') (Eq.refl true), .plain (.char 'b') (Eq.refl true),
    .plain (.char '>') (Eq.refl true)]

def markupParams : Json.Tree := .obj [(Json.quote ['q'], .str markupLit)]

def markupEvent : Audit :=
  { minimalEvent with method := some .GET, queryParams := markupParams.print }

theorem bindAudit_markupBody : bindAudit markupBody = some markupEvent :=
  bindAudit_of_members
    (textMembers [("method", "GET")] ++ [(Json.quote "query_params".toList, markupParams)])
    rfl rfl

theorem markup_in_parameter_escaped :
    ∃ bound a payload db', bindAudit markupBody = some bound ∧
      markupWriter.create {} "key" markupBody = some (.accepted a payload, db') ∧
      Hygienic bound a := by
  have hrun : (markupWriter.acceptedEvent {} "key" markupBody).isSome = true := by
    rw [acceptedEvent, create, bindAudit_markupBody]
    rfl
  have hcolumns : (clientColumns.all fun column =>
      ((Json.readWithin Json.maxNesting (column markupEvent)).bind decodeValue).isSome ||
        (columnStrings (column (markupWriter.masked markupEvent))).all fun s =>
          s.all isHarmless) = true := rfl
  obtain ⟨a, ha⟩ := Option.isSome_iff_exists.mp hrun
  obtain ⟨payload, db', hcreate⟩ := create_of_acceptedEvent ha
  refine ⟨markupEvent, a, payload, db', bindAudit_markupBody, hcreate,
    (hygienic_iff_clean bindAudit_markupBody hcreate).mpr
      ⟨by decide, by decide, fun column hcolumn hundecodable => ?_⟩⟩
  have hall := List.all_eq_true.mp hcolumns column hcolumn
  rw [hundecodable, Option.isSome_none, Bool.false_or] at hall
  exact fun s hs c hc => List.all_eq_true.mp (List.all_eq_true.mp hall s hs) c hc

theorem markup_in_session_enqueued :
    ¬∀ (w : Writer) (db db' : AuthDb) (apiKeyID : String) (body payload : Text) (bound a : Audit),
      bindAudit body = some bound → w.create db apiKeyID body = some (.accepted a payload, db') →
        Hygienic bound a := by
  intro hclaim
  have hbound : bindAudit (minimalBody ",\"method\":\"GET\",\"session_id\":\"<b>\"") =
      some { minimalEvent with method := some .GET, sessionId := "<b>" } :=
    bindAudit_of_members
      (textMembers [("method", "GET")] ++ [(Json.quote "session_id".toList, .str markupLit)])
      rfl rfl
  have hrun : (plainWriter.acceptedEvent {} "key"
      (minimalBody ",\"method\":\"GET\",\"session_id\":\"<b>\"")).map Audit.sessionId =
        some "<b>" := by
    rw [acceptedEvent, create, hbound]
    rfl
  obtain ⟨a, ha, hsession⟩ := Option.map_eq_some_iff.mp hrun
  obtain ⟨payload, db', hcreate⟩ := create_of_acceptedEvent ha
  obtain ⟨bound, audit, hbound, haudit, hvalid, hresolve⟩ := event_of_create hcreate rfl
  have hprepares : plainWriter.Prepares {} "key" bound audit a db' := ⟨haudit, hvalid, hresolve⟩
  have hhygienic := hclaim _ _ _ _ _ _ _ _ hbound hcreate
  have hharmless := hhygienic.texts Audit.sessionId (by simp [clientTexts])
    (by rw [← hprepares.sessionId_eq, hsession]; decide)
  rw [hsession] at hharmless
  exact absurd hharmless (by decide)

end Writer

end BatAudit
