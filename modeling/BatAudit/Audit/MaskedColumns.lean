import BatAudit.Audit.Codec
import BatAudit.Audit.WellFormed

/-!
# The columns that are masked

What masking makes of a column that reads as a document: whether it still reads, whether the
document keeps its shape, and whether the event can still be encoded.
-/

namespace BatAudit

open Json (Text StrLit Token Tree)

def maskedColumns : List (Audit → Text) :=
  [Audit.requestBody, Audit.responseBody, Audit.queryParams]

theorem maskSensitiveData_column {column : Audit → Text} (h : column ∈ maskedColumns) (a : Audit) :
    column (maskSensitiveData a) = maskJSON (column a) := by
  simp only [maskedColumns, List.mem_cons, List.not_mem_nil, or_false] at h
  rcases h with rfl | rfl | rfl <;> rfl

/-- A document within the nesting that `encoding/json` follows. -/
def Reads (s : Text) (v : Tree) : Prop := Json.readWithin Json.maxNesting s = some v

theorem reads_iff {s : Text} {v : Tree} :
    Reads s v ↔ Json.parse s = some v ∧ v.depth ≤ Json.maxNesting := by
  rw [Reads, Json.readWithin, Option.filter_eq_some_iff, decide_eq_true_eq]

theorem reads_print {v : Tree} (h : v.depth ≤ Json.maxNesting) : Reads v.print v :=
  reads_iff.mpr ⟨Json.parse_print v, h⟩

theorem maskTree_eq (v : Tree) :
    maskTree v = v.rewrite maskLit (fun key s => maskLit (maskValue secretNames key s)) none :=
  v.rewrite_rewrite none

theorem depth_maskTree (v : Tree) : (maskTree v).depth = v.depth := by
  rw [maskTree_eq, v.depth_rewrite]

theorem parse_maskJSON_iff {s : Text} {v v' : Tree} (h : Json.parse s = some v) :
    Json.parse (maskJSON s) = some v' ↔ Maskable v ∧ v' = maskTree v := by
  obtain ⟨hmaskable, hnot⟩ := parse_maskJSON h
  constructor
  · intro hparse
    have hv : Maskable v := by
      by_contra hv
      rw [Json.parse, hnot hv] at hparse
      cases hparse
    exact ⟨hv, Option.some.inj (hparse.symm.trans (hmaskable hv))⟩
  · rintro ⟨hv, rfl⟩
    exact hmaskable hv

theorem reads_maskJSON_iff {s : Text} {v v' : Tree} (h : Reads s v) :
    Reads (maskJSON s) v' ↔ Maskable v ∧ v' = maskTree v := by
  obtain ⟨hparse, hdepth⟩ := reads_iff.mp h
  rw [reads_iff, parse_maskJSON_iff hparse, and_iff_left_iff_imp]
  rintro ⟨-, rfl⟩
  rwa [depth_maskTree]

/-! ## Shapes -/

/-- Keys are not masked as members, so a safe document has safe keys. -/
theorem Maskable.not_cutsEscape {v : Tree} (h : Maskable v) {m : StrLit × Tree}
    (hm : m ∈ v.allMembers) : cutsEscape m.1 = false := by
  obtain ⟨k, w⟩ := m
  have hmember : Json.pairRewrite id (maskValue secretNames) (k, w) ∈
      (maskMembers secretNames v).allMembers := by
    rw [maskMembers, v.allMembers_rewrite]
    exact List.mem_map_of_mem hm
  have htoken : Token.str k ∈ (maskMembers secretNames v).tokens :=
    Tree.mem_tokens_of_member _ hmember List.mem_cons_self
  simpa [isSafe] using h.literals _ htoken

/-- Of a key only the digits can change. -/
theorem shape_maskTree_iff {v : Tree} (h : Maskable v) :
    (maskTree v).shape = v.shape ↔ ∀ m ∈ v.allMembers, hasCard m.1.content = false := by
  rw [maskTree_eq, v.shape_rewrite_iff]
  exact forall₂_congr fun m hm => unquote_maskLit_iff (h.not_cutsEscape hm)

/-! ## Encoding -/

theorem isSome_members {a : Audit} {fs : List Field} :
    (a.members fs).isSome ↔ ∀ f ∈ fs, a.Omits f ∨ (f.kind.write (f.get a)).isSome := by
  induction fs with
  | nil => exact iff_of_true rfl nofun
  | cons f fs ih =>
    rw [List.forall_mem_cons, ← ih]
    by_cases homit : a.Omits f
    · rw [members_cons_of_omits homit, and_iff_right (Or.inl homit)]
    · rw [or_iff_right homit, Option.isSome_iff_exists, Option.isSome_iff_exists,
        Option.isSome_iff_exists]
      constructor
      · rintro ⟨ms, hms⟩
        obtain ⟨v, ms', hv, hms', -⟩ := (members_cons_eq_some homit).mp hms
        exact ⟨⟨v, hv⟩, ms', hms'⟩
      · rintro ⟨⟨v, hv⟩, ms', hms'⟩
        exact ⟨_, (members_cons_eq_some homit).mpr ⟨v, ms', hv, hms', rfl⟩⟩

theorem isSome_marshalAudit {a : Audit} :
    (marshalAudit a).isSome ↔ ∀ f : Field, a.Omits f ∨ (f.kind.write (f.get a)).isSome := by
  rw [marshalAudit, Option.isSome_map, isSome_members]
  exact ⟨fun h f => h f f.mem_all, fun h f _ => h f⟩

theorem isSome_writeColumn {s : Text} : (writeColumn s).isSome ↔ ∃ v, Reads s v := by
  rw [writeColumn, Option.isSome_map, Option.isSome_iff_exists]
  exact Iff.rfl

/-- A column that is left out or written before masking, and after it. -/
theorem written_maskJSON_iff {s : Text} (h : s = [] ∨ (writeColumn s).isSome) :
    maskJSON s = [] ∨ (writeColumn (maskJSON s)).isSome ↔ ∀ v, Reads s v → Maskable v := by
  rcases h with rfl | hwritten
  · exact iff_of_true (Or.inl rfl) fun v hv => nomatch (reads_iff.mp hv).1
  · obtain ⟨v, hv⟩ := isSome_writeColumn.mp hwritten
    have hparse := (reads_iff.mp hv).1
    have honly : (∀ w, Reads s w → Maskable w) ↔ Maskable v :=
      ⟨fun h => h v hv, fun h w hw => Option.some.inj (hv.symm.trans hw) ▸ h⟩
    rw [honly, isSome_writeColumn]
    constructor
    · intro hafter
      by_contra hnot
      have hnone := (parse_maskJSON hparse).2 hnot
      rcases hafter with hempty | ⟨v', hv'⟩
      · rw [hempty] at hnone
        cases hnone
      · exact hnot ((reads_maskJSON_iff hv).mp hv').1
    · exact fun hmaskable => Or.inr ⟨_, (reads_maskJSON_iff hv).mpr ⟨hmaskable, rfl⟩⟩

theorem marshal_maskSensitiveData_iff {a : Audit} (h : (marshalAudit a).isSome) :
    (marshalAudit (maskSensitiveData a)).isSome ↔
      ∀ column ∈ maskedColumns, ∀ v, Reads (column a) v → Maskable v := by
  rw [isSome_marshalAudit] at h ⊢
  have hrequest := written_maskJSON_iff ((h .requestBody).imp_left isEmpty_column.mp)
  have hresponse := written_maskJSON_iff ((h .responseBody).imp_left isEmpty_column.mp)
  have hquery := written_maskJSON_iff ((h .queryParams).imp_left isEmpty_column.mp)
  simp only [maskedColumns, List.forall_mem_cons, List.not_mem_nil, false_imp_iff, implies_true,
    and_true]
  constructor
  · intro hafter
    exact ⟨hrequest.mp ((hafter .requestBody).imp_left isEmpty_column.mp),
      hresponse.mp ((hafter .responseBody).imp_left isEmpty_column.mp),
      hquery.mp ((hafter .queryParams).imp_left isEmpty_column.mp)⟩
  · rintro ⟨hreq, hresp, hqry⟩ f
    cases f with
    | requestBody => exact (hrequest.mpr hreq).imp_left isEmpty_column.mpr
    | responseBody => exact (hresponse.mpr hresp).imp_left isEmpty_column.mpr
    | queryParams => exact (hquery.mpr hqry).imp_left isEmpty_column.mpr
    | userRoles => exact h .userRoles
    | pathParams => exact h .pathParams
    | method => exact h .method
    | timestamp => exact h .timestamp
    | id | eventType | path | statusCode | responseTime | identifier | userEmail | userName
    | userType | tenantId | ip | userAgent | requestId | errorMessage | source | serviceName
    | environment | projectId | sessionId => exact Or.inr rfl

/-- A document keeps its shape unless masking leaves none or finds a card number in a key; the
event can be encoded as long as documents are left. -/
theorem masking_keeps_form_iff (a : Audit) :
    (∀ column ∈ maskedColumns, ∀ v, Reads (column a) v →
      ((∃ v', Reads (column (maskSensitiveData a)) v' ∧ v'.shape = v.shape) ↔
        Maskable v ∧ ∀ m ∈ v.allMembers, hasCard m.1.content = false)) ∧
    ((marshalAudit a).isSome → ((marshalAudit (maskSensitiveData a)).isSome ↔
      ∀ column ∈ maskedColumns, ∀ v, Reads (column a) v → Maskable v)) := by
  refine ⟨fun column hcolumn v hv => ?_, marshal_maskSensitiveData_iff⟩
  rw [maskSensitiveData_column hcolumn]
  simp only [reads_maskJSON_iff hv]
  constructor
  · rintro ⟨-, ⟨hmaskable, rfl⟩, hshape⟩
    exact ⟨hmaskable, (shape_maskTree_iff hmaskable).mp hshape⟩
  · rintro ⟨hmaskable, hkeys⟩
    exact ⟨_, ⟨hmaskable, rfl⟩, (shape_maskTree_iff hmaskable).mpr hkeys⟩

/-- The event of a request whose body has a card number that is not in quotes. -/
def cardAudit : Audit := { requestBody := Json.text "\x7b\"card\":4111111111111111\x7d".toList }

theorem masked_number_is_no_document :
    (∃ v, Reads cardAudit.requestBody v) ∧
      (¬∃ v, Reads (maskSensitiveData cardAudit).requestBody v) ∧
      (marshalAudit cardAudit).isSome ∧ marshalAudit (maskSensitiveData cardAudit) = none := by
  have hreads : (Json.readWithin Json.maxNesting cardAudit.requestBody).isSome = true := by
    decide +kernel
  have hmasked : (Json.readWithin Json.maxNesting
      (maskSensitiveData cardAudit).requestBody).isSome = false := rfl
  refine ⟨Option.isSome_iff_exists.mp hreads, fun ⟨v, hv⟩ => ?_, by decide +kernel,
    rfl⟩
  rw [Reads] at hv
  rw [hv] at hmasked
  cases hmasked

end BatAudit
