import BatAudit.Audit.Codec
import BatAudit.Audit.Ingest
import BatAudit.Lib.Json.Stream

/-!
# A call stage by stage

What `create` does to a body with the required fields: the members after them are decoded into
the event that the required ones make, and a payload is read as the event it was written from.
-/

namespace BatAudit

open Auth (AuthDb)
open Json (StrLit Text Tree)
open Writer (minimalBody)

/-! ## Binding -/

theorem moreMembers_append (ms ms' : List (StrLit × Tree)) :
    Json.moreMembers (ms ++ ms') = Json.moreMembers ms ++ Json.moreMembers ms' := by
  induction ms with
  | nil => rfl
  | cons m ms ih =>
    rw [List.cons_append, Json.moreMembers, Json.moreMembers, ih, List.cons_append,
      List.append_assoc]

/-- The text of an object up to one of its members, and from there on. -/
theorem print_obj_append (m : StrLit × Tree) (ms ms' : List (StrLit × Tree)) :
    (Tree.obj (m :: ms ++ ms')).print =
      Json.untokenize (.lbrace :: Json.memberTokens (m :: ms)) ++
        (Json.untokenize (Json.moreMembers ms') ++ [.char '}']) := by
  have htokens : (Tree.obj (m :: ms ++ ms')).tokens =
      (.lbrace :: Json.memberTokens (m :: ms)) ++ (Json.moreMembers ms' ++ [.rbrace]) := by
    rw [List.cons_append, Tree.tokens, Json.memberTokens, Json.memberTokens, moreMembers_append]
    simp only [List.cons_append, List.append_assoc]
  rw [Tree.print, htokens, Json.untokenize, List.flatMap_append, List.flatMap_append]
  rfl

/-- The members of an object whose values are texts. -/
def textMembers (ms : List (String × String)) : List (StrLit × Tree) :=
  ms.map fun m => (Json.quote m.1.toList, .str (Json.quote m.2.toList))

/-- What the minimal body is read as. -/
def minimalEvent : Audit :=
  { path := "/x", identifier := "u", serviceName := "s", environment := "prod" }

def minimalTexts : List (String × String) :=
  [("path", "/x"), ("identifier", "u"), ("service_name", "s"), ("environment", "prod")]

theorem minimalBody_eq {more : String} {ms : List (StrLit × Tree)}
    (hmore : Json.text more.toList = Json.untokenize (Json.moreMembers ms)) :
    minimalBody more = (Tree.obj (textMembers minimalTexts ++ ms)).print := by
  have hrequired : Json.text ("\x7b\"path\":\"/x\",\"identifier\":\"u\",\"service_name\":\"s\"," ++
      "\"environment\":\"prod\"").toList =
        Json.untokenize (.lbrace :: Json.memberTokens (textMembers minimalTexts)) := by
    rfl
  have hend : Json.text "\x7d".toList = [.char '}'] := by decide
  rw [minimalBody, String.toList_append, String.toList_append, Json.text, List.map_append,
    List.map_append, ← Json.text, ← Json.text, ← Json.text, hrequired, hmore, hend,
    List.append_assoc]
  exact (print_obj_append _ _ ms).symm

/-- What follows the required members is decoded into the event that they make. -/
theorem bindAudit_of_members {more : String} {bound : Audit} (ms : List (StrLit × Tree))
    (hmore : Json.text more.toList = Json.untokenize (Json.moreMembers ms))
    (hdecode : (ms.all (fun m => m.2.depth < Json.maxNesting),
      (ms.map rawMember).foldlM decodeMember minimalEvent) = (true, some bound)) :
    bindAudit (minimalBody more) = some bound := by
  simp only [Prod.mk.injEq, List.all_eq_true, decide_eq_true_eq] at hdecode
  have hrequired : ((textMembers minimalTexts).map rawMember).foldlM decodeMember {} =
      some minimalEvent := by
    rfl
  have hdepth : ∀ m ∈ textMembers minimalTexts ++ ms, m.2.depth < Json.maxNesting := by
    intro m hm
    rcases List.mem_append.mp hm with hm | hm
    · obtain ⟨_, -, rfl⟩ := List.mem_map.mp hm
      exact Json.maxNesting_pos
    · exact hdecode.1 m hm
  rw [minimalBody_eq hmore, bindAudit, Json.firstValue_print, Option.bind_some,
    unmarshalAudit_print, if_pos hdepth, List.map_append, List.foldlM_append, hrequired]
  exact hdecode.2

/-! ## Queueing -/

/-- What is queued is read as the event it was written from. -/
theorem exists_payload {w : Writer} {db db' : AuthDb} {apiKeyID : String} {bound queued : Audit}
    (hup : w.queueUp = true)
    (hsanitized : (w.sanitized bound).map (fun a =>
      (validate a, w.resolveProject db apiKeyID (w.complete a))) = some ([], queued, db'))
    (hmethod : queued.method ≠ none) (hcolumns : queued.columns = List.replicate 5 [])
    (hzone : queued.timestamp.offset.natAbs < 24 * 60) :
    ∃ payload, unmarshalAudit payload = some queued ∧ ∀ body, bindAudit body = some bound →
      w.create db apiKeyID body = some (.accepted queued payload, db') := by
  obtain ⟨a, ha, heq⟩ := Option.map_eq_some_iff.mp hsanitized
  obtain ⟨hvalid, hresolved⟩ := Prod.mk.inj heq
  have hempty : ∀ s ∈ queued.columns, s = [] ∨ Fits s := fun s hs =>
    Or.inl (List.eq_of_mem_replicate (hcolumns ▸ hs))
  obtain ⟨payload, hmarshal, hread⟩ := unmarshal_of_no_columns ⟨hmethod, hempty, hzone⟩ hcolumns
  have henqueue : w.enqueue queued = some payload := by
    rw [Writer.enqueue, if_pos hup, hmarshal]
  refine ⟨payload, hread, fun body hbody => ?_⟩
  simp only [Writer.create, hbody, ha, Option.bind_eq_bind, Option.bind_some, hvalid, ne_eq,
    not_true_eq_false, if_false, hresolved, henqueue]
  rfl

end BatAudit
