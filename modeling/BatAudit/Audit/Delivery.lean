import BatAudit.Audit.Stages

/-!
# From the writer to the worker

Which of the events that `Create` hands to `Enqueue` reach a worker as they were. Nothing
asks for a method, yet no worker decodes an event without one; masking can turn a JSON
column into text that is none; and a timestamp may have an offset that is not encoded.
-/

namespace BatAudit.Writer

open Auth (AuthDb)
open Json (Text)

theorem handed_survives_iff (w : Writer) (db : AuthDb) (apiKeyID : String) (body : Text) :
    (∀ a, w.handed db apiKeyID body = some a → a.Survives) ↔
      ∀ a, w.handed db apiKeyID body = some a → a.Decodable :=
  forall₂_congr fun _ _ => survives_iff_decodable

theorem event_without_method_lost :
    ¬∀ (w : Writer) (db : AuthDb) (apiKeyID : String) (body : Text) (a : Audit),
      w.handed db apiKeyID body = some a → a.Survives := by
  intro hclaim
  have hbound : bindAudit (minimalBody "") = some minimalEvent :=
    bindAudit_of_members [] rfl rfl
  have hrun : (plainWriter.handed {} "key" (minimalBody "")).map Audit.method = some none := by
    rw [handed, create, hbound]
    rfl
  obtain ⟨a, ha, hmethod⟩ := Option.map_eq_some_iff.mp hrun
  exact (survives_iff_decodable.mp (hclaim _ _ _ _ a ha)).method hmethod

end BatAudit.Writer
