import BatAudit.Audit.Event

/-!
# What the worker decodes

An event survives the queue exactly when its method is set, its JSON columns are JSON
values that nest one level less deep than a whole text may, and the offset of its timestamp
is less than a day.
-/

namespace BatAudit

open GoTime (Time)
open Json (Text Token Tree StrLit)

/-- A JSON value that still fits in an object. -/
def Fits (s : Text) : Prop := ∃ t, Json.parse s = some t ∧ t.depth < Json.maxNesting

def Kind.Carries : (k : Kind) → k.Val → Prop
  | .string, _ => True
  | .method, v => v ≠ none
  | .int, _ => True
  | .column, s => Fits s
  | .time, t => t.offset.natAbs < 24 * 60

/-! ## One field -/

theorem readString_writeString (s old : String) :
    readString (writeString s).tokens old = some s := by
  simp only [writeString, Tree.tokens, readString, Json.unquote_quote, String.ofList_toList]

theorem readInt_ofInt (v old : Int64) :
    readInt (Tree.num (Json.NumLit.ofInt v.toInt)).tokens old = some v := by
  have hparse := Json.parseInt64_ofInt (Int64.le_toInt v) (Int64.toInt_lt v)
  simp only [Tree.tokens, readInt, hparse, Option.map_some, Int64.ofInt_toInt]

theorem readMethod_writeMethod (v : Option HTTPMethod) :
    readMethod (writeMethod v).tokens = v.map some := by
  cases v with
  | none => rfl
  | some m => cases m <;> rfl

/-- The characters of a time. -/
theorem mem_format {t : Time} {c : Char} (h : c ∈ t.format) :
    GoTime.isDigit c = true ∨ c ∈ ['-', 'T', ':', '.', 'Z', '+'] := by
  have hpad : ∀ {k n : ℕ}, c ∈ GoTime.pad k n →
      GoTime.isDigit c = true ∨ c ∈ ['-', 'T', ':', '.', 'Z', '+'] :=
    fun hc => Or.inl (GoTime.isDigit_of_mem_pad hc)
  have hfrac : c ∈ GoTime.formatFraction t.nano →
      GoTime.isDigit c = true ∨ c ∈ ['-', 'T', ':', '.', 'Z', '+'] := by
    intro hc
    unfold GoTime.formatFraction at hc
    split_ifs at hc
    · cases hc
    · rcases List.mem_cons.mp hc with rfl | hc
      · exact Or.inr (by decide)
      · exact hpad ((List.rdropWhile_prefix _ _).subset hc)
  have hzone : c ∈ GoTime.formatZone t.offset →
      GoTime.isDigit c = true ∨ c ∈ ['-', 'T', ':', '.', 'Z', '+'] := by
    intro hc
    unfold GoTime.formatZone at hc
    split_ifs at hc <;> simp only [List.mem_cons, List.mem_append, List.not_mem_nil, or_false] at hc
    · exact Or.inr (by simp [hc])
    all_goals
      rcases hc with rfl | hc | rfl | hc
      · exact Or.inr (by decide)
      · exact hpad hc
      · exact Or.inr (by decide)
      · exact hpad hc
  simp only [Time.format, List.mem_append, List.mem_cons] at h
  rcases h with h | rfl | h | rfl | h | rfl | h | rfl | h | rfl | h | h | h
  all_goals first | exact hpad h | exact hfrac h | exact hzone h | exact Or.inr (by decide)

/-- None of them needs an escape. -/
theorem plain_of_timeChar {c : Char}
    (h : GoTime.isDigit c = true ∨ c ∈ ['-', 'T', ':', '.', 'Z', '+']) :
    Json.isHtml c = false ∧ Json.isPlain (.char c) = true := by
  have hother : ['-', 'T', ':', '.', 'Z', '+'].all
      (fun d => !Json.isHtml d && Json.isPlain (.char d)) = true := by decide
  rcases h with h | h
  · obtain ⟨hlow, hhigh⟩ := Char.isDigit_iff_toNat.mp h
    have hdigit : ∀ n < 58, 48 ≤ n → Json.isHtml (Char.ofNat n) = false ∧
        Json.isPlain (.char (Char.ofNat n)) = true := by decide
    rw [← Char.ofNat_toNat c]
    exact hdigit _ (Nat.lt_succ_of_le hhigh) hlow
  · simpa using List.all_eq_true.mp hother c h

theorem mapM_plainChar_quote {s : List Char}
    (h : ∀ c ∈ s, Json.isHtml c = false ∧ Json.isPlain (.char c) = true) :
    (Json.quote s).mapM plainChar = some s := by
  induction s with
  | nil => rfl
  | cons c s ih =>
    obtain ⟨hhtml, hplain⟩ := h c (by simp)
    have hrest := ih fun d hd => h d (by simp [hd])
    rw [Json.quote, List.map_cons, ← Json.quote, Json.quoteChar_of_plain hhtml hplain,
      List.mapM_cons, hrest]
    rfl

theorem readTime_format {t : Time} (h : t.offset.natAbs < 24 * 60) (old : Time) :
    readTime (Tree.str (Json.quote t.format)).tokens old = some t := by
  have hchars := mapM_plainChar_quote (s := t.format) fun c hc => plain_of_timeChar (mem_format hc)
  simp only [Tree.tokens, readTime, hchars, Option.bind_some, GoTime.parse_format t h]

theorem writeColumn_eq_some {s : Text} {t : Tree} :
    writeColumn s = some t ↔
      ∃ v, Json.parse s = some v ∧ v.depth ≤ Json.maxNesting ∧ v.mapStr Json.htmlEscape = t := by
  simp [writeColumn, Json.readWithin, Option.filter_eq_some_iff, and_assoc]

/-- A value that can be carried is written, and read back. -/
theorem Kind.read_write {k : Kind} {v : k.Val} (h : k.Carries v) :
    ∃ t, k.write v = some t ∧ t.depth < Json.maxNesting ∧
      ∀ old, ∃ w, k.read t.tokens old = some w ∧ k.Same w v ∧ (k ≠ .column → w = v) := by
  cases k with
  | string =>
    exact ⟨_, rfl, Json.maxNesting_pos, fun old =>
      ⟨v, readString_writeString v old, rfl, fun _ => rfl⟩⟩
  | method =>
    obtain ⟨m, rfl⟩ := Option.ne_none_iff_exists'.mp h
    exact ⟨_, rfl, Json.maxNesting_pos, fun _ =>
      ⟨some m, readMethod_writeMethod (some m), rfl, fun _ => rfl⟩⟩
  | int =>
    exact ⟨_, rfl, Json.maxNesting_pos, fun old => ⟨v, readInt_ofInt v old, rfl, fun _ => rfl⟩⟩
  | column =>
    obtain ⟨t, hparse, hdepth⟩ := h
    have hwrite := writeColumn_eq_some.mpr ⟨t, hparse, hdepth.le, rfl⟩
    obtain ⟨u, w, hu, hw, hvalue⟩ := Json.sameValue_htmlEscape hparse
    exact ⟨_, hwrite, by rwa [Json.Tree.depth_mapStr], fun _ =>
      ⟨_, rfl, Or.inr ⟨w, u, hw, hu, hvalue.symm⟩, fun hcolumn => absurd rfl hcolumn⟩⟩
  | time =>
    exact ⟨_, if_pos h, Json.maxNesting_pos, fun old =>
      ⟨v, readTime_format h old, rfl, fun _ => rfl⟩⟩

/-- A value that was written and read could be carried. -/
theorem Kind.carries_of_read {k : Kind} {v old w : k.Val} {t : Tree} (hwrite : k.write v = some t)
    (hdepth : t.depth < Json.maxNesting) (hread : k.read t.tokens old = some w) :
    k.Carries v := by
  cases k with
  | string => trivial
  | method =>
    cases hwrite
    rintro rfl
    cases hread
  | int => trivial
  | column =>
    obtain ⟨u, hparse, -, rfl⟩ := writeColumn_eq_some.mp hwrite
    exact ⟨u, hparse, by rwa [Json.Tree.depth_mapStr] at hdepth⟩
  | time =>
    by_contra hoffset
    simp [Kind.write, writeTime, Kind.Carries] at hwrite hoffset
    omega

/-! ## All fields -/

theorem members_cons_of_omits {a : Audit} {f : Field} {fs : List Field} (h : a.Omits f) :
    a.members (f :: fs) = a.members fs := if_pos h

theorem members_cons_eq_some {a : Audit} {f : Field} {fs : List Field} (h : ¬a.Omits f)
    {ms : List (StrLit × Tree)} :
    a.members (f :: fs) = some ms ↔ ∃ v ms', f.kind.write (f.get a) = some v ∧
      a.members fs = some ms' ∧ ms = (Json.quote f.key.toList, v) :: ms' := by
  rw [Audit.members, if_neg h]
  constructor
  · intro hms
    obtain ⟨v, hv, hms⟩ := Option.bind_eq_some_iff.mp hms
    obtain ⟨ms', hms', hms⟩ := Option.bind_eq_some_iff.mp hms
    exact ⟨v, ms', hv, hms', (Option.some.inj hms).symm⟩
  · rintro ⟨v, ms', hv, hms', rfl⟩
    rw [hv, hms']
    rfl

theorem ofKey_key (f : Field) : Field.ofKey f.key.toList = some f := by
  cases f <;> decide

theorem decodeMember_key (a : Audit) (f : Field) (raw : List Token) :
    decodeMember a (Json.quote f.key.toList, raw) =
      (f.kind.read raw (f.get a)).map fun v => f.set v a := by
  simp only [decodeMember, Json.unquote_quote, ofKey_key]

def rawMember (m : StrLit × Tree) : StrLit × List Token := (m.1, m.2.tokens)

/-- Decoding what was encoded sets the fields that were not left out, and no others. -/
theorem decode_members {a : Audit} {fs : List Field} (hnodup : fs.Nodup)
    (h : ∀ f ∈ fs, a.Omits f ∨ f.kind.Carries (f.get a)) :
    ∃ ms, a.members fs = some ms ∧ (∀ m ∈ ms, m.2.depth < Json.maxNesting) ∧
      ∀ b₀, ∃ b, (ms.map rawMember).foldlM decodeMember b₀ = some b ∧
        (∀ f ∈ fs, ¬a.Omits f → f.kind.Same (f.get b) (f.get a) ∧
          (f.kind ≠ .column → f.get b = f.get a)) ∧
        ∀ f, f ∉ fs ∨ a.Omits f → f.get b = f.get b₀ := by
  induction fs with
  | nil => exact ⟨[], rfl, by simp, fun b₀ => ⟨b₀, rfl, by simp, fun _ _ => rfl⟩⟩
  | cons f fs ih =>
    obtain ⟨hf, hnodup⟩ := List.nodup_cons.mp hnodup
    obtain ⟨ms, hms, hdepth, hdecode⟩ := ih hnodup fun g hg => h g (by simp [hg])
    by_cases homit : a.Omits f
    · refine ⟨ms, by rw [members_cons_of_omits homit, hms], hdepth, fun b₀ => ?_⟩
      obtain ⟨b, hb, hset, hkeep⟩ := hdecode b₀
      refine ⟨b, hb, fun g hg hg' => ?_, fun g hg => ?_⟩
      · rcases List.mem_cons.mp hg with rfl | hg
        · exact absurd homit hg'
        · exact hset g hg hg'
      · exact hkeep g (hg.imp_left fun hnot hmem => hnot (by simp [hmem]))
    · have hcarries := (h f (by simp)).resolve_left homit
      obtain ⟨v, hv, hvdepth, hread⟩ := Kind.read_write hcarries
      refine ⟨(Json.quote f.key.toList, v) :: ms,
        (members_cons_eq_some homit).mpr ⟨v, ms, hv, hms, rfl⟩, ?_, fun b₀ => ?_⟩
      · intro m hm
        rcases List.mem_cons.mp hm with rfl | hm
        · exact hvdepth
        · exact hdepth m hm
      · obtain ⟨w, hw, hsame⟩ := hread (f.get b₀)
        obtain ⟨b, hb, hset, hkeep⟩ := hdecode (f.set w b₀)
        have hstep : decodeMember b₀ (rawMember (Json.quote f.key.toList, v)) =
            some (f.set w b₀) := by
          rw [rawMember, decodeMember_key, hw, Option.map_some]
        refine ⟨b, ?_, fun g hg hg' => ?_, fun g hg => ?_⟩
        · rw [List.map_cons, List.foldlM_cons, hstep]
          exact hb
        · rcases List.mem_cons.mp hg with rfl | hg
          · rw [hkeep g (Or.inl hf), Field.get_set]
            exact hsame
          · exact hset g hg hg'
        · have hne : g ≠ f := by
            rintro rfl
            exact hg.elim (fun hnot => hnot (by simp)) homit
          rw [hkeep g (hg.imp_left fun hnot hmem => hnot (by simp [hmem])),
            Field.get_set_of_ne hne]

/-- What was encoded and decoded could be carried. -/
theorem carries_of_decode {a b₀ b : Audit} {fs : List Field} {ms : List (StrLit × Tree)}
    (hms : a.members fs = some ms) (hdepth : ∀ m ∈ ms, m.2.depth < Json.maxNesting)
    (hdecode : (ms.map rawMember).foldlM decodeMember b₀ = some b) :
    ∀ f ∈ fs, a.Omits f ∨ f.kind.Carries (f.get a) := by
  induction fs generalizing ms b₀ with
  | nil => simp
  | cons f fs ih =>
    intro g hg
    by_cases homit : a.Omits f
    · rw [members_cons_of_omits homit] at hms
      rcases List.mem_cons.mp hg with rfl | hg
      · exact Or.inl homit
      · exact ih hms hdepth hdecode g hg
    · obtain ⟨v, ms', hv, hms', rfl⟩ := (members_cons_eq_some homit).mp hms
      rw [List.map_cons, List.foldlM_cons] at hdecode
      obtain ⟨b₁, hstep, hrest⟩ := Option.bind_eq_some_iff.mp hdecode
      rcases List.mem_cons.mp hg with rfl | hg
      · rw [rawMember, decodeMember_key] at hstep
        obtain ⟨w, hw, -⟩ := Option.map_eq_some_iff.mp hstep
        have hv' := hdepth (Json.quote g.key.toList, v) (by simp)
        exact Or.inr (Kind.carries_of_read hv hv' hw)
      · exact ih hms' (fun m hm => hdepth m (by simp [hm])) hrest g hg

theorem unmarshalAudit_print (ms : List (StrLit × Tree)) :
    unmarshalAudit (Tree.obj ms).print =
      if ∀ m ∈ ms, m.2.depth < Json.maxNesting then
        (ms.map rawMember).foldlM decodeMember {}
      else none := by
  have hraw : Json.rawMembers (Tree.obj ms).tokens = ms.map rawMember := Json.rawMembers_obj ms
  simp only [unmarshalAudit, Json.lex_print, Json.squeeze_tokens, Json.parseTokens_tokens,
    Option.bind_eq_bind, Option.bind_some, hraw, Json.depth_obj_le_iff Json.maxNesting_pos]

theorem isEmpty_string {v : String} : Kind.isEmpty .string v = true ↔ v = "" := decide_eq_true_iff

theorem isEmpty_column {v : Text} : Kind.isEmpty .column v = true ↔ v = [] := decide_eq_true_iff

/-- What is left out is as it is in an event of which nothing is known. -/
theorem get_eq_of_omits {f : Field} {a : Audit} (h : a.Omits f) :
    f.get ({} : Audit) = f.get a := by
  obtain ⟨homit, hempty⟩ := Bool.and_eq_true_iff.mp h
  cases f
  all_goals
    first
    | exact absurd homit (by decide)
    | exact (isEmpty_string.mp hempty).symm
    | exact (isEmpty_column.mp hempty).symm

theorem Kind.Same.of_eq {k : Kind} {v w : k.Val} (h : v = w) : k.Same v w := by
  subst h
  cases k with
  | column => exact Or.inl rfl
  | string | method | int | time => rfl

theorem carries_of_unmarshal {a b : Audit} {s : Text} (hs : marshalAudit a = some s)
    (hb : unmarshalAudit s = some b) (f : Field) : a.Omits f ∨ f.kind.Carries (f.get a) := by
  obtain ⟨ms, hms, rfl⟩ := Option.map_eq_some_iff.mp hs
  rw [unmarshalAudit_print] at hb
  split_ifs at hb with hdepth
  exact carries_of_decode hms hdepth hb f f.mem_all

theorem survives_iff_fields {a : Audit} :
    a.Survives ↔ ∀ f, a.Omits f ∨ f.kind.Carries (f.get a) := by
  constructor
  · rintro ⟨s, hs, b, hb, -⟩
    exact carries_of_unmarshal hs hb
  · intro h
    obtain ⟨ms, hms, hdepth, hdecode⟩ := decode_members Field.nodup_all fun f _ => h f
    obtain ⟨b, hb, hset, hkeep⟩ := hdecode {}
    refine ⟨_, by rw [marshalAudit, hms, Option.map_some], b, ?_, fun f => ?_⟩
    · rw [unmarshalAudit_print, if_pos hdepth, hb]
    · by_cases homit : a.Omits f
      · rw [hkeep f (Or.inr homit)]
        exact .of_eq (get_eq_of_omits homit)
      · exact (hset f f.mem_all homit).1

/-- Whatever a worker decodes is the event that was encoded. -/
theorem same_of_unmarshal {a b : Audit} {s : Text} (hs : marshalAudit a = some s)
    (hb : unmarshalAudit s = some b) : b.Same a := by
  obtain ⟨s', hs', b', hb', hsame⟩ := survives_iff_fields.mpr (carries_of_unmarshal hs hb)
  obtain rfl := Option.some.inj (hs.symm.trans hs')
  obtain rfl := Option.some.inj (hb.symm.trans hb')
  exact hsame

/-- What an event has to be for the worker to decode it. -/
structure Audit.Decodable (a : Audit) : Prop where
  method : a.method ≠ none
  columns : ∀ s ∈ a.columns, s = [] ∨ Fits s
  zone : a.timestamp.offset.natAbs < 24 * 60

theorem survives_iff_decodable {a : Audit} : a.Survives ↔ a.Decodable := by
  rw [survives_iff_fields]
  constructor
  · intro h
    refine ⟨(h .method).resolve_left (nomatch ·), ?_, (h .timestamp).resolve_left (nomatch ·)⟩
    simp only [Audit.columns, List.forall_mem_cons, List.not_mem_nil, false_imp_iff,
      implies_true, and_true]
    refine ⟨?_, ?_, ?_, ?_, ?_⟩
    · exact (h .userRoles).imp_left isEmpty_column.mp
    · exact (h .queryParams).imp_left isEmpty_column.mp
    · exact (h .pathParams).imp_left isEmpty_column.mp
    · exact (h .requestBody).imp_left isEmpty_column.mp
    · exact (h .responseBody).imp_left isEmpty_column.mp
  · rintro ⟨hmethod, hcolumns, hzone⟩ f
    simp only [Audit.columns, List.forall_mem_cons, List.not_mem_nil, false_imp_iff,
      implies_true, and_true] at hcolumns
    obtain ⟨hroles, hquery, hparams, hreq, hresp⟩ := hcolumns
    cases f with
    | method => exact Or.inr hmethod
    | timestamp => exact Or.inr hzone
    | userRoles => exact hroles.imp_left isEmpty_column.mpr
    | queryParams => exact hquery.imp_left isEmpty_column.mpr
    | pathParams => exact hparams.imp_left isEmpty_column.mpr
    | requestBody => exact hreq.imp_left isEmpty_column.mpr
    | responseBody => exact hresp.imp_left isEmpty_column.mpr
    | id | eventType | path | statusCode | responseTime | identifier | userEmail | userName
    | userType | tenantId | ip | userAgent | requestId | errorMessage | source | serviceName
    | environment | projectId | sessionId => exact Or.inr trivial

/-- An event without JSON columns is decoded as it was, the offset of its time included. -/
theorem unmarshal_of_no_columns {a : Audit} (h : a.Decodable)
    (hcolumns : a.columns = List.replicate 5 []) :
    ∃ s, marshalAudit a = some s ∧ unmarshalAudit s = some a := by
  have hfields := survives_iff_fields.mp (survives_iff_decodable.mpr h)
  obtain ⟨ms, hms, hdepth, hdecode⟩ := decode_members Field.nodup_all fun f _ => hfields f
  obtain ⟨b, hb, hset, hkeep⟩ := hdecode {}
  refine ⟨_, by rw [marshalAudit, hms, Option.map_some], ?_⟩
  rw [unmarshalAudit_print, if_pos hdepth, hb]
  refine congrArg some (Audit.ext_of_get fun f => ?_)
  by_cases homit : a.Omits f
  · rw [hkeep f (Or.inr homit), get_eq_of_omits homit]
  · refine (hset f f.mem_all homit).2 fun hcolumn => homit ?_
    simp only [Audit.columns, List.replicate, List.cons.injEq, and_true] at hcolumns
    obtain ⟨hroles, hquery, hparams, hreq, hresp⟩ := hcolumns
    cases f with
    | userRoles => exact Bool.and_eq_true_iff.mpr ⟨rfl, isEmpty_column.mpr hroles⟩
    | queryParams => exact Bool.and_eq_true_iff.mpr ⟨rfl, isEmpty_column.mpr hquery⟩
    | pathParams => exact Bool.and_eq_true_iff.mpr ⟨rfl, isEmpty_column.mpr hparams⟩
    | requestBody => exact Bool.and_eq_true_iff.mpr ⟨rfl, isEmpty_column.mpr hreq⟩
    | responseBody => exact Bool.and_eq_true_iff.mpr ⟨rfl, isEmpty_column.mpr hresp⟩
    | id | eventType | method | path | statusCode | responseTime | identifier | userEmail
    | userName | userType | tenantId | ip | userAgent | requestId | errorMessage | source
    | serviceName | environment | timestamp | projectId | sessionId => cases hcolumn

end BatAudit
