import Noesar.Conversations.Changes

namespace Noesar.Context

open Lib Lib.Utf16 Lib.Json Lib.InsertionMap Canonical Conversations
open Author (text text_inj text_injective trim)

def Bounded (max : ℕ) (t : Units) : Prop := trim t ≠ [] ∧ (trim t).length ≤ max

def Satisfies : FieldSpec → JsValue → Prop
  | .string max, .string t => Bounded max t
  | .integer min max, .number leaf => ∃ n, integerOf leaf = some n ∧ min ≤ n ∧ n ≤ max
  | .boolean, .bool _ => True
  | .oneOf values, .string t => t ∈ values.map text
  | .list max itemMax, .array items => items.length ≤ max ∧ ∀ item ∈ items, ∃ t, item = .string t ∧ Bounded itemMax t
  | _, _ => False

/-- What a section asks of an object, but for its keys. -/
structure Conforms (spec : SectionSpec) (members : List (Units × JsValue)) : Prop where
  required : ∀ key ∈ spec.required, (present members key).isSome = true
  fields : ∀ entry ∈ spec.fields, ∀ value, present members entry.1 = some value → Satisfies entry.2 value

def Declared (spec : SectionSpec) (key : Units) : Prop := key ∈ (spec.fields.map Prod.fst).map text

def Acceptable (sectionName : Units) (value : JsValue) : Prop := ∃ spec members, sectionNamed sectionName = some spec ∧
  value = .object members ∧ (∀ m ∈ members, Declared spec m.1) ∧ Conforms spec members

/-- The gate lets through what the section asks for and nothing else, and does so again. -/
structure GateExact (ns : Numbers) (sectionName : Units) (value : JsValue) : Prop where
  accepts : (∃ fact, validateFact ns sectionName value = .ok fact) ↔ Acceptable sectionName value
  declared : ∀ fact, validateFact ns sectionName value = .ok fact →
    ∃ spec, sectionNamed sectionName = some spec ∧ ∀ entry ∈ fact, entry.1 ∈ spec.fields.map Prod.fst
  unchanged : ∀ fact, validateFact ns sectionName value = .ok fact → validateFact ns sectionName fact.toJs = .ok fact

/-- An object that is refused for nothing but its keys, where all the undeclared ones have names that every object inherits. -/
def InheritedOnly (sectionName : Units) (value : JsValue) : Prop := ∃ spec members, sectionNamed sectionName = some spec ∧
  value = .object members ∧ Conforms spec members ∧ (∃ m ∈ members, ¬Declared spec m.1) ∧
  ∀ m ∈ members, Declared spec m.1 ∨ m.1 ∈ Workflows.inherited.map text

section Gate

variable {ns : Numbers} {sectionName field : Units} {max : ℕ} {value : JsValue}

theorem checkText_isOk : (∃ t, checkText sectionName field max value = .ok t) ↔ ∃ t, value = .string t ∧ Bounded max t := by
  unfold checkText
  split
  · rename_i t
    simp only [Json.string.injEq, exists_eq_left', Bounded]
    split
    · rename_i hblank
      simp [hblank]
    · rename_i hblank
      split
      · rename_i hlong
        simp [hblank, hlong]
      · rename_i hlong
        simp [hblank, Nat.le_of_not_lt hlong]
  · rename_i hother
    simp only [reduceCtorEq, exists_false, false_iff, not_exists, not_and]
    exact fun t ht ↦ absurd ht (hother t)

theorem mapM_isOk {α β ε : Type} {f : α → Except ε β} {xs : List α} : (∃ ys, xs.mapM f = .ok ys) ↔ ∀ x ∈ xs, ∃ y, f x = .ok y := by
  constructor
  · intro ⟨ys, hys⟩ x hx
    obtain ⟨y, _, hy⟩ := ok_of_mapM_ok hys hx
    exact ⟨y, hy⟩
  · intro h
    induction xs with
    | nil => exact ⟨[], rfl⟩
    | cons x xs ih =>
      obtain ⟨y, hy⟩ := h x List.mem_cons_self
      obtain ⟨ys, hys⟩ := ih fun x hx ↦ h x (List.mem_cons_of_mem _ hx)
      exact ⟨y :: ys, mapM_ok_iff.mpr (.cons hy (mapM_ok_iff.mp hys))⟩

theorem map_isOk {α β ε : Type} {f : α → β} {x : Except ε α} : (∃ b, x.map f = .ok b) ↔ ∃ a, x = .ok a := by
  cases x <;> simp [Except.map]

theorem mem_zipIdx_of_mem {items : List JsValue} {item : JsValue} (h : item ∈ items) : ∃ i, (item, i) ∈ items.zipIdx := by
  obtain ⟨i, hi⟩ := List.mem_iff_getElem?.mp h
  exact ⟨i, List.mem_zipIdx_iff_getElem?.mpr hi⟩

theorem checkScalar_isOk {field : String} {spec : FieldSpec} :
    (∃ checked, checkScalar ns sectionName field spec value = .ok checked) ↔ Satisfies spec value := by
  cases spec with
  | string =>
    rw [checkScalar, map_isOk, checkText_isOk]
    cases value <;> simp [Satisfies]
  | integer =>
    cases value with
    | number leaf =>
      simp only [checkScalar, Satisfies]
      cases integerOf leaf with
      | none => simp
      | some =>
        simp only [Option.some.injEq, exists_eq_left']
        split
        · rename_i hout
          simp only [reduceCtorEq, exists_false, false_iff]
          omega
        · rename_i hin
          simp only [Except.ok.injEq, exists_eq', true_iff]
          omega
    | _ => simp [checkScalar, Satisfies]
  | boolean => cases value <;> simp [checkScalar, Satisfies]
  | oneOf =>
    cases value with
    | string =>
      simp only [checkScalar, Satisfies]
      split <;> simp_all
    | _ => simp [checkScalar, Satisfies]
  | list =>
    cases value with
    | array =>
      simp only [checkScalar, Satisfies]
      split
      · rename_i hlong
        simp only [reduceCtorEq, exists_false, false_iff, not_and]
        omega
      · rename_i hshort
        rw [map_isOk, mapM_isOk, and_iff_right (Nat.le_of_not_lt hshort)]
        constructor
        · intro h item hitem
          obtain ⟨i, hi⟩ := mem_zipIdx_of_mem hitem
          exact checkText_isOk.mp (h (item, i) hi)
        · intro h entry hentry
          exact checkText_isOk.mpr (h entry.1 (List.fst_mem_of_mem_zipIdx hentry))
    | _ => simp [checkScalar, Satisfies]

theorem normalise_isOk {members : List (Units × JsValue)} {fields : List (String × FieldSpec)} :
    (∃ fact, normalise ns sectionName members fields = .ok fact) ↔
      ∀ entry ∈ fields, ∀ value, present members entry.1 = some value → Satisfies entry.2 value := by
  induction fields with
  | nil => simp [normalise]
  | cons entry fields ih =>
    obtain ⟨field, spec⟩ := entry
    rw [normalise, List.forall_mem_cons, ← ih]
    cases hpresent : present members field with
    | none => simp
    | some value =>
      have hscalar : (∃ checked, checkScalar ns sectionName field spec value = .ok checked) ↔ Satisfies spec value := checkScalar_isOk
      simp only [Option.some.injEq, forall_eq', ← hscalar]
      constructor
      · rintro ⟨fact, h⟩
        obtain ⟨checked, hchecked, h⟩ := bind_ok.mp h
        obtain ⟨rest, hrest, _⟩ := bind_ok.mp h
        exact ⟨⟨checked, hchecked⟩, rest, hrest⟩
      · rintro ⟨⟨checked, hchecked⟩, rest, hrest⟩
        exact ⟨_, bind_ok.mpr ⟨checked, hchecked, bind_ok.mpr ⟨rest, hrest, rfl⟩⟩⟩

theorem isField_iff {spec : SectionSpec} {key : Units} :
    isField spec key = true ↔ Declared spec key ∨ key ∈ Workflows.inherited.map text := by
  rw [isField, decide_eq_true_eq, List.map_append, List.mem_append]
  rfl

theorem accepted_iff : (∃ fact, validateFact ns sectionName value = .ok fact) ↔ ∃ spec members,
    sectionNamed sectionName = some spec ∧ value = .object members ∧ (∀ m ∈ members, isField spec m.1 = true) ∧
      Conforms spec members := by
  constructor
  · rintro ⟨fact, h⟩
    obtain ⟨spec, members, hspec, hvalue, hkeys, hrequired, hnormalise⟩ := validateFact_ok.mp h
    exact ⟨spec, members, hspec, hvalue, hkeys, hrequired, normalise_isOk.mp ⟨fact, hnormalise⟩⟩
  · intro ⟨spec, members, hspec, hvalue, hkeys, hrequired, hfields⟩
    obtain ⟨fact, hnormalise⟩ := normalise_isOk.mpr hfields
    exact ⟨fact, validateFact_ok.mpr ⟨spec, members, hspec, hvalue, hkeys, hrequired, hnormalise⟩⟩

theorem gateExact_iff : GateExact ns sectionName value ↔ ¬InheritedOnly sectionName value := by
  constructor
  · intro h ⟨spec, members, hspec, hvalue, hconforms, ⟨m, hm, hundeclared⟩, hkeys⟩
    have haccepted : ∃ fact, validateFact ns sectionName value = .ok fact :=
      accepted_iff.mpr ⟨spec, members, hspec, hvalue, fun m hm ↦ isField_iff.mpr (hkeys m hm), hconforms⟩
    obtain ⟨spec', members', hspec', hvalue', hdeclared, _⟩ := h.accepts.mp haccepted
    obtain rfl := Option.some.inj (hspec.symm.trans hspec')
    obtain rfl := Json.object.inj (hvalue.symm.trans hvalue')
    exact hundeclared (hdeclared m hm)
  · intro h
    constructor
    case accepts =>
      rw [accepted_iff]
      constructor
      · intro ⟨spec, members, hspec, hvalue, hkeys, hconforms⟩
        refine ⟨spec, members, hspec, hvalue, ?_, hconforms⟩
        by_contra hundeclared
        push Not at hundeclared
        exact h ⟨spec, members, hspec, hvalue, hconforms, hundeclared, fun m hm ↦ isField_iff.mp (hkeys m hm)⟩
      · intro ⟨spec, members, hspec, hvalue, hkeys, hconforms⟩
        exact ⟨spec, members, hspec, hvalue, fun m hm ↦ isField_iff.mpr (.inl (hkeys m hm)), hconforms⟩
    case declared =>
      intro fact hfact
      obtain ⟨spec, _, hspec, _⟩ := validateFact_ok.mp hfact
      refine ⟨spec, hspec, fun entry hentry ↦ ?_⟩
      exact (inSchema_of_validateFact hspec hfact).fitted.names_sublist.subset (List.mem_map_of_mem hentry)
    case unchanged =>
      intro fact hfact
      obtain ⟨spec, _, hspec, _⟩ := validateFact_ok.mp hfact
      exact validateFact_of_inSchema hspec (inSchema_of_validateFact hspec hfact)

end Gate

section Recording

variable {ns : Numbers} {s s' : State}

def Recorded (fact : JsValue) : Prop := ∃ spec sectionName normalised time, sectionNamed sectionName = some spec ∧
  InSchema spec normalised ∧ fact = contextFact sectionName normalised time

def FieldValue.kept : FieldValue → FieldValue
  | integer leaf => integer (Canonical.value leaf)
  | checked => checked

theorem kept_toJs (fact : Fact) : kept fact.toJs = Fact.toJs (fact.map fun entry ↦ (entry.1, entry.2.kept)) := by
  rw [kept, Fact.toJs, Fact.toJs, map_object, List.map_map, List.map_map]
  congr 1
  apply List.map_congr_left
  intro entry _
  cases hvalue : entry.2 with
  | list => simp [hvalue, FieldValue.toJs, FieldValue.kept, Function.comp_def]
  | _ => simp [hvalue, FieldValue.toJs, FieldValue.kept]

theorem integerOf_value (leaf : Leaf) : integerOf (Canonical.value leaf) = integerOf leaf := by
  cases leaf with
  | negZero => rfl
  | _ => rfl

theorem Fit.kept {spec : FieldSpec} {checked : FieldValue} (h : Fit spec checked) : Fit spec checked.kept := by
  cases checked with
  | integer =>
    cases spec with
    | integer =>
      rw [FieldValue.kept, Fit, integerOf_value]
      exact h
    | _ => cases h
  | _ => exact h

theorem Fitted.kept {fields : List (String × FieldSpec)} {fact : Fact} (h : Fitted fields fact) :
    Fitted fields (fact.map fun entry ↦ (entry.1, entry.2.kept)) := by
  induction h with
  | nil => exact .nil
  | skip entry _ ih => exact .skip entry ih
  | take field hfit _ ih => exact .take field hfit.kept ih

theorem InSchema.kept {spec : SectionSpec} {fact : Fact} (h : InSchema spec fact) :
    InSchema spec (fact.map fun entry ↦ (entry.1, entry.2.kept)) := by
  refine ⟨h.fitted.kept, ?_⟩
  rw [List.map_map]
  exact h.required

theorem valueOf_recorded (ns : Numbers) {fact : JsValue} (h : Recorded fact) :
    ∃ spec, sectionOf fact = some spec ∧ (valueOf ns spec fact).isOk = true := by
  obtain ⟨spec, sectionName, normalised, time, hspec, hschema, rfl⟩ := h
  have hname : text spec.name = sectionName := by simpa using List.find?_some hspec
  have hsection : memberOf "section" (contextFact sectionName normalised time) = some (.string sectionName) := rfl
  have hvalue : memberOf "value" (contextFact sectionName normalised time) = some (Conversations.kept normalised.toJs) := by
    simp [memberOf, contextFact, lookup, text_inj]
  refine ⟨spec, by rw [sectionOf, hsection]; exact hspec, ?_⟩
  have hvalid : validateFact ns sectionName _ = .ok _ := validateFact_of_inSchema hspec hschema.kept
  rw [valueOf, hname, hvalue, Option.getD_some, kept_toJs, hvalid]
  rfl

def AllRecorded (s : State) : Prop := ∀ conversation ∈ s.conversations, ∀ fact ∈ conversation.contextFacts, Recorded fact

theorem AllRecorded.of_facts (h : AllRecorded s)
    (hfacts : s'.conversations.map Conversation.contextFacts = s.conversations.map Conversation.contextFacts) : AllRecorded s' := by
  intro conversation hmem
  have hsame : conversation.contextFacts ∈ s'.conversations.map Conversation.contextFacts := List.mem_map_of_mem hmem
  rw [hfacts] at hsame
  obtain ⟨before, hbefore, heq⟩ := List.mem_map.mp hsame
  rw [← heq]
  exact h before hbefore

theorem AllRecorded.changes (h : AllRecorded s) (hchanges : Changes s s') : AllRecorded s' := by
  cases hchanges with
  | none => exact h
  | created =>
    intro conversation hmem
    rcases List.mem_append.mp hmem with hmem | hmem
    · exact h conversation hmem
    · rw [List.mem_singleton.mp hmem]
      exact fun fact hfact ↦ absurd hfact List.not_mem_nil
  | placed _ _ _ hfacts => exact h.of_facts hfacts
  | opened _ _ => exact h.of_facts (setActive_ids _ _ _).2
  | marked => exact h
  | moved => exact h
  | purged => exact fun conversation hmem ↦ h conversation (List.mem_filter.mp hmem).1
  | @recorded recording spec sectionName normalised time hrecording hspec hschema =>
    intro conversation hmem
    obtain ⟨before, hbefore, rfl⟩ := List.mem_map.mp hmem
    split
    · intro fact hfact
      rcases List.mem_append.mp hfact with hfact | hfact
      · exact h recording hrecording fact hfact
      · exact ⟨spec, sectionName, normalised, time, hspec, hschema, List.mem_singleton.mp hfact⟩
    · exact h before hbefore

theorem allRecorded_of_reachable (h : Reachable ns s) : AllRecorded s := by
  obtain ⟨projects, fresh, calls, rfl⟩ := h
  induction calls using List.reverseRecOn with
  | nil => exact fun conversation hmem ↦ absurd hmem List.not_mem_nil
  | append_singleton calls call ih =>
    have hwell : WellFormed (calls.foldl (step ns) (initial projects fresh)) := wellFormed_of_reachable ⟨projects, fresh, calls, rfl⟩
    rw [List.foldl_append]
    exact ih.changes (step_changes ns hwell call)

theorem view_of_recorded {facts : List JsValue} (h : ∀ fact ∈ facts, Recorded fact) :
    (view ns facts).rejectedFacts = 0 ∧ (view ns facts).unknownSectionFacts = 0 := by
  rw [view_eq]
  constructor
  · rw [List.countP_eq_zero]
    intro fact hfact
    obtain ⟨spec, hsection, hok⟩ := valueOf_recorded ns (h fact hfact)
    simp [hsection, hok]
  · rw [List.countP_eq_zero]
    intro fact hfact
    obtain ⟨spec, hsection, _⟩ := valueOf_recorded ns (h fact hfact)
    simp [hsection]

theorem refused_unchanged {conversationId : Id} {sectionName time : Units} {value : JsValue} {e : ContextSchemaViolation ⊕ Thrown}
    (h : (recordContextFact ns conversationId sectionName value time s).1 = .error e) :
    (recordContextFact ns conversationId sectionName value time s).2 = s := by
  unfold recordContextFact at h ⊢
  cases hvalidate : validateFact ns sectionName value with
  | error => rfl
  | ok =>
    simp only [hvalidate, transact] at h ⊢
    split at h
    · cases h
    · rfl

end Recording

/-- The gate that writes is exact but for names that every object inherits; and the gate that reads lets through
whatever calls have written, of which those that are refused have written nothing. -/
theorem gates_exact_iff (ns : Numbers) (sectionName : Units) (value : JsValue) (s : State) :
    (GateExact ns sectionName value ↔ ¬InheritedOnly sectionName value) ∧
    (Reachable ns s → ∀ conversation ∈ s.conversations, ∃ projection,
      projectSessionContext ns conversation.id s = .ok (.ok projection) ∧
        projection.rejectedFacts = 0 ∧ projection.unknownSectionFacts = 0) ∧
    ∀ conversationId time e, (recordContextFact ns conversationId sectionName value time s).1 = .error e →
      (recordContextFact ns conversationId sectionName value time s).2 = s := by
  refine ⟨gateExact_iff, ?_, fun _ _ _ ↦ refused_unchanged⟩
  intro h conversation hmem
  have hfound : findConversation s conversation.id = .ok conversation :=
    findById_of_mem (wellFormed_of_reachable h).conversationIds hmem
  have hview : (view ns conversation.contextFacts).rejectedFacts = 0 ∧ (view ns conversation.contextFacts).unknownSectionFacts = 0 :=
    view_of_recorded (allRecorded_of_reachable h conversation hmem)
  have hproject : projectSessionContext ns conversation.id s = .ok (projectContext ns conversation.contextFacts) := by
    rw [projectSessionContext, contextFacts, hfound]
    rfl
  rw [hproject, projectContext_eq]
  exact ⟨_, rfl, hview⟩

def shadowing : JsValue :=
  .object [(text "claim", .string (text "x")), (text "recomputed", .bool true), (text "toString", .string (text "anything"))]

theorem inherited_key_accepted : ¬GateExact zeroAndOne (text "evidence") shadowing := by
  intro h
  have haccepted : validateFact zeroAndOne (text "evidence") shadowing =
      .ok [("claim", .string (text "x")), ("recomputed", .boolean true)] := by
    rfl
  obtain ⟨spec, members, hspec, hvalue, hdeclared, _⟩ := h.accepts.mp ⟨_, haccepted⟩
  obtain rfl : evidenceSpec = spec := Option.some.inj hspec
  obtain rfl := Json.object.inj hvalue
  have hundeclared : text "toString" ∉ (evidenceSpec.fields.map Prod.fst).map text := by decide
  exact hundeclared (hdeclared (text "toString", .string (text "anything")) (by simp))

end Noesar.Context
