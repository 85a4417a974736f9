import Mathlib
import Noesar.Author.Rules
import Noesar.Canonical.Encoding
import Noesar.Lib.JsonOrder
import Noesar.Workflows.Definition

namespace Noesar.Context

open Lib Lib.Utf16 Lib.Json Lib.InsertionMap Lib.Decimal Canonical
open Author (text text_inj text_injective trim trimStart trimEnd)

/-- A write the state refuses, with the section and the field it names. -/
structure ContextSchemaViolation where
  sectionName : Units
  field : Option Units
  detail : Units

def ContextSchemaViolation.message (e : ContextSchemaViolation) : Units :=
  text "context state refuses this write: section \x60" ++ e.sectionName ++ text "\x60, " ++
    (match e.field with
    | none | some [] => []
    | some field => text "field \x60" ++ field ++ text "\x60: ") ++ e.detail

inductive FieldSpec
  | string (max : ℕ)
  | integer (min max : ℤ)
  | boolean
  | oneOf (values : List String)
  | list (max itemMax : ℕ)

/-- A value that has passed its field's check. A number is kept as it came. -/
inductive FieldValue
  | string (t : Units)
  | integer (leaf : Leaf)
  | boolean (b : Bool)
  | list (items : List Units)
  deriving DecidableEq

def FieldValue.toJs : FieldValue → JsValue
  | string t => .string t
  | integer leaf => .number leaf
  | boolean b => .bool b
  | list items => .array (items.map .string)

abbrev Fact := List (String × FieldValue)

def Fact.toJs (fact : Fact) : JsValue := .object (fact.map fun entry ↦ (text entry.1, entry.2.toJs))

/-- `value.field`, where it is `true` -/
def Fact.flag (field : String) (fact : Fact) : Bool := lookup field fact = some (.boolean true)

inductive Cardinality
  | one
  | many
  deriving DecidableEq

inductive Window
  | active
  deriving DecidableEq

structure SectionSpec where
  name : String
  title : String
  cardinality : Cardinality
  shows : ℕ
  window : Option Window
  rank : Option (Fact → ℕ)
  fields : List (String × FieldSpec)
  required : List String

def goalSpec : SectionSpec where
  name := "goal"
  title := "GOAL"
  cardinality := .one
  shows := 1
  window := none
  rank := none
  fields := [("text", .string 400), ("nonGoals", .list 5 120), ("criteria", .list 8 160)]
  required := ["text"]

def planSpec : SectionSpec where
  name := "plan"
  title := "PLAN"
  cardinality := .many
  shows := 8
  window := some .active
  rank := none
  fields := [("step", .integer 1 10000), ("verb", .string 40), ("target", .string 200),
    ("status", .oneOf ["pending", "active", "done", "failed"])]
  required := ["step", "verb", "status"]

def evidenceSpec : SectionSpec where
  name := "evidence"
  title := "EVIDENCE"
  cardinality := .many
  shows := 6
  window := none
  rank := none
  fields := [("claim", .string 240), ("source", .string 160), ("recomputed", .boolean)]
  required := ["claim", "recomputed"]

def questionsSpec : SectionSpec where
  name := "questions"
  title := "OPEN QUESTIONS"
  cardinality := .many
  shows := 4
  window := none
  rank := some fun value ↦ if value.flag "blocking" then 1 else 0
  fields := [("question", .string 240), ("blocking", .boolean)]
  required := ["question", "blocking"]

def diffSpec : SectionSpec where
  name := "diff"
  title := "CURRENT DIFF"
  cardinality := .many
  shows := 10
  window := none
  rank := none
  fields := [("path", .string 200), ("added", .integer 0 1000000), ("removed", .integer 0 1000000)]
  required := ["path", "added", "removed"]

def failuresSpec : SectionSpec where
  name := "failures"
  title := "FAILURE SIGNATURES"
  cardinality := .many
  shows := 4
  window := none
  rank := none
  fields := [("signature", .string 200), ("occurrences", .integer 1 1000000)]
  required := ["signature", "occurrences"]

def tokensSpec : SectionSpec where
  name := "tokens"
  title := "ACTIVE AUTHORITY"
  cardinality := .many
  shows := 4
  window := none
  rank := none
  fields := [("tokenId", .string 64), ("scope", .string 120), ("expiresAtUnix", .integer 0 4102444800)]
  required := ["tokenId", "scope"]

def attemptsSpec : SectionSpec where
  name := "attempts"
  title := "APPROACHES TRIED"
  cardinality := .many
  shows := 5
  window := none
  rank := none
  fields := [("approach", .string 160), ("outcome", .oneOf ["novel", "repeat", "abandoned"])]
  required := ["approach", "outcome"]

def repositorySpec : SectionSpec where
  name := "repository"
  title := "REPOSITORY SIGNALS"
  cardinality := .many
  shows := 4
  window := none
  rank := none
  fields := [("signal", .string 80), ("level", .oneOf ["low", "medium", "high"])]
  required := ["signal", "level"]

def contextSections : List SectionSpec :=
  [goalSpec, planSpec, evidenceSpec, questionsSpec, diffSpec, failuresSpec, tokensSpec, attemptsSpec, repositorySpec]

def sectionNamed (name : Units) : Option SectionSpec := contextSections.find? fun spec ↦ text spec.name = name

/-- `names.join(', ')` -/
def listed (names : List String) : Units := text (", ".intercalate names)

def integerShown (n : ℤ) : Units := encode (integerText n)

/-- `typeof value` -/
def typeOf : JsValue → Units
  | .null | .array _ | .object _ => text "object"
  | .bool _ => text "boolean"
  | .string _ => text "string"
  | .number (.other type) => text type
  | .number (.made _) => text "object"
  | .number _ => text "number"

def integerOf : Leaf → Option ℤ
  | .finite x => if x.val.den = 1 then some x.val.num else none
  | .negZero => some 0
  | _ => none

section Check

variable (ns : Numbers)

/-- `${n}` of a number -/
def numberShown : Leaf → Units
  | .finite x => encode (ns.stringify x)
  | .negZero => text "0"
  | .infinity => text "Infinity"
  | .negInfinity => text "-Infinity"
  | .nan => text "NaN"
  | .other type => text type
  | .made _ => text "[object Object]"

/-- `JSON.stringify(value)` -/
def stringified (value : JsValue) : Units :=
  encode (Json.print ⟨id, fun leaf ↦ match leaf with
    | .finite x => ns.stringify x
    | .negZero => ['0']
    | _ => "null".toList⟩ value)

def checkText (sectionName field : Units) (max : ℕ) : JsValue → Except ContextSchemaViolation Units
  | .string t =>
    if trim t = [] then .error ⟨sectionName, some field, text "expected a non-empty string"⟩
    else if max < (trim t).length then
      .error ⟨sectionName, some field, text "is " ++ integerShown (trim t).length ++ text " characters, over the " ++
        integerShown max ++ text " this field holds"⟩
    else .ok (trim t)
  | value => .error ⟨sectionName, some field, text "expected a string, got " ++ typeOf value⟩

def checkScalar (sectionName : Units) (field : String) : FieldSpec → JsValue → Except ContextSchemaViolation FieldValue
  | .string max, value => (checkText sectionName (text field) max value).map .string
  | .integer min max, .number leaf =>
    match integerOf leaf with
    | none => .error ⟨sectionName, some (text field), text "expected an integer, got " ++
        (if typeOf (.number leaf) = text "number" then numberShown ns leaf else typeOf (.number leaf))⟩
    | some n =>
      if n < min ∨ max < n then
        .error ⟨sectionName, some (text field), text "must be between " ++ integerShown min ++ text " and " ++
          integerShown max ++ text ", got " ++ numberShown ns leaf⟩
      else .ok (.integer leaf)
  | .integer _ _, value => .error ⟨sectionName, some (text field), text "expected an integer, got " ++ typeOf value⟩
  | .boolean, .bool b => .ok (.boolean b)
  | .boolean, value => .error ⟨sectionName, some (text field), text "expected true or false, got " ++ typeOf value⟩
  | .oneOf values, value =>
    match value with
    | .string t =>
      if t ∈ values.map text then .ok (.string t)
      else .error ⟨sectionName, some (text field), text "must be one of " ++ listed values ++ text ", got " ++
        stringified ns value⟩
    | _ => .error ⟨sectionName, some (text field), text "must be one of " ++ listed values ++ text ", got " ++
        stringified ns value⟩
  | .list max itemMax, .array items =>
    if max < items.length then
      .error ⟨sectionName, some (text field), text "holds at most " ++ integerShown max ++ text " entries, got " ++
        integerShown items.length⟩
    else (items.zipIdx.mapM fun (item, (index : ℕ)) ↦
      checkText sectionName (text field ++ text "[" ++ integerShown index ++ text "]") itemMax item).map .list
  | .list _ _, value => .error ⟨sectionName, some (text field), text "expected an array, got " ++ typeOf value⟩

/-- `key in spec.fields` -/
def isField (spec : SectionSpec) (key : Units) : Bool := key ∈ (spec.fields.map Prod.fst ++ Workflows.inherited).map text

/-- `value.field`, where it is neither `undefined` nor `null` -/
def present (members : List (Units × JsValue)) (field : String) : Option JsValue :=
  (lookup (text field) members).filter fun value ↦
    match value with
    | .null => false
    | .number (.other type) => type ≠ "undefined"
    | _ => true

def normalise (sectionName : Units) (members : List (Units × JsValue)) :
    List (String × FieldSpec) → Except ContextSchemaViolation Fact
  | [] => .ok []
  | (field, spec) :: fields =>
    match present members field with
    | none => normalise sectionName members fields
    | some value => do
      let checked ← checkScalar ns sectionName field spec value
      let rest ← normalise sectionName members fields
      return (field, checked) :: rest

def validateFact (sectionName : Units) (value : JsValue) : Except ContextSchemaViolation Fact :=
  match sectionNamed sectionName with
  | none => .error ⟨sectionName, none, text "no such section; the state has exactly " ++ listed (contextSections.map (·.name))⟩
  | some spec =>
    match value with
    | .object members => do
      members.forM fun m ↦
        if isField spec m.1 then .ok ()
        else .error ⟨sectionName, some m.1, text "is not a field of this section; it has " ++ listed (spec.fields.map (·.1))⟩
      spec.required.forM fun key ↦
        if (present members key).isSome then .ok () else .error ⟨sectionName, some (text key), text "is required"⟩
      normalise ns sectionName members spec.fields
    | _ => .error ⟨sectionName, none, text "expected an object of \x7b" ++ listed (spec.fields.map (·.1)) ++ text "\x7d"⟩

end Check

/-- A text that fits: trimmed, not blank, and no longer than it may be. -/
structure FitText (max : ℕ) (t : Units) : Prop where
  trimmed : trim t = t
  nonempty : t ≠ []
  short : t.length ≤ max

def Fit : FieldSpec → FieldValue → Prop
  | .string max, .string t => FitText max t
  | .integer min max, .integer leaf => ∃ n, integerOf leaf = some n ∧ min ≤ n ∧ n ≤ max
  | .boolean, .boolean _ => True
  | .oneOf values, .string t => t ∈ values.map text
  | .list max itemMax, .list items => items.length ≤ max ∧ ∀ item ∈ items, FitText itemMax item
  | _, _ => False

/-- Some of the fields with values that fit them, in order. -/
inductive Fitted : List (String × FieldSpec) → Fact → Prop
  | nil : Fitted [] []
  | skip {fields : List (String × FieldSpec)} {fact : Fact} (entry : String × FieldSpec) : Fitted fields fact → Fitted (entry :: fields) fact
  | take {fields : List (String × FieldSpec)} {fact : Fact} {spec : FieldSpec} {value : FieldValue} (field : String) :
      Fit spec value → Fitted fields fact → Fitted ((field, spec) :: fields) ((field, value) :: fact)

structure InSchema (spec : SectionSpec) (fact : Fact) : Prop where
  fitted : Fitted spec.fields fact
  required : spec.required ⊆ fact.map Prod.fst

theorem trim_trim (t : Units) : trim (trim t) = trim t := by
  have hstart : trimStart (trim t) = trim t := by
    rw [trimStart, List.dropWhile_eq_self_iff]
    intro hpos
    have hprefix : trim t <+: trimStart t := List.rdropWhile_prefix _ _
    have hlonger : 0 < (trimStart t).length := hpos.trans_le hprefix.length_le
    have hhead : (trim t)[0] = (trimStart t)[0] := hprefix.getElem hpos
    rw [hhead]
    exact List.dropWhile_get_zero_not _ t _
  have hend : trimEnd (trim t) = trim t := List.rdropWhile_idempotent _ _
  rw [trim, hstart, hend]

section Laws

variable {ns : Numbers} {sectionName field : Units} {max : ℕ} {value : JsValue}

theorem fitText_of_checkText {t : Units} (h : checkText sectionName field max value = .ok t) : FitText max t := by
  unfold checkText at h
  split at h
  · rename_i raw
    split at h
    · cases h
    · rename_i hblank
      split at h
      · cases h
      · rename_i hlong
        obtain rfl := Except.ok.inj h
        exact ⟨trim_trim raw, hblank, Nat.le_of_not_lt hlong⟩
  · cases h

theorem checkText_of_fitText {t : Units} (h : FitText max t) : checkText sectionName field max (.string t) = .ok t := by
  simp [checkText, h.trimmed, h.nonempty, h.short]

variable {checked : FieldValue} {spec : SectionSpec}

theorem fit_of_checkScalar {field : String} {spec : FieldSpec}
    (h : checkScalar ns sectionName field spec value = .ok checked) : Fit spec checked := by
  cases spec with
  | string =>
    obtain ⟨t, ht, rfl⟩ := map_ok.mp h
    exact fitText_of_checkText ht
  | integer =>
    cases value with
    | number =>
      simp only [checkScalar] at h
      split at h
      · cases h
      · rename_i n hn
        split at h
        · cases h
        · rename_i hrange
          obtain rfl := Except.ok.inj h
          exact ⟨n, hn, by omega, by omega⟩
    | _ => cases h
  | boolean =>
    cases value with
    | bool =>
      obtain rfl := Except.ok.inj h
      trivial
    | _ => cases h
  | oneOf =>
    cases value with
    | string =>
      simp only [checkScalar] at h
      split at h
      · rename_i hmem
        obtain rfl := Except.ok.inj h
        exact hmem
      · cases h
    | _ => cases h
  | list =>
    cases value with
    | array =>
      simp only [checkScalar] at h
      split at h
      · cases h
      · rename_i hlength
        obtain ⟨ts, hts, rfl⟩ := map_ok.mp h
        have hall := mapM_ok_iff.mp hts
        refine ⟨?_, ?_⟩
        · rw [← hall.length_eq, List.length_zipIdx]
          omega
        · intro t ht
          obtain ⟨entry, _, hentry⟩ := mem_of_mapM_ok hts ht
          exact fitText_of_checkText hentry
    | _ => cases h

theorem checkScalar_of_fit {field : String} {spec : FieldSpec} (h : Fit spec checked) :
    checkScalar ns sectionName field spec checked.toJs = .ok checked := by
  cases spec with
  | string =>
    cases checked with
    | string t => exact map_ok.mpr ⟨t, checkText_of_fitText h, rfl⟩
    | _ => cases h
  | integer min max =>
    cases checked with
    | integer =>
      obtain ⟨n, hn, hmin, hmax⟩ := h
      have hrange : ¬(n < min ∨ max < n) := by omega
      simp [checkScalar, FieldValue.toJs, hn, hrange]
    | _ => cases h
  | boolean =>
    cases checked with
    | boolean => rfl
    | _ => cases h
  | oneOf =>
    cases checked with
    | string => exact if_pos h
    | _ => cases h
  | list max itemMax =>
    cases checked with
    | list items =>
      obtain ⟨hlength, hitems⟩ := h
      have hshort : ¬max < (items.map (Json.string : Units → JsValue)).length := by simpa using hlength
      simp only [checkScalar, FieldValue.toJs, if_neg hshort]
      refine map_ok.mpr ⟨items, ?_, rfl⟩
      have hchecked : ∀ entry ∈ items.zipIdx, checkText sectionName
          (text field ++ text "[" ++ integerShown (entry.2 : ℕ) ++ text "]") itemMax (.string entry.1) = .ok entry.1 := by
        intro entry hentry
        exact checkText_of_fitText (hitems _ (List.fst_mem_of_mem_zipIdx hentry))
      rw [List.zipIdx_map, List.mapM_map]
      exact (Canonical.mapM_ok hchecked).trans (by rw [List.zipIdx_map_fst])
    | _ => cases h

variable {members : List (Units × JsValue)} {fields : List (String × FieldSpec)} {fact : Fact}

theorem fitted_of_normalise (h : normalise ns sectionName members fields = .ok fact) : Fitted fields fact := by
  induction fields generalizing fact with
  | nil =>
    obtain rfl := Except.ok.inj h
    exact .nil
  | cons entry fields ih =>
    obtain ⟨field, spec⟩ := entry
    rw [normalise] at h
    split at h
    · exact .skip _ (ih h)
    · obtain ⟨checked, hchecked, h⟩ := bind_ok.mp h
      obtain ⟨rest, hrest, h⟩ := bind_ok.mp h
      obtain rfl := Except.ok.inj h
      exact .take field (fit_of_checkScalar hchecked) (ih hrest)

theorem mem_of_present (h : normalise ns sectionName members fields = .ok fact) {field : String}
    (hfield : field ∈ fields.map Prod.fst) (hpresent : (present members field).isSome) : field ∈ fact.map Prod.fst := by
  induction fields generalizing fact with
  | nil => cases hfield
  | cons entry fields ih =>
    obtain ⟨name, spec⟩ := entry
    rw [List.map_cons, List.mem_cons] at hfield
    rw [normalise] at h
    split at h
    · rename_i hnone
      rcases hfield with rfl | hfield
      · rw [hnone] at hpresent
        cases hpresent
      · exact ih h hfield
    · obtain ⟨checked, hchecked, h⟩ := bind_ok.mp h
      obtain ⟨rest, hrest, h⟩ := bind_ok.mp h
      obtain rfl := Except.ok.inj h
      rcases hfield with rfl | hfield
      · exact List.mem_cons_self
      · exact List.mem_cons_of_mem _ (ih hrest hfield)

theorem Fitted.names_sublist (h : Fitted fields fact) : (fact.map Prod.fst).Sublist (fields.map Prod.fst) := by
  induction h with
  | nil => exact .slnil
  | skip entry _ ih => exact .cons _ ih
  | take field _ _ ih => exact .cons_cons _ ih

theorem Fitted.each (h : Fitted fields fact) : ∀ entry ∈ fact, ∃ spec, (entry.1, spec) ∈ fields ∧ Fit spec entry.2 := by
  induction h with
  | nil => exact fun entry hentry ↦ absurd hentry List.not_mem_nil
  | skip _ _ ih =>
    intro entry hentry
    obtain ⟨spec, hspec, hfit⟩ := ih entry hentry
    exact ⟨spec, List.mem_cons_of_mem _ hspec, hfit⟩
  | take field hfit _ ih =>
    intro entry hentry
    rcases List.mem_cons.mp hentry with rfl | hentry
    · exact ⟨_, List.mem_cons_self, hfit⟩
    · obtain ⟨spec, hspec, hfit⟩ := ih entry hentry
      exact ⟨spec, List.mem_cons_of_mem _ hspec, hfit⟩

theorem present_singleton (field : String) {spec : FieldSpec} (h : Fit spec checked) :
    present [(text field, checked.toJs)] field = some checked.toJs := by
  cases checked with
  | integer leaf =>
    cases leaf with
    | other => cases spec <;> simp [Fit, integerOf] at h
    | _ => simp [present, lookup, FieldValue.toJs]
  | _ => simp [present, lookup, FieldValue.toJs]

theorem present_toJs (h : ∀ entry ∈ fact, ∃ spec, Fit spec entry.2) (field : String) :
    present (fact.map fun entry ↦ (text entry.1, entry.2.toJs)) field = (lookup field fact).map FieldValue.toJs := by
  induction fact with
  | nil => rfl
  | cons entry fact ih =>
    obtain ⟨name, value⟩ := entry
    have ih := ih fun entry hentry ↦ h entry (List.mem_cons_of_mem _ hentry)
    by_cases hname : name = field
    · subst hname
      obtain ⟨spec, hfit⟩ := h (name, value) List.mem_cons_self
      simpa [present, lookup] using present_singleton name hfit
    · have hne : text name ≠ text field := fun h ↦ hname (text_injective h)
      simpa [present, lookup, hname, hne] using ih

theorem normalise_of_fitted (hfields : (fields.map Prod.fst).Nodup) (h : Fitted fields fact)
    (hmembers : ∀ field ∈ fields.map Prod.fst, present members field = (lookup field fact).map FieldValue.toJs) :
    normalise ns sectionName members fields = .ok fact := by
  induction h with
  | nil => rfl
  | skip entry hfitted ih =>
    rw [List.map_cons, List.nodup_cons] at hfields
    have habsent : lookup entry.1 _ = none := lookup_eq_none.mpr fun hmem ↦ hfields.1 (hfitted.names_sublist.subset hmem)
    rw [normalise, hmembers entry.1 List.mem_cons_self, habsent]
    exact ih hfields.2 fun field hfield ↦ hmembers field (List.mem_cons_of_mem _ hfield)
  | take field hfit _ ih =>
    rw [List.map_cons, List.nodup_cons] at hfields
    have hhere := hmembers field List.mem_cons_self
    rw [lookup, if_pos rfl] at hhere
    have hrest := ih hfields.2 fun other hother ↦ by
      rw [hmembers other (List.mem_cons_of_mem _ hother), lookup, if_neg]
      rintro rfl
      exact hfields.1 hother
    rw [normalise, hhere]
    simp only [Option.map_some, checkScalar_of_fit hfit, hrest, bind, Except.bind, pure, Except.pure]

theorem validateFact_ok : validateFact ns sectionName value = .ok fact ↔ ∃ spec members, sectionNamed sectionName = some spec ∧
    value = .object members ∧ (∀ m ∈ members, isField spec m.1 = true) ∧
    (∀ key ∈ spec.required, (present members key).isSome = true) ∧ normalise ns sectionName members spec.fields = .ok fact := by
  have hguard {p : Prop} [Decidable p] {e : ContextSchemaViolation} :
      (if p then Except.ok () else Except.error e) = Except.ok () ↔ p := by
    split <;> simp_all
  unfold validateFact
  cases sectionNamed sectionName with
  | none => simp
  | some =>
    cases value with
    | object =>
      simp only [bind_ok, exists_unit, forM_ok, hguard]
      simp
    | _ => simp

structure Coherent (spec : SectionSpec) : Prop where
  named : sectionNamed (text spec.name) = some spec
  nodup : (spec.fields.map Prod.fst).Nodup
  required : spec.required ⊆ spec.fields.map Prod.fst

theorem coherent (h : spec ∈ contextSections) : Coherent spec := by
  simp only [contextSections, List.mem_cons, List.not_mem_nil, or_false] at h
  rcases h with rfl | rfl | rfl | rfl | rfl | rfl | rfl | rfl | rfl
  all_goals exact ⟨rfl, by decide, by decide⟩

theorem inSchema_of_validateFact (hspec : sectionNamed sectionName = some spec)
    (h : validateFact ns sectionName value = .ok fact) : InSchema spec fact := by
  obtain ⟨spec', members, hspec', rfl, _, hrequired, hnormalise⟩ := validateFact_ok.mp h
  obtain rfl := Option.some.inj (hspec.symm.trans hspec')
  refine ⟨fitted_of_normalise hnormalise, ?_⟩
  intro key hkey
  exact mem_of_present hnormalise ((coherent (List.mem_of_find?_eq_some hspec)).required hkey) (hrequired key hkey)

theorem validateFact_of_inSchema (hspec : sectionNamed sectionName = some spec) (h : InSchema spec fact) :
    validateFact ns sectionName fact.toJs = .ok fact := by
  have hcoherent := coherent (List.mem_of_find?_eq_some hspec)
  have hpresent := present_toJs fun entry hentry ↦ (h.fitted.each entry hentry).imp fun _ h ↦ h.2
  refine validateFact_ok.mpr ⟨spec, _, hspec, rfl, ?_, ?_, normalise_of_fitted hcoherent.nodup h.fitted fun field _ ↦ hpresent field⟩
  · intro m hm
    obtain ⟨entry, hentry, rfl⟩ := List.mem_map.mp hm
    have hfield := h.fitted.names_sublist.subset (List.mem_map_of_mem hentry)
    exact decide_eq_true (List.mem_map_of_mem (List.mem_append_left _ hfield))
  · intro key hkey
    rw [hpresent, Option.isSome_map]
    by_contra hnone
    rw [Option.not_isSome_iff_eq_none] at hnone
    exact lookup_eq_none.mp hnone (h.required hkey)

end Laws

end Noesar.Context
