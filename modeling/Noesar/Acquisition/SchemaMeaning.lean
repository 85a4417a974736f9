import Noesar.Acquisition.Schema

namespace Noesar.Acquisition.Schema

open Lib Lib.Utf16 Lib.Json Lib.InsertionMap Canonical
open Author (text text_inj)

abbrev Members := List (Units × JsValue)

/-- The names a `type` keyword can have. -/
def typeNames : List Units := ["null", "boolean", "object", "array", "number", "string", "integer"].map text

/-- The type `integer` has the numbers without a fraction. -/
def HasType : JsValue → Units → Prop
  | .null, name => name = text "null"
  | .bool _, name => name = text "boolean"
  | .number leaf, name => name = text "number" ∨ name = text "integer" ∧ isInteger (.number leaf) = true
  | .string _, name => name = text "string"
  | .array _, name => name = text "array"
  | .object _, name => name = text "object"

/-- The subschema that a member of an object has to satisfy, where it has to satisfy any. -/
def Governs (members : Members) (key : Units) (inner : JsValue) : Prop :=
  lookup key (propertiesOf members) = some inner ∨
    lookup key (propertiesOf members) = none ∧ lookup (text "additionalProperties") members = some inner

/-- What the keywords of a schema say of a document, as JSON Schema has it. -/
inductive Satisfies : JsValue → JsValue → Prop
  | always (value : JsValue) : Satisfies value (.bool true)
  | keywords {value : JsValue} {members : Members}
    (const : ∀ constant, lookup (text "const") members = some constant → Same Canonical.value value constant)
    (enum : ∀ candidates, lookup (text "enum") members = some (.array candidates) →
      ∃ candidate ∈ candidates, Same Canonical.value value candidate)
    (type : ∀ type, lookup (text "type") members = some type → ∃ name, .string name ∈ typesOf type ∧ HasType value name)
    (required : ∀ entries, value = .object entries → ∀ key ∈ requiredOf members, key ∈ entries.map Prod.fst)
    (properties : ∀ entries, value = .object entries → ∀ m ∈ entries, ∀ inner, Governs members m.1 inner →
      Satisfies m.2 inner)
    (items : ∀ items, value = .array items → ∀ inner, lookup (text "items") members = some inner →
      ∀ item ∈ items, Satisfies item inner) : Satisfies value (.object members)

/-- The keywords that are checked have values of the right form, at every depth. -/
inductive WellFormed : JsValue → Prop
  | flag (b : Bool) : WellFormed (.bool b)
  | keywords {members : Members}
    (enum : ∀ v, lookup (text "enum") members = some v → ∃ candidates, v = .array candidates)
    (type : ∀ v, lookup (text "type") members = some v → ∀ t ∈ typesOf v, ∃ name ∈ typeNames, t = .string name)
    (required : ∀ v, lookup (text "required") members = some v → ∃ keys : List Units, v = .array (keys.map .string))
    (object : ∀ v, lookup (text "properties") members = some v → ∃ properties, v = .object properties)
    (properties : ∀ m ∈ propertiesOf members, WellFormed m.2)
    (additionalProperties : ∀ inner, lookup (text "additionalProperties") members = some inner → WellFormed inner)
    (items : ∀ inner, lookup (text "items") members = some inner → WellFormed inner) : WellFormed (.object members)

/-- A keyword that is neither checked nor without meaning stands somewhere in the schema. -/
inductive Foreign : JsValue → Prop
  | here {members : Members} {m : Units × JsValue} (hm : m ∈ members) (h : keywordAllowed m.1 = false) : Foreign (.object members)
  | property {members : Members} {m : Units × JsValue} (hm : m ∈ propertiesOf members) (h : Foreign m.2) :
    Foreign (.object members)
  | additionalProperties {members : Members} {inner : JsValue}
    (hinner : lookup (text "additionalProperties") members = some inner) (h : Foreign inner) : Foreign (.object members)
  | items {members : Members} {inner : JsValue} (hinner : lookup (text "items") members = some inner) (h : Foreign inner) :
    Foreign (.object members)

def isCompound : JsValue → Bool
  | .array _ | .object _ => true
  | .null | .bool _ | .number _ | .string _ => false

/-- Nowhere does a `const` or an `enum` apply to an array or an object of the document. -/
inductive Comparable : JsValue → JsValue → Prop
  | flag (value : JsValue) (b : Bool) : Comparable value (.bool b)
  | keywords {value : JsValue} {members : Members}
    (scalar : text "const" ∈ members.map Prod.fst ∨ text "enum" ∈ members.map Prod.fst → isCompound value = false)
    (properties : ∀ entries, value = .object entries → ∀ m ∈ entries, ∀ inner, Governs members m.1 inner →
      Comparable m.2 inner)
    (items : ∀ items, value = .array items → ∀ inner, lookup (text "items") members = some inner →
      ∀ item ∈ items, Comparable item inner) : Comparable value (.object members)

section Scalars

variable {value other : JsValue}

theorem strictEqual_compound (h : isCompound value = true) : strictEqual value other = false ∧ strictEqual other value = false := by
  cases value with
  | array | object => cases other <;> exact ⟨rfl, rfl⟩
  | null | bool | number | string => cases h

theorem sameLeaf_iff {a b : Leaf} (h : isFinite a ∨ isFinite b) : sameLeaf a b = true ↔ Canonical.value a = Canonical.value b := by
  cases a with
  | nan =>
    have hb : isFinite b := h.resolve_left id
    cases b with
    | finite | negZero => simp [sameLeaf, Canonical.value]
    | _ => exact hb.elim
  | _ => simp [sameLeaf]

theorem strictEqual_iff (hfinite : value.EachNumber isFinite) (h : isCompound value = false) :
    (strictEqual value other = true ↔ Same Canonical.value value other) ∧
      (strictEqual other value = true ↔ Same Canonical.value value other) := by
  cases value with
  | array | object => cases h
  | null => cases other <;> simp [strictEqual, Same]
  | bool =>
    cases other with
    | bool => simp [strictEqual, Same, eq_comm]
    | _ => simp [strictEqual, Same]
  | string =>
    cases other with
    | string => simp [strictEqual, Same, eq_comm]
    | _ => simp [strictEqual, Same]
  | number a =>
    cases other with
    | number b =>
      have ha : isFinite a := hfinite
      simp only [strictEqual, sameLeaf_iff (.inl ha), sameLeaf_iff (.inr ha), Same, fold_number, number.injEq]
      constructor
      · constructor
        · intro hab
          exact ⟨b, rfl, hab⟩
        · rintro ⟨c, hc, hac⟩
          rw [hc, hac]
      · constructor
        · intro hba
          exact ⟨b, rfl, hba.symm⟩
        · rintro ⟨c, hc, hac⟩
          rw [hc, hac]
    | _ => simp [strictEqual, Same]

end Scalars

section Keywords

variable {ns : Numbers} {value : JsValue} {members : Members} {path : Units}

theorem mem_keys_of_lookup {key : Units} {v : JsValue} (h : lookup key members = some v) : key ∈ members.map Prod.fst :=
  List.mem_map_of_mem (mem_of_lookup h)

theorem constError_eq_none (hfinite : value.EachNumber isFinite) : constError ns value members path = none ↔
    (∀ constant, lookup (text "const") members = some constant → Same Canonical.value value constant) ∧
      (text "const" ∈ members.map Prod.fst → isCompound value = false) := by
  rw [constError]
  cases hlookup : lookup (text "const") members with
  | none => simp [lookup_eq_none.mp hlookup]
  | some =>
    have hkey := mem_keys_of_lookup hlookup
    cases hvalue : isCompound value with
    | true => simp [(strictEqual_compound hvalue).1, hkey]
    | false => simp [← (strictEqual_iff hfinite hvalue).1]

theorem enumError_eq_none (hfinite : value.EachNumber isFinite)
    (hwell : ∀ v, lookup (text "enum") members = some v → ∃ candidates, v = .array candidates) :
    enumError ns value members path = none ↔
      (∀ candidates, lookup (text "enum") members = some (.array candidates) →
        ∃ candidate ∈ candidates, Same Canonical.value value candidate) ∧
      (text "enum" ∈ members.map Prod.fst → isCompound value = false) := by
  rw [enumError]
  cases hlookup : lookup (text "enum") members with
  | none => simp [lookup_eq_none.mp hlookup]
  | some v =>
    obtain ⟨candidates, rfl⟩ := hwell v hlookup
    have hkey := mem_keys_of_lookup hlookup
    cases hvalue : isCompound value with
    | true => simp [(strictEqual_compound hvalue).2, hkey]
    | false => simp [← (strictEqual_iff hfinite hvalue).2]

theorem matchesType_iff (hfinite : value.EachNumber isFinite) {name : Units} (hname : name ∈ typeNames) :
    matchesType value (.string name) = true ↔ HasType value name := by
  have hnames : name = text "null" ∨ name = text "boolean" ∨ name = text "object" ∨ name = text "array" ∨
      name = text "number" ∨ name = text "string" ∨ name = text "integer" := by simpa [typeNames] using hname
  cases value with
  | number leaf =>
    have hnumber : typeOfLeaf leaf = "number" ∧ isFiniteNumber (.number leaf) = true := by
      cases leaf with
      | finite | negZero => exact ⟨rfl, rfl⟩
      | _ => exact (show False from hfinite).elim
    obtain rfl | rfl | rfl | rfl | rfl | rfl | rfl := hnames <;> simp [matchesType, HasType, typeOf, text_inj, hnumber]
  | null | bool | string | array | object =>
    obtain rfl | rfl | rfl | rfl | rfl | rfl | rfl := hnames <;>
      simp [matchesType, HasType, typeOf, text_inj, isInteger, isFiniteNumber]

theorem typeError_eq_none (hfinite : value.EachNumber isFinite)
    (hwell : ∀ v, lookup (text "type") members = some v → ∀ t ∈ typesOf v, ∃ name ∈ typeNames, t = .string name) :
    typeError value members path = none ↔ ∀ type, lookup (text "type") members = some type →
      ∃ name, .string name ∈ typesOf type ∧ HasType value name := by
  rw [typeError]
  cases hlookup : lookup (text "type") members with
  | none => simp
  | some type =>
    have hnames := hwell type hlookup
    simp only [Option.some.injEq, forall_eq', ite_eq_left_iff, reduceCtorEq, imp_false, not_not, List.any_eq_true]
    constructor
    · intro ⟨t, ht, hmatches⟩
      obtain ⟨name, hname, rfl⟩ := hnames t ht
      exact ⟨name, ht, (matchesType_iff hfinite hname).mp hmatches⟩
    · intro ⟨name, hmem, htype⟩
      obtain ⟨known, hknown, heq⟩ := hnames _ hmem
      obtain rfl := Json.string.inj heq
      exact ⟨_, hmem, (matchesType_iff hfinite hknown).mpr htype⟩

/-- What the keywords say that look at a value as a whole. -/
structure Whole (value : JsValue) (members : Members) : Prop where
  const : ∀ constant, lookup (text "const") members = some constant → Same Canonical.value value constant
  enum : ∀ candidates, lookup (text "enum") members = some (.array candidates) →
    ∃ candidate ∈ candidates, Same Canonical.value value candidate
  type : ∀ type, lookup (text "type") members = some type → ∃ name, .string name ∈ typesOf type ∧ HasType value name
  scalar : text "const" ∈ members.map Prod.fst ∨ text "enum" ∈ members.map Prod.fst → isCompound value = false

theorem stopped_eq_none (hfinite : value.EachNumber isFinite) (hwell : WellFormed (.object members)) :
    stopped ns value members path = none ↔ Whole value members := by
  cases hwell with
  | keywords henum htype =>
    rw [stopped, Option.or_eq_none_iff, Option.or_eq_none_iff, constError_eq_none hfinite, enumError_eq_none hfinite henum,
      typeError_eq_none hfinite htype]
    constructor
    · intro ⟨⟨hconst, hconstant⟩, ⟨henum, hlisted⟩, htype⟩
      exact ⟨hconst, henum, htype, fun h ↦ h.elim hconstant hlisted⟩
    · intro h
      exact ⟨⟨h.const, fun hkey ↦ h.scalar (.inl hkey)⟩, ⟨h.enum, fun hkey ↦ h.scalar (.inr hkey)⟩, h.type⟩

theorem missing_eq_nil {entries : Members} :
    missing entries members path = [] ↔ ∀ key ∈ requiredOf members, key ∈ entries.map Prod.fst := by
  simp only [missing, List.filterMap_eq_nil_iff, ite_eq_left_iff, reduceCtorEq, imp_false, not_not]

end Keywords

section Nested

variable {ns : Numbers} {members : Members} {path : Units}

/-- A value does what a schema says, and `const` and `enum` apply to scalars only. -/
def Accepts (value schema : JsValue) : Prop := Satisfies value schema ∧ Comparable value schema

theorem accepts_bool {value : JsValue} {b : Bool} : Accepts value (.bool b) ↔ b = true := by
  constructor
  · intro ⟨h, _⟩
    cases h
    rfl
  · intro h
    subst h
    exact ⟨.always value, .flag value true⟩

theorem accepts_keywords {value : JsValue} : Accepts value (.object members) ↔ Whole value members ∧
    (∀ entries, value = .object entries → (∀ key ∈ requiredOf members, key ∈ entries.map Prod.fst) ∧
      ∀ m ∈ entries, ∀ inner, Governs members m.1 inner → Accepts m.2 inner) ∧
    ∀ items, value = .array items → ∀ inner, lookup (text "items") members = some inner → ∀ item ∈ items, Accepts item inner := by
  constructor
  · intro ⟨hsat, hcomp⟩
    cases hsat with
    | keywords hconst henum htype hrequired hproperties hitems =>
      cases hcomp with
      | keywords hscalar hproperties' hitems' =>
        refine ⟨⟨hconst, henum, htype, hscalar⟩, ?_, ?_⟩
        · intro entries hvalue
          refine ⟨hrequired entries hvalue, ?_⟩
          intro m hm inner hinner
          exact ⟨hproperties entries hvalue m hm inner hinner, hproperties' entries hvalue m hm inner hinner⟩
        · intro items hvalue inner hinner item hitem
          exact ⟨hitems items hvalue inner hinner item hitem, hitems' items hvalue inner hinner item hitem⟩
  · intro ⟨hwhole, hobject, harray⟩
    constructor
    · refine .keywords hwhole.const hwhole.enum hwhole.type (fun entries hvalue ↦ (hobject entries hvalue).1) ?_ ?_
      · intro entries hvalue m hm inner hinner
        exact ((hobject entries hvalue).2 m hm inner hinner).1
      · intro items hvalue inner hinner item hitem
        exact (harray items hvalue inner hinner item hitem).1
    · refine .keywords hwhole.scalar ?_ ?_
      · intro entries hvalue m hm inner hinner
        exact ((hobject entries hvalue).2 m hm inner hinner).2
      · intro items hvalue inner hinner item hitem
        exact (harray items hvalue inner hinner item hitem).2

theorem WellFormed.governs (h : WellFormed (.object members)) {key : Units} {inner : JsValue} (hinner : Governs members key inner) :
    WellFormed inner := by
  cases h with
  | keywords _ _ _ _ hproperties hadditional _ =>
    rcases hinner with hinner | ⟨_, hinner⟩
    · exact hproperties _ (mem_of_lookup hinner)
    · exact hadditional inner hinner

theorem WellFormed.items (h : WellFormed (.object members)) {inner : JsValue}
    (hinner : lookup (text "items") members = some inner) : WellFormed inner := by
  cases h with
  | keywords _ _ _ _ _ _ hitems => exact hitems inner hinner

theorem placed_cases (hwell : WellFormed (.object members)) (key : Units) :
    (∃ inner, placed members key = .governed inner ∧ ∀ schema, Governs members key schema ↔ schema = inner) ∨
      (placed members key = .refused ∧ ∀ schema, Governs members key schema ↔ schema = .bool false) ∨
      (placed members key = .free ∧ ∀ schema, Governs members key schema → schema = .bool true) := by
  unfold placed Governs
  cases hproperty : lookup key (propertiesOf members) with
  | some inner => exact .inl ⟨inner, rfl, by simp [eq_comm]⟩
  | none =>
    cases hadditional : lookup (text "additionalProperties") members with
    | none => exact .inr (.inr ⟨rfl, by simp⟩)
    | some schema =>
      cases hwell with
      | keywords _ _ _ _ _ hinner _ =>
        cases hinner schema hadditional with
        | flag b =>
          cases b with
          | false => exact .inr (.inl ⟨rfl, by simp [eq_comm]⟩)
          | true => exact .inr (.inr ⟨rfl, by simp [eq_comm]⟩)
        | keywords => exact .inl ⟨_, rfl, by simp [eq_comm]⟩

theorem entries_eq_nil (hwell : WellFormed (.object members)) {entries : Members}
    (hchild : ∀ m ∈ entries, ∀ schema path, WellFormed schema → (check ns m.2 schema path = [] ↔ Accepts m.2 schema)) :
    check.entries ns entries members path = [] ↔ ∀ m ∈ entries, ∀ inner, Governs members m.1 inner → Accepts m.2 inner := by
  induction entries with
  | nil => simp [check.entries]
  | cons m entries ih =>
    obtain ⟨key, entry⟩ := m
    have hrest := ih fun m hm ↦ hchild m (List.mem_cons_of_mem _ hm)
    have hhead := hchild (key, entry) List.mem_cons_self
    rw [check.entries, List.append_eq_nil_iff, hrest, List.forall_mem_cons]
    apply and_congr_left'
    rcases placed_cases hwell key with ⟨inner, hplaced, hgoverns⟩ | ⟨hplaced, hgoverns⟩ | ⟨hplaced, hgoverns⟩
    · rw [hplaced]
      have hinner : WellFormed inner := hwell.governs ((hgoverns inner).mpr rfl)
      simp only [hgoverns, forall_eq]
      exact hhead inner _ hinner
    · rw [hplaced]
      simp only [hgoverns, forall_eq, accepts_bool, Bool.false_eq_true, iff_false]
      exact List.cons_ne_nil _ _
    · rw [hplaced]
      simp only [true_iff]
      intro inner hinner
      rw [hgoverns inner hinner]
      exact accepts_bool.mpr rfl

theorem items_eq_nil {items : List JsValue} {inner : JsValue} (index : ℕ)
    (hchild : ∀ item ∈ items, ∀ path, check ns item inner path = [] ↔ Accepts item inner) :
    check.items ns items inner path index = [] ↔ ∀ item ∈ items, Accepts item inner := by
  induction items generalizing index with
  | nil => simp [check.items]
  | cons item items ih =>
    rw [check.items, List.append_eq_nil_iff, ih _ fun item hitem ↦ hchild item (List.mem_cons_of_mem _ hitem),
      hchild item List.mem_cons_self, List.forall_mem_cons]

theorem checkNode_eq_nil {value schema : JsValue} {nested : Members → List SchemaError} (hfinite : value.EachNumber isFinite)
    (hwell : WellFormed schema)
    (hnested : ∀ members, schema = .object members → (nested members = [] ↔
      (∀ entries, value = .object entries → (∀ key ∈ requiredOf members, key ∈ entries.map Prod.fst) ∧
        ∀ m ∈ entries, ∀ inner, Governs members m.1 inner → Accepts m.2 inner) ∧
      ∀ items, value = .array items → ∀ inner, lookup (text "items") members = some inner → ∀ item ∈ items, Accepts item inner)) :
    checkNode ns value schema path nested = [] ↔ Accepts value schema := by
  cases schema with
  | bool b =>
    rw [accepts_bool]
    cases b with
    | true => exact iff_of_true rfl rfl
    | false => exact iff_of_false (List.cons_ne_nil _ _) Bool.false_ne_true
  | object members =>
    have hstopped : stopped ns value members path = none ↔ Whole value members := stopped_eq_none hfinite hwell
    rw [accepts_keywords, ← hstopped, ← hnested members rfl, checkNode]
    cases stopped ns value members path with
    | none | some => simp
  | null | number | string | array => cases hwell

theorem check_eq_nil {value : JsValue} (hfinite : value.EachNumber isFinite) {schema : JsValue} (hwell : WellFormed schema) :
    check ns value schema path = [] ↔ Accepts value schema := by
  induction value using ofParts generalizing schema path with
  | null | bool | number | string =>
    rw [check]
    exact checkNode_eq_nil hfinite hwell fun members _ ↦ by simp
  | array items ih =>
    rw [eachNumber_array] at hfinite
    rw [check]
    refine checkNode_eq_nil ((eachNumber_array items).mpr hfinite) hwell fun members hschema ↦ ?_
    subst hschema
    simp only [reduceCtorEq, false_implies, implies_true, true_and, Json.array.injEq, forall_eq']
    cases hlookup : lookup (text "items") members with
    | none => simp
    | some =>
      simp only [Option.some.injEq, forall_eq']
      exact items_eq_nil 0 fun item hitem path ↦ ih item hitem (hfinite item hitem) (hwell.items hlookup)
  | object entries ih =>
    rw [eachNumber_object] at hfinite
    rw [check]
    refine checkNode_eq_nil ((eachNumber_object entries).mpr hfinite) hwell fun members hschema ↦ ?_
    subst hschema
    simp only [reduceCtorEq, false_implies, implies_true, and_true, Json.object.injEq, forall_eq', List.append_eq_nil_iff,
      missing_eq_nil]
    rw [entries_eq_nil hwell fun m hm schema path hschema ↦ ih m hm (hfinite m hm) hschema]

end Nested

section Walk

variable {members : Members} {path : Units}

theorem assertKeywords_ok : assertKeywords members path = .ok () ↔ ∀ m ∈ members, keywordAllowed m.1 = true := by
  unfold assertKeywords
  cases hfind : members.find? fun m ↦ !keywordAllowed m.1 with
  | none => simpa using hfind
  | some m =>
    have hm := List.mem_of_find?_eq_some hfind
    have hkey : keywordAllowed m.1 = false := by simpa using List.find?_some hfind
    simp only [reduceCtorEq, false_iff, not_forall]
    exact ⟨m, hm, by simp [hkey]⟩

theorem properties_walk (members : Members) : assertSchemaSupported.properties members path =
    match lookup (text "properties") members with
    | some (.object entries) => assertSchemaSupported.entries entries path
    | some (.array values) => assertSchemaSupported.values values path 0
    | some (.string (_ :: _)) => .error ⟨text "string", path ++ text "/0"⟩
    | _ => .ok () := by
  induction members with
  | nil => rfl
  | cons m members ih =>
    obtain ⟨key, entry⟩ := m
    rw [assertSchemaSupported.properties.eq_def, lookup]
    dsimp only
    split
    · cases entry with
      | string s => cases s <;> rfl
      | _ => rfl
    · exact ih

theorem items_walk (members : Members) : assertSchemaSupported.items members path =
    match lookup (text "items") members with
    | some inner => assertSchemaSupported inner (path ++ text "/*")
    | none => .ok () := by
  induction members with
  | nil => rfl
  | cons m members ih =>
    obtain ⟨key, entry⟩ := m
    rw [assertSchemaSupported.items, lookup]
    split
    · rfl
    · exact ih

theorem additionalProperties_walk (members : Members) : assertSchemaSupported.additionalProperties members path =
    match lookup (text "additionalProperties") members with
    | some (.object inner) => assertSchemaSupported (.object inner) (path ++ text "/*")
    | some (.array values) => assertSchemaSupported (.array values) (path ++ text "/*")
    | _ => .ok () := by
  induction members with
  | nil => rfl
  | cons m members ih =>
    obtain ⟨key, entry⟩ := m
    rw [assertSchemaSupported.additionalProperties.eq_def, lookup]
    dsimp only
    split
    · cases entry <;> rfl
    · exact ih

theorem entries_ok {entries : Members} : assertSchemaSupported.entries entries path = .ok () ↔
    ∀ m ∈ entries, assertSchemaSupported m.2 (path ++ text "/" ++ m.1) = .ok () := by
  induction entries with
  | nil => simp [assertSchemaSupported.entries]
  | cons m entries ih =>
    obtain ⟨key, entry⟩ := m
    simp only [assertSchemaSupported.entries, bind_ok, exists_unit, ih, List.forall_mem_cons]

theorem walk_object : assertSchemaSupported (.object members) path = .ok () ↔ (∀ m ∈ members, keywordAllowed m.1 = true) ∧
    assertSchemaSupported.properties members path = .ok () ∧ assertSchemaSupported.items members path = .ok () ∧
    assertSchemaSupported.additionalProperties members path = .ok () := by
  rw [assertSchemaSupported]
  simp only [bind_ok, exists_unit, assertKeywords_ok]

theorem refused_of_foreign {schema : JsValue} (h : Foreign schema) : assertSchemaSupported schema path ≠ .ok () := by
  induction h generalizing path with
  | here hm hkey =>
    intro hok
    rw [(walk_object.mp hok).1 _ hm] at hkey
    cases hkey
  | @property members m hm h ih =>
    intro hok
    have hproperties := (walk_object.mp hok).2.1
    rw [properties_walk] at hproperties
    unfold propertiesOf at hm
    split at hm
    · rename_i entries hlookup
      rw [hlookup] at hproperties
      exact ih (entries_ok.mp hproperties m hm)
    · exact List.not_mem_nil hm
  | @additionalProperties members inner hinner h ih =>
    intro hok
    have hadditional := (walk_object.mp hok).2.2.2
    rw [additionalProperties_walk, hinner] at hadditional
    cases h with
    | here | property | additionalProperties | items => exact ih hadditional
  | @items members inner hinner h ih =>
    intro hok
    have hitems := (walk_object.mp hok).2.2.1
    rw [items_walk, hinner] at hitems
    exact ih hitems

theorem passed_of_not_foreign {schema : JsValue} (hwell : WellFormed schema) (h : ¬Foreign schema) :
    assertSchemaSupported schema path = .ok () := by
  induction hwell generalizing path with
  | flag => rfl
  | @keywords members _ _ _ hobject hproperties hadditional hitems ihproperties ihadditional ihitems =>
    rw [walk_object, properties_walk, items_walk, additionalProperties_walk]
    refine ⟨?_, ?_, ?_, ?_⟩
    · intro m hm
      by_contra hkey
      exact h (.here hm (by simpa using hkey))
    · cases hlookup : lookup (text "properties") members with
      | none => rfl
      | some v =>
        obtain ⟨entries, rfl⟩ := hobject v hlookup
        have hof : propertiesOf members = entries := by rw [propertiesOf, hlookup]
        refine entries_ok.mpr fun m hm ↦ ?_
        exact ihproperties m (hof ▸ hm) fun hforeign ↦ h (.property (hof ▸ hm) hforeign)
    · cases hlookup : lookup (text "items") members with
      | none => rfl
      | some inner => exact ihitems inner hlookup fun hforeign ↦ h (.items hlookup hforeign)
    · cases hlookup : lookup (text "additionalProperties") members with
      | none => rfl
      | some inner =>
        have hinner : assertSchemaSupported inner (path ++ text "/*") = .ok () :=
          ihadditional inner hlookup fun hforeign ↦ h (.additionalProperties hlookup hforeign)
        cases hadditional inner hlookup with
        | flag => rfl
        | keywords => exact hinner

end Walk

/-- A schema with a keyword that is not known is refused, and every other one means what JSON Schema has it mean. -/
structure ValidatesExactly (ns : Numbers) (document schema : JsValue) : Prop where
  refuses : Foreign schema → ∃ error, validateAgainstSchema ns document schema = .error error
  decides : ¬Foreign schema → ∃ errors, validateAgainstSchema ns document schema = .ok errors ∧
    (errors = [] ↔ Satisfies document schema)

/-- The validator is exact where `const` and `enum` are only put to scalars, or the document fails the schema anyway. -/
theorem validates_exactly_iff (ns : Numbers) {document schema : JsValue} (hdocument : Plain document) (hschema : WellFormed schema) :
    ValidatesExactly ns document schema ↔ (¬Foreign schema → Satisfies document schema → Comparable document schema) := by
  have hvalidate (hforeign : ¬Foreign schema) :
      validateAgainstSchema ns document schema = .ok (check ns document schema []) := by
    rw [validateAgainstSchema, passed_of_not_foreign hschema hforeign]
    rfl
  constructor
  · intro h hforeign hsatisfies
    obtain ⟨errors, hvalid, hexact⟩ := h.decides hforeign
    rw [hvalidate hforeign] at hvalid
    obtain rfl := Except.ok.inj hvalid
    exact ((check_eq_nil hdocument.finite hschema).mp (hexact.mpr hsatisfies)).2
  · intro h
    constructor
    · intro hforeign
      cases hwalk : assertSchemaSupported schema [] with
      | ok => exact absurd hwalk (refused_of_foreign hforeign)
      | error error =>
        refine ⟨error, ?_⟩
        rw [validateAgainstSchema, hwalk]
        rfl
    · intro hforeign
      refine ⟨_, hvalidate hforeign, ?_⟩
      rw [check_eq_nil hdocument.finite hschema]
      constructor
      · intro haccepts
        exact haccepts.1
      · intro hsatisfies
        exact ⟨hsatisfies, h hforeign hsatisfies⟩

/-- `{"type":"integer","const":1}` -/
def justOne : JsValue := .object [(text "type", .string (text "integer")), (text "const", .number (.finite one))]

theorem validates_exactly_iff_one : ValidatesExactly zeroAndOne (.number (.finite one)) justOne ↔
    (¬Foreign justOne → Satisfies (.number (.finite one)) justOne → Comparable (.number (.finite one)) justOne) := by
  apply validates_exactly_iff
  · exact ⟨trivial, trivial⟩
  · refine .keywords ?_ ?_ ?_ ?_ ?_ ?_ ?_ <;> simp [lookup, propertiesOf, text_inj, typesOf, typeNames]

/-- An array is refused where the schema has it as its only value. -/
theorem equal_array_refused : ¬ValidatesExactly zeroAndOne (.array []) (.object [(text "const", .array [])]) := by
  intro h
  have hwell : WellFormed (.object [(text "const", .array [])]) := by
    refine .keywords ?_ ?_ ?_ ?_ ?_ ?_ ?_ <;> simp [lookup, propertiesOf, text_inj]
  have hforeign : ¬Foreign (.object [(text "const", .array [])]) := by
    intro hforeign
    cases hforeign with
    | here hm hkey =>
      rw [List.mem_singleton.mp hm] at hkey
      exact absurd hkey (by decide +kernel)
    | property hm => simp [propertiesOf, lookup, text_inj] at hm
    | additionalProperties hinner | items hinner => simp [lookup, text_inj] at hinner
  obtain ⟨errors, hvalid, hexact⟩ := h.decides hforeign
  rw [validateAgainstSchema, passed_of_not_foreign hwell hforeign] at hvalid
  obtain rfl := Except.ok.inj hvalid
  have hsatisfies : Satisfies (.array []) (.object [(text "const", .array [])]) := by
    refine .keywords ?_ ?_ ?_ ?_ ?_ ?_ <;> simp [lookup, text_inj, same_array]
  have haccepts := (check_eq_nil ((eachNumber_array []).mpr (by simp)) hwell).mp (hexact.mpr hsatisfies)
  cases haccepts.2 with
  | keywords hscalar => exact absurd (hscalar (.inl (by simp))) (by decide)

end Noesar.Acquisition.Schema
