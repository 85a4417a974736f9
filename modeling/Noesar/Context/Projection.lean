import Mathlib
import Noesar.Context.Schema
import Noesar.Lib.Utf16
import Noesar.Lib.Lists

namespace Noesar.Context

open Lib Lib.Utf16 Lib.Json Lib.InsertionMap Canonical
open Author (text text_inj text_injective)

/-- The numbers of the platform, which writes an integer in its digits where these are not too many. -/
structure Platform extends Numbers where
  integer : ∀ x : Binary64, x.val.den = 1 → |x.val.num| < 10 ^ 21 → stringify x = Decimal.integerText x.val.num

/-- The whole numbers as the platform writes them, which are all the numbers that a section has. -/
def wholeNumbers : Platform where
  toNumbers := platform (fun _ ↦ []) fun _ ↦ none
  integer _ hwhole _ := if_pos hwhole

def contextProjectionVersion : String := "1.0.0"

structure SectionView where
  name : String
  title : String
  held : ℕ
  shown : ℕ
  capped : Bool
  entries : List Fact

structure View where
  sections : List SectionView
  unknownSectionFacts : ℕ
  rejectedFacts : ℕ

structure Projection extends View where
  version : String
  digest : Units

/-- `status === 'active'` -/
def isActive (entry : Fact) : Bool := lookup "status" entry = some (.string (text "active"))

def activeWindow (spec : SectionSpec) (entries : List Fact) : Option (List Fact) :=
  (entries.findIdx? isActive).map fun activeIndex ↦
    let half := spec.shows / 2
    let start := min (activeIndex - half) (entries.length - spec.shows)
    (entries.drop start).take spec.shows

def importance (rank : Fact → ℕ) (entry : Fact × ℕ) : Lex (ℕ × ℕ) := toLex (rank entry.1, entry.2)

def rankedWindow (rank : Fact → ℕ) (shows : ℕ) (entries : List Fact) : List Fact :=
  let kept := (Selection.best (importance rank) shows entries.zipIdx).map Prod.snd
  (entries.zipIdx.filter fun entry ↦ entry.2 ∈ kept).map Prod.fst

def windowFor (spec : SectionSpec) (entries : List Fact) : List Fact :=
  if entries.length ≤ spec.shows then entries
  else
    match if spec.window = some .active then activeWindow spec entries else none with
    | some shown => shown
    | none =>
      match spec.rank with
      | some rank => rankedWindow rank spec.shows entries
      | none => entries.drop (entries.length - spec.shows)

/-- What has been made of the facts read so far: the values of each section, and those there are no values of. -/
structure Gathered where
  bySection : String → List Fact
  unknown : ℕ
  rejected : ℕ

/-- `value.name` of what may be no object at all -/
def memberOf (name : String) : JsValue → Option JsValue
  | .object members => lookup (text name) members
  | _ => none

def sectionOf (fact : JsValue) : Option SectionSpec :=
  match memberOf "section" fact with
  | some (.string name) => sectionNamed name
  | _ => none

section

variable (ns : Numbers)

/-- The value of a fact, where it passes the gate of its section. Without a value it does not. -/
def valueOf (spec : SectionSpec) (fact : JsValue) : Except ContextSchemaViolation Fact :=
  validateFact ns (text spec.name) ((memberOf "value" fact).getD .null)

def gather (gathered : Gathered) (fact : JsValue) : Gathered :=
  match sectionOf fact with
  | none => { gathered with unknown := gathered.unknown + 1 }
  | some spec =>
    match valueOf ns spec fact with
    | .error _ => { gathered with rejected := gathered.rejected + 1 }
    | .ok value =>
      { gathered with bySection := Function.update gathered.bySection spec.name (gathered.bySection spec.name ++ [value]) }

/-- `all.slice(-1)` of a section that holds one value. -/
def current (spec : SectionSpec) (all : List Fact) : List Fact :=
  match spec.cardinality with
  | .one => all.drop (all.length - 1)
  | .many => all

def viewOf (spec : SectionSpec) (all : List Fact) : SectionView :=
  let entries := current spec all
  let shown := windowFor spec entries
  ⟨spec.name, spec.title, entries.length, shown.length, shown.length < entries.length, shown⟩

def view (facts : List JsValue) : View :=
  let gathered := facts.foldl (gather ns) ⟨fun _ ↦ [], 0, 0⟩
  ⟨contextSections.map fun spec ↦ viewOf spec (gathered.bySection spec.name), gathered.unknown, gathered.rejected⟩

def count (n : ℕ) : JsValue := .number (.finite (Binary64.ofRat n))

def SectionView.toJs (view : SectionView) : JsValue :=
  .object [(text "name", .string (text view.name)), (text "title", .string (text view.title)),
    (text "held", count view.held), (text "shown", count view.shown), (text "capped", .bool view.capped),
    (text "entries", .array (view.entries.map Fact.toJs))]

def digested (sections : List SectionView) : JsValue :=
  .object [(text "version", .string (text contextProjectionVersion)), (text "sections", .array (sections.map SectionView.toJs))]

def digestOf (sections : List SectionView) : Except String Units :=
  (canonicalJson ns (digested sections)).map fun canonical ↦
    text "ctx-" ++ encode (Fnv.padded 8 (Fnv.hash (encode canonical)).toNat)

def projectContext (facts : List JsValue) : Except String Projection :=
  (digestOf ns (view ns facts).sections).map fun digest ↦
    { view ns facts with version := contextProjectionVersion, digest := digest }

end

def valuesIn (ns : Numbers) (spec : SectionSpec) (facts : List JsValue) : List Fact :=
  facts.filterMap fun fact ↦
    if (sectionOf fact).map SectionSpec.name = some spec.name then (valueOf ns spec fact).toOption else none

section Laws

variable {ns : Numbers} {spec : SectionSpec} {facts : List JsValue} {entries : List Fact}

theorem mem_of_sectionOf {fact : JsValue} (h : sectionOf fact = some spec) : spec ∈ contextSections := by
  unfold sectionOf at h
  split at h
  · exact List.mem_of_find?_eq_some h
  · cases h

theorem gather_step (ns : Numbers) (spec : SectionSpec) (gathered : Gathered) (fact : JsValue) :
    ((gather ns gathered fact).bySection spec.name = gathered.bySection spec.name ++ valuesIn ns spec [fact]) ∧
    (gather ns gathered fact).unknown = gathered.unknown + (sectionOf fact).isNone.toNat ∧
    (gather ns gathered fact).rejected = gathered.rejected +
      ((sectionOf fact).any fun spec ↦ !(valueOf ns spec fact).isOk).toNat := by
  unfold gather
  cases hsection : sectionOf fact with
  | none => simp [valuesIn, hsection]
  | some named =>
    cases hvalue : valueOf ns named fact with
    | error e =>
      refine ⟨?_, by simp [hvalue], by simp [hvalue, Except.isOk, Except.toBool]⟩
      by_cases hname : named.name = spec.name
      · have hsame : valueOf ns spec fact = .error e := by rwa [valueOf, ← hname]
        simp [valuesIn, hsection, hname, hsame, hvalue, Except.toOption]
      · simp [valuesIn, hsection, hname, hvalue]
    | ok value =>
      refine ⟨?_, by simp [hvalue], by simp [hvalue, Except.isOk, Except.toBool]⟩
      by_cases hname : named.name = spec.name
      · have hsame : valueOf ns spec fact = .ok value := by rwa [valueOf, ← hname]
        simp [valuesIn, hsection, hname, hsame, hvalue, Except.toOption]
      · simp [valuesIn, hsection, hname, hvalue, Function.update_of_ne (Ne.symm hname)]

theorem gather_all (ns : Numbers) (spec : SectionSpec) (facts : List JsValue) (gathered : Gathered) :
    ((facts.foldl (gather ns) gathered).bySection spec.name = gathered.bySection spec.name ++ valuesIn ns spec facts) ∧
    (facts.foldl (gather ns) gathered).unknown = gathered.unknown + facts.countP (fun fact ↦ (sectionOf fact).isNone) ∧
    (facts.foldl (gather ns) gathered).rejected = gathered.rejected +
      facts.countP fun fact ↦ (sectionOf fact).any fun spec ↦ !(valueOf ns spec fact).isOk := by
  induction facts generalizing gathered with
  | nil => simp [valuesIn]
  | cons fact facts ih =>
    obtain ⟨hvalues, hunknown, hrejected⟩ := gather_step ns spec gathered fact
    obtain ⟨ihvalues, ihunknown, ihrejected⟩ := ih (gather ns gathered fact)
    have hcons : valuesIn ns spec (fact :: facts) = valuesIn ns spec [fact] ++ valuesIn ns spec facts :=
      List.filterMap_append (l := [fact])
    have hcount (p : JsValue → Bool) : (fact :: facts).countP p = (p fact).toNat + facts.countP p := by
      cases hp : p fact <;> simp [hp, Nat.add_comm]
    refine ⟨?_, ?_, ?_⟩
    · rw [List.foldl_cons, ihvalues, hvalues, hcons, List.append_assoc]
    · rw [List.foldl_cons, ihunknown, hunknown, hcount, Nat.add_assoc]
    · rw [List.foldl_cons, ihrejected, hrejected, hcount, Nat.add_assoc]

theorem view_eq : view ns facts = ⟨contextSections.map fun spec ↦ viewOf spec (valuesIn ns spec facts),
    facts.countP fun fact ↦ (sectionOf fact).isNone,
    facts.countP fun fact ↦ (sectionOf fact).any fun spec ↦ !(valueOf ns spec fact).isOk⟩ := by
  obtain ⟨_, hunknown, hrejected⟩ := gather_all ns goalSpec facts ⟨fun _ ↦ [], 0, 0⟩
  have hsections : ∀ spec ∈ contextSections, viewOf spec ((facts.foldl (gather ns) ⟨fun _ ↦ [], 0, 0⟩).bySection spec.name) =
      viewOf spec (valuesIn ns spec facts) := by
    intro spec _
    rw [(gather_all ns spec facts _).1, List.nil_append]
  rw [view, List.map_congr_left hsections, hunknown, hrejected, Nat.zero_add, Nat.zero_add]

theorem view_sections : (view ns facts).sections = contextSections.map fun spec ↦ viewOf spec (valuesIn ns spec facts) := by
  rw [view_eq]

theorem inSchema_of_mem_valuesIn (hspec : spec ∈ contextSections) {entry : Fact} (h : entry ∈ valuesIn ns spec facts) :
    InSchema spec entry := by
  obtain ⟨fact, _, hfact⟩ := List.mem_filterMap.mp h
  split at hfact
  · cases hvalue : valueOf ns spec fact with
    | error => simp [hvalue, Except.toOption] at hfact
    | ok =>
      simp only [hvalue, Except.toOption, Option.some.injEq] at hfact
      subst hfact
      exact inSchema_of_validateFact (coherent hspec).named hvalue
  · cases hfact

theorem current_sublist (spec : SectionSpec) (all : List Fact) : (current spec all).Sublist all := by
  unfold current
  split
  · exact List.drop_sublist _ _
  · exact .refl _

theorem rankedWindow_sublist (rank : Fact → ℕ) (shows : ℕ) (entries : List Fact) :
    (rankedWindow rank shows entries).Sublist entries := by
  have hfilter := List.filter_sublist (p := fun entry : Fact × ℕ ↦ decide
    (entry.2 ∈ (Selection.best (importance rank) shows entries.zipIdx).map Prod.snd)) (l := entries.zipIdx)
  simpa [rankedWindow] using hfilter.map Prod.fst

theorem windowFor_sublist (spec : SectionSpec) (entries : List Fact) : (windowFor spec entries).Sublist entries := by
  unfold windowFor
  split
  · exact .refl _
  · split
    · rename_i hactive
      split at hactive
      · obtain ⟨_, _, rfl⟩ := Option.map_eq_some_iff.mp hactive
        exact (List.take_sublist _ _).trans (List.drop_sublist _ _)
      · cases hactive
    · split
      · exact rankedWindow_sublist _ _ _
      · exact List.drop_sublist _ _

theorem inSchema_of_shown (hspec : spec ∈ contextSections) {entry : Fact}
    (h : entry ∈ (viewOf spec (valuesIn ns spec facts)).entries) : InSchema spec entry :=
  inSchema_of_mem_valuesIn hspec (((windowFor_sublist _ _).trans (current_sublist _ _)).subset h)

theorem Fitted.finite {fields : List (String × FieldSpec)} {fact : Fact} (h : Fitted fields fact) :
    fact.toJs.EachNumber isFinite := by
  rw [Fact.toJs, eachNumber_object]
  intro m hm
  obtain ⟨entry, hentry, rfl⟩ := List.mem_map.mp hm
  obtain ⟨spec, _, hfit⟩ := h.each entry hentry
  cases hvalue : entry.2 with
  | integer leaf =>
    rw [hvalue] at hfit
    cases leaf with
    | finite => trivial
    | negZero => trivial
    | _ => cases spec <;> simp [Fit, integerOf] at hfit
  | list =>
    rw [FieldValue.toJs, eachNumber_array]
    intro item hitem
    obtain ⟨t, _, rfl⟩ := List.mem_map.mp hitem
    trivial
  | _ => trivial

theorem finite_digested (facts : List JsValue) : (digested (view ns facts).sections).EachNumber isFinite := by
  have hsections : ∀ shown ∈ (view ns facts).sections, shown.toJs.EachNumber isFinite := by
    intro shown hsection
    rw [view_eq] at hsection
    obtain ⟨spec, hspec, rfl⟩ := List.mem_map.mp hsection
    rw [SectionView.toJs, eachNumber_object]
    have hentries : (Json.array ((viewOf spec (valuesIn ns spec facts)).entries.map Fact.toJs)).EachNumber isFinite := by
      rw [eachNumber_array]
      intro v hv
      obtain ⟨entry, hentry, rfl⟩ := List.mem_map.mp hv
      exact (inSchema_of_shown hspec hentry).fitted.finite
    simp only [List.mem_cons, List.not_mem_nil, or_false, forall_eq_or_imp, forall_eq]
    exact ⟨trivial, trivial, trivial, trivial, trivial, hentries⟩
  rw [digested, eachNumber_object]
  simp only [List.mem_cons, List.not_mem_nil, or_false, forall_eq_or_imp, forall_eq]
  refine ⟨trivial, ?_⟩
  rw [eachNumber_array]
  intro v hv
  obtain ⟨shown, hsection, rfl⟩ := List.mem_map.mp hv
  exact hsections shown hsection

def digestText (ns : Numbers) (sections : List SectionView) : List Char :=
  Json.print (writer ns) (norm unitRank Canonical.value (digested sections))

def digestOfText (canonical : List Char) : Units := text "ctx-" ++ encode (Fnv.padded 8 (Fnv.hash (encode canonical)).toNat)

theorem projectContext_eq (facts : List JsValue) : projectContext ns facts =
    .ok { view ns facts with
      version := contextProjectionVersion, digest := digestOfText (digestText ns (view ns facts).sections) } := by
  rw [projectContext, digestOf, canonicalJson_eq ns (finite_digested facts)]
  rfl

end Laws

def AllInSchema (ns : Numbers) (facts : List JsValue) : Prop :=
  ∀ fact ∈ facts, ∃ spec, sectionOf fact = some spec ∧ (valueOf ns spec fact).isOk = true

section Building

variable {ns : Numbers} {spec : SectionSpec}

def toFact (spec : SectionSpec) (entry : Fact) : JsValue :=
  .object [(text "section", .string (text spec.name)), (text "value", entry.toJs)]

def factsOf (lists : SectionSpec → List Fact) : List JsValue := contextSections.flatMap fun spec ↦ (lists spec).map (toFact spec)

theorem sectionOf_toFact (hspec : spec ∈ contextSections) (entry : Fact) : sectionOf (toFact spec entry) = some spec := by
  have hmember : memberOf "section" (toFact spec entry) = some (.string (text spec.name)) := rfl
  rw [sectionOf, hmember]
  exact (coherent hspec).named

theorem valueOf_toFact (hspec : spec ∈ contextSections) {entry : Fact} (h : InSchema spec entry) :
    valueOf ns spec (toFact spec entry) = .ok entry := by
  have hmember : memberOf "value" (toFact spec entry) = some entry.toJs := by
    simp [memberOf, toFact, lookup, text_inj]
  rw [valueOf, hmember, Option.getD_some]
  exact validateFact_of_inSchema (coherent hspec).named h

theorem flatMap_named {α : Type} {specs : List SectionSpec} (hnodup : (specs.map SectionSpec.name).Nodup) (hspec : spec ∈ specs)
    (lists : SectionSpec → List α) : (specs.flatMap fun other ↦ if other.name = spec.name then lists other else []) = lists spec := by
  induction specs with
  | nil => cases hspec
  | cons other specs ih =>
    rw [List.map_cons, List.nodup_cons] at hnodup
    rw [List.flatMap_cons]
    rcases List.mem_cons.mp hspec with rfl | hmem
    · have hnone : (specs.flatMap fun other ↦ if other.name = spec.name then lists other else []) = [] := by
        rw [List.flatMap_eq_nil_iff]
        intro other hother
        rw [if_neg]
        intro hname
        exact hnodup.1 (hname ▸ List.mem_map_of_mem hother)
      rw [if_pos rfl, hnone, List.append_nil]
    · have hne : other.name ≠ spec.name := by
        intro hname
        exact hnodup.1 (hname ▸ List.mem_map_of_mem hmem)
      rw [if_neg hne, List.nil_append]
      exact ih hnodup.2 hmem

theorem nodup_names : (contextSections.map SectionSpec.name).Nodup := by decide

theorem valuesIn_factsOf {lists : SectionSpec → List Fact}
    (h : ∀ spec ∈ contextSections, ∀ entry ∈ lists spec, InSchema spec entry) (hspec : spec ∈ contextSections) :
    valuesIn ns spec (factsOf lists) = lists spec := by
  rw [valuesIn, factsOf, List.filterMap_flatMap, ← flatMap_named nodup_names hspec lists]
  apply List.flatMap_congr
  intro other hother
  rw [List.filterMap_map]
  by_cases hname : other.name = spec.name
  · have hvalue : ∀ entry ∈ lists other, valueOf ns spec (toFact other entry) = .ok entry := by
      intro entry hentry
      have hother' : valueOf ns other (toFact other entry) = .ok entry := valueOf_toFact hother (h other hother entry hentry)
      rwa [valueOf, hname] at hother'
    rw [if_pos hname]
    refine (List.filterMap_congr fun entry hentry ↦ ?_).trans List.filterMap_some
    simp [sectionOf_toFact hother, hname, hvalue entry hentry, Except.toOption]
  · rw [if_neg hname, List.filterMap_eq_nil_iff]
    intro entry _
    simp [sectionOf_toFact hother, hname]

theorem mem_evidence : evidenceSpec ∈ contextSections := by simp [contextSections]

theorem allInSchema_factsOf {lists : SectionSpec → List Fact}
    (h : ∀ spec ∈ contextSections, ∀ entry ∈ lists spec, InSchema spec entry) : AllInSchema ns (factsOf lists) := by
  intro fact hfact
  obtain ⟨spec, hspec, hmem⟩ := List.mem_flatMap.mp hfact
  obtain ⟨entry, hentry, rfl⟩ := List.mem_map.mp hmem
  refine ⟨spec, sectionOf_toFact hspec entry, ?_⟩
  rw [valueOf_toFact hspec (h spec hspec entry hentry)]
  rfl

end Building

end Noesar.Context
