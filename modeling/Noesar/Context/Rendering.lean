import Noesar.Author.Replay
import Noesar.Context.Window
import Noesar.Lib.Utf16

namespace Noesar.Context

open Lib Lib.Utf16 Lib.Json Lib.InsertionMap Lib.Decimal Canonical
open Author (text lines unlines newline unlines_cons)

section

variable (ns : Numbers)

/-- `${value.field}` -/
def shownIn (field : String) (value : Fact) : Units :=
  match lookup field value with
  | none => text "undefined"
  | some (.string t) => t
  | some (.integer leaf) => numberShown ns leaf
  | some (.boolean b) => text (if b then "true" else "false")
  | some (.list items) => (text ",").intercalate items

/-- `value.field ? … : …` -/
def truthy (field : String) (value : Fact) : Bool :=
  match lookup field value with
  | none => false
  | some (.string t) => t ≠ []
  | some (.integer leaf) =>
    match leaf with
    | .finite x => x.val ≠ 0
    | .negZero | .nan => false
    | .other type => type ≠ "undefined"
    | _ => true
  | some (.boolean b) => b
  | some (.list _) => true

/-- `value.field ?? []` -/
def itemsIn (field : String) (value : Fact) : List Units :=
  match lookup field value with
  | some (.list items) => items
  | _ => []

def renderValue (sectionName : String) (value : Fact) : List Units :=
  if sectionName = "goal" then
    [shownIn ns "text" value] ++ (itemsIn "nonGoals" value).map (fun item ↦ text "  not: " ++ item) ++
      (itemsIn "criteria" value).map fun item ↦ text "  done when: " ++ item
  else if sectionName = "plan" then
    [shownIn ns "step" value ++ text ". [" ++ shownIn ns "status" value ++ text "] " ++ shownIn ns "verb" value ++
      if truthy "target" value then text " " ++ shownIn ns "target" value else []]
  else if sectionName = "evidence" then
    [(if truthy "recomputed" value then text "recomputed" else text "asserted") ++ text ": " ++ shownIn ns "claim" value ++
      if truthy "source" value then text " (" ++ shownIn ns "source" value ++ text ")" else []]
  else if sectionName = "questions" then
    [(if truthy "blocking" value then text "blocking" else text "open") ++ text ": " ++ shownIn ns "question" value]
  else if sectionName = "diff" then
    [shownIn ns "path" value ++ text " +" ++ shownIn ns "added" value ++ text "/-" ++ shownIn ns "removed" value]
  else if sectionName = "failures" then
    [shownIn ns "signature" value ++ text " ×" ++ shownIn ns "occurrences" value]
  else if sectionName = "tokens" then
    [shownIn ns "tokenId" value ++ text " → " ++ shownIn ns "scope" value ++
      if truthy "expiresAtUnix" value then text " until " ++ shownIn ns "expiresAtUnix" value else []]
  else if sectionName = "attempts" then
    [shownIn ns "outcome" value ++ text ": " ++ shownIn ns "approach" value]
  else [shownIn ns "signal" value ++ text ": " ++ shownIn ns "level" value]

def titleLine (projection : Projection) : Units :=
  text "SESSION STATE (projection " ++ text projection.version ++ text ", " ++ projection.digest ++ text ")"

def heldBack (v : View) : List Units :=
  if v.rejectedFacts ≠ 0 ∨ v.unknownSectionFacts ≠ 0 then
    [text "  held back: " ++ integerShown v.rejectedFacts ++ text " out of schema, " ++
      integerShown v.unknownSectionFacts ++ text " in no section"]
  else []

def header (shown : SectionView) : Units :=
  if shown.capped then text shown.title ++ text " — showing " ++ integerShown shown.shown ++ text " of " ++ integerShown shown.held
  else text shown.title ++ if shown.held = 0 then text " — none" else []

def sectionLines (shown : SectionView) : List Units :=
  [[], header shown] ++ shown.entries.flatMap fun value ↦ (renderValue ns shown.name value).map fun line ↦ text "  " ++ line

def renderProjection (projection : Projection) : Units :=
  unlines (titleLine projection :: (heldBack projection.toView ++ projection.sections.flatMap (sectionLines ns))) ++ [newline]

/-- `renderProjection(projectContext(facts))` -/
def rendered (facts : List JsValue) : Except String Units := (projectContext ns facts).map (renderProjection ns)

end

def fieldAllowance : FieldSpec → ℕ
  | .string max => max
  | .list max itemMax => max * (itemMax + 16)
  | _ => 24

def projectionByteCeiling : ℕ :=
  128 + (contextSections.map fun spec ↦
    (text spec.title).length + 32 + spec.shows * ((spec.fields.map fun field ↦ fieldAllowance field.2).sum + 16)).sum

example : projectionByteCeiling = 15198 := by decide +kernel

def projected (ns : Numbers) (facts : List JsValue) : Projection :=
  { view ns facts with
    version := contextProjectionVersion, digest := digestOfText (digestText ns (view ns facts).sections) }

section Rows

variable {ns : Numbers} {spec : SectionSpec}

def rowsOf (ns : Numbers) (sectionName : String) (value : Fact) : List Row :=
  if sectionName = "goal" then
    [⟨"  ", [(shownIn ns "text" value, "\n")]⟩] ++ (itemsIn "nonGoals" value).map (fun item ↦ ⟨"    not: ", [(item, "\n")]⟩) ++
      (itemsIn "criteria" value).map fun item ↦ ⟨"    done when: ", [(item, "\n")]⟩
  else if sectionName = "plan" then
    [⟨"  ", [(shownIn ns "step" value, ". ["), (shownIn ns "status" value, "] ")] ++
      if truthy "target" value then [(shownIn ns "verb" value, " "), (shownIn ns "target" value, "\n")]
      else [(shownIn ns "verb" value, "\n")]⟩]
  else if sectionName = "evidence" then
    [⟨if truthy "recomputed" value then "  recomputed: " else "  asserted: ",
      if truthy "source" value then [(shownIn ns "claim" value, " ("), (shownIn ns "source" value, ")\n")]
      else [(shownIn ns "claim" value, "\n")]⟩]
  else if sectionName = "questions" then
    [⟨if truthy "blocking" value then "  blocking: " else "  open: ", [(shownIn ns "question" value, "\n")]⟩]
  else if sectionName = "diff" then
    [⟨"  ", [(shownIn ns "path" value, " +"), (shownIn ns "added" value, "/-"), (shownIn ns "removed" value, "\n")]⟩]
  else if sectionName = "failures" then
    [⟨"  ", [(shownIn ns "signature" value, " ×"), (shownIn ns "occurrences" value, "\n")]⟩]
  else if sectionName = "tokens" then
    [⟨"  ", (shownIn ns "tokenId" value, " → ") ::
      if truthy "expiresAtUnix" value then [(shownIn ns "scope" value, " until "), (shownIn ns "expiresAtUnix" value, "\n")]
      else [(shownIn ns "scope" value, "\n")]⟩]
  else if sectionName = "attempts" then
    [⟨"  ", [(shownIn ns "outcome" value, ": "), (shownIn ns "approach" value, "\n")]⟩]
  else [⟨"  ", [(shownIn ns "signal" value, ": "), (shownIn ns "level" value, "\n")]⟩]

theorem text_text (s t : String) (rest : Units) : text s ++ (text t ++ rest) = text (s ++ t) ++ rest := by
  simp [text, encode]

theorem spell_eq (row : Row) : row.spell = text row.label ++ row.parts.flatMap fun part ↦ part.1 ++ text part.2 := rfl

theorem rows_spelled (ns : Numbers) (sectionName : String) (value : Fact) :
    ((renderValue ns sectionName value).map fun line ↦ text "  " ++ line ++ [newline]) = (rowsOf ns sectionName value).map Row.spell := by
  have hnewline : [newline] = text "\n" := by decide
  have hend (s : String) : text s ++ text "\n" = text (s ++ "\n") := by simp [text, encode]
  unfold renderValue rowsOf
  split_ifs
  all_goals simp [spell_eq, hnewline, hend, text_text, Function.comp_def]

theorem labelled {sectionName : String} {value : Fact} {row : Row} (h : row ∈ rowsOf ns sectionName value) :
    ∀ part ∈ row.parts, part.2 ≠ "" := by
  unfold rowsOf at h
  split_ifs at h
  all_goals simp only [List.mem_append, List.mem_map, List.mem_singleton] at h
  case pos =>
    rcases h with (rfl | ⟨item, _, rfl⟩) | ⟨item, _, rfl⟩
    all_goals simp
  all_goals
    subst h
    simp

theorem unlines_ended {ls : List Units} (h : ls ≠ []) : unlines ls ++ [newline] = ls.flatMap fun line ↦ line ++ [newline] := by
  induction ls with
  | nil => exact absurd rfl h
  | cons line ls ih =>
    cases ls with
    | nil => simp [unlines]
    | cons =>
      rw [unlines_cons line (List.cons_ne_nil _ _), List.append_assoc, List.cons_append, ih (List.cons_ne_nil _ _), List.flatMap_cons]
      simp

end Rows

section Fields

variable {spec : SectionSpec} {value : Fact} {field : String} {fieldSpec : FieldSpec}

theorem fit_of_lookup (hspec : spec ∈ contextSections) (h : InSchema spec value) (hfield : (field, fieldSpec) ∈ spec.fields)
    {checked : FieldValue} (hlookup : lookup field value = some checked) : Fit fieldSpec checked := by
  obtain ⟨other, hother, hfit⟩ := h.fitted.each _ (mem_of_lookup hlookup)
  have hsame : other = fieldSpec := by
    have heq := List.inj_on_of_nodup_map (coherent hspec).nodup hother hfield rfl
    exact (Prod.mk.inj heq).2
  exact hsame ▸ hfit

/-- What holds of every field of the schema: it allows what is written for a field that is not there, its numbers are not
negative and not great, and the names it may have are short. -/
def Modest : FieldSpec → Prop
  | .string max => 9 ≤ max
  | .integer min max => 0 ≤ min ∧ max < 10 ^ 15
  | .boolean => True
  | .oneOf values => ∀ name ∈ values, (text name).length ≤ 24
  | .list _ _ => True

instance (fieldSpec : FieldSpec) : Decidable (Modest fieldSpec) :=
  match fieldSpec with
  | .string max => inferInstanceAs (Decidable (9 ≤ max))
  | .integer min max => inferInstanceAs (Decidable (0 ≤ min ∧ max < 10 ^ 15))
  | .boolean => inferInstanceAs (Decidable True)
  | .oneOf values => inferInstanceAs (Decidable (∀ name ∈ values, (text name).length ≤ 24))
  | .list _ _ => inferInstanceAs (Decidable True)

theorem modest : ∀ spec ∈ contextSections, ∀ field ∈ spec.fields, Modest field.2 := by decide +kernel

theorem numberShown_eq (platform : Platform) {leaf : Leaf} {n : ℤ} (hleaf : integerOf leaf = some n) (hmin : 0 ≤ n)
    (hmax : n < 10 ^ 15) : numberShown platform.toNumbers leaf = encode (Nat.toDigits 10 n.toNat) := by
  cases leaf with
  | finite x =>
    simp only [integerOf] at hleaf
    split at hleaf
    · rename_i hwhole
      obtain rfl := Option.some.inj hleaf
      have hsmall : |x.val.num| < 10 ^ 21 := by
        rw [abs_of_nonneg hmin]
        exact hmax.trans (by norm_num)
      have hdigits : integerText x.val.num = Nat.toDigits 10 x.val.num.toNat := by
        rw [← integerText_natCast (show x.val.num.toNat < 2 ^ 53 by omega), Int.toNat_of_nonneg hmin]
      rw [numberShown, platform.integer x hwhole hsmall, hdigits]
    · cases hleaf
  | negZero =>
    obtain rfl := Option.some.inj hleaf
    rfl
  | _ => cases hleaf

end Fields

end Noesar.Context
