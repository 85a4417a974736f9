import Noesar.Lib.InsertionMap
import Noesar.Lib.JsonOrder
import Noesar.Workflows.World

namespace Noesar.Workflows

open Lib Lib.Cooperative JsonValue

/-- What the platform adds: how it writes numbers, the code units of a text, each as a text, and what the names
do that an object only inherits, where one is asked for as an operation. -/
structure Language extends Numerals where
  units : String → List String
  inherited : String → JsonValue → JsonValue → Except Thrown JsonValue

abbrev Members := List (String × JsonValue)

def place (key : String) : List ℕ := [(key.toNat?.filter fun n ↦ toString n = key && n < 2 ^ 32 - 1).getD (2 ^ 32)]

def objectOf (members : Members) : JsonValue :=
  .object (Json.sortKeys place (members.foldl (fun entries m ↦ InsertionMap.put m.1 m.2 entries) []))

section

variable (lang : Language)

/-- `...value` -/
def spread : JsonValue → Members
  | .object members => members
  | .array items => items.zipIdx.map fun item ↦ (toString item.2, item.1)
  | .string s => (lang.units s).zipIdx.map fun unit ↦ (toString unit.2, .string unit.1)
  | .null | .bool _ | .number _ => []

/-- `source[key]` where `key in source`, as it is stored: no function is. -/
def memberIn (source : JsonValue) (key : String) : Option JsonValue :=
  match source with
  | .array items =>
    if key = "length" then some (.number (.ofRat items.length))
    else if key = "__proto__" then some (.array [])
    else (key.toNat?.filter fun n ↦ toString n = key).bind (items[·]?)
  | .object members => members.lookup key <|> if key = "__proto__" then some (.object []) else none
  | _ => if key = "__proto__" then some (.object []) else none

def merge (input config : JsonValue) : JsonValue :=
  let base := (given (member "base" config)).getD (.object [])
  match input with
  | .object members => objectOf (spread lang base ++ members)
  | _ => objectOf (spread lang base)

def pick (input config : JsonValue) : Except Thrown JsonValue := do
  let keys ← (arrayOr (member "keys" config)).mapM fun key ↦ (asString lang.toNumerals key).mapError typeError
  return objectOf (keys.filterMap fun key ↦ (memberIn input key).map (key, ·))

def count (input : JsonValue) : JsonValue :=
  .object [("count", .number (.ofRat (match input with
    | .array items => items.length
    | .object members => members.length
    | _ => 0 : ℕ)))]

/-- `TRANSFORM_OPS[operation](input, config)` -/
def transform (operation : Option String) (input config : JsonValue) : Except Thrown JsonValue :=
  match operation with
  | some "identity" => .ok input
  | some "constant" => .ok ((given (member "value" config)).getD .null)
  | some "merge" => .ok (merge lang input config)
  | some "pick" => pick lang input config
  | some "count" => .ok (count input)
  | some name => lang.inherited name input config
  | none => .error (typeError "TRANSFORM_OPS[definition.operation] is not a function")

/-- `none` where it is for the executor of tools to answer. A result is what is stored of it. -/
def executeStep (definition : Step) (input : JsonValue) : Option (Except Thrown JsonValue) :=
  let type := definition.type
  if !isIn type typeNames then some (.error (err s!"Unknown step type: {type}."))
  else if (stepTypes.lookup type).any (!·.executable) then
    some (.error ⟨s!"Step type \"{type}\" is not executable in this build; it is owned by the execution layer " ++
      "(not present in this build: executionEnabled=false).", some 501⟩)
  else match type with
    | "transform" => some (transform lang definition.operation input definition.config)
    | "wait" => some (.ok input)
    | "human_approval" => some (.ok (.object [("approved", .bool true), ("input", input)]))
    | "tool_call" => none
    | type => some (.error ⟨s!"Step type \"{type}\" has no executor.", some 501⟩)

/-- The output of the last completed step before this one, or what the run was given. -/
def stepInput (run : Run) (definition : Step) : JsonValue :=
  match given (some definition.input) with
  | some input => input
  | none =>
    let ordered := (run.steps.take definition.index).filter (·.status = .completed)
    (ordered.getLast?.map (·.output)).getD run.input

def timedOut (definition : Step) : Thrown :=
  let key := definition.key
  let timeoutMs := definition.timeoutMs
  ⟨s!"Step \"{key}\" exceeded its {timeoutMs}ms timeout.", some 504⟩

/-- An attempt that is settled came to its timeout, or to what the step makes of what it read as it started. -/
def Answered (live : Live) : RunAction → Prop
  | .go => ∀ i definition attempt outcome, live.current = some (.settled i definition attempt outcome) →
      outcome = .error (timedOut definition) ∨ ∃ run, (run, .attempt i attempt) ∈ live.history ∧
        ∀ answer ∈ executeStep lang definition (stepInput run definition), outcome = answer
  | .call _ | .resume _ _ | .crash => True

/-! ### What a definition comes to -/

def inputAfter (outputs : List JsonValue) (input : JsonValue) (definition : Step) : JsonValue :=
  (given (some definition.input)).getD ((outputs.take definition.index).getLast?.getD input)

def Evaluates (steps : List Step) (input : JsonValue) (outputs : List JsonValue) : Prop :=
  ∀ i output, outputs[i]? = some output → ∃ definition, steps[i]? = some definition ∧
    executeStep lang definition (inputAfter (outputs.take i) input definition) = some (.ok output)

variable {lang} {steps : List Step} {input : JsonValue} {outputs outputs' : List JsonValue}

theorem Evaluates.take_eq (h : Evaluates lang steps input outputs) (h' : Evaluates lang steps input outputs') {n : ℕ}
    (hn : n ≤ outputs.length) (hn' : n ≤ outputs'.length) : outputs.take n = outputs'.take n := by
  induction n with
  | zero => rfl
  | succ n ih =>
    have hbefore := ih (by omega) (by omega)
    have hlt : n < outputs.length := by omega
    have hlt' : n < outputs'.length := by omega
    obtain ⟨definition, hdefinition, hexecute⟩ := h n outputs[n] (List.getElem?_eq_getElem hlt)
    obtain ⟨definition', hdefinition', hexecute'⟩ := h' n outputs'[n] (List.getElem?_eq_getElem hlt')
    obtain rfl := Option.some.inj (hdefinition.symm.trans hdefinition')
    rw [← hbefore, hexecute, Option.some.injEq, Except.ok.injEq] at hexecute'
    rw [List.take_succ_eq_append_getElem hlt, List.take_succ_eq_append_getElem hlt', hbefore, hexecute']

end

end Noesar.Workflows
