import Noesar.Lib.Conversion
import Noesar.Lib.Fallible
import Noesar.Updates.Version

namespace Noesar.Workflows

open Lib JsonValue

/-- An error that is thrown. What the language throws carries no status. -/
structure Thrown where
  message : String
  status : Option ℕ
  deriving DecidableEq

def err (message : String) : Thrown := ⟨message, some 400⟩

def typeError (message : String) : Thrown := ⟨message, none⟩

structure StepType where
  effects : List String
  executable : Bool
  deriving DecidableEq

def stepTypes : List (String × StepType) :=
  [("transform", ⟨[], true⟩), ("human_approval", ⟨["APPROVAL_GATE"], true⟩), ("wait", ⟨[], true⟩),
    ("tool_call", ⟨["TOOL_INVOCATION", "NETWORK_EGRESS"], true⟩), ("host_mutation", ⟨["HOST_WRITE"], false⟩)]

def typeNames : List String := stepTypes.map (·.1)

def transformOps : List String := ["identity", "constant", "merge", "pick", "count"]

def inherited : List String :=
  ["constructor", "__defineGetter__", "__defineSetter__", "hasOwnProperty", "__lookupGetter__", "__lookupSetter__",
    "isPrototypeOf", "propertyIsEnumerable", "toString", "valueOf", "__proto__", "toLocaleString"]

/-- `key in object`, for an ordinary object with these names of its own. -/
def isIn (key : String) (own : List String) : Bool := key ∈ own || key ∈ inherited

def listed (names : List String) : String := ", ".intercalate names

structure Compensation where
  type : String
  operation : Option String
  config : JsonValue
  toolId : JsonValue
  timeoutMs : ℤ
  description : String

structure Step where
  index : ℕ
  key : String
  type : String
  title : String
  description : String
  operation : Option String
  config : JsonValue
  toolId : JsonValue
  input : JsonValue
  requiresApproval : Bool
  maxAttempts : ℤ
  backoffMs : ℤ
  timeoutMs : ℤ
  durationMs : Option ℤ
  compensation : Option Compensation

def letterOrDigit (c : Char) : Bool := c.isAlpha || c.isDigit

/-- `/^[a-z0-9][a-z0-9._-]{0,63}$/i` -/
def keyPattern (key : String) : Bool :=
  match key.toList with
  | [] => false
  | c :: cs => letterOrDigit c && cs.length ≤ 63 && cs.all fun c ↦ letterOrDigit c || c = '.' || c = '_' || c = '-'

def trim (text : String) : String := String.ofList (Updates.trim text.toList)

section

variable (ns : Numerals)

/-- `String(value ?? fallback)` -/
def textOr (value : Option JsonValue) (fallback : String) : Except Thrown String :=
  match given value with
  | none => .ok fallback
  | some v => (asString ns v).mapError typeError

/-- `Number(value)`, where nothing is `NaN`. -/
def numberOf (value : Option JsonValue) : Except Thrown Number :=
  match value with
  | none => .ok .nan
  | some v => (asNumber ns v).mapError typeError

def clampInt (value : Option JsonValue) (fallback min max : ℤ) : Except Thrown ℤ :=
  (numberOf ns value).map fun parsed ↦
    match parsed with
    | .finite x => Min.min (Max.max (Number.trunc x.val) min) max
    | _ => fallback

def objectOr (value : Option JsonValue) : JsonValue :=
  match value with
  | some (.object members) => .object members
  | some (.array items) => .array items
  | _ => .object []

/-- `value?.name` -/
def optional (value : Option JsonValue) (name : String) : Option JsonValue := (given value).bind (member name)

def isTruthy (value : Option JsonValue) : Bool := value.any truthy

def operationOf (type : String) (value : Option JsonValue) : Except Thrown (Option String) :=
  if type = "transform" then (textOr ns value "identity").map some else .ok none

def normalizeCompensation (compensation : JsonValue) : Except Thrown Compensation := do
  let type ← textOr ns (member "type" compensation) "transform"
  require (isIn type typeNames) (err s!"Unknown compensation step type: {type}.")
  let operation ← operationOf ns type (member "operation" compensation)
  let named := operation.getD ""
  require (operation.all (isIn · transformOps)) (err s!"Unknown compensation transform operation: {named}.")
  let timeoutMs ← clampInt ns (member "timeoutMs" compensation) 30000 10 600000
  let description ← textOr ns (member "description" compensation) ""
  return ⟨type, operation, objectOr (member "config" compensation), (given (member "toolId" compensation)).getD .null,
    timeoutMs, description⟩

def compensationOf (value : Option JsonValue) : Except Thrown (Option Compensation) :=
  match value with
  | some c => if truthy c then (normalizeCompensation ns c).map some else .ok none
  | none => .ok none

def approvalOf (type : String) (value : Option JsonValue) : Except Thrown Bool :=
  match value, stepTypes.lookup type with
  | some v, _ => .ok (truthy v)
  | none, some declared => .ok (declared.effects.length > 0)
  | none, none => .error (typeError "Cannot read properties of undefined (reading 'length')")

def durationOf (type : String) (value : Option JsonValue) : Except Thrown (Option ℤ) :=
  if type = "wait" then (clampInt ns value 0 0 60000).map some else .ok none

def normalizeStep (input : JsonValue) (index : ℕ) : Except Thrown Step := do
  require (!(input matches .null)) (typeError "Cannot read properties of null (reading 'type')")
  let type ← textOr ns (member "type" input) "transform"
  require (isIn type typeNames) (err s!"Unknown step type: {type}. Known types: {listed typeNames}.")
  let key ← (textOr ns (member "key" input) s!"step-{index + 1}").map trim
  require (keyPattern key) (err s!"Step key \"{key}\" must be 1-64 characters of letters, digits, dot, dash or underscore.")
  let title ← textOr ns (member "title" input) key
  let description ← textOr ns (member "description" input) ""
  let operation ← operationOf ns type (member "operation" input)
  let requiresApproval ← approvalOf type (member "requiresApproval" input)
  let maxAttempts ← clampInt ns (optional (member "retry" input) "maxAttempts") 1 1 5
  let backoffMs ← clampInt ns (optional (member "retry" input) "backoffMs") 0 0 60000
  let timeoutMs ← clampInt ns (member "timeoutMs" input) 30000 10 600000
  let durationMs ← durationOf ns type (member "durationMs" input)
  let named := operation.getD ""
  require (operation.all (isIn · transformOps))
    (err s!"Unknown transform operation: {named}. Known operations: {listed transformOps}.")
  require (type = "tool_call" → isTruthy (member "toolId" input)) (err s!"Step \"{key}\" is a tool_call and must name a toolId.")
  let compensation ← compensationOf ns (member "compensation" input)
  return ⟨index, key, type, title, description, operation, objectOr (member "config" input),
    (given (member "toolId" input)).getD .null, (given (member "input" input)).getD .null, requiresApproval,
    maxAttempts, backoffMs, timeoutMs, durationMs, compensation⟩

end

structure Workflow where
  id : String
  projectId : JsonValue
  name : String
  description : String
  version : ℕ
  steps : List Step
  archived : Bool

section

variable (ns : Numerals)

def duplicateKey (keys : List String) : Option String :=
  (keys.zipIdx.find? fun entry ↦ keys.idxOf entry.1 ≠ entry.2).map (·.1)

def normalizeSteps (rawSteps : List JsonValue) : Except Thrown (List Step) := do
  let steps ← rawSteps.zipIdx.mapM fun entry ↦ normalizeStep ns entry.1 entry.2
  match duplicateKey (steps.map (·.key)) with
  | some key => .error (err s!"Step keys must be unique within a workflow; \"{key}\" is repeated.")
  | none => .ok steps

def arrayOr (value : Option JsonValue) : List JsonValue :=
  match value with
  | some (.array items) => items
  | _ => []

/-- The `id` is a fresh one of the platform. -/
def createWorkflow (id : String) (input : JsonValue) : Except Thrown Workflow := do
  require (!(input matches .null)) (typeError "Cannot read properties of null (reading 'name')")
  let name ← (textOr ns (member "name" input) "").map trim
  require (name ≠ "") (err "Workflow name is required.")
  let rawSteps := arrayOr (member "steps" input)
  require (rawSteps.length ≠ 0) (err "A workflow needs at least one step.")
  require (rawSteps.length ≤ 50) (err "A workflow may declare at most 50 steps.")
  let steps ← normalizeSteps ns rawSteps
  let description ← textOr ns (member "description" input) ""
  return ⟨id, (given (member "projectId" input)).getD .null, name, description, 1, steps, false⟩

def patchSteps (patch : JsonValue) : Except Thrown (Option (List Step)) :=
  match member "steps" patch with
  | none => .ok none
  | some steps => do
    let raw := arrayOr (some steps)
    require (raw.length ≠ 0) (err "A workflow needs at least one step.")
    let normalized ← normalizeSteps ns raw
    return some normalized

def patchName (workflow : Workflow) (value : Option JsonValue) : Except Thrown String :=
  match value with
  | none => .ok workflow.name
  | some v => do
    let name ← ((asString ns v).mapError typeError).map trim
    require (name ≠ "") (err "Workflow name is required.")
    return name

def patchDescription (workflow : Workflow) (value : Option JsonValue) : Except Thrown String :=
  match value with
  | none => .ok workflow.description
  | some v => (asString ns v).mapError typeError

def Workflow.replaceSteps (workflow : Workflow) : Option (List Step) → Workflow
  | some steps => { workflow with steps := steps, version := workflow.version + 1 }
  | none => workflow

def patched (workflow : Workflow) (steps : Option (List Step)) (patch : JsonValue) : Except Thrown Workflow := do
  let name ← patchName ns workflow (member "name" patch)
  let description ← patchDescription ns workflow (member "description" patch)
  let archived := ((member "archived" patch).map truthy).getD workflow.archived
  return { workflow with name := name, description := description, archived := archived }.replaceSteps steps

def updateWorkflow (workflows : List Workflow) (workflowId : String) (patch : JsonValue) :
    Except Thrown (List Workflow) := do
  require (!(patch matches .null)) (typeError "Cannot read properties of null (reading 'steps')")
  let steps ← patchSteps ns patch
  let place ← demand (workflows.findIdx? (·.id = workflowId)) ⟨"Workflow not found.", some 404⟩
  let workflow ← demand workflows[place]? ⟨"Workflow not found.", some 404⟩
  let workflow ← patched ns workflow steps patch
  return workflows.set place workflow

end

end Noesar.Workflows
