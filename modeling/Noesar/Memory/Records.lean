import Noesar.Lib.Cooperative
import Noesar.Workflows.Definition

namespace Noesar.Memory

open Lib Lib.Cooperative Workflows

inductive Cube
  | library
  | workshop
  | corpus
  | experience
  deriving DecidableEq

def cubes : List (String × Cube) :=
  [("library", .library), ("workshop", .workshop), ("corpus", .corpus), ("experience", .experience)]

inductive PromotionState
  | session
  | projectCandidate
  | project
  | globalCandidate
  | global
  | revoked
  deriving DecidableEq

inductive Visibility
  | «private»
  | project
  | workspace
  deriving DecidableEq

def Cube.text : Cube → String
  | library => "library"
  | workshop => "workshop"
  | corpus => "corpus"
  | experience => "experience"

def PromotionState.text : PromotionState → String
  | session => "session"
  | projectCandidate => "project-candidate"
  | project => "project"
  | globalCandidate => "global-candidate"
  | global => "global"
  | revoked => "revoked"

/-- A row of `memory_records`. The signature is unique. -/
structure MemoryRecord where
  signature : String
  cube : Cube
  visibility : Visibility
  promotionState : PromotionState
  deriving DecidableEq

structure Transition where
  next : PromotionState
  visibility : Option Visibility
  deriving DecidableEq

def approve : PromotionState → Option Transition
  | .projectCandidate => some ⟨.project, some .project⟩
  | .globalCandidate => some ⟨.global, some .workspace⟩
  | .session | .project | .global | .revoked => none

def reject : PromotionState → Option Transition
  | .projectCandidate => some ⟨.revoked, none⟩
  | .globalCandidate => some ⟨.revoked, none⟩
  | .session | .project | .global | .revoked => none

/-- `transitions[decision]`. What is only inherited lists no state. -/
def transitions (decision : String) : Option (PromotionState → Option Transition) :=
  if decision = "approve" then some approve
  else if decision = "reject" then some reject
  else if decision ∈ inherited then some fun _ ↦ none
  else none

def requireCube (value : String) : Except Thrown Cube :=
  demand (cubes.lookup value) (err "cube must be one of: library, workshop, corpus, experience")

def hexDigit (c : Char) : Bool := c.isDigit || ('a' ≤ c.toLower && c.toLower ≤ 'f')

/-- `/^[0-9a-f-]{36}$/i` -/
def uuidPattern (value : String) : Bool := value.length = 36 && value.toList.all fun c ↦ hexDigit c || c = '-'

def requireUuid (value : JsonValue) (field : String) : Except Thrown String :=
  match value with
  | .string s => if uuidPattern s then .ok s else .error (err s!"{field} must be a UUID string")
  | _ => .error (err s!"{field} must be a UUID string")

/-- A call of `promote` that passed its checks. -/
structure Promotion where
  signature : String
  cube : Cube
  table : PromotionState → Option Transition
  actorId : String

/-- `available` says whether there is an active data plane. -/
inductive Request
  | promote (signature cube decision : String) (actorId : JsonValue) (available : Bool)
  | write (record : MemoryRecord)

/-- A call whose statement is on its way to the database, or does not reach it. -/
inductive Task
  | selecting (call : Promotion)
  | updating (call : Promotion) (transition : Transition)
  | failed (error : Thrown)

inductive Outcome
  | promoted (record : MemoryRecord) (decidedBy : String)
  | refused (error : Thrown)
  deriving DecidableEq

def MemoryRecord.named (signature : String) (cube : Cube) (record : MemoryRecord) : Bool :=
  record.signature = signature && record.cube = cube

def promote (signature cube decision : String) (actorId : JsonValue) (available : Bool) : Except Thrown Promotion := do
  let cube ← requireCube cube
  let actorId ← requireUuid actorId "actorId"
  let table ← demand (transitions decision) (err "decision must be \"approve\" or \"reject\"")
  require (available = true) ⟨"memory: no active PostgreSQL data plane", some 503⟩
  return ⟨signature, cube, table, actorId⟩

def select (records : List MemoryRecord) (call : Promotion) : Except Thrown Transition :=
  let state := (records.find? (·.named call.signature call.cube)).map (·.promotionState)
  let signature := call.signature
  let cube := call.cube.text
  let found := (state.map (·.text)).getD "not found"
  demand (state.bind call.table) ⟨s!"\"{signature}\" (cube: {cube}) is not awaiting promotion (state: {found})", some 409⟩

def MemoryRecord.apply (record : MemoryRecord) (transition : Transition) : MemoryRecord :=
  { record with
    promotionState := transition.next
    visibility := transition.visibility.getD record.visibility }

def update (records : List MemoryRecord) (call : Promotion) (transition : Transition) : List MemoryRecord :=
  records.map fun record ↦ if record.named call.signature call.cube then record.apply transition else record

/-- `RETURNING` -/
def returned (records : List MemoryRecord) (call : Promotion) (transition : Transition) : Option MemoryRecord :=
  (records.find? (·.named call.signature call.cube)).map (·.apply transition)

def call (records : List MemoryRecord) : Request → Turn (List MemoryRecord) Task Outcome
  | .promote signature cube decision actorId available =>
    match promote signature cube decision actorId available with
    | .error e => ⟨records, [.refused e], .done⟩
    | .ok promotion => ⟨records, [], .wait (.selecting promotion)⟩
  | .write record =>
    if records.any (·.signature = record.signature) then ⟨records, [], .done⟩ else ⟨records ++ [record], [], .done⟩

def turn (records : List MemoryRecord) : Task → Turn (List MemoryRecord) Task Outcome
  | .selecting promotion =>
    match select records promotion with
    | .error e => ⟨records, [.refused e], .done⟩
    | .ok transition => ⟨records, [], .wait (.updating promotion transition)⟩
  | .updating promotion transition =>
    match returned records promotion transition with
    | none => ⟨records, [.refused (typeError "Cannot read properties of undefined (reading 'signature')")], .done⟩
    | some record => ⟨update records promotion transition, [.promoted record promotion.actorId], .done⟩
  | .failed e => ⟨records, [.refused e], .done⟩

def resume : Task → Option Thrown → Task
  | task, none => task
  | _, some e => .failed e

def database : Program (List MemoryRecord) Task Request (Option Thrown) Outcome :=
  ⟨fun records _ ↦ call records, fun records _ ↦ turn records, resume, fun _ ↦ false, fun _ ↦ true⟩

abbrev Session := State (List MemoryRecord) Task Outcome

abbrev SessionAction := Action Request (Option Thrown)

end Noesar.Memory
