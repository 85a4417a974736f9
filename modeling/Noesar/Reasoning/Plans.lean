import Noesar.Lib.Lists
import Noesar.Updates.Version

namespace Noesar.Reasoning

open Lib Lib.PosixPath

/-- What a step says it can reach, with the paths it was read from. -/
structure BlastRadius (L : Type) extends Capability.BlastRadius L where
  paths : List String
  deriving DecidableEq

structure Step (L : Type) where
  id : String
  description : String
  files : List String
  commands : List String
  dependsOn : List String
  blastRadius : BlastRadius L
  deriving DecidableEq

structure Plan (L : Type) where
  steps : List (Step L)
  constraints : List String
  mode : String
  deriving DecidableEq

variable {L : Type}

def insideWorkspace (workspaceRoot path : String) : Bool :=
  if ['.', '.'] <:+: path.toList then false
  else if path.toList.head? = some '/' ∨ [':', '\\'] <:+: path.toList then decide (workspaceRoot.toList <+: path.toList)
  else true

def blastRadius (workspaceRoot : String) (files : List String) (destructive : Bool) : BlastRadius L where
  paths := files
  reachesOutsideWorkspace := files.any fun path ↦ !insideWorkspace workspaceRoot path
  destructive := destructive
  limits := none

def maxVerifiableFiles : ℕ := 3

/-- The part of a step that has a chunk of its files. A command that is empty counts as none. -/
def filesPart (workspaceRoot : String) (step : Step L) (index : ℕ) (chunk : List String) : Step L where
  id := s!"{step.id}-{index + 1}"
  description := s!"{step.description} ({chunk.length} of the files)"
  files := chunk
  commands := (step.commands[index]?.filter (· ≠ "")).toList
  dependsOn := if index = 0 then [] else [s!"{step.id}-{index}"]
  blastRadius := blastRadius workspaceRoot chunk step.blastRadius.destructive

def commandPart (step : Step L) (index : ℕ) (command : String) : Step L where
  id := s!"{step.id}-{index + 1}"
  description := s!"{step.description}: {command}"
  files := step.files
  commands := [command]
  dependsOn := if index = 0 then [] else [s!"{step.id}-{index}"]
  blastRadius := step.blastRadius

def decompose (workspaceRoot : String) (step : Step L) : Option (List (Step L)) :=
  if step.files.length ≤ maxVerifiableFiles ∧ step.commands.length ≤ 1 then none
  else
    let parts := (chunks maxVerifiableFiles step.files).mapIdx (filesPart workspaceRoot step)
    if parts.length < 2 then some (step.commands.mapIdx (commandPart step)) else some parts

/-- The checks of `buildPlan` on the steps, with the ids of those seen before. -/
def checkSteps : List String → List (Step L) → Except String Unit
  | _, [] => .ok ()
  | seen, step :: steps =>
    if (Updates.trim step.id.toList).isEmpty then .error "a step without an id cannot be referenced or audited"
    else if step.id ∈ seen then .error s!"duplicate step id `{step.id}`"
    else
      match step.dependsOn.find? (· ∉ seen) with
      | some dependency => .error s!"step `{step.id}` depends on `{dependency}`, which is not an earlier step"
      | none => checkSteps (seen ++ [step.id]) steps

def buildPlan (steps : List (Step L)) (constraints : List String) (mode : String) : Except String (Plan L) :=
  if steps = [] then .error "a plan with no step authorises nothing and must not be minted"
  else (checkSteps [] steps).map fun _ ↦ ⟨steps, constraints, mode⟩

/-- A narrowed plan with the ids that were taken from it, or the reason why nothing is left. -/
inductive Constrained (P : Type)
  | refused (reason : String)
  | restricted (plan : P) (removed : List String)
  deriving DecidableEq

def Constrained.map {P Q : Type} (f : P → Q) : Constrained P → Constrained Q
  | refused reason => refused reason
  | restricted plan removed => restricted (f plan) removed

def nothingLeft (policy : String) (removed : List String) : String :=
  s!"every step of the plan is refused under policy `{policy}`: {removed.length} step(s) reach outside the workspace or are destructive"

def refuseStep (policy : String) (step : Step L) : Bool :=
  step.blastRadius.reachesOutsideWorkspace || (policy ≠ "permissive" && step.blastRadius.destructive)

/-- One step of the pass of `constrain`, onto the steps kept and the ids removed before it. -/
def constrainStep (policy : String) (state : List (Step L) × List String) (step : Step L) : List (Step L) × List String :=
  if refuseStep policy step then (state.1, state.2 ++ [step.id])
  else if step.dependsOn.any (· ∈ state.2) then (state.1, state.2 ++ [step.id])
  else (state.1 ++ [{ step with dependsOn := step.dependsOn.filter (· ∉ state.2) }], state.2)

def constrain (plan : Plan L) (policy : String) : Except String (Constrained (Plan L)) :=
  let (kept, removed) := plan.steps.foldl (constrainStep policy) ([], [])
  if kept = [] then .ok (.refused (nothingLeft policy removed))
  else (buildPlan kept plan.constraints plan.mode).map fun narrowed ↦ .restricted narrowed removed

end Noesar.Reasoning

namespace Noesar.Reasoning

open Lib

variable {L : Type}

def Step.unlimited (step : Step L) : Step Empty :=
  { step with blastRadius := ⟨⟨step.blastRadius.destructive, step.blastRadius.reachesOutsideWorkspace, none⟩,
    step.blastRadius.paths⟩ }

namespace Rust

inductive ReasoningError
  | invalid (field reason : String)
  | refused (reason : String)
  deriving DecidableEq

def isWhitespace (c : Char) : Bool :=
  c.toNat ∈ [9, 10, 11, 12, 13, 32, 0x85, 0xA0, 0x1680, 0x2028, 0x2029, 0x202F, 0x205F, 0x3000] ||
    (0x2000 ≤ c.toNat && c.toNat ≤ 0x200A)

def checkSteps : List String → List (Step Empty) → Except ReasoningError Unit
  | _, [] => .ok ()
  | seen, step :: steps =>
    if step.id.toList.all isWhitespace then
      .error (.invalid "PlanStep.id" "a step without an id cannot be referenced or audited")
    else if step.id ∈ seen then .error (.invalid "PlanStep.id" s!"duplicate step id `{step.id}`")
    else
      match step.dependsOn.find? (· ∉ seen) with
      | some dependency => .error (.invalid "PlanStep.depends_on"
          s!"step `{step.id}` depends on `{dependency}`, which is not an earlier step")
      | none => checkSteps (seen ++ [step.id]) steps

/-- A plan of the crate, which only `tryNew` builds. -/
structure Plan extends Reasoning.Plan Empty where
  nonempty : steps ≠ []
  checked : checkSteps [] steps = .ok ()

def Plan.tryNew (steps : List (Step Empty)) (constraints : List String) (mode : String) : Except ReasoningError Plan :=
  if hempty : steps = [] then
    .error (.invalid "Plan.steps" "a plan with no step authorises nothing and must not be minted")
  else
    match hchecked : checkSteps [] steps with
    | .error e => .error e
    | .ok () => .ok ⟨⟨steps, constraints, mode⟩, hempty, hchecked⟩

inductive Decomposition
  | split (steps : List (Step Empty))
  | alreadyVerifiable
  deriving DecidableEq

def Decomposition.trySplit (steps : List (Step Empty)) : Except ReasoningError Decomposition :=
  if steps.length < 2 then
    .error (.invalid "Decomposition::Split.steps" "a split that yields one step is `AlreadyVerifiable` misreported")
  else .ok (.split steps)

def insideWorkspace (workspaceRoot path : String) : Bool :=
  if ['.', '.'] <:+: path.toList then false
  else if path.toList.head? = some '/' ∨ [':', '\\'] <:+: path.toList then decide (workspaceRoot.toList <+: path.toList)
  else true

def blastRadius (workspaceRoot : String) (files : List String) (destructive : Bool) : BlastRadius Empty where
  paths := files
  reachesOutsideWorkspace := files.any fun path ↦ !insideWorkspace workspaceRoot path
  destructive := destructive
  limits := none

/-- The part of a step that has a chunk of its files, with the command of its place even if it is empty. -/
def filesPart (workspaceRoot : String) (step : Step Empty) (index : ℕ) (chunk : List String) : Step Empty where
  id := s!"{step.id}-{index + 1}"
  description := s!"{step.description} ({chunk.length} of the files)"
  files := chunk
  commands := step.commands[index]?.toList
  dependsOn := if index = 0 then [] else [s!"{step.id}-{index}"]
  blastRadius := blastRadius workspaceRoot chunk step.blastRadius.destructive

def commandPart (step : Step Empty) (index : ℕ) (command : String) : Step Empty where
  id := s!"{step.id}-{index + 1}"
  description := s!"{step.description}: {command}"
  files := step.files
  commands := [command]
  dependsOn := if index = 0 then [] else [s!"{step.id}-{index}"]
  blastRadius := step.blastRadius

def decompose (workspaceRoot : String) (step : Step Empty) : Except ReasoningError Decomposition :=
  if step.files.length ≤ maxVerifiableFiles ∧ step.commands.length ≤ 1 then .ok .alreadyVerifiable
  else
    let parts := (chunks maxVerifiableFiles step.files).mapIdx (filesPart workspaceRoot step)
    Decomposition.trySplit (if parts.length < 2 then step.commands.mapIdx (commandPart step) else parts)

def constrainStep (policy : String) (state : List (Step Empty) × List String) (step : Step Empty) :
    List (Step Empty) × List String :=
  if step.blastRadius.reachesOutsideWorkspace || (policy ≠ "permissive" && step.blastRadius.destructive) then
    (state.1, state.2 ++ [step.id])
  else if step.dependsOn.any (· ∈ state.2) then (state.1, state.2 ++ [step.id])
  else (state.1 ++ [{ step with dependsOn := step.dependsOn.filter (· ∉ state.2) }], state.2)

def constrain (plan : Plan) (policy : String) : Except ReasoningError (Constrained Plan) :=
  let (kept, removed) := plan.steps.foldl (constrainStep policy) ([], [])
  if kept = [] then .ok (.refused (nothingLeft policy removed))
  else (Plan.tryNew kept plan.constraints plan.mode).map fun narrowed ↦ .restricted narrowed removed

end Rust

end Noesar.Reasoning
