import Noesar.Lib.Cooperative
import Noesar.Workflows.Definition

namespace Noesar.Workflows

open Lib Lib.Cooperative

inductive StepStatus
  | pending
  | awaitingApproval
  | running
  | completed
  | failed
  | rejected
  | cancelled
  | interrupted
  deriving DecidableEq

inductive RunStatus
  | pending
  | running
  | awaitingApproval
  | cancelling
  | rejecting
  | completed
  | failed
  | cancelled
  | rejected
  | compensationFailed
  deriving DecidableEq

def RunStatus.terminal : RunStatus → Bool
  | completed | failed | cancelled | rejected | compensationFailed => true
  | pending | running | awaitingApproval | cancelling | rejecting => false

inductive AttemptResult
  | running
  | completed
  | failed
  | timedOut
  | interrupted
  deriving DecidableEq

structure Attempt where
  attempt : ℤ
  result : AttemptResult
  error : Option String
  deriving DecidableEq

inductive Decision
  | approve
  | reject
  deriving DecidableEq

structure Approval where
  required : Bool
  decision : Option Decision
  decidedBy : Option String
  reason : Option String
  deriving DecidableEq

inductive CompensationStatus
  | notRequired
  | pending
  | compensated
  | failed
  deriving DecidableEq

structure CompensationRecord where
  status : CompensationStatus
  error : Option String
  output : JsonValue

structure RunStep where
  key : String
  status : StepStatus
  attempts : List Attempt
  output : JsonValue
  error : Option String
  approval : Approval
  compensation : Option CompensationRecord

inductive Event
  | runCreated (workflowVersion : ℕ) (replayOf : Option ℕ)
  | awaitingApproval
  | decided (decision : Decision) (actorId : String) (reason : Option String)
  | attemptStarted (attempt maxAttempts : ℤ)
  | completed (attempt : ℤ)
  | attemptFailed (attempt : ℤ) (error : String)
  | failed (attempt : ℤ) (error : String)
  | interrupted
  | compensated
  | compensationFailed (error : String)
  | cancellationRequested (reason actorId : String)
  | finished (status : RunStatus) (error : Option String)
  deriving DecidableEq

structure Evidence where
  stepKey : Option String
  event : Event
  deriving DecidableEq

structure Snapshot where
  name : String
  version : ℕ
  steps : List Step

structure Run where
  workflowId : String
  definition : Snapshot
  projectId : JsonValue
  status : RunStatus
  input : JsonValue
  output : JsonValue
  idempotencyKey : Option String
  replayOf : Option ℕ
  error : Option String
  cancellationRequested : Bool
  steps : List RunStep
  evidence : List Evidence

def RunStep.of (step : Step) : RunStep where
  key := step.key
  status := .pending
  attempts := []
  output := .null
  error := none
  approval := ⟨step.requiresApproval, none, none, none⟩
  compensation := step.compensation.map fun _ ↦ ⟨.notRequired, none, .null⟩

def newRun (workflow : Workflow) (input : JsonValue) (idempotencyKey : Option String) (projectId : JsonValue)
    (replayOf : Option ℕ) : Run where
  workflowId := workflow.id
  definition := ⟨workflow.name, workflow.version, workflow.steps⟩
  projectId := (JsonValue.given (some projectId)).getD workflow.projectId
  status := .pending
  input := input
  output := .null
  idempotencyKey := idempotencyKey
  replayOf := replayOf
  error := none
  cancellationRequested := false
  steps := workflow.steps.map .of
  evidence := [⟨none, .runCreated workflow.version replayOf⟩]

/-- A transaction that would take the evidence past its limit throws, and nothing of it is written. -/
def record (run : Run) (entries : List Evidence) : Except Thrown Run :=
  if (run.evidence ++ entries).length > 2000 then
    .error ⟨"Run evidence exceeded 2000 records; refusing to grow further.", some 507⟩
  else .ok { run with evidence := run.evidence ++ entries }

def onStep (run : Run) (i : ℕ) (status : RunStatus) (change : RunStep → RunStep) (event : Event) : Except Thrown Run := do
  let step ← demand run.steps[i]? ⟨"Workflow step not found.", some 404⟩
  record { run with status := status, steps := run.steps.set i (change step) } [⟨some step.key, event⟩]

/-- The attempt of this number is closed, or the last one where there is none of this number. -/
def settleAttempts (attempts : List Attempt) (attempt : ℤ) (result : AttemptResult) (error : Option String) :
    List Attempt :=
  attempts.modify ((attempts.findIdx? (·.attempt = attempt)).getD (attempts.length - 1)) fun entry ↦
    { entry with result := result, error := error }

def startAttempt (run : Run) (i : ℕ) (definition : Step) (attempt : ℤ) : Except Thrown Run :=
  onStep run i .running
    (fun step ↦ { step with status := .running, attempts := step.attempts ++ [⟨attempt, .running, none⟩] })
    (.attemptStarted attempt definition.maxAttempts)

def completeAttempt (run : Run) (i : ℕ) (attempt : ℤ) (output : JsonValue) : Except Thrown Run :=
  onStep run i run.status
    (fun step ↦ { step with
      attempts := settleAttempts step.attempts attempt .completed none
      status := .completed
      output := output
      compensation := step.compensation.map fun record ↦ { record with status := .pending } })
    (.completed attempt)

def failAttempt (run : Run) (i : ℕ) (attempt : ℤ) (error : Thrown) (willRetry : Bool) : Except Thrown Run :=
  onStep run i run.status
    (fun step ↦ { step with
      attempts := settleAttempts step.attempts attempt (if error.status = some 504 then .timedOut else .failed) (some error.message)
      error := some error.message
      status := if willRetry then step.status else .failed })
    (if willRetry then .attemptFailed attempt error.message else .failed attempt error.message)

def awaitApproval (run : Run) (i : ℕ) : Except Thrown Run :=
  onStep run i .awaitingApproval (fun step ↦ { step with status := .awaitingApproval }) .awaitingApproval

def interruptStep (step : RunStep) : RunStep :=
  if step.status = .running then
    { step with
      status := .interrupted
      error := some "The process running this step stopped before it finished."
      attempts :=
        match step.attempts.findIdx? (·.result = .running) with
        | some j => step.attempts.modify j fun attempt ↦ { attempt with result := .interrupted }
        | none => step.attempts }
  else step

def reconcileInterrupted (run : Run) : Except Thrown Run :=
  if run.steps.any (·.status = .running) then
    record { run with steps := run.steps.map interruptStep }
      ((run.steps.filter (·.status = .running)).map fun step ↦ ⟨some step.key, .interrupted⟩)
  else .ok run

def markCompensated (run : Run) (i : ℕ) (output : JsonValue) : Except Thrown Run :=
  onStep run i run.status (fun step ↦ { step with compensation := some ⟨.compensated, none, output⟩ }) .compensated

def markCompensationFailed (run : Run) (i : ℕ) (error : String) : Except Thrown Run :=
  onStep run i run.status (fun step ↦ { step with compensation := some ⟨.failed, some error, .null⟩ })
    (.compensationFailed error)

def finishRun (run : Run) (status : RunStatus) (error : Option String) : Except Thrown Run :=
  let completed := run.steps.filter (·.status = .completed)
  record { run with
    status := status
    error := error
    output := if status = .completed then (completed.getLast?.map (·.output)).getD run.output else run.output }
    [⟨none, .finished status error⟩]

def decideApproval (run : Run) (i : ℕ) (decision : Decision) (actorId : String) (reason : Option String) :
    Except Thrown Run := do
  let step ← demand run.steps[i]? ⟨"Workflow step not found.", some 404⟩
  require (step.status = .awaitingApproval) ⟨"Step is not awaiting approval.", some 409⟩
  onStep run i (if decision = .reject then .rejecting else run.status)
    (fun step ↦ { step with
      approval := ⟨true, some decision, some actorId, reason⟩
      status := if decision = .approve then .pending else .rejected })
    (.decided decision actorId reason)

def cancelStep (step : RunStep) : RunStep :=
  if step.status = .pending ∨ step.status = .awaitingApproval then { step with status := .cancelled } else step

def cancelRun (run : Run) (reason actorId : String) : Except Thrown Run := do
  require (run.status.terminal = false) ⟨"Run is already finished.", some 409⟩
  record { run with cancellationRequested := true, status := .cancelling, steps := run.steps.map cancelStep }
    [⟨none, .cancellationRequested reason actorId⟩]

def toCompensate (run : Run) : List ℕ :=
  (List.range run.steps.length).reverse.filter fun i ↦
    run.steps[i]?.any fun step ↦ step.status = .completed && step.compensation.any (·.status = .pending)

inductive Ending
  | cancelled
  | rejected
  | failed
  deriving DecidableEq

def Ending.status : Ending → RunStatus
  | cancelled => .cancelled
  | rejected => .rejected
  | failed => .failed

/-- The compensation of a run, and whether it is `advance` that waits for it. -/
structure Undo where
  todo : List ℕ
  failed : Bool
  ending : Ending
  reason : Option String
  advancing : Bool

/-- Where a call is between two transactions or two waits. -/
inductive Task
  | enter
  | loop
  | executing (i : ℕ) (definition : Step) (attempt : ℤ)
  | settled (i : ℕ) (definition : Step) (attempt : ℤ) (outcome : Except Thrown JsonValue)
  | backoff (i : ℕ) (definition : Step) (attempt : ℤ)
  | retry (i : ℕ) (definition : Step) (attempt : ℤ)
  | returned (outcome : Except (Option String) Unit)
  | undo (undo : Undo)
  | undoing (i : ℕ) (undo : Undo)
  | undone (i : ℕ) (undo : Undo) (outcome : Except Thrown JsonValue)
  | leaving

/-- What `advance` does while its run is in the set `advancing`. -/
def Task.advancing : Task → Bool
  | .enter => false
  | .loop | .executing _ _ _ | .settled _ _ _ _ | .backoff _ _ _ | .retry _ _ _ | .returned _ | .leaving => true
  | .undo u | .undoing _ u | .undone _ u _ => u.advancing

def Task.waits : Task → Bool
  | .executing _ _ _ | .backoff _ _ _ | .returned _ | .undoing _ _ | .leaving => true
  | .enter | .loop | .settled _ _ _ _ | .retry _ _ _ | .undo _ | .undone _ _ _ => false

inductive Execution
  | attempt (i : ℕ) (attempt : ℤ)
  | compensation (i : ℕ)
  deriving DecidableEq

abbrev Outcome := Turn Run Task Execution

def commit (run : Run) (transaction : Except Thrown Run) (started : List Execution) (next thrown : Next Task) : Outcome :=
  match transaction with
  | .ok run' => ⟨run', started, next⟩
  | .error _ => ⟨run, [], thrown⟩

def compensate (run : Run) (ending : Ending) (reason : Option String) (advancing : Bool) : Task :=
  .undo ⟨toCompensate run, false, ending, reason, advancing⟩

def Undo.after (u : Undo) : Next Task := if u.advancing then .wait .leaving else .done

def enterAdvance (run : Run) (busy : Bool) : Outcome :=
  if busy then ⟨run, [], .done⟩ else commit run (reconcileInterrupted run) [] (.run .loop) .done

def beginAttempt (run : Run) (i : ℕ) (definition : Step) (attempt : ℤ) : Outcome :=
  commit run (startAttempt run i definition attempt) [.attempt i attempt] (.wait (.executing i definition attempt)) (.wait .leaving)

def advanceStep (run : Run) (i : ℕ) : Outcome :=
  match run.steps[i]? with
  | none => ⟨run, [], .done⟩
  | some next =>
    match run.definition.steps.find? (·.key = next.key) with
    | none =>
      let key := next.key
      commit run (finishRun run .failed (some s!"Step \"{key}\" has no definition in the run snapshot.")) [] .done .done
    | some definition =>
      if definition.requiresApproval ∧ next.approval.decision ≠ some .approve then
        if next.status = .awaitingApproval then ⟨run, [], .done⟩ else commit run (awaitApproval run i) [] .done .done
      else if 1 ≤ definition.maxAttempts then beginAttempt run i definition 1
      else ⟨run, [], .wait (.returned (.error none))⟩

def advanceLoop (run : Run) : Outcome :=
  if run.status.terminal then ⟨run, [], .done⟩
  else if run.cancellationRequested then
    ⟨run, [], .run (compensate run .cancelled (some "cancellation requested") true)⟩
  else
    match run.steps.find? (·.status = .interrupted) with
    | some step =>
      let key := step.key
      ⟨run, [], .run (compensate run .failed (some s!"Step \"{key}\" was interrupted before it finished.") true)⟩
    | none =>
      match run.steps.findIdx? fun step ↦ step.status = .pending ∨ step.status = .awaitingApproval with
      | none => commit run (finishRun run .completed none) [] .done .done
      | some i => advanceStep run i

/-- A failed attempt is tried again, at once or after its backoff, while attempts are left. -/
def settle (run : Run) (i : ℕ) (definition : Step) (attempt : ℤ) (outcome : Except Thrown JsonValue) : Outcome :=
  match outcome >>= completeAttempt run i attempt with
  | .ok run' => ⟨run', [], .wait (.returned (.ok ()))⟩
  | .error error =>
    let next : Next Task :=
      if attempt < definition.maxAttempts then
        if 0 < definition.backoffMs then .wait (.backoff i definition attempt) else .run (.retry i definition attempt)
      else .wait (.returned (.error (some error.message)))
    commit run (failAttempt run i attempt error (attempt < definition.maxAttempts)) [] next (.wait .leaving)

def retryAttempt (run : Run) (i : ℕ) (definition : Step) (attempt : ℤ) : Outcome :=
  if run.cancellationRequested then ⟨run, [], .wait (.returned (.error (some "cancelled during retry backoff")))⟩
  else beginAttempt run i definition (attempt + 1)

def declaredCompensation (run : Run) (i : ℕ) : Option Compensation := do
  let step ← run.steps[i]?
  let definition ← run.definition.steps.find? (·.key = step.key)
  definition.compensation

def undoNext (run : Run) (u : Undo) : Outcome :=
  match u.todo with
  | [] => commit run (finishRun run (if u.failed then .compensationFailed else u.ending.status) u.reason) [] u.after u.after
  | i :: rest =>
    match declaredCompensation run i with
    | none => ⟨run, [], .run (.undo { u with todo := rest })⟩
    | some _ => ⟨run, [.compensation i], .wait (.undoing i { u with todo := rest })⟩

def settleUndo (run : Run) (i : ℕ) (u : Undo) (outcome : Except Thrown JsonValue) : Outcome :=
  match outcome >>= markCompensated run i with
  | .ok run' => ⟨run', [], .run (.undo u)⟩
  | .error error =>
    commit run (markCompensationFailed run i error.message) [] (.run (.undo { u with failed := true })) u.after

def turn (run : Run) (busy : Bool) : Task → Outcome
  | .enter => enterAdvance run busy
  | .loop => advanceLoop run
  | .settled i definition attempt outcome => settle run i definition attempt outcome
  | .retry i definition attempt => retryAttempt run i definition attempt
  | .returned (.ok ()) => ⟨run, [], .run .loop⟩
  | .returned (.error error) => ⟨run, [], .run (compensate run .failed error true)⟩
  | .undo u => undoNext run u
  | .undone i u outcome => settleUndo run i u outcome
  | .leaving => ⟨run, [], .done⟩
  | .executing i definition attempt => ⟨run, [], .wait (.executing i definition attempt)⟩
  | .backoff i definition attempt => ⟨run, [], .wait (.backoff i definition attempt)⟩
  | .undoing i u => ⟨run, [], .wait (.undoing i u)⟩

/-- What a wait ended with: the outcome of what was executed, or nothing that is read. -/
def resume : Task → Except Thrown JsonValue → Task
  | .executing i definition attempt, outcome => .settled i definition attempt outcome
  | .backoff i definition attempt, _ => .retry i definition attempt
  | .undoing i u, outcome => .undone i u outcome
  | task, _ => task

inductive Request
  | advance
  | decideApproval (i : ℕ) (decision : Decision) (actorId : String) (reason : Option String)
  | cancelRun (reason actorId : String)

def call (run : Run) (busy : Bool) : Request → Outcome
  | .advance => enterAdvance run busy
  | .decideApproval i decision actorId reason =>
    match decideApproval run i decision actorId reason with
    | .error _ => ⟨run, [], .done⟩
    | .ok run' =>
      match decision with
      | .approve => ⟨run', [], .run .enter⟩
      | .reject => ⟨run', [], .run (compensate run' .rejected (some (reason.getD "rejected by approver")) false)⟩
  | .cancelRun reason actorId =>
    match cancelRun run reason actorId with
    | .error _ => ⟨run, [], .done⟩
    | .ok run' => ⟨run', [], .run (compensate run' .cancelled (some reason) false)⟩

def service : Program Run Task Request (Except Thrown JsonValue) Execution := 
  ⟨call, turn, resume, Task.advancing, Task.waits⟩

abbrev Live := State Run Task Execution

abbrev RunAction := Action Request (Except Thrown JsonValue)

end Noesar.Workflows
