import Noesar.Workspace.Run

namespace Noesar.Workspace

open Lib Lib.Framing Capability Shadow

inductive Thrown
  | refused (kind reason : String)
  | failed
  deriving DecidableEq, Repr

/-- Which file operations of one turn of the promotion fail. A write that fails may
leave some bytes behind. -/
structure PromoteFaults where
  backupRead : Bool
  mkdir : Bool
  shadowRead : Bool
  write : Option (Option Bytes)

/-- What the surroundings answer during one call: the ledger, the copying of the
workspace, the operating system, by the position of the question in the call. -/
structure Env where
  recordFails : ℕ → Bool
  shadowFails : ℕ → Option ShadowError
  shell : ℕ → Shell
  promoteFaults : ℕ → PromoteFaults
  restoreFault : ℕ → Option (Option Bytes)

structure PlanArgs where
  files : List FileEntry
  claims : List String
  commands : List String
  conversationId : Option String
  answers : Option String
  actor : String
  nowUnix : Number

/-- What the decision layer and the author make of a request. -/
structure Draft where
  plan : Plan RawLimits
  expectation : Expectation
  found : List FileEntry
  derived : Bool
  questions : List String
  reproduction : Option Reproduction
  authoredContents : List (String × String)
  attemptDigest : Option String
  novelty : Option Novelty

structure Authored where
  contents : List (String × String)
  attemptDigest : String
  novelty : Novelty

/-- The local variables of `iterate` that are alive while it waits. -/
structure Iteration where
  attempt : ℕ
  maxAttempts : ℕ
  repeated : Bool

/-- A call that waits: for a plan to be made, for the plan of an answer, for the
author of a repair, for a repair of an iteration. -/
inductive Task
  | planning (args : PlanArgs) (answering : Option String)
  | answering (runId successor actor : String) (nowUnix : Number)
  | repairing (runId actor : String) (nowUnix : Number) (brief : List String) (iteration : Option Iteration)
  | iterating (runId actor : String) (nowUnix : Number) (iteration : Iteration)

structure Orchestrator (site : Site) where
  workspace : Files
  minter : JsMinter site.host
  runs : InsertionMap String Run
  shadows : InsertionMap String ShadowWorkspace
  tasks : List Task

namespace Orchestrator

variable {site : Site}

abbrev Step (site : Site) (α : Type) := Orchestrator site × Except Thrown α

def later (nowUnix : Number) : Number :=
  match nowUnix with
  | .finite x => .ofRat (x.val + approvalTtlSeconds)
  | n => n

def notFound (runId : String) : Thrown := .refused "NOT_FOUND" s!"no pending run `{runId}`"

def alreadyDecided (runId : String) (status : Status) : Thrown :=
  .refused "ALREADY_DECIDED" s!"run `{runId}` is already {status.text}"

/-- A `ShadowError` of `shadowOf`, as the refusal it becomes. -/
def shadowRefused (e : ShadowError) : Thrown :=
  .refused (match e.kind with
    | .invalid => "SHADOW_INVALID"
    | .containment => "SHADOW_CONTAINMENT"
    | .limit => "SHADOW_LIMIT"
    | .io => "SHADOW_IO") e.reason

def shadowOf (site : Site) (env : Env) (position : ℕ) (workspace : Files) : Except Thrown ShadowWorkspace :=
  match env.shadowFails position with
  | some e => .error (shadowRefused e)
  | none => match ShadowWorkspace.materialise site workspace with
    | .error e => .error (shadowRefused e)
    | .ok shadow => .ok shadow

def dropShadow (s : Orchestrator site) (runId : String) : Orchestrator site :=
  { s with shadows := s.shadows.delete runId }

def setRun (s : Orchestrator site) (runId : String) (run : Run) : Orchestrator site :=
  { s with runs := s.runs.set runId run }

abbrev Authorized (site : Site) := AuthorizedPlan site.host Number RawLimits

def authorize (site : Site) (run : Run) (by_ : String) (nowUnix : Number) :
    Except Thrown (Authorized site × Capability.Step RawLimits) :=
  match authorizePlan site.host run.plan ⟨by_, nowUnix, later nowUnix⟩ nowUnix with
  | .error e => .error (.refused "NOT_AUTHORIZED" e.reason)
  | .ok authorized => match run.plan.steps.head? with
    | none => .error .failed
    | some step => .ok (authorized, step)

def executionEnvelope : RawLimits :=
  .object [("memoryBytes", .number (.ofRat (512 * 1024 * 1024))), ("cpuSeconds", .number (.ofRat 60)),
    ("openFiles", .number (.ofRat 256)), ("processes", .number (.ofRat 64))]

def envelopeOf (step : Capability.Step RawLimits) : RawLimits :=
  step.blastRadius.limits.getD executionEnvelope

def verdictOf (ran : Option Outcome) : Bool × Option String :=
  match ran with
  | some ⟨_, _, true, _, _, some ran⟩ =>
    let printed := tail (if ran.stderr = "" then ran.stdout else ran.stderr) 500
    if ran.exitCode = some reproductionBugExit then (true, none)
    else if ran.exitCode = some 0 then
      (false, some "the reproduction passed on the unchanged code: it does not show the bug")
    else (false, some (s!"the reproduction exited {exitText ran.exitCode}, not {reproductionBugExit}: the script is broken, not the code" ++
      (if printed = "" then "" else s!" — {printed}")))
  | some outcome => (false, some ("the reproduction did not run: " ++ outcome.reason.getD "no outcome"))
  | none => (false, some "the reproduction did not run: no outcome")

/-- `#checkReproduction`, up to its record: the minter it leaves and the verdict. -/
def checkReproduction (env : Env) (workspace : Files) (minter : JsMinter site.host)
    (reproduction : Reproduction) (contents : String) (authorized : Authorized site)
    (step : Capability.Step RawLimits) (nowUnix : Number) :
    JsMinter site.host × Except Thrown Reproduction :=
  match shadowOf site env 0 workspace with
  | .error e => (minter, .error e)
  | .ok shadow =>
    match minter.mint authorized ⟨step.id, [reproductionPath, executionDirectory], ["WRITE", "EXECUTE"],
        Number.ofRat 2, later nowUnix, some (envelopeOf step)⟩ nowUnix with
    | .error e => (minter, .ok { reproduction with
        reproduces := some false
        reason := some s!"the reproduction could not be checked: {e.reason}" })
    | .ok (token, minter) =>
      let ran := execute site.executeSandbox (env.shell 0) authorized.digest [token] minter shadow
        [Action.write reproductionPath contents, Run.commandAction reproductionCommand]
        ⟨[reproductionPath], [], [reproductionCommand]⟩ nowUnix
      let verdict := verdictOf (ran.1.outcomes.find? fun outcome ↦ outcome.operation = "EXECUTE")
      (ran.2.1, .ok { reproduction with reproduces := some verdict.1, reason := verdict.2 })

/-- The checks `measure` makes before anything is recorded. -/
def beginMeasure (s : Orchestrator site) (runId actor : String) (nowUnix : Number) :
    Except Thrown (Run × Authorized site × Capability.Step RawLimits) :=
  match s.runs.get runId with
  | none => .error (notFound runId)
  | some run =>
    if blank actor then .error (.refused "NO_ACTOR" "a measurement with no actor names nobody accountable")
    else if run.status ≠ .pendingApproval ∧ ¬ (run.status = .measured ∧ s.shadows.has runId = false) then
      .error (alreadyDecided runId run.status)
    else if run.questions ≠ [] then
      .error (.refused "QUESTIONS_UNANSWERED" (s!"run `{runId}` stopped on " ++
        (if run.questions.length = 1 then "a question" else s!"{run.questions.length} questions") ++
        " nobody has answered yet; answering continues the work as a new run, and this one is never measured"))
    else do
      let (authorized, step) ← authorize site run actor nowUnix
      pure (run, authorized, step)

def settleReproduction (env : Env) (s : Orchestrator site) (runId : String) (run : Run)
    (authorized : Authorized site) (step : Capability.Step RawLimits) (nowUnix : Number) : Step site Run :=
  match run.reproduction with
  | some ⟨some contents, none, reason⟩ =>
    match checkReproduction env s.workspace s.minter ⟨some contents, none, reason⟩ contents authorized step nowUnix with
    | (minter, .error e) => ({ s with minter := minter }, .error e)
    | (minter, .ok reproduction) =>
      let run := { run with reproduction := some reproduction }
      let s := { s with minter := minter, runs := s.runs.set runId run }
      if env.recordFails 1 then (s, .error .failed) else (s, .ok run)
  | _ => (s, .ok run)

def measureRequest (run : Run) (step : Capability.Step RawLimits) (nowUnix : Number) :
    Request String Number Number RawLimits :=
  let commands := run.declaredCommands step
  { stepId := step.id
    paths := step.files
    operations := if commands.isEmpty then ["WRITE"] else ["WRITE", "EXECUTE"]
    uses := Number.ofRat (step.files.length + commands.length)
    expiresAtUnix := later nowUnix
    limits := if commands.isEmpty then none else some (envelopeOf step) }

def measuredRun (site : Site) (run : Run) (shadow : ShadowWorkspace) (result : Result)
    (diff : List DiffEntry) (actor : String) (nowUnix : Number) : Run :=
  let contradicted := site.contradicted run.claims shadow.files
  { run with
    status := .measured
    result := some result
    diff := some diff
    coverage := some contradicted
    measurement := some
      { clean := result.ok && contradicted.isEmpty
        measuredAtUnix := nowUnix
        measuredBy := actor
        comparedAgainst := run.measuredAgainst.pathsTheDiffMustTouch } }

/-- The part of `measure` that follows its grant: the shadow, the execution in it
and what is read off it. -/
def measureIn (env : Env) (s : Orchestrator site) (runId actor : String) (run : Run)
    (authorized : Authorized site) (step : Capability.Step RawLimits) (token : JsToken site.host)
    (nowUnix : Number) : Step site Run :=
  let s := s.dropShadow runId
  match shadowOf site env 1 s.workspace with
  | .error e => (s, .error e)
  | .ok shadow =>
    let ran := execute site.executeSandbox (env.shell 1) authorized.digest [token] s.minter shadow
      (run.actions step) run.measuredAgainst nowUnix
    let s := { s with minter := ran.2.1 }
    if env.recordFails 3 || env.recordFails 4 || env.recordFails 5 then (s, .error .failed)
    else match diffOf s.workspace ran.2.2 ran.1 with
      | .error _ => (s, .error .failed)
      | .ok diff =>
        let run := measuredRun site run ran.2.2 ran.1 diff actor nowUnix
        let s := { s with runs := s.runs.set runId run, shadows := s.shadows.set runId ran.2.2 }
        if env.recordFails 6 then (s, .error .failed) else (s, .ok run)

def measure (env : Env) (s : Orchestrator site) (runId actor : String) (nowUnix : Number) : Step site Run :=
  match s.beginMeasure runId actor nowUnix with
  | .error e => (s, .error e)
  | .ok (run, authorized, step) =>
    if env.recordFails 0 then (s, .error .failed)
    else match settleReproduction env s runId run authorized step nowUnix with
      | (s, .error e) => (s, .error e)
      | (s, .ok run) =>
        match s.minter.mint authorized (measureRequest run step nowUnix) nowUnix with
        | .error e => (s, .error (if env.recordFails 2 then .failed else .refused "MINT_REFUSED" e.reason))
        | .ok (token, minter) =>
          let s := { s with minter := minter }
          if env.recordFails 2 then (s, .error .failed)
          else measureIn env s runId actor run authorized step token nowUnix

end Orchestrator

end Noesar.Workspace
