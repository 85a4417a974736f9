import Noesar.Lib.Run
import Noesar.Workspace.Approval

namespace Noesar.Workspace

open Lib Lib.Framing Capability Shadow

namespace Orchestrator

variable {site : Site}

def noModelReason : String :=
  "no model is configured for authoring: this installation can plan a change but cannot write one, and will not present empty contents as a result"

/-- The quotes, the backquote and `$;&|<>`. -/
def shellMetacharacters : List Char := [34, 39, 96].map Char.ofNat ++ "$;&|<>".toList

/-- The refusals of `plan` before anything is asked of a provider. -/
def checkPlan (site : Site) (args : PlanArgs) : Except Thrown Unit :=
  if args.answers.any blank then .error (.refused "INVALID_ANSWERS" "the answers must be non-empty text")
  else if args.conversationId.any blank then
    .error (.refused "INVALID_CONVERSATION" "conversationId must be a non-empty string when supplied")
  else match args.commands.find? fun command ↦ blank command || command.toList.any (· ∈ shellMetacharacters) with
    | some command =>
      if blank command then .error (.refused "INVALID_COMMAND" "every declared command must be a non-empty string")
      else .error (.refused "INVALID_COMMAND" s!"declared command `{command}` contains shell metacharacters: this layer runs argv directly and never a shell, so a command that needs quoting cannot be declared here")
    | none =>
      if args.commands ≠ [] ∧ site.executeSandbox ≠ .enabled then
        .error (.refused "EXECUTION_DISABLED" "this installation does not run declared commands: the execution sandbox is off (NOESAR_EXECUTE_SANDBOX is not `enabled`, or the sandbox binary is absent). The plan is refused here rather than measured into a refusal nobody was looking for.")
      else if args.files.any fun file ↦ blank file.path then
        .error (.refused "INVALID_FILE" "every file needs a path")
      else .ok ()

def wait (s : Orchestrator site) (task : Task) : Orchestrator site := { s with tasks := s.tasks ++ [task] }

def beginPlan (s : Orchestrator site) (args : PlanArgs) (answering : Option String) : Step site Unit :=
  match checkPlan site args with
  | .error e => (s, .error e)
  | .ok () => (s.wait (.planning args answering), .ok ())

/-- The record of a plan that was made. The files are the caller's when it named any;
a plan made from answers asks nothing. -/
def plannedRun (args : PlanArgs) (draft : Draft) : Run :=
  { status := .pendingApproval
    plan := draft.plan
    expectation := draft.expectation
    files := if args.files = [] then draft.found else args.files
    grounded := args.files.isEmpty
    derived := args.files.isEmpty && draft.derived
    claims := args.claims
    commands := args.commands
    questions := if args.answers.isSome then [] else draft.questions
    reproduction := draft.reproduction
    conversationId := args.conversationId
    authoredContents := draft.authoredContents.foldl (fun m e ↦ m.set e.1 e.2) .empty
    attemptDigest := draft.attemptDigest
    novelty := draft.novelty
    attempt := 1
    repairedFrom := []
    result := none
    diff := none
    coverage := none
    measurement := none
    backups := none
    decidedBy := none
    decidedAtUnix := none
    restoredAtUnix := none
    answeredBy := none }

/-- What a waiting call is told when it goes on: the id drawn for a new run, what the
decision layer made of the request, what the author wrote. -/
structure Reply where
  env : Env
  runId : String
  draft : Except Thrown Draft
  authored : Except Thrown Authored

/-- The rest of `plan`. A drawn id that is already in use does not occur. -/
def finishPlan (s : Orchestrator site) (args : PlanArgs) (answering : Option String) (reply : Reply) :
    Step site Unit :=
  match reply.draft with
  | .error e => (s, .error e)
  | .ok draft =>
    if reply.env.recordFails 0 || s.runs.has reply.runId then (s, .error .failed)
    else
      let s := s.setRun reply.runId (plannedRun args draft)
      match answering with
      | none => (s, .ok ())
      | some answered => (s.wait (.answering answered reply.runId args.actor args.nowUnix), .ok ())

/-- `answer` up to the plan it waits for. -/
def answer (s : Orchestrator site) (runId answers actor : String) (nowUnix : Number) : Step site Unit :=
  match s.runs.get runId with
  | none => (s, .error (.refused "NOT_FOUND" s!"no run `{runId}`"))
  | some run =>
    if run.status ≠ .pendingApproval then (s, .error (alreadyDecided runId run.status))
    else if run.questions = [] then
      (s, .error (.refused "NO_QUESTIONS" s!"run `{runId}` asked nothing, so there is nothing to answer"))
    else if blank answers then (s, .error (.refused "INVALID_ANSWERS" "the answers must be non-empty text"))
    else s.beginPlan
      { files := if run.grounded then [] else run.files
        claims := run.claims
        commands := run.commands
        conversationId := run.conversationId
        answers := some answers
        actor := actor
        nowUnix := nowUnix } (some runId)

/-- The rest of `answer`: the status is written without being read again. -/
def finishAnswer (s : Orchestrator site) (runId successor actor : String) (nowUnix : Number) (reply : Reply) :
    Step site Unit :=
  match s.runs.get runId with
  | none => (s, .error .failed)
  | some run =>
    if reply.env.recordFails 0 then (s, .error .failed)
    else (s.setRun runId { run with
      status := .answered
      answeredBy := some successor
      decidedBy := some actor
      decidedAtUnix := some nowUnix }, .ok ())

/-- The checks of `repair`, and the brief its author is given. -/
def checkRepair (s : Orchestrator site) (runId actor : String) : Except Thrown (List String) :=
  match s.runs.get runId with
  | none => .error (notFound runId)
  | some run =>
    if blank actor then .error (.refused "NO_ACTOR" "a repair with no actor names nobody accountable")
    else if run.status = .pendingApproval then
      .error (.refused "NOT_MEASURED" s!"run `{runId}` has not been measured: there is no failure to repair against until measure() has run")
    else if run.status ≠ .measured then .error (alreadyDecided runId run.status)
    else if run.clean then
      .error (.refused "NOTHING_TO_REPAIR" s!"run `{runId}` measured clean: replacing its contents would discard a result the approver can already act on")
    else if !site.authorAvailable then .error (.refused "NO_AUTHOR" noModelReason)
    else
      let brief := repairBrief run.result
      let history := authoringHistory s.runs run.conversationId
      if brief = [] then
        .error (.refused "NO_EVIDENCE" s!"run `{runId}` did not measure clean but recorded nothing a repair could act on")
      else if site.noveltyBudget ≤ history.novelAttempts then
        .error (.refused "BUDGET_SPENT" s!"the novelty budget for this piece of work is spent: {history.novelAttempts} distinct approaches have been tried and the limit is {site.noveltyBudget}. A repeat does not consume budget; {history.repeatsIgnored} were ignored. Start a new piece of work, or change what is being asked.")
      else .ok brief

/-- `repair` up to the author it waits for, alone or for an iteration. -/
def repair (s : Orchestrator site) (runId actor : String) (nowUnix : Number) (iteration : Option Iteration) :
    Step site Unit :=
  match s.checkRepair runId actor with
  | .error e => (s, .error e)
  | .ok brief => (s.wait (.repairing runId actor nowUnix brief iteration), .ok ())

def repairedRun (run : Run) (brief : List String) (authored : Authored) : Run :=
  { run with
    authoredContents := authored.contents.foldl (fun m e ↦ m.set e.1 e.2) run.authoredContents
    attemptDigest := some authored.attemptDigest
    novelty := some authored.novelty
    attempt := run.attempt + 1
    repairedFrom := brief
    result := none
    diff := none
    coverage := none
    measurement := none
    status := .pendingApproval }

/-- The rest of `repair`: the run is put back to its start without its status being
read again. -/
def finishRepair (s : Orchestrator site) (runId actor : String) (nowUnix : Number) (brief : List String)
    (iteration : Option Iteration) (reply : Reply) : Step site Unit :=
  match reply.authored, s.runs.get runId with
  | .error e, _ => (s, .error e)
  | .ok _, none => (s, .error .failed)
  | .ok authored, some run =>
    if reply.env.recordFails 0 then (s, .error .failed)
    else
      let s := (s.dropShadow runId).setRun runId (repairedRun run brief authored)
      if reply.env.recordFails 1 then (s, .error .failed)
      else match iteration with
        | none => (s, .ok ())
        | some iteration => (s.wait (.iterating runId actor nowUnix
            { iteration with repeated := authored.novelty = .repeated }), .ok ())

/-- One turn of the loop of `iterate`, up to the repair it waits for. -/
def iterateTurn (env : Env) (s : Orchestrator site) (runId actor : String) (nowUnix : Number)
    (iteration : Iteration) : Step site Unit :=
  match measure env s runId actor nowUnix with
  | (s, .error e) => (s, .error e)
  | (s, .ok run) =>
    let attempt := iteration.attempt + 1
    if run.clean || iteration.repeated || iteration.maxAttempts ≤ attempt then (s, .ok ())
    else ((s.repair runId actor nowUnix (some ⟨attempt, iteration.maxAttempts, false⟩)).1, .ok ())

def iterate (env : Env) (s : Orchestrator site) (runId actor : String) (nowUnix : Number) (maxAttempts : ℕ) :
    Step site Unit :=
  if maxAttempts < 1 then
    (s, .error (.refused "INVALID_ATTEMPTS" s!"maxAttempts must be a positive integer, received `{maxAttempts}`"))
  else iterateTurn env s runId actor nowUnix ⟨0, maxAttempts, false⟩

def finish (s : Orchestrator site) (task : Task) (reply : Reply) : Step site Unit :=
  match task with
  | .planning args answering => s.finishPlan args answering reply
  | .answering runId successor actor nowUnix => s.finishAnswer runId successor actor nowUnix reply
  | .repairing runId actor nowUnix brief iteration => s.finishRepair runId actor nowUnix brief iteration reply
  | .iterating runId actor nowUnix iteration => iterateTurn reply.env s runId actor nowUnix iteration

inductive Command
  | plan (args : PlanArgs)
  | measure (env : Env) (runId actor : String) (nowUnix : Number)
  | repair (runId actor : String) (nowUnix : Number)
  | iterate (env : Env) (runId actor : String) (nowUnix : Number) (maxAttempts : ℕ)
  | approve (env : Env) (runId approverId : String) (nowUnix : Number)
  | answer (runId answers actor : String) (nowUnix : Number)
  | reject (env : Env) (runId approverId : String) (nowUnix : Number)
  | restore (env : Env) (runId : String) (nowUnix : Number)
  | resume (index : ℕ) (reply : Reply)

/-- A request reaches the orchestrator and runs up to its first wait, or a call that
waits goes on, in any order. -/
def step (s : Orchestrator site) : Command → Orchestrator site
  | .plan args => (s.beginPlan args none).1
  | .measure env runId actor nowUnix => (s.measure env runId actor nowUnix).1
  | .repair runId actor nowUnix => (s.repair runId actor nowUnix none).1
  | .iterate env runId actor nowUnix maxAttempts => (s.iterate env runId actor nowUnix maxAttempts).1
  | .approve env runId approverId nowUnix => (s.approve env runId approverId nowUnix).1
  | .answer runId answers actor nowUnix => (s.answer runId answers actor nowUnix).1
  | .reject env runId approverId nowUnix => (s.reject env runId approverId nowUnix).1
  | .restore env runId nowUnix => (s.restore env runId nowUnix).1
  | .resume index reply => match s.tasks[index]? with
    | none => s
    | some task => (finish { s with tasks := s.tasks.eraseIdx index } task reply).1

end Orchestrator

def Site.sample : Site := ⟨Host.sample, fun _ ↦ false, .absent, true, 3, fun _ _ ↦ []⟩

def Env.calm : Env where
  recordFails _ := false
  shadowFails _ := none
  shell _ := ⟨fun _ ↦ false, fun _ ↦ "", fun _ ↦ none, fun _ files ↦ (files, ⟨false, none, none⟩)⟩
  promoteFaults _ := ⟨false, false, false, none⟩
  restoreFault _ := none

namespace Orchestrator

def sample (workspace : Files) : Orchestrator Site.sample :=
  ⟨workspace, ⟨List.replicate 32 7, .empty, 0, none, Host.sampleKey_long⟩, .empty, .empty, []⟩

def oneFile : Files := ⟨[(["a.txt"], utf8 "old")], by simp⟩

def twoFiles : Files := ⟨[(["a.txt"], utf8 "old"), (["b.txt"], utf8 "old")], by simp⟩

def samplePlan (paths : List String) : Plan RawLimits :=
  ⟨"safe", [], [⟨"step-1", "edit", paths, [], [], ⟨false, false, none⟩⟩]⟩

def planned (runId : String) (files : List FileEntry) : List Command :=
  let paths := files.map FileEntry.path
  [.plan ⟨files, [], [], none, none, "ada", .ofRat 0⟩,
    .resume 0 ⟨.calm, runId, .ok ⟨samplePlan paths, ⟨paths, [], []⟩, [], false, [], none, [], none, none⟩,
      .error .failed⟩]

def authoring (contents : List (String × String)) : Reply :=
  ⟨.calm, "", .error .failed, .ok ⟨contents, "attempt", .novel⟩⟩

def measuredSample (workspace : Files) (files : List FileEntry) : Orchestrator Site.sample :=
  Run.after step (sample workspace) (planned "r1" files ++ [.measure .calm "r1" "ada" (.ofRat 1)])

def statusOf {site : Site} (s : Orchestrator site) (runId : String) : Option Status := (s.runs.get runId).map Run.status

end Orchestrator

end Noesar.Workspace
