import Noesar.Shadow.Executor

namespace Noesar.Workspace

open Lib Lib.Framing Capability Shadow

/-- A place below the root of a tree, and the files of a tree by their places. The
trees of this part hold no links. -/
abbrev Place := List String

abbrev Files := InsertionMap Place Bytes

def Place.text (place : Place) : String := "/".intercalate place

/-- What an installation brings: its platform, its switches, the places that hold
the state of the engine, and the verifier of declared claims. -/
structure Site where
  host : Host
  engineState : Place → Bool
  executeSandbox : ExecuteSandbox
  authorAvailable : Bool
  noveltyBudget : ℕ
  contradicted : List String → Files → List String

/-- A copy of a workspace, with the digests of what was copied. -/
structure ShadowWorkspace where
  baseline : InsertionMap Place String
  files : Files

namespace ShadowWorkspace

def digestOf (host : Host) (bytes : Bytes) : String := hex (host.sha256 bytes).toList

def digests (host : Host) (files : Files) : InsertionMap Place String :=
  ⟨files.entries.map fun e ↦ (e.1, digestOf host e.2), by
    have h := files.nodup
    rwa [List.map_map]⟩

/-- The copy leaves out the state of the engine; a copy of nothing is refused,
unless everything there was is such state. -/
def materialise (site : Site) (workspace : Files) : Except ShadowError ShadowWorkspace :=
  let files := workspace.filter fun place ↦ !site.engineState place
  if files.entries = [] ∧ workspace.entries = [] then
    .error ⟨.invalid, "a shadow of nothing can neither be executed nor observed", none⟩
  else .ok ⟨digests site.host files, files⟩

def observe (host : Host) (shadow : ShadowWorkspace) (tests : List TestOutcome) : Observation where
  changed :=
    shadow.baseline.entries.filterMap (fun (place, before) ↦
      match shadow.files.get place with
      | none => some (place.text, .deleted)
      | some bytes => if digestOf host bytes = before then none else some (place.text, .modified)) ++
    shadow.files.entries.filterMap fun (place, _) ↦
      if shadow.baseline.has place then none else some (place.text, .created)
  tests := tests

end ShadowWorkspace

/-- What the operating system answers to one execution: which file operations
fail, with what text and leaving what bytes, and what the commands do. -/
structure Shell where
  fails : ℕ → Bool
  message : ℕ → String
  left : ℕ → Option Bytes
  command : ℕ → Files → Files × Effect

def afterFailedWrite (files : Files) (place : Place) : Option Bytes → Files
  | none => files
  | some bytes => files.set place bytes

def shellSurface (shell : Shell) : Surface Files where
  locate := place
  carryOut position files action place :=
    let failed : Effect := ⟨false, some (shell.message position), none⟩
    let performed : Effect := ⟨true, none, none⟩
    if action.kind = "EXECUTE" then shell.command position files
    else if action.kind = "READ" then
      if shell.fails position || !files.has place then (files, failed) else (files, performed)
    else if action.kind = "WRITE" then
      if shell.fails position then (afterFailedWrite files place (shell.left position), failed)
      else (files.set place (utf8 action.contents), performed)
    else if !files.has place then (files, ⟨false, some "no such file", none⟩)
    else if shell.fails position then (files, failed)
    else (files.delete place, performed)

/-- `execute` on a shadow of a whole workspace. -/
def execute {host : Host} (sandbox : ExecuteSandbox) (shell : Shell) (digest : String)
    (tokens : List (JsToken host)) (minter : JsMinter host) (shadow : ShadowWorkspace)
    (actions : List Action) (expectation : Expectation) (nowUnix : Number) :
    Result × JsMinter host × ShadowWorkspace :=
  let ran := performAll (shellSurface shell) sandbox digest tokens nowUnix 0 minter shadow.files actions
  let shadow := { shadow with files := ran.2.2 }
  (conclude digest expectation ran.1 (shadow.observe host (observedTests ran.1)), ran.2.1, shadow)

end Noesar.Workspace

namespace Noesar.Workspace

open Lib Lib.Framing Capability Shadow

inductive Status
  | pendingApproval
  | measured
  | promoted
  | refused
  | rejected
  | answered
  | restored
  deriving DecidableEq, Repr

namespace Status

def text : Status → String
  | pendingApproval => "PENDING_APPROVAL"
  | measured => "MEASURED"
  | promoted => "PROMOTED"
  | refused => "REFUSED"
  | rejected => "REJECTED"
  | answered => "ANSWERED"
  | restored => "RESTORED"

def decided : Status → Bool
  | pendingApproval => false
  | measured => false
  | _ => true

end Status

structure FileEntry where
  path : String
  contents : String
  deriving DecidableEq, Repr

structure Reproduction where
  contents : Option String
  reproduces : Option Bool
  reason : Option String
  deriving DecidableEq, Repr

structure DiffEntry where
  path : String
  status : Option Change
  before : Option Bytes
  after : Option Bytes
  diffAvailable : Bool
  deriving DecidableEq

structure Measurement where
  clean : Bool
  measuredAtUnix : Number
  measuredBy : String
  comparedAgainst : List String

structure Backup where
  path : String
  existedBefore : Bool
  beforeContent : Option Bytes
  deriving DecidableEq

inductive Novelty
  | novel
  | repeated
  deriving DecidableEq, Repr

/-- The members of a run record that the operations read or write. -/
structure Run where
  status : Status
  plan : Plan RawLimits
  expectation : Expectation
  files : List FileEntry
  grounded : Bool
  derived : Bool
  claims : List String
  commands : List String
  questions : List String
  reproduction : Option Reproduction
  conversationId : Option String
  authoredContents : InsertionMap String String
  attemptDigest : Option String
  novelty : Option Novelty
  attempt : ℕ
  repairedFrom : List String
  result : Option Result
  diff : Option (List DiffEntry)
  coverage : Option (List String)
  measurement : Option Measurement
  backups : Option (List Backup)
  decidedBy : Option String
  decidedAtUnix : Option Number
  restoredAtUnix : Option Number
  answeredBy : Option String

def reproductionPath : String := "noesar_reproduce.py"

def reproductionCommand : String := "python3 -B noesar_reproduce.py"

def reproductionBugExit : ℤ := 3

def executionDirectory : String := "."

def approvalTtlSeconds : ℚ := 15 * 60

def maxDiffBytes : ℕ := 256 * 1024

/-- `touchesAFile`, and not by the reproduction, which measures the change without
being part of it. -/
def isFileOutcome (outcome : Outcome) : Bool :=
  outcome.performed && outcome.operation ≠ "EXECUTE" && outcome.path ≠ reproductionPath

def fileOutcomes (result : Result) : List Outcome := result.outcomes.filter isFileOutcome

def withoutReproduction (items : List String) : List String :=
  items.filter fun item ↦ item ≠ reproductionPath && item ≠ reproductionCommand

namespace Run

/-- The contents a file entry is written with: what the author wrote, or what the
entry came with. -/
def contentsOf (run : Run) (file : FileEntry) : String :=
  (run.authoredContents.get file.path).getD file.contents

def reproducing (run : Run) : Bool :=
  match run.reproduction with
  | some reproduction => reproduction.reproduces = some true
  | none => false

def declaredCommands (run : Run) (step : Step RawLimits) : List String :=
  step.commands.filter fun command ↦ command ≠ reproductionCommand || run.reproducing

def commandAction (command : String) : Action :=
  let argv := ((command.split Char.isWhitespace).toList.map (·.toString)).filter (· ≠ "")
  ⟨"EXECUTE", executionDirectory, "", some command, argv.headD "", argv.tail⟩

def actions (run : Run) (step : Step RawLimits) : List Action :=
  run.files.map (fun file ↦ Action.write file.path (run.contentsOf file)) ++
    (match run.reproduction with
      | some ⟨some contents, some true, _⟩ => [Action.write reproductionPath contents]
      | _ => []) ++
    (run.declaredCommands step).map commandAction

/-- The expectation a measurement is compared against. A plan whose files a search
chose must touch only what the author wrote. -/
def measuredAgainst (run : Run) : Expectation :=
  let expected := if run.derived then
      { run.expectation with pathsTheDiffMustTouch := run.authoredContents.keys }
    else run.expectation
  match run.reproduction with
  | none => expected
  | some _ =>
    { pathsTheDiffMustTouch := withoutReproduction expected.pathsTheDiffMustTouch ++
        (if run.reproducing then [reproductionPath] else [])
      testsExpectedToPass := withoutReproduction expected.testsExpectedToPass ++
        (if run.reproducing then [reproductionCommand] else [])
      testsExpectedToFail := withoutReproduction expected.testsExpectedToFail }

def clean (run : Run) : Bool :=
  match run.measurement with
  | some measurement => measurement.clean
  | none => false

end Run

def readTextIfSmall (files : Files) (place : Place) : Option (Option Bytes) :=
  match files.get place with
  | none => some none
  | some bytes => if maxDiffBytes < bytes.length then none else some (some bytes)

def diffEntry (workspace : Files) (shadow : ShadowWorkspace) (result : Result) (outcome : Outcome) :
    Except ShadowError DiffEntry := do
  let place ← place outcome.path
  let before := readTextIfSmall workspace place
  let after := readTextIfSmall shadow.files place
  pure
    { path := outcome.path
      status := (result.observation.changed.reverse.find? fun c ↦ c.1 = outcome.path).map Prod.snd
      before := before.join
      after := after.join
      diffAvailable := before.isSome && after.isSome }

/-- `#diff`: before and after of every touched file, the before side read from the
workspace. -/
def diffOf (workspace : Files) (shadow : ShadowWorkspace) (result : Result) :
    Except ShadowError (List DiffEntry) :=
  (fileOutcomes result).mapM (diffEntry workspace shadow result)

def tail (text : String) (budget : ℕ) : String :=
  let cs := text.trimAscii.toString.toList
  if cs.length ≤ budget then String.ofList cs else "…" ++ String.ofList (cs.drop (cs.length - budget))

def exitText : Option ℤ → String
  | some code => toString code
  | none => "null"

def repairBrief (result : Option Result) : List String :=
  match result with
  | none => []
  | some result =>
    let refused := match result.comparisonRefused with
      | some reason => s!"the change could not be compared: {reason}" ::
          (if result.observation.changed.isEmpty then
            ["no declared file changed at all — the previous answer returned the file it was given, byte for byte. Rewrite it so that it actually differs."]
          else [])
      | none => []
    match result.surprise with
    | none => refused
    | some surprise =>
      let surprising := surprise.declaredCommandsThatFailed ++ surprise.testsExpectedToPassThatFailed
      refused ++
        result.outcomes.filterMap (fun outcome ↦ match outcome.ran with
          | some ⟨some name, exitCode, stdout, stderr⟩ =>
            if outcome.operation = "EXECUTE" ∧ name ∈ surprising then
              let printed := if tail stderr 2000 = "" then tail stdout 2000 else tail stderr 2000
              some (s!"the declared command `{name}` exited {exitText exitCode}" ++
                (if printed = "" then " and printed nothing" else s!" and printed:\n{printed}"))
            else none
          | _ => none) ++
        surprise.testsNeverRun.map (fun name ↦ s!"the declared test `{name}` never ran") ++
        surprise.expectedAndAbsent.map (fun path ↦ s!"`{path}` was declared as changed and no change reached it") ++
        surprise.unexpected.map fun path ↦ s!"`{path}` was written and no step declared it"

def blank (text : String) : Bool := text.toList.all isWhiteSpace

structure History where
  novelAttempts : ℕ
  repeatsIgnored : ℕ

/-- `#authoringHistory`: the distinct approaches a conversation has tried, and how many
of its attempts repeated one. -/
def authoringHistory (runs : InsertionMap String Run) : Option String → History
  | none => ⟨0, 0⟩
  | some conversationId =>
    if blank conversationId then ⟨0, 0⟩
    else
      let attempts := runs.entries.filter fun e ↦ e.2.conversationId = some conversationId && e.2.attemptDigest.isSome
      ⟨attempts.countP fun e ↦ e.2.novelty ≠ some .repeated, attempts.countP fun e ↦ e.2.novelty = some .repeated⟩

end Noesar.Workspace
