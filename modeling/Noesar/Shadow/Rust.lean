import Noesar.Capability.Rust
import Noesar.Lib.Run
import Noesar.Shadow.Executor

namespace Noesar.Shadow.Rust

open Lib Capability

inductive Action
  | read (path : String)
  | write (path contents : String)
  | delete (path : String)
  | execute (path command : String) (args : List String)
  deriving DecidableEq, Repr

namespace Action

def path : Action → String
  | read path => path
  | write path _ => path
  | delete path => path
  | execute path _ _ => path

def operation : Action → Capability.Rust.Operation
  | read _ => .read
  | write _ _ => .write
  | delete _ => .delete
  | execute _ _ _ => .execute

end Action

structure ActionOutcome where
  path : String
  operation : Capability.Rust.Operation
  performed : Bool
  reason : Option String
  tokenId : Option String
  exitCode : Option ℤ
  stdout : Option String
  stderr : Option String
  deriving DecidableEq, Repr

structure ExecuteSandboxConfig where
  enabled : Bool
  binaryPath : Option String
  deriving DecidableEq, Repr

def noSandboxBinary : String := "EXECUTE is enabled but no sandbox binary path is configured"

def displayRefusal (refusal : Refusal) : String :=
  let field := refusal.field.getD ""
  match refusal.kind with
  | .notAuthorized => s!"not authorized: {refusal.reason}"
  | .outOfScope => s!"out of scope: {refusal.reason}"
  | .refused => s!"refused: {refusal.reason}"
  | .invalid => s!"invalid `{field}`: {refusal.reason}"

def displayError (e : ShadowError) : String :=
  let path := e.path.getD ""
  match e.kind with
  | .containment => s!"containment `{path}`: {e.reason}"
  | .io => s!"io `{path}`: {e.reason}"
  | .invalid => s!"invalid `{path}`: {e.reason}"
  | .limit => s!"limit `{path}`: {e.reason}"

/-- The surface the crate acts on. Its places are paths as they are joined, not yet read. -/
structure Surface (σ ρ : Type) where
  locate : String → Except ShadowError ρ
  carryOut : ℕ → σ → Action → ρ → σ × Effect

section

variable {host : Host}

abbrev RustToken (host : Host) := (Capability.Rust.dialect host).Held
abbrev RustMinter (host : Host) := TokenMinter (Capability.Rust.dialect host)

def tokenFor (tokens : List (RustToken host)) (action : Action) : Option (RustToken host) :=
  tokens.find? fun token ↦ action.path ∈ token.paths &&
    (show (Capability.Rust.dialect host).Operation from action.operation) ∈ token.operations

def candidate (tokens : List (RustToken host)) (digest : String) (action : Action) : Option (RustToken host) :=
  (tokenFor tokens action).filter fun token ↦ token.planDigest = digest

variable {σ ρ : Type} (S : Surface σ ρ) (sandbox : Option ExecuteSandboxConfig) (digest : String)
  (tokens : List (RustToken host)) (nowUnix : Int64)

def sandboxEnabled : Bool := (sandbox.map ExecuteSandboxConfig.enabled).getD false

/-- One action of the loop. An `EXECUTE` looks at the limits after the containment. -/
def performAction (position : ℕ) (state : RustMinter host × σ) (action : Action) :
    ActionOutcome × RustMinter host × σ :=
  let refuse (reason : String) (tokenId : Option String) (minter : RustMinter host) : ActionOutcome × RustMinter host × σ :=
    (⟨action.path, action.operation, false, some reason, tokenId, none, none, none⟩, minter, state.2)
  if action.operation = .execute ∧ sandboxEnabled sandbox = false then
    refuse (if sandbox.isSome then executeDisabledByOperator else noExecutionSurface) none state.1
  else match candidate tokens digest action with
    | none => refuse noToken none state.1
    | some token =>
      match state.1.spend token ⟨action.path, action.operation⟩ nowUnix with
      | .error refusal => refuse (displayRefusal refusal) (some token.id) state.1
      | .ok (_, minter) =>
        match S.locate action.path with
        | .error e => refuse (displayError e) (some token.id) minter
        | .ok resolved =>
          if action.operation = .execute ∧ token.limits = none then
            refuse executeTokenWithoutLimits (some token.id) minter
          else if action.operation = .execute ∧ (sandbox.bind ExecuteSandboxConfig.binaryPath).isNone then
            refuse noSandboxBinary (some token.id) minter
          else
            let (s, effect) := S.carryOut position state.2 action resolved
            (⟨action.path, action.operation, effect.performed, effect.reason, some token.id,
              effect.ran.bind Ran.exitCode, effect.ran.map Ran.stdout, effect.ran.map Ran.stderr⟩, minter, s)

def performAll (position : ℕ) (state : RustMinter host × σ) (actions : List Action) :
    List ActionOutcome × RustMinter host × σ :=
  loop (performAction S sandbox digest tokens nowUnix) position state actions

end

/-- What the crate compares: a declared `.` is not required, and is not unexpected either. -/
def compare (expectation : Expectation) (observation : Observation) : Except ShadowError Surprise :=
  if observationIsEmpty observation then
    .error ⟨.invalid, "an observation of nothing cannot be compared: it is indistinguishable from a clean run",
      some "Observation"⟩
  else
    let touched := observation.changed.map Prod.fst
    let outcomeOf (name : String) := observation.tests.find? fun test ↦ test.name = name
    let failed := expectation.testsExpectedToPass.filter fun name ↦
      match outcomeOf name with
      | some test => !test.passed
      | none => false
    let passed := expectation.testsExpectedToFail.filter fun name ↦
      match outcomeOf name with
      | some test => test.passed
      | none => false
    .ok
      { expectedAndAbsent := (expectation.pathsTheDiffMustTouch.filter (· ≠ ".")).filter (· ∉ touched)
        unexpected := touched.filter (· ∉ expectation.pathsTheDiffMustTouch)
        testsExpectedToPassThatFailed := failed
        testsExpectedToFailThatPassed := passed
        testsNeverRun := (expectation.testsExpectedToPass ++ expectation.testsExpectedToFail).filter
          fun name ↦ (outcomeOf name).isNone
        declaredCommandsThatFailed := (observation.tests.filter fun test ↦ !test.passed &&
          test.name ∉ expectation.testsExpectedToFail && test.name ∉ failed).map TestOutcome.name }

structure ExecutionReport where
  planDigest : String
  outcomes : List ActionOutcome
  observation : Observation
  surprise : Option Surprise
  comparisonRefused : Option String
  deriving DecidableEq, Repr

def ExecutionReport.refused (report : ExecutionReport) : ℕ :=
  report.outcomes.countP fun outcome ↦ !outcome.performed

def ExecutionReport.isOk (report : ExecutionReport) : Bool :=
  report.refused = 0 && (report.surprise.map Surprise.clean).getD false

def wholeWorkspaceRequired : ShadowError :=
  ⟨.invalid, "the executor requires a whole-workspace shadow: one holding only the declared paths cannot observe an undeclared write, and a clean comparison from it would be an artefact of its own construction",
    some "shadow"⟩

/-- A shadow that cannot be observed is observed as nothing, which cannot be compared. -/
def execute {host : Host} {σ ρ : Type} (S : Surface σ ρ)
    (observe : σ → List TestOutcome → Except ShadowError Observation) (wholeWorkspace : Bool)
    (sandbox : Option ExecuteSandboxConfig) (digest : String) (tokens : List (RustToken host)) (nowUnix : Int64)
    (minter : RustMinter host) (s : σ) (actions : List Action) (expectation : Expectation) (tests : List TestOutcome) :
    Except ShadowError (ExecutionReport × RustMinter host × σ) :=
  if wholeWorkspace then
    let ran := performAll S sandbox digest tokens nowUnix 0 (minter, s) actions
    let observation := match observe ran.2.2 tests with
      | .ok observation => observation
      | .error _ => ⟨[], []⟩
    .ok (match compare expectation observation with
      | .ok surprise => ⟨digest, ran.1, observation, some surprise, none⟩
      | .error e => ⟨digest, ran.1, observation, none, some (displayError e)⟩, ran.2)
  else .error wholeWorkspaceRequired

end Noesar.Shadow.Rust
