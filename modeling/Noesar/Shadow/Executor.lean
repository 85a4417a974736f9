import Noesar.Capability.Js
import Noesar.Capability.Session

namespace Noesar.Shadow

open Lib Lib.PosixPath

inductive ShadowErrorKind
  | invalid
  | containment
  | limit
  | io
  deriving DecidableEq, Repr

structure ShadowError where
  kind : ShadowErrorKind
  reason : String
  path : Option String
  deriving DecidableEq, Repr

def aParentComponent (path : String) : Bool :=
  (normalize path).any fun seg ↦ ".." ∈ splitOn (· = '\\') seg

/-- The place a relative path names below any root, with the checks made before
the root is looked at. -/
def place (relative : String) : Except ShadowError (List String) :=
  if relative = "" then .error ⟨.invalid, "a path is required", none⟩
  else if isAbsolute relative then
    .error ⟨.containment, "an absolute path is not inside the shadow", some relative⟩
  else if aParentComponent relative then
    .error ⟨.containment, "a parent component leaves the shadow", some relative⟩
  else .ok (normalize relative)

def contained (root : List String) (relative : String) : Except ShadowError (List String) := do
  let _ ← place relative
  let joined := resolve root relative
  if root <+: joined then pure joined
  else .error ⟨.containment, "the resolved path is outside the shadow", some relative⟩

theorem aParentComponent_of_mem {path : String} (h : ".." ∈ normalize path) : aParentComponent path = true := by
  refine List.any_eq_true.mpr ⟨"..", h, ?_⟩
  decide

theorem contained_eq {root : List String} (hroot : ∀ s ∈ root, Plain s) (relative : String) :
    contained root relative = (place relative).map (root ++ ·) := by
  unfold contained place
  split
  · rfl
  · split
    · rfl
    · split
      · rfl
      next hparent =>
        have hdots : ".." ∉ normalize relative := fun h ↦ hparent (aParentComponent_of_mem h)
        rw [resolve_eq_append hroot hdots]
        simp [bind, Except.bind, pure, Except.pure, Except.map]

structure TestOutcome where
  name : String
  passed : Bool
  deriving DecidableEq, Repr

inductive Change
  | created
  | modified
  | deleted
  deriving DecidableEq, Repr

structure Observation where
  changed : List (String × Change)
  tests : List TestOutcome
  deriving DecidableEq, Repr

structure Expectation where
  pathsTheDiffMustTouch : List String
  testsExpectedToPass : List String
  testsExpectedToFail : List String
  deriving DecidableEq, Repr

structure Surprise where
  expectedAndAbsent : List String
  unexpected : List String
  testsExpectedToPassThatFailed : List String
  testsExpectedToFailThatPassed : List String
  testsNeverRun : List String
  declaredCommandsThatFailed : List String
  deriving DecidableEq, Repr

def Surprise.clean (surprise : Surprise) : Bool :=
  surprise.expectedAndAbsent.isEmpty && surprise.unexpected.isEmpty &&
    surprise.testsExpectedToPassThatFailed.isEmpty && surprise.testsExpectedToFailThatPassed.isEmpty &&
    surprise.testsNeverRun.isEmpty && surprise.declaredCommandsThatFailed.isEmpty

def observationIsEmpty (observation : Observation) : Bool :=
  observation.changed.isEmpty && observation.tests.isEmpty

def compare (expectation : Expectation) (observation : Observation) : Except ShadowError Surprise :=
  if observationIsEmpty observation then
    .error ⟨.invalid, "an observation of nothing cannot be compared: it is indistinguishable from a clean run", none⟩
  else
    let touched := observation.changed.map Prod.fst
    let declared := expectation.pathsTheDiffMustTouch.filter (· ≠ ".")
    let outcomeOf (name : String) := observation.tests.find? fun test ↦ test.name = name
    let failed := expectation.testsExpectedToPass.filter fun name ↦
      match outcomeOf name with
      | some test => !test.passed
      | none => false
    let passed := expectation.testsExpectedToFail.filter fun name ↦
      match outcomeOf name with
      | some test => test.passed
      | none => false
    .ok
      { expectedAndAbsent := declared.filter (· ∉ touched)
        unexpected := touched.filter (· ∉ declared)
        testsExpectedToPassThatFailed := failed
        testsExpectedToFailThatPassed := passed
        testsNeverRun := (expectation.testsExpectedToPass ++ expectation.testsExpectedToFail).filter
          fun name ↦ (outcomeOf name).isNone
        declaredCommandsThatFailed := (observation.tests.filter fun test ↦ !test.passed &&
          test.name ∉ expectation.testsExpectedToFail && test.name ∉ failed).map TestOutcome.name }

end Noesar.Shadow

namespace Noesar.Shadow

open Lib Capability

structure Action where
  kind : String
  path : String
  contents : String
  name : Option String
  command : String
  args : List String
  deriving DecidableEq, Repr

def Action.write (path contents : String) : Action := ⟨"WRITE", path, contents, none, "", []⟩

structure Ran where
  name : Option String
  exitCode : Option ℤ
  stdout : String
  stderr : String
  deriving DecidableEq, Repr

structure Outcome where
  path : String
  operation : String
  performed : Bool
  reason : Option String
  tokenId : Option String
  ran : Option Ran
  deriving DecidableEq, Repr

/-- The operator's answer about running commands: none, switched off, switched on. -/
inductive ExecuteSandbox
  | absent
  | disabled
  | enabled
  deriving DecidableEq, Repr

def noExecutionSurface : String :=
  "this layer has no execution surface: a command cannot be contained here, and pretending to run it would be worse than refusing"

def executeDisabledByOperator : String :=
  "EXECUTE capability exists on this installation but is disabled by operator configuration (NOESAR_EXECUTE_SANDBOX=disabled)"

def executeTokenWithoutLimits : String :=
  "an EXECUTE token without an isolation envelope cannot be run: the sandbox refuses a command under no limits at all"

def noToken : String := "no capability token of this plan grants this path and operation"

section

variable {host : Host}

abbrev JsToken (host : Host) := (Js.dialect host).Held
abbrev JsMinter (host : Host) := TokenMinter (Js.dialect host)

def tokenFor (tokens : List (JsToken host)) (action : Action) (planDigest : String) : Option (JsToken host) :=
  tokens.find? fun token ↦ token.planDigest = planDigest && action.path ∈ token.paths &&
    (show (Js.dialect host).Operation from action.kind) ∈ token.operations

/-- What carrying out an action has come to, apart from the files. -/
structure Effect where
  performed : Bool
  reason : Option String
  ran : Option Ran

/-- The surface an executor acts on: which place a path names, and what carrying
out the action of that position at its place does. -/
structure Surface (σ : Type) where
  locate : String → Except ShadowError (List String)
  carryOut : ℕ → σ → Action → List String → σ × Effect

variable {σ : Type} (S : Surface σ) (sandbox : ExecuteSandbox) (digest : String)
  (tokens : List (JsToken host)) (nowUnix : Number)

/-- One action of the loop: the refusals come in this order, and the spend before
the effect. -/
def performAction (position : ℕ) (minter : JsMinter host) (s : σ) (action : Action) :
    Outcome × JsMinter host × σ :=
  let refuse (reason : String) (tokenId : Option String) (minter : JsMinter host) : Outcome × JsMinter host × σ :=
    (⟨action.path, action.kind, false, some reason, tokenId, none⟩, minter, s)
  if action.kind = "EXECUTE" ∧ sandbox = .absent then refuse noExecutionSurface none minter
  else if action.kind = "EXECUTE" ∧ sandbox = .disabled then refuse executeDisabledByOperator none minter
  else if action.kind ∉ Js.operations then refuse s!"unknown action `{action.kind}`" none minter
  else match tokenFor tokens action digest with
    | none => refuse noToken none minter
    | some token =>
      match minter.spend token ⟨action.path, action.kind⟩ nowUnix with
      | .error refusal => refuse refusal.reason (some token.id) minter
      | .ok (_, minter) =>
        if action.kind = "EXECUTE" ∧ token.limits = none then
          refuse executeTokenWithoutLimits (some token.id) minter
        else match S.locate action.path with
          | .error e => refuse e.reason (some token.id) minter
          | .ok location =>
            let (s, effect) := S.carryOut position s action location
            (⟨action.path, action.kind, effect.performed, effect.reason, some token.id, effect.ran⟩, minter, s)

def performAll : ℕ → JsMinter host → σ → List Action → List Outcome × JsMinter host × σ
  | _, minter, s, [] => ([], minter, s)
  | position, minter, s, action :: actions =>
    let first := performAction S sandbox digest tokens nowUnix position minter s action
    let rest := performAll (position + 1) first.2.1 first.2.2 actions
    (first.1 :: rest.1, rest.2)

/-- What one action can do: it is refused and changes no file, or it is carried
out at the place its path names, a token of the plan having been spent on it. -/
theorem performAction_cases (position : ℕ) (minter : JsMinter host) (s : σ) (action : Action) :
    (∃ reason tokenId minter', performAction S sandbox digest tokens nowUnix position minter s action =
      (⟨action.path, action.kind, false, some reason, tokenId, none⟩, minter', s)) ∨
    ∃ token left minter' location, tokenFor tokens action digest = some token ∧
      minter.Spends token ⟨action.path, action.kind⟩ nowUnix left minter' ∧
      S.locate action.path = .ok location ∧ action.kind ∈ Js.operations ∧
      performAction S sandbox digest tokens nowUnix position minter s action =
        (⟨action.path, action.kind, (S.carryOut position s action location).2.performed,
          (S.carryOut position s action location).2.reason, some token.id,
          (S.carryOut position s action location).2.ran⟩, minter', (S.carryOut position s action location).1) := by
  unfold performAction
  dsimp only
  split
  · exact .inl ⟨_, _, _, rfl⟩
  · split
    · exact .inl ⟨_, _, _, rfl⟩
    · split
      · exact .inl ⟨_, _, _, rfl⟩
      next hkind =>
        split
        · exact .inl ⟨_, _, _, rfl⟩
        next token htoken =>
          split
          · exact .inl ⟨_, _, _, rfl⟩
          next left minter' hspend =>
            split
            · exact .inl ⟨_, _, _, rfl⟩
            · split
              · exact .inl ⟨_, _, _, rfl⟩
              next location hlocate =>
                exact .inr ⟨token, left, minter', location, htoken, TokenMinter.spend_ok_iff.mp hspend, hlocate,
                  not_not.mp hkind, rfl⟩

variable {S sandbox digest tokens nowUnix}

theorem performAll_cons (position : ℕ) (minter : JsMinter host) (s : σ) (action : Action)
    (actions : List Action) :
    performAll S sandbox digest tokens nowUnix position minter s (action :: actions) =
      ((performAction S sandbox digest tokens nowUnix position minter s action).1 ::
        (performAll S sandbox digest tokens nowUnix (position + 1)
          (performAction S sandbox digest tokens nowUnix position minter s action).2.1
          (performAction S sandbox digest tokens nowUnix position minter s action).2.2 actions).1,
      (performAll S sandbox digest tokens nowUnix (position + 1)
          (performAction S sandbox digest tokens nowUnix position minter s action).2.1
          (performAction S sandbox digest tokens nowUnix position minter s action).2.2 actions).2) := rfl

theorem performAll_concat (position : ℕ) (minter : JsMinter host) (s : σ) (actions : List Action)
    (action : Action) :
    (performAll S sandbox digest tokens nowUnix position minter s (actions ++ [action])).2 =
      (performAction S sandbox digest tokens nowUnix (position + actions.length)
        (performAll S sandbox digest tokens nowUnix position minter s actions).2.1
        (performAll S sandbox digest tokens nowUnix position minter s actions).2.2 action).2 := by
  induction actions generalizing position minter s with
  | nil => rfl
  | cons first actions ih =>
    rw [List.cons_append, performAll_cons, performAll_cons, List.length_cons, ih, Nat.add_assoc, Nat.add_comm 1]

theorem performAll_paths (position : ℕ) (minter : JsMinter host) (s : σ) (actions : List Action) :
    (performAll S sandbox digest tokens nowUnix position minter s actions).1.map
      (fun o ↦ (o.path, o.operation)) = actions.map fun a ↦ (a.path, a.kind) := by
  induction actions generalizing position minter s with
  | nil => rfl
  | cons action actions ih =>
    rw [performAll_cons, List.map_cons, List.map_cons, ih]
    have h := performAction_cases S sandbox digest tokens nowUnix position minter s action
    rcases h with ⟨_, _, _, he⟩ | ⟨_, _, _, _, _, _, _, _, he⟩
    · rw [he]
    · rw [he]

end

structure Result where
  planDigest : String
  outcomes : List Outcome
  observation : Observation
  surprise : Option Surprise
  comparisonRefused : Option String
  deriving DecidableEq, Repr

def Result.performed (result : Result) : ℕ := result.outcomes.countP Outcome.performed

def Result.refused (result : Result) : ℕ := result.outcomes.length - result.performed

def Result.ok (result : Result) : Bool :=
  result.refused = 0 && (match result.surprise with
    | some surprise => surprise.clean
    | none => false)

def observedTests (outcomes : List Outcome) : List TestOutcome :=
  outcomes.filterMap fun outcome ↦
    match outcome.ran with
    | some ⟨some name, exitCode, _, _⟩ =>
      if outcome.operation = "EXECUTE" ∧ outcome.performed ∧ name ≠ "" then
        some ⟨name, exitCode = some 0⟩ else none
    | _ => none

/-- The end of `execute`, after its loop: the observation and its comparison. -/
def conclude (digest : String) (expectation : Expectation) (outcomes : List Outcome)
    (observation : Observation) : Result :=
  match compare expectation observation with
  | .ok surprise => ⟨digest, outcomes, observation, some surprise, none⟩
  | .error e => ⟨digest, outcomes, observation, none, some e.reason⟩

end Noesar.Shadow
