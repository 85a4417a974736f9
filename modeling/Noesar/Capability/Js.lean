import Noesar.Capability.Minter
import Noesar.Lib.PosixPath

namespace Noesar.Capability

open Lib Lib.Framing Lib.PosixPath

def outOfScope (reason : String) : Refusal := ⟨.capabilityError, .outOfScope, none, reason⟩

def require (ok : Bool) (refusal : Refusal) : Except Refusal Unit :=
  if ok then .ok () else .error refusal

def requireAll {α : Type} (ok : α → Bool) (refusal : α → Refusal) (xs : List α) : Except Refusal Unit :=
  match xs.find? (fun x ↦ !ok x) with
  | none => .ok ()
  | some x => .error (refusal x)

section

variable {α β : Type}

@[simp] theorem require_bind_ok {ok : Bool} {refusal : Refusal} {f : Unit → Except Refusal β} {b : β} :
    (require ok refusal >>= f) = .ok b ↔ ok = true ∧ f () = .ok b := by
  cases ok <;> simp [require, bind, Except.bind]

@[simp] theorem requireAll_bind_ok {ok : α → Bool} {refusal : α → Refusal} {xs : List α}
    {f : Unit → Except Refusal β} {b : β} :
    (requireAll ok refusal xs >>= f) = .ok b ↔ (∀ x ∈ xs, ok x = true) ∧ f () = .ok b := by
  unfold requireAll
  split
  next h =>
    have hall : ∀ x ∈ xs, ok x = true := by simpa using h
    simp only [bind, Except.bind, and_iff_right hall]
  next x h =>
    have hx : ok x = false := by simpa using List.find?_some h
    have hnot : ¬ ∀ y ∈ xs, ok y = true := fun hall ↦ by
      simp [hall x (List.mem_of_find?_eq_some h)] at hx
    simp [bind, Except.bind, hnot]

end

namespace Js

def operations : List String := ["READ", "WRITE", "DELETE", "EXECUTE"]

def destructive : List String := ["DELETE", "EXECUTE"]

def invalid (reason : String) : Refusal := ⟨.capabilityError, .invalid, none, reason⟩

def leavesWorkspace (path : String) : Bool :=
  isAbsolute path || (normalize path).any (fun seg ↦ ".." ∈ splitOn (· = '\\') seg) ||
    decide ([':', '\\'] <:+: path.toList)

def acceptLimits (host : Host) (ceiling : Option Limits) (step : Step RawLimits) (operations : List String) :
    Option Limits → Except Refusal Unit
  | some limits => do
    let granted ← Isolation.parseLimits host step.blastRadius.limits
    require (Isolation.withinGrant (some limits) granted)
      (outOfScope s!"the requested limits exceed what step `{step.id}` grants")
    match Isolation.exceedsCeiling limits ceiling with
    | some wider => .error (outOfScope (s!"limit `{wider.name}` is wider than this installation's own ceiling; " ++
        "a sandbox cannot grant more than the container it runs in"))
    | none => Isolation.assertUsable limits
  | none => require (!("EXECUTE" ∈ operations && ceiling.isSome))
      (outOfScope ("an EXECUTE capability must carry its own limits on an installation that enforces them: " ++
        "without them the process would run with the whole container's"))

def accept {host : Host} (ceiling : Option Limits) (authorized : AuthorizedPlan host Number RawLimits)
    (request : Request String Number Number RawLimits) (nowUnix : Number) :
    Except Refusal (Option Limits) :=
  match authorized.plan.steps.find? (fun candidate ↦ candidate.id = request.stepId) with
  | none => .error (outOfScope s!"step `{request.stepId}` is not in the approved plan")
  | some step => do
    require (!request.paths.isEmpty && !request.operations.isEmpty)
      (invalid "a capability granting no path or no operation is not a capability")
    require (Number.zero.lt request.uses)
      (invalid "a token that can never be spent is a token that should not be issued")
    requireAll (fun operation ↦ operation ∈ operations)
      (fun operation ↦ invalid s!"unknown operation `{operation}`") request.operations
    requireAll (fun path ↦ path ∈ step.files)
      (fun path ↦ outOfScope s!"path `{path}` is not among the files of step `{step.id}`") request.paths
    require (step.blastRadius.destructive || !request.operations.any (· ∈ destructive))
      (outOfScope s!"step `{step.id}` is not declared destructive and cannot grant delete or execute")
    require (!step.blastRadius.reachesOutsideWorkspace)
      (outOfScope s!"step `{step.id}` reaches outside the workspace")
    requireAll (fun path ↦ !leavesWorkspace path)
      (fun path ↦ outOfScope s!"path `{path}` leaves the workspace, whatever the step declares") request.paths
    require (!request.expiresAtUnix.le nowUnix)
      (invalid "a token already expired at issue is a token nobody can use or audit")
    require (!authorized.approval.expiresAtUnix.lt request.expiresAtUnix)
      (outOfScope "a capability may not outlive the approval it descends from")
    let limits ← Isolation.parseLimits host request.limits
    acceptLimits host ceiling step request.operations limits
    pure limits

theorem accept_operations {host : Host} {ceiling : Option Limits}
    {authorized : AuthorizedPlan host Number RawLimits} {request : Request String Number Number RawLimits}
    {nowUnix : Number} {limits : Option Limits} (h : accept ceiling authorized request nowUnix = .ok limits) :
    ∀ operation ∈ request.operations, operation ∈ operations := by
  unfold accept at h
  split at h
  · cases h
  · simp only [require_bind_ok, requireAll_bind_ok, decide_eq_true_eq] at h
    exact h.2.2.1

theorem accept_inTime {host : Host} {ceiling : Option Limits}
    {authorized : AuthorizedPlan host Number RawLimits} {request : Request String Number Number RawLimits}
    {nowUnix : Number} {limits : Option Limits} (h : accept ceiling authorized request nowUnix = .ok limits) :
    request.expiresAtUnix.le nowUnix = false := by
  unfold accept at h
  split at h
  · cases h
  · simp only [require_bind_ok, requireAll_bind_ok, Bool.not_eq_true'] at h
    exact h.2.2.2.2.2.2.2.1

/-- The minter of the control plane. Its numbers are those of the language, so
the counter stops where adding one no longer changes it. -/
def dialect (host : Host) : Dialect host where
  Operation := String
  Time := Number
  Uses := Number
  StepLimits := RawLimits
  RequestLimits := RawLimits
  decideOperation := inferInstance
  signedAs := host.toLowerCase
  shownAs operation := operation
  timeText := host.numberToString
  usesText := host.numberToString
  lapsed nowUnix expiresAtUnix := expiresAtUnix.le nowUnix
  isSpent usesRemaining := usesRemaining = Number.zero
  oneLess := Number.decrement
  advance counter := if counter < 2 ^ 53 then counter + 1 else counter
  counterBytes counter := utf8 (toString counter)
  accept := accept

end Js

end Noesar.Capability
