import Noesar.Capability.Js

namespace Noesar.Capability.Rust

open Lib Lib.Framing Lib.PosixPath

inductive Operation
  | read
  | write
  | delete
  | execute
  deriving DecidableEq, Repr

namespace Operation

def isDestructive : Operation → Bool
  | delete => true
  | execute => true
  | _ => false

def signedAs : Operation → String
  | read => "read"
  | write => "write"
  | delete => "delete"
  | execute => "execute"

def shownAs : Operation → String
  | read => "Read"
  | write => "Write"
  | delete => "Delete"
  | execute => "Execute"

end Operation

/-- The characters with the property `White_Space`, which `trim` removes. -/
def isWhitespace (c : Char) : Bool :=
  c.val ∈ [0x9, 0xA, 0xB, 0xC, 0xD, 0x20, 0x85, 0xA0, 0x1680, 0x2028, 0x2029, 0x202F, 0x205F, 0x3000] ||
    (0x2000 ≤ c.val && c.val ≤ 0x200A)

variable {L : Type}

def tryAuthorize (host : Host) (plan : Plan L) (approval : Approval Int64) (nowUnix : Int64) :
    Except Refusal (AuthorizedPlan host Int64 L) :=
  if approval.approverId.toList.all isWhitespace then
    .error (notAuthorized "an approval with no approver names nobody accountable")
  else if approval.expiresAtUnix ≤ approval.grantedAtUnix then
    .error (notAuthorized "an approval that expires before it is granted authorises nothing")
  else if approval.expiresAtUnix ≤ nowUnix then
    .error (notAuthorized "the approval has lapsed")
  else
    let digest := planDigest host plan
    .ok ⟨plan, approval, digest, rfl⟩

def invalid (field reason : String) : Refusal := ⟨.capabilityError, .invalid, some field, reason⟩

def escapes (path : String) : Bool :=
  ".." ∈ segments path || isAbsolute path || decide ([':', '\\'] <:+: path.toList)

def accept {host : Host} (_ceiling : Option Limits) (authorized : AuthorizedPlan host Int64 Empty)
    (request : Request Operation Int64 UInt32 Limits) (nowUnix : Int64) :
    Except Refusal (Option Limits) :=
  match authorized.plan.steps.find? (fun step ↦ step.id = request.stepId) with
  | none => .error (outOfScope s!"step `{request.stepId}` is not in the approved plan")
  | some step => do
    require (!request.paths.isEmpty && !request.operations.isEmpty)
      (invalid "CapabilityRequest" "a capability granting no path or no operation is not a capability")
    require (request.uses ≠ 0)
      (invalid "CapabilityRequest.uses" "a token that can never be spent is a token that should not be issued")
    requireAll (fun path ↦ path ∈ step.files)
      (fun path ↦ outOfScope s!"path `{path}` is not among the files of step `{step.id}`") request.paths
    require (step.blastRadius.destructive || !request.operations.any Operation.isDestructive)
      (outOfScope s!"step `{step.id}` is not declared destructive and cannot grant delete or execute")
    require (!step.blastRadius.reachesOutsideWorkspace)
      (outOfScope s!"step `{step.id}` reaches outside the workspace")
    requireAll (fun path ↦ !escapes path)
      (fun path ↦ outOfScope s!"path `{path}` leaves the workspace, whatever the step declares") request.paths
    require (nowUnix < request.expiresAtUnix)
      (invalid "CapabilityRequest.expires_at_unix"
        "a token already expired at issue is a token nobody can use or audit")
    require (request.expiresAtUnix ≤ authorized.approval.expiresAtUnix)
      (outOfScope "a capability may not outlive the approval it descends from")
    pure request.limits

def dialect (host : Host) : Dialect host where
  Operation := Operation
  Time := Int64
  Uses := UInt32
  StepLimits := Empty
  RequestLimits := Limits
  decideOperation := inferInstance
  signedAs := Operation.signedAs
  shownAs := Operation.shownAs
  timeText time := toString time.toInt
  usesText uses := toString uses.toNat
  lapsed nowUnix expiresAtUnix := expiresAtUnix ≤ nowUnix
  isSpent usesRemaining := usesRemaining = 0
  oneLess usesRemaining := usesRemaining - 1
  advance counter := (counter + 1) % 2 ^ 64
  counterBytes := le64
  accept := accept

end Noesar.Capability.Rust
