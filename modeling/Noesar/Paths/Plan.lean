import Noesar.Lib.Destination
import Noesar.Workflows.Definition

namespace Noesar.Paths

open Lib Lib.PosixPath

structure Host where
  disk : Disk
  cwd : List String
  homedir : String

def protectedRoots : List String := ["/boot", "/dev", "/etc", "/proc", "/root", "/sys", "/usr"]

def namesOf (host : Host) (paths : List String) : List String :=
  paths.foldl (fun names path ↦ if isAbsolute path then segments path else names ++ segments path) host.cwd

/-- `resolve(...paths)` -/
def resolve (host : Host) (paths : List String) : List String := normalizeSegments false (namesOf host paths)

/-- A normalized absolute path, which keeps a slash at its end. -/
structure Candidate where
  names : List String
  slash : Bool

/-- The physical path of what is there. Before a slash there is a directory, or nothing. -/
def realpathSync (disk : Disk) (candidate : Candidate) : Option (List String) :=
  match disk.resolve candidate.names with
  | .here place => if candidate.slash ∧ disk.get place ≠ some .directory then none else some place
  | _ => none

def existsSync (disk : Disk) (candidate : Candidate) : Bool := (realpathSync disk candidate).isSome

/-- Nothing but the root itself is found within the root, before which the separator would stand twice. -/
def within (child parent : List String) : Bool := child = parent || (parent ≠ [] && parent.isPrefixOf child)

def isSymbolicLink (disk : Disk) (current : List String) : Bool :=
  match disk.walk false (Disk.maxLinks + 1) [] current with
  | .here place =>
    match disk.get place with
    | some (.link _) => true
    | _ => false
  | _ => false

structure Finding where
  type : String
  path : List String
  deriving DecidableEq

def inspectExistingSegments (disk : Disk) (target : List String) : List Finding :=
  (target.inits.tail.filter fun current ↦ existsSync disk ⟨current, false⟩ && isSymbolicLink disk current).map (⟨"symlink", ·⟩)

inductive EnforcementStatus
  | active
  | notEnforcedAtThisLayer
  deriving DecidableEq

structure Enforcement where
  id : String
  status : EnforcementStatus
  enforcedBy : String
  deriving DecidableEq

def invariantEnforcement : List Enforcement := [
  ⟨"credential_theft_prevention", .active,
    "path-auth.createPathPlan — protected roots and the owner secret directories are blocked before any mode is considered"⟩,
  ⟨"signed_update_verification", .active,
    "update-manager.verifyBundle / verifyMetadata — Ed25519 over the exact manifest bytes, with anti-rollback"⟩,
  ⟨"audit_integrity", .active, "audit.AuditLedger.append / verify — SHA-256 hash chain, append-only, 0600"⟩,
  ⟨"destructive_action_confirmation", .active,
    "server /api/v1/coden/authorize — the consent scope must be one the plan offered, and a destructive operation may only be granted a per-operation or per-file scope"⟩,
  ⟨"malware_prevention", .notEnforcedAtThisLayer,
    "Execution layer. This authorization plans paths and issues scoped approvals; it has no execution surface (executionEnabled:false) and does not inspect command content."⟩,
  ⟨"illegal_cyberattack_prevention", .notEnforcedAtThisLayer,
    "Execution layer and model policy. Not a property of a filesystem path; the path authorizer cannot observe intent or network target."⟩,
  ⟨"physical_harm_prevention", .notEnforcedAtThisLayer,
    "Model policy layer. A content commitment, unobservable to path authorization."⟩]

def operations : List String := ["read", "write", "delete", "execute", "install"]

def consentOptions : List String := ["ONE_OPERATION", "LISTED_FILES", "FOLDER_FOR_SESSION", "PERSISTENT_FOLDER", "DENY"]

inductive Risk
  | low
  | high
  | critical
  deriving DecidableEq

structure Request (α : Type) where
  path : Option String := none
  operation : Option String := none
  mode : Option String := none
  recursive : Bool := false
  commands : List α := []
  dependencies : List α := []
  networkRequested : Bool := false
  secretsRequested : Bool := false

structure Backup where
  required : Bool
  strategy : String

structure Plan (α : Type) where
  mode : String
  requestedPath : String
  canonicalPath : List String
  workspaceRoot : List String
  insideWorkspace : Bool
  operation : String
  recursive : Bool
  commands : List α
  dependencies : List α
  networkRequested : Bool
  secretsRequested : Bool
  symlinkFindings : List Finding
  protectedMatch : Option String
  risk : Risk
  blocked : Bool
  requiresStrongReauthentication : Bool
  consentOptions : List String
  backup : Backup
  verification : List String
  rollback : List String
  nonBypassableInvariants : List String
  invariantEnforcement : List Enforcement

def rawPath {α : Type} (request : Request α) : String := Workflows.trim (request.path.getD "")

def candidateOf {α : Type} (host : Host) (workspaceRoot : String) (request : Request α) : Candidate :=
  let path := rawPath request
  if isAbsolute path then ⟨normalizeSegments false (segments path), path.toList.getLast? = some '/'⟩
  else ⟨resolve host [workspaceRoot, path], false⟩

def secretDirectories (host : Host) : List (List String) := [resolve host [host.homedir, ".ssh"], resolve host [host.homedir, ".config"]]

def createPathPlan {α : Type} (host : Host) (request : Request α) (workspaceRoot : String) : Except String (Plan α) :=
  let candidate := candidateOf host workspaceRoot request
  let canonical := (realpathSync host.disk candidate).getD candidate.names
  let operation := request.operation.getD "write"
  let findings := inspectExistingSegments host.disk candidate.names
  let protectedMatch := protectedRoots.find? fun root ↦ within canonical (resolve host [root])
  let ownerHomeSecrets := (secretDirectories host).any (within canonical)
  let insideWorkspace := within canonical (resolve host [workspaceRoot])
  let blocked := protectedMatch.isSome || ownerHomeSecrets
  let risk : Risk :=
    if blocked || findings ≠ [] then .critical
    else if operation = "delete" || request.recursive || !insideWorkspace then .high
    else .low
  if rawPath request = "" then .error "Path is required"
  else if operation ∉ operations then .error ("Operation must be one of: " ++ ", ".intercalate operations ++ ".")
  else .ok {
    mode := request.mode.getD "NORMAL"
    requestedPath := rawPath request
    canonicalPath := canonical
    workspaceRoot := resolve host [workspaceRoot]
    insideWorkspace, operation, protectedMatch, risk, blocked, consentOptions, invariantEnforcement
    recursive := request.recursive
    commands := request.commands
    dependencies := request.dependencies
    networkRequested := request.networkRequested
    secretsRequested := request.secretsRequested
    symlinkFindings := findings
    requiresStrongReauthentication := risk = .critical || request.mode = some "OWNER_BYPASS"
    backup := ⟨operation ≠ "read", "content-addressed safety copy before mutation"⟩
    verification := ["confirm expected files", "run bounded tests", "review diff", "append audit event"]
    rollback := ["restore safety copy", "remove only newly-created listed files", "verify integrity"]
    nonBypassableInvariants := invariantEnforcement.map Enforcement.id }

end Noesar.Paths
